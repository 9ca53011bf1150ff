import AmmCompiler.Translation
import Mathlib.Tactic.Lemma

/-! What JavaScript keeps of a program. Event declarations, type labels and what a handler does not
receive are dropped, and the text of a program is the text of its outline. -/

namespace AmmCompiler

mutual

inductive ValueOutline
  | closure (parameters : List String) (body : List StatementOutline)
  | call (call : Call)
  | variable (name : String)
  | literal (text : String)

inductive StatementOutline
  | declare (binding : Binding) (name : String) (value : ValueOutline)
  | assign (name : String) (value : ValueOutline)
  | call (call : Call)
  | emit (event payload : String)
  | exit (fragment : String)

end

structure ConstantOutline where
  name : String
  value : ValueOutline

structure HandlerOutline where
  event : String
  payload : Option String
  body : List StatementOutline

structure ProgramOutline where
  constants : List ConstantOutline
  handlers : List HandlerOutline

def Target.literalText (target : Target) (typeLabel token : String) : String :=
  if target.isBigInt typeLabel token then token ++ target.bigIntSuffix else token

mutual

def Value.outline (target : Target) (typeLabel : String) : Value → ValueOutline
  | .closure c => c.outline target
  | .call c => .call c
  | .variable name => .variable name
  | .literal token => .literal (target.literalText typeLabel token)

def Closure.outline (target : Target) : Closure → ValueOutline
  | ⟨parameters, _, body⟩ => .closure parameters.names (blockOutline target body)

def Statement.outline (target : Target) : Statement → StatementOutline
  | .declare binding name typeLabel value => .declare binding name (value.outline target typeLabel)
  | .assign name typeLabel value => .assign name (value.outline target typeLabel)
  | .call c => .call c
  | .emit event payload => .emit event (payload.getD "undefined")
  | .exit fragment => .exit fragment

def blockOutline (target : Target) : List Statement → List StatementOutline
  | [] => []
  | s :: ss => s.outline target :: blockOutline target ss

end

def Constant.outline (target : Target) (c : Constant) : ConstantOutline where
  name := c.name
  value := c.value.outline target c.typeLabel

def Handler.outline (target : Target) (h : Handler) : HandlerOutline where
  event := h.event
  payload := h.closure.parameters.payload?
  body := blockOutline target h.closure.body

def Program.outline (target : Target) (p : Program) : ProgramOutline where
  constants := p.constants.map (Constant.outline target)
  handlers := p.handlers.map (Handler.outline target)

def Target.callText (target : Target) (call : Call) : String :=
  (if target.suspends call.opcode then "await " else "") ++ target.invocation call

mutual

def ValueOutline.text (target : Target) (indent : String) : ValueOutline → String
  | .closure parameters body => "async (" ++ ", ".intercalate parameters ++ ") => \x7b\n" ++
      outlineLines target (indent ++ indentStep) body ++ (indent ++ indentStep) ++ "\x7d"
  | .call c => target.callText c
  | .variable name => name
  | .literal text => text

def StatementOutline.text (target : Target) (indent : String) : StatementOutline → String
  | .declare binding name value => binding.keyword ++ " " ++ name ++ " = " ++ value.text target indent
  | .assign name value => name ++ " = " ++ value.text target indent
  | .call c => target.callText c
  | .emit event payload => target.emitEvent event payload
  | .exit fragment => Text.trimmed fragment

def outlineLines (target : Target) (indent : String) : List StatementOutline → String
  | [] => ""
  | s :: ss => indent ++ indentStep ++ s.text target indent ++ "\n" ++ outlineLines target indent ss

end

def ConstantOutline.text (target : Target) (c : ConstantOutline) : String :=
  "const " ++ c.name ++ " = " ++ c.value.text target "" ++ "\n"

def HandlerOutline.text (target : Target) (h : HandlerOutline) : String :=
  target.handle ++ ".on('" ++ h.event ++ "', async (" ++ h.payload.getD "" ++ ") => \x7b\n" ++
    outlineLines target "" h.body ++ "\x7d)\n"

namespace ProgramOutline

def handles (p : ProgramOutline) (event : String) : Bool :=
  p.handlers.any fun h => h.event == event

def text (target : Target) (p : ProgramOutline) : String :=
  target.header ++ String.join (p.constants.map (ConstantOutline.text target)) ++
    String.join (p.handlers.map (HandlerOutline.text target)) ++
      target.listenerLines (p.handles target.connectionEvent) (p.handles target.tcpConnectionEvent) ++
        target.startLine

end ProgramOutline

variable {target : Target}

lemma call_text (c : Call) (st : Statistics) : ((c.compile target).run st).1 = target.callText c :=
  rfl

lemma literal_text (l t : String) (st : Statistics) :
    ((compileLiteral target l t).run st).1 = target.literalText l t := by
  rw [compileLiteral, Target.literalText]
  split
  · rfl
  · rfl

mutual

theorem value_text (v : Value) (l indent : String) (st : Statistics) :
    ((v.compile target l indent).run st).1 = (v.outline target l).text target indent := by
  match v with
  | .closure c => exact closure_text c indent st
  | .call c => exact call_text c st
  | .variable n => rfl
  | .literal t => exact literal_text l t st

theorem closure_text (c : Closure) (indent : String) (st : Statistics) :
    ((c.compile target indent).run st).1 = (c.outline target).text target indent := by
  match c with
  | ⟨parameters, label, body⟩ =>
    have hb := block_text body (indent ++ indentStep) st.recordClosure
    rw [Closure.outline, ValueOutline.text, ← hb]
    rfl

theorem statement_text (s : Statement) (indent : String) (st : Statistics) :
    ((s.compile target indent).run st).1 = (s.outline target).text target indent := by
  match s with
  | .declare b n l v =>
    have hv := value_text v l indent st
    rw [Statement.outline, StatementOutline.text, ← hv]
    rfl
  | .assign n l v =>
    have hv := value_text v l indent st
    rw [Statement.outline, StatementOutline.text, ← hv]
    rfl
  | .call c => exact call_text c st
  | .emit e p => rfl
  | .exit f => rfl

theorem block_text (ss : List Statement) (indent : String) (st : Statistics) :
    ((compileBlock target indent ss).run st).1 = outlineLines target indent (blockOutline target ss) := by
  match ss with
  | [] => rfl
  | s :: ss =>
    have hs := statement_text s indent st
    have hb := block_text ss indent ((s.compile target indent).run st).2.recordStatement
    rw [blockOutline, outlineLines, ← hs, ← hb]
    rfl

end

lemma constants_text (cs : List Constant) (st : Statistics) : ((compileConstants target cs).run st).1 =
    String.join ((cs.map (Constant.outline target)).map (ConstantOutline.text target)) := by
  induction cs generalizing st with
  | nil => rfl
  | cons c cs ih =>
    have hv := @value_text target c.value c.typeLabel "" st
    have hc : ((c.compile target).run st).1 = (c.outline target).text target := by
      rw [ConstantOutline.text, Constant.outline, ← hv]
      rfl
    rw [List.map_cons, List.map_cons, String.join_cons, ← hc, ← ih ((c.compile target).run st).2]
    rfl

lemma registration_text (h : Handler) (st : Statistics) :
    ((h.compileRegistration target).run st).1 = (h.outline target).text target := by
  have hb := @block_text target h.closure.body "" st
  rw [HandlerOutline.text, Handler.outline, ← hb]
  rfl

lemma run_bind {α β : Type} (m : FallibleEmission α) (f : α → FallibleEmission β) (st : Statistics) :
    (m >>= f).run.run st = match m.run.run st with
      | (.ok a, st') => (f a).run.run st'
      | (.error e, st') => (.error e, st') := by
  change (match m.run.run st with | (a, st') => StateT.run (ExceptT.bindCont f a) st') = _
  obtain ⟨e | a, st'⟩ := m.run.run st
  · rfl
  · rfl

lemma run_lift_bind {α β : Type} (m : Emission α) (f : α → FallibleEmission β) (st : Statistics) :
    ((liftM m : FallibleEmission α) >>= f).run.run st = (f (m.run st).1).run.run (m.run st).2 :=
  rfl

lemma handlers_cons {d : Handler} (ds : List Handler) (st : Statistics)
    (h : d.event ≠ target.controlPortEvent) : ((compileHandlers target (d :: ds)).run.run st).1 =
      ((compileHandlers target ds).run.run ((d.compileRegistration target).run st).2).1.map
        ((d.outline target).text target ++ ·) := by
  simp only [compileHandlers, Handler.compile, if_neg h]
  rw [run_lift_bind, run_bind, registration_text]
  obtain ⟨e | t, st'⟩ := (compileHandlers target ds).run.run ((d.compileRegistration target).run st).2
  · rfl
  · rfl

lemma handlers_control {d : Handler} (ds : List Handler) (st : Statistics)
    (h : d.event = target.controlPortEvent) :
    ((compileHandlers target (d :: ds)).run.run st).1 = .error ⟨d.event⟩ := by
  simp only [compileHandlers, Handler.compile, if_pos h]
  rfl

lemma handlers_ok {hs : List Handler} {st : Statistics} {x : String}
    (h : ((compileHandlers target hs).run.run st).1 = .ok x) : (∀ d ∈ hs, d.event ≠ target.controlPortEvent) ∧
      x = String.join ((hs.map (Handler.outline target)).map (HandlerOutline.text target)) := by
  induction hs generalizing st x with
  | nil =>
    obtain rfl := Except.ok.inj h
    exact ⟨List.forall_mem_nil _, rfl⟩
  | cons d ds ih =>
    by_cases he : d.event = target.controlPortEvent
    · rw [handlers_control ds st he] at h
      cases h
    · rw [handlers_cons ds st he] at h
      cases hr : ((compileHandlers target ds).run.run ((d.compileRegistration target).run st).2).1 with
      | error e =>
        rw [hr] at h
        cases h
      | ok t =>
        rw [hr] at h
        obtain rfl := Except.ok.inj h
        obtain ⟨hfree, ht⟩ := ih hr
        exact ⟨List.forall_mem_cons.mpr ⟨he, hfree⟩, by rw [ht, List.map_cons, List.map_cons, String.join_cons]⟩

lemma handles_outline (p : Program) (event : String) :
    (p.outline target).handles event = p.handles event := by
  simp only [ProgramOutline.handles, Program.outline, Program.handles, List.any_map]
  rfl

lemma compile_handlers (p : Program) (st : Statistics) :
    ∃ st', ((p.compile target).run.run st).1 = ((compileHandlers target p.handlers).run.run st').1.map fun t =>
      target.header ++ ((compileConstants target p.constants).run st).1 ++ t ++
        target.listenerLines (p.handles target.connectionEvent) (p.handles target.tcpConnectionEvent) ++
          target.startLine := by
  refine ⟨((compileConstants target p.constants).run st).2.recordEvents p.events.length, ?_⟩
  rw [Program.compile, run_lift_bind]
  change (StateT.run (ExceptT.run (compileHandlers target p.handlers >>= _)) _).1 = _
  rw [run_bind]
  generalize (compileHandlers target p.handlers).run.run _ = r
  obtain ⟨e | t, st'⟩ := r
  · rfl
  · rfl

lemma text_of_translate {p : Program} {x : String} (h : p.translate target = .ok x) :
    x = (p.outline target).text target := by
  obtain ⟨st, hs⟩ := @compile_handlers target p .empty
  have hx : ((p.compile target).run.run .empty).1 = .ok x := by
    simp only [Program.translate, Program.translateWithStatistics] at h
    change ((p.compile target).run .empty).1 = .ok x
    generalize (p.compile target).run .empty = r at h
    obtain ⟨e | t, st'⟩ := r
    · cases h
    · obtain rfl := Except.ok.inj h
      rfl
  rw [hx] at hs
  cases hr : ((compileHandlers target p.handlers).run.run st).1 with
  | error e =>
    rw [hr] at hs
    cases hs
  | ok t =>
    rw [hr] at hs
    obtain rfl := Except.ok.inj hs
    rw [ProgramOutline.text, handles_outline, handles_outline, constants_text, (handlers_ok hr).2]
    rfl

end AmmCompiler
