import AmmCompiler.Proofs.JavaScript.Assembly
import AmmCompiler.Proofs.JavaScript.Parts

/-! A script binds the handle of the runtime in its header and, under the names that the source has for them, its
constants, parameters and declarations. The only other names in it are those of the texts that it copies. -/

namespace AmmCompiler

open Source

/-- What is left open of JavaScript: the letters of identifiers beyond ASCII, and the names that a text which is
copied into a script binds or assigns there. -/
structure Language where
  begins : Char → Bool
  continues : Char → Bool
  bound : String → List String

namespace Language

def isStart (L : Language) (c : Char) : Bool :=
  c.isAlpha || c == '_' || c == '$' || (127 < c.toNat && L.begins c)

def isPart (L : Language) (c : Char) : Bool :=
  L.isStart c || c.isDigit || (127 < c.toNat && L.continues c)

def reserved : List String :=
  ["break", "case", "catch", "class", "const", "continue", "debugger", "default", "delete", "do", "else", "enum",
    "export", "extends", "false", "finally", "for", "function", "if", "import", "in", "instanceof", "new", "null",
    "return", "super", "switch", "this", "throw", "true", "try", "typeof", "var", "void", "while", "with", "yield",
    "await", "let", "static", "implements", "interface", "package", "private", "protected", "public", "eval",
    "arguments", "exports", "require", "module", "__filename", "__dirname"]

def canDeclare (L : Language) (name : String) : Bool :=
  match name.toList with
  | [] => false
  | c :: cs => L.isStart c && cs.all L.isPart && name ∉ reserved

end Language

/-- A piece of a script behind `const` and the handle, with which it begins. `runtime` is the handle, `copied` a text
that is written without a look at it, and `enter` opens the body of a function that `leave` closes. -/
inductive Mark
  | text (text : String)
  | copied (text : String)
  | runtime
  | declare (binding : Binding) (name : String)
  | assign (name : String)
  | enter (parameters : List String)
  | leave

inductive Binder
  | header
  | source (name : String)
  | copied (name : String)
  deriving DecidableEq

def Binder.name (handle : String) : Binder → String
  | header => handle
  | source name => name
  | copied name => name

namespace Mark

def written (handle : String) : Mark → String
  | text t => t
  | copied t => t
  | runtime => handle
  | declare binding name => binding.keyword ++ " " ++ name ++ " = "
  | assign name => name ++ " = "
  | enter parameters => "async (" ++ ", ".intercalate parameters ++ ") => \x7b\n"
  | leave => "\x7d"

def names (L : Language) : Mark → List String
  | copied t => L.bound t
  | declare _ name => [name]
  | assign name => [name]
  | enter parameters => parameters
  | _ => []

def declares (L : Language) : Mark → List Binder
  | copied t => (L.bound t).map .copied
  | declare _ name => [.source name]
  | _ => []

end Mark

def marksText (handle : String) (marks : List Mark) : String :=
  String.join (marks.map (Mark.written handle))

def scriptText (handle : String) (marks : List Mark) : String :=
  "const " ++ handle ++ marksText handle marks

def boundNames (L : Language) (marks : List Mark) : List String :=
  marks.flatMap (Mark.names L)

def declaredIn (L : Language) : Nat → List Mark → List Binder
  | _, [] => []
  | depth, .enter _ :: marks => declaredIn L (depth + 1) marks
  | 0, .leave :: _ => []
  | depth + 1, .leave :: marks => declaredIn L depth marks
  | 0, mark :: marks => mark.declares L ++ declaredIn L 0 marks
  | depth + 1, _ :: marks => declaredIn L (depth + 1) marks

def scopesIn (L : Language) : List (List Binder) → List Mark → List (List (List Binder))
  | _, [] => []
  | scopes, .runtime :: marks => scopes :: scopesIn L scopes marks
  | scopes, .enter parameters :: marks =>
    scopesIn L ((parameters.map Binder.source ++ declaredIn L 0 marks) :: scopes) marks
  | scopes, .leave :: marks => scopesIn L scopes.tail marks
  | scopes, _ :: marks => scopesIn L scopes marks

def handleBinders (handle : String) : List (List Binder) → List Binder
  | [] => []
  | scope :: outer =>
    match scope.filter fun b => b.name handle = handle with
    | [] => handleBinders handle outer
    | binders => binders

def moduleScope (L : Language) (handle : String) (marks : List Mark) : List Binder :=
  (if L.canDeclare handle then [.header] else []) ++ declaredIn L 0 marks

/-- What the handle refers to at each of its uses. -/
def referents (L : Language) (handle : String) (marks : List Mark) : List (List Binder) :=
  (scopesIn L [] marks).map fun scopes => handleBinders handle (scopes ++ [moduleScope L handle marks])

namespace Target

def callMarks (target : Target) (call : Call) : List Mark :=
  [.text (if target.suspends call.opcode then "await " else ""), .runtime,
    .text ("." ++ call.opcode ++ "(" ++ ", ".intercalate call.arguments ++ ")")]

def literalMarks (target : Target) (typeLabel token : String) : List Mark :=
  .text token :: if target.isBigInt typeLabel token then [.copied target.bigIntSuffix] else []

def emitMarks (event payload : String) : List Mark :=
  [.runtime, .text (".emit('" ++ event ++ "', " ++ payload ++ ")")]

def headerMarks (target : Target) : List Mark :=
  [.text " = require('", .copied target.runtimeModule, .text "')\n"]

def listenerMarks (target : Target) (listener : String) : List Mark :=
  [.runtime, .text ".on('", .copied target.startEvent, .text "', () => ", .runtime, .text ".", .copied listener,
    .text "())\n"]

def startMarks (target : Target) : List Mark :=
  [.runtime, .text ".emit('", .copied target.startEvent, .text "', undefined)\n"]

end Target

mutual

def Value.marks (target : Target) (typeLabel indent : String) : Value → List Mark
  | .closure c => c.marks target indent
  | .call c => target.callMarks c
  | .variable name => [.text name]
  | .literal token => target.literalMarks typeLabel token

def Closure.marks (target : Target) (indent : String) : Closure → List Mark
  | ⟨parameters, _, body⟩ =>
    .enter parameters.names :: (blockMarks target (indent ++ indentStep) body ++ [.text (indent ++ indentStep), .leave])

def Statement.marks (target : Target) (indent : String) : Statement → List Mark
  | .declare binding name typeLabel value => .declare binding name :: value.marks target typeLabel indent
  | .assign name typeLabel value => .assign name :: value.marks target typeLabel indent
  | .call c => target.callMarks c
  | .emit event payload => Target.emitMarks event (payload.getD "undefined")
  | .exit fragment => [.copied (Text.trimmed fragment)]

def blockMarks (target : Target) (indent : String) : List Statement → List Mark
  | [] => []
  | s :: ss => .text (indent ++ indentStep) ::
      (s.marks target indent ++ .text "\n" :: blockMarks target indent ss)

end

def Constant.marks (target : Target) (c : Constant) : List Mark :=
  .declare .const c.name :: (c.value.marks target c.typeLabel "" ++ [.text "\n"])

def Handler.marks (target : Target) (h : Handler) : List Mark :=
  .runtime :: .text (".on('" ++ h.event ++ "', ") :: .enter h.closure.parameters.payload?.toList ::
    (blockMarks target "" h.closure.body ++ [.leave, .text ")\n"])

namespace Program

def marks (target : Target) (p : Program) : List Mark :=
  target.headerMarks ++ (p.constants.flatMap (Constant.marks target) ++ (p.handlers.flatMap (Handler.marks target) ++
    ((if p.handles target.connectionEvent then target.listenerMarks target.httpListener else []) ++
      ((if p.handles target.tcpConnectionEvent then target.listenerMarks target.tcpListener else []) ++
        target.startMarks))))

inductive Binds (p : Program) (name : String) : Prop
  | constant {c : Constant} : c ∈ p.constants → c.name = name → Binds p name
  | payload {h : Handler} : h ∈ p.handlers → h.closure.parameters.payload? = some name → Binds p name
  | parameter {c : Closure} : c ∈ p.closures → name ∈ c.parameters.names → Binds p name
  | declared {b : Binding} {l : String} {v : Value} : .declare b name l v ∈ p.statements → Binds p name
  | assigned {l : String} {v : Value} : .assign name l v ∈ p.statements → Binds p name

/-- The texts of the source and of the target that are written without a look at them. -/
inductive Copies (target : Target) (p : Program) : String → Prop
  | runtimeModule : Copies target p target.runtimeModule
  | startEvent : Copies target p target.startEvent
  | httpListener : p.handles target.connectionEvent → Copies target p target.httpListener
  | tcpListener : p.handles target.tcpConnectionEvent → Copies target p target.tcpListener
  | bigIntSuffix {l t : String} : (l, t) ∈ p.literals → target.isBigInt l t → Copies target p target.bigIntSuffix
  | exit {f : String} : .exit f ∈ p.statements → Copies target p (Text.trimmed f)

end Program

variable {target : Target} {handle n : String} {m : Mark} {xs ys marks : List Mark} {p : Program} {L : Language}

lemma marksText_cons : marksText handle (m :: xs) = m.written handle ++ marksText handle xs := by
  rw [marksText, List.map_cons, String.join_cons, marksText]

lemma marksText_append : marksText handle (xs ++ ys) = marksText handle xs ++ marksText handle ys := by
  rw [marksText, List.map_append, String.join_append, marksText, marksText]

lemma marksText_nil : marksText handle [] = "" :=
  rfl

lemma marksText_singleton : marksText handle [m] = m.written handle := by
  rw [marksText_cons, marksText_nil, String.append_empty]

lemma call_marksText (c : Call) : marksText target.handle ({ target with handle }.callMarks c) = target.callText c := by
  rw [Target.callMarks, marksText_cons, marksText_cons, marksText_singleton, Target.callText, Target.invocation]
  simp only [Mark.written, String.append_assoc]
  rfl

lemma emit_marksText (event payload : String) :
    marksText target.handle (Target.emitMarks event payload) = target.emitEvent event payload := by
  rw [Target.emitMarks, marksText_cons, marksText_singleton, Target.emitEvent]
  simp only [Mark.written, String.append_assoc]

lemma literal_marksText (l t : String) : marksText handle (target.literalMarks l t) = target.literalText l t := by
  rw [Target.literalMarks, marksText_cons, Target.literalText]
  split
  · rw [marksText_singleton]
    rfl
  · exact String.append_empty

lemma listener_marksText (listener : String) :
    marksText target.handle ({ target with handle }.listenerMarks listener) = target.startListener listener := by
  rw [Target.listenerMarks, marksText_cons, marksText_cons, marksText_cons, marksText_cons, marksText_cons, marksText_cons,
    marksText_cons, marksText_singleton, Target.startListener]
  simp only [Mark.written, String.append_assoc]

lemma start_marksText : marksText target.handle { target with handle }.startMarks = target.startLine := by
  rw [Target.startMarks, marksText_cons, marksText_cons, marksText_cons, marksText_singleton, Target.startLine,
    Target.emitEvent]
  simp only [Mark.written, String.append_assoc]
  rfl

lemma header_marksText : "const " ++ target.handle ++ marksText target.handle { target with handle }.headerMarks =
    target.header := by
  rw [Target.headerMarks, marksText_cons, marksText_cons, marksText_singleton, Target.header]
  simp only [Mark.written, String.append_assoc]

mutual

theorem value_marksText (v : Value) (l indent : String) :
    marksText target.handle (v.marks { target with handle } l indent) = (v.outline target l).text target indent := by
  match v with
  | .closure c => exact closure_marksText c indent
  | .call c => exact call_marksText c
  | .variable n => exact marksText_singleton
  | .literal t => exact literal_marksText l t

theorem closure_marksText (c : Closure) (indent : String) :
    marksText target.handle (c.marks { target with handle } indent) = (c.outline target).text target indent := by
  match c with
  | ⟨parameters, label, body⟩ =>
    have hb := block_marksText body (indent ++ indentStep)
    simp only [Closure.marks, Closure.outline, ValueOutline.text, marksText_cons, marksText_append, marksText_nil, hb,
      Mark.written, String.append_assoc, String.append_empty]

theorem statement_marksText (s : Statement) (indent : String) :
    marksText target.handle (s.marks { target with handle } indent) = (s.outline target).text target indent := by
  match s with
  | .declare b n l v =>
    rw [Statement.marks, marksText_cons, value_marksText v l indent]
    rfl
  | .assign n l v =>
    rw [Statement.marks, marksText_cons, value_marksText v l indent]
    rfl
  | .call c => exact call_marksText c
  | .emit e p => exact emit_marksText e _
  | .exit f => exact marksText_singleton

theorem block_marksText (ss : List Statement) (indent : String) :
    marksText target.handle (blockMarks { target with handle } indent ss) =
      outlineLines target indent (blockOutline target ss) := by
  match ss with
  | [] => rfl
  | s :: ss =>
    have hs := statement_marksText s indent
    have hss := block_marksText ss indent
    simp only [blockMarks, blockOutline, outlineLines, marksText_cons, marksText_append, hs, hss, Mark.written,
      String.append_assoc]

end

lemma constant_marksText (c : Constant) :
    marksText target.handle (c.marks { target with handle }) = c.script target := by
  rw [Constant.marks, marksText_cons, marksText_append, value_marksText, marksText_singleton]
  simp only [Mark.written, Constant.script, Constant.outline, ConstantOutline.text, String.append_assoc]
  rfl

lemma handler_marksText (h : Handler) :
    marksText target.handle (h.marks { target with handle }) = h.script target := by
  have hp : ", ".intercalate h.closure.parameters.payload?.toList = h.closure.parameters.payload?.getD "" := by
    cases h.closure.parameters.payload? <;> rfl
  rw [Handler.marks, marksText_cons, marksText_cons, marksText_cons, marksText_append, block_marksText, marksText_cons,
    marksText_singleton]
  simp only [Mark.written, hp, Handler.script, Handler.outline, HandlerOutline.text, String.append_assoc]
  rfl

lemma flatMap_marksText {α : Type} {marks : α → List Mark} {script : α → String}
    (h : ∀ a, marksText handle (marks a) = script a) (as : List α) :
    marksText handle (as.flatMap marks) = String.join (as.map script) :=
  join_flatMap h as

lemma program_marksText (p : Program) :
    scriptText target.handle (p.marks { target with handle }) = (p.outline target).text target := by
  have hlisten (b : Bool) (listener : String) :
      marksText target.handle (if b then { target with handle }.listenerMarks listener else []) =
        if b then target.startListener listener else "" := by
    cases b with
    | false => rfl
    | true => exact listener_marksText listener
  rw [outline_text, scriptText, Program.marks, marksText_append, marksText_append, marksText_append, marksText_append,
    marksText_append, ← String.append_assoc, header_marksText, flatMap_marksText constant_marksText,
    flatMap_marksText handler_marksText, hlisten, hlisten, start_marksText]
  simp only [Target.frame, handles_iff, String.append_assoc]

def Part.names (L : Language) (target : Target) : Part → List String
  | .closure c => c.parameters.names
  | .statement (.declare _ name _ _) => [name]
  | .statement (.assign name _ _) => [name]
  | .statement (.exit fragment) => L.bound (Text.trimmed fragment)
  | .literal typeLabel token => if target.isBigInt typeLabel token then L.bound target.bigIntSuffix else []
  | _ => []

def partNames (L : Language) (target : Target) (parts : List Part) : List String :=
  parts.flatMap (Part.names L target)

lemma boundNames_append : boundNames L (xs ++ ys) = boundNames L xs ++ boundNames L ys :=
  List.flatMap_append

lemma partNames_append (ps qs : List Part) :
    partNames L target (ps ++ qs) = partNames L target ps ++ partNames L target qs :=
  List.flatMap_append

lemma literal_names (l t : String) :
    boundNames L (target.literalMarks l t) = partNames L target [.literal l t] := by
  rw [Target.literalMarks]
  change _ = (if target.isBigInt l t then L.bound target.bigIntSuffix else []) ++ []
  split
  · rfl
  · rfl

mutual

theorem value_names (v : Value) (l indent : String) :
    (boundNames L (v.marks target l indent)).Perm (partNames L target (v.parts l)) := by
  match v with
  | .closure c => exact closure_names c indent
  | .call c => exact .nil
  | .variable _ => exact .nil
  | .literal t => exact .of_eq (literal_names l t)

theorem closure_names (c : Closure) (indent : String) :
    (boundNames L (c.marks target indent)).Perm (c.parameters.names ++ partNames L target c.parts) := by
  match c with
  | ⟨parameters, label, body⟩ =>
    have hclose : boundNames L [.text (indent ++ indentStep), .leave] = [] := rfl
    refine List.Perm.append_left parameters.names ?_
    change (boundNames L (blockMarks target (indent ++ indentStep) body ++ _)).Perm _
    rw [boundNames_append, hclose, List.append_nil]
    exact block_names body (indent ++ indentStep)

theorem statement_names (s : Statement) (indent : String) :
    (boundNames L (s.marks target indent)).Perm (partNames L target s.parts) := by
  match s with
  | .declare b m l v =>
    rw [Statement.parts, partNames_append]
    exact ((value_names v l indent).cons m).trans (List.perm_append_singleton m _).symm
  | .assign m l v =>
    rw [Statement.parts, partNames_append]
    exact ((value_names v l indent).cons m).trans (List.perm_append_singleton m _).symm
  | .call c => exact .nil
  | .emit _ _ => exact .nil
  | .exit _ => exact .refl _

theorem block_names (ss : List Statement) (indent : String) :
    (boundNames L (blockMarks target indent ss)).Perm (partNames L target (blockParts ss)) := by
  match ss with
  | [] => exact .nil
  | s :: ss =>
    have hmarks : boundNames L (blockMarks target indent (s :: ss)) =
        boundNames L (s.marks target indent) ++ boundNames L (blockMarks target indent ss) :=
      boundNames_append
    rw [hmarks, blockParts, partNames_append]
    exact (statement_names s indent).append (block_names ss indent)

end

lemma constant_names (c : Constant) :
    n ∈ boundNames L (c.marks target) ↔ n = c.name ∨ n ∈ partNames L target c.parts := by
  have hmarks : boundNames L (c.marks target) = c.name :: (boundNames L (c.value.marks target c.typeLabel "") ++ []) :=
    congrArg (c.name :: ·) boundNames_append
  rw [hmarks, List.append_nil, List.mem_cons, (value_names c.value c.typeLabel "").mem_iff]
  rfl

lemma handler_names (h : Handler) : n ∈ boundNames L (h.marks target) ↔
    h.closure.parameters.payload? = some n ∨ n ∈ partNames L target h.closure.parts := by
  have hmarks : boundNames L (h.marks target) =
      h.closure.parameters.payload?.toList ++ (boundNames L (blockMarks target "" h.closure.body) ++ []) :=
    congrArg (h.closure.parameters.payload?.toList ++ ·) boundNames_append
  rw [hmarks, List.append_nil, List.mem_append, (block_names h.closure.body "").mem_iff, Option.mem_toList]
  obtain ⟨_, ⟨_, _, _⟩⟩ := h
  rfl

def Program.BindsInside (p : Program) (name : String) : Prop :=
  (∃ c ∈ p.closures, name ∈ c.parameters.names) ∨
    (∃ b l v, .declare b name l v ∈ p.statements) ∨ ∃ l v, .assign name l v ∈ p.statements

def Program.CopiesInside (target : Target) (p : Program) (text : String) : Prop :=
  (∃ f, .exit f ∈ p.statements ∧ text = Text.trimmed f) ∨
    ∃ l t, (l, t) ∈ p.literals ∧ target.isBigInt l t ∧ text = target.bigIntSuffix

lemma mem_partNames : n ∈ partNames L target p.parts ↔
    p.BindsInside n ∨ ∃ t, p.CopiesInside target t ∧ n ∈ L.bound t := by
  simp only [Program.BindsInside, Program.CopiesInside, partNames, List.mem_flatMap, Program.mem_closures,
    Program.mem_statements, Program.mem_literals]
  constructor
  · rintro ⟨part, hp, hn⟩
    cases part with
    | statement s =>
      cases s with
      | declare b m l v =>
        obtain rfl := List.mem_singleton.mp hn
        exact .inl (.inr (.inl ⟨b, l, v, hp⟩))
      | assign m l v =>
        obtain rfl := List.mem_singleton.mp hn
        exact .inl (.inr (.inr ⟨l, v, hp⟩))
      | exit f => exact .inr ⟨_, .inl ⟨f, hp, rfl⟩, hn⟩
      | _ => cases hn
    | closure c => exact .inl (.inl ⟨c, hp, hn⟩)
    | literal l t =>
      by_cases hb : target.isBigInt l t
      · rw [Part.names, if_pos hb] at hn
        exact .inr ⟨_, .inr ⟨l, t, hp, hb, rfl⟩, hn⟩
      · rw [Part.names, if_neg hb] at hn
        cases hn
    | _ => cases hn
  · rintro ((⟨c, hc, hn⟩ | ⟨b, l, v, hs⟩ | ⟨l, v, hs⟩) | ⟨_, ⟨f, hf, rfl⟩ | ⟨l, t, ht, hb, rfl⟩, hn⟩)
    · exact ⟨_, hc, hn⟩
    · exact ⟨_, hs, List.mem_singleton_self n⟩
    · exact ⟨_, hs, List.mem_singleton_self n⟩
    · exact ⟨_, hf, hn⟩
    · exact ⟨_, ht, by rwa [Part.names, if_pos hb]⟩

lemma binds_iff : p.Binds n ↔ (∃ c ∈ p.constants, n = c.name) ∨
    (∃ h ∈ p.handlers, h.closure.parameters.payload? = some n) ∨ p.BindsInside n := by
  constructor
  · rintro (⟨hc, rfl⟩ | ⟨hh, hn⟩ | ⟨hc, hn⟩ | hs | hs)
    · exact .inl ⟨_, hc, rfl⟩
    · exact .inr (.inl ⟨_, hh, hn⟩)
    · exact .inr (.inr (.inl ⟨_, hc, hn⟩))
    · exact .inr (.inr (.inr (.inl ⟨_, _, _, hs⟩)))
    · exact .inr (.inr (.inr (.inr ⟨_, _, hs⟩)))
  · rintro (⟨c, hc, rfl⟩ | ⟨h, hh, hn⟩ | ⟨c, hc, hn⟩ | ⟨b, l, v, hs⟩ | ⟨l, v, hs⟩)
    · exact .constant hc rfl
    · exact .payload hh hn
    · exact .parameter hc hn
    · exact .declared hs
    · exact .assigned hs

lemma copied_names : (∃ t, p.Copies target t ∧ n ∈ L.bound t) ↔
    n ∈ L.bound target.runtimeModule ∨ n ∈ L.bound target.startEvent ∨
      (p.handles target.connectionEvent ∧ n ∈ L.bound target.httpListener) ∨
        (p.handles target.tcpConnectionEvent ∧ n ∈ L.bound target.tcpListener) ∨
          ∃ t, p.CopiesInside target t ∧ n ∈ L.bound t := by
  constructor
  · rintro ⟨_, _ | _ | h | h | ⟨ht, hb⟩ | hf, hn⟩
    · exact .inl hn
    · exact .inr (.inl hn)
    · exact .inr (.inr (.inl ⟨h, hn⟩))
    · exact .inr (.inr (.inr (.inl ⟨h, hn⟩)))
    · exact .inr (.inr (.inr (.inr ⟨_, .inr ⟨_, _, ht, hb, rfl⟩, hn⟩)))
    · exact .inr (.inr (.inr (.inr ⟨_, .inl ⟨_, hf, rfl⟩, hn⟩)))
  · rintro (hn | hn | ⟨h, hn⟩ | ⟨h, hn⟩ | ⟨_, ⟨f, hf, rfl⟩ | ⟨l, t, ht, hb, rfl⟩, hn⟩)
    · exact ⟨_, .runtimeModule, hn⟩
    · exact ⟨_, .startEvent, hn⟩
    · exact ⟨_, .httpListener h, hn⟩
    · exact ⟨_, .tcpListener h, hn⟩
    · exact ⟨_, .exit hf, hn⟩
    · exact ⟨_, .bigIntSuffix ht hb, hn⟩

lemma inside_names : n ∈ boundNames L (p.constants.flatMap (Constant.marks target)) ∨
    n ∈ boundNames L (p.handlers.flatMap (Handler.marks target)) ↔
      p.Binds n ∨ ∃ t, p.CopiesInside target t ∧ n ∈ L.bound t := by
  have hparts : n ∈ partNames L target p.parts ↔ (∃ c ∈ p.constants, n ∈ partNames L target c.parts) ∨
      ∃ h ∈ p.handlers, n ∈ partNames L target h.closure.parts := by
    simp only [partNames, Program.parts, List.flatMap_append, List.flatMap_assoc, List.mem_append, List.mem_flatMap]
  have hmarks {α : Type} {as : List α} {marks : α → List Mark} :
      n ∈ boundNames L (as.flatMap marks) ↔ ∃ a ∈ as, n ∈ boundNames L (marks a) := by
    simp only [boundNames, List.flatMap_assoc, List.mem_flatMap]
  rw [hmarks, hmarks, binds_iff, or_assoc, or_assoc, ← mem_partNames, hparts]
  simp only [constant_names, handler_names, and_or_left, exists_or]
  rw [or_or_or_comm, or_assoc]

lemma listener_names (b : Bool) (listener : String) :
    n ∈ boundNames L (if b then target.listenerMarks listener else []) ↔
      b ∧ (n ∈ L.bound target.startEvent ∨ n ∈ L.bound listener) := by
  cases b with
  | false => simp [boundNames]
  | true => simp [boundNames, Target.listenerMarks, Mark.names]

lemma program_names (p : Program) : n ∈ boundNames L (p.marks target) ↔
    p.Binds n ∨ ∃ t, p.Copies target t ∧ n ∈ L.bound t := by
  have hheader : n ∈ boundNames L target.headerMarks ↔ n ∈ L.bound target.runtimeModule := by
    simp [boundNames, Target.headerMarks, Mark.names]
  have hstart : n ∈ boundNames L target.startMarks ↔ n ∈ L.bound target.startEvent := by
    simp [boundNames, Target.startMarks, Mark.names]
  have hinside := @inside_names target n p L
  rw [copied_names]
  simp only [Program.marks, boundNames_append, List.mem_append, hheader, listener_names, hstart]
  grind

lemma Program.Binds.isName (hw : p.WellFormed) (h : p.Binds n) : IsName n.toList := by
  have hnames {ps : Parameters} (hps : ps.WellFormed) (hn : n ∈ ps.names) : IsName n.toList := by
    obtain ⟨q, hq, rfl⟩ := List.mem_map.mp hn
    exact (hps q hq).1
  have hclosure {c : Closure} (hc : c.WellFormed) : c.parameters.WellFormed := by
    obtain ⟨_, _, _⟩ := c
    exact hc.1
  cases h with
  | constant hc he => exact he ▸ (hw.1 _ hc).1
  | payload hh hn => exact hnames (hclosure (hw.2.2 _ hh).2) (List.mem_of_head? hn)
  | parameter hc hn => exact hnames (hclosure (hw.parts _ (mem_closures.mp hc))) hn
  | declared hs => exact (hw.parts _ (mem_statements.mp hs)).1
  | assigned hs => exact (hw.parts _ (mem_statements.mp hs)).1.1

variable {scopes : List (List Binder)}

def Clear (handle : String) (scope : List Binder) : Prop :=
  ∀ b ∈ scope, b.name handle ≠ handle

lemma clear_map {binder : String → Binder} (hb : ∀ name, (binder name).name handle = name) {names : List String}
    (h : handle ∉ names) : Clear handle (names.map binder) := by
  intro b hm
  obtain ⟨name, hn, rfl⟩ := List.mem_map.mp hm
  rw [hb]
  exact ne_of_mem_of_not_mem hn h

lemma clear_declares (h : handle ∉ m.names L) : Clear handle (m.declares L) := by
  cases m with
  | copied t => exact clear_map (fun _ => rfl) h
  | declare _ name =>
    have hname : Clear handle ([name].map .source) := clear_map (fun _ => rfl) h
    exact hname
  | _ => exact List.forall_mem_nil _

lemma clear_append {xs ys : List Binder} (hx : Clear handle xs) (hy : Clear handle ys) : Clear handle (xs ++ ys) :=
  List.forall_mem_append.mpr ⟨hx, hy⟩

lemma unbound_cons (h : handle ∉ boundNames L (m :: xs)) : handle ∉ m.names L ∧ handle ∉ boundNames L xs :=
  not_or.mp (mt List.mem_append.mpr h)

lemma clear_declaredIn (depth : Nat) (h : handle ∉ boundNames L marks) : Clear handle (declaredIn L depth marks) := by
  fun_induction declaredIn L depth marks with
  | case1 => exact List.forall_mem_nil _
  | case2 _ _ _ ih => exact ih (unbound_cons h).2
  | case3 => exact List.forall_mem_nil _
  | case4 _ _ ih => exact ih (unbound_cons h).2
  | case5 m marks _ _ ih => exact clear_append (clear_declares (unbound_cons h).1) (ih (unbound_cons h).2)
  | case6 _ _ _ _ _ ih => exact ih (unbound_cons h).2

lemma clear_scopesIn (h : handle ∉ boundNames L marks)
    (hs : ∀ scope ∈ scopes, Clear handle scope) :
    ∀ around ∈ scopesIn L scopes marks, ∀ scope ∈ around, Clear handle scope := by
  fun_induction scopesIn L scopes marks with
  | case1 => exact List.forall_mem_nil _
  | case2 scopes marks ih => exact List.forall_mem_cons.mpr ⟨hs, ih (unbound_cons h).2 hs⟩
  | case3 scopes parameters marks ih =>
    obtain ⟨hp, hm⟩ := unbound_cons h
    exact ih hm (List.forall_mem_cons.mpr ⟨clear_append (clear_map (fun _ => rfl) hp) (clear_declaredIn 0 hm), hs⟩)
  | case4 scopes marks ih => exact ih (unbound_cons h).2 fun scope hm => hs scope (List.mem_of_mem_tail hm)
  | case5 _ _ _ _ _ _ ih => exact ih (unbound_cons h).2 hs

lemma filter_clear {scope : List Binder} (h : Clear handle scope) :
    scope.filter (fun b => b.name handle = handle) = [] :=
  List.filter_eq_nil_iff.mpr fun b hb he => h b hb (of_decide_eq_true he)

lemma handleBinders_append (h : ∀ scope ∈ scopes, Clear handle scope)
    (outer : List (List Binder)) : handleBinders handle (scopes ++ outer) = handleBinders handle outer := by
  induction scopes with
  | nil => rfl
  | cons scope scopes ih =>
    obtain ⟨hscope, hscopes⟩ := List.forall_mem_cons.mp h
    rw [List.cons_append, handleBinders, filter_clear hscope]
    exact ih hscopes

lemma referents_header (hc : L.canDeclare handle) (h : handle ∉ boundNames L marks) :
    ∀ binders ∈ referents L handle marks, binders = [.header] := by
  intro binders hb
  obtain ⟨scopes, hs, rfl⟩ := List.mem_map.mp hb
  have hmodule : (moduleScope L handle marks).filter (fun b => b.name handle = handle) = [.header] := by
    rw [moduleScope, if_pos hc, List.singleton_append, List.filter_cons_of_pos, filter_clear (clear_declaredIn 0 h)]
    exact decide_eq_true rfl
  rw [handleBinders_append (clear_scopesIn h (List.forall_mem_nil _) scopes hs), handleBinders, hmodule]

/-- A script begins by a declaration of the handle. Behind it, it binds and assigns the names that the source has for
constants, declarations, assignments, parameters and what a handler receives, each as it is, and what the texts do that
are copied. As long as the handle is a name and none of these, every use of it refers to that declaration. -/
theorem handle_of_translate {text js : String} (h : translateText target text = .ok js) :
    ∃ p, Program.parse text = .ok p ∧ js = scriptText target.handle (p.marks target) ∧
      (∀ handle, translateText { target with handle } text = .ok (scriptText handle (p.marks target))) ∧
      (∀ L n, n ∈ boundNames L (p.marks target) ↔ p.Binds n ∨ ∃ t, p.Copies target t ∧ n ∈ L.bound t) ∧
      (∀ n, p.Binds n → IsName n.toList) ∧
      ∀ L : Language, L.canDeclare target.handle → (∀ t, p.Copies target t → target.handle ∉ L.bound t) →
        ¬ p.Binds target.handle → ∀ binders ∈ referents L target.handle (p.marks target), binders = [.header] := by
  obtain ⟨p, hp, ht⟩ := translateText_eq_ok.mp h
  obtain ⟨hfree, rfl⟩ := translate_eq_ok.mp ht
  refine ⟨p, hp, (program_marksText p).symm, fun handle => ?_, fun L n => program_names p,
    fun n hn => hn.isName (wellFormed_of_parse hp), fun L hc ht hn => referents_header hc fun hm => ?_⟩
  · have hmarks := @program_marksText { target with handle } target.handle p
    exact translateText_eq_ok.mpr ⟨p, hp, translate_eq_ok.mpr ⟨hfree, hmarks⟩⟩
  · rcases (program_names p).mp hm with hb | ⟨t, hc, hb⟩
    · exact hn hb
    · exact ht t hc hb

def asciiLanguage : Language where
  begins _ := false
  continues _ := false
  bound t := varNames (t.toList.splitOnP fun c => !c.isAlphanum)
where
  varNames : List (List Char) → List String
    | w :: n :: ws => if w = "var".toList then String.ofList n :: varNames (n :: ws) else varNames (n :: ws)
    | _ => []

example : asciiLanguage.bound "return x; var r = x" = ["r"] := by
  decide +kernel

def greetText : String :=
  "on greet fn (r: string): void \x7b\n  stdoutp(r)\n\x7d\n"

def greetProgram : Program where
  constants := []
  events := []
  handlers := [⟨"greet", ⟨⟨[], some ⟨"r", "string"⟩⟩, "void", [.call ⟨"stdoutp", ["r"]⟩]⟩⟩]

def greetScript : String :=
  "const r = require('alan-js-runtime')\nr.on('greet', async (r) => \x7b\n  r.stdoutp(r)\n\x7d)\n" ++
    "r.emit('_start', undefined)\n"

theorem captured_greetText : Program.parse greetText = .ok greetProgram ∧
    translateText .alan greetText = .ok greetScript ∧
      greetScript = scriptText Target.alan.handle (greetProgram.marks .alan) ∧
        Target.alan.handle ∈ boundNames asciiLanguage (greetProgram.marks .alan) ∧
          referents asciiLanguage Target.alan.handle (greetProgram.marks .alan) =
            [[.header], [.source "r"], [.header]] := by
  refine ⟨rfl, ?_, ?_, ?_, ?_⟩ <;> decide +kernel

def namedTarget : Target :=
  { Target.alan with handle := "rt" }

def namedScript : String :=
  "const rt = require('alan-js-runtime')\nrt.on('greet', async (r) => \x7b\n  rt.stdoutp(r)\n\x7d)\n" ++
    "rt.emit('_start', undefined)\n"

theorem handle_namedTarget : translateText namedTarget greetText = .ok namedScript ∧ ¬ greetProgram.Binds "rt" ∧
    asciiLanguage.canDeclare "rt" ∧ (∀ t, greetProgram.Copies namedTarget t → "rt" ∉ asciiLanguage.bound t) ∧
      ∀ binders ∈ referents asciiLanguage "rt" (greetProgram.marks namedTarget), binders = [.header] := by
  have hp : Program.parse greetText = .ok greetProgram := rfl
  have hx : translateText namedTarget greetText = .ok namedScript := by decide +kernel
  obtain ⟨p, hp', _, _, hnames, _, huses⟩ := handle_of_translate hx
  obtain rfl := Except.ok.inj (hp.symm.trans hp')
  have hnone : "rt" ∉ boundNames asciiLanguage (greetProgram.marks namedTarget) := by decide +kernel
  have hn : ¬ greetProgram.Binds "rt" := fun hb => hnone ((hnames _ _).mpr (.inl hb))
  have hc : asciiLanguage.canDeclare "rt" := by decide +kernel
  have ht (t : String) (hcopied : greetProgram.Copies namedTarget t) : "rt" ∉ asciiLanguage.bound t :=
    fun hb => hnone ((hnames _ _).mpr (.inr ⟨t, hcopied, hb⟩))
  exact ⟨hx, hn, hc, ht, huses _ hc ht hn⟩

end AmmCompiler
