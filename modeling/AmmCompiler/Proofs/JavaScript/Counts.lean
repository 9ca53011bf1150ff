import AmmCompiler.Proofs.Grammar.Lexeme
import AmmCompiler.Proofs.JavaScript.Outline
import AmmCompiler.Statistics.Count

/-! What the statistics of a translation count: the items of the program and, at every depth, the parts
inside of them. -/

namespace AmmCompiler

open Source

inductive Part
  | statement (statement : Statement)
  | closure (closure : Closure)
  | call (call : Call)
  | literal (typeLabel token : String)

namespace Part

def statement? : Part → Option Statement
  | statement s => some s
  | _ => none

def closure? : Part → Option Closure
  | closure c => some c
  | _ => none

def call? : Part → Option Call
  | call c => some c
  | _ => none

def literal? : Part → Option (String × String)
  | literal typeLabel token => some (typeLabel, token)
  | _ => none

end Part

mutual

def Value.parts (typeLabel : String) : Value → List Part
  | .closure c => .closure c :: c.parts
  | .call c => [.call c]
  | .variable _ => []
  | .literal token => [.literal typeLabel token]

/-- What is inside of a closure, and not the closure itself: that of a handler is no value. -/
def Closure.parts : Closure → List Part
  | ⟨_, _, body⟩ => blockParts body

def Statement.parts : Statement → List Part
  | .declare binding name label value => value.parts label ++ [.statement (.declare binding name label value)]
  | .assign name label value => value.parts label ++ [.statement (.assign name label value)]
  | .call c => [.call c, .statement (.call c)]
  | .emit event payload => [.statement (.emit event payload)]
  | .exit fragment => [.statement (.exit fragment)]

def blockParts : List Statement → List Part
  | [] => []
  | s :: ss => s.parts ++ blockParts ss

end

def Constant.parts (c : Constant) : List Part :=
  c.value.parts c.typeLabel

namespace Program

def parts (p : Program) : List Part :=
  p.constants.flatMap Constant.parts ++ p.handlers.flatMap fun h => h.closure.parts

def statements (p : Program) : List Statement :=
  p.parts.filterMap Part.statement?

def closures (p : Program) : List Closure :=
  p.parts.filterMap Part.closure?

def calls (p : Program) : List Call :=
  p.parts.filterMap Part.call?

def literals (p : Program) : List (String × String) :=
  p.parts.filterMap Part.literal?

end Program

def IsInteger (cs : List Char) : Prop :=
  IsDigits cs ∨ ∃ u, cs = '-' :: u ∧ IsDigits u

namespace Statistics

def record (target : Target) (s : Statistics) : Part → Statistics
  | .statement _ => s.recordStatement
  | .closure _ => s.recordClosure
  | .call c => s.recordCall c.opcode (target.suspends c.opcode)
  | .literal typeLabel token => if target.isBigInt typeLabel token then s.recordBigInt else s

def recordAll (target : Target) (s : Statistics) (parts : List Part) : Statistics :=
  parts.foldl (record target) s

def addItems (s : Statistics) (constants events handlers : Nat) : Statistics :=
  { s with
    constants := s.constants + constants
    events := s.events + events
    handlers := s.handlers + handlers }

variable {target : Target} {s : Statistics} {ps qs : List Part}

lemma recordAll_append : s.recordAll target (ps ++ qs) = (s.recordAll target ps).recordAll target qs :=
  List.foldl_append

lemma addItems_addItems (a b c d e f : Nat) :
    (s.addItems a b c).addItems d e f = s.addItems (a + d) (b + e) (c + f) := by
  simp only [addItems, Nat.add_assoc]

lemma record_addItems (a b c : Nat) (p : Part) :
    (s.addItems a b c).record target p = (s.record target p).addItems a b c := by
  cases p with
  | statement _ => rfl
  | closure _ => rfl
  | call c =>
    simp only [record, recordCall]
    split <;> rfl
  | literal l t =>
    simp only [record]
    split <;> rfl

lemma recordAll_addItems (a b c : Nat) :
    (s.addItems a b c).recordAll target ps = (s.recordAll target ps).addItems a b c := by
  induction ps generalizing s with
  | nil => rfl
  | cons p ps ih =>
    change ((s.addItems a b c).record target p).recordAll target ps = _
    rw [record_addItems, ih]
    rfl

lemma recordAll_countP {α : Type} {count : Statistics → Nat} (kind : Part → Option α) (q : α → Bool)
    (h : ∀ s p, count (record target s p) = count s + (kind p).toList.countP q) :
    count (s.recordAll target ps) = count s + (ps.filterMap kind).countP q := by
  induction ps generalizing s with
  | nil => rfl
  | cons p ps ih =>
    change count ((s.record target p).recordAll target ps) = _
    rw [ih, h, Nat.add_assoc]
    cases hk : kind p with
    | none => rw [List.filterMap_cons_none hk, Option.toList_none, List.countP_nil, Nat.zero_add]
    | some a =>
      rw [List.filterMap_cons_some hk, Option.toList_some, ← List.countP_append, List.cons_append, List.nil_append]

end Statistics

open Statistics

variable {target : Target}

lemma call_statistics (c : Call) (st : Statistics) :
    ((c.compile target).run st).2 = st.recordAll target [.call c] :=
  rfl

lemma literal_statistics (l t : String) (st : Statistics) :
    ((compileLiteral target l t).run st).2 = st.recordAll target [.literal l t] := by
  change _ = st.record target (.literal l t)
  rw [compileLiteral, record]
  split
  · rfl
  · rfl

mutual

theorem value_statistics (v : Value) (l indent : String) (st : Statistics) :
    ((v.compile target l indent).run st).2 = st.recordAll target (v.parts l) := by
  match v with
  | .closure c => exact closure_statistics c indent st
  | .call c => exact call_statistics c st
  | .variable n => rfl
  | .literal t => exact literal_statistics l t st

theorem closure_statistics (c : Closure) (indent : String) (st : Statistics) :
    ((c.compile target indent).run st).2 = st.recordAll target (.closure c :: c.parts) := by
  match c with
  | ⟨parameters, label, body⟩ => exact block_statistics body (indent ++ indentStep) st.recordClosure

theorem statement_statistics (s : Statement) (indent : String) (st : Statistics) :
    ((s.compile target indent).run st).2.recordStatement = st.recordAll target s.parts := by
  match s with
  | .declare b n l v =>
    rw [Statement.parts, recordAll_append, ← value_statistics v l indent st]
    rfl
  | .assign n l v =>
    rw [Statement.parts, recordAll_append, ← value_statistics v l indent st]
    rfl
  | .call c => rfl
  | .emit e p => rfl
  | .exit f => rfl

theorem block_statistics (ss : List Statement) (indent : String) (st : Statistics) :
    ((compileBlock target indent ss).run st).2 = st.recordAll target (blockParts ss) := by
  match ss with
  | [] => rfl
  | s :: ss =>
    have hs := statement_statistics s indent st
    have hb := block_statistics ss indent ((s.compile target indent).run st).2.recordStatement
    rw [blockParts, recordAll_append, ← hs, ← hb]
    rfl

end

lemma constants_statistics (cs : List Constant) (st : Statistics) : ((compileConstants target cs).run st).2 =
    (st.recordAll target (cs.flatMap Constant.parts)).addItems cs.length 0 0 := by
  induction cs generalizing st with
  | nil => rfl
  | cons c cs ih =>
    have hv := @value_statistics target c.value c.typeLabel "" st
    have hc : ((c.compile target).run st).2 = (st.recordAll target c.parts).addItems 1 0 0 := by
      rw [Constant.parts, ← hv]
      rfl
    change ((compileConstants target cs).run ((c.compile target).run st).2).2 = _
    rw [ih, hc, recordAll_addItems, addItems_addItems, List.flatMap_cons, recordAll_append, List.length_cons,
      Nat.add_comm 1]

lemma registration_statistics (h : Handler) (st : Statistics) : ((h.compileRegistration target).run st).2 =
    (st.recordAll target h.closure.parts).addItems 0 0 1 := by
  obtain ⟨event, parameters, label, body⟩ := h
  have hb := @block_statistics target body "" st
  rw [Closure.parts, ← hb]
  rfl

lemma handlers_run {hs : List Handler} (h : ∀ d ∈ hs, d.event ≠ target.controlPortEvent) (st : Statistics) :
    (compileHandlers target hs).run.run st =
      (.ok (String.join ((hs.map (Handler.outline target)).map (HandlerOutline.text target))),
        (st.recordAll target (hs.flatMap fun d => d.closure.parts)).addItems 0 0 hs.length) := by
  induction hs generalizing st with
  | nil => rfl
  | cons d ds ih =>
    have hd := h d List.mem_cons_self
    simp only [compileHandlers, Handler.compile, if_neg hd]
    rw [run_lift_bind, run_bind, registration_text, registration_statistics,
      ih fun e he => h e (List.mem_cons_of_mem d he)]
    rw [recordAll_addItems, addItems_addItems, List.flatMap_cons, recordAll_append, List.map_cons, List.map_cons,
      String.join_cons, List.length_cons, Nat.add_comm 1]
    rfl

def Program.statistics (target : Target) (p : Program) : Statistics :=
  ((Statistics.empty.recordAll target p.parts).addItems p.constants.length p.events.length
    p.handlers.length).recordListeners (p.handles target.connectionEvent) (p.handles target.tcpConnectionEvent)

lemma statistics_parts (p : Program) : p.statistics target =
    (((((Statistics.empty.recordAll target (p.constants.flatMap Constant.parts)).addItems p.constants.length 0 0).addItems
      0 p.events.length 0).recordAll target (p.handlers.flatMap fun d => d.closure.parts)).addItems 0 0
        p.handlers.length).recordListeners (p.handles target.connectionEvent) (p.handles target.tcpConnectionEvent) := by
  simp only [Program.statistics, Program.parts, recordAll_append, recordAll_addItems, addItems_addItems, Nat.zero_add,
    Nat.add_zero]

lemma compile_run {p : Program} (h : ∀ d ∈ p.handlers, d.event ≠ target.controlPortEvent) :
    (p.compile target).run.run .empty = (.ok ((p.outline target).text target), p.statistics target) := by
  rw [Program.compile, run_lift_bind]
  change StateT.run (ExceptT.run (compileHandlers target p.handlers >>= _))
    (((compileConstants target p.constants).run .empty).2.addItems 0 p.events.length 0) = _
  rw [run_bind, handlers_run h, constants_statistics, constants_text, ProgramOutline.text, handles_outline,
    handles_outline, statistics_parts]
  rfl

lemma handlers_of_compile {p : Program} {st : Statistics} {x : String}
    (h : ((p.compile target).run.run st).1 = .ok x) : ∀ d ∈ p.handlers, d.event ≠ target.controlPortEvent := by
  obtain ⟨st', hs⟩ := @compile_handlers target p st
  rw [h] at hs
  cases hr : ((compileHandlers target p.handlers).run.run st').1 with
  | error e =>
    rw [hr] at hs
    cases hs
  | ok t => exact (handlers_ok hr).1

lemma translateWithStatistics_eq_ok {p : Program} {js : String} {s : Statistics} :
    p.translateWithStatistics target = .ok (js, s) ↔ (∀ d ∈ p.handlers, d.event ≠ target.controlPortEvent) ∧
      js = (p.outline target).text target ∧ s = p.statistics target := by
  constructor
  · intro h
    have hrun : (p.compile target).run.run .empty = (.ok js, s) := by
      simp only [Program.translateWithStatistics] at h
      change (p.compile target).run .empty = (.ok js, s)
      generalize (p.compile target).run .empty = r at h
      obtain ⟨e | t, st⟩ := r
      · cases h
      · obtain ⟨rfl, rfl⟩ := Prod.mk.inj (Except.ok.inj h)
        rfl
    have hfree := handlers_of_compile (congrArg Prod.fst hrun)
    rw [compile_run hfree] at hrun
    obtain ⟨hx, rfl⟩ := Prod.mk.inj hrun
    exact ⟨hfree, (Except.ok.inj hx).symm, rfl⟩
  · rintro ⟨hfree, rfl, rfl⟩
    have hrun : (p.compile target).run .empty = _ := compile_run hfree
    rw [Program.translateWithStatistics, hrun]

lemma isDecimalInteger_iff {t : String} : isDecimalInteger t ↔ IsInteger t.toList := by
  have hdigits (cs : List Char) : (!cs.isEmpty && cs.all Char.isDigit) = true ↔ IsDigits cs := by
    rw [Bool.and_eq_true, Bool.not_eq_true', List.isEmpty_eq_false_iff, List.all_eq_true, IsDigits]
  rw [isDecimalInteger, IsInteger]
  split
  · next cs he =>
    rw [hdigits, he]
    constructor
    · intro h
      exact .inr ⟨cs, rfl, h⟩
    · rintro (⟨_, h⟩ | ⟨u, hu, h⟩)
      · exact absurd (h '-' List.mem_cons_self) (by decide)
      · rwa [(List.cons.inj hu).2]
  · next hn =>
    rw [hdigits]
    constructor
    · exact .inl
    · rintro (h | ⟨u, hu, _⟩)
      · exact h
      · exact absurd hu (hn u)

instance (t : String) : Decidable (IsInteger t.toList) :=
  decidable_of_iff _ isDecimalInteger_iff

structure Statistics.Counts (target : Target) (p : Program) (s : Statistics) : Prop where
  constants : s.constants = p.constants.length
  events : s.events = p.events.length
  handlers : s.handlers = p.handlers.length
  statements : s.statements = p.statements.length
  closures : s.closures = p.closures.length
  opcodes : ∀ op, s.opcodes.count op = p.calls.countP fun c => c.opcode = op
  absent : ∀ op, op ∉ s.opcodes.entries.map Prod.fst ↔ ∀ c ∈ p.calls, c.opcode ≠ op
  suspendingCalls : s.suspendingCalls = p.calls.countP fun c => c.opcode ∈ target.suspending
  plainCalls : s.plainCalls = p.calls.countP fun c => c.opcode ∉ target.suspending
  bigIntLiterals : s.bigIntLiterals = p.literals.countP fun l =>
    IsInteger l.2.toList ∧ Text.trimmed l.1 = target.bigIntLabel

lemma record_eq (s : Statistics) (p : Part) : s.record target p =
    { s with
      statements := s.statements + p.statement?.toList.countP fun _ => true
      closures := s.closures + p.closure?.toList.countP fun _ => true
      suspendingCalls := s.suspendingCalls + p.call?.toList.countP fun c => c.opcode ∈ target.suspending
      plainCalls := s.plainCalls + p.call?.toList.countP fun c => c.opcode ∉ target.suspending
      bigIntLiterals := s.bigIntLiterals + p.literal?.toList.countP fun l =>
        IsInteger l.2.toList ∧ Text.trimmed l.1 = target.bigIntLabel
      opcodes := p.call?.elim s.opcodes fun c => s.opcodes.add c.opcode } := by
  cases p with
  | statement _ => rfl
  | closure _ => rfl
  | call c =>
    by_cases hc : c.opcode ∈ target.suspending
    · simp [record, recordCall, Target.suspends, Part.call?, Part.statement?, Part.closure?, Part.literal?, hc]
    · simp [record, recordCall, Target.suspends, Part.call?, Part.statement?, Part.closure?, Part.literal?, hc]
  | literal l t =>
    have hb : target.isBigInt l t ↔ IsInteger t.toList ∧ Text.trimmed l = target.bigIntLabel := by
      rw [Target.isBigInt, Bool.and_eq_true, isDecimalInteger_iff, beq_iff_eq]
    by_cases hl : target.isBigInt l t
    · simp [record, recordBigInt, Part.call?, Part.statement?, Part.closure?, Part.literal?, hl, hb.mp hl]
    · simp [record, Part.call?, Part.statement?, Part.closure?, Part.literal?, hl, hb.not.mp hl]

lemma count_record (op : String) (s : Statistics) (p : Part) : (s.record target p).opcodes.count op =
    s.opcodes.count op + p.call?.toList.countP fun c => c.opcode = op := by
  rw [record_eq]
  cases hc : p.call? with
  | none => rfl
  | some c => simp [eq_comm]

lemma counter_eq {α : Type} (target : Target) (count : Statistics → Nat) {kind : Part → Option α} {q : α → Bool}
    (hi : ∀ s a b c h t, count ((addItems s a b c).recordListeners h t) = count s) (he : count .empty = 0)
    (h : ∀ s p, count (record target s p) = count s + (kind p).toList.countP q) (p : Program) :
    count (p.statistics target) = (p.parts.filterMap kind).countP q := by
  rw [Program.statistics, hi, recordAll_countP kind q h, he, Nat.zero_add]

lemma statistics_items (p : Program) : (p.statistics target).constants = p.constants.length ∧
    (p.statistics target).events = p.events.length ∧ (p.statistics target).handlers = p.handlers.length := by
  have h (count : Statistics → Nat) (hr : ∀ s p, count (record target s p) = count s) :
      count (Statistics.empty.recordAll target p.parts) = count .empty := by
    rw [recordAll_countP (fun _ => (none : Option Unit)) (fun _ => true) hr]
    simp
  have hc := h Statistics.constants fun s p => by rw [record_eq]
  have he := h Statistics.events fun s p => by rw [record_eq]
  have hh := h Statistics.handlers fun s p => by rw [record_eq]
  simp only [Program.statistics, recordListeners, addItems, hc, he, hh]
  simp [Statistics.empty]

lemma counts_statistics (p : Program) : (p.statistics target).Counts target p := by
  obtain ⟨hc, he, hh⟩ := @statistics_items target p
  have hop (op : String) : (p.statistics target).opcodes.count op = p.calls.countP fun c => c.opcode = op :=
    counter_eq target (fun s => s.opcodes.count op) (fun _ _ _ _ _ _ => rfl) rfl (count_record op) p
  have hst := counter_eq target Statistics.statements (fun _ _ _ _ _ _ => rfl) rfl
    (fun s p => by rw [record_eq]) p
  have hcl := counter_eq target Statistics.closures (fun _ _ _ _ _ _ => rfl) rfl
    (fun s p => by rw [record_eq]) p
  have hsu := counter_eq target Statistics.suspendingCalls (fun _ _ _ _ _ _ => rfl) rfl
    (fun s p => by rw [record_eq]) p
  have hpl := counter_eq target Statistics.plainCalls (fun _ _ _ _ _ _ => rfl) rfl
    (fun s p => by rw [record_eq]) p
  have hbi := counter_eq target Statistics.bigIntLiterals (fun _ _ _ _ _ _ => rfl) rfl
    (fun s p => by rw [record_eq]) p
  rw [List.countP_true] at hst hcl
  refine ⟨hc, he, hh, hst, hcl, hop, ?_, hsu, hpl, hbi⟩
  intro op
  rw [← Tally.pos_countIn_iff (p.statistics target).opcodes.positive]
  change ¬ 0 < (p.statistics target).opcodes.count op ↔ _
  rw [hop, List.countP_pos_iff]
  simp

/-- The statistics of a translation are the counts of the items and parts of the program. -/
theorem counts_of_translate {p : Program} {js : String} {s : Statistics}
    (h : p.translateWithStatistics target = .ok (js, s)) : s.Counts target p := by
  obtain ⟨_, _, rfl⟩ := translateWithStatistics_eq_ok.mp h
  exact counts_statistics p

def countedProgram : Program where
  constants := [⟨"f", "t", .closure ⟨⟨[], none⟩, "t", [.declare .let "g" "t" (.closure ⟨⟨[], none⟩, "t",
    [.assign "n" " int64" (.literal "-5"), .call ⟨"waitop", ["n"]⟩, .emit "e" none]⟩)]⟩⟩]
  events := [⟨"e", "void"⟩]
  handlers := [⟨"e", ⟨⟨[], none⟩, "void", [.declare .const "m" "int64" (.call ⟨"addi64", ["m", "m"]⟩)]⟩⟩]

def countedStatistics : Statistics where
  constants := 1
  events := 1
  handlers := 1
  statements := 5
  closures := 2
  suspendingCalls := 1
  plainCalls := 1
  bigIntLiterals := 1
  httpListener := false
  tcpListener := false
  opcodes := (Tally.empty.add "waitop").add "addi64"

def countedScript : String :=
  "const r = require('alan-js-runtime')\nconst f = async () => \x7b\n    let g = async () => \x7b\n" ++
    "      n = -5n\n      await r.waitop(n)\n      r.emit('e', undefined)\n    \x7d\n  \x7d\n" ++
      "r.on('e', async () => \x7b\n  const m = r.addi64(m, m)\n\x7d)\nr.emit('_start', undefined)\n"

theorem counts_countedProgram :
    countedProgram.translateWithStatistics .alan = .ok (countedScript, countedStatistics) ∧
      countedStatistics.Counts .alan countedProgram := by
  have h : countedProgram.translateWithStatistics .alan = .ok (countedScript, countedStatistics) := by
    decide +kernel
  exact ⟨h, counts_of_translate h⟩

end AmmCompiler
