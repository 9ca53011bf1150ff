import AmmCompiler.JavaScript.Session
import AmmCompiler.Proofs.JavaScript.Counts
import Mathlib.Algebra.GroupWithZero.Nat
import Mathlib.Data.List.Nodup

/-! Pieces compiled one after the other into one text. Each of them comes out as it does alone, and what
they record adds up. -/

namespace AmmCompiler

structure Entry where
  parts : List Part
  constants : Nat
  events : Nat
  handlers : Nat
  listeners : Option (Bool × Bool)

def Statistics.enter (target : Target) (s : Statistics) (e : Entry) : Statistics :=
  e.listeners.elim ((s.recordAll target e.parts).addItems e.constants e.events e.handlers) fun l =>
    ((s.recordAll target e.parts).addItems e.constants e.events e.handlers).recordListeners l.1 l.2

namespace Target

def admitted (target : Target) (handlers : List Handler) : List Handler :=
  handlers.takeWhile fun h => h.event ≠ target.controlPortEvent

end Target

namespace Piece

def entry (target : Target) : Piece → Entry
  | call c => ⟨[.call c], 0, 0, 0, none⟩
  | value v typeLabel _ => ⟨v.parts typeLabel, 0, 0, 0, none⟩
  | block statements _ => ⟨blockParts statements, 0, 0, 0, none⟩
  | program p => ⟨p.constants.flatMap Constant.parts ++ (target.admitted p.handlers).flatMap fun h => h.closure.parts,
      p.constants.length, p.events.length, (target.admitted p.handlers).length,
      if p.handles target.controlPortEvent then none
      else some (p.handles target.connectionEvent, p.handles target.tcpConnectionEvent)⟩

/-- A piece compiled in a session of its own. -/
def alone (target : Target) (piece : Piece) : Except UnsupportedCapability String × Session :=
  Session.start.extend target piece

def listeners? (target : Target) : Piece → Option (Bool × Bool)
  | program p => ((program p).alone target).1.toOption.map fun _ =>
      (p.handles target.connectionEvent, p.handles target.tcpConnectionEvent)
  | _ => none

end Piece

namespace Session

def extendAll (target : Target) (s : Session) (pieces : List Piece) : Session :=
  pieces.foldl (fun s piece => (s.extend target piece).2) s

end Session

def lastListeners (target : Target) (pieces : List Piece) : Bool × Bool :=
  (pieces.filterMap (Piece.listeners? target)).getLast?.getD (false, false)

def Tally.total (t : Tally) : Nat :=
  (t.entries.map Prod.snd).sum

namespace Statistics

def flags (s : Statistics) : Bool × Bool :=
  (s.httpListener, s.tcpListener)

structure Totals (s : Statistics) (records : List Statistics) : Prop where
  constants : s.constants = (records.map Statistics.constants).sum
  events : s.events = (records.map Statistics.events).sum
  handlers : s.handlers = (records.map Statistics.handlers).sum
  statements : s.statements = (records.map Statistics.statements).sum
  closures : s.closures = (records.map Statistics.closures).sum
  suspendingCalls : s.suspendingCalls = (records.map Statistics.suspendingCalls).sum
  plainCalls : s.plainCalls = (records.map Statistics.plainCalls).sum
  bigIntLiterals : s.bigIntLiterals = (records.map Statistics.bigIntLiterals).sum
  opcodes : ∀ op, s.opcodes.count op = (records.map fun r => r.opcodes.count op).sum

structure Consistent (target : Target) (s : Statistics) : Prop where
  calls : s.opcodes.total = s.suspendingCalls + s.plainCalls
  suspending : s.suspendingCalls = (target.suspending.toList.map s.opcodes.count).sum

end Statistics

open Statistics

variable {target : Target} {s : Statistics}

lemma handlers_record (hs : List Handler) : ∃ r : Except UnsupportedCapability String,
    r.toOption.isSome = !hs.any (fun h => h.event == target.controlPortEvent) ∧
      ∀ st, (compileHandlers target hs).run.run st =
        (r, (st.recordAll target ((target.admitted hs).flatMap fun h => h.closure.parts)).addItems 0 0
          (target.admitted hs).length) := by
  induction hs with
  | nil => exact ⟨.ok "", rfl, fun st => rfl⟩
  | cons d ds ih =>
    by_cases hd : d.event = target.controlPortEvent
    · have ha : target.admitted (d :: ds) = [] := List.takeWhile_cons_of_neg (by simpa using hd)
      refine ⟨.error ⟨d.event⟩, by simp [hd, Except.toOption], fun st => ?_⟩
      simp only [compileHandlers, Handler.compile, if_pos hd, ha]
      rfl
    · have ha : target.admitted (d :: ds) = d :: target.admitted ds := List.takeWhile_cons_of_pos (by simpa using hd)
      obtain ⟨r, hr, hrun⟩ := ih
      refine ⟨r.map ((d.outline target).text target ++ ·), ?_, fun st => ?_⟩
      · rw [List.any_cons, beq_eq_false_iff_ne.mpr hd, Bool.false_or, ← hr]
        cases r <;> rfl
      · simp only [compileHandlers, Handler.compile, if_neg hd]
        rw [run_lift_bind, run_bind, hrun, registration_text, registration_statistics, recordAll_addItems,
          addItems_addItems, ha, List.flatMap_cons, recordAll_append, List.length_cons, Nat.add_comm 1]
        cases r <;> rfl

lemma program_result (p : Program) : ∃ r : Except UnsupportedCapability String,
    r.toOption.isSome = !p.handles target.controlPortEvent ∧
      ∀ st, (p.compile target).run.run st = (r, st.enter target ((Piece.program p).entry target)) := by
  obtain ⟨r, hr, hrun⟩ := @handlers_record target p.handlers
  refine ⟨r.map fun t => target.header ++ String.join ((p.constants.map (Constant.outline target)).map
    (ConstantOutline.text target)) ++ t ++ target.listenerLines (p.handles target.connectionEvent)
      (p.handles target.tcpConnectionEvent) ++ target.startLine, ?_, fun st => ?_⟩
  · refine Eq.trans ?_ hr
    cases r <;> rfl
  · rw [Program.compile, run_lift_bind]
    change StateT.run (ExceptT.run (compileHandlers target p.handlers >>= _))
      (((compileConstants target p.constants).run st).2.addItems 0 p.events.length 0) = _
    rw [run_bind, hrun, constants_statistics, constants_text]
    have hc : p.handles target.controlPortEvent = !r.toOption.isSome := by rw [hr, Bool.not_not]; rfl
    simp only [Statistics.enter, Piece.entry, hc]
    rw [recordAll_append]
    simp only [recordAll_addItems, addItems_addItems, Nat.zero_add, Nat.add_zero]
    cases r <;> rfl

lemma piece_run (piece : Piece) (st : Statistics) : (piece.compile target).run.run st =
    (((piece.compile target).run.run .empty).1, st.enter target (piece.entry target)) := by
  cases piece with
  | call c => exact Prod.ext rfl (call_statistics c st)
  | value v l indent =>
    refine Prod.ext ?_ (value_statistics v l indent st)
    exact congrArg Except.ok ((value_text v l indent st).trans (value_text v l indent .empty).symm)
  | block ss indent =>
    refine Prod.ext ?_ (block_statistics ss indent st)
    exact congrArg Except.ok ((block_text ss indent st).trans (block_text ss indent .empty).symm)
  | program p =>
    obtain ⟨r, _, hrun⟩ := @program_result target p
    exact (hrun st).trans (congrArg (·, _) (congrArg Prod.fst (hrun .empty)).symm)

lemma extend_eq (s : Session) (piece : Piece) : s.extend target piece = ((piece.alone target).1,
    ⟨s.output ++ (piece.alone target).2.output, s.statistics.enter target (piece.entry target)⟩) := by
  have hs : (piece.compile target).run s.statistics = _ := piece_run piece s.statistics
  have hempty : (piece.compile target).run .empty = _ := piece_run piece .empty
  simp only [Piece.alone, Session.extend, Session.start, hs, hempty]
  generalize ((piece.compile target).run.run .empty).1 = r
  cases r with
  | error e => simp
  | ok t => simp

lemma alone_statistics (piece : Piece) :
    (piece.alone target).2.statistics = Statistics.empty.enter target (piece.entry target) := by
  rw [Piece.alone, extend_eq]
  rfl

/-- A program alone is what the translator makes of it. -/
theorem translateWithStatistics_eq_alone (p : Program) : p.translateWithStatistics target =
    match (Piece.program p).alone target with
    | (.ok script, session) => .ok (script, session.statistics)
    | (.error capability, _) => .error (.unsupported capability) := by
  have hstart : (Piece.compile target (.program p)).run Session.start.statistics = (p.compile target).run .empty := rfl
  simp only [Piece.alone, Session.extend, Program.translateWithStatistics, hstart]
  generalize ((p.compile target).run .empty : Except UnsupportedCapability String × Statistics) = r
  obtain ⟨_ | _, _⟩ := r
  · rfl
  · rfl

lemma listeners_entry (piece : Piece) : (piece.entry target).listeners = piece.listeners? target := by
  cases piece with
  | call _ => rfl
  | value _ _ _ => rfl
  | block _ _ => rfl
  | program p =>
    obtain ⟨r, hr, hrun⟩ := @program_result target p
    have halone : ((Piece.program p).alone target).1 = r := by
      have hempty : (Piece.compile target (.program p)).run .empty = _ := hrun .empty
      simp only [Piece.alone, Session.extend, Session.start, hempty]
      cases r <;> rfl
    have hc : p.handles target.controlPortEvent = !r.toOption.isSome := by rw [hr, Bool.not_not]
    simp only [Piece.entry, Piece.listeners?, halone, hc]
    cases r <;> rfl

lemma counter_enter {α : Type} {count : Statistics → Nat} (kind : Part → Option α) (q : α → Bool)
    (items : Nat → Nat → Nat → Nat) (h : ∀ s p, count (record target s p) = count s + (kind p).toList.countP q)
    (hi : ∀ s a b c, count (addItems s a b c) = count s + items a b c)
    (hl : ∀ s http tcp, count (recordListeners s http tcp) = count s) (he : count .empty = 0) (s : Statistics)
    (e : Entry) : count (s.enter target e) = count s + count (Statistics.empty.enter target e) := by
  have henter (s : Statistics) : count (s.enter target e) =
      count s + (e.parts.filterMap kind).countP q + items e.constants e.events e.handlers := by
    rw [← recordAll_countP kind q h, ← hi, enter]
    cases e.listeners with
    | none => rfl
    | some l => exact hl _ _ _
  rw [henter, henter, he]
  omega

lemma counter_extendAll {count : Statistics → Nat}
    (h : ∀ s e, count (enter target s e) = count s + count (Statistics.empty.enter target e))
    (pieces : List Piece) (s : Session) : count (s.extendAll target pieces).statistics =
      count s.statistics + ((pieces.map fun p => (p.alone target).2.statistics).map count).sum := by
  induction pieces generalizing s with
  | nil => rfl
  | cons p ps ih =>
    change count ((s.extend target p).2.extendAll target ps).statistics = _
    rw [ih, extend_eq, h, List.map_cons, List.map_cons, List.sum_cons, alone_statistics, Nat.add_assoc]

lemma totals_extendAll (pieces : List Piece) : (Session.start.extendAll target pieces).statistics.Totals
    (pieces.map fun p => (p.alone target).2.statistics) := by
  have total {α : Type} (count : Statistics → Nat) (kind : Part → Option α) (q : α → Bool)
      (items : Nat → Nat → Nat → Nat) (h : ∀ s p, count (record target s p) = count s + (kind p).toList.countP q)
      (hi : ∀ s a b c, count (addItems s a b c) = count s + items a b c)
      (hl : ∀ s http tcp, count (recordListeners s http tcp) = count s) (he : count .empty = 0) :
      count (Session.start.extendAll target pieces).statistics =
        ((pieces.map fun p => (p.alone target).2.statistics).map count).sum := by
    rw [counter_extendAll (counter_enter kind q items h hi hl he)]
    change count .empty + _ = _
    rw [he, Nat.zero_add]
  constructor
  · exact total Statistics.constants (fun _ => (none : Option Unit)) (fun _ => true) (fun a _ _ => a)
      (fun s p => by rw [record_eq]; rfl) (fun _ _ _ _ => rfl) (fun _ _ _ => rfl) rfl
  · exact total Statistics.events (fun _ => (none : Option Unit)) (fun _ => true) (fun _ b _ => b)
      (fun s p => by rw [record_eq]; rfl) (fun _ _ _ _ => rfl) (fun _ _ _ => rfl) rfl
  · exact total Statistics.handlers (fun _ => (none : Option Unit)) (fun _ => true) (fun _ _ c => c)
      (fun s p => by rw [record_eq]; rfl) (fun _ _ _ _ => rfl) (fun _ _ _ => rfl) rfl
  · exact total Statistics.statements Part.statement? (fun _ => true) (fun _ _ _ => 0)
      (fun s p => by rw [record_eq]) (fun _ _ _ _ => rfl) (fun _ _ _ => rfl) rfl
  · exact total Statistics.closures Part.closure? (fun _ => true) (fun _ _ _ => 0)
      (fun s p => by rw [record_eq]) (fun _ _ _ _ => rfl) (fun _ _ _ => rfl) rfl
  · exact total Statistics.suspendingCalls Part.call? (fun c => c.opcode ∈ target.suspending) (fun _ _ _ => 0)
      (fun s p => by rw [record_eq]) (fun _ _ _ _ => rfl) (fun _ _ _ => rfl) rfl
  · exact total Statistics.plainCalls Part.call? (fun c => c.opcode ∉ target.suspending) (fun _ _ _ => 0)
      (fun s p => by rw [record_eq]) (fun _ _ _ _ => rfl) (fun _ _ _ => rfl) rfl
  · exact total Statistics.bigIntLiterals Part.literal? (fun l => IsInteger l.2.toList ∧
      Text.trimmed l.1 = target.bigIntLabel) (fun _ _ _ => 0)
      (fun s p => by rw [record_eq]) (fun _ _ _ _ => rfl) (fun _ _ _ => rfl) rfl
  · intro op
    exact total (fun s => s.opcodes.count op) Part.call? (fun c => c.opcode = op) (fun _ _ _ => 0)
      (count_record op) (fun _ _ _ _ => rfl) (fun _ _ _ => rfl) rfl

lemma flags_recordAll (ps : List Part) (s : Statistics) : (s.recordAll target ps).flags = s.flags := by
  induction ps generalizing s with
  | nil => rfl
  | cons p ps ih =>
    change ((s.record target p).recordAll target ps).flags = _
    rw [ih, record_eq]
    rfl

lemma flags_enter (s : Statistics) (e : Entry) : (s.enter target e).flags = e.listeners.getD s.flags := by
  rw [enter]
  cases e.listeners with
  | none => exact flags_recordAll e.parts s
  | some l => rfl

lemma flags_extendAll (pieces : List Piece) (s : Session) : (s.extendAll target pieces).statistics.flags =
    (pieces.filterMap (Piece.listeners? target)).getLast?.getD s.statistics.flags := by
  induction pieces generalizing s with
  | nil => rfl
  | cons p ps ih =>
    change ((s.extend target p).2.extendAll target ps).statistics.flags = _
    rw [ih, extend_eq, flags_enter, listeners_entry]
    cases hl : p.listeners? target with
    | none => rw [List.filterMap_cons_none hl, Option.getD_none]
    | some l => rw [List.filterMap_cons_some hl, List.getLast?_cons, Option.getD_some, Option.getD_some]

lemma total_addTo (name : String) (entries : List (String × Nat)) :
    ((Tally.addTo name entries).map Prod.snd).sum = (entries.map Prod.snd).sum + 1 := by
  induction entries with
  | nil => rfl
  | cons e others ih =>
    obtain ⟨first, n⟩ := e
    simp only [Tally.addTo]
    split
    · simp only [List.map_cons, List.sum_cons]
      omega
    · split
      · simp only [List.map_cons, List.sum_cons]
        omega
      · simp only [List.map_cons, List.sum_cons, ih]
        omega

lemma sum_count_add (t : Tally) (name : String) (names : List String) :
    (names.map (t.add name).count).sum = (names.map t.count).sum + names.count name := by
  induction names with
  | nil => rfl
  | cons first others ih =>
    rw [List.map_cons, List.map_cons, List.sum_cons, List.sum_cons, ih, Tally.count_add, List.count_cons]
    simp only [beq_iff_eq]
    omega

lemma OpcodeSet.count_toList (opcodes : OpcodeSet) (opcode : String) :
    opcodes.toList.count opcode = if opcode ∈ opcodes then 1 else 0 := by
  have hn : opcodes.toList.Nodup := by
    refine opcodes.ascending.imp ?_
    rintro a b h rfl
    exact String.lt_irrefl a h
  exact hn.count

lemma consistent_recordCall (h : s.Consistent target) (opcode : String) :
    (s.recordCall opcode (target.suspends opcode)).Consistent target := by
  obtain ⟨hcalls, hsuspending⟩ := h
  have htotal : (s.opcodes.add opcode).total = s.opcodes.total + 1 := total_addTo opcode s.opcodes.entries
  have hsum := sum_count_add s.opcodes opcode target.suspending.toList
  rw [target.suspending.count_toList] at hsum
  rw [recordCall, Target.suspends]
  by_cases hm : opcode ∈ target.suspending
  · rw [if_pos hm] at hsum
    rw [if_pos (decide_eq_true hm)]
    exact ⟨by simp only [htotal, hcalls]; omega, by simp only [hsum, hsuspending]⟩
  · rw [if_neg hm] at hsum
    rw [if_neg (by simpa using hm)]
    exact ⟨by simp only [htotal, hcalls]; omega, by simp only [hsum, hsuspending]; omega⟩

lemma consistent_record (h : s.Consistent target) (p : Part) : (s.record target p).Consistent target := by
  cases p with
  | statement _ => exact ⟨h.calls, h.suspending⟩
  | closure _ => exact ⟨h.calls, h.suspending⟩
  | call c => exact consistent_recordCall h c.opcode
  | literal l t =>
    rw [record]
    split
    · exact ⟨h.calls, h.suspending⟩
    · exact h

lemma consistent_enter (h : s.Consistent target) (e : Entry) : (s.enter target e).Consistent target := by
  have hparts (ps : List Part) : (s.recordAll target ps).Consistent target := by
    induction ps generalizing s with
    | nil => exact h
    | cons p ps ih => exact ih (consistent_record h p)
  obtain ⟨hcalls, hsuspending⟩ := hparts e.parts
  rw [enter]
  cases e.listeners with
  | none => exact ⟨hcalls, hsuspending⟩
  | some l => exact ⟨hcalls, hsuspending⟩

lemma consistent_extendAll (pieces : List Piece) {s : Session} (h : s.statistics.Consistent target) :
    (s.extendAll target pieces).statistics.Consistent target := by
  induction pieces generalizing s with
  | nil => exact h
  | cons p ps ih =>
    have hp : (s.extend target p).2.statistics.Consistent target := by
      rw [extend_eq]
      exact consistent_enter h (p.entry target)
    exact ih hp

lemma consistent_empty : Statistics.empty.Consistent target := by
  have hzero (names : List String) : (names.map Tally.empty.count).sum = 0 := by
    induction names with
    | nil => rfl
    | cons a as ih => rw [List.map_cons, List.sum_cons, ih, Tally.count_empty]
  exact ⟨rfl, (hzero target.suspending.toList).symm⟩

/-- After any pieces, failed ones among them, the next one gives what it gives alone and only adds to the
output. The counters are the sums of what the pieces record alone, the listeners those of the last script, and
the calls by opcode make up the calls of both kinds. -/
theorem extend_of_pieces (target : Target) (pieces : List Piece) :
    (∀ piece, ((Session.start.extendAll target pieces).extend target piece).1 = (piece.alone target).1 ∧
      ((Session.start.extendAll target pieces).extend target piece).2.output =
        (Session.start.extendAll target pieces).output ++ (piece.alone target).2.output) ∧
      (Session.start.extendAll target pieces).statistics.Totals
        (pieces.map fun piece => (piece.alone target).2.statistics) ∧
      (Session.start.extendAll target pieces).statistics.flags = lastListeners target pieces ∧
      (Session.start.extendAll target pieces).statistics.Consistent target := by
  refine ⟨fun piece => ?_, totals_extendAll pieces, flags_extendAll pieces .start,
    consistent_extendAll pieces consistent_empty⟩
  rw [extend_eq]
  exact ⟨rfl, rfl⟩

end AmmCompiler
