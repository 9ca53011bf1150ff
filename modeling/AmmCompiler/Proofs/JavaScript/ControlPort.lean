import AmmCompiler.Proofs.JavaScript.Additivity
import AmmCompiler.Proofs.JavaScript.Assembly

/-! The one way in which a program cannot be compiled, and what is recorded when that happens. -/

namespace AmmCompiler

def Program.admitted (target : Target) (p : Program) : Program :=
  { p with handlers := target.admitted p.handlers }

variable {target : Target} {p : Program}

lemma admitted_free (hs : List Handler) : ∀ d ∈ target.admitted hs, d.event ≠ target.controlPortEvent := by
  intro d hd
  simpa using List.mem_takeWhile_imp hd

lemma admitted_of_free {hs : List Handler} (h : ∀ d ∈ hs, d.event ≠ target.controlPortEvent) :
    target.admitted hs = hs := by
  rw [Target.admitted, List.takeWhile_eq_self_iff]
  intro d hd
  simpa using h d hd

lemma admitted_not_listens (p : Program) : ¬ (p.admitted target).Listens target.controlPortEvent := by
  rintro ⟨d, hd, he⟩
  exact admitted_free p.handlers d hd he

lemma entry_admitted (p : Program) : (Piece.program (p.admitted target)).entry target =
    { (Piece.program p).entry target with
      listeners := some ((p.admitted target).handles target.connectionEvent,
        (p.admitted target).handles target.tcpConnectionEvent) } := by
  have hh : target.admitted (p.admitted target).handlers = target.admitted p.handlers :=
    admitted_of_free (admitted_free p.handlers)
  have hc : ¬ (p.admitted target).handles target.controlPortEvent := mt handles_iff.mp (admitted_not_listens p)
  simp only [Piece.entry, hh, if_neg hc]
  rfl

lemma enter_listeners (s : Statistics) (e : Entry) (l : Bool × Bool) : s.enter target { e with listeners := none } =
    { s.enter target { e with listeners := some l } with
      httpListener := s.httpListener, tcpListener := s.tcpListener } := by
  have hflags := @flags_enter target s { e with listeners := none }
  simp only [Statistics.flags, Option.getD_none, Prod.mk.injEq] at hflags
  rw [← hflags.1, ← hflags.2]
  rfl

lemma extend_refused (h : p.Listens target.controlPortEvent) (session : Session) :
    session.extend target (.program p) = (.error ⟨target.controlPortEvent⟩,
      ⟨session.output, session.statistics.enter target { (Piece.program p).entry target with listeners := none }⟩) := by
  have hrun : (Piece.compile target (.program p)).run session.statistics = _ :=
    piece_run (.program p) session.statistics
  have hc : ((Piece.compile target (.program p)).run.run .empty).1 = _ := compile_refused h .empty
  have he : (Piece.program p).entry target = { (Piece.program p).entry target with listeners := none } := by
    simp only [Piece.entry, if_pos (handles_iff.mpr h)]
  rw [Session.extend, hrun, hc, ← he]

lemma extend_admitted (h : ¬ p.Listens target.controlPortEvent) (session : Session) :
    ∃ js, session.extend target (.program p) =
      (.ok js, ⟨session.output ++ js, session.statistics.enter target ((Piece.program p).entry target)⟩) := by
  have hfree : ∀ d ∈ p.handlers, d.event ≠ target.controlPortEvent := fun d hd he => h ⟨d, hd, he⟩
  have hrun : (Piece.compile target (.program p)).run session.statistics = _ :=
    piece_run (.program p) session.statistics
  have hc : ((Piece.compile target (.program p)).run.run .empty).1 = _ := congrArg Prod.fst (compile_run hfree)
  refine ⟨(p.outline target).text target, ?_⟩
  rw [Session.extend, hrun, hc]

lemma translateText_eq_error {text : String} {e : TranslationError} : translateText target text = .error e ↔
    (∃ fault, Program.parse text = .error fault ∧ e = .malformed fault.report) ∨
      ∃ p, Program.parse text = .ok p ∧ p.Listens target.controlPortEvent ∧
        e = .unsupported ⟨target.controlPortEvent⟩ := by
  simp only [translateText, parseText]
  cases hp : Program.parse text with
  | error fault =>
    change Except.error (TranslationError.malformed fault.report) = _ ↔ _
    simp [eq_comm]
  | ok p =>
    change p.translate target = _ ↔ _
    rw [translate_eq, handles_outline]
    by_cases h : p.Listens target.controlPortEvent
    · rw [if_pos (handles_iff.mpr h)]
      simp [h, eq_comm]
    · rw [if_neg (mt handles_iff.mp h)]
      simp [h]

/-- A program is refused for a handler of the control port and for nothing else. Whatever was recorded
before, the refused program leaves the record of the handlers in front of that one, without their listeners;
and a source text is refused because of its syntax or because of such a handler. -/
theorem refusal_of_program (target : Target) (p : Program) (session : Session) :
    ((∃ failure, (session.extend target (.program p)).1 = .error failure) ↔
      ∃ d ∈ p.handlers, d.event = target.controlPortEvent) ∧
      ((∃ d ∈ p.handlers, d.event = target.controlPortEvent) → ∃ js s,
        session.extend target (.program (p.admitted target)) = (.ok js, ⟨session.output ++ js, s⟩) ∧
          session.extend target (.program p) = (.error ⟨target.controlPortEvent⟩, ⟨session.output, { s with
            httpListener := session.statistics.httpListener, tcpListener := session.statistics.tcpListener }⟩)) ∧
      ∀ text e, translateText target text = .error e ↔
        (∃ fault, Program.parse text = .error fault ∧ e = .malformed fault.report) ∨
          ∃ q, Program.parse text = .ok q ∧ (∃ d ∈ q.handlers, d.event = target.controlPortEvent) ∧
            e = .unsupported ⟨target.controlPortEvent⟩ := by
  refine ⟨⟨?_, fun h => ?_⟩, fun h => ?_, fun text e => translateText_eq_error⟩
  · rintro ⟨failure, hf⟩
    by_contra h
    obtain ⟨js, hjs⟩ := extend_admitted h session
    rw [hjs] at hf
    cases hf
  · exact ⟨_, congrArg Prod.fst (extend_refused h session)⟩
  · obtain ⟨js, hjs⟩ := extend_admitted (admitted_not_listens p) session
    rw [entry_admitted] at hjs
    refine ⟨js, _, hjs, ?_⟩
    rw [extend_refused h, enter_listeners]

def controlledProgram : Program where
  constants := [⟨"x", "int64", .literal "1"⟩]
  events := [⟨"e", "void"⟩]
  handlers := [emptyHandler "__conn", emptyHandler "__ctrl", emptyHandler "tcpConn"]

theorem refusal_controlledProgram : ∃ js s,
    (Session.start.extend .alan (.program socketProgram)).2.extend .alan (.program (controlledProgram.admitted .alan)) =
        (.ok js, ⟨socketScript ++ js, s⟩) ∧
      s.flags = (true, false) ∧
      (Session.start.extend .alan (.program socketProgram)).2.extend .alan (.program controlledProgram) =
        (.error ⟨"__ctrl"⟩, ⟨socketScript, { s with httpListener := false, tcpListener := true }⟩) := by
  have h : ∃ d ∈ controlledProgram.handlers, d.event = Target.alan.controlPortEvent :=
    ⟨emptyHandler "__ctrl", by simp [controlledProgram], rfl⟩
  have hout : (Session.start.extend .alan (.program socketProgram)).2.output = socketScript := by decide +kernel
  have hflags : (Session.start.extend .alan (.program socketProgram)).2.statistics.flags = (false, true) := by
    decide +kernel
  obtain ⟨js, s, hjs, hs⟩ :=
    (refusal_of_program .alan controlledProgram (Session.start.extend .alan (.program socketProgram)).2).2.1 h
  obtain ⟨hhttp, htcp⟩ := Prod.mk.inj hflags
  rw [hout] at hjs hs
  rw [hhttp, htcp] at hs
  refine ⟨js, s, hjs, ?_, hs⟩
  have hflags := congrArg (fun r => r.2.statistics.flags) hjs
  refine hflags.symm.trans ?_
  decide +kernel

end AmmCompiler
