import AmmCompiler.Proofs.JavaScript.Counts

/-! A script is put together from texts of the single items, so that programs are joined item by item. -/

namespace AmmCompiler

def Constant.script (target : Target) (c : Constant) : String :=
  (c.outline target).text target

def Handler.script (target : Target) (h : Handler) : String :=
  (h.outline target).text target

namespace Program

def Listens (p : Program) (event : String) : Prop :=
  ∃ h ∈ p.handlers, h.event = event

end Program

namespace Target

def frame (target : Target) (items : String) (http tcp : Prop) [Decidable http] [Decidable tcp] : String :=
  target.header ++ items ++ (if http then target.startListener target.httpListener else "") ++
    (if tcp then target.startListener target.tcpListener else "") ++ target.startLine

end Target

variable {target : Target} {p q : Program} {event : String}

lemma join_flatMap {α β : Type} {parts : α → List β} {text : β → String} {script : α → String}
    (h : ∀ a, String.join ((parts a).map text) = script a) (as : List α) :
    String.join ((as.flatMap parts).map text) = String.join (as.map script) := by
  induction as with
  | nil => rfl
  | cons a as ih =>
    rw [List.flatMap_cons, List.map_append, String.join_append, h, ih, List.map_cons, String.join_cons]

lemma handles_iff : p.handles event ↔ p.Listens event := by
  simp only [Program.handles, List.any_eq_true, beq_iff_eq, Program.Listens]

instance : Decidable (p.Listens event) :=
  decidable_of_iff _ handles_iff

lemma listens_append : (p.append q).Listens event ↔ p.Listens event ∨ q.Listens event := by
  simp only [Program.Listens, Program.append, List.mem_append, or_and_right, exists_or]

lemma outline_text : (p.outline target).text target =
    target.frame (String.join (p.constants.map (Constant.script target)) ++
      String.join (p.handlers.map (Handler.script target)))
        (p.Listens target.connectionEvent) (p.Listens target.tcpConnectionEvent) := by
  rw [ProgramOutline.text, handles_outline, handles_outline, Target.frame, Target.listenerLines]
  simp only [Program.outline, List.map_map, handles_iff, String.append_assoc]
  rfl

lemma translate_eq_ok {js : String} : p.translate target = .ok js ↔
    (∀ d ∈ p.handlers, d.event ≠ target.controlPortEvent) ∧ js = (p.outline target).text target := by
  rw [Program.translate]
  constructor
  · intro h
    cases hr : p.translateWithStatistics target with
    | error e =>
      rw [hr] at h
      cases h
    | ok r =>
      obtain ⟨js', s⟩ := r
      rw [hr] at h
      obtain rfl := Except.ok.inj h
      obtain ⟨hfree, hjs, _⟩ := translateWithStatistics_eq_ok.mp hr
      exact ⟨hfree, hjs⟩
  · rintro ⟨hfree, rfl⟩
    rw [translateWithStatistics_eq_ok.mpr ⟨hfree, rfl, rfl⟩]
    rfl

lemma translateText_eq_ok {text js : String} : translateText target text = .ok js ↔
    ∃ p, Program.parse text = .ok p ∧ p.translate target = .ok js := by
  simp only [translateText, parseText]
  constructor
  · intro h
    cases hp : Program.parse text with
    | error e =>
      rw [hp] at h
      cases h
    | ok p =>
      rw [hp] at h
      exact ⟨p, rfl, h⟩
  · rintro ⟨p, hp, h⟩
    rw [hp]
    exact h

lemma handlers_refused {hs : List Handler} (st : Statistics) (h : ∃ d ∈ hs, d.event = target.controlPortEvent) :
    ((compileHandlers target hs).run.run st).1 = .error ⟨target.controlPortEvent⟩ := by
  induction hs generalizing st with
  | nil =>
    obtain ⟨_, hd, _⟩ := h
    cases hd
  | cons d ds ih =>
    by_cases hd : d.event = target.controlPortEvent
    · rw [handlers_control ds st hd, hd]
    · obtain ⟨d', hd', he⟩ := h
      rcases List.mem_cons.mp hd' with rfl | hd'
      · exact absurd he hd
      · rw [handlers_cons ds st hd, ih _ ⟨d', hd', he⟩]
        rfl

lemma compile_refused (h : p.Listens target.controlPortEvent) (st : Statistics) :
    ((p.compile target).run.run st).1 = .error ⟨target.controlPortEvent⟩ := by
  obtain ⟨st', hst⟩ := @compile_handlers target p st
  rw [hst, handlers_refused st' h]
  rfl

lemma translate_eq (p : Program) : p.translate target =
    if (p.outline target).handles target.controlPortEvent then .error (.unsupported ⟨target.controlPortEvent⟩)
    else .ok ((p.outline target).text target) := by
  rw [handles_outline]
  by_cases h : p.Listens target.controlPortEvent
  · rw [if_pos (handles_iff.mpr h)]
    have hst := compile_refused h .empty
    simp only [Program.translate, Program.translateWithStatistics]
    change ((p.compile target).run .empty).1 = .error ⟨target.controlPortEvent⟩ at hst
    generalize (p.compile target).run .empty = r at hst
    obtain ⟨e | t, st'⟩ := r
    · obtain rfl := Except.error.inj hst
      rfl
    · cases hst
  · rw [if_neg (mt handles_iff.mp h)]
    exact translate_eq_ok.mpr ⟨fun d hd he => h ⟨d, hd, he⟩, rfl⟩

lemma translate_of_free (h : ∀ d ∈ p.handlers, d.event ≠ target.controlPortEvent) : p.translate target =
    .ok (target.frame (String.join (p.constants.map (Constant.script target)) ++
      String.join (p.handlers.map (Handler.script target)))
        (p.Listens target.connectionEvent) (p.Listens target.tcpConnectionEvent)) :=
  translate_eq_ok.mpr ⟨h, outline_text.symm⟩

lemma translate_constant (c : Constant) : (Program.mk [c] [] []).translate target =
    .ok (target.frame (c.script target) False False) := by
  rw [translate_of_free (List.forall_mem_nil _)]
  simp [Program.Listens, Target.frame]

lemma translate_handler {h : Handler} (hc : h.event ≠ target.controlPortEvent) :
    (Program.mk [] [] [h]).translate target = .ok (target.frame (h.script target)
      (h.event = target.connectionEvent) (h.event = target.tcpConnectionEvent)) := by
  have hfree : ∀ d ∈ [h], d.event ≠ target.controlPortEvent := List.forall_mem_singleton.mpr hc
  rw [translate_of_free hfree]
  simp [Program.Listens, Target.frame]

/-- Each item has a text of its own, the one that stands in the script of the item alone. The script of a
program is these texts in order between the header, the listeners some handler needs and the start event,
whatever events are declared; and two programs that can be translated can be translated together. -/
theorem script_of_translate {js js' : String} {s s' : Statistics}
    (hp : p.translateWithStatistics target = .ok (js, s)) (hq : q.translateWithStatistics target = .ok (js', s')) :
    (∀ c, (Program.mk [c] [] []).translate target = .ok (target.frame (c.script target) False False)) ∧
      (∀ h, h.event ≠ target.controlPortEvent → (Program.mk [] [] [h]).translate target =
        .ok (target.frame (h.script target) (h.event = target.connectionEvent) (h.event = target.tcpConnectionEvent))) ∧
      js = target.frame (String.join (p.constants.map (Constant.script target)) ++
        String.join (p.handlers.map (Handler.script target)))
          (p.Listens target.connectionEvent) (p.Listens target.tcpConnectionEvent) ∧
      (s.httpListener ↔ p.Listens target.connectionEvent) ∧ (s.tcpListener ↔ p.Listens target.tcpConnectionEvent) ∧
      (∀ events, (Program.mk p.constants events p.handlers).translate target = .ok js) ∧
      (p.append q).translate target = .ok (target.frame (String.join (p.constants.map (Constant.script target)) ++
        String.join (q.constants.map (Constant.script target)) ++ String.join (p.handlers.map (Handler.script target)) ++
          String.join (q.handlers.map (Handler.script target)))
            (p.Listens target.connectionEvent ∨ q.Listens target.connectionEvent)
              (p.Listens target.tcpConnectionEvent ∨ q.Listens target.tcpConnectionEvent)) := by
  obtain ⟨hpc, rfl, rfl⟩ := translateWithStatistics_eq_ok.mp hp
  obtain ⟨hqc, rfl, rfl⟩ := translateWithStatistics_eq_ok.mp hq
  refine ⟨translate_constant, fun h => translate_handler, outline_text, handles_iff, handles_iff, ?_, ?_⟩
  · intro events
    exact translate_eq_ok.mpr ⟨hpc, rfl⟩
  · rw [translate_of_free (List.forall_mem_append.mpr ⟨hpc, hqc⟩)]
    simp only [Program.append, List.map_append, String.join_append, String.append_assoc, Target.frame,
      ← listens_append]
    rfl

def emptyHandler (event : String) : Handler :=
  ⟨event, ⟨⟨[], none⟩, "void", []⟩⟩

def webProgram : Program where
  constants := [⟨"x", "int64", .literal "1"⟩]
  events := [⟨"e", "void"⟩]
  handlers := [emptyHandler "__conn", emptyHandler "__conn"]

def socketProgram : Program where
  constants := [⟨"y", "t", .variable "x"⟩]
  events := []
  handlers := [emptyHandler "tcpConn"]

def webScript : String :=
  "const r = require('alan-js-runtime')\nconst x = 1n\nr.on('__conn', async () => \x7b\n\x7d)\n" ++
    "r.on('__conn', async () => \x7b\n\x7d)\nr.on('_start', () => r.httplsn())\nr.emit('_start', undefined)\n"

def socketScript : String :=
  "const r = require('alan-js-runtime')\nconst y = x\nr.on('tcpConn', async () => \x7b\n\x7d)\n" ++
    "r.on('_start', () => r.tcplsn())\nr.emit('_start', undefined)\n"

def joinedScript : String :=
  "const r = require('alan-js-runtime')\nconst x = 1n\nconst y = x\nr.on('__conn', async () => \x7b\n\x7d)\n" ++
    "r.on('__conn', async () => \x7b\n\x7d)\nr.on('tcpConn', async () => \x7b\n\x7d)\n" ++
      "r.on('_start', () => r.httplsn())\nr.on('_start', () => r.tcplsn())\nr.emit('_start', undefined)\n"

theorem script_webProgram :
    webProgram.translateWithStatistics .alan = .ok (webScript, webProgram.statistics .alan) ∧
      socketProgram.translateWithStatistics .alan = .ok (socketScript, socketProgram.statistics .alan) ∧
        (webProgram.append socketProgram).translate .alan = .ok joinedScript := by
  have hw : webProgram.translateWithStatistics .alan = .ok (webScript, webProgram.statistics .alan) := by
    decide +kernel
  have hs : socketProgram.translateWithStatistics .alan = .ok (socketScript, socketProgram.statistics .alan) := by
    decide +kernel
  obtain ⟨_, _, _, _, _, _, hjoined⟩ := script_of_translate hw hs
  refine ⟨hw, hs, hjoined.trans ?_⟩
  decide +kernel

end AmmCompiler
