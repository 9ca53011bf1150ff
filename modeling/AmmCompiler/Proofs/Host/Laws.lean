import AmmCompiler.Host.World
import Mathlib.Tactic.Lemma

namespace AmmCompiler

/-- What a host has to show, but for its standard input and its diagnostics: what it reads at a path, where it would
write a text, and how much of a text its output would take. -/
structure Sight (Place : Type) where
  reading : String → Except AccessError String
  writing : String → String → Except AccessError Place
  printing : String → String × Except AccessError Unit
  files : Place → Option ByteArray
  output : String

/-- A host whose actions show in its states. `Line` says what the log may make of a record, and a file that cannot be
written stays as it is. -/
structure LawfulHost (σ Place : Type) extends Host (StateM σ) where
  sight : σ → Sight Place
  input : σ → Except AccessError String
  diagnostics : σ → String
  Line : LogRecord → String → Prop
  readFile_run (path : String) (s : σ) : ∃ s', (readFile path).run s = ((sight s).reading path, s') ∧
    sight s' = sight s ∧ diagnostics s' = diagnostics s ∧ input s' = input s
  readInput_run (s : σ) : ∃ s', readInput.run s = (input s, s') ∧
    sight s' = sight s ∧ diagnostics s' = diagnostics s
  startLog_run (level : LogLevel) (s : σ) : ∃ s', (startLog level).run s = ((), s') ∧
    sight s' = sight s ∧ diagnostics s' = diagnostics s ∧ input s' = input s
  log_run (record : LogRecord) (s : σ) : ∃ s' line, (log record).run s = ((), s') ∧ Line record line ∧
    sight s' = sight s ∧ diagnostics s' = diagnostics s ++ line ∧ input s' = input s
  writeDiagnostics_run (text : String) (s : σ) : ∃ s', (writeDiagnostics text).run s = ((), s') ∧
    sight s' = sight s ∧ diagnostics s' = diagnostics s ++ text
  writeFile_error {path text : String} {s : σ} {e : AccessError} : (sight s).writing path text = .error e →
    ∃ s', (writeFile path text).run s = (.error e, s') ∧ sight s' = sight s ∧ diagnostics s' = diagnostics s
  writeFile_ok {path text : String} {s : σ} {place : Place} : (sight s).writing path text = .ok place →
    ∃ s', (writeFile path text).run s = (.ok (), s') ∧ diagnostics s' = diagnostics s ∧
      (sight s').output = (sight s).output ∧ (sight s').files place = some text.toUTF8 ∧
      ∀ other, other ≠ place → (sight s').files other = (sight s).files other
  writeOutput_run (text : String) (s : σ) : ∃ s', (writeOutput text).run s = (((sight s).printing text).2, s') ∧
    diagnostics s' = diagnostics s ∧ (sight s').output = (sight s).output ++ ((sight s).printing text).1 ∧
    (sight s').files = (sight s).files
  printing_ok {s : σ} {text : String} : ((sight s).printing text).2 = .ok () → ((sight s).printing text).1 = text

namespace World

lemma lookup_put (w : World) (place other : Path) (contents : ByteArray) :
    (w.put place contents).files.lookup other = if other = place then some contents else w.files.lookup other := by
  rw [put, Disk.put, List.lookup_cons]
  split
  · next he => rw [if_pos (beq_iff_eq.mp he)]
  · next he =>
    have hne : other ≠ place := by simpa using he
    rw [if_neg hne]
    induction w.files with
    | nil => rfl
    | cons entry files ih =>
      obtain ⟨key, contents⟩ := entry
      rw [List.filter_cons, List.lookup_cons]
      split
      · rw [List.lookup_cons, ih]
      · next hk =>
        have hkey : key = place := by simpa using hk
        have hother : (other == key) = false := by simpa [hkey] using hne
        rw [hother, ih]

def sight (w : World) : Sight Path where
  reading := w.readText
  writing path _ := w.fileAt path
  printing text := match w.outputError with
    | some e => ("", .error e)
    | none => (text, .ok ())
  files place := w.files.lookup place
  output := w.output

def lawfulHost : LawfulHost World Path where
  toHost := host
  sight := sight
  input w := decodeText w.input
  diagnostics w := w.diagnostics
  Line record line := line = record.line ∨ line = ""
  readFile_run path w := ⟨w, rfl, rfl, rfl, rfl⟩
  readInput_run w := ⟨w, rfl, rfl, rfl⟩
  startLog_run level w := ⟨{ w with logLevel := some level }, rfl, rfl, rfl, rfl⟩
  log_run record w := by
    refine ⟨w.note record, if w.logLevel.any fun limit => limit.admits record.level then record.line else "", rfl, ?_⟩
    rw [note]
    split
    · exact ⟨.inl rfl, rfl, rfl, rfl⟩
    · exact ⟨.inr rfl, rfl, String.append_empty.symm, rfl⟩
  writeDiagnostics_run text w := ⟨{ w with diagnostics := w.diagnostics ++ text }, rfl, rfl, rfl⟩
  writeFile_error {path text w e} h := by
    have hrun : w.writeText path text = (.error e, w) := by
      rw [writeText, show w.fileAt path = .error e from h]
    exact ⟨w, hrun, rfl, rfl⟩
  writeFile_ok {path text w place} h := by
    have hrun : w.writeText path text = (.ok (), w.put place text.toUTF8) := by
      rw [writeText, show w.fileAt path = .ok place from h]
    refine ⟨w.put place text.toUTF8, hrun, rfl, rfl, ?_, fun other hne => ?_⟩
    · exact (lookup_put w place place _).trans (if_pos rfl)
    · exact (lookup_put w place other _).trans (if_neg hne)
  writeOutput_run text w := by
    have hrun : (host.writeOutput text).run w = w.print text := rfl
    rw [hrun, print, sight]
    cases w.outputError with
    | none => exact ⟨_, rfl, rfl, rfl, rfl⟩
    | some e => exact ⟨w, rfl, rfl, String.append_empty.symm, rfl⟩
  printing_ok {w text} h := by
    rw [sight] at h ⊢
    cases ho : w.outputError with
    | none => rfl
    | some e =>
      rw [ho] at h
      cases h

end World

end AmmCompiler
