import AmmCompiler.Proofs.CommandLine.AwaitedOpcodes
import AmmCompiler.Proofs.Host.Laws
import AmmCompiler.Proofs.JavaScript.ControlPort

/-! A run of the command fails and leaves no more than a report, or it writes one whole script to one place. -/

namespace AmmCompiler

structure Options.Asks (o : Options) (opcodes : List String) (target : Target) : Prop where
  runtimeModule : target.runtimeModule = o.runtimeModule.getD "alan-js-runtime"
  suspends (opcode : String) : target.suspends opcode ↔
    opcode ∈ Target.asyncOpcodes ∧ o.replaceAsyncOpcodes ≠ true ∨ opcode ∈ opcodes ∨ opcode ∈ o.asyncOpcodes
  others : target = { Target.alan with runtimeModule := target.runtimeModule, suspending := target.suspending }

namespace LawfulHost

variable {σ Place : Type} (H : LawfulHost σ Place)

inductive OpcodesIn (o : Options) (s : σ) : List String → Prop
  | none : o.asyncOpcodesFile = none → OpcodesIn o s []
  | file {path text : String} : o.asyncOpcodesFile = some path → (H.sight s).reading path = .ok text →
      OpcodesIn o s (opcodeList text)

inductive SourceIn (o : Options) (s : σ) : String → String → Prop
  | file {path source : String} : o.input = some path → path ≠ "-" → (H.sight s).reading path = .ok source →
      SourceIn o s path source
  | standard {source : String} : (∀ path, o.input = some path → path = "-") → H.input s = .ok source →
      SourceIn o s "<stdin>" source

inductive Scripts (o : Options) (s : σ) (script : String) : Prop
  | of {opcodes : List String} {target : Target} {name source : String} : H.OpcodesIn o s opcodes →
      o.Asks opcodes target → H.SourceIn o s name source → translateText target source = .ok script →
      Scripts o s script

/-- What goes wrong first: the message about it, and what the output has taken of the script when it fails. -/
inductive Fails (o : Options) (s : σ) : String → String → Prop
  | opcodes {path : String} {e : AccessError} : o.asyncOpcodesFile = some path →
      (H.sight s).reading path = .error e → Fails o s ("Failed to read " ++ path ++ ": " ++ e.message) ""
  | source {opcodes : List String} {path : String} {e : AccessError} : H.OpcodesIn o s opcodes →
      o.input = some path → path ≠ "-" → (H.sight s).reading path = .error e →
      Fails o s ("Failed to read " ++ path ++ ": " ++ e.message) ""
  | input {opcodes : List String} {e : AccessError} : H.OpcodesIn o s opcodes →
      (∀ path, o.input = some path → path = "-") → H.input s = .error e → Fails o s e.message ""
  | malformed {opcodes : List String} {name source : String} {e : SyntaxError} : H.OpcodesIn o s opcodes →
      H.SourceIn o s name source → Program.parse source = .error e → Fails o s (name ++ ": " ++ e.report) ""
  | refused {opcodes : List String} {name source : String} {p : Program} {d : Handler} : H.OpcodesIn o s opcodes →
      H.SourceIn o s name source → Program.parse source = .ok p → d ∈ p.handlers → d.event = "__ctrl" →
      Fails o s "AVM Control Port unavailable in JS (handler for '__ctrl')" ""
  | unwritable {script path : String} {e : AccessError} : H.Scripts o s script → o.output = some path →
      (H.sight s).writing path script = .error e → Fails o s ("Failed to write " ++ path ++ ": " ++ e.message) ""
  | unprintable {script printed : String} {e : AccessError} : H.Scripts o s script → o.output = none →
      (H.sight s).printing script = (printed, .error e) → Fails o s e.message printed

/-- The output takes nothing of a text that it does not take whole. -/
def WritesWhole (s : σ) : Prop :=
  ∀ text, ((H.sight s).printing text).2 ≠ .ok () → ((H.sight s).printing text).1 = ""

inductive Delivers (o : Options) (script : String) (s s' : σ) : Prop
  | file {path : String} {place : Place} : o.output = some path → (H.sight s).writing path script = .ok place →
      (H.sight s').files place = some script.toUTF8 →
      (∀ other, other ≠ place → (H.sight s').files other = (H.sight s).files other) →
      (H.sight s').output = (H.sight s).output → Delivers o script s s'
  | output : o.output = none → (H.sight s').output = (H.sight s).output ++ script →
      (H.sight s').files = (H.sight s).files → Delivers o script s s'

/-- The diagnostics of a run that goes on: lines of the log, and statistics if they are wanted. -/
inductive Notes (wanted : Bool) : String → Prop
  | none : Notes wanted ""
  | line {record : LogRecord} {line notes : String} : H.Line record line → Notes wanted notes →
      Notes wanted (line ++ notes)
  | report {statistics : Statistics} {notes : String} : wanted = true → Notes wanted notes →
      Notes wanted (statistics.report ++ notes)

structure Quiet (wanted : Bool) (s s' : σ) : Prop where
  sight : H.sight s' = H.sight s
  diagnostics : ∃ notes, H.Notes wanted notes ∧ H.diagnostics s' = H.diagnostics s ++ notes

structure Reports (wanted : Bool) (message printed : String) (s s' : σ) : Prop where
  files : (H.sight s').files = (H.sight s).files
  output : (H.sight s').output = (H.sight s).output ++ printed
  diagnostics : ∃ notes, H.Notes wanted notes ∧
    H.diagnostics s' = H.diagnostics s ++ notes ++ ("Error: " ++ message ++ "\n")

end LawfulHost

abbrev Action (σ α : Type) :=
  ExceptT CommandError (StateM σ) α

def Action.exec {σ α : Type} (x : Action σ α) (s : σ) : Except CommandError α × σ :=
  x.run.run s

variable {σ Place α β : Type} {H : LawfulHost σ Place} {x : Action σ α} {f : α → Action σ β} {a : α} {o : Options}
  {s s' s'' : σ} {wanted : Bool} {e : CommandError} {opcodes arguments : List String}
  {name source script path message printed : String} {target : Target}

lemma exec_bind_ok (h : x.exec s = (.ok a, s')) : Action.exec (x >>= f) s = (f a).exec s' := by
  simp only [Action.exec, ExceptT.run_bind, StateT.run_bind] at h ⊢
  rw [h]
  rfl

lemma exec_bind_error (h : x.exec s = (.error e, s')) : Action.exec (x >>= f) s = (.error e, s') := by
  simp only [Action.exec, ExceptT.run_bind, StateT.run_bind] at h ⊢
  rw [h]
  rfl

lemma exec_lift {y : StateM σ α} (h : y.run s = (a, s')) : Action.exec (liftM y) s = (.ok a, s') := by
  have hrun : (liftM y : Action σ α).run = Except.ok <$> y := rfl
  rw [Action.exec, hrun, StateT.run_map, h]
  rfl

lemma exec_named (o : Options) (r : Except TranslationError α) (s : σ) :
    Action.exec (o.named r) s = (r.mapError (.translation o.inputName), s) := by
  cases r <;> rfl

namespace Options

lemma asks_target (o : Options) (opcodes : List String) : o.Asks opcodes (o.target opcodes) where
  runtimeModule := by
    rw [Options.target]
    split
    · rfl
    · rfl
  suspends opcode := by
    rw [Target.suspends, decide_eq_true_iff]
    exact mem_target
  others := by
    rw [target_eq_after]
    exact Target.after_frame _ _

lemma Asks.eq (h : o.Asks opcodes target) : target = o.target opcodes := by
  have hown := o.asks_target opcodes
  have hregistry : target.suspending = (o.target opcodes).suspending := by
    apply OpcodeSet.ext_mem
    intro opcode
    simpa [Target.suspends] using (h.suspends opcode).trans (hown.suspends opcode).symm
  rw [h.others, hown.others, h.runtimeModule, hown.runtimeModule, hregistry]

end Options

namespace LawfulHost

lemma OpcodesIn.congr (h : H.OpcodesIn o s opcodes) (hs : H.sight s' = H.sight s) (b : Bool) :
    H.OpcodesIn { o with statistics := b } s' opcodes := by
  cases h with
  | none hf => exact .none hf
  | file hf ht => exact .file hf (hs ▸ ht)

lemma SourceIn.congr (h : H.SourceIn o s name source) (hs : H.sight s' = H.sight s) (hi : H.input s' = H.input s)
    (b : Bool) : H.SourceIn { o with statistics := b } s' name source := by
  cases h with
  | file hf hp ht => exact .file hf hp (hs ▸ ht)
  | standard hf ht => exact .standard hf (hi ▸ ht)

lemma Scripts.congr (h : H.Scripts o s script) (hs : H.sight s' = H.sight s) (hi : H.input s' = H.input s) (b : Bool) :
    H.Scripts { o with statistics := b } s' script := by
  obtain ⟨ho, ⟨hm, hsuspends, hothers⟩, hsource, ht⟩ := h
  exact ⟨ho.congr hs b, ⟨hm, hsuspends, hothers⟩, hsource.congr hs hi b, ht⟩

lemma Fails.congr (h : H.Fails o s message printed) (hs : H.sight s' = H.sight s) (hi : H.input s' = H.input s)
    (b : Bool) : H.Fails { o with statistics := b } s' message printed := by
  cases h with
  | opcodes hf he => exact .opcodes hf (hs ▸ he)
  | source ho hf hp he => exact .source (ho.congr hs b) hf hp (hs ▸ he)
  | input ho hf he => exact .input (ho.congr hs b) hf (hi ▸ he)
  | malformed ho hsource hp => exact .malformed (ho.congr hs b) (hsource.congr hs hi b) hp
  | refused ho hsource hp hd he => exact .refused (ho.congr hs b) (hsource.congr hs hi b) hp hd he
  | unwritable hscript hf he => exact .unwritable (hscript.congr hs hi b) hf (hs ▸ he)
  | unprintable hscript hf he => exact .unprintable (hscript.congr hs hi b) hf (hs ▸ he)

lemma Notes.append {notes more : String} (h : H.Notes wanted notes) (h' : H.Notes wanted more) :
    H.Notes wanted (notes ++ more) := by
  induction h with
  | none => rwa [String.empty_append]
  | line hl _ ih =>
    rw [String.append_assoc]
    exact .line hl ih
  | report hw _ ih =>
    rw [String.append_assoc]
    exact .report hw ih

lemma Quiet.trans (h : H.Quiet wanted s s') (h' : H.Quiet wanted s' s'') : H.Quiet wanted s s'' := by
  obtain ⟨hs, notes, hn, hd⟩ := h
  obtain ⟨hs', more, hn', hd'⟩ := h'
  exact ⟨hs'.trans hs, notes ++ more, hn.append hn', by rw [hd', hd, String.append_assoc]⟩

lemma quiet_of_eq (wanted : Bool) (hs : H.sight s' = H.sight s) (hd : H.diagnostics s' = H.diagnostics s) :
    H.Quiet wanted s s' :=
  ⟨hs, "", .none, by rw [hd, String.append_empty]⟩

lemma Quiet.refl (H : LawfulHost σ Place) (wanted : Bool) (s : σ) : H.Quiet wanted s s :=
  quiet_of_eq wanted rfl rfl

variable (H)

lemma log_quiet (wanted : Bool) (record : LogRecord) (s : σ) :
    ∃ s', (H.log record).run s = ((), s') ∧ H.Quiet wanted s s' ∧ H.input s' = H.input s := by
  obtain ⟨s', line, hrun, hl, hs, hd, hi⟩ := H.log_run record s
  refine ⟨s', hrun, ⟨hs, line, ?_, hd⟩, hi⟩
  rw [← String.append_empty (s := line)]
  exact .line hl .none

lemma logAll_quiet (wanted : Bool) (records : List LogRecord) (s : σ) :
    ∃ s', (H.logAll records).run s = ((), s') ∧ H.Quiet wanted s s' := by
  induction records generalizing s with
  | nil => exact ⟨s, rfl, .refl H wanted s⟩
  | cons record records ih =>
    obtain ⟨s₁, hrun, hquiet, -⟩ := H.log_quiet wanted record s
    obtain ⟨s₂, hrun', hquiet'⟩ := ih s₁
    refine ⟨s₂, ?_, hquiet.trans hquiet'⟩
    change (H.log record >>= fun _ => H.logAll records).run s = _
    rw [StateT.run_bind, hrun]
    exact hrun'

lemma exec_readFile (wanted : Bool) (path : String) (s : σ) :
    ∃ s', Action.exec (Options.readFile H.toHost path) s =
      (((H.sight s).reading path).mapError (.unreadable path), s') ∧ H.Quiet wanted s s' ∧
        H.input s' = H.input s := by
  obtain ⟨s', hrun, hs, hd, hi⟩ := H.readFile_run path s
  refine ⟨s', (exec_bind_ok (exec_lift hrun)).trans ?_, quiet_of_eq wanted hs hd, hi⟩
  cases (H.sight s).reading path <;> rfl

variable {H}

lemma exec_readOpcodes (wanted : Bool) (ho : H.OpcodesIn o s opcodes) :
    ∃ s', Action.exec (o.readOpcodes H.toHost) s = (.ok opcodes, s') ∧ H.Quiet wanted s s' ∧
      H.input s' = H.input s := by
  rw [Options.readOpcodes]
  cases ho with
  | none hf =>
    rw [hf]
    exact ⟨s, rfl, .refl H wanted s, rfl⟩
  | @file path text hf ht =>
    obtain ⟨s₁, hrun, hquiet, hi⟩ := H.exec_readFile wanted path s
    obtain ⟨s₂, hrun', hquiet', hi'⟩ := H.log_quiet wanted (Options.opcodesRecord path (opcodeList text)) s₁
    rw [ht] at hrun
    rw [hf]
    exact ⟨s₂, (exec_bind_ok hrun).trans (exec_bind_ok (exec_lift hrun')), hquiet.trans hquiet', hi'.trans hi⟩

lemma exec_readOpcodes_error (wanted : Bool) {e : AccessError} (hf : o.asyncOpcodesFile = some path)
    (he : (H.sight s).reading path = .error e) :
    ∃ s', Action.exec (o.readOpcodes H.toHost) s = (.error (.unreadable path e), s') ∧ H.Quiet wanted s s' := by
  obtain ⟨s', hrun, hquiet, -⟩ := H.exec_readFile wanted path s
  rw [he] at hrun
  rw [Options.readOpcodes, hf]
  exact ⟨s', exec_bind_error hrun, hquiet⟩

lemma inputFile?_some (hi : o.input = some path) (hp : path ≠ "-") : o.inputFile? = some path := by
  rw [Options.inputFile?, hi, Option.filter_some, if_pos (decide_eq_true hp)]

lemma inputFile?_none (hi : ∀ path, o.input = some path → path = "-") : o.inputFile? = none := by
  rw [Options.inputFile?]
  cases hp : o.input with
  | none => rfl
  | some path =>
    rw [hi path hp]
    rfl

lemma exec_readSource_file (wanted : Bool) (hi : o.input = some path) (hp : path ≠ "-") (s : σ) :
    ∃ s', Action.exec (o.readSource H.toHost) s =
      (((H.sight s).reading path).mapError (.unreadable path), s') ∧ H.Quiet wanted s s' := by
  obtain ⟨s', hrun, hquiet, -⟩ := H.exec_readFile wanted path s
  rw [Options.readSource, inputFile?_some hi hp]
  exact ⟨s', hrun, hquiet⟩

lemma exec_readSource_standard (wanted : Bool) (hi : ∀ path, o.input = some path → path = "-") (s : σ) :
    ∃ s', Action.exec (o.readSource H.toHost) s = ((H.input s).mapError .unreadableInput, s') ∧
      H.Quiet wanted s s' := by
  obtain ⟨s', hrun, hs, hd⟩ := H.readInput_run s
  rw [Options.readSource, inputFile?_none hi]
  refine ⟨s', (exec_bind_ok (exec_lift hrun)).trans ?_, quiet_of_eq wanted hs hd⟩
  cases H.input s <;> rfl

lemma exec_readSource (wanted : Bool) (h : H.SourceIn o s name source) :
    ∃ s', Action.exec (o.readSource H.toHost) s = (.ok source, s') ∧ H.Quiet wanted s s' := by
  cases h with
  | file hi hp ht =>
    obtain ⟨s', hrun, hquiet⟩ := exec_readSource_file (H := H) wanted hi hp s
    rw [ht] at hrun
    exact ⟨s', hrun, hquiet⟩
  | standard hi ht =>
    obtain ⟨s', hrun, hquiet⟩ := exec_readSource_standard (H := H) wanted hi s
    rw [ht] at hrun
    exact ⟨s', hrun, hquiet⟩

lemma SourceIn.name_eq (h : H.SourceIn o s name source) : o.inputName = name := by
  cases h with
  | file hi hp _ => rw [Options.inputName, inputFile?_some hi hp, Option.getD_some]
  | standard hi _ => rw [Options.inputName, inputFile?_none hi, Option.getD_none]

variable (H)

lemma exec_translateSource (o : Options) (wanted : Bool) (target : Target) (source : String) (s : σ) :
    ∃ s', Action.exec (o.translateSource H.toHost target source) s =
      ((translateText target source).mapError (.translation o.inputName), s') ∧ H.Quiet wanted s s' := by
  obtain ⟨s', hrun, hquiet⟩ := H.logAll_quiet wanted (textRecords target source) s
  exact ⟨s', (exec_bind_ok (exec_lift hrun)).trans (exec_named o _ s'), hquiet⟩

lemma exec_translateAndReport (o : Options) (target : Target) (source : String) (s : σ) :
    ∃ s', Action.exec (o.translateAndReport H.toHost target source) s =
      ((translateText target source).mapError (.translation o.inputName), s') ∧ H.Quiet true s s' := by
  obtain ⟨s₁, hread, hquiet⟩ := H.logAll_quiet true (parseRecords source) s
  rw [Options.translateAndReport, exec_bind_ok (exec_lift hread)]
  cases hp : parseText source with
  | error e =>
    have ht : translateText target source = .error e := congrArg (Except.bind · _) hp
    rw [ht]
    exact ⟨s₁, exec_bind_error (exec_named o _ s₁), hquiet⟩
  | ok p =>
    have ht : translateText target source = (p.translateWithStatistics target).map Prod.fst :=
      congrArg (Except.bind · _) hp
    obtain ⟨s₂, hemit, hquiet'⟩ := H.logAll_quiet true (p.records target) s₁
    rw [ht, exec_bind_ok (exec_named o (.ok p) s₁), exec_bind_ok (exec_lift hemit)]
    cases hx : p.translateWithStatistics target with
    | error e => exact ⟨s₂, exec_bind_error (exec_named o _ s₂), hquiet.trans hquiet'⟩
    | ok result =>
      obtain ⟨script, statistics⟩ := result
      obtain ⟨s₃, hreport, hs, hd⟩ := H.writeDiagnostics_run statistics.report s₂
      rw [exec_bind_ok (exec_named o (.ok (script, statistics)) s₂)]
      refine ⟨s₃, exec_bind_ok (exec_lift hreport), (hquiet.trans hquiet').trans ⟨hs, _, ?_, hd⟩⟩
      rw [← String.append_empty (s := statistics.report)]
      exact .report rfl .none

lemma exec_translate (o : Options) (target : Target) (source : String) (s : σ) :
    ∃ s', Action.exec (if o.statistics then o.translateAndReport H.toHost target source
      else o.translateSource H.toHost target source) s =
        ((translateText target source).mapError (.translation o.inputName), s') ∧ H.Quiet o.statistics s s' := by
  cases o.statistics with
  | false => exact H.exec_translateSource o false target source s
  | true => exact H.exec_translateAndReport o target source s

variable {H}

lemma exec_makeScript (ho : H.OpcodesIn o s opcodes) (hs : H.SourceIn o s name source) :
    ∃ s', Action.exec (o.makeScript H.toHost) s =
      ((translateText (o.target opcodes) source).mapError (.translation name), s') ∧ H.Quiet o.statistics s s' := by
  obtain ⟨s₁, hopcodes, hquiet, hi⟩ := exec_readOpcodes o.statistics ho
  obtain ⟨s₂, hsource, hquiet'⟩ := exec_readSource o.statistics (hs.congr hquiet.sight hi o.statistics)
  obtain ⟨s₃, htranslate, hquiet''⟩ := H.exec_translate o (o.target opcodes) source s₂
  rw [hs.name_eq] at htranslate
  exact ⟨s₃, (exec_bind_ok hopcodes).trans ((exec_bind_ok hsource).trans htranslate),
    (hquiet.trans hquiet').trans hquiet''⟩

lemma Scripts.exec (h : H.Scripts o s script) :
    ∃ s', Action.exec (o.makeScript H.toHost) s = (.ok script, s') ∧ H.Quiet o.statistics s s' := by
  obtain ⟨ho, ha, hs, ht⟩ := h
  obtain ⟨s', hrun, hquiet⟩ := exec_makeScript ho hs
  rw [← ha.eq, ht] at hrun
  exact ⟨s', hrun, hquiet⟩

lemma exec_run (h : H.Scripts o s script) :
    ∃ s', Action.exec (o.run H.toHost) s = Action.exec (o.writeScript H.toHost script) s' ∧
      H.Quiet o.statistics s s' := by
  obtain ⟨s', hrun, hquiet⟩ := h.exec
  exact ⟨s', exec_bind_ok hrun, hquiet⟩

lemma exec_run_error (h : Action.exec (o.makeScript H.toHost) s = (.error e, s')) :
    Action.exec (o.run H.toHost) s = (.error e, s') :=
  exec_bind_error h

lemma exec_writeScript_file {e : AccessError} (hf : o.output = some path)
    (he : (H.sight s).writing path script = .error e) :
    ∃ s', Action.exec (o.writeScript H.toHost script) s = (.error (.unwritable path e), s') ∧
      H.sight s' = H.sight s ∧ H.diagnostics s' = H.diagnostics s := by
  obtain ⟨s', hrun, hs, hd⟩ := H.writeFile_error he
  rw [Options.writeScript, hf]
  exact ⟨s', exec_bind_ok (exec_lift hrun), hs, hd⟩

lemma exec_writeScript_output (hf : o.output = none) (s : σ) (script : String) :
    ∃ s', Action.exec (o.writeScript H.toHost script) s =
      (((H.sight s).printing script).2.mapError .unprintable, s') ∧ H.diagnostics s' = H.diagnostics s ∧
        (H.sight s').output = (H.sight s).output ++ ((H.sight s).printing script).1 ∧
          (H.sight s').files = (H.sight s).files := by
  obtain ⟨s', hrun, hd, ho, hfiles⟩ := H.writeOutput_run script s
  rw [Options.writeScript, hf]
  refine ⟨s', (exec_bind_ok (exec_lift hrun)).trans ?_, hd, ho, hfiles⟩
  cases ((H.sight s).printing script).2 <;> rfl

structure Stops (H : LawfulHost σ Place) (wanted : Bool) (printed : String) (s s' : σ) : Prop where
  files : (H.sight s').files = (H.sight s).files
  output : (H.sight s').output = (H.sight s).output ++ printed
  diagnostics : ∃ notes, H.Notes wanted notes ∧ H.diagnostics s' = H.diagnostics s ++ notes

lemma Quiet.stops (h : H.Quiet wanted s s') : H.Stops wanted "" s s' :=
  ⟨by rw [h.sight], by rw [h.sight, String.append_empty], h.diagnostics⟩

lemma Fails.exec (h : H.Fails o s message printed) :
    ∃ e s', Action.exec (o.run H.toHost) s = (.error e, s') ∧ e.message = message ∧
      H.Stops o.statistics printed s s' := by
  cases h with
  | opcodes hf he =>
    obtain ⟨s', hrun, hquiet⟩ := exec_readOpcodes_error o.statistics hf he
    exact ⟨_, s', exec_run_error (exec_bind_error hrun), rfl, hquiet.stops⟩
  | source ho hf hp he =>
    obtain ⟨s₁, hopcodes, hquiet, -⟩ := exec_readOpcodes o.statistics ho
    obtain ⟨s₂, hsource, hquiet'⟩ := exec_readSource_file (H := H) o.statistics hf hp s₁
    rw [hquiet.sight, he] at hsource
    exact ⟨_, s₂, exec_run_error ((exec_bind_ok hopcodes).trans (exec_bind_error hsource)), rfl,
      (hquiet.trans hquiet').stops⟩
  | input ho hf he =>
    obtain ⟨s₁, hopcodes, hquiet, hi⟩ := exec_readOpcodes o.statistics ho
    obtain ⟨s₂, hsource, hquiet'⟩ := exec_readSource_standard (H := H) o.statistics hf s₁
    rw [hi, he] at hsource
    exact ⟨_, s₂, exec_run_error ((exec_bind_ok hopcodes).trans (exec_bind_error hsource)), rfl,
      (hquiet.trans hquiet').stops⟩
  | @malformed _ _ _ fault ho hs hp =>
    obtain ⟨s', hrun, hquiet⟩ := exec_makeScript ho hs
    rw [translateText_eq_error.mpr (.inl ⟨_, hp, rfl⟩)] at hrun
    exact ⟨_, s', exec_run_error hrun, rfl, hquiet.stops⟩
  | @refused opcodes _ _ _ d ho hs hp hd he =>
    obtain ⟨s', hrun, hquiet⟩ := exec_makeScript ho hs
    have hport : (o.target opcodes).controlPortEvent = "__ctrl" :=
      congrArg Target.controlPortEvent (o.asks_target opcodes).others
    rw [translateText_eq_error.mpr (.inr ⟨_, hp, ⟨d, hd, he.trans hport.symm⟩, rfl⟩), hport] at hrun
    exact ⟨_, s', exec_run_error hrun, rfl, hquiet.stops⟩
  | unwritable hscript hf he =>
    obtain ⟨s₁, hrun, hquiet⟩ := exec_run hscript
    obtain ⟨s₂, hwrite, hs, hd⟩ := exec_writeScript_file (s := s₁) hf (by rw [hquiet.sight, he])
    exact ⟨_, s₂, hrun.trans hwrite, rfl, (hquiet.trans (quiet_of_eq o.statistics hs hd)).stops⟩
  | unprintable hscript hf he =>
    obtain ⟨s₁, hrun, hquiet⟩ := exec_run hscript
    obtain ⟨notes, hn, hd⟩ := hquiet.diagnostics
    obtain ⟨s₂, hwrite, hd', ho, hfiles⟩ := exec_writeScript_output (H := H) hf s₁ _
    rw [hquiet.sight, he] at hwrite ho
    rw [hquiet.sight] at hfiles
    exact ⟨_, s₂, hrun.trans hwrite, rfl, hfiles, ho, notes, hn, hd'.trans hd⟩

lemma Fails.printed_eq (h : H.Fails o s message printed) (hw : H.WritesWhole s) : printed = "" := by
  cases h with
  | @unprintable script _ e _ _ he =>
    have hpart := hw script
    rw [he] at hpart
    exact hpart nofun
  | _ => rfl

lemma exec_of_not_fails (h : H.Scripts o s script) (hn : ∀ message printed, ¬ H.Fails o s message printed) :
    ∃ s', Action.exec (o.run H.toHost) s = (.ok (), s') ∧ H.Delivers o script s s' ∧
      ∃ notes, H.Notes o.statistics notes ∧ H.diagnostics s' = H.diagnostics s ++ notes := by
  obtain ⟨s₁, hrun, hquiet⟩ := exec_run h
  obtain ⟨notes, hnotes, hd⟩ := hquiet.diagnostics
  cases hf : o.output with
  | some path =>
    cases hw : (H.sight s).writing path script with
    | error e => exact absurd (.unwritable h hf hw) (hn _ _)
    | ok place =>
      obtain ⟨s₂, hwrite, hd', ho, hplace, hothers⟩ := H.writeFile_ok (s := s₁) (by rw [hquiet.sight, hw])
      rw [hquiet.sight] at ho hothers
      refine ⟨s₂, hrun.trans ?_, .file hf hw hplace hothers ho, notes, hnotes, hd'.trans hd⟩
      rw [Options.writeScript, hf]
      exact exec_bind_ok (exec_lift hwrite)
  | none =>
    obtain ⟨s₂, hwrite, hd', ho, hfiles⟩ := exec_writeScript_output (H := H) hf s₁ script
    rw [hquiet.sight] at hwrite ho hfiles
    cases hw : ((H.sight s).printing script).2 with
    | error e => exact absurd (.unprintable h hf (Prod.ext rfl hw)) (hn _ _)
    | ok u =>
      rw [hw] at hwrite
      rw [H.printing_ok hw] at ho
      exact ⟨s₂, hrun.trans hwrite, .output hf ho hfiles, notes, hnotes, hd'.trans hd⟩

lemma opcodes_of_not_fails (h : ∀ message printed, ¬ H.Fails o s message printed) :
    ∃ opcodes, H.OpcodesIn o s opcodes := by
  cases hf : o.asyncOpcodesFile with
  | none => exact ⟨[], .none hf⟩
  | some path =>
    cases hr : (H.sight s).reading path with
    | ok text => exact ⟨opcodeList text, .file hf hr⟩
    | error e => exact absurd (.opcodes hf hr) (h _ _)

lemma source_of_not_fails (h : ∀ message printed, ¬ H.Fails o s message printed) (ho : H.OpcodesIn o s opcodes) :
    ∃ name source, H.SourceIn o s name source := by
  by_cases hi : ∀ path, o.input = some path → path = "-"
  · cases hr : H.input s with
    | ok text => exact ⟨_, text, .standard hi hr⟩
    | error e => exact absurd (.input ho hi hr) (h _ _)
  · obtain ⟨path, hf, hp⟩ : ∃ path, o.input = some path ∧ path ≠ "-" := by simpa using hi
    cases hr : (H.sight s).reading path with
    | ok text => exact ⟨path, text, .file hf hp hr⟩
    | error e => exact absurd (.source ho hf hp hr) (h _ _)

lemma scripts_of_not_fails (h : ∀ message printed, ¬ H.Fails o s message printed) : ∃ script, H.Scripts o s script := by
  obtain ⟨opcodes, ho⟩ := opcodes_of_not_fails h
  obtain ⟨name, source, hs⟩ := source_of_not_fails h ho
  cases ht : translateText (o.target opcodes) source with
  | ok script => exact ⟨script, .of ho (o.asks_target opcodes) hs ht⟩
  | error e =>
    rcases translateText_eq_error.mp ht with ⟨fault, hp, -⟩ | ⟨p, hp, ⟨d, hd, he⟩, -⟩
    · exact absurd (.malformed ho hs hp) (h _ _)
    · have hport := congrArg Target.controlPortEvent (o.asks_target opcodes).others
      exact absurd (.refused ho hs hp hd (he.trans hport)) (h _ _)

lemma runCommand_run (H : LawfulHost σ Place) (h : Request.ofArguments arguments = .run o) (s : σ) :
    ∃ s₀, H.sight s₀ = H.sight s ∧ H.diagnostics s₀ = H.diagnostics s ∧ H.input s₀ = H.input s ∧
      (∀ s', Action.exec (o.run H.toHost) s₀ = (.ok (), s') →
        (runCommand H.toHost arguments).run s = (0, s')) ∧
      ∀ e s', Action.exec (o.run H.toHost) s₀ = (.error e, s') →
        ∃ s'', (runCommand H.toHost arguments).run s = (1, s'') ∧ H.sight s'' = H.sight s' ∧
          H.diagnostics s'' = H.diagnostics s' ++ e.report := by
  obtain ⟨s₀, hstart, hs, hd, hi⟩ := H.startLog_run (.ofVerbosity o.verbosity) s
  have hrun : (runCommand H.toHost arguments).run s = ((o.run H.toHost).run >>= exitCode H.toHost).run s₀ := by
    rw [runCommand, h]
    dsimp only
    rw [StateT.run_bind, hstart]
    rfl
  refine ⟨s₀, hs, hd, hi, fun s' hx => ?_, fun e s' hx => ?_⟩
  · rw [Action.exec] at hx
    rw [hrun, StateT.run_bind, hx]
    rfl
  · obtain ⟨s'', hreport, hs', hd'⟩ := H.writeDiagnostics_run e.report s'
    rw [Action.exec] at hx
    refine ⟨s'', ?_, hs', hd'⟩
    rw [hrun, StateT.run_bind, hx]
    change (exitCode H.toHost (.error e)).run s' = _
    rw [exitCode, StateT.run_bind, hreport]
    rfl

lemma run_of_fails (h : Request.ofArguments arguments = .run o) (hf : H.Fails o s message printed) :
    ∃ s', (runCommand H.toHost arguments).run s = (1, s') ∧ H.Reports o.statistics message printed s s' := by
  obtain ⟨s₀, hs, hd, hi, -, hfail⟩ := runCommand_run H h s
  obtain ⟨e, s₁, hx, rfl, hfiles, hout, notes, hn, hd₁⟩ := (hf.congr hs hi o.statistics).exec
  obtain ⟨s', hrun, hs', hd'⟩ := hfail e s₁ hx
  refine ⟨s', hrun, ?_, ?_, notes, hn, ?_⟩
  · rw [hs', hfiles, hs]
  · rw [hs', hout, hs]
  · rw [hd', hd₁, hd]
    rfl

lemma run_of_scripts (h : Request.ofArguments arguments = .run o) (hscript : H.Scripts o s script)
    (hn : ∀ message printed, ¬ H.Fails o s message printed) :
    ∃ s', (runCommand H.toHost arguments).run s = (0, s') ∧ H.Delivers o script s s' ∧
      ∃ notes, H.Notes o.statistics notes ∧ H.diagnostics s' = H.diagnostics s ++ notes := by
  obtain ⟨s₀, hs, hd, hi, hok, -⟩ := runCommand_run H h s
  have hn' (message printed : String) : ¬ H.Fails o s₀ message printed :=
    fun hf => hn message printed (hf.congr hs.symm hi.symm o.statistics)
  obtain ⟨s', hx, hdelivers, notes, hnotes, hd'⟩ := exec_of_not_fails (hscript.congr hs hi o.statistics) hn'
  refine ⟨s', hok s' hx, ?_, notes, hnotes, by rw [hd', hd]⟩
  cases hdelivers with
  | file hf hw hplace hothers ho =>
    rw [hs] at hw hothers ho
    exact .file hf hw hplace hothers ho
  | output hf ho hfiles =>
    rw [hs] at ho hfiles
    exact .output hf ho hfiles

lemma Delivers.unique (h : H.Delivers o script s s') (b : Bool) (h' : H.Delivers { o with statistics := b } script s s'') :
    (H.sight s').files = (H.sight s'').files ∧ (H.sight s').output = (H.sight s'').output := by
  cases h with
  | @file _ place hf hw hplace hothers ho =>
    cases h' with
    | file hf' hw' hplace' hothers' ho' =>
      obtain rfl := Option.some.inj (hf.symm.trans hf')
      obtain rfl := Except.ok.inj (hw.symm.trans hw')
      refine ⟨funext fun other => ?_, ho.trans ho'.symm⟩
      by_cases hne : other = place
      · rw [hne, hplace, hplace']
      · rw [hothers other hne, hothers' other hne]
    | output hf' _ _ => cases hf.symm.trans hf'
  | output hf ho hfiles =>
    cases h' with
    | file hf' _ _ _ _ => cases hf.symm.trans hf'
    | output _ ho' hfiles' => exact ⟨hfiles.trans hfiles'.symm, ho.trans ho'.symm⟩

end LawfulHost

/-- Either something fails, and all that a run leaves is one report at the end of its diagnostics, or the script
for the source is delivered. Only an output that fails may have taken a part of the script. The statistics are
diagnostics and nothing else. -/
theorem outcome_of_arguments (H : LawfulHost σ Place) (h : Request.ofArguments arguments = .run o) (s : σ) :
    (∀ message printed, H.Fails o s message printed → (H.WritesWhole s → printed = "") ∧
      ∃ s', (runCommand H.toHost arguments).run s = (1, s') ∧ H.Reports o.statistics message printed s s') ∧
    ((∀ message printed, ¬ H.Fails o s message printed) →
      ∃ script s', H.Scripts o s script ∧ (runCommand H.toHost arguments).run s = (0, s') ∧
        H.Delivers o script s s' ∧
          ∃ notes, H.Notes o.statistics notes ∧ H.diagnostics s' = H.diagnostics s ++ notes) ∧
    ∀ b arguments', Request.ofArguments arguments' = .run { o with statistics := b } →
      ∃ code s' s'', (runCommand H.toHost arguments).run s = (code, s') ∧
        (runCommand H.toHost arguments').run s = (code, s'') ∧
          (H.sight s').files = (H.sight s'').files ∧ (H.sight s').output = (H.sight s'').output := by
  refine ⟨fun message printed hf => ⟨hf.printed_eq, LawfulHost.run_of_fails h hf⟩, fun hn => ?_,
    fun b arguments' h' => ?_⟩
  · obtain ⟨script, hscript⟩ := LawfulHost.scripts_of_not_fails hn
    obtain ⟨s', hrun, hd⟩ := LawfulHost.run_of_scripts h hscript hn
    exact ⟨script, s', hscript, hrun, hd⟩
  · by_cases hf : ∃ message printed, H.Fails o s message printed
    · obtain ⟨message, printed, hf⟩ := hf
      obtain ⟨s', hrun, hreports⟩ := LawfulHost.run_of_fails h hf
      obtain ⟨s'', hrun', hreports'⟩ := LawfulHost.run_of_fails h' (hf.congr rfl rfl b)
      exact ⟨1, s', s'', hrun, hrun', hreports.files.trans hreports'.files.symm,
        hreports.output.trans hreports'.output.symm⟩
    · have hn (message printed : String) : ¬ H.Fails o s message printed := fun hm => hf ⟨message, printed, hm⟩
      obtain ⟨script, hscript⟩ := LawfulHost.scripts_of_not_fails hn
      obtain ⟨s', hrun, hd, -⟩ := LawfulHost.run_of_scripts h hscript hn
      obtain ⟨s'', hrun', hd', -⟩ := LawfulHost.run_of_scripts h' (hscript.congr rfl rfl b)
        fun message printed hm => hn message printed (hm.congr rfl rfl o.statistics)
      exact ⟨0, s', s'', hrun, hrun', hd.unique b hd'⟩

def overwritingOptions : Options :=
  { Options.initial with input := some "a", output := some "a" }

def overwrittenText : String :=
  "const b: c = 1"

def overwrittenWorld : World where
  workingDirectory := []
  files := [(["a"], overwrittenText.toUTF8)]
  input := .empty
  output := ""
  diagnostics := ""

lemma readText_overwritten : overwrittenWorld.readText "a" = .ok overwrittenText := by
  have hc : overwrittenWorld.contentsAt "a" = .ok overwrittenText.toUTF8 := rfl
  rw [Disk.readText, hc]
  exact decodeText_toUTF8 overwrittenText

lemma source_overwriting (h : World.lawfulHost.SourceIn overwritingOptions overwrittenWorld name source) :
    source = overwrittenText := by
  cases h with
  | file hi _ ht =>
    obtain rfl := Option.some.inj hi
    exact Except.ok.inj (ht.symm.trans readText_overwritten)
  | standard hi _ => exact absurd (hi _ rfl) (by decide)

lemma not_fails_overwriting (message printed : String) :
    ¬ World.lawfulHost.Fails overwritingOptions overwrittenWorld message printed := by
  have hp : Program.parse overwrittenText = .ok ⟨[⟨"b", "c", .literal "1"⟩], [], []⟩ := rfl
  intro h
  cases h with
  | opcodes hf _ => cases hf
  | source _ hi _ he =>
    obtain rfl := Option.some.inj hi
    cases he.symm.trans readText_overwritten
  | input _ hi _ => exact absurd (hi _ rfl) (by decide)
  | malformed _ hs hp' =>
    obtain rfl := source_overwriting hs
    cases hp'.symm.trans hp
  | refused _ hs hp' hd _ =>
    obtain rfl := source_overwriting hs
    obtain rfl := Except.ok.inj (hp'.symm.trans hp)
    cases hd
  | unwritable _ hf he =>
    obtain rfl := Option.some.inj hf
    have hw : overwrittenWorld.fileAt "a" = .ok ["a"] := rfl
    cases he.symm.trans hw
  | unprintable _ hf _ => cases hf

theorem outcome_overwrittenWorld : ∃ script w',
    translateText .alan overwrittenText = .ok script ∧
      (runCommand World.host ["a", "-o", "a"]).run overwrittenWorld = (0, w') ∧ w'.output = "" ∧
        w'.files.lookup ["a"] = some script.toUTF8 := by
  have h : Request.ofArguments ["a", "-o", "a"] = .run overwritingOptions := rfl
  obtain ⟨script, w', ⟨ho, ha, hs, ht⟩, hrun, hd, -⟩ :=
    (outcome_of_arguments World.lawfulHost h overwrittenWorld).2.1 not_fails_overwriting
  obtain rfl := source_overwriting hs
  cases ho with
  | file hf _ => cases hf
  | none _ =>
    rw [ha.eq] at ht
    cases hd with
    | output hf _ _ => cases hf
    | file hf hw hplace _ hout =>
      obtain rfl := Option.some.inj hf
      obtain rfl : ["a"] = _ := Except.ok.inj hw
      exact ⟨script, w', ht, hrun, hout, hplace⟩

end AmmCompiler
