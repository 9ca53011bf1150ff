import AmmCompiler.Proofs.Fixture.Placement
import AmmCompiler.Proofs.Fixture.RunOptions

/-! A fixture is in order exactly when it has runs and each of them passes by itself; otherwise its message is
that of the first run that does not pass. -/

namespace AmmCompiler

open RunOption Text

namespace RunOption

def namesWithValue : List String :=
  ["--async-opcode", "--runtime-module"]

def names : List String :=
  "--replace-async-opcodes" :: namesWithValue

inductive Ends : List String → Prop
  | complete : Ends []
  | missingValue {name : String} : name ∈ namesWithValue → Ends [name]
  | unknown {argument : String} {rest : List String} : argument ∉ names → Ends (argument :: rest)

end RunOption

def Run.Asks (run : Run) (target : Target) : Prop :=
  run.command = commandName ∧ ∃ options : List RunOption,
    run.arguments = options.flatMap RunOption.arguments ∧ target = options.foldl apply .alan

namespace Fixture

inductive Passes (fixture : Fixture) (run : Run) : Prop
  | accepted {target : Target} {output : String} : run.Asks target → run.expectsFailure = false →
      translateText target fixture.source = .ok output → (inspect output fixture.checks).mismatch = none →
      Passes fixture run
  | refused {target : Target} {e : TranslationError} : run.Asks target → run.expectsFailure = true →
      translateText target fixture.source = .error e →
      (∀ pattern ∈ fixture.errorPatterns, pattern.toList <:+: e.message.toList) → Passes fixture run

/-- What keeps a run from passing, and the message about it. -/
inductive Complains (fixture : Fixture) (run : Run) : String → Prop
  | command : run.command ≠ commandName → Complains fixture run ("Unknown RUN command: " ++ run.command)
  | missingValue {options : List RunOption} {name : String} : run.command = commandName →
      run.arguments = options.flatMap arguments ++ [name] → name ∈ namesWithValue →
      Complains fixture run (name ++ " needs a value")
  | unknownArgument {options : List RunOption} {argument : String} {rest : List String} : run.command = commandName →
      run.arguments = options.flatMap arguments ++ argument :: rest → argument ∉ names →
      Complains fixture run ("Unknown RUN argument: " ++ argument)
  | mismatch {target : Target} {output : String} {m : Mismatch} : run.Asks target → run.expectsFailure = false →
      translateText target fixture.source = .ok output → (inspect output fixture.checks).mismatch = some m →
      Complains fixture run (m.message output)
  | failed {target : Target} {e : TranslationError} : run.Asks target → run.expectsFailure = false →
      translateText target fixture.source = .error e → Complains fixture run ("Translation failed: " ++ e.message)
  | succeeded {target : Target} {output : String} : run.Asks target → run.expectsFailure = true →
      translateText target fixture.source = .ok output →
      Complains fixture run ("Expected failure but got output:\n" ++ output)
  | errorPattern {target : Target} {e : TranslationError} {before after : List String} {pattern : String} :
      run.Asks target → run.expectsFailure = true → translateText target fixture.source = .error e →
      fixture.errorPatterns = before ++ pattern :: after → (∀ p ∈ before, p.toList <:+: e.message.toList) →
      ¬ pattern.toList <:+: e.message.toList →
      Complains fixture run ("ERROR: pattern '" ++ pattern ++ "' not found in '" ++ e.message ++ "'")

def message? (fixture : Fixture) : Option String :=
  fixture.verify.failure.map RunFailure.message

def alone (fixture : Fixture) (run : Run) : Fixture :=
  { fixture with runs := [run] }

end Fixture

variable {fixture : Fixture} {run : Run} {target : Target} {name argument message : String} {rest : List String}

lemma withRunArguments_missing (h : name ∈ namesWithValue) (t : Target) :
    t.withRunArguments [name] = .error (.missingValue name) := by
  simp only [namesWithValue, List.mem_cons, List.not_mem_nil, or_false] at h
  rcases h with rfl | rfl
  · rfl
  · rfl

lemma withRunArguments_unknown (h : argument ∉ names) (rest : List String) (t : Target) :
    t.withRunArguments (argument :: rest) = .error (.unknownArgument argument) := by
  simp only [names, namesWithValue, List.mem_cons, List.not_mem_nil, or_false, not_or] at h
  obtain ⟨hreplace, hopcode, hmodule⟩ := h
  rw [Target.withRunArguments]
  · exact if_neg (not_or.mpr ⟨hopcode, hmodule⟩)
  · rintro _ _ rfl _
    exact hopcode rfl
  · rintro _ _ rfl _
    exact hmodule rfl
  · exact hreplace

lemma exists_options (given : List String) :
    ∃ (options : List RunOption) (rest : List String), given = options.flatMap arguments ++ rest ∧ Ends rest := by
  fun_induction Target.withRunArguments .alan given with
  | case1 => exact ⟨[], [], rfl, .complete⟩
  | case2 t opcode _ ih =>
    obtain ⟨options, rest, rfl, hrest⟩ := ih
    exact ⟨.asyncOpcode opcode :: options, rest, rfl, hrest⟩
  | case3 t name _ ih =>
    obtain ⟨options, rest, rfl, hrest⟩ := ih
    exact ⟨.runtimeModule name :: options, rest, rfl, hrest⟩
  | case4 t _ ih =>
    obtain ⟨options, rest, rfl, hrest⟩ := ih
    exact ⟨.replaceAsyncOpcodes :: options, rest, rfl, hrest⟩
  | case5 t argument others hopcode hmodule _ hname =>
    have hothers : others = [] := by
      cases others with
      | nil => rfl
      | cons value rest =>
        rcases hname with rfl | rfl
        · exact (hopcode value rest rfl rfl).elim
        · exact (hmodule value rest rfl rfl).elim
    rw [hothers]
    exact ⟨[], [argument], rfl, .missingValue (by simpa [namesWithValue] using hname)⟩
  | case6 t argument others _ _ hreplace hname =>
    exact ⟨[], argument :: others, rfl, .unknown (by simpa [names, namesWithValue] using ⟨hreplace, not_or.mp hname⟩)⟩

lemma target_of_arguments {options : List RunOption} (hc : run.command = commandName)
    (ha : run.arguments = options.flatMap arguments ++ rest) :
    run.target = (options.foldl apply .alan).withRunArguments rest := by
  rw [Run.target, if_pos hc, ha, withRunArguments_append]

lemma target_of_asks (h : run.Asks target) : run.target = .ok target := by
  obtain ⟨hc, options, ha, rfl⟩ := h
  exact target_of_arguments hc (ha.trans (List.append_nil _).symm)

lemma verifyRun_of_ok {output : String} (hr : run.Asks target) (ht : translateText target fixture.source = .ok output) :
    fixture.verifyRun run =
      if run.expectsFailure then ⟨[], some (.unexpectedSuccess output)⟩ else fixture.verifyOutput output := by
  rw [Fixture.verifyRun, target_of_asks hr]
  simp only [ht]
  cases run.expectsFailure with
  | false => rfl
  | true => rfl

lemma verifyRun_of_error {e : TranslationError} (hr : run.Asks target)
    (ht : translateText target fixture.source = .error e) :
    fixture.verifyRun run = if run.expectsFailure then fixture.verifyError e.message else ⟨[], some (.failed e)⟩ := by
  rw [Fixture.verifyRun, target_of_asks hr]
  simp only [ht]
  cases run.expectsFailure with
  | false => rfl
  | true => rfl

lemma verifyRun_of_target {f : RunFailure} (h : run.target = .error f) : fixture.verifyRun run = ⟨[], some f⟩ := by
  rw [Fixture.verifyRun, h]

lemma not_contains_iff {text pattern : String} :
    (!contains text pattern) = true ↔ ¬ pattern.toList <:+: text.toList := by
  rw [contains, Bool.not_eq_true', ← Bool.not_eq_true, occursIn_iff]

lemma find_eq_none {patterns : List String} {text : String} :
    patterns.find? (fun pattern => !contains text pattern) = none ↔ ∀ p ∈ patterns, p.toList <:+: text.toList := by
  simp only [List.find?_eq_none, not_contains_iff, not_not]

lemma find_eq_some {patterns : List String} {text pattern : String} :
    patterns.find? (fun pattern => !contains text pattern) = some pattern ↔ ∃ before after,
      patterns = before ++ pattern :: after ∧ (∀ p ∈ before, p.toList <:+: text.toList) ∧
        ¬ pattern.toList <:+: text.toList := by
  rw [List.find?_eq_some_iff_append, not_contains_iff]
  simp only [Bool.not_not, contains, occursIn_iff]
  constructor
  · rintro ⟨hn, before, after, rfl, hb⟩
    exact ⟨before, after, rfl, hb, hn⟩
  · rintro ⟨before, after, rfl, hb, hn⟩
    exact ⟨hn, before, after, rfl, hb⟩

lemma verifyRun_of_passes (h : fixture.Passes run) : (fixture.verifyRun run).failure = none := by
  cases h with
  | accepted hr hf ht hm =>
    rw [verifyRun_of_ok hr ht, hf, if_neg Bool.false_ne_true, Fixture.verifyOutput, hm]
    rfl
  | refused hr hf ht hp =>
    rw [verifyRun_of_error hr ht, if_pos hf, Fixture.verifyError, find_eq_none.mpr hp]
    rfl

lemma verifyRun_of_complains (h : fixture.Complains run message) :
    (fixture.verifyRun run).failure.map RunFailure.message = some message := by
  cases h with
  | command hc => rw [verifyRun_of_target (if_neg hc)]; rfl
  | missingValue hc ha hn =>
    rw [verifyRun_of_target ((target_of_arguments hc ha).trans (withRunArguments_missing hn _))]
    rfl
  | unknownArgument hc ha hn =>
    rw [verifyRun_of_target ((target_of_arguments hc ha).trans (withRunArguments_unknown hn _ _))]
    rfl
  | mismatch hr hf ht hm =>
    rw [verifyRun_of_ok hr ht, hf, if_neg Bool.false_ne_true, Fixture.verifyOutput, hm]
    rfl
  | failed hr hf ht =>
    rw [verifyRun_of_error hr ht, hf, if_neg Bool.false_ne_true]
    rfl
  | succeeded hr hf ht =>
    rw [verifyRun_of_ok hr ht, if_pos hf]
    rfl
  | errorPattern hr hf ht hp hb hn =>
    rw [verifyRun_of_error hr ht, if_pos hf, Fixture.verifyError, find_eq_some.mpr ⟨_, _, hp, hb, hn⟩]
    rfl

lemma passes_or_complains (fixture : Fixture) (run : Run) :
    fixture.Passes run ∨ ∃ message, fixture.Complains run message := by
  by_cases hc : run.command = commandName
  · obtain ⟨options, rest, ha, hrest⟩ := exists_options run.arguments
    cases hrest with
    | missingValue hn => exact .inr ⟨_, .missingValue hc ha hn⟩
    | unknown hn => exact .inr ⟨_, .unknownArgument hc ha hn⟩
    | complete =>
      rw [List.append_nil] at ha
      have hr : run.Asks (options.foldl apply .alan) := ⟨hc, options, ha, rfl⟩
      cases ht : translateText (options.foldl apply .alan) fixture.source with
      | ok output =>
        by_cases hf : run.expectsFailure
        · exact .inr ⟨_, .succeeded hr hf ht⟩
        · rw [Bool.not_eq_true] at hf
          cases hm : (inspect output fixture.checks).mismatch with
          | none => exact .inl (.accepted hr hf ht hm)
          | some m => exact .inr ⟨_, .mismatch hr hf ht hm⟩
      | error e =>
        by_cases hf : run.expectsFailure
        · cases hfind : fixture.errorPatterns.find? fun pattern => !contains e.message pattern with
          | none => exact .inl (.refused hr hf ht (find_eq_none.mp hfind))
          | some pattern =>
            obtain ⟨before, after, hp, hb, hn⟩ := find_eq_some.mp hfind
            exact .inr ⟨_, .errorPattern hr hf ht hp hb hn⟩
        · rw [Bool.not_eq_true] at hf
          exact .inr ⟨_, .failed hr hf ht⟩
  · exact .inr ⟨_, .command hc⟩

lemma failure_eq_none : (fixture.verifyRun run).failure = none ↔ fixture.Passes run := by
  refine ⟨fun h => ?_, verifyRun_of_passes⟩
  rcases passes_or_complains fixture run with hp | ⟨message, hm⟩
  · exact hp
  · have hmessage := verifyRun_of_complains hm
    rw [h] at hmessage
    cases hmessage

lemma message_eq_some :
    (fixture.verifyRun run).failure.map RunFailure.message = some message ↔ fixture.Complains run message := by
  refine ⟨fun h => ?_, verifyRun_of_complains⟩
  rcases passes_or_complains fixture run with hp | ⟨message', hm⟩
  · rw [verifyRun_of_passes hp] at h
    cases h
  · obtain rfl := Option.some.inj ((verifyRun_of_complains hm).symm.trans h)
    exact hm

lemma verifyRuns_cons (run : Run) (runs : List Run) : (fixture.verifyRuns (run :: runs)).failure =
    (fixture.verifyRun run).failure.or (fixture.verifyRuns runs).failure := by
  simp only [Fixture.verifyRuns]
  cases (fixture.verifyRun run).failure with
  | none => rfl
  | some f => rfl

lemma verifyRuns_eq_none {runs : List Run} :
    (fixture.verifyRuns runs).failure = none ↔ ∀ run ∈ runs, fixture.Passes run := by
  induction runs with
  | nil => exact ⟨fun _ => List.forall_mem_nil _, fun _ => rfl⟩
  | cons run runs ih => rw [verifyRuns_cons, Option.or_eq_none_iff, failure_eq_none, ih, List.forall_mem_cons]

lemma verifyRuns_eq_some {runs : List Run} : (fixture.verifyRuns runs).failure.map RunFailure.message = some message ↔
    ∃ before run after, runs = before ++ run :: after ∧ (∀ r ∈ before, fixture.Passes r) ∧
      fixture.Complains run message := by
  constructor
  · intro h
    induction runs with
    | nil => cases h
    | cons run runs ih =>
      rw [verifyRuns_cons] at h
      by_cases hp : fixture.Passes run
      · rw [failure_eq_none.mpr hp, Option.none_or] at h
        obtain ⟨before, first, after, rfl, hb, hc⟩ := ih h
        exact ⟨run :: before, first, after, rfl, List.forall_mem_cons.mpr ⟨hp, hb⟩, hc⟩
      · obtain ⟨f, hf⟩ := Option.ne_none_iff_exists'.mp (mt failure_eq_none.mp hp)
        rw [hf, Option.some_or, ← hf] at h
        exact ⟨[], run, runs, rfl, List.forall_mem_nil _, message_eq_some.mp h⟩
  · rintro ⟨before, run, after, rfl, hb, hc⟩
    induction before with
    | nil =>
      have hm := message_eq_some.mpr hc
      obtain ⟨f, hf, _⟩ := Option.map_eq_some_iff.mp hm
      rw [List.nil_append, verifyRuns_cons, hf, Option.some_or, ← hf]
      exact hm
    | cons first before ih =>
      obtain ⟨hp, hb⟩ := List.forall_mem_cons.mp hb
      rw [List.cons_append, verifyRuns_cons, failure_eq_none.mpr hp, Option.none_or]
      exact ih hb

lemma message_nil (h : fixture.runs = []) : fixture.message? = some "No RUN directive" := by
  rw [Fixture.message?, Fixture.verify, h]
  rfl

lemma message_of_ne_nil (h : fixture.runs ≠ []) :
    fixture.message? = (fixture.verifyRuns fixture.runs).failure.map RunFailure.message := by
  rw [Fixture.message?, Fixture.verify, if_neg (mt List.isEmpty_iff.mp h)]

lemma message_eq_none : fixture.message? = none ↔ fixture.runs ≠ [] ∧ ∀ run ∈ fixture.runs, fixture.Passes run := by
  by_cases h : fixture.runs = []
  · rw [message_nil h]
    simp [h]
  · rw [message_of_ne_nil h, Option.map_eq_none_iff, verifyRuns_eq_none]
    simp [h]

lemma message_alone (fixture : Fixture) (run : Run) :
    (fixture.alone run).message? = (fixture.verifyRun run).failure.map RunFailure.message := by
  have hone : ((fixture.alone run).verifyRuns [run]).failure = (fixture.verifyRun run).failure := by
    rw [verifyRuns_cons]
    exact Option.or_none
  rw [message_of_ne_nil (List.cons_ne_nil _ _)]
  exact congrArg _ hone

lemma verifyRun_congr {other : Fixture} (hs : other.source = fixture.source)
    (hc : run.expectsFailure = false → other.checks = fixture.checks)
    (he : run.expectsFailure = true → other.errorPatterns = fixture.errorPatterns) :
    other.verifyRun run = fixture.verifyRun run := by
  rw [Fixture.verifyRun, Fixture.verifyRun, hs]
  cases run.target with
  | error f => rfl
  | ok target =>
    dsimp only
    cases hf : run.expectsFailure with
    | false =>
      cases translateText target fixture.source with
      | ok output => simp only [Fixture.verifyOutput, hc hf]
      | error e => rfl
    | true =>
      cases translateText target fixture.source with
      | ok output => rfl
      | error e => simp only [Fixture.verifyError, he hf]

theorem verdict_of_runs (fixture : Fixture) :
    (fixture.message? = none ↔ fixture.runs ≠ [] ∧ ∀ run ∈ fixture.runs, (fixture.alone run).message? = none) ∧
      (∀ message, fixture.message? = some message ↔ fixture.runs = [] ∧ message = "No RUN directive" ∨
        ∃ before run after, fixture.runs = before ++ run :: after ∧ (∀ r ∈ before, (fixture.alone r).message? = none) ∧
          (fixture.alone run).message? = some message) ∧
      (∀ run, ((fixture.alone run).message? = none ↔ fixture.Passes run) ∧
        ∀ message, (fixture.alone run).message? = some message ↔ fixture.Complains run message) ∧
      (∀ runs, (∀ run, run ∈ runs ↔ run ∈ fixture.runs) →
        (({ fixture with runs } : Fixture).message? = none ↔ fixture.message? = none)) ∧
      (∀ run checks, run.expectsFailure = true →
        (({ fixture with checks } : Fixture).alone run).message? = (fixture.alone run).message?) ∧
      (∀ run errorPatterns, run.expectsFailure = false →
        (({ fixture with errorPatterns } : Fixture).alone run).message? = (fixture.alone run).message?) ∧
      ∀ run ∈ fixture.runs, ∀ (options : List RunOption) argument rest,
        run.arguments = options.flatMap arguments ++ argument :: rest → argument ∉ names → fixture.message? ≠ none := by
  have halone (run : Run) : (fixture.alone run).message? = none ↔ fixture.Passes run := by
    rw [message_alone, Option.map_eq_none_iff, failure_eq_none]
  refine ⟨?_, fun message => ?_, fun run => ⟨halone run, fun message => ?_⟩, fun runs h => ?_, fun run checks h => ?_,
    fun run errorPatterns h => ?_, fun run hr options argument rest ha hn h => ?_⟩
  · simp only [halone, message_eq_none]
  · simp only [message_alone, message_eq_some, Option.map_eq_none_iff, failure_eq_none]
    by_cases h : fixture.runs = []
    · rw [message_nil h]
      simp [h, eq_comm]
    · rw [message_of_ne_nil h, verifyRuns_eq_some]
      simp [h]
  · rw [message_alone, message_eq_some]
  · have hnil : runs = [] ↔ fixture.runs = [] := by
      simp only [List.eq_nil_iff_forall_not_mem, h]
    have hpasses : ∀ run, ({ fixture with runs } : Fixture).Passes run ↔ fixture.Passes run := by
      intro run
      rw [← failure_eq_none, ← failure_eq_none]
      rfl
    simp only [message_eq_none, ne_eq, hnil, hpasses, h]
  · have hf : run.expectsFailure ≠ false := by simp [h]
    have hv : ({ fixture with checks } : Fixture).verifyRun run = fixture.verifyRun run :=
      verifyRun_congr rfl (absurd · hf) fun _ => rfl
    rw [message_alone, message_alone, hv]
  · have hf : run.expectsFailure ≠ true := by simp [h]
    have hv : ({ fixture with errorPatterns } : Fixture).verifyRun run = fixture.verifyRun run :=
      verifyRun_congr rfl (fun _ => rfl) (absurd · hf)
    rw [message_alone, message_alone, hv]
  · have hc : ∃ message, fixture.Complains run message := by
      by_cases hc : run.command = commandName
      · exact ⟨_, .unknownArgument hc ha hn⟩
      · exact ⟨_, .command hc⟩
    obtain ⟨message, hm⟩ := hc
    have hp := verifyRun_of_passes ((message_eq_none.mp h).2 run hr)
    rw [← message_eq_some, hp] at hm
    cases hm

def requiringRun : Run :=
  ⟨"ammtojs", ["--runtime-module", "m"], false⟩

def unknownRun : Run :=
  ⟨"ammtojs", ["--async-opcode", "--stats", "--stats"], true⟩

def requiringFixture : Fixture where
  runs := [requiringRun, requiringRun]
  checks := [.present "require('m')"]
  errorPatterns := ["x"]
  source := ""

def unknownFixture : Fixture :=
  { requiringFixture with runs := [requiringRun, unknownRun] }

theorem verdict_unknownFixture :
    ({ requiringFixture with runs := [requiringRun] } : Fixture).message? = none ∧
      (({ requiringFixture with errorPatterns := [] } : Fixture).alone requiringRun).message? = none ∧
      (({ unknownFixture with checks := [] } : Fixture).alone unknownRun).message? =
        some "Unknown RUN argument: --stats" ∧
      unknownFixture.message? = some "Unknown RUN argument: --stats" := by
  have hrequiring : requiringFixture.message? = none := by decide +kernel
  have ha : unknownRun.arguments = [RunOption.asyncOpcode "--stats"].flatMap arguments ++ ["--stats"] := rfl
  obtain ⟨hnone, _, _, hruns, _, hpatterns, _⟩ := verdict_of_runs requiringFixture
  obtain ⟨_, hsome, hone, _, hchecks, _, _⟩ := verdict_of_runs unknownFixture
  have hpasses := (hnone.mp hrequiring).2 requiringRun List.mem_cons_self
  have hcomplains := ((hone unknownRun).2 _).mpr (.unknownArgument rfl ha (by decide))
  refine ⟨(hruns [requiringRun] fun run => by simp [requiringFixture]).mpr hrequiring,
    (hpatterns requiringRun [] rfl).trans hpasses, (hchecks unknownRun [] rfl).trans hcomplains, ?_⟩
  refine (hsome _).mpr (.inr ⟨[requiringRun], unknownRun, [], rfl, ?_, hcomplains⟩)
  exact List.forall_mem_singleton.mpr hpasses

end AmmCompiler
