import AmmCompiler.Proofs.Fixture.RunOptions

namespace AmmCompiler

def moduleArguments (m : String) : List (List String) :=
  [["--runtime-module", m], ["--runtime-module=" ++ m]]

/-- Ways to ask for a module. An argument behind `--` is no option, and of several options in a run the last counts. -/
inductive Requests (m : String) : Target → Prop
  | library (target : Target) : Requests m (target.withRuntimeModule m)
  | command {o : Options} {front given back : List String} (opcodes : List String) : "--" ∉ front →
      given ∈ moduleArguments m → Request.ofArguments (front ++ (given ++ back)) = .run o →
      Requests m (o.target opcodes)
  | run {target : Target} {front back : List RunOption} {expectsFailure : Bool} :
      (∀ name, RunOption.runtimeModule name ∉ back) →
      (Run.mk commandName ((front ++ .runtimeModule m :: back).flatMap RunOption.arguments) expectsFailure).target =
        .ok target → Requests m target

variable {m : String} {o o' : Options} {target : Target} {pending : Option Setting} {given : List String}

namespace Options

lemma set?_keeps {value : String} {setting : Setting} (hm : o.runtimeModule = some m)
    (h : o.set? value setting = some o') : o'.runtimeModule = some m := by
  cases setting with
  | output =>
    obtain ⟨_, _, rfl⟩ := Option.map_eq_some_iff.mp h
    exact hm
  | runtimeModule =>
    rw [set?, hm] at h
    cases h
  | asyncOpcode =>
    obtain rfl := Option.some.inj h
    exact hm
  | asyncOpcodesFile =>
    obtain ⟨_, _, rfl⟩ := Option.map_eq_some_iff.mp h
    exact hm

lemma readValue_keeps {value : String} {setting : Setting} (hm : o.runtimeModule = some m)
    (h : o.readValue setting value = .proceed o' pending) : o'.runtimeModule = some m := by
  rw [readValue] at h
  split at h
  · next hs =>
    cases h
    exact set?_keeps hm hs
  · cases h

lemma readFlag_keeps {name : String} (hm : o.runtimeModule = some m) (h : o.readFlag name = .proceed o' pending) :
    o'.runtimeModule = some m := by
  unfold readFlag at h
  split at h
  · split at h
    · cases h
    · cases h
      exact hm
  · split at h
    · cases h
    · cases h
      exact hm
  · cases h
    exact hm
  · cases h
  · cases h
  · cases h

lemma readLong_keeps {cs : List Char} (hm : o.runtimeModule = some m) (h : o.readLong cs = .proceed o' pending) :
    o'.runtimeModule = some m := by
  rw [readLong] at h
  split at h
  · cases h
    exact hm
  · exact readValue_keeps hm h
  · exact readFlag_keeps hm h
  · cases h

lemma readShort_keeps {cs : List Char} (hm : o.runtimeModule = some m) (h : o.readShort cs = .proceed o' pending) :
    o'.runtimeModule = some m := by
  fun_induction readShort o cs with
  | case1 =>
    cases h
    exact hm
  | case2 =>
    cases h
    exact hm
  | case3 => exact readValue_keeps hm h
  | case4 => exact readValue_keeps hm h
  | case5 _ _ ih => exact ih hm h
  | case6 => cases h
  | case7 => cases h
  | case8 => cases h

lemma setInput?_keeps {path : String} (hm : o.runtimeModule = some m) (h : o.setInput? path = some o') :
    o'.runtimeModule = some m := by
  obtain ⟨_, _, rfl⟩ := Option.map_eq_some_iff.mp h
  exact hm

lemma readArgument_keeps {argument : String} (hm : o.runtimeModule = some m)
    (h : o.readArgument argument = .proceed o' pending) : o'.runtimeModule = some m := by
  rw [readArgument] at h
  split at h
  · exact readLong_keeps hm h
  · exact readShort_keeps hm h
  · rw [readInput] at h
    split at h
    · next hs =>
      cases h
      exact setInput?_keeps hm hs
    · cases h

lemma readInputs_keeps {arguments : List String} (hm : o.runtimeModule = some m)
    (h : o.readInputs arguments = .run o') : o'.runtimeModule = some m := by
  induction arguments generalizing o with
  | nil =>
    obtain rfl := Request.run.inj h
    exact hm
  | cons argument rest ih =>
    rw [readInputs] at h
    split at h
    · next hs => exact ih (setInput?_keeps hm hs) h
    · cases h

lemma readAll_keeps {arguments : List String} (hm : o.runtimeModule = some m)
    (h : o.readAll pending arguments = .run o') : o'.runtimeModule = some m := by
  induction arguments generalizing o pending with
  | nil =>
    cases pending with
    | none =>
      obtain rfl := Request.run.inj h
      exact hm
    | some _ => cases h
  | cons argument rest ih =>
    cases pending with
    | none =>
      rw [readAll] at h
      split at h
      · exact readInputs_keeps hm h
      · split at h
        · next hr => exact ih (readArgument_keeps hm hr) h
        · cases h
        · cases h
    | some _ =>
      rw [readAll] at h
      split at h
      · cases h
      · split at h
        · next hs => exact ih (set?_keeps hm hs) h
        · cases h

lemma toList_module (m : String) :
    ("--runtime-module=" ++ m).toList = '-' :: '-' :: ("runtime-module=".toList ++ m.toList) := by
  rw [String.toList_append]
  rfl

lemma readArgument_module (o : Options) (m : String) :
    o.readArgument ("--runtime-module=" ++ m) = o.readValue .runtimeModule m := by
  rw [readArgument, toList_module]
  change o.readValue .runtimeModule (.ofList m.toList) = _
  rw [String.ofList_toList]

lemma startsOption_module (hg : given ∈ moduleArguments m) :
    ∃ argument rest, given = argument :: rest ∧ startsOption argument := by
  simp only [moduleArguments, List.mem_cons, List.not_mem_nil, or_false] at hg
  rcases hg with rfl | rfl
  · exact ⟨_, _, rfl, rfl⟩
  · refine ⟨_, _, rfl, ?_⟩
    rw [startsOption, toList_module]
    rfl

lemma readValue_module {p : Option Setting} (h : o.readValue .runtimeModule m = .proceed o' p) :
    o'.runtimeModule = some m := by
  rw [readValue, set?] at h
  by_cases hn : o.runtimeModule.isNone
  · rw [if_pos hn] at h
    cases h
    rfl
  · rw [if_neg hn] at h
    cases h

lemma readAll_given {back : List String} (hg : given ∈ moduleArguments m)
    (h : o.readAll pending (given ++ back) = .run o') : o'.runtimeModule = some m := by
  cases pending with
  | some setting =>
    obtain ⟨argument, rest, rfl, hs⟩ := startsOption_module hg
    rw [List.cons_append, readAll, if_pos hs] at h
    cases h
  | none =>
    simp only [moduleArguments, List.mem_cons, List.not_mem_nil, or_false] at hg
    rcases hg with rfl | rfl
    · change o.readAll (some .runtimeModule) (m :: back) = _ at h
      rw [readAll] at h
      split at h
      · cases h
      · split at h
        · next hs => exact readAll_keeps (readValue_module (p := none) (by rw [readValue, hs])) h
        · cases h
    · have hd : "--runtime-module=" ++ m ≠ "--" := by
        intro he
        have hl := (toList_module m).symm.trans (congrArg String.toList he)
        simp at hl
      rw [List.cons_append, readAll, if_neg hd, readArgument_module] at h
      split at h
      · next hr => exact readAll_keeps (readValue_module hr) h
      · cases h
      · cases h

lemma readAll_module {front back : List String} (hf : "--" ∉ front) (hg : given ∈ moduleArguments m)
    (h : o.readAll pending (front ++ (given ++ back)) = .run o') : o'.runtimeModule = some m := by
  induction front generalizing o pending with
  | nil => exact readAll_given hg h
  | cons argument front ih =>
    have hf' : "--" ∉ front := fun hm => hf (List.mem_cons_of_mem _ hm)
    rw [List.cons_append] at h
    cases pending with
    | some _ =>
      rw [readAll] at h
      split at h
      · cases h
      · split at h
        · exact ih hf' h
        · cases h
    | none =>
      have hd : argument ≠ "--" := (List.ne_of_not_mem_cons hf).symm
      rw [readAll, if_neg hd] at h
      split at h
      · exact ih hf' h
      · cases h
      · cases h

lemma target_module (hm : o.runtimeModule = some m) (opcodes : List String) :
    (o.target opcodes).runtimeModule = m := by
  have hbase : (Target.alan.withRuntimeModule (o.runtimeModule.getD Target.alan.runtimeModule)).runtimeModule = m :=
    congrArg (fun r => Option.getD r Target.alan.runtimeModule) hm
  rw [target]
  by_cases hr : o.replaceAsyncOpcodes
  · rw [if_pos hr]
    exact hbase
  · rw [if_neg hr]
    exact hbase

end Options

lemma apply_keeps {options : List RunOption} (h : ∀ name, RunOption.runtimeModule name ∉ options) (target : Target) :
    (options.foldl RunOption.apply target).runtimeModule = target.runtimeModule := by
  induction options generalizing target with
  | nil => rfl
  | cons option others ih =>
    rw [List.foldl_cons, ih fun name hm => h name (List.mem_cons_of_mem _ hm)]
    cases option with
    | asyncOpcode _ => rfl
    | runtimeModule name => exact absurd List.mem_cons_self (h name)
    | replaceAsyncOpcodes => rfl

lemma runtimeModule_of_requests (h : Requests m target) : target.runtimeModule = m := by
  cases h with
  | library _ => rfl
  | command opcodes hf hg hr => exact Options.target_module (Options.readAll_module hf hg hr) opcodes
  | run hlast hr =>
    rw [Run.target, if_pos rfl, withRunArguments_options] at hr
    obtain rfl := Except.ok.inj hr
    rw [List.foldl_append, List.foldl_cons, apply_keeps hlast]
    rfl

end AmmCompiler
