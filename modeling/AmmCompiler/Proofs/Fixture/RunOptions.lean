import AmmCompiler.CommandLine.Command
import AmmCompiler.Fixture.Verification
import Mathlib.Data.List.Induction

/-! A fixture's run applies its options one by one, and the command collects them before it builds the
target. What comes of it differs by the opcodes that a run drops again. -/

namespace AmmCompiler

inductive RunOption
  | asyncOpcode (opcode : String)
  | runtimeModule (name : String)
  | replaceAsyncOpcodes
  deriving DecidableEq

namespace RunOption

def arguments : RunOption → List String
  | asyncOpcode opcode => ["--async-opcode", opcode]
  | runtimeModule name => ["--runtime-module", name]
  | replaceAsyncOpcodes => ["--replace-async-opcodes"]

def opcode? : RunOption → Option String
  | asyncOpcode opcode => some opcode
  | _ => none

def apply (target : Target) : RunOption → Target
  | asyncOpcode opcode => target.suspend opcode
  | runtimeModule name => target.withRuntimeModule name
  | replaceAsyncOpcodes => target.suspendNone

def record (o : Options) : RunOption → Options
  | asyncOpcode opcode => { o with asyncOpcodes := o.asyncOpcodes ++ [opcode] }
  | runtimeModule name => { o with runtimeModule := some name }
  | replaceAsyncOpcodes => { o with replaceAsyncOpcodes := true }

/-- The opcodes with a `--replace-async-opcodes` somewhere behind them. -/
def overruled : List RunOption → List String
  | [] => []
  | option :: others => (if replaceAsyncOpcodes ∈ others then option.opcode?.toList else []) ++ overruled others

end RunOption

open RunOption

variable {o o' : Options} {t : Target} {options : List RunOption}

lemma withRunArguments_append (options : List RunOption) (rest : List String) (t : Target) :
    t.withRunArguments (options.flatMap arguments ++ rest) = (options.foldl apply t).withRunArguments rest := by
  induction options generalizing t with
  | nil => rfl
  | cons option others ih =>
    cases option with
    | asyncOpcode opcode => exact ih (t.suspend opcode)
    | runtimeModule name => exact ih (t.withRuntimeModule name)
    | replaceAsyncOpcodes => exact ih t.suspendNone

lemma withRunArguments_options (options : List RunOption) (t : Target) :
    t.withRunArguments (options.flatMap arguments) = .ok (options.foldl apply t) := by
  have h := withRunArguments_append options [] t
  rwa [List.append_nil] at h

lemma readAll_flag (o : Options) (rest : List String) :
    o.readAll none (RunOption.replaceAsyncOpcodes.arguments ++ rest) =
      match o.readFlag "replace-async-opcodes" with
      | .proceed o pending => o.readAll pending rest
      | .print notice => .print notice
      | .misuse => .misuse :=
  rfl

lemma readAll_cons {option : RunOption} {rest : List String}
    (h : o.readAll none (option.arguments ++ rest) = .run o') : (option.record o).readAll none rest = .run o' := by
  cases option with
  | asyncOpcode opcode =>
    change (if Options.startsOption opcode then Request.misuse else _) = _ at h
    split at h
    · cases h
    · exact h
  | runtimeModule name =>
    change o.readAll (some .runtimeModule) (name :: rest) = _ at h
    rw [Options.readAll] at h
    split at h
    · cases h
    · simp only [Options.set?] at h
      by_cases hn : o.runtimeModule.isNone
      · rw [if_pos hn] at h
        exact h
      · rw [if_neg hn] at h
        cases h
  | replaceAsyncOpcodes =>
    by_cases hr : o.replaceAsyncOpcodes
    · have hflag : o.readFlag "replace-async-opcodes" = .misuse := if_pos hr
      rw [readAll_flag, hflag] at h
      cases h
    · have hflag : o.readFlag "replace-async-opcodes" = .proceed { o with replaceAsyncOpcodes := true } none :=
        if_neg hr
      rw [readAll_flag, hflag] at h
      exact h

lemma readAll_options (h : o.readAll none (options.flatMap arguments) = .run o') : o' = options.foldl record o := by
  induction options generalizing o with
  | nil => exact (Request.run.inj h).symm
  | cons option others ih => exact ih (readAll_cons h)

lemma suspend_suspendAll (t : Target) (opcodes : List String) (opcode : String) :
    (t.suspendAll opcodes).suspend opcode = (t.suspend opcode).suspendAll opcodes := by
  have hs : (t.suspending.insertAll opcodes).insert opcode = (t.suspending.insert opcode).insertAll opcodes := by
    apply OpcodeSet.ext_mem
    intro a
    rw [OpcodeSet.mem_insert, OpcodeSet.mem_insertAll, OpcodeSet.mem_insertAll, OpcodeSet.mem_insert, or_left_comm]
  rw [Target.suspend, Target.suspendAll, hs]
  rfl

lemma eq_suspendAll (t : Target) (opcodes : List String) :
    t = t.suspendAll opcodes ↔ ∀ opcode ∈ opcodes, opcode ∈ t.suspending := by
  constructor
  · intro h opcode hm
    rw [h]
    exact OpcodeSet.mem_insertAll.mpr (.inl hm)
  · intro h
    have hs : t.suspending.insertAll opcodes = t.suspending := by
      apply OpcodeSet.ext_mem
      intro a
      rw [OpcodeSet.mem_insertAll, or_iff_right_iff_imp]
      exact h a
    rw [Target.suspendAll, hs]

lemma overruled_concat (options : List RunOption) (last : RunOption) : overruled (options ++ [last]) =
    if last = replaceAsyncOpcodes then options.filterMap opcode? else overruled options := by
  induction options with
  | nil => cases last <;> rfl
  | cons option others ih =>
    rw [List.cons_append, overruled, ih]
    by_cases hl : last = replaceAsyncOpcodes
    · rw [if_pos hl, if_pos hl, if_pos (by simp [hl])]
      cases option <;> rfl
    · rw [if_neg hl, if_neg hl, overruled]
      simp [hl, eq_comm]

lemma suspendNone_suspendAll (t : Target) (opcodes : List String) :
    (t.suspendAll opcodes).suspendNone = t.suspendNone :=
  rfl

lemma withRuntimeModule_suspendAll (t : Target) (opcodes : List String) (name : String) :
    (t.suspendAll opcodes).withRuntimeModule name = (t.withRuntimeModule name).suspendAll opcodes :=
  rfl

lemma suspendAll_concat (t : Target) (opcodes : List String) (opcode : String) :
    t.suspendAll (opcodes ++ [opcode]) = (t.suspendAll opcodes).suspend opcode := by
  have hs : t.suspending.insertAll (opcodes ++ [opcode]) = (t.suspending.insertAll opcodes).insert opcode :=
    List.foldl_append
  rw [Target.suspendAll, hs]
  rfl

lemma target_asyncOpcode (o : Options) (opcode : String) :
    (record o (.asyncOpcode opcode)).target [] = (o.target []).suspend opcode :=
  suspendAll_concat _ o.asyncOpcodes opcode

lemma target_runtimeModule (o : Options) (name : String) :
    (record o (.runtimeModule name)).target [] = (o.target []).withRuntimeModule name := by
  obtain ⟨_, _, _, _, _, replace, _, _⟩ := o
  cases replace
  · rfl
  · rfl

lemma target_replaceAsyncOpcodes (o : Options) :
    (record o .replaceAsyncOpcodes).target [] = (o.target []).suspendNone.suspendAll o.asyncOpcodes := by
  obtain ⟨_, _, _, _, _, replace, _, _⟩ := o
  cases replace
  · rfl
  · rfl

lemma target_foldl (options : List RunOption) :
    (options.foldl record .initial).target [] = (options.foldl apply .alan).suspendAll (overruled options) ∧
      (options.foldl record .initial).asyncOpcodes = options.filterMap opcode? ∧
        (options.foldl record .initial).asyncOpcodesFile = none := by
  induction options using List.reverseRecOn with
  | nil => exact ⟨rfl, rfl, rfl⟩
  | append_singleton options last ih =>
    obtain ⟨htarget, hopcodes, hfile⟩ := ih
    rw [List.foldl_append, List.foldl_append, overruled_concat, List.filterMap_append]
    generalize options.foldl record .initial = o at *
    generalize options.foldl apply .alan = t at *
    cases last with
    | asyncOpcode opcode =>
      refine ⟨(target_asyncOpcode o opcode).trans ?_, congrArg (· ++ [opcode]) hopcodes, hfile⟩
      rw [htarget, suspend_suspendAll]
      rfl
    | runtimeModule name =>
      refine ⟨(target_runtimeModule o name).trans ?_, hopcodes.trans (List.append_nil _).symm, hfile⟩
      rw [htarget, withRuntimeModule_suspendAll]
      rfl
    | replaceAsyncOpcodes =>
      refine ⟨(target_replaceAsyncOpcodes o).trans ?_, hopcodes.trans (List.append_nil _).symm, hfile⟩
      rw [htarget, hopcodes, suspendNone_suspendAll]
      rfl

/-- A run takes all options that the command takes. The command asks for the target of the run and, besides,
for the opcodes that were overruled, so that the two agree if and only if the run has these opcodes as well. -/
theorem target_of_options (expectsFailure : Bool)
    (h : Request.ofArguments (options.flatMap arguments) = .run o) :
    ∃ t, (Run.mk commandName (options.flatMap arguments) expectsFailure).target = .ok t ∧
      o.asyncOpcodesFile = none ∧ o.target [] = t.suspendAll (overruled options) ∧
        (t = o.target [] ↔ ∀ opcode ∈ overruled options, opcode ∈ t.suspending) := by
  obtain rfl := readAll_options h
  obtain ⟨htarget, _, hfile⟩ := target_foldl options
  refine ⟨options.foldl apply .alan, ?_, hfile, htarget, ?_⟩
  · rw [Run.target, if_pos rfl, withRunArguments_options]
  · rw [htarget]
    exact eq_suspendAll _ _

def slowOptions : List RunOption :=
  [.asyncOpcode "slowop", .replaceAsyncOpcodes]

theorem target_slowOptions : ∃ o, Request.ofArguments (slowOptions.flatMap arguments) = .run o ∧
    ∃ t, (Run.mk commandName (slowOptions.flatMap arguments) false).target = .ok t ∧
      (o.target []).suspending.toList = ["slowop"] ∧ t.suspending.toList = [] ∧ t ≠ o.target [] := by
  have h : Request.ofArguments (slowOptions.flatMap arguments) = .run (slowOptions.foldl record .initial) := rfl
  obtain ⟨t, ht, _, htarget, hiff⟩ := target_of_options false h
  have hrun : (Run.mk commandName (slowOptions.flatMap arguments) false).target =
      .ok (slowOptions.foldl apply .alan) := by
    rw [Run.target, if_pos rfl, withRunArguments_options]
  obtain rfl := Except.ok.inj (hrun.symm.trans ht)
  refine ⟨_, h, _, ht, by rw [htarget]; rfl, rfl, fun he => ?_⟩
  exact OpcodeSet.not_mem_empty "slowop" (hiff.mp he "slowop" (by decide))

end AmmCompiler
