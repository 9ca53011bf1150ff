import AmmCompiler.CommandLine.Command
import AmmCompiler.Host.World
import AmmCompiler.Proofs.CommandLine.RegistryOptions
import AmmCompiler.Proofs.Target.Builder

/-! The command awaits the opcodes that its options ask for, in whatever order and however often they are given. -/

namespace AmmCompiler

open TargetStep

variable {o : Options} {arguments opcodes : List String} {opcode : String} {target : Target} {w : World}

lemma mem_alan : opcode ∈ Target.alan.suspending ↔ opcode ∈ Target.asyncOpcodes :=
  OpcodeSet.mem_insertAll.trans (or_iff_left (OpcodeSet.not_mem_empty opcode))

def Options.steps (o : Options) (opcodes : List String) : List TargetStep :=
  .withRuntimeModule (o.runtimeModule.getD Target.alan.runtimeModule) ::
    ((if o.replaceAsyncOpcodes then [.suspendNone] else []) ++ [.suspendAll opcodes, .suspendAll o.asyncOpcodes])

lemma target_eq_after (o : Options) (opcodes : List String) :
    o.target opcodes = Target.alan.after (o.steps opcodes) := by
  rw [Options.target, Options.steps]
  cases o.replaceAsyncOpcodes <;> rfl

lemma mem_target : opcode ∈ (o.target opcodes).suspending ↔
    opcode ∈ Target.asyncOpcodes ∧ o.replaceAsyncOpcodes ≠ true ∨ opcode ∈ opcodes ∨ opcode ∈ o.asyncOpcodes := by
  have hback : [TargetStep.suspendAll opcodes, .suspendAll o.asyncOpcodes].flatMap TargetStep.opcodes =
      opcodes ++ o.asyncOpcodes := congrArg (opcodes ++ ·) (List.append_nil _)
  rw [target_eq_after, Options.steps]
  by_cases hr : o.replaceAsyncOpcodes = true
  · rw [if_pos hr]
    refine (@Target.mem_after_suspendNone _ [_] [.suspendAll opcodes, .suspendAll o.asyncOpcodes] _ (by simp)).trans ?_
    rw [hback, List.mem_append]
    simp [hr]
  · rw [if_neg hr, List.nil_append]
    refine (Target.mem_after (by simp)).trans ?_
    rw [List.flatMap_cons, hback, mem_alan]
    simp [hr, TargetStep.opcodes]

end AmmCompiler
