import AmmCompiler.Proofs.Text.ByteOrder
import AmmCompiler.Target
import Mathlib.Data.List.Basic

namespace AmmCompiler

inductive TargetStep
  | suspend (opcode : String)
  | suspendAll (opcodes : List String)
  | suspendNone
  | withRuntimeModule (name : String)
  deriving DecidableEq

namespace TargetStep

def apply (target : Target) : TargetStep → Target
  | suspend opcode => target.suspend opcode
  | suspendAll opcodes => target.suspendAll opcodes
  | suspendNone => target.suspendNone
  | withRuntimeModule name => target.withRuntimeModule name

def opcodes : TargetStep → List String
  | suspend opcode => [opcode]
  | suspendAll opcodes => opcodes
  | _ => []

def module? : TargetStep → Option String
  | withRuntimeModule name => some name
  | _ => none

end TargetStep

open TargetStep

namespace Target

def after (target : Target) (steps : List TargetStep) : Target :=
  steps.foldl apply target

variable {target : Target} {steps front back : List TargetStep} {opcode : String}

lemma after_append (target : Target) (front back : List TargetStep) :
    target.after (front ++ back) = (target.after front).after back :=
  List.foldl_append

lemma mem_apply {step : TargetStep} (h : step ≠ .suspendNone) :
    opcode ∈ (step.apply target).suspending ↔ opcode ∈ target.suspending ∨ opcode ∈ step.opcodes := by
  cases step with
  | suspend other =>
    refine OpcodeSet.mem_insert.trans (or_comm.trans ?_)
    rw [opcodes, List.mem_singleton]
  | suspendAll others => exact OpcodeSet.mem_insertAll.trans or_comm
  | suspendNone => exact absurd rfl h
  | withRuntimeModule name => exact (or_iff_left List.not_mem_nil).symm

lemma mem_after (h : .suspendNone ∉ steps) :
    opcode ∈ (target.after steps).suspending ↔ opcode ∈ target.suspending ∨ opcode ∈ steps.flatMap opcodes := by
  induction steps generalizing target with
  | nil => exact (or_iff_left List.not_mem_nil).symm
  | cons step steps ih =>
    obtain ⟨hstep, hsteps⟩ := not_or.mp (mt List.mem_cons.mpr h)
    refine (ih hsteps).trans ?_
    rw [mem_apply (Ne.symm hstep), List.flatMap_cons, List.mem_append, or_assoc]

lemma mem_after_suspendNone (h : .suspendNone ∉ back) :
    opcode ∈ (target.after (front ++ .suspendNone :: back)).suspending ↔ opcode ∈ back.flatMap opcodes := by
  rw [after_append]
  refine (mem_after h).trans (or_iff_right ?_)
  exact OpcodeSet.not_mem_empty opcode

lemma after_eq (target : Target) (steps : List TargetStep) : target.after steps = { target with
    runtimeModule := (steps.filterMap module?).getLast?.getD target.runtimeModule
    suspending := (target.after steps).suspending } := by
  induction steps generalizing target with
  | nil => rfl
  | cons step steps ih =>
    refine (ih (step.apply target)).trans ?_
    cases step with
    | withRuntimeModule name =>
      have hlast : ((TargetStep.withRuntimeModule name :: steps).filterMap module?).getLast? =
          some ((steps.filterMap module?).getLast?.getD name) := List.getLast?_cons
      rw [hlast]
      rfl
    | _ => rfl

lemma after_frame (target : Target) (steps : List TargetStep) : target.after steps = { target with
    runtimeModule := (target.after steps).runtimeModule, suspending := (target.after steps).suspending } := by
  have hm := congrArg Target.runtimeModule (after_eq target steps)
  rw [hm]
  exact after_eq target steps

end Target

end AmmCompiler
