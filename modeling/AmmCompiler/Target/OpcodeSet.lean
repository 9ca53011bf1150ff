/-! Finite sets of opcodes, each listed in ascending order, so equal sets are equal lists. -/

namespace AmmCompiler

structure OpcodeSet where
  toList : List String
  ascending : toList.Pairwise (· < ·)
  deriving DecidableEq

namespace OpcodeSet

def insertInto (opcode : String) : List String → List String
  | [] => [opcode]
  | first :: others =>
    if opcode < first then opcode :: first :: others
    else if opcode = first then first :: others
    else first :: insertInto opcode others

@[simp] theorem mem_insertInto {a opcode : String} {opcodes : List String} :
    a ∈ insertInto opcode opcodes ↔ a = opcode ∨ a ∈ opcodes := by
  induction opcodes with
  | nil => simp [insertInto]
  | cons first others ih =>
    simp only [insertInto]
    split
    · simp
    · split
      · next h => simp [h]
      · simp only [List.mem_cons, ih]
        exact or_left_comm

theorem pairwise_insertInto {opcode : String} {opcodes : List String}
    (h : opcodes.Pairwise (· < ·)) : (insertInto opcode opcodes).Pairwise (· < ·) := by
  induction opcodes with
  | nil => simp [insertInto]
  | cons first others ih =>
    have ⟨hfirst, hothers⟩ := List.pairwise_cons.mp h
    simp only [insertInto]
    split
    · next hlt =>
      refine List.pairwise_cons.mpr ⟨fun b hb => ?_, h⟩
      rcases List.mem_cons.mp hb with rfl | hb
      · exact hlt
      · exact String.lt_trans hlt (hfirst b hb)
    · next hlt =>
      split
      · exact h
      · next hne =>
        refine List.pairwise_cons.mpr ⟨fun b hb => ?_, ih hothers⟩
        rcases mem_insertInto.mp hb with rfl | hb
        · exact Std.lt_of_le_of_ne (String.not_lt.mp hlt) (Ne.symm hne)
        · exact hfirst b hb

theorem pairwise_nil : ([] : List String).Pairwise (· < ·) := .nil

def empty : OpcodeSet := ⟨[], pairwise_nil⟩

def insert (opcodes : OpcodeSet) (opcode : String) : OpcodeSet :=
  ⟨insertInto opcode opcodes.toList, pairwise_insertInto opcodes.ascending⟩

def insertAll (opcodes : OpcodeSet) (more : List String) : OpcodeSet :=
  more.foldl insert opcodes

def ofList (opcodes : List String) : OpcodeSet :=
  empty.insertAll opcodes

def size (opcodes : OpcodeSet) : Nat :=
  opcodes.toList.length

instance : Membership String OpcodeSet := ⟨fun opcodes opcode => opcode ∈ opcodes.toList⟩

instance (opcode : String) (opcodes : OpcodeSet) : Decidable (opcode ∈ opcodes) :=
  inferInstanceAs (Decidable (opcode ∈ opcodes.toList))

@[simp] theorem not_mem_empty (a : String) : a ∉ empty :=
  List.not_mem_nil

@[simp] theorem mem_insert {a opcode : String} {opcodes : OpcodeSet} :
    a ∈ opcodes.insert opcode ↔ a = opcode ∨ a ∈ opcodes :=
  mem_insertInto

@[simp] theorem mem_insertAll {a : String} {opcodes : OpcodeSet} {more : List String} :
    a ∈ opcodes.insertAll more ↔ a ∈ more ∨ a ∈ opcodes := by
  induction more generalizing opcodes with
  | nil => simp [insertAll]
  | cons first others ih =>
    rw [insertAll, List.foldl_cons, ← insertAll, ih, mem_insert, List.mem_cons, or_assoc]
    exact or_left_comm

theorem lists_ext {s t : List String} (hs : s.Pairwise (· < ·)) (ht : t.Pairwise (· < ·))
    (h : ∀ a, a ∈ s ↔ a ∈ t) : s = t := by
  induction s generalizing t with
  | nil =>
    cases t with
    | nil => rfl
    | cons e t => exact absurd ((h e).mpr List.mem_cons_self) List.not_mem_nil
  | cons d s ih =>
    have ⟨hd, hs⟩ := List.pairwise_cons.mp hs
    cases t with
    | nil => exact absurd ((h d).mp List.mem_cons_self) List.not_mem_nil
    | cons e t =>
      have ⟨he, hr⟩ := List.pairwise_cons.mp ht
      obtain rfl : d = e := by
        rcases List.mem_cons.mp ((h d).mp List.mem_cons_self) with hde | hde
        · exact hde
        · rcases List.mem_cons.mp ((h e).mpr List.mem_cons_self) with hed | hed
          · exact hed.symm
          · exact absurd (String.lt_trans (hd e hed) (he d hde)) (String.lt_irrefl d)
      refine congrArg _ (ih hs hr fun a => ⟨fun ha => ?_, fun ha => ?_⟩)
      · rcases List.mem_cons.mp ((h a).mp (List.mem_cons_of_mem _ ha)) with rfl | hm
        · exact absurd (hd a ha) (String.lt_irrefl a)
        · exact hm
      · rcases List.mem_cons.mp ((h a).mpr (List.mem_cons_of_mem _ ha)) with rfl | hm
        · exact absurd (he a ha) (String.lt_irrefl a)
        · exact hm

theorem ext_mem {s t : OpcodeSet} (h : ∀ a, a ∈ s ↔ a ∈ t) : s = t := by
  obtain ⟨opcodes, hs⟩ := s
  obtain ⟨opcodes', ht⟩ := t
  obtain rfl : opcodes = opcodes' := lists_ext hs ht h
  rfl

end OpcodeSet

end AmmCompiler
