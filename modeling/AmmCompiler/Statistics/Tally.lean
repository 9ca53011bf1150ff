namespace AmmCompiler

structure Tally where
  entries : List (String × Nat)
  ascending : (entries.map Prod.fst).Pairwise (· < ·)
  positive : ∀ e ∈ entries, 0 < e.2
  deriving DecidableEq

namespace Tally

def addTo (name : String) : List (String × Nat) → List (String × Nat)
  | [] => [(name, 1)]
  | (first, n) :: others =>
    if name < first then (name, 1) :: (first, n) :: others
    else if name = first then (first, n + 1) :: others
    else (first, n) :: addTo name others

theorem mem_names_addTo {a name : String} {entries : List (String × Nat)} :
    a ∈ (addTo name entries).map Prod.fst ↔ a = name ∨ a ∈ entries.map Prod.fst := by
  induction entries with
  | nil => simp [addTo]
  | cons e others ih =>
    obtain ⟨first, n⟩ := e
    simp only [addTo]
    split
    · simp
    · split
      · next h => simp [h]
      · simp only [List.map_cons, List.mem_cons, ih]
        exact or_left_comm

theorem ascending_addTo {name : String} {entries : List (String × Nat)}
    (h : (entries.map Prod.fst).Pairwise (· < ·)) :
    ((addTo name entries).map Prod.fst).Pairwise (· < ·) := by
  induction entries with
  | nil => simp [addTo]
  | cons e others ih =>
    obtain ⟨first, n⟩ := e
    have ⟨hfirst, hothers⟩ := List.pairwise_cons.mp h
    simp only [addTo]
    split
    · next hlt =>
      refine List.pairwise_cons.mpr ⟨fun b hb => ?_, h⟩
      rcases List.mem_cons.mp hb with rfl | hb
      · exact hlt
      · exact String.lt_trans hlt (hfirst b hb)
    · next hlt =>
      split
      · exact h
      · next hne =>
        refine List.pairwise_cons.mpr ⟨fun b hb => ?_, ih hothers⟩
        rcases mem_names_addTo.mp hb with rfl | hb
        · exact Std.lt_of_le_of_ne (String.not_lt.mp hlt) (Ne.symm hne)
        · exact hfirst b hb

theorem positive_addTo {name : String} {entries : List (String × Nat)}
    (h : ∀ e ∈ entries, 0 < e.2) : ∀ e ∈ addTo name entries, 0 < e.2 := by
  induction entries with
  | nil => simp [addTo]
  | cons e others ih =>
    obtain ⟨first, n⟩ := e
    simp only [List.forall_mem_cons] at h
    simp only [addTo]
    split
    · simpa using h
    · split
      · simpa using h.2
      · simpa using ⟨h.1, by simpa using ih h.2⟩

def empty : Tally := ⟨[], .nil, by simp⟩

def add (tally : Tally) (name : String) : Tally :=
  ⟨addTo name tally.entries, ascending_addTo tally.ascending, positive_addTo tally.positive⟩

def countIn (name : String) : List (String × Nat) → Nat
  | [] => 0
  | (first, n) :: others => if name = first then n else countIn name others

def count (tally : Tally) (name : String) : Nat :=
  countIn name tally.entries

def precedes (a b : String × Nat) : Bool :=
  decide (b.2 < a.2) || a.2 == b.2 && decide (a.1 ≤ b.1)

def busiest (tally : Tally) : List (String × Nat) :=
  (tally.entries.mergeSort precedes).take 10

end Tally

end AmmCompiler
