/-! Recursion that only ever descends to shorter inputs, by cutting it off at the length of the input. -/

namespace AmmCompiler.Source

variable {R : Type}

def descendWithin [Inhabited R] (step : (List Char → R) → List Char → R) : Nat → List Char → R
  | 0, _ => default
  | n + 1, cs => step (descendWithin step n) cs

def descend [Inhabited R] (step : (List Char → R) → List Char → R) (cs : List Char) : R :=
  descendWithin step (cs.length + 1) cs

def AgreeBelow (cs : List Char) (p q : List Char → R) : Prop :=
  ∀ rest : List Char, rest.length < cs.length → p rest = q rest

theorem AgreeBelow.mono {cs ds : List Char} {p q : List Char → R} (h : AgreeBelow cs p q)
    (hd : ds.length ≤ cs.length) : AgreeBelow ds p q :=
  fun rest hr => h rest (Nat.lt_of_lt_of_le hr hd)

/-- Among the recursions with property `P`, the answer of a step depends on shorter inputs only. -/
def Descends (P : (List Char → R) → Prop) (step : (List Char → R) → List Char → R) : Prop :=
  ∀ ⦃p q cs⦄, P q → AgreeBelow cs p q → step p cs = step q cs

variable [Inhabited R] {P : (List Char → R) → Prop} {step : (List Char → R) → List Char → R}

theorem descendWithin_eq (hP : ∀ n, P (descendWithin step n)) (h : Descends P step) {m n : Nat}
    {cs : List Char} (hm : cs.length < m) (hn : cs.length < n) :
    descendWithin step m cs = descendWithin step n cs := by
  induction m generalizing n cs with
  | zero => omega
  | succ m ih =>
    obtain _ | n := n
    · omega
    · exact h (hP n) fun r hr => ih (by omega) (by omega)

theorem descend_eq (hP : ∀ n, P (descendWithin step n)) (h : Descends P step) (cs : List Char) :
    descend step cs = step (descend step) cs :=
  (h (hP cs.length) fun _ _ => descendWithin_eq hP h (by omega) (by omega)).symm

end AmmCompiler.Source
