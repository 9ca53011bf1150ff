import AmmCompiler.Proofs.Scanning.Cursor
import AmmCompiler.Source.Reader
import Mathlib.Tactic.Lemma

namespace AmmCompiler

def byteLength (cs : List Char) : Nat :=
  (String.ofList cs).utf8ByteSize

def placeOf (text : String) (rest : List Char) : Nat :=
  text.utf8ByteSize - byteLength rest

variable {text : String} {a mid rest : List Char} {c : Char}

lemma byteLength_append (a b : List Char) : byteLength (a ++ b) = byteLength a + byteLength b := by
  rw [byteLength, String.ofList_append, String.utf8ByteSize_append]
  rfl

lemma byteLength_singleton (c : Char) : byteLength [c] = c.utf8Size := by
  rw [byteLength, ← String.singleton_eq_ofList, String.utf8ByteSize_singleton]

lemma byteLength_toList (text : String) : byteLength text.toList = text.utf8ByteSize := by
  rw [byteLength, String.ofList_toList]

lemma length_le_byteLength (cs : List Char) : cs.length ≤ byteLength cs := by
  induction cs with
  | nil => exact Nat.zero_le _
  | cons c cs ih =>
    have hc := c.utf8Size_pos
    rw [List.length_cons, ← List.singleton_append, byteLength_append, byteLength_singleton]
    omega

lemma byteLength_pos (h : a ≠ []) : 0 < byteLength a :=
  Nat.lt_of_lt_of_le (List.length_pos_iff.mpr h) (length_le_byteLength a)

lemma placeOf_eq (h : a ++ rest = text.toList) : placeOf text rest = byteLength a := by
  rw [placeOf, ← byteLength_toList, ← h, byteLength_append, Nat.add_sub_cancel]

lemma placeOf_start (text : String) : placeOf text text.toList = 0 :=
  placeOf_eq (List.nil_append _)

lemma placeOf_end (text : String) : placeOf text [] = text.utf8ByteSize :=
  Nat.sub_zero _

lemma placeOf_append (h : a ++ rest <:+ text.toList) :
    placeOf text rest = placeOf text (a ++ rest) + byteLength a := by
  obtain ⟨b, hb⟩ := h
  rw [placeOf_eq hb, placeOf_eq ((List.append_assoc b a rest).trans hb), byteLength_append]

lemma placeOf_mono (h : rest <:+ mid) (hm : mid <:+ text.toList) : placeOf text mid ≤ placeOf text rest := by
  obtain ⟨a, rfl⟩ := h
  rw [placeOf_append hm]
  exact Nat.le_add_right _ _

lemma placeOf_inj (h : rest <:+ mid) (hm : mid <:+ text.toList) (he : placeOf text mid = placeOf text rest) :
    mid = rest := by
  obtain ⟨a, rfl⟩ := h
  rw [placeOf_append hm] at he
  by_cases ha : a = []
  · rw [ha, List.nil_append]
  · have hp := byteLength_pos ha
    omega

lemma ofList_append_ofList (h : a ++ rest = text.toList) : text = String.ofList a ++ String.ofList rest := by
  rw [← String.ofList_append, h, String.ofList_toList]

lemma isBoundary_placeOf (h : rest <:+ text.toList) : IsBoundary text (placeOf text rest) := by
  obtain ⟨a, ha⟩ := h
  rw [placeOf_eq ha]
  exact String.Pos.Raw.isValid_iff_exists_append.mpr ⟨_, _, ofList_append_ofList ha, rfl⟩

lemma slice?_placeOf (h : a ++ rest <:+ text.toList) :
    IsBoundary text (placeOf text (a ++ rest)) ∧ IsBoundary text (placeOf text rest) ∧
      placeOf text (a ++ rest) ≤ placeOf text rest ∧
      slice? text (placeOf text (a ++ rest)) (placeOf text rest) = some (String.ofList a) := by
  have hs := (List.suffix_append a rest).trans h
  have hv : IsBoundary text (placeOf text (a ++ rest)) ∧ IsBoundary text (placeOf text rest) ∧
      placeOf text (a ++ rest) ≤ placeOf text rest :=
    ⟨isBoundary_placeOf h, isBoundary_placeOf hs, placeOf_mono (List.suffix_append a rest) h⟩
  obtain ⟨b, hb⟩ := h
  have hb' : (b ++ a) ++ rest = text.toList := (List.append_assoc b a rest).trans hb
  have hstart : (text.pos ⟨placeOf text (a ++ rest)⟩ hv.1).Splits (String.ofList b)
      (String.ofList a ++ String.ofList rest) := by
    rw [← String.ofList_append]
    exact ⟨ofList_append_ofList hb, congrArg String.Pos.Raw.mk (placeOf_eq hb)⟩
  have hstop : (text.pos ⟨placeOf text rest⟩ hv.2.1).Splits (String.ofList b ++ String.ofList a)
      (String.ofList rest) := by
    rw [← String.ofList_append]
    exact ⟨ofList_append_ofList hb', congrArg String.Pos.Raw.mk (placeOf_eq hb')⟩
  refine ⟨hv.1, hv.2.1, hv.2.2, ?_⟩
  rw [slice?, dif_pos hv, String.extract_eq_copy_slice _ _ hv.2.2]
  exact congrArg some (String.copy_slice_eq_iff_splits.mpr ⟨_, _, hstart, hstop⟩).2

end AmmCompiler
