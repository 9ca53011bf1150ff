import AmmCompiler.Proofs.Grammar.Viability

/-! A rejected text fails at the end of its longest part with which a program begins, and what stands
there decides how it fails. -/

namespace AmmCompiler

open Source Text

variable {r r' u x : List Char} {fault : Fault}

def Position.Denotes (p : Position) (text : List Char) (offset : ℕ) : Prop :=
  offset ≤ text.length ∧ Position.after (text.take offset) = p

lemma Position.after_append (h : Position.after (u ++ x) = Position.after u) : x = [] := by
  simp only [Position.after, Position.mk.injEq, List.count_append, Nat.add_right_cancel_iff, Nat.add_eq_left,
    List.count_eq_zero] at h
  obtain ⟨hn, hc⟩ := h
  have hx : ∀ c ∈ x.reverse, decide (c ≠ '\n') = true := by
    intro c hc
    rw [decide_eq_true_eq]
    rintro rfl
    exact hn (List.mem_reverse.mp hc)
  rw [List.reverse_append, List.takeWhile_append_of_pos hx, List.length_append, List.length_reverse] at hc
  exact List.length_eq_zero_iff.mp (by omega)

lemma Position.Denotes.unique {p : Position} {text : List Char} {m n : ℕ} (hm : p.Denotes text m)
    (hn : p.Denotes text n) : m = n := by
  have hle {m n : ℕ} (hm : p.Denotes text m) (hn : p.Denotes text n) (h : m ≤ n) : m = n := by
    obtain ⟨x, hx⟩ := List.take_prefix_take_left h (l := text)
    obtain rfl := Position.after_append (hx ▸ hn.2.trans hm.2.symm)
    have hl := congrArg List.length hx
    rw [List.append_nil, List.length_take_of_le hm.1, List.length_take_of_le hn.1] at hl
    exact hl
  rcases Nat.le_total m n with h | h
  · exact hle hm hn h
  · exact (hle hn hm h).symm

/-- The word that is found, or else the character. -/
def Fault.offender (found : Option Char) : Fault → List Char
  | functionKeyword word => word.toList
  | itemKeyword word => word.toList
  | _ => found.toList

def SyntaxError.offender (e : SyntaxError) : List Char :=
  e.fault.offender e.found

namespace Source

lemma offender_prefix (h : Spotted fault r) : fault.offender r.head? <+: r := by
  have hhead : r.head?.toList <+: r := by
    cases r with
    | nil => exact List.nil_prefix
    | cons c r => exact ⟨r, rfl⟩
  cases fault with
  | functionKeyword w =>
    obtain ⟨_, s, rfl, _⟩ := h
    exact List.prefix_append _ _
  | itemKeyword w =>
    obtain ⟨_, s, rfl, _⟩ := h
    exact List.prefix_append _ _
  | _ => exact hhead

lemma eq_or_common {k : ℕ} (h : r'.take k = r.take k) :
    r' = r ∨ ∃ u s s', u.length = k ∧ r = u ++ s ∧ r' = u ++ s' := by
  by_cases hk : k ≤ r.length ∧ k ≤ r'.length
  · refine .inr ⟨r.take k, r.drop k, r'.drop k, List.length_take_of_le hk.1, (List.take_append_drop k r).symm, ?_⟩
    rw [← h, List.take_append_drop]
  · have hl := congrArg List.length h
    rw [List.length_take, List.length_take] at hl
    rw [List.take_of_length_le (by omega), List.take_of_length_le (by omega)] at h
    exact .inl h

lemma StartsWord.common {w : String} {s : List Char} (h : StartsWord w (u ++ s)) (hl : w.toList.length < u.length)
    (s' : List Char) : StartsWord w (u ++ s') := by
  obtain ⟨q, he, hq⟩ := h
  obtain ⟨v, rfl⟩ := List.prefix_of_prefix_length_le ⟨q, he.symm⟩ (List.prefix_append u s) (by omega)
  rw [List.length_append] at hl
  obtain ⟨c, v, rfl⟩ := List.exists_cons_of_length_pos (by omega : 0 < v.length)
  rw [List.append_assoc, List.append_cancel_left_eq] at he
  refine ⟨c :: v ++ s', by simp, ?_⟩
  rw [← he] at hq
  exact hq

lemma sameSpot_common {s s' : List Char} (h : skipGap (u ++ s) = u ++ s) (hl : 2 ≤ u.length) :
    SameSpot (u ++ s) (u ++ s') := by
  obtain ⟨c, v, rfl⟩ := List.exists_cons_of_length_pos (by omega : 0 < u.length)
  rw [List.length_cons] at hl
  obtain ⟨d, v, rfl⟩ := List.exists_cons_of_length_pos (by omega : 0 < v.length)
  obtain ⟨hs, hg⟩ := sameStart_pair h (v ++ s')
  exact ⟨rfl, hs.toAlike, hg⟩

lemma sameFault_self (h : Spotted fault r) (ho : fault ≠ .openString) : SameFault fault r r := by
  have hspot (hr : skipGap r = r) : SameSpot r r := ⟨rfl, .refl r, hr⟩
  cases fault with
  | functionKeyword w => exact h.2
  | itemKeyword w => exact h.2
  | digits => exact ⟨rfl, hspot⟩
  | openString => exact absurd rfl ho
  | _ => exact hspot h

lemma sameFault_of_take (h : Spotted fault r) (ho : fault ≠ .openString)
    (ht : r'.take ((fault.offender r.head?).length + 2) = r.take ((fault.offender r.head?).length + 2)) :
    SameFault fault r r' := by
  rcases eq_or_common ht with rfl | ⟨u, s, s', hl, rfl, rfl⟩
  · exact sameFault_self h ho
  · have hlen : 2 ≤ u.length := by omega
    cases fault with
    | functionKeyword w => exact h.2.common (by rw [hl, Fault.offender]; omega) s'
    | itemKeyword w => exact h.2.common (by rw [hl, Fault.offender]; omega) s'
    | digits =>
      refine ⟨?_, fun hs => sameSpot_common hs hlen⟩
      obtain ⟨c, v, rfl⟩ := List.exists_cons_of_length_pos (by omega : 0 < u.length)
      rfl
    | openString => exact absurd rfl ho
    | _ => exact sameSpot_common h hlen

lemma exists_append_of_take {pre cs : List Char} {k : ℕ}
    (h : cs.take (pre.length + k) = (pre ++ r).take (pre.length + k)) :
    ∃ r', cs = pre ++ r' ∧ r'.take k = r.take k := by
  rw [List.take_length_add_append] at h
  have hpre := congrArg (List.take pre.length) h
  rw [List.take_take, Nat.min_eq_left (Nat.le_add_right _ _), List.take_left] at hpre
  have hrest := congrArg (List.drop pre.length) h
  rw [List.drop_take, Nat.add_sub_cancel_left, List.drop_left] at hrest
  refine ⟨cs.drop pre.length, ?_, hrest⟩
  conv_lhs => rw [← List.take_append_drop pre.length cs, hpre]

end Source

/-- A rejected text fails at one place. In front of it stands the beginning of a program, and any text
that has the offender and the next two characters there as well fails in the same way. -/
theorem fault_of_parse {text : String} {e : SyntaxError} (h : Program.parse text = .error e) :
    ∃ offset, (∀ n, e.position.Denotes text.toList n ↔ n = offset) ∧ e.offender <+: text.toList.drop offset ∧
      (∃ ext p, Program.parse (.ofList (text.toList.take offset ++ ext)) = .ok p) ∧
      (e.fault ≠ .openString → ∀ other : String, other.toList.take (offset + e.offender.length + 2) =
        text.toList.take (offset + e.offender.length + 2) → Program.parse other = .error e) := by
  obtain ⟨f, hf, rfl⟩ := failure_of_parse h
  obtain ⟨pre, ext, is, ht, hok⟩ := items_completes hf
  have hspot := (items_error hf).2
  have hdenotes : (f.locate text.toList).position.Denotes text.toList pre.length := by
    rw [ht, Failure.locate, consumed_append]
    exact ⟨by simp, by simp⟩
  have hdrop : text.toList.drop pre.length = f.rest := by rw [ht, List.drop_left]
  refine ⟨pre.length, fun n => ⟨fun hn => hn.unique hdenotes, ?_⟩, ?_, ⟨ext, .ofItems is, ?_⟩, ?_⟩
  · rintro rfl
    exact hdenotes
  · rw [hdrop]
    exact offender_prefix hspot
  · rw [ht, List.take_left, parse_of_items (by rw [String.toList_ofList, hok])]
    rfl
  · intro ho other htake
    rw [ht, Nat.add_assoc] at htake
    obtain ⟨r', hr', hk⟩ := exists_append_of_take htake
    have hhead : r'.head? = f.rest.head? := by
      have hh := congrArg List.head? hk
      rwa [List.head?_take, List.head?_take, if_neg (Nat.succ_ne_zero _), if_neg (Nat.succ_ne_zero _)] at hh
    rw [ht] at hf
    have hfail := (items_steady hf (sameFault_of_take hspot ho hk)).1
    rw [parse_of_items (by rw [hr', hfail]), hr', ht]
    change Except.error (Failure.locate _ _) = _
    simp only [Failure.locate, consumed_append, hhead]

def misplacedText : String :=
  "event a b: c"

theorem fault_misplacedText : Program.parse misplacedText = .error ⟨⟨1, 9⟩, .symbol ':', some 'b'⟩ ∧
    Program.parse "event a b: x on" = .error ⟨⟨1, 9⟩, .symbol ':', some 'b'⟩ := by
  have h : Program.parse misplacedText = .error ⟨⟨1, 9⟩, .symbol ':', some 'b'⟩ := rfl
  obtain ⟨n, hn, _, _, hother⟩ := fault_of_parse h
  obtain rfl := (hn 8).mp ⟨by decide, by decide⟩
  exact ⟨h, hother (by decide) _ (by decide)⟩

end AmmCompiler
