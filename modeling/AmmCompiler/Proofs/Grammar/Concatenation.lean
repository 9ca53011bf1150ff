import AmmCompiler.Proofs.Grammar.Locality
import AmmCompiler.Proofs.Grammar.Soundness

/-! Two source texts, one in the lines behind the other, are read as the programs of both. -/

namespace AmmCompiler

open Source Text

variable {a b cs : List Char}

namespace Source

lemma items_of_skipGap {cs' : List Char} (h : skipGap cs = skipGap cs') : items cs = items cs' := by
  rw [items_eq, items_eq cs']
  simp only [itemsWith, h]

lemma head_of_items {is : List Item} (h : items cs = .ok is) : (skipGap cs).head? ≠ some '<' := by
  intro hb
  have hne : skipGap cs ≠ [] := by
    intro hg
    rw [hg] at hb
    cases hb
  have hn : name cs = .error ⟨skipGap cs, .identifier⟩ := by
    refine name_eq_error.mpr ⟨rfl, fun c hc => ?_⟩
    obtain rfl := Option.some.inj (hb.symm.trans hc)
    decide
  rw [items_cons hne, item, hn] at h
  cases h

lemma items_lines {is : List Item} (h : items a = .ok is) (hb : (skipGap b).head? ≠ some '<') :
    items (a ++ '\n' :: b) = (items b).map (is ++ ·) := by
  induction hn : a.length using Nat.strong_induction_on generalizing a is with
  | _ n ih =>
    subst hn
    cases hg : skipGap a with
    | nil =>
      obtain rfl := Except.ok.inj ((items_nil hg).symm.trans h)
      rw [items_of_skipGap (skipGap_newline hg b)]
      cases items b <;> rfl
    | cons c r =>
      rw [items_cons (by rw [hg]; exact List.cons_ne_nil c r)] at h
      obtain ⟨⟨first, rest⟩, hi, h⟩ := bind_eq_ok.mp h
      obtain ⟨others, ho, he⟩ := bind_eq_ok.mp h
      obtain rfl := pure_eq_ok.mp he
      have hp := item_advances hi
      obtain ⟨u, rfl⟩ := hp.1
      have hsight : Alike ([] ++ rest) ([] ++ (rest ++ '\n' :: b)) := alike_newline fun _ => hb
      have hi' := (steady_item.reach hi rfl hsight).1
      rw [List.append_assoc, items_cons, bind_ok hi']
      · change (do return first :: (← items (rest ++ '\n' :: b))) = _
        rw [ih _ hp.2 ho rfl]
        cases items b <;> rfl
      · rw [← List.append_assoc, skipGap_extend hg b]
        exact List.cons_ne_nil _ _

lemma items_error_lines {is : List Item} {f : Failure} (h : items a = .ok is) (hf : items b = .error f)
    (hb : (skipGap b).head? ≠ some '<') : items (a ++ '\n' :: b) = .error f := by
  rw [items_lines h hb, hf]
  rfl

end Source

lemma Position.after_lines (a b : List Char) : Position.after (a ++ '\n' :: b) =
    ⟨(Position.after b).line + 1 + a.count '\n', (Position.after b).column⟩ := by
  simp only [Position.after, Position.mk.injEq]
  constructor
  · rw [List.count_append, List.count_cons_self]
    omega
  · have hr : (a ++ '\n' :: b).reverse = b.reverse ++ '\n' :: a.reverse := by simp
    rw [hr, List.takeWhile_append]
    split
    · next hl => rw [List.takeWhile_cons_of_neg (by simp), List.append_nil, hl]
    · rfl

lemma Position.after_congr {x y : List Char} (h : Position.after x = Position.after y) (a : List Char) :
    Position.after (a ++ x) = Position.after (a ++ y) := by
  obtain ⟨hl, hc⟩ := Position.mk.inj h
  have hcount : x.count '\n' = y.count '\n' := Nat.succ_inj.mp hl
  have hwidth : (x.reverse.takeWhile (· ≠ '\n')).length = (y.reverse.takeWhile (· ≠ '\n')).length := Nat.succ_inj.mp hc
  -- The last line of the text is the whole text if and only if there is no newline in it.
  have hline (z : List Char) : (z.reverse.takeWhile (· ≠ '\n')).length = z.reverse.length ↔ z.count '\n' = 0 := by
    rw [List.count_eq_zero]
    constructor
    · intro hz hm
      have hall := (List.takeWhile_prefix _).eq_of_length hz
      rw [← List.mem_reverse, ← hall] at hm
      simpa using List.mem_takeWhile_imp hm
    · intro hn
      rw [List.takeWhile_eq_self_iff.mpr]
      intro c hc
      rw [decide_eq_true_eq]
      rintro rfl
      exact hn (List.mem_reverse.mp hc)
  simp only [Position.after, List.count_append, hcount, List.reverse_append, List.takeWhile_append, hline]
  split
  · next h0 =>
    rw [(hline x).mpr (hcount ▸ h0), (hline y).mpr h0] at hwidth
    rw [List.length_append, List.length_append, hwidth]
  · rw [hwidth]

lemma Program.ofItems_append (is js : List Item) : ofItems (is ++ js) = (ofItems is).append (ofItems js) := by
  simp only [ofItems, append, List.filterMap_append]

lemma locate_lines {f : Failure} (h : f.rest <:+ b) : f.locate (a ++ '\n' :: b) =
    { f.locate b with position :=
      ⟨(f.locate b).position.line + 1 + a.count '\n', (f.locate b).position.column⟩ } := by
  obtain ⟨u, rfl⟩ := h
  have hc : consumed (a ++ '\n' :: (u ++ f.rest)) f.rest = a ++ '\n' :: u := by
    rw [← List.cons_append, ← List.append_assoc, consumed_append]
  simp only [Failure.locate, hc, consumed_append, Position.after_lines]

/-- A text with another one in the lines behind it has the items of both, and the faults of the second. -/
theorem parse_lines {a b : String} {p : Program} (h : Program.parse a = .ok p) :
    (∀ q, Program.parse b = .ok q → Program.parse (a ++ "\n" ++ b) = .ok (p.append q)) ∧
      ∀ e, Program.parse b = .error e → (skipGap b.toList).head? ≠ some '<' →
        Program.parse (a ++ "\n" ++ b) = .error { e with
          position := ⟨e.position.line + 1 + a.toList.count '\n', e.position.column⟩ } := by
  have htext : (a ++ "\n" ++ b).toList = a.toList ++ '\n' :: b.toList := by simp
  obtain ⟨is, ha, rfl⟩ := items_of_parse h
  constructor
  · intro q hq
    obtain ⟨js, hb, rfl⟩ := items_of_parse hq
    have hj : items (a ++ "\n" ++ b).toList = .ok (is ++ js) := by
      rw [htext, items_lines ha (head_of_items hb), hb]
      rfl
    rw [parse_of_items hj, ← Program.ofItems_append]
    rfl
  · intro e he hne
    obtain ⟨f, hf, rfl⟩ := failure_of_parse he
    have hj : items (a ++ "\n" ++ b).toList = .error f := by
      rw [htext, items_error_lines ha hf hne]
    rw [parse_of_items hj, htext]
    change Except.error (f.locate _) = _
    rw [locate_lines (items_error hf).1]

def eventText : String :=
  "event a: b<c> // d"

def eventProgram : Program :=
  ⟨[], [⟨"a", "b<c>"⟩], []⟩

theorem parse_eventText : Program.parse eventText = .ok eventProgram ∧
    Program.parse (eventText ++ "\n" ++ eventText) = .ok (eventProgram.append eventProgram) ∧
      Program.parse (eventText ++ "\n" ++ "on") = .error ⟨⟨2, 3⟩, .identifier, none⟩ := by
  have ha : Program.parse eventText = .ok eventProgram := rfl
  exact ⟨ha, (parse_lines ha).1 _ ha, (parse_lines (b := "on") ha).2 _ rfl (by decide)⟩

end AmmCompiler
