import AmmCompiler.Text.Lines
import Mathlib.Data.List.TakeWhile
import Mathlib.Tactic.Lemma

namespace AmmCompiler.Text

variable {c : Char} {b cs y : List Char}

lemma all_ne (h : c ∉ cs) : ∀ d ∈ cs, decide (d ≠ c) = true :=
  fun _ hd => decide_eq_true fun he => h (he ▸ hd)

lemma lines_newline (y : List Char) : lines ('\n' :: y) = [] :: lines y := by
  rw [lines]

lemma lines_carriage (y : List Char) : lines ('\r' :: '\n' :: y) = lines ('\n' :: y) := by
  rw [lines, lines]

lemma lines_cons (hn : c ≠ '\n') (hr : c = '\r' → y.head? ≠ some '\n') :
    lines (c :: y) = (c :: (lines y).headD []) :: (lines y).tail := by
  rw [lines]
  · cases lines y <;> rfl
  · rintro r rfl rfl
    exact hr rfl rfl
  · exact hn

lemma lines_ne_nil (h : y ≠ []) : lines y ≠ [] := by
  fun_cases lines y with
  | case1 => exact absurd rfl h
  | _ => exact List.cons_ne_nil _ _

lemma lines_append_newline (hb : '\n' ∉ b) (y : List Char) :
    ∃ l, lines (b ++ '\n' :: y) = l :: lines y ∧ (b = l ∨ b = l ++ ['\r']) := by
  induction b with
  | nil => exact ⟨[], lines_newline y, .inl rfl⟩
  | cons c b ih =>
    obtain ⟨hc, hmem⟩ := not_or.mp (mt List.mem_cons.mpr hb)
    by_cases hr : c = '\r' ∧ (b ++ '\n' :: y).head? = some '\n'
    · obtain ⟨rfl, hr⟩ := hr
      cases b with
      | nil => exact ⟨[], by rw [List.cons_append, List.nil_append, lines_carriage, lines_newline], .inr rfl⟩
      | cons d b =>
        obtain rfl := Option.some.inj hr
        exact absurd List.mem_cons_self hmem
    · obtain ⟨l, hl, hb⟩ := ih hmem
      refine ⟨c :: l, ?_, hb.imp (congrArg _) (congrArg _)⟩
      rw [List.cons_append, lines_cons (Ne.symm hc) (fun hcr hh => hr ⟨hcr, hh⟩), hl]
      rfl

lemma lines_single (h : '\n' ∉ y) (hne : y ≠ []) : lines y = [y] := by
  induction y with
  | nil => exact absurd rfl hne
  | cons c y ih =>
    obtain ⟨hc, hmem⟩ := not_or.mp (mt List.mem_cons.mpr h)
    rw [lines_cons (Ne.symm hc) fun _ hh => hmem (List.mem_of_mem_head? hh)]
    cases y with
    | nil => rfl
    | cons d y =>
      rw [ih hmem (List.cons_ne_nil d y)]
      rfl

theorem newline_induction {P : List Char → Prop} (last : ∀ b, '\n' ∉ b → P b)
    (line : ∀ b y, '\n' ∉ b → P y → P (b ++ '\n' :: y)) (cs : List Char) : P cs := by
  by_cases h : '\n' ∈ cs
  · obtain ⟨b, y, hcs, hb⟩ := List.eq_append_cons_of_mem h
    have hlt : y.length < cs.length := by
      rw [hcs, List.length_append, List.length_cons]
      omega
    rw [hcs]
    exact line b y hb (newline_induction last line y)
  · exact last cs h
termination_by cs.length

lemma trimStart_of_head (h : ∀ c ∈ cs.head?, ¬ isBlank c) : trimStart cs = cs := by
  cases cs with
  | nil => rfl
  | cons c r => exact List.dropWhile_cons_of_neg (h c rfl)

lemma trimStart_blank (hb : ∀ c ∈ b, isBlank c) (cs : List Char) : trimStart (b ++ cs) = trimStart cs :=
  List.dropWhile_append_of_pos hb

lemma trimEnd_blank (hb : ∀ c ∈ b, isBlank c) (cs : List Char) : trimEnd (cs ++ b) = trimEnd cs := by
  rw [trimEnd, List.reverse_append, trimStart_blank fun c hc => hb c (List.mem_reverse.mp hc), trimEnd]

lemma trim_blank (hb : ∀ c ∈ b, isBlank c) (cs : List Char) : trim (cs ++ b) = trim cs := by
  rw [trim, trimStart, List.dropWhile_append]
  split
  · next h =>
    have hs : trimStart cs = [] := List.isEmpty_iff.mp h
    rw [trim, hs, ← trimStart, ← List.append_nil b, trimStart_blank hb]
    rfl
  · exact trimEnd_blank hb _

lemma trim_between {a : List Char} (ha : ∀ c ∈ a, isBlank c) (hb : ∀ c ∈ b, isBlank c) (cs : List Char) :
    trim (a ++ cs ++ b) = trim cs := by
  rw [trim_blank hb, trim, trimStart_blank ha, trim]

lemma exists_trimStart (cs : List Char) : ∃ a, cs = a ++ trimStart cs ∧ ∀ c ∈ a, isBlank c :=
  ⟨cs.takeWhile isBlank, List.takeWhile_append_dropWhile.symm, fun _ => List.mem_takeWhile_imp⟩

lemma exists_trim (cs : List Char) :
    ∃ a b, cs = a ++ trim cs ++ b ∧ (∀ c ∈ a, isBlank c) ∧ ∀ c ∈ b, isBlank c := by
  obtain ⟨a, hfront, ha⟩ := exists_trimStart cs
  obtain ⟨b, hback, hb⟩ := exists_trimStart (trimStart cs).reverse
  refine ⟨a, b.reverse, ?_, ha, fun c hc => hb c (List.mem_reverse.mp hc)⟩
  calc cs = a ++ trimStart cs := hfront
    _ = a ++ (b ++ trimStart (trimStart cs).reverse).reverse := by rw [← hback, List.reverse_reverse]
    _ = a ++ trim cs ++ b.reverse := by rw [List.reverse_append, ← List.append_assoc, trim, trimEnd]

lemma trim_trim (cs : List Char) : trim (trim cs) = trim cs := by
  obtain ⟨a, b, hcs, ha, hb⟩ := exists_trim cs
  calc trim (trim cs) = trim (a ++ trim cs ++ b) := (trim_between ha hb _).symm
    _ = trim cs := by rw [← hcs]

end AmmCompiler.Text
