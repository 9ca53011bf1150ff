import AmmCompiler.Source.Lexeme
import Mathlib.Data.List.Basic

namespace AmmCompiler.Source

open Text

inductive Gap : List Char → Prop
  | nil : Gap []
  | blank {c : Char} {g : List Char} : isBlank c → Gap g → Gap (c :: g)
  | comment {body g : List Char} : '\n' ∉ body → Gap g → Gap ('/' :: '/' :: (body ++ '\n' :: g))

def FinalGap (cs : List Char) : Prop :=
  Gap cs ∨ ∃ g body, Gap g ∧ '\n' ∉ body ∧ cs = g ++ '/' :: '/' :: body

lemma isAlpha_iff {c : Char} :
    c.isAlpha ↔ (65 ≤ c.toNat ∧ c.toNat ≤ 90) ∨ (97 ≤ c.toNat ∧ c.toNat ≤ 122) := by
  change (decide (c.val ≥ 65 ∧ c.val ≤ 90) ||
    (decide (c.val ≥ 97) && decide (c.val ≤ 122))) = true ↔ _
  simp only [Bool.or_eq_true, Bool.and_eq_true, decide_eq_true_eq]
  rfl

lemma isDigit_iff {c : Char} : c.isDigit ↔ 48 ≤ c.toNat ∧ c.toNat ≤ 57 :=
  Char.isDigit_iff_toNat

lemma isNameStart_iff {c : Char} : isNameStart c ↔ c.isAlpha ∨ c = '_' := by
  rw [isNameStart, Bool.or_eq_true, beq_iff_eq]

lemma isNamePart_iff {c : Char} : isNamePart c ↔ isNameStart c ∨ c.isDigit := by
  change ((c.isAlpha || c.isDigit) || c == '_') = true ↔ _
  rw [Bool.or_eq_true, Bool.or_eq_true, beq_iff_eq, isNameStart_iff, or_right_comm]

lemma isNamePart_of_isNameStart {c : Char} (h : isNameStart c) : isNamePart c :=
  isNamePart_iff.mpr (.inl h)

lemma isNamePart_of_isDigit {c : Char} (h : c.isDigit) : isNamePart c :=
  isNamePart_iff.mpr (.inr h)

lemma not_isDigit_of_isNameStart {c : Char} (h : isNameStart c) : ¬ c.isDigit := by
  intro hd
  rw [isDigit_iff] at hd
  rcases isNameStart_iff.mp h with h | rfl
  · rw [isAlpha_iff] at h
    omega
  · exact absurd hd (by decide)

lemma isBlank_range {c : Char} (h : isBlank c) : c.toNat ≤ 32 ∨ 133 ≤ c.toNat := by
  simp [isBlank, blankRanges] at h
  omega

lemma not_isBlank_of_isNamePart {c : Char} (h : isNamePart c) : ¬ isBlank c := by
  intro hb
  have hr := isBlank_range hb
  rcases isNamePart_iff.mp h with h | h
  · rcases isNameStart_iff.mp h with h | rfl
    · rw [isAlpha_iff] at h
      omega
    · exact absurd hb (by decide)
  · rw [isDigit_iff] at h
    omega

lemma ne_of_isBlank {c d : Char} (h : isBlank c) (hd : ¬ isBlank d) : c ≠ d := by
  rintro rfl
  exact hd h

lemma skipGap_blank {c : Char} (h : isBlank c) (rest : List Char) : skipGap (c :: rest) = skipGap rest := by
  rw [skipGap, if_pos h]
  rintro r rfl
  exact absurd h (by decide)

lemma skipGap_start {c : Char} {rest : List Char} (h : ¬ isBlank c)
    (hs : ∀ r, c = '/' → rest = '/' :: r → False) : skipGap (c :: rest) = c :: rest := by
  rw [skipGap, if_neg h]
  exact hs

lemma skipGap_solid {c : Char} (h : ¬ isBlank c) (hs : c ≠ '/') (rest : List Char) :
    skipGap (c :: rest) = c :: rest :=
  skipGap_start h fun _ he => absurd he hs

lemma skipComment_append {body : List Char} (h : '\n' ∉ body) (rest : List Char) :
    skipComment (body ++ '\n' :: rest) = skipGap rest := by
  induction body with
  | nil => rw [List.nil_append, skipComment]
  | cons c body ih =>
    rw [List.cons_append, skipComment, ih fun hm => h (List.mem_cons_of_mem c hm)]
    rintro rfl
    exact h List.mem_cons_self

lemma skipComment_open {body : List Char} (h : '\n' ∉ body) : skipComment body = [] := by
  induction body with
  | nil => rw [skipComment]
  | cons c body ih =>
    rw [skipComment, ih fun hm => h (List.mem_cons_of_mem c hm)]
    rintro rfl
    exact h List.mem_cons_self

lemma skipGap_append {g : List Char} (h : Gap g) (rest : List Char) :
    skipGap (g ++ rest) = skipGap rest := by
  induction h with
  | nil => rfl
  | blank hc _ ih => rw [List.cons_append, skipGap_blank hc, ih]
  | @comment body g hb _ ih =>
    have he : '/' :: '/' :: (body ++ '\n' :: g) ++ rest = '/' :: '/' :: (body ++ '\n' :: (g ++ rest)) := by simp
    rw [he, skipGap, skipComment_append hb, ih]

lemma skip_eq_cons {c : Char} {r : List Char} :
    (∀ cs, skipGap cs = c :: r → ∃ g, Gap g ∧ cs = g ++ c :: r) ∧
      ∀ cs, skipComment cs = c :: r → ∃ body g, '\n' ∉ body ∧ Gap g ∧ cs = body ++ '\n' :: (g ++ c :: r) := by
  apply skipGap.mutual_induct
  · intro h
    rw [skipGap] at h
    cases h
  · intro rest ih h
    rw [skipGap] at h
    obtain ⟨body, g, hb, hg, rfl⟩ := ih h
    exact ⟨_, .comment hb hg, by simp⟩
  · intro d rest _ hd ih h
    rw [skipGap_blank hd] at h
    obtain ⟨g, hg, rfl⟩ := ih h
    exact ⟨d :: g, .blank hd hg, rfl⟩
  · intro d rest hs hd h
    rw [skipGap_start hd hs] at h
    exact ⟨[], .nil, h⟩
  · intro h
    rw [skipComment] at h
    cases h
  · intro rest ih h
    rw [skipComment] at h
    obtain ⟨g, hg, rfl⟩ := ih h
    exact ⟨[], g, by simp, hg, rfl⟩
  · intro d rest hd ih h
    rw [skipComment] at h
    · obtain ⟨body, g, hb, hg, rfl⟩ := ih h
      refine ⟨d :: body, g, ?_, hg, rfl⟩
      intro hm
      rcases List.mem_cons.mp hm with hm | hm
      · exact hd hm.symm
      · exact hb hm
    · exact hd

lemma exists_gap {cs : List Char} {c : Char} {r : List Char} (h : skipGap cs = c :: r) :
    ∃ g, Gap g ∧ cs = g ++ c :: r :=
  skip_eq_cons.1 cs h

lemma skip_eq_nil :
    (∀ cs, skipGap cs = [] → FinalGap cs) ∧
      ∀ cs, skipComment cs = [] → '\n' ∉ cs ∨ ∃ body g, '\n' ∉ body ∧ FinalGap g ∧ cs = body ++ '\n' :: g := by
  apply skipGap.mutual_induct
  · intro _
    exact .inl .nil
  · intro rest ih h
    rw [skipGap] at h
    rcases ih h with hn | ⟨body, g, hb, hg | ⟨g', body', hg', hb', rfl⟩, rfl⟩
    · exact .inr ⟨[], rest, .nil, hn, rfl⟩
    · exact .inl (.comment hb hg)
    · exact .inr ⟨_, body', .comment hb hg', hb', by simp⟩
  · intro d rest _ hd ih h
    rw [skipGap_blank hd] at h
    rcases ih h with hg | ⟨g, body, hg, hb, rfl⟩
    · exact .inl (.blank hd hg)
    · exact .inr ⟨d :: g, body, .blank hd hg, hb, rfl⟩
  · intro d rest hs hd h
    rw [skipGap_start hd hs] at h
    cases h
  · intro _
    exact .inl List.not_mem_nil
  · intro rest ih h
    rw [skipComment] at h
    exact .inr ⟨[], rest, List.not_mem_nil, ih h, rfl⟩
  · intro d rest hd ih h
    rw [skipComment] at h
    · have hne : '\n' ≠ d := fun he => hd he.symm
      rcases ih h with hn | ⟨body, g, hb, hg, rfl⟩
      · exact .inl (List.not_mem_cons_of_ne_of_not_mem hne hn)
      · exact .inr ⟨d :: body, g, List.not_mem_cons_of_ne_of_not_mem hne hb, hg, rfl⟩
    · exact hd

lemma skipGap_eq_nil {cs : List Char} : skipGap cs = [] ↔ FinalGap cs := by
  constructor
  · exact skip_eq_nil.1 cs
  · rintro (h | ⟨g, body, h, hb, rfl⟩)
    · have hh := skipGap_append h []
      rwa [List.append_nil, skipGap] at hh
    · rw [skipGap_append h, skipGap, skipComment_open hb]

lemma skipGap_skipGap (cs : List Char) : skipGap (skipGap cs) = skipGap cs := by
  cases h : skipGap cs with
  | nil => rw [skipGap]
  | cons c r =>
    obtain ⟨g, hg, rfl⟩ := exists_gap h
    rwa [skipGap_append hg] at h

lemma Gap.append {g g' : List Char} (hg : Gap g) (hg' : Gap g') : Gap (g ++ g') := by
  induction hg with
  | nil => exact hg'
  | blank hc _ ih => exact .blank hc ih
  | comment hb _ ih => simpa using Gap.comment hb ih

lemma Gap.head {c : Char} {g : List Char} (h : Gap (c :: g)) : isBlank c ∨ c = '/' := by
  cases h with
  | blank hc _ => exact .inl hc
  | comment _ _ => exact .inr rfl

lemma FinalGap.head {c : Char} {g : List Char} (h : FinalGap (c :: g)) : isBlank c ∨ c = '/' := by
  rcases h with h | ⟨g', body, hg, _, he⟩
  · exact h.head
  · cases g' with
    | nil =>
      obtain ⟨rfl, _⟩ := List.cons.inj he
      exact .inr rfl
    | cons d g' =>
      obtain ⟨rfl, _⟩ := List.cons.inj he
      exact hg.head

lemma skipInlineGap_blank {c : Char} (h : isBlank c) (hn : c ≠ '\n') (rest : List Char) :
    skipInlineGap (c :: rest) = skipInlineGap rest := by
  rw [skipInlineGap, if_pos h]
  · exact hn
  · rintro r rfl
    exact absurd h (by decide)

lemma skipInlineGap_solid {c : Char} (h : ¬ isBlank c) (hs : c ≠ '/') (rest : List Char) :
    skipInlineGap (c :: rest) = c :: rest := by
  rw [skipInlineGap, if_neg h]
  · rintro rfl
    exact h (by decide)
  · rintro r rfl
    exact absurd rfl hs

lemma skipInlineGap_append {g : List Char} (h : Gap g) (hn : '\n' ∉ g) (rest : List Char) :
    skipInlineGap (g ++ rest) = skipInlineGap rest := by
  induction h with
  | nil => rfl
  | blank hc _ ih =>
    rw [List.mem_cons, not_or] at hn
    rw [List.cons_append, skipInlineGap_blank hc (Ne.symm hn.1), ih hn.2]
  | comment _ _ _ => simp at hn

lemma head_dropWhile_newline {cs : List Char} {c : Char}
    (h : (cs.dropWhile (· ≠ '\n')).head? = some c) : c = '\n' := by
  have hc := List.head?_dropWhile_not (· ≠ '\n') cs
  rw [h] at hc
  simpa using hc

lemma head_skipInlineGap_append {g : List Char} (h : Gap g) (hn : '\n' ∈ g) (rest : List Char) :
    (skipInlineGap (g ++ rest)).head? = some '\n' := by
  induction h with
  | nil => exact absurd hn List.not_mem_nil
  | @blank c g hc _ ih =>
    by_cases he : c = '\n'
    · rw [he, List.cons_append, skipInlineGap, List.head?_cons]
    · rw [List.cons_append, skipInlineGap_blank hc he]
      exact ih ((List.mem_cons.mp hn).resolve_left fun hm => he hm.symm)
  | @comment body g hb _ _ =>
    have he : '/' :: '/' :: (body ++ '\n' :: g) ++ rest = '/' :: '/' :: (body ++ '\n' :: (g ++ rest)) := by simp
    rw [he, skipInlineGap, List.dropWhile_append_of_pos]
    · simp
    · intro d hd
      simpa using fun he : d = '\n' => hb (he ▸ hd)

lemma skipGap_of_skipInlineGap {cs : List Char} {c : Char} {r : List Char}
    (h : skipInlineGap cs = c :: r) (hc : c ≠ '\n') : skipGap cs = c :: r := by
  fun_induction skipInlineGap cs with
  | case1 => cases h
  | case2 rest =>
    obtain ⟨rfl, _⟩ := List.cons.inj h
    exact absurd rfl hc
  | case3 rest => exact absurd (head_dropWhile_newline (by rw [h, List.head?_cons])) hc
  | case4 d rest _ _ hd ih => rw [skipGap_blank hd, ih h]
  | case5 d rest _ hs hd => exact (skipGap_start hd hs).trans h

end AmmCompiler.Source
