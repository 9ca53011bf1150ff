import AmmCompiler.Proofs.Grammar.Fragment

/-! What a reader sees of the text behind the part that it takes: the next character, the first one on
the line and the first one after the gap. -/

namespace AmmCompiler.Source

open Text

structure Alike (r r' : List Char) : Prop where
  head : ∀ c, c ≠ '\n' → (r.head? = some c ↔ r'.head? = some c)
  fraction : r.head? = some '.' → startsWithDigit r.tail = startsWithDigit r'.tail
  stops : Stops r ↔ Stops r'
  inline : ∀ c, c ≠ '\n' → ((skipInlineGap r).head? = some c ↔ (skipInlineGap r').head? = some c)
  bracket : (skipGap r).head? = some '<' ↔ (skipGap r').head? = some '<'

structure SameStart (r r' : List Char) : Prop extends Alike r r' where
  start : (skipGap r).head? = (skipGap r').head?

variable {r r' s s' g : List Char} {c d : Char}

lemma Alike.refl (r : List Char) : Alike r r :=
  ⟨fun _ _ => .rfl, fun _ => rfl, .rfl, fun _ _ => .rfl, .rfl⟩

lemma SameStart.refl (r : List Char) : SameStart r r :=
  ⟨.refl r, rfl⟩

lemma Alike.not_part (h : Alike r r') (hr : ∀ c ∈ r.head?, ¬ isNamePart c) : ∀ c ∈ r'.head?, ¬ isNamePart c := by
  intro c hc hp
  have hn : c ≠ '\n' := by
    rintro rfl
    exact absurd hp (by decide)
  exact hr c ((h.head c hn).mpr hc) hp

lemma startsWithDigit_iff : startsWithDigit r ↔ ∃ c, r.head? = some c ∧ c.isDigit := by
  cases r with
  | nil => simp [startsWithDigit]
  | cons c r => simp [startsWithDigit]

lemma Alike.digit (h : Alike r r') : startsWithDigit r = startsWithDigit r' := by
  rw [Bool.eq_iff_iff, startsWithDigit_iff, startsWithDigit_iff]
  refine exists_congr fun c => and_congr_left fun hd => h.head c ?_
  rintro rfl
  exact absurd hd (by decide)

lemma skipInlineGap_start (hb : ¬ isBlank c) (hs : ∀ r, c = '/' → s = '/' :: r → False) :
    skipInlineGap (c :: s) = c :: s := by
  rw [skipInlineGap, if_neg hb]
  · rintro rfl
    exact hb (by decide)
  · exact hs

lemma stops_cons : Stops (c :: s) ↔ c = '\n' ∨ c = '\x7d' ∨ (c = '/' ∧ s.head? = some '/') := by
  constructor
  · intro h
    rcases h c rfl with hc | hc | ⟨r, hr⟩
    · exact .inl hc
    · exact .inr (.inl hc)
    · obtain ⟨hc, hs⟩ := List.cons.inj hr
      exact .inr (.inr ⟨hc, by rw [hs]; rfl⟩)
  · rintro h d hd
    obtain rfl := Option.some.inj hd
    rcases h with hc | hc | ⟨hc, hs⟩
    · exact .inl hc
    · exact .inr (.inl hc)
    · obtain ⟨r, rfl⟩ := List.head?_eq_some_iff.mp hs
      exact .inr (.inr ⟨r, by rw [hc]⟩)

lemma sameStart_cons (hb : ¬ isBlank c) (hs : c = '/' → s.head? ≠ some '/' ∧ s'.head? ≠ some '/')
    (hd : c = '.' → startsWithDigit s = startsWithDigit s') : SameStart (c :: s) (c :: s') := by
  have hl : ∀ r, c = '/' → s = '/' :: r → False := by
    rintro r hc rfl
    exact (hs hc).1 rfl
  have hr : ∀ r, c = '/' → s' = '/' :: r → False := by
    rintro r hc rfl
    exact (hs hc).2 rfl
  have hnl : c ≠ '\n' := by
    rintro rfl
    exact hb (by decide)
  constructor
  · constructor
    · exact fun _ _ => .rfl
    · intro hc
      exact hd (Option.some.inj hc)
    · rw [stops_cons, stops_cons]
      constructor
      · rintro (h | h | ⟨h, he⟩)
        · exact absurd h hnl
        · exact .inr (.inl h)
        · exact absurd he (hs h).1
      · rintro (h | h | ⟨h, he⟩)
        · exact absurd h hnl
        · exact .inr (.inl h)
        · exact absurd he (hs h).2
    · rw [skipInlineGap_start hb hl, skipInlineGap_start hb hr]
      exact fun _ _ => .rfl
    · rw [skipGap_start hb hl, skipGap_start hb hr]
      exact .rfl
  · rw [skipGap_start hb hl, skipGap_start hb hr]
    rfl

def Opens (c : Char) : Prop :=
  ¬ isBlank c ∧ c ≠ '/' ∧ c ≠ '.'

instance : DecidablePred Opens :=
  fun _ => inferInstanceAs (Decidable (_ ∧ _))

lemma opens_of_isNameStart (h : isNameStart c) : Opens c := by
  refine ⟨not_isBlank_of_isNamePart (isNamePart_of_isNameStart h), ?_, ?_⟩
  · rintro rfl
    exact absurd h (by decide)
  · rintro rfl
    exact absurd h (by decide)

lemma opens_of_number (h : c.isDigit ∨ c = '-') : Opens c := by
  rcases h with h | rfl
  · refine ⟨not_isBlank_of_isNamePart (isNamePart_of_isDigit h), ?_, ?_⟩
    · rintro rfl
      exact absurd h (by decide)
    · rintro rfl
      exact absurd h (by decide)
  · decide

lemma Opens.sameStart (h : Opens c) (s s' : List Char) : SameStart (c :: s) (c :: s') :=
  sameStart_cons h.1 (fun he => absurd he h.2.1) fun he => absurd he h.2.2

lemma start_of_skipGap (h : skipGap (c :: s) = c :: s) : ¬ isBlank c ∧ (c = '/' → s.head? ≠ some '/') := by
  constructor
  · intro hb
    rw [skipGap_blank hb] at h
    have hl := skipGap_length s
    rw [h, List.length_cons] at hl
    omega
  · rintro rfl hs
    obtain ⟨r, rfl⟩ := List.head?_eq_some_iff.mp hs
    rw [skipGap] at h
    have hl := (skip_suffix.2 r).length_le
    rw [h, List.length_cons, List.length_cons] at hl
    omega

lemma skipGap_of_start (hb : ¬ isBlank c) (hs : c = '/' → s.head? ≠ some '/') : skipGap (c :: s) = c :: s := by
  refine skipGap_start hb ?_
  rintro r hc rfl
  exact hs hc rfl

lemma sameStart_pair (h : skipGap (c :: d :: s) = c :: d :: s) (s' : List Char) :
    SameStart (c :: d :: s) (c :: d :: s') ∧ skipGap (c :: d :: s') = c :: d :: s' := by
  obtain ⟨hb, hs⟩ := start_of_skipGap h
  exact ⟨sameStart_cons hb (fun hc => ⟨hs hc, hs hc⟩) fun _ => rfl, skipGap_of_start hb hs⟩

lemma Alike.blank (h : Alike r r') (hc : isBlank c) : Alike (c :: r) (c :: r') := by
  constructor
  · exact fun _ _ => .rfl
  · intro he
    obtain rfl := Option.some.inj he
    exact absurd hc (by decide)
  · have hb : c ≠ '\x7d' := ne_of_isBlank hc (by decide)
    have hs : c ≠ '/' := ne_of_isBlank hc (by decide)
    simp only [stops_cons, hb, hs, false_and, or_false]
  · by_cases hn : c = '\n'
    · subst hn
      rw [skipInlineGap, skipInlineGap]
      exact fun _ _ => .rfl
    · rw [skipInlineGap_blank hc hn, skipInlineGap_blank hc hn]
      exact h.inline
  · rw [skipGap_blank hc, skipGap_blank hc]
    exact h.bracket

lemma head_skipInlineGap_comment {body : List Char} (t : List Char) (hb : '\n' ∉ body) :
    (skipInlineGap ('/' :: '/' :: body)).head? = none ∧
      (skipInlineGap ('/' :: '/' :: (body ++ '\n' :: t))).head? = some '\n' := by
  have hg : Gap ('/' :: '/' :: (body ++ ['\n'])) := .comment hb .nil
  refine ⟨?_, by simpa using head_skipInlineGap_append hg (by simp) t⟩
  rw [skipInlineGap, List.head?_eq_none_iff, List.dropWhile_eq_nil_iff]
  intro c hc
  simpa using fun he : c = '\n' => hb (he ▸ hc)

lemma Alike.comment {body : List Char} (h : Alike r r') (hb : '\n' ∉ body) :
    Alike ('/' :: '/' :: (body ++ '\n' :: r)) ('/' :: '/' :: (body ++ '\n' :: r')) := by
  have hline (x : List Char) := (head_skipInlineGap_comment x hb).2
  constructor
  · exact fun _ _ => .rfl
  · intro he
    cases he
  · simp [stops_cons]
  · intro c hc
    rw [hline, hline]
  · rw [skipGap, skipGap, skipComment_append hb, skipComment_append hb]
    exact h.bracket

lemma Alike.gap (h : Alike r r') (hg : Gap g) : Alike (g ++ r) (g ++ r') := by
  induction hg with
  | nil => exact h
  | blank hc _ ih => exact ih.blank hc
  | comment hb _ ih => simpa using ih.comment hb

lemma SameStart.gap (h : SameStart r r') (hg : Gap g) : SameStart (g ++ r) (g ++ r') := by
  refine ⟨h.toAlike.gap hg, ?_⟩
  rw [skipGap_append hg, skipGap_append hg]
  exact h.start

lemma Alike.fragment {u : List Char} (h : Alike r r') (hu : Unbroken u)
    (hl : u.getLast? = some '/' → r.head? ≠ some '/') : Alike (u ++ r) (u ++ r') := by
  induction hu with
  | nil => exact h
  | string _ _ _ => exact (Opens.sameStart (by decide) _ _).toAlike
  | @plain c u hn hb hq hs hu ih =>
    have hlast : u.getLast? = some '/' → r.head? ≠ some '/' := by
      intro he
      apply hl
      rw [List.getLast?_cons, he]
      rfl
    have hnext := ih hlast
    by_cases hc : isBlank c
    · exact hnext.blank hc
    · refine (sameStart_cons hc ?_ ?_).toAlike
      · rintro rfl
        have hx : (u ++ r).head? ≠ some '/' := by
          cases u with
          | nil => exact hl rfl
          | cons d u => exact fun he => hs ⟨rfl, he⟩
        exact ⟨hx, fun he => hx ((hnext.head '/' (by decide)).mpr he)⟩
      · exact fun _ => hnext.digit

lemma head_newline (s t : List Char) (hc : c ≠ '\n') :
    s.head? = some c ↔ (s ++ '\n' :: t).head? = some c := by
  cases s with
  | nil => simp [hc.symm]
  | cons d s => exact .rfl

lemma skipGap_extend (h : skipGap r = c :: s) (t : List Char) :
    skipGap (r ++ '\n' :: t) = c :: (s ++ '\n' :: t) := by
  obtain ⟨g, hg, rfl⟩ := exists_gap h
  rw [skipGap_append hg] at h
  obtain ⟨hb, hs⟩ := start_of_skipGap h
  rw [List.append_assoc, skipGap_append hg, List.cons_append, skipGap_of_start hb]
  intro hc he
  exact hs hc ((head_newline s t (by decide)).mpr he)

lemma FinalGap.extend (h : FinalGap r) : Gap (r ++ ['\n']) := by
  rcases h with h | ⟨g, body, hg, hb, rfl⟩
  · exact h.append (.blank (by decide) .nil)
  · simpa using hg.append (.comment hb .nil)

lemma skipGap_newline (h : skipGap r = []) (t : List Char) : skipGap (r ++ '\n' :: t) = skipGap t := by
  have hg := skipGap_append (skipGap_eq_nil.mp h).extend t
  rwa [List.append_assoc, List.cons_append, List.nil_append] at hg

lemma alike_newline {t : List Char} (h : skipGap r = [] → (skipGap t).head? ≠ some '<') :
    Alike r (r ++ '\n' :: t) := by
  cases hr : skipGap r with
  | cons c s =>
    obtain ⟨g, hg, rfl⟩ := exists_gap hr
    rw [skipGap_append hg] at hr
    obtain ⟨hb, hs⟩ := start_of_skipGap hr
    rw [List.append_assoc]
    refine (sameStart_cons hb ?_ ?_).toAlike.gap hg
    · intro hc
      exact ⟨hs hc, fun he => hs hc ((head_newline s t (by decide)).mpr he)⟩
    · intro _
      cases s <;> rfl
  | nil =>
    have hend {u : List Char} (hu : skipGap u = []) : (skipGap u).head? = some '<' ↔
        (skipGap (u ++ '\n' :: t)).head? = some '<' := by
      rw [skipGap_newline hu, hu]
      constructor
      · intro he
        cases he
      · intro he
        exact absurd he (h hr)
    rcases skipGap_eq_nil.mp hr with hg | ⟨g, body, hg, hbody, rfl⟩
    · have hnil : Alike [] ('\n' :: t) := by
        constructor
        · exact fun c hc => head_newline [] t hc
        · intro he
          cases he
        · exact iff_of_true stops_nil (stops_cons.mpr (.inl rfl))
        · intro c hc
          rw [skipInlineGap, skipInlineGap]
          exact head_newline [] t hc
        · exact hend (skipGap_eq_nil.mpr (.inl .nil))
      simpa using hnil.gap hg
    · have hline := head_skipInlineGap_comment t hbody
      have hcomment : Alike ('/' :: '/' :: body) ('/' :: '/' :: (body ++ '\n' :: t)) := by
        constructor
        · exact fun _ _ => .rfl
        · intro he
          cases he
        · simp [stops_cons]
        · intro c hc
          rw [hline.1, hline.2]
          simp [hc.symm]
        · exact hend (skipGap_eq_nil.mpr (.inr ⟨[], body, .nil, hbody, rfl⟩))
      simpa using hcomment.gap hg

end AmmCompiler.Source
