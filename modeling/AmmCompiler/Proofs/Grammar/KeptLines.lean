import AmmCompiler.Proofs.Grammar.Concatenation
import AmmCompiler.Proofs.Text.Lines

namespace AmmCompiler.Source

open Text

/-- A line that is left out begins with white space and a slash. -/
structure KeepsCode (p : List Char → Bool) : Prop where
  nil : p []
  blank : ∀ c l, isBlank c → p (c :: l) = p l
  solid : ∀ c l, ¬ isBlank c → c ≠ '/' → p (c :: l)

variable (p : List Char → Bool)

def keptLines (ls : List (List Char)) : List Char :=
  (ls.filter p).flatMap ('\n' :: ·)

def keptText (cs : List Char) : List Char :=
  (lines cs).headD [] ++ keptLines p (lines cs).tail

variable {p} {before token : Token} {tokens : List Token} {c : Char} {cs g g' y b body t mid rest : List Char}

lemma keptLines_cons (l : List Char) (ls : List (List Char)) : keptLines p (l :: ls) =
    if p l then '\n' :: (l ++ keptLines p ls) else keptLines p ls := by
  rw [keptLines, List.filter_cons]
  split <;> rfl

lemma keptText_newline (y : List Char) : keptText p ('\n' :: y) = keptLines p (lines y) := by
  rw [keptText, lines_newline]
  rfl

lemma keptText_cons (hn : c ≠ '\n') (hr : c = '\r' → y.head? ≠ some '\n') :
    keptText p (c :: y) = c :: keptText p y := by
  rw [keptText, lines_cons hn hr]
  rfl

lemma keptText_append (hn : '\n' ∉ t) (hr : t.getLast? ≠ some '\r') (y : List Char) :
    keptText p (t ++ y) = t ++ keptText p y := by
  induction t with
  | nil => rfl
  | cons c t ih =>
    obtain ⟨hc, hmem⟩ := not_or.mp (mt List.mem_cons.mpr hn)
    rw [List.cons_append, keptText_cons (Ne.symm hc), ih hmem, List.cons_append]
    · intro hl
      rw [List.getLast?_cons, hl] at hr
      exact hr rfl
    · rintro rfl hh
      cases t with
      | nil => exact hr rfl
      | cons d t =>
        obtain rfl := Option.some.inj hh
        exact hmem List.mem_cons_self

lemma keptLines_lines (h : y ≠ []) : keptLines p (lines y) =
    if p ((lines y).headD []) then '\n' :: keptText p y else keptLines p (lines y).tail := by
  obtain ⟨l, ls, hl⟩ := List.exists_cons_of_ne_nil (lines_ne_nil h)
  rw [keptText, hl]
  exact keptLines_cons l ls

lemma keptText_carriage (y : List Char) : keptText p ('\r' :: '\n' :: y) = keptText p ('\n' :: y) := by
  rw [keptText, lines_carriage, keptText]

lemma keptLines_blank (hk : KeepsCode p) (hb : isBlank c) (hn : c ≠ '\n') (hr : c = '\r' → y.head? ≠ some '\n') :
    keptLines p (lines (c :: y)) = '\n' :: c :: keptText p y ∨
      keptLines p (lines (c :: y)) = keptLines p (lines y) := by
  have hl := keptLines_lines (p := p) (List.cons_ne_nil c y)
  rw [keptText_cons hn hr, lines_cons hn hr, List.headD_cons, List.tail_cons, hk.blank c _ hb] at hl
  cases y with
  | nil => exact .inl (by rw [lines_cons hn hr, hl]; exact if_pos hk.nil)
  | cons d y =>
    have hl' := keptLines_lines (p := p) (List.cons_ne_nil d y)
    rw [lines_cons hn hr, hl]
    split
    · exact .inl rfl
    · next hd => exact .inr (by rw [hl', if_neg hd])

lemma keptLines_comment (hb : '\n' ∉ b) (y : List Char) : ∃ b', '\n' ∉ b' ∧
    keptText p ('/' :: '/' :: (b ++ '\n' :: y)) = '/' :: '/' :: (b' ++ keptLines p (lines y)) ∧
      (keptLines p (lines ('/' :: '/' :: (b ++ '\n' :: y))) =
          '\n' :: '/' :: '/' :: (b' ++ keptLines p (lines y)) ∨
        keptLines p (lines ('/' :: '/' :: (b ++ '\n' :: y))) = keptLines p (lines y)) := by
  obtain ⟨b', hl, hbb⟩ := lines_append_newline hb y
  have hb' : '\n' ∉ b' := by
    rcases hbb with rfl | rfl
    · exact hb
    · exact fun hm => hb (List.mem_append_left _ hm)
  have hline : lines ('/' :: '/' :: (b ++ '\n' :: y)) = ('/' :: '/' :: b') :: lines y := by
    have hr : '/' ≠ '\r' := by decide
    rw [lines_cons (by decide) fun he => absurd he hr, lines_cons (by decide) fun he => absurd he hr, hl]
    rfl
  refine ⟨b', hb', ?_, ?_⟩
  · rw [keptText, hline]
    rfl
  · rw [hline, keptLines_cons]
    split
    · exact .inl rfl
    · exact .inr rfl

structure Thinned (g g' : List Char) : Prop where
  isGap : Gap g'
  newline : '\n' ∈ g' ↔ '\n' ∈ g
  nonempty : g' = [] → g = []
  head : ∀ d ∈ g'.head?, d = '\n' ∨ d ∈ g.head?

lemma Thinned.nil : Thinned [] [] :=
  ⟨.nil, .rfl, id, fun _ => .inr⟩

lemma Thinned.blank (h : Thinned g g') (hb : isBlank c) : Thinned (c :: g) (c :: g') :=
  ⟨.blank hb h.isGap, by rw [List.mem_cons, List.mem_cons, h.newline], fun he => absurd he (List.cons_ne_nil _ _),
    fun _ => .inr⟩

lemma Thinned.carriage (h : Thinned ('\n' :: g) g') : Thinned ('\r' :: '\n' :: g) g' := by
  refine ⟨h.isGap, ?_, fun he => absurd (h.nonempty he) (List.cons_ne_nil _ _), ?_⟩
  · rw [h.newline]
    simp
  · intro d hd
    exact .inl ((h.head d hd).elim id fun he => (Option.some.inj he).symm)

lemma Thinned.line (hg : Gap g') : Thinned ('\n' :: g) ('\n' :: g') :=
  ⟨.blank (by decide) hg, by simp, fun he => absurd he (List.cons_ne_nil _ _), fun _ => .inr⟩

lemma Thinned.comment (hb : '\n' ∉ b) (hg : Gap g') :
    Thinned ('/' :: '/' :: (body ++ '\n' :: g)) ('/' :: '/' :: (b ++ '\n' :: g')) :=
  ⟨.comment hb hg, by simp, fun he => absurd he (List.cons_ne_nil _ _), fun _ => .inr⟩

lemma Gap.lines_induction {P : List Char → Prop} (hg : Gap g) (hy : y.head? ≠ some '\n') (nil : P [])
    (newline : ∀ g, P g → P ('\n' :: g)) (carriage : ∀ g, P ('\n' :: g) → P ('\r' :: '\n' :: g))
    (blank : ∀ c g, isBlank c → c ≠ '\n' → (c = '\r' → (g ++ y).head? ≠ some '\n') → P g → P (c :: g))
    (comment : ∀ b g, '\n' ∉ b → P g → P ('/' :: '/' :: (b ++ '\n' :: g))) : P g := by
  induction hg with
  | nil => exact nil
  | @blank c g hc _ ih =>
    by_cases hn : c = '\n'
    · exact hn ▸ newline g ih
    · by_cases hr : c = '\r' ∧ (g ++ y).head? = some '\n'
      · obtain ⟨rfl, hh⟩ := hr
        cases g with
        | nil => exact absurd hh hy
        | cons d g =>
          obtain rfl := Option.some.inj hh
          exact carriage g ih
      · exact blank c g hc hn (fun he hh => hr ⟨he, hh⟩) ih
  | @comment b g hb _ ih => exact comment b g hb ih

structure Thins (p : List Char → Bool) (y g : List Char) : Prop where
  inLine : ∃ g', Thinned g g' ∧ keptText p (g ++ y) = g' ++ keptText p y
  onLine : ∃ g', Gap g' ∧ keptLines p (lines (g ++ y)) = '\n' :: (g' ++ keptText p y)

lemma thins_gap (hk : KeepsCode p) (hg : Gap g) (hc : ¬ isBlank c) (hs : c ≠ '/') (r : List Char) :
    Thins p (c :: r) g := by
  have hn : c ≠ '\n' := (ne_of_isBlank (by decide) hc).symm
  have hr : c ≠ '\r' := (ne_of_isBlank (by decide) hc).symm
  have hhead : (c :: r).head? ≠ some '\n' := fun he => hn (Option.some.inj he)
  refine hg.lines_induction (P := Thins p (c :: r)) hhead ?nil ?newline ?carriage ?blank ?comment
  case nil =>
    refine ⟨⟨[], .nil, rfl⟩, [], .nil, ?_⟩
    rw [List.nil_append, keptLines_lines (List.cons_ne_nil c r), lines_cons hn fun he => absurd he hr, List.headD_cons,
      if_pos (hk.solid _ _ hc hs)]
    rfl
  case newline =>
    rintro g ⟨_, g₂, hg₂, h₂⟩
    refine ⟨⟨'\n' :: g₂, .line hg₂, ?_⟩, '\n' :: g₂, .blank (by decide) hg₂, ?_⟩
    · rw [List.cons_append, keptText_newline, h₂, List.cons_append]
    · rw [List.cons_append, lines_newline, keptLines_cons, if_pos hk.nil, List.nil_append, h₂, List.cons_append]
  case carriage =>
    rintro g ⟨⟨g₁, ht, h₁⟩, g₂, hg₂, h₂⟩
    exact ⟨⟨g₁, ht.carriage, (keptText_carriage _).trans h₁⟩, g₂, hg₂, (congrArg _ (lines_carriage _)).trans h₂⟩
  case blank =>
    rintro d g hd hdn hdr ⟨⟨g₁, ht, h₁⟩, g₂, hg₂, h₂⟩
    refine ⟨⟨d :: g₁, ht.blank hd, by rw [List.cons_append, keptText_cons hdn hdr, h₁, List.cons_append]⟩, ?_⟩
    rcases keptLines_blank hk hd hdn hdr with he | he
    · exact ⟨d :: g₁, .blank hd ht.isGap, by rw [List.cons_append, he, h₁, List.cons_append]⟩
    · exact ⟨g₂, hg₂, he.trans h₂⟩
  case comment =>
    rintro body g hb ⟨_, g₂, hg₂, h₂⟩
    obtain ⟨b, hb', htext, hlines⟩ := keptLines_comment (p := p) hb (g ++ c :: r)
    rw [h₂] at htext hlines
    have hgap : Gap ('/' :: '/' :: (b ++ '\n' :: g₂)) := .comment hb' hg₂
    refine ⟨⟨_, .comment hb' hg₂, by simp [htext]⟩, ?_⟩
    rcases hlines with he | he
    · exact ⟨_, hgap, by simp [he]⟩
    · exact ⟨g₂, hg₂, by simp [he]⟩

lemma finalGap_blank (hb : isBlank c) (h : FinalGap y) : FinalGap (c :: y) := by
  rw [← skipGap_eq_nil, skipGap_blank hb, skipGap_eq_nil]
  exact h

lemma finalGap_comment (hb : '\n' ∉ b) (h : FinalGap y) (hy : ∀ c ∈ y.head?, c = '\n') :
    FinalGap ('/' :: '/' :: (b ++ y)) := by
  cases y with
  | nil => exact .inr ⟨[], b, .nil, hb, by simp⟩
  | cons c y =>
    obtain rfl := hy c rfl
    rw [← skipGap_eq_nil, skipGap_blank (by decide)] at h
    rw [← skipGap_eq_nil, skipGap, skipComment_append hb, h]

lemma head_keptLines (ls : List (List Char)) : ∀ c ∈ (keptLines p ls).head?, c = '\n' := by
  intro c hc
  rw [keptLines] at hc
  cases hf : ls.filter p with
  | nil =>
    rw [hf] at hc
    cases hc
  | cons l ls =>
    rw [hf] at hc
    exact (Option.some.inj hc).symm

lemma finalGap_append (hk : KeepsCode p) (hg : Gap g) (hy : y.head? ≠ some '\n')
    (h : FinalGap (keptText p y)) (hl : FinalGap (keptLines p (lines y))) :
    FinalGap (keptText p (g ++ y)) ∧ FinalGap (keptLines p (lines (g ++ y))) := by
  refine hg.lines_induction (P := fun g => FinalGap (keptText p (g ++ y)) ∧ FinalGap (keptLines p (lines (g ++ y))))
    hy ⟨h, hl⟩ ?newline ?carriage ?blank ?comment
  case newline =>
    intro g ih
    rw [List.cons_append, keptText_newline, lines_newline, keptLines_cons, if_pos hk.nil, List.nil_append]
    exact ⟨ih.2, finalGap_blank (by decide) ih.2⟩
  case carriage =>
    intro g ih
    rw [List.cons_append, List.cons_append, keptText_carriage, lines_carriage]
    exact ih
  case blank =>
    intro c g hc hn hr ih
    have htext : FinalGap (keptText p (c :: g ++ y)) := by
      rw [List.cons_append, keptText_cons hn hr]
      exact finalGap_blank hc ih.1
    refine ⟨htext, ?_⟩
    rcases keptLines_blank hk hc hn hr with he | he
    · rw [List.cons_append, he]
      exact finalGap_blank (by decide) (finalGap_blank hc ih.1)
    · exact (congrArg FinalGap he).mpr ih.2
  case comment =>
    intro body g hb ih
    obtain ⟨b, hb', htext, hlines⟩ := keptLines_comment (p := p) hb (g ++ y)
    have ha : '/' :: '/' :: (body ++ '\n' :: g) ++ y = '/' :: '/' :: (body ++ '\n' :: (g ++ y)) := by simp
    have hcomment := finalGap_comment hb' ih.2 (head_keptLines _)
    rw [ha, htext]
    refine ⟨hcomment, ?_⟩
    rcases hlines with he | he
    · rw [he]
      exact finalGap_blank (by decide) hcomment
    · rw [he]
      exact ih.2

lemma FinalGap.keptText (hk : KeepsCode p) (h : FinalGap y) : FinalGap (keptText p y) := by
  rcases h with h | ⟨g, b, hg, hb, rfl⟩
  · rw [← List.append_nil y]
    exact (finalGap_append (y := []) hk h (by decide) (.inl .nil) (.inl .nil)).1
  · have hcomment : FinalGap ('/' :: '/' :: b) := .inr ⟨[], b, .nil, hb, rfl⟩
    have hl : lines ('/' :: '/' :: b) = [('/' :: '/' :: b)] := lines_single (by simpa using hb) (List.cons_ne_nil _ _)
    refine (finalGap_append hk hg (by simp) ?_ ?_).1
    · rw [Source.keptText, hl]
      simpa [keptLines] using hcomment
    · rw [hl, keptLines_cons]
      split
      · simpa [keptLines] using finalGap_blank (by decide) hcomment
      · exact .inl .nil

def Token.OneLine (t : Token) : Prop :=
  t.Solid ∧ '\n' ∉ t.text ∧ t.text.getLast? ≠ some '\r'

lemma Fits.thinned (h : Fits before g token) (ht : Thinned g g') : Fits before g' token where
  isGap := ht.isGap
  apart hb hc he := h.apart hb hc (ht.nonempty he)
  sameLine hb hn := h.sameLine hb (ht.newline.mp hn)
  lineEnd hb := (h.lineEnd hb).imp_left ht.newline.mpr
  slash f hf hl hh := by
    rcases ht.head '/' hh with he | he
    · exact absurd he (by decide)
    · exact h.slash f hf hl he

lemma Next.keptText (hk : KeepsCode p) (h : Next before token cs rest) (ht : token.OneLine) :
    Next before token (keptText p cs) (keptText p rest) := by
  obtain ⟨g, rfl, hf⟩ := h
  obtain ⟨⟨c, r, hc, hb, hs⟩, hn, hr⟩ := ht
  obtain ⟨g', hg', he⟩ := (thins_gap hk hf.isGap hb hs (r ++ rest)).inLine
  rw [← List.cons_append, ← hc, keptText_append hn hr] at he
  exact ⟨g', he, hf.thinned hg'⟩

lemma Layout.keptText (hk : KeepsCode p) (h : Layout before tokens cs rest) (ht : ∀ t ∈ tokens, t.OneLine) :
    Layout before tokens (keptText p cs) (keptText p rest) := by
  induction h with
  | nil => exact .nil
  | cons hn _ ih =>
    obtain ⟨hfirst, hothers⟩ := List.forall_mem_cons.mp ht
    exact .cons (hn.keptText hk hfirst) (ih hothers)

lemma skipGap_intercalate (ls : List (List Char)) :
    skipGap (['\n'].intercalate (ls.filter p)) = skipGap (keptLines p ls) := by
  rw [keptLines]
  cases ls.filter p with
  | nil => rfl
  | cons l ls =>
    have he : ∀ l : List Char, ['\n'].intercalate (l :: ls) = l ++ ls.flatMap ('\n' :: ·) := by
      induction ls with
      | nil => simp
      | cons m ls ih =>
        intro l
        rw [List.intercalate_cons_cons, ih m, List.append_assoc]
        rfl
    rw [he, List.flatMap_cons, List.cons_append, skipGap_blank (by decide)]

lemma items_keptLines {is : List Item} (hk : KeepsCode p) (h : items cs = .ok is)
    (ht : ∀ i ∈ is, ∀ t ∈ i.tokens, t.OneLine) : items (['\n'].intercalate ((lines cs).filter p)) = .ok is := by
  have hg : skipGap cs = skipGap ('\n' :: cs) := (skipGap_blank (by decide) cs).symm
  rw [items_of_skipGap hg] at h
  obtain ⟨hw, rest, hl, hr⟩ := items_sound h (follows_start _)
  have hl' := hl.keptText hk fun t hm => by
    obtain ⟨i, hi, hm⟩ := List.mem_flatMap.mp hm
    exact ht i hi t hm
  rw [keptText_newline] at hl'
  exact items_of_layout hw (hr.keptText hk) (skipGap_intercalate _) hl'

end AmmCompiler.Source
