import AmmCompiler.Proofs.Grammar.Lexeme

namespace AmmCompiler.Source

open Text

mutual

inductive IsType : List Char → Prop
  | name {w : List Char} : IsName w → IsType w
  | generic {w g as : List Char} : IsName w → Gap g → TypeArguments as → IsType (w ++ (g ++ '<' :: as))

inductive TypeArguments : List Char → Prop
  | last {g t g' : List Char} : Gap g → IsType t → Gap g' → TypeArguments (g ++ (t ++ (g' ++ ['>'])))
  | cons {g t g' as : List Char} : Gap g → IsType t → Gap g' → TypeArguments as →
      TypeArguments (g ++ (t ++ (g' ++ ',' :: as)))

end

def EndsType (cs : List Char) : Prop :=
  (∀ c ∈ cs.head?, ¬ isNamePart c) ∧ (skipGap cs).head? ≠ some '<'

variable {before : Token} {cs rest : List Char} {c : Char}

lemma symbol?_eq_none : symbol? c cs = none ↔ (skipGap cs).head? ≠ some c := by
  simp only [symbol?]
  cases skipGap cs with
  | nil => simp
  | cons d r =>
    simp only [List.head?_cons, ne_eq, Option.some.injEq]
    split <;> simp_all

lemma symbol?_append {g : List Char} (hg : Gap g) (hb : ¬ isBlank c) (hs : c ≠ '/') (rest : List Char) :
    symbol? c (g ++ c :: rest) = some rest := by
  simp only [symbol?, skipGap_append hg, skipGap_solid hb hs, if_pos]

lemma gap_of_symbol? (h : symbol? c cs = some rest) : ∃ g, Gap g ∧ cs = g ++ c :: rest :=
  exists_gap (skipGap_of_symbol? h)

lemma IsName.getLast? {w : List Char} (h : IsName w) : ∃ c, w.getLast? = some c ∧ isNamePart c := by
  obtain ⟨c, r, rfl, hc, hr⟩ := h
  cases hl : r.getLast? with
  | none => exact ⟨c, by rw [List.getLast?_cons, hl]; rfl, isNamePart_of_isNameStart hc⟩
  | some d => exact ⟨d, by rw [List.getLast?_cons, hl]; rfl, hr d (List.mem_of_mem_getLast? hl)⟩

lemma TypeArguments.getLast? {as : List Char} (h : TypeArguments as) : as.getLast? = some '>' := by
  cases h with
  | last _ _ _ => simp
  | cons _ _ _ h =>
    have ih := h.getLast?
    simp [List.getLast?_append, List.getLast?_cons, ih]
termination_by as.length
decreasing_by
  subst_vars
  simp only [List.length_append, List.length_cons]
  omega

lemma IsType.head {t : List Char} (h : IsType t) : ∃ c r, t = c :: r ∧ isNameStart c := by
  cases h with
  | name hw =>
    obtain ⟨c, r, rfl, hc, _⟩ := hw
    exact ⟨c, r, rfl, hc⟩
  | generic hw _ _ =>
    obtain ⟨c, r, rfl, hc, _⟩ := hw
    exact ⟨c, _, rfl, hc⟩

lemma head_gap_append {g : List Char} (hg : Gap g) (hp : ¬ isNamePart c) (rest : List Char) :
    ∀ d ∈ (g ++ c :: rest).head?, ¬ isNamePart d := by
  intro d hd hn
  cases g with
  | nil =>
    obtain rfl := Option.some.inj hd
    exact hp hn
  | cons e g =>
    obtain rfl := Option.some.inj hd
    rcases hg.head with he | rfl
    · exact not_isBlank_of_isNamePart hn he
    · exact absurd hn (by decide)

lemma endsType_gap {g : List Char} (hg : Gap g) (hp : ¬ isNamePart c) (hb : ¬ isBlank c) (hs : c ≠ '/')
    (hlt : c ≠ '<') (rest : List Char) : EndsType (g ++ c :: rest) := by
  refine ⟨head_gap_append hg hp rest, ?_⟩
  · rw [skipGap_append hg, skipGap_solid hb hs]
    intro he
    exact hlt (Option.some.inj he)

lemma skipGap_type {g t : List Char} (hg : Gap g) (ht : IsType t) (rest : List Char) :
    skipGap (g ++ (t ++ rest)) = t ++ rest := by
  obtain ⟨c, r, rfl, hc⟩ := ht.head
  rw [skipGap_append hg, List.cons_append, skipGap_solid]
  · exact not_isBlank_of_isNamePart (isNamePart_of_isNameStart hc)
  · rintro rfl
    exact absurd hc (by decide)

mutual

theorem typeWith_append {t cs rest : List Char} (h : IsType t) (hr : t.getLast? ≠ some '>' → EndsType rest)
    (hg : skipGap cs = t ++ rest) : typeWith typeArguments cs = .ok rest := by
  cases h with
  | name hw =>
    obtain ⟨c, hc, hp⟩ := hw.getLast?
    have he : EndsType rest := by
      apply hr
      rw [hc]
      intro he
      obtain rfl := Option.some.inj he
      exact absurd hp (by decide)
    have hn : name cs = .ok (.ofList t, rest) := by
      apply name_of_skipGap _ _ he.1 <;> rwa [String.toList_ofList]
    simp only [typeWith, hn, bind, Except.bind, symbol?_eq_none.mpr he.2]
  | @generic w g as hw hgap has =>
    have hhead : ∀ c ∈ (g ++ '<' :: (as ++ rest)).head?, ¬ isNamePart c :=
      head_gap_append hgap (by decide) _
    have hn : name cs = .ok (.ofList w, g ++ '<' :: (as ++ rest)) := by
      apply name_of_skipGap _ _ hhead
      · rw [String.toList_ofList, hg]
        simp
      · rwa [String.toList_ofList]
    simp only [typeWith, hn, bind, Except.bind, symbol?_append hgap (by decide : ¬ isBlank '<') (by decide)]
    exact typeArguments_append has rest
termination_by t.length
decreasing_by
  subst_vars
  simp only [List.length_append, List.length_cons]
  omega

theorem typeArguments_append {as : List Char} (h : TypeArguments as) (rest : List Char) :
    typeArguments (as ++ rest) = .ok rest := by
  rw [typeArguments_eq]
  cases h with
  | @last g t g' hg ht hg' =>
    have he := endsType_gap hg' (c := '>') (by decide) (by decide) (by decide) (by decide) rest
    have hw := typeWith_append ht (fun _ => he) (skipGap_type hg ht _)
    have hc : symbol? ',' (g' ++ '>' :: rest) = none := by
      rw [symbol?_eq_none, skipGap_append hg', skipGap_solid (by decide) (by decide)]
      intro he
      cases he
    have hs : symbol '>' (g' ++ '>' :: rest) = .ok rest :=
      symbol_eq_ok.mpr (symbol?_append hg' (by decide) (by decide) rest)
    simp only [List.append_assoc, List.cons_append, List.nil_append, typeArgumentsWith, hw, bind, Except.bind,
      hc, hs]
  | @cons g t g' as hg ht hg' has =>
    have he := endsType_gap hg' (c := ',') (by decide) (by decide) (by decide) (by decide) (as ++ rest)
    have hw := typeWith_append ht (fun _ => he) (skipGap_type hg ht _)
    have hc : symbol? ',' (g' ++ ',' :: (as ++ rest)) = some (as ++ rest) :=
      symbol?_append hg' (by decide) (by decide) _
    simp only [List.append_assoc, List.cons_append, typeArgumentsWith, hw, bind, Except.bind, hc]
    exact typeArguments_append has rest
termination_by as.length
decreasing_by
  all_goals
    subst_vars
    simp only [List.length_append, List.length_cons]
    omega

end

lemma isType_of_typeWith {p : Skipper}
    (hp : ∀ cs rest, p cs = .ok rest → ∃ as, TypeArguments as ∧ cs = as ++ rest) (h : typeWith p cs = .ok rest) :
    ∃ t, IsType t ∧ skipGap cs = t ++ rest ∧ (t.getLast? ≠ some '>' → ∀ c ∈ rest.head?, ¬ isNamePart c) := by
  simp only [typeWith, bind_eq_ok, Prod.exists] at h
  obtain ⟨w, r, hn, h⟩ := h
  obtain ⟨hw, hg, hr⟩ := skipGap_of_name hn
  split at h
  · next r' hs =>
    obtain ⟨g, hgap, rfl⟩ := gap_of_symbol? hs
    obtain ⟨as, has, rfl⟩ := hp _ _ h
    refine ⟨_, .generic hw hgap has, by rw [hg]; simp, ?_⟩
    intro hl
    exact absurd (by simp [List.getLast?_append, List.getLast?_cons, has.getLast?]) hl
  · obtain rfl := Except.ok.inj h
    exact ⟨_, .name hw, hg, fun _ => hr⟩

lemma arguments_of_typeArguments (h : typeArguments cs = .ok rest) : ∃ as, TypeArguments as ∧ cs = as ++ rest := by
  refine descend_ok (Q := fun cs rest => ∃ as, TypeArguments as ∧ cs = as ++ rest) ?_ h
  intro p hp cs rest h
  simp only [typeArgumentsWith, bind_eq_ok] at h
  obtain ⟨r, hw, h⟩ := h
  obtain ⟨t, ht, hg, _⟩ := isType_of_typeWith hp hw
  obtain ⟨c, u, rfl, _⟩ := ht.head
  obtain ⟨g, hgap, rfl⟩ := exists_gap hg
  split at h
  · next r' hs =>
    obtain ⟨g', hg', rfl⟩ := gap_of_symbol? hs
    obtain ⟨as, has, rfl⟩ := hp _ _ h
    exact ⟨_, .cons hgap ht hg' has, by simp⟩
  · obtain ⟨g', hg', rfl⟩ := gap_of_symbol? (symbol_eq_ok.mp h)
    exact ⟨_, .last hgap ht hg', by simp⟩

lemma IsType.solid {l : String} (h : IsType l.toList) : (Token.label l).Solid := by
  obtain ⟨c, r, he, hc⟩ := h.head
  refine ⟨c, r, he, not_isBlank_of_isNamePart (isNamePart_of_isNameStart hc), ?_⟩
  rintro rfl
  exact absurd hc (by decide)

lemma typeLabel_of_next {l : String} (h : Next before (.label l) cs rest) (hl : IsType l.toList)
    (hr : Follows (.label l) rest) (hs : (skipGap rest).head? ≠ some '<') : typeLabel cs = .ok (l, rest) := by
  have hg : skipGap cs = l.toList ++ rest := h.skipGap hl.solid
  have hw : typeWith typeArguments cs = .ok rest := by
    refine typeWith_append hl (fun hlast => ⟨hr.apart ?_, hs⟩) hg
    simpa [Token.endsInWord] using hlast
  simp only [typeLabel, hw, bind, Except.bind, pure, Except.pure, hg, consumed_append, String.ofList_toList]

lemma next_of_typeLabel {l : String} (h : typeLabel cs = .ok (l, rest)) (hf : Follows before cs) :
    IsType l.toList ∧ Next before (.label l) cs rest ∧ Follows (.label l) rest := by
  simp only [typeLabel, bind_eq_ok, pure_eq_ok, Prod.mk.injEq] at h
  obtain ⟨r, hw, rfl, rfl⟩ := h
  obtain ⟨t, ht, hg, hr⟩ := isType_of_typeWith (fun _ _ => arguments_of_typeArguments) hw
  have hl : IsType (String.ofList t).toList := by rwa [String.toList_ofList]
  obtain ⟨c, u, rfl, hc⟩ := ht.head
  rw [hg, consumed_append]
  refine ⟨hl, hf.next ?_ hl.solid fun _ => .inr ⟨c, u, String.toList_ofList, hc⟩, follows_free rfl ?_⟩
  · rw [hg, Token.text, String.toList_ofList]
  · intro he
    apply hr
    simpa [Token.endsInWord] using he

end AmmCompiler.Source
