import AmmCompiler.Source.TypeLabel

namespace AmmCompiler.Source

open Text

variable {α β ε : Type}

theorem bind_eq_ok {x : Except ε α} {f : α → Except ε β} {b : β} :
    (x >>= f) = .ok b ↔ ∃ a, x = .ok a ∧ f a = .ok b := by
  cases x with
  | error e => simp [bind, Except.bind]
  | ok a => simp [bind, Except.bind]

theorem pure_eq_ok {a b : α} : (pure a : Except ε α) = .ok b ↔ a = b := by
  simp [pure, Except.pure]

theorem bind_congr_ok {x : Except ε α} {f g : α → Except ε β} (h : ∀ a, x = .ok a → f a = g a) :
    (x >>= f) = (x >>= g) := by
  cases x with
  | error e => rfl
  | ok a => exact h a rfl

def Past (cs rest : List Char) : Prop :=
  rest <:+ cs ∧ rest.length < cs.length

theorem Past.of_suffix {cs mid rest : List Char} (h : Past mid rest) (hm : mid <:+ cs) : Past cs rest :=
  ⟨h.1.trans hm, Nat.lt_of_lt_of_le h.2 hm.length_le⟩

theorem Past.suffix {cs mid rest : List Char} (h : Past cs mid) (hr : rest <:+ mid) : Past cs rest :=
  ⟨hr.trans h.1, Nat.lt_of_le_of_lt hr.length_le h.2⟩

theorem Past.trans {cs mid rest : List Char} (h : Past cs mid) (hr : Past mid rest) : Past cs rest :=
  h.suffix hr.1

theorem past_cons (c : Char) (rest : List Char) : Past (c :: rest) rest :=
  ⟨List.suffix_cons c rest, by simp⟩

theorem past_of_eq_cons {cs rest : List Char} {c : Char} (h : cs = c :: rest) : Past cs rest :=
  h ▸ past_cons c rest

def Advances (p : Reader α) : Prop :=
  ∀ ⦃cs a rest⦄, p cs = .ok (a, rest) → Past cs rest

def Skips (p : Skipper) : Prop :=
  ∀ ⦃cs rest⦄, p cs = .ok rest → Past cs rest

theorem descendWithin_advances {step : Reader α → Reader α}
    (h : ∀ p, Advances p → Advances (step p)) (n : Nat) : Advances (descendWithin step n) := by
  induction n with
  | zero =>
    intro cs a rest he
    cases he
  | succ n ih => exact h _ ih

theorem descend_advances {step : Reader α → Reader α} (h : ∀ p, Advances p → Advances (step p)) :
    Advances (descend step) := by
  intro cs a rest he
  exact descendWithin_advances h _ he

theorem descendWithin_skips {step : Skipper → Skipper} (h : ∀ p, Skips p → Skips (step p)) (n : Nat) :
    Skips (descendWithin step n) := by
  induction n with
  | zero =>
    intro cs rest he
    cases he
  | succ n ih => exact h _ ih

theorem descend_skips {step : Skipper → Skipper} (h : ∀ p, Skips p → Skips (step p)) :
    Skips (descend step) := by
  intro cs rest he
  exact descendWithin_skips h _ he

theorem descend_ok {step : (List Char → Except Failure α) → List Char → Except Failure α}
    {Q : List Char → α → Prop}
    (h : ∀ p, (∀ cs a, p cs = .ok a → Q cs a) → ∀ cs a, step p cs = .ok a → Q cs a)
    {cs : List Char} {a : α} (he : descend step cs = .ok a) : Q cs a := by
  have hn : ∀ n cs a, descendWithin step n cs = .ok a → Q cs a := by
    intro n
    induction n with
    | zero =>
      intro cs a he
      cases he
    | succ n ih => exact h _ ih
  exact hn _ _ _ he

theorem skip_suffix : (∀ cs, skipGap cs <:+ cs) ∧ ∀ cs, skipComment cs <:+ cs := by
  apply skipGap.mutual_induct
  · exact List.suffix_rfl
  · intro rest ih
    rw [skipGap]
    exact ih.trans ((List.suffix_cons _ _).trans (List.suffix_cons _ _))
  · intro c rest hc hb ih
    rw [skipGap, if_pos hb]
    · exact ih.trans (List.suffix_cons _ _)
    · exact hc
  · intro c rest hc hb
    have he : skipGap (c :: rest) = if isBlank c then skipGap rest else c :: rest := by
      rw [skipGap]
      exact hc
    exact ⟨[], he.trans (if_neg hb)⟩
  · exact List.suffix_rfl
  · intro rest ih
    rw [skipComment]
    exact ih.trans (List.suffix_cons _ _)
  · intro c rest hc ih
    rw [skipComment]
    · exact ih.trans (List.suffix_cons _ _)
    · exact hc

theorem skipGap_suffix (cs : List Char) : skipGap cs <:+ cs :=
  skip_suffix.1 cs

theorem skipGap_length (cs : List Char) : (skipGap cs).length ≤ cs.length :=
  (skipGap_suffix cs).length_le

theorem past_of_skipGap {cs rest : List Char} {c : Char} (h : skipGap cs = c :: rest) : Past cs rest :=
  (past_of_eq_cons h).of_suffix (skipGap_suffix cs)

theorem name_advances : Advances name := by
  intro cs w rest h
  simp only [name] at h
  split at h
  · cases h
  · next c r hc =>
    split at h
    · simp only [Except.ok.injEq, Prod.mk.injEq] at h
      obtain ⟨_, rfl⟩ := h
      exact (past_of_skipGap hc).suffix (List.dropWhile_suffix _)
    · cases h

theorem symbol?_past {c : Char} {cs rest : List Char} (h : symbol? c cs = some rest) : Past cs rest := by
  simp only [symbol?] at h
  split at h
  · cases h
  · next d r hd =>
    split at h
    · obtain rfl := Option.some.inj h
      exact past_of_skipGap hd
    · cases h

theorem symbol_skips (c : Char) : Skips (symbol c) := by
  intro cs rest h
  simp only [symbol] at h
  split at h
  · next r hr =>
    obtain rfl := Except.ok.inj h
    exact symbol?_past hr
  · cases h

theorem functionKeyword_skips : Skips functionKeyword := by
  intro cs rest h
  simp only [functionKeyword, bind_eq_ok, Prod.exists] at h
  obtain ⟨w, r, hn, h⟩ := h
  split at h
  · obtain rfl := Except.ok.inj h
    exact name_advances hn
  · cases h

theorem closeString_suffix {cs rest : List Char} (h : closeString cs = some rest) : rest <:+ cs := by
  fun_induction closeString cs with
  | case1 => cases h
  | case2 r =>
    obtain rfl := Option.some.inj h
    exact List.suffix_cons _ _
  | case3 c r ih => exact (ih h).trans ((List.suffix_cons _ _).trans (List.suffix_cons _ _))
  | case4 c r _ _ ih => exact (ih h).trans (List.suffix_cons _ _)

theorem exitEndWith_suffix {p : Skipper} (hp : ∀ ⦃cs rest⦄, p cs = .ok rest → rest <:+ cs)
    {cs rest : List Char} (h : exitEndWith p cs = .ok rest) : rest <:+ cs := by
  simp only [exitEndWith] at h
  split at h
  case h_5 r =>
    split at h
    · next r' hr => exact ((hp h).trans (closeString_suffix hr)).trans (List.suffix_cons _ _)
    · cases h
  case h_6 c r _ _ _ _ => exact (hp h).trans (List.suffix_cons _ _)
  all_goals
    obtain rfl := Except.ok.inj h
    exact List.suffix_rfl

theorem exitEnd_suffix {cs rest : List Char} (h : exitEnd cs = .ok rest) : rest <:+ cs := by
  have hn : ∀ n ⦃cs rest⦄, descendWithin exitEndWith n cs = .ok rest → rest <:+ cs := by
    intro n
    induction n with
    | zero =>
      intro cs rest he
      cases he
    | succ n ih =>
      intro cs rest he
      exact exitEndWith_suffix ih he
  exact hn _ h

theorem typeWith_skips {p : Skipper} (hp : Skips p) : Skips (typeWith p) := by
  intro cs rest h
  simp only [typeWith, bind_eq_ok, Prod.exists] at h
  obtain ⟨w, r, hn, h⟩ := h
  split at h
  · next r' hr => exact ((name_advances hn).trans (symbol?_past hr)).trans (hp h)
  · obtain rfl := Except.ok.inj h
    exact name_advances hn

theorem typeArgumentsWith_skips {p : Skipper} (hp : Skips p) : Skips (typeArgumentsWith p) := by
  intro cs rest h
  simp only [typeArgumentsWith, bind_eq_ok] at h
  obtain ⟨r, hn, h⟩ := h
  have hr := typeWith_skips hp hn
  split at h
  · next r' hr' => exact (hr.trans (symbol?_past hr')).trans (hp h)
  · exact hr.trans (symbol_skips _ h)

theorem typeArguments_skips : Skips typeArguments :=
  descend_skips fun _ => typeArgumentsWith_skips

theorem typeLabel_advances : Advances typeLabel := by
  intro cs label rest h
  simp only [typeLabel, bind_eq_ok, pure_eq_ok, Prod.mk.injEq] at h
  obtain ⟨r, hn, _, rfl⟩ := h
  exact typeWith_skips typeArguments_skips hn

end AmmCompiler.Source
