import AmmCompiler.Source.Item
import AmmCompiler.Source.Progress

namespace AmmCompiler.Source

theorem namesWith_advances {p : Reader (List String)} (hp : Advances p) : Advances (namesWith p) := by
  intro cs ns rest h
  simp only [namesWith, bind_eq_ok, Prod.exists] at h
  obtain ⟨first, r, hn, h⟩ := h
  have hr := name_advances hn
  split at h
  · next r' hr' =>
    simp only [bind_eq_ok, Prod.exists, pure_eq_ok, Prod.mk.injEq] at h
    obtain ⟨others, r'', ho, _, rfl⟩ := h
    exact (hr.trans (symbol?_past hr')).trans (hp ho)
  · simp only [bind_eq_ok, pure_eq_ok, Prod.mk.injEq] at h
    obtain ⟨r', hs, _, rfl⟩ := h
    exact hr.trans (symbol_skips _ hs)

theorem names_advances : Advances names :=
  descend_advances fun _ => namesWith_advances

theorem arguments_advances : Advances arguments := by
  intro cs as rest h
  simp only [arguments, bind_eq_ok] at h
  obtain ⟨r, hs, h⟩ := h
  have hr := symbol_skips _ hs
  split at h
  · next r' hr' =>
    simp only [Except.ok.injEq, Prod.mk.injEq] at h
    obtain ⟨_, rfl⟩ := h
    exact hr.trans (symbol?_past hr')
  · exact hr.trans (names_advances h)

theorem parameter_advances : Advances parameter := by
  intro cs p rest h
  simp only [parameter, bind_eq_ok, Prod.exists, pure_eq_ok, Prod.mk.injEq] at h
  obtain ⟨n, r, hn, r', hs, label, r'', hl, _, rfl⟩ := h
  exact ((name_advances hn).trans (symbol_skips _ hs)).trans (typeLabel_advances hl)

theorem parametersWith_advances {p : Reader Parameters} (hp : Advances p) :
    Advances (parametersWith p) := by
  intro cs ps rest h
  simp only [parametersWith] at h
  split at h
  · next r hr =>
    simp only [Except.ok.injEq, Prod.mk.injEq] at h
    obtain ⟨_, rfl⟩ := h
    exact symbol?_past hr
  · simp only [bind_eq_ok, Prod.exists] at h
    obtain ⟨first, r, hn, h⟩ := h
    have hr := parameter_advances hn
    split at h
    · next r' hr' =>
      simp only [bind_eq_ok, Prod.exists, pure_eq_ok, Prod.mk.injEq] at h
      obtain ⟨others, r'', ho, _, rfl⟩ := h
      exact (hr.trans (symbol?_past hr')).trans (hp ho)
    · simp only [bind_eq_ok, pure_eq_ok, Prod.mk.injEq] at h
      obtain ⟨r', hs, _, rfl⟩ := h
      exact hr.trans (symbol_skips _ hs)

theorem parameters_advances : Advances parameters :=
  descend_advances fun _ => parametersWith_advances

theorem closure_advances {p : BlockReader} (hp : Advances p) : Advances (closure p) := by
  intro cs c rest h
  simp only [closure, bind_eq_ok, Prod.exists, pure_eq_ok, Prod.mk.injEq] at h
  obtain ⟨r₁, h₁, r₂, h₂, ps, r₃, h₃, r₄, h₄, label, r₅, h₅, r₆, h₆, body, r₇, h₇, _, rfl⟩ := h
  have h := (functionKeyword_skips h₁).trans (symbol_skips _ h₂)
  have h := (h.trans (parameters_advances h₃)).trans (symbol_skips _ h₄)
  exact ((h.trans (typeLabel_advances h₅)).trans (symbol_skips _ h₆)).trans (hp h₇)

theorem wordValue_advances {p : BlockReader} (hp : Advances p) : Advances (wordValue p) := by
  intro cs v rest h
  simp only [wordValue, bind_eq_ok, Prod.exists] at h
  obtain ⟨w, r, hn, h⟩ := h
  have hr := name_advances hn
  split at h
  · simp only [bind_eq_ok, Prod.exists, pure_eq_ok, Prod.mk.injEq] at h
    obtain ⟨c, r', hc, _, rfl⟩ := h
    exact closure_advances hp hc
  · split at h
    · simp only [pure_eq_ok, Prod.mk.injEq] at h
      obtain ⟨_, rfl⟩ := h
      exact hr
    · split at h
      · simp only [bind_eq_ok, Prod.exists, pure_eq_ok, Prod.mk.injEq] at h
        obtain ⟨as, r', ha, _, rfl⟩ := h
        exact hr.trans (arguments_advances ha)
      · simp only [pure_eq_ok, Prod.mk.injEq] at h
        obtain ⟨_, rfl⟩ := h
        exact hr

theorem string_past {c : Char} {cs rest : List Char} {token : String}
    (h : string (c :: cs) = .ok (token, rest)) : Past (c :: cs) rest := by
  simp only [string, List.tail_cons] at h
  split at h
  · next r hr =>
    simp only [Except.ok.injEq, Prod.mk.injEq] at h
    obtain ⟨_, rfl⟩ := h
    exact (past_cons c cs).suffix (closeString_suffix hr)
  · cases h

theorem unsigned_suffix (cs : List Char) : unsigned cs <:+ cs := by
  simp only [unsigned]
  split
  · exact List.suffix_cons _ _
  · exact List.suffix_rfl

theorem skipFraction_suffix (cs : List Char) : skipFraction cs <:+ cs := by
  simp only [skipFraction]
  split
  · split
    · exact (List.dropWhile_suffix _).trans ((List.suffix_cons _ _).trans (List.suffix_cons _ _))
    · exact List.suffix_rfl
  · exact List.suffix_rfl

theorem number_advances : Advances number := by
  intro cs token rest h
  simp only [number] at h
  split at h
  · next hd =>
    simp only [Except.ok.injEq, Prod.mk.injEq] at h
    obtain ⟨_, rfl⟩ := h
    cases hu : unsigned cs with
    | nil => simp [hu, startsWithDigit] at hd
    | cons c r =>
      rw [hu, startsWithDigit] at hd
      rw [List.dropWhile_cons_of_pos hd]
      have h := (past_cons c r).suffix ((skipFraction_suffix _).trans (List.dropWhile_suffix Char.isDigit))
      exact h.of_suffix (hu ▸ unsigned_suffix cs)
  · cases h

theorem value_advances {p : BlockReader} (hp : Advances p) : Advances (value p) := by
  intro cs v rest h
  simp only [value] at h
  split at h
  · cases h
  · next c r hc =>
    have hs : c :: r <:+ cs := hc ▸ skipGap_suffix cs
    split at h
    · simp only [bind_eq_ok, Prod.exists, pure_eq_ok, Prod.mk.injEq] at h
      obtain ⟨token, r', ht, _, rfl⟩ := h
      exact (string_past ht).of_suffix hs
    · split at h
      · simp only [bind_eq_ok, Prod.exists, pure_eq_ok, Prod.mk.injEq] at h
        obtain ⟨token, r', ht, _, rfl⟩ := h
        exact (number_advances ht).of_suffix hs
      · split at h
        · exact (wordValue_advances hp h).of_suffix hs
        · cases h

theorem assignedValue_advances {p : BlockReader} (hp : Advances p) : Advances (assignedValue p) := by
  intro cs v rest h
  simp only [assignedValue, bind_eq_ok] at h
  obtain ⟨r, hs, h⟩ := h
  exact (symbol_skips _ hs).trans (value_advances hp h)

theorem binding_advances {p : BlockReader} (hp : Advances p) : Advances (binding p) := by
  intro cs b rest h
  simp only [binding, bind_eq_ok, Prod.exists, pure_eq_ok, Prod.mk.injEq] at h
  obtain ⟨target, r, ht, v, r', hv, _, rfl⟩ := h
  exact (parameter_advances ht).trans (assignedValue_advances hp hv)

theorem declaration_advances {p : BlockReader} (hp : Advances p) (kind : Binding) :
    Advances (declaration p kind) := by
  intro cs s rest h
  simp only [declaration, bind_eq_ok, Prod.exists, pure_eq_ok, Prod.mk.injEq] at h
  obtain ⟨target, v, r, hb, _, rfl⟩ := h
  exact binding_advances hp hb

theorem emission_advances : Advances emission := by
  intro cs s rest h
  simp only [emission, bind_eq_ok, Prod.exists] at h
  obtain ⟨event, r, hn, h⟩ := h
  have hr := name_advances hn
  split at h
  · simp only [pure_eq_ok, Prod.mk.injEq] at h
    obtain ⟨_, rfl⟩ := h
    exact hr
  · split at h
    · simp only [bind_eq_ok, Prod.exists, pure_eq_ok, Prod.mk.injEq] at h
      obtain ⟨payload, r', hp, _, rfl⟩ := h
      exact hr.trans (name_advances hp)
    · simp only [pure_eq_ok, Prod.mk.injEq] at h
      obtain ⟨_, rfl⟩ := h
      exact hr

theorem exit_suffix {cs mid rest : List Char} {s : Statement} (h : exit cs mid = .ok (s, rest)) :
    rest <:+ mid := by
  simp only [exit, bind_eq_ok, pure_eq_ok, Prod.mk.injEq] at h
  obtain ⟨r, he, _, rfl⟩ := h
  exact exitEnd_suffix he

theorem continuation_advances {p : BlockReader} (hp : Advances p) (name : String) :
    Advances (continuation p name) := by
  intro cs s rest h
  simp only [continuation] at h
  split at h
  · simp only [bind_eq_ok, Prod.exists, pure_eq_ok, Prod.mk.injEq] at h
    obtain ⟨as, r, ha, _, rfl⟩ := h
    exact arguments_advances ha
  · next r hr =>
    simp only [bind_eq_ok, Prod.exists, pure_eq_ok, Prod.mk.injEq] at h
    obtain ⟨label, r', hl, v, r'', hv, _, rfl⟩ := h
    exact ((past_of_skipGap hr).trans (typeLabel_advances hl)).trans (assignedValue_advances hp hv)
  · simp only [bind_eq_ok, Prod.exists, pure_eq_ok, Prod.mk.injEq] at h
    obtain ⟨v, r, hv, _, rfl⟩ := h
    exact assignedValue_advances hp hv
  · cases h

theorem statement_advances {p : BlockReader} (hp : Advances p) : Advances (statement p) := by
  intro cs s rest h
  simp only [statement, bind_eq_ok, Prod.exists] at h
  obtain ⟨w, r, hn, h⟩ := h
  have hr := name_advances hn
  split at h
  · exact hr.trans (declaration_advances hp _ h)
  · exact hr.trans (declaration_advances hp _ h)
  · exact hr.trans (emission_advances h)
  · exact hr.suffix (exit_suffix h)
  · exact hr.suffix (exit_suffix h)
  · exact hr.trans (continuation_advances hp _ h)

theorem blockWith_advances {p : BlockReader} (hp : Advances p) : Advances (blockWith p) := by
  intro cs ss rest h
  simp only [blockWith] at h
  split at h
  · cases h
  · next c r hc =>
    split at h
    · simp only [Except.ok.injEq, Prod.mk.injEq] at h
      obtain ⟨_, rfl⟩ := h
      exact past_of_skipGap hc
    · simp only [bind_eq_ok, Prod.exists, pure_eq_ok, Prod.mk.injEq] at h
      obtain ⟨first, r', hs, others, r'', ho, _, rfl⟩ := h
      have hr := (statement_advances hp hs).of_suffix (hc ▸ skipGap_suffix cs)
      exact hr.trans (hp ho)

theorem block_advances : Advances block :=
  descend_advances fun _ => blockWith_advances

theorem item_advances : Advances item := by
  intro cs i rest h
  simp only [item, bind_eq_ok, Prod.exists] at h
  obtain ⟨w, r, hn, h⟩ := h
  have hr := name_advances hn
  split at h
  · simp only [constant, bind_eq_ok, Prod.exists, pure_eq_ok, Prod.mk.injEq] at h
    obtain ⟨target, v, r', hb, _, rfl⟩ := h
    exact hr.trans (binding_advances block_advances hb)
  · simp only [event, bind_eq_ok, Prod.exists, pure_eq_ok, Prod.mk.injEq] at h
    obtain ⟨declared, r', hd, _, rfl⟩ := h
    exact hr.trans (parameter_advances hd)
  · simp only [handler, bind_eq_ok, Prod.exists, pure_eq_ok, Prod.mk.injEq] at h
    obtain ⟨e, r', he, c, r'', hc, _, rfl⟩ := h
    exact (hr.trans (name_advances he)).trans (closure_advances block_advances hc)
  · cases h

end AmmCompiler.Source
