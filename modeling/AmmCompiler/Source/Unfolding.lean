import AmmCompiler.Source.BlockProgress

/-! The recursion of the readers is never cut off: each satisfies the equation that its step states. -/

namespace AmmCompiler.Source

variable {α : Type}

theorem AgreeBelow.past {cs rest : List Char} {p q : List Char → α} (h : AgreeBelow cs p q)
    (hr : Past cs rest) : p rest = q rest :=
  h rest hr.2

theorem exitEndWith_congr {p q : Skipper} {cs : List Char} (h : AgreeBelow cs p q) :
    exitEndWith p cs = exitEndWith q cs := by
  simp only [exitEndWith]
  split <;> try rfl
  · next r =>
    split
    · next r' hr => exact h.past ((past_cons _ r).suffix (closeString_suffix hr))
    · rfl
  · next c r _ _ _ _ => exact h.past (past_cons c r)

theorem exitEndWith_descends : Descends (fun _ => True) exitEndWith :=
  fun _ _ _ _ h => exitEndWith_congr h

theorem exitEnd_eq (cs : List Char) : exitEnd cs = exitEndWith exitEnd cs :=
  descend_eq (fun _ => trivial) exitEndWith_descends cs

theorem typeWith_congr {p q : Skipper} {cs : List Char} (h : AgreeBelow cs p q) :
    typeWith p cs = typeWith q cs := by
  refine bind_congr_ok ?_
  rintro ⟨w, r⟩ hn
  dsimp only
  split
  · next r' hr => exact h.past ((name_advances hn).trans (symbol?_past hr))
  · rfl

theorem typeArgumentsWith_congr {p q : Skipper} (hp : Skips q) {cs : List Char} (h : AgreeBelow cs p q) :
    typeArgumentsWith p cs = typeArgumentsWith q cs := by
  simp only [typeArgumentsWith, typeWith_congr h]
  refine bind_congr_ok fun r hn => ?_
  split
  · next r' hr => exact h.past ((typeWith_skips hp hn).trans (symbol?_past hr))
  · rfl

theorem typeArgumentsWith_descends : Descends Skips typeArgumentsWith :=
  fun _ _ _ hq h => typeArgumentsWith_congr hq h

theorem typeArguments_eq (cs : List Char) : typeArguments cs = typeArgumentsWith typeArguments cs :=
  descend_eq (descendWithin_skips fun _ => typeArgumentsWith_skips) typeArgumentsWith_descends cs

theorem namesWith_congr {p q : Reader (List String)} {cs : List Char} (h : AgreeBelow cs p q) :
    namesWith p cs = namesWith q cs := by
  refine bind_congr_ok ?_
  rintro ⟨w, r⟩ hn
  dsimp only
  split
  · next r' hr => rw [h.past ((name_advances hn).trans (symbol?_past hr))]
  · rfl

theorem namesWith_descends : Descends (fun _ => True) namesWith :=
  fun _ _ _ _ h => namesWith_congr h

theorem names_eq (cs : List Char) : names cs = namesWith names cs :=
  descend_eq (fun _ => trivial) namesWith_descends cs

theorem parametersWith_congr {p q : Reader Parameters} {cs : List Char} (h : AgreeBelow cs p q) :
    parametersWith p cs = parametersWith q cs := by
  simp only [parametersWith]
  split
  · rfl
  · refine bind_congr_ok ?_
    rintro ⟨first, r⟩ hn
    dsimp only
    split
    · next r' hr => rw [h.past ((parameter_advances hn).trans (symbol?_past hr))]
    · rfl

theorem parametersWith_descends : Descends (fun _ => True) parametersWith :=
  fun _ _ _ _ h => parametersWith_congr h

theorem parameters_eq (cs : List Char) : parameters cs = parametersWith parameters cs :=
  descend_eq (fun _ => trivial) parametersWith_descends cs

theorem closure_congr {p q : BlockReader} {cs : List Char} (h : AgreeBelow cs p q) :
    closure p cs = closure q cs := by
  refine bind_congr_ok fun r₁ h₁ => bind_congr_ok fun r₂ h₂ => bind_congr_ok ?_
  rintro ⟨ps, r₃⟩ h₃
  refine bind_congr_ok fun r₄ h₄ => bind_congr_ok ?_
  rintro ⟨label, r₅⟩ h₅
  refine bind_congr_ok fun r₆ h₆ => ?_
  have hr := (functionKeyword_skips h₁).trans (symbol_skips _ h₂)
  have hr := (hr.trans (parameters_advances h₃)).trans (symbol_skips _ h₄)
  rw [h.past ((hr.trans (typeLabel_advances h₅)).trans (symbol_skips _ h₆))]

theorem wordValue_congr {p q : BlockReader} {cs : List Char} (h : AgreeBelow cs p q) :
    wordValue p cs = wordValue q cs := by
  simp only [wordValue, closure_congr h]

theorem value_congr {p q : BlockReader} {cs : List Char} (h : AgreeBelow cs p q) :
    value p cs = value q cs := by
  simp only [value]
  split
  · rfl
  · next c r hc => rw [wordValue_congr (h.mono (hc ▸ skipGap_length cs))]

theorem assignedValue_congr {p q : BlockReader} {cs : List Char} (h : AgreeBelow cs p q) :
    assignedValue p cs = assignedValue q cs :=
  bind_congr_ok fun _ hs => value_congr (h.mono (Nat.le_of_lt (symbol_skips _ hs).2))

theorem declaration_congr {p q : BlockReader} {kind : Binding} {cs : List Char}
    (h : AgreeBelow cs p q) : declaration p kind cs = declaration q kind cs := by
  have hb : binding p cs = binding q cs := by
    refine bind_congr_ok ?_
    rintro ⟨target, r⟩ ht
    dsimp only
    rw [assignedValue_congr (h.mono (Nat.le_of_lt (parameter_advances ht).2))]
  simp only [declaration, hb]

theorem continuation_congr {p q : BlockReader} {name : String} {cs : List Char}
    (h : AgreeBelow cs p q) : continuation p name cs = continuation q name cs := by
  simp only [continuation]
  split
  · rfl
  · next r hr =>
    refine bind_congr_ok ?_
    rintro ⟨label, r'⟩ hl
    have hp := (past_of_skipGap hr).trans (typeLabel_advances hl)
    dsimp only
    rw [assignedValue_congr (h.mono (Nat.le_of_lt hp.2))]
  · rw [assignedValue_congr h]
  · rfl

theorem statement_congr {p q : BlockReader} {cs : List Char} (h : AgreeBelow cs p q) :
    statement p cs = statement q cs := by
  refine bind_congr_ok ?_
  rintro ⟨w, r⟩ hn
  have hr := h.mono (Nat.le_of_lt (name_advances hn).2)
  dsimp only
  split
  · exact declaration_congr hr
  · exact declaration_congr hr
  · rfl
  · rfl
  · rfl
  · exact continuation_congr hr

theorem blockWith_congr {p q : BlockReader} (hq : Advances q) {cs : List Char}
    (h : AgreeBelow cs p q) : blockWith p cs = blockWith q cs := by
  simp only [blockWith]
  split
  · rfl
  · next c r hc =>
    split
    · rfl
    · have hs : c :: r <:+ cs := hc ▸ skipGap_suffix cs
      rw [statement_congr (h.mono hs.length_le)]
      refine bind_congr_ok ?_
      rintro ⟨first, r'⟩ hf
      dsimp only
      rw [h.past ((statement_advances hq hf).of_suffix hs)]

theorem blockWith_descends : Descends Advances blockWith :=
  fun _ _ _ hq h => blockWith_congr hq h

theorem block_eq (cs : List Char) : block cs = blockWith block cs :=
  descend_eq (descendWithin_advances fun _ => blockWith_advances) blockWith_descends cs

theorem itemsWith_congr {p q : List Char → Except Failure (List Item)} {cs : List Char}
    (h : AgreeBelow cs p q) : itemsWith p cs = itemsWith q cs := by
  simp only [itemsWith]
  split
  · rfl
  · next c r hc =>
    refine bind_congr_ok ?_
    rintro ⟨first, r'⟩ hf
    dsimp only
    rw [h.past ((item_advances hf).of_suffix (hc ▸ skipGap_suffix cs))]

theorem itemsWith_descends : Descends (fun _ => True) itemsWith :=
  fun _ _ _ _ h => itemsWith_congr h

theorem items_eq (cs : List Char) : items cs = itemsWith items cs :=
  descend_eq (fun _ => trivial) itemsWith_descends cs

theorem itemsBeforeWith_congr {p q : List Char → List Item} {cs : List Char} (h : AgreeBelow cs p q) :
    itemsBeforeWith p cs = itemsBeforeWith q cs := by
  simp only [itemsBeforeWith]
  split
  · rfl
  · next c r hc =>
    split
    · next first r' hf => rw [h.past ((item_advances hf).of_suffix (hc ▸ skipGap_suffix cs))]
    · rfl

theorem itemsBeforeWith_descends : Descends (fun _ => True) itemsBeforeWith :=
  fun _ _ _ _ h => itemsBeforeWith_congr h

theorem itemsBefore_eq (cs : List Char) : itemsBefore cs = itemsBeforeWith itemsBefore cs :=
  descend_eq (fun _ => trivial) itemsBeforeWith_descends cs

theorem itemsBefore_of_items {cs : List Char} {is : List Item} (h : items cs = .ok is) : itemsBefore cs = is := by
  induction hn : cs.length using Nat.strongRecOn generalizing cs is with
  | _ n ih =>
    subst hn
    rw [items_eq] at h
    rw [itemsBefore_eq]
    cases hg : skipGap cs with
    | nil =>
      simp only [itemsWith, itemsBeforeWith, hg] at h ⊢
      exact Except.ok.inj h
    | cons c r =>
      simp only [itemsWith, itemsBeforeWith, hg] at h ⊢
      obtain ⟨⟨first, rest⟩, hi, h⟩ := bind_eq_ok.mp h
      obtain ⟨others, ho, h⟩ := bind_eq_ok.mp h
      have hpast : Past cs rest := (item_advances hi).of_suffix (hg ▸ skipGap_suffix cs)
      rw [hi, ← Except.ok.inj h, ← ih rest.length hpast.2 ho rfl]

end AmmCompiler.Source
