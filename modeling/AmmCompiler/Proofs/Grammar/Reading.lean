import AmmCompiler.Proofs.Grammar.Syntax

namespace AmmCompiler

open Source Text

variable {before token : Token} {tokens : List Token} {cs mid rest : List Char} {c : Char}

namespace Source

def Closed (cs : List Char) : Prop :=
  ∀ c ∈ (skipGap cs).head?, isNameStart c ∨ c = '\x7d'

lemma bind_ok {α β ε : Type} {x : Except ε α} {a : α} (h : x = .ok a) (f : α → Except ε β) :
    (x >>= f) = f a := by
  rw [h]
  rfl

lemma name_of_layout {w : String} {s : Spacing} (h : Layout before (.word w s :: token :: tokens) cs rest)
    (hw : IsName w.toList) (ht : token.Solid) :
    ∃ mid, name cs = .ok (w, mid) ∧ Layout (.word w s) (token :: tokens) mid rest := by
  obtain ⟨mid, hn, hl⟩ := layout_cons.mp h
  obtain ⟨_, hn', _⟩ := layout_cons.mp hl
  exact ⟨mid, name_of_next hn hw ((hn'.follows ht).apart rfl), hl⟩

lemma symbol_of_layout (h : Layout before (.symbol c :: tokens) cs rest) (hs : (Token.symbol c).Solid) :
    ∃ mid, symbol? c cs = some mid ∧ Layout (.symbol c) tokens mid rest := by
  obtain ⟨mid, hn, hl⟩ := layout_cons.mp h
  exact ⟨mid, symbol?_of_next hn hs, hl⟩

lemma no_symbol_of_layout (h : Layout before (token :: tokens) cs rest) (hs : token.Solid)
    (hne : token.text.head? ≠ some c) : symbol? c cs = none := by
  obtain ⟨mid, hn, _⟩ := layout_cons.mp h
  exact symbol?_of_ne hn hs hne

lemma skipGap_of_layout (h : Layout before (token :: tokens) cs rest) (hs : token.Solid) :
    ∃ mid, skipGap cs = token.text ++ mid := by
  obtain ⟨mid, hn, _⟩ := layout_cons.mp h
  exact ⟨mid, hn.skipGap hs⟩

lemma label_of_layout {l : String} (h : Layout before (.label l :: token :: tokens) cs rest)
    (hl : IsType l.toList) (ht : token.Solid) (hne : token.text.head? ≠ some '<') :
    ∃ mid, typeLabel cs = .ok (l, mid) ∧ Layout (.label l) (token :: tokens) mid rest := by
  obtain ⟨mid, hn, hlay⟩ := layout_cons.mp h
  obtain ⟨_, hn', _⟩ := layout_cons.mp hlay
  refine ⟨mid, typeLabel_of_next hn hl (hn'.follows ht) ?_, hlay⟩
  have hne' := ht
  obtain ⟨c, r, he, _, _⟩ := hne'
  rw [hn'.skipGap ht, he, List.cons_append]
  rwa [he] at hne

lemma follows_of_layout (h : Layout before (token :: tokens) cs rest) (hs : token.Solid) :
    Follows before cs := by
  obtain ⟨mid, hn, _⟩ := layout_cons.mp h
  exact hn.follows hs

lemma closed_of_layout (h : Layout before (token :: tokens) cs rest) (hs : token.Solid)
    (hl : token.StartsLine) : Closed cs := by
  obtain ⟨mid, hg⟩ := skipGap_of_layout h hs
  intro c hc
  rw [hg] at hc
  rcases hl with rfl | ⟨d, r, he, hd⟩
  · exact .inr (Option.some.inj hc).symm
  · rw [he] at hc
    obtain rfl := Option.some.inj hc
    exact .inl hd

lemma closed_of_finalGap (h : FinalGap cs) : Closed cs := by
  intro c hc
  rw [skipGap_eq_nil.mpr h] at hc
  cases hc

lemma Closed.not_applied (h : Closed cs) : startsWith '(' (skipInlineGap cs) = false := by
  simp only [startsWith, decide_eq_false_iff_not]
  intro he
  obtain ⟨r, hr⟩ := List.head?_eq_some_iff.mp he
  have hp := h '(' (by rw [skipGap_of_skipInlineGap hr (by decide)]; rfl)
  revert hp
  decide

lemma Closed.not_number (h : Closed cs) : ∀ c ∈ cs.head?, ¬ c.isDigit ∧ c ≠ '.' := by
  intro c hc
  obtain ⟨r, rfl⟩ := List.head?_eq_some_iff.mp hc
  by_cases hn : c.isDigit ∨ c = '.'
  · have hb : ¬ isBlank c := by
      rcases hn with hn | rfl
      · exact not_isBlank_of_isNamePart (isNamePart_of_isDigit hn)
      · decide
    have hs : c ≠ '/' := by
      rintro rfl
      revert hn
      decide
    have hp := h c (by rw [skipGap_solid hb hs]; rfl)
    rcases hp with hp | rfl
    · rcases hn with hn | rfl
      · exact absurd hn (not_isDigit_of_isNameStart hp)
      · exact absurd hp (by decide)
    · exact absurd hn (by decide)
  · exact not_or.mp hn

lemma names_of_layout {arguments : List String} (hne : arguments ≠ [])
    (ha : ∀ a ∈ arguments, IsName a.toList)
    (h : Layout before ((arguments.map (Token.word · .free)).intersperse (.symbol ',') ++ [.symbol ')'])
      cs rest) : names cs = .ok (arguments, rest) := by
  have hcomma : (Token.symbol ',').Solid := solid_symbol _
  have hclose : (Token.symbol ')').Solid := solid_symbol _
  induction arguments generalizing before cs with
  | nil => exact absurd rfl hne
  | cons a as ih =>
    have hw := ha a List.mem_cons_self
    rw [names_eq]
    cases as with
    | nil =>
      obtain ⟨m₁, hn, h⟩ := name_of_layout h hw hclose
      have hc := no_symbol_of_layout h hclose (c := ',') (by decide)
      obtain ⟨m₂, hs, h⟩ := symbol_of_layout h hclose
      obtain rfl := layout_nil.mp h
      simp only [namesWith, bind_ok hn, hc, bind_ok (symbol_eq_ok.mpr hs)]
      rfl
    | cons b bs =>
      obtain ⟨m₁, hn, h⟩ := name_of_layout h hw hcomma
      obtain ⟨m₂, hs, h⟩ := symbol_of_layout h hcomma
      have hr := ih (List.cons_ne_nil b bs) (fun x hx => ha x (List.mem_cons_of_mem a hx)) h
      simp only [namesWith, bind_ok hn, hs, bind_ok hr]
      rfl

lemma arguments_of_layout {as : List String} (ha : ∀ a ∈ as, IsName a.toList)
    (h : Layout before (argumentTokens as) cs rest) : arguments cs = .ok (as, rest) := by
  have hclose : (Token.symbol ')').Solid := solid_symbol _
  obtain ⟨m₁, hp, h⟩ := symbol_of_layout h (solid_symbol _)
  cases as with
  | nil =>
    obtain ⟨m₂, hs, h⟩ := symbol_of_layout h hclose
    obtain rfl := layout_nil.mp h
    simp only [arguments, bind_ok (symbol_eq_ok.mpr hp), hs]
  | cons a as =>
    have hw := ha a List.mem_cons_self
    have hc : symbol? ')' m₁ = none := by
      cases as with
      | nil => exact no_symbol_of_layout h (hw.solid _) (hw.head_ne _ (by decide))
      | cons b bs => exact no_symbol_of_layout h (hw.solid _) (hw.head_ne _ (by decide))
    have hn := names_of_layout (List.cons_ne_nil a as) ha h
    simp only [arguments, bind_ok (symbol_eq_ok.mpr hp), hc, hn]

lemma parameter_of_layout {p : Parameter} (hp : p.WellFormed) (ht : token.Solid)
    (hne : token.text.head? ≠ some '<') (h : Layout before (p.tokens ++ token :: tokens) cs rest) :
    ∃ mid, parameter cs = .ok (p, mid) ∧ Layout (.label p.typeLabel) (token :: tokens) mid rest := by
  have hs : (Token.symbol ':').Solid := solid_symbol _
  obtain ⟨m₁, hn, h⟩ := name_of_layout h hp.1 hs
  obtain ⟨m₂, hc, h⟩ := symbol_of_layout h hs
  obtain ⟨m₃, hl, h⟩ := label_of_layout h hp.2 ht hne
  refine ⟨m₃, ?_, h⟩
  simp only [parameter, bind_ok hn, bind_ok (symbol_eq_ok.mpr hc), bind_ok hl]
  rfl

lemma parameters_of_layout {ps : Parameters} (hp : ps.WellFormed)
    (h : Layout before (ps.tokens ++ tokens) cs rest) :
    ∃ mid, parameters cs = .ok (ps, mid) ∧ Layout (.symbol ')') tokens mid rest := by
  obtain ⟨ordinary, trailing⟩ := ps
  have hcomma : (Token.symbol ',').Solid := solid_symbol _
  have hclose : (Token.symbol ')').Solid := solid_symbol _
  induction ordinary generalizing before cs with
  | nil =>
    rw [parameters_eq]
    cases trailing with
    | none =>
      obtain ⟨mid, hs, h⟩ := symbol_of_layout h hclose
      refine ⟨mid, ?_, h⟩
      simp only [parametersWith, hs]
    | some p =>
      have hw : p.WellFormed := hp p (by simp [Parameters.all])
      have hn := no_symbol_of_layout (c := ')') h (hw.1.solid _) (hw.1.head_ne _ (by decide))
      obtain ⟨m₁, hpar, h⟩ := parameter_of_layout hw hclose (by decide) (by simpa [Parameters.tokens] using h)
      have hnc := no_symbol_of_layout h hclose (c := ',') (by decide)
      obtain ⟨m₂, hs, h⟩ := symbol_of_layout h hclose
      refine ⟨m₂, ?_, h⟩
      simp only [parametersWith, hn, bind_ok hpar, hnc, bind_ok (symbol_eq_ok.mpr hs)]
      rfl
  | cons p ps ih =>
    have hw : p.WellFormed := hp p (by simp [Parameters.all])
    have hn := no_symbol_of_layout (c := ')') h (hw.1.solid _) (hw.1.head_ne _ (by decide))
    have hfirst : Layout before (p.tokens ++ .symbol ',' :: (Parameters.tokens ⟨ps, trailing⟩ ++ tokens)) cs rest := by
      simpa [Parameters.tokens] using h
    obtain ⟨m₁, hpar, h⟩ := parameter_of_layout hw hcomma (by decide) hfirst
    obtain ⟨m₂, hs, h⟩ := symbol_of_layout h hcomma
    obtain ⟨mid, hr, h⟩ := ih (fun q hq => hp q (by simp_all [Parameters.all])) h
    refine ⟨mid, ?_, h⟩
    rw [parameters_eq]
    simp only [parametersWith, hn, bind_ok hpar, hs, bind_ok hr]
    rfl

lemma functionKeyword_of_layout {s : Spacing} (ht : token.Solid)
    (h : Layout before (.word "fn" s :: token :: tokens) cs rest) :
    ∃ mid, functionKeyword cs = .ok mid ∧ name cs = .ok ("fn", mid) ∧
      Layout (.word "fn" s) (token :: tokens) mid rest := by
  obtain ⟨mid, hn, h⟩ := name_of_layout h (by decide) ht
  refine ⟨mid, ?_, hn, h⟩
  simp only [functionKeyword, bind_ok hn]
  rfl

lemma name_skipGap (cs : List Char) : name (skipGap cs) = name cs := by
  simp only [name, skipGap_skipGap]

lemma functionKeyword_skipGap (cs : List Char) : functionKeyword (skipGap cs) = functionKeyword cs := by
  simp only [functionKeyword, name_skipGap, skipGap_skipGap]

lemma wordValue_skipGap (p : BlockReader) (cs : List Char) : wordValue p (skipGap cs) = wordValue p cs := by
  simp only [wordValue, closure, name_skipGap, functionKeyword_skipGap]

lemma statement_skipGap (p : BlockReader) (cs : List Char) : statement p (skipGap cs) = statement p cs := by
  simp only [statement, name_skipGap, skipGap_skipGap]

lemma item_skipGap (cs : List Char) : item (skipGap cs) = item cs := by
  simp only [item, name_skipGap, skipGap_skipGap]

end Source

end AmmCompiler
