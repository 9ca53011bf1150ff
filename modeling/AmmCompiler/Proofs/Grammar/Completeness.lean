import AmmCompiler.Proofs.Grammar.Reading

/-! Every text of the grammar is read as the program it spells, whatever gaps it has. -/

namespace AmmCompiler

open Source Text

variable {before token : Token} {tokens : List Token} {cs mid rest : List Char}

namespace Source

lemma closure_step {p : BlockReader} {ps : Parameters} {l : String} {body : List Statement} {s : Spacing}
    (hw : (Closure.mk ps l body).WellFormed)
    (hb : ∀ before cs, Layout before (blockTokens body ++ [.symbol '\x7d']) cs rest → p cs = .ok (body, rest))
    (h : Layout before ((Closure.mk ps l body).tokens s) cs rest) :
    closure p cs = .ok (⟨ps, l, body⟩, rest) := by
  have hopen : (Token.symbol '(').Solid := solid_symbol _
  have hcolon : (Token.symbol ':').Solid := solid_symbol _
  have hbrace : (Token.symbol '\x7b').Solid := solid_symbol _
  obtain ⟨hps, hl, _⟩ := hw
  obtain ⟨m₁, hf, _, h⟩ := functionKeyword_of_layout hopen h
  obtain ⟨m₂, ho, h⟩ := symbol_of_layout h hopen
  obtain ⟨m₃, hp, h⟩ := parameters_of_layout hps h
  obtain ⟨m₄, hc, h⟩ := symbol_of_layout h hcolon
  obtain ⟨m₅, hlabel, h⟩ := label_of_layout h hl hbrace (by decide)
  obtain ⟨m₆, hs, h⟩ := symbol_of_layout h hbrace
  have hbody := hb _ _ h
  simp only [closure, bind_ok hf, bind_ok (symbol_eq_ok.mpr ho), bind_ok hp, bind_ok (symbol_eq_ok.mpr hc),
    bind_ok hlabel, bind_ok (symbol_eq_ok.mpr hs), bind_ok hbody]
  rfl

lemma value_of_name {p : BlockReader} {w : String} (h : name cs = .ok (w, mid)) :
    value p cs = wordValue p cs := by
  obtain ⟨⟨c, r, he, hc, _⟩, hg, _⟩ := skipGap_of_name h
  rw [he, List.cons_append] at hg
  have hq : c ≠ '"' := by
    rintro rfl
    exact absurd hc (by decide)
  have hd : ¬ (c.isDigit ∨ c = '-') := by
    rintro (hd | rfl)
    · exact not_isDigit_of_isNameStart hc hd
    · exact absurd hc (by decide)
  simp only [value, hg]
  rw [if_neg hq, if_neg hd, if_pos hc, ← hg, wordValue_skipGap]

lemma applied_of_layout (h : Layout before (.symbol '(' :: tokens) cs rest)
    (hb : before.spacing = .sameLine) : startsWith '(' (skipInlineGap cs) = true := by
  obtain ⟨mid, hn, _⟩ := layout_cons.mp h
  rw [hn.skipInlineGap (solid_symbol _) hb]
  rfl

lemma call_value_of_layout {p : BlockReader} {call : Call} (hw : call.WellFormed)
    (hk : call.opcode ∉ valueKeywords)
    (h : Layout before (.word call.opcode .sameLine :: argumentTokens call.arguments) cs rest) :
    value p cs = .ok (.call call, rest) := by
  obtain ⟨mid, hn, h⟩ := name_of_layout h hw.1 (solid_symbol _)
  have happ := applied_of_layout h rfl
  have ha := arguments_of_layout hw.2 h
  simp only [valueKeywords, List.mem_cons, List.not_mem_nil, or_false, not_or] at hk
  obtain ⟨hf, ht⟩ := hk
  rw [value_of_name hn]
  simp only [wordValue, bind_ok hn, happ, bind_ok ha, hf, ht, false_and, or_false, if_false, if_true]
  rfl

lemma closure_value_of_layout {p : BlockReader} {closure : Closure}
    (hc : Source.closure p cs = .ok (closure, rest)) (h : Layout before (closure.tokens .sameLine) cs rest) :
    value p cs = .ok (.closure closure, rest) := by
  obtain ⟨ps, l, body⟩ := closure
  obtain ⟨mid, _, hn, h⟩ := functionKeyword_of_layout (solid_symbol _) h
  have happ := applied_of_layout h rfl
  rw [value_of_name hn]
  simp only [wordValue, bind_ok hn, happ, bind_ok hc, and_self, if_true]
  rfl

lemma word_value_of_layout {p : BlockReader} {w : String} (hw : IsName w.toList)
    (hf : Follows (.word w .free) rest) (hc : Closed rest) (h : Layout before [.word w .free] cs rest) :
    value p cs = .ok (if w = "true" ∨ w = "false" then .literal w else .variable w, rest) := by
  have hn := name_of_next (layout_singleton.mp h) hw (hf.apart rfl)
  rw [value_of_name hn]
  simp only [wordValue, bind_ok hn, hc.not_applied, and_false, Bool.false_eq_true, if_false]
  split <;> rfl

lemma literal_value_of_layout {p : BlockReader} {t : String} (ht : IsLiteral t) (hc : Closed rest)
    (hne : ¬ (t = "true" ∨ t = "false")) (h : Layout before [.literal t] cs rest) :
    value p cs = .ok (.literal t, rest) := by
  have hn := layout_singleton.mp h
  rcases ht with ht | ht | ht | ht
  · exact absurd (.inl ht) hne
  · exact absurd (.inr ht) hne
  · have hg : skipGap cs = t.toList ++ rest := hn.skipGap ht.solid
    have hs := string_append ht rest
    obtain ⟨b, he, _⟩ := ht
    rw [he, List.cons_append] at hg hs
    simp only [value, hg, if_true, bind_ok hs]
    rfl
  · have hg : skipGap cs = t.toList ++ rest := hn.skipGap ht.solid
    have hs := number_append ht hc.not_number
    obtain ⟨c, r, he, hd⟩ := ht.head
    rw [he, List.cons_append] at hg hs
    have hq : c ≠ '"' := by
      rintro rfl
      revert hd
      decide
    simp only [value, hg, if_neg hq, if_pos hd, bind_ok hs]
    rfl

lemma statement_of_name {p : BlockReader} {w : String} (h : name cs = .ok (w, mid))
    (hw : w ∉ statementKeywords) : statement p cs = continuation p w mid := by
  simp only [statementKeywords, List.mem_cons, List.not_mem_nil, or_false, not_or] at hw
  obtain ⟨h₁, h₂, h₃, h₄, h₅⟩ := hw
  simp only [statement, bind_ok h]

lemma statement_of_exit {p : BlockReader} {w : String} (h : name cs = .ok (w, mid))
    (hw : w ∈ exitKeywords) : statement p cs = exit (skipGap cs) mid := by
  simp only [exitKeywords, List.mem_cons, List.not_mem_nil, or_false] at hw
  rcases hw with rfl | rfl
  · simp only [statement, bind_ok h]
  · simp only [statement, bind_ok h]

lemma emission_of_layout {event : String} {payload : Option String} (he : IsName event.toList)
    (hp : ∀ w ∈ payload, IsName w.toList)
    (hf : Follows ((Statement.emit event payload).tokens.getLastD before) rest)
    (h : Layout before (Statement.emit event payload).tokens cs rest) :
    ∃ mid, name cs = .ok ("emit", mid) ∧ emission mid = .ok (.emit event payload, rest) := by
  have hemit : IsName "emit".toList := by decide
  cases payload with
  | none =>
    obtain ⟨m₁, hn, h⟩ := name_of_layout h hemit (he.solid _)
    have hend : Follows (.word event .lineEnd) rest := hf
    have hev := name_of_next (layout_singleton.mp h) he (hend.apart rfl)
    refine ⟨m₁, hn, ?_⟩
    simp only [emission, bind_ok hev]
    split
    · rfl
    · next c r hc =>
      rw [if_neg (hend.lineEnd rfl c (by rw [hc]; rfl))]
      rfl
  | some w =>
    have hw := hp w rfl
    have hend : Follows (.word w .free) rest := hf
    obtain ⟨m₁, hn, h⟩ := name_of_layout h hemit (he.solid _)
    obtain ⟨m₂, hev, h⟩ := name_of_layout h he (hw.solid _)
    have hnext := layout_singleton.mp h
    have hpay := name_of_next hnext hw (hend.apart rfl)
    have hin := hnext.skipInlineGap (hw.solid _) rfl
    obtain ⟨c, r, hcr, hc, _⟩ := hw
    refine ⟨m₁, hn, ?_⟩
    rw [Token.text, hcr, List.cons_append] at hin
    simp only [emission, bind_ok hev, hin, if_pos hc, bind_ok hpay]
    rfl

def ReadsValue (p : BlockReader) (v : Value) : Prop :=
  ∀ ⦃before cs rest⦄, Layout before v.tokens cs rest → Follows (v.tokens.getLastD before) rest →
    Closed rest → value p cs = .ok (v, rest)

def ReadsStatement (p : BlockReader) (s : Statement) : Prop :=
  ∀ ⦃before cs rest⦄, Layout before s.tokens cs rest → Follows (s.tokens.getLastD before) rest →
    Closed rest → ∃ e, statement p cs = .ok (s, e) ∧ skipGap e = skipGap rest

def ReadsBlock (p : BlockReader) (ss : List Statement) : Prop :=
  ∀ ⦃before cs cs' rest⦄, Layout before (blockTokens ss ++ [.symbol '\x7d']) cs rest →
    skipGap cs' = skipGap cs → p cs' = .ok (ss, rest)

lemma assignedValue_of_layout {p : BlockReader} {v : Value} (hv : ReadsValue p v)
    (hf : Follows (v.tokens.getLastD (.symbol '=')) rest) (hc : Closed rest)
    (h : Layout before (.symbol '=' :: v.tokens) cs rest) : assignedValue p cs = .ok (v, rest) := by
  obtain ⟨mid, hs, h⟩ := symbol_of_layout h (solid_symbol _)
  simp only [assignedValue, bind_ok (symbol_eq_ok.mpr hs), hv h hf hc]

lemma binding_of_layout {p : BlockReader} {v : Value} (target : Parameter) (hv : ReadsValue p v)
    (ht : target.WellFormed) (hf : Follows (v.tokens.getLastD (.symbol '=')) rest) (hc : Closed rest)
    (h : Layout before (target.tokens ++ .symbol '=' :: v.tokens) cs rest) :
    binding p cs = .ok ((target, v), rest) := by
  obtain ⟨mid, hp, h⟩ := parameter_of_layout ht (solid_symbol _) (by decide) h
  have ha := assignedValue_of_layout hv hf hc h
  simp only [binding, bind_ok hp, bind_ok ha]
  rfl

lemma readsStatement_declare {p : BlockReader} {b : Binding} {n l : String} {v : Value}
    (hw : (Statement.declare b n l v).WellFormed) (hv : ReadsValue p v) :
    ReadsStatement p (.declare b n l v) := by
  intro before cs rest h hf hc
  obtain ⟨hn, hl, _⟩ := hw
  simp only [Statement.tokens, List.getLastD_cons] at hf
  obtain ⟨mid, hkw, h⟩ := name_of_layout h (isName_keyword b) (hn.solid _)
  have hb := binding_of_layout ⟨n, l⟩ hv ⟨hn, hl⟩ hf hc h
  refine ⟨rest, ?_, rfl⟩
  cases b
  · simp only [statement, bind_ok hkw, Binding.keyword, declaration, bind_ok hb]
    rfl
  · simp only [statement, bind_ok hkw, Binding.keyword, declaration, bind_ok hb]
    rfl

lemma readsStatement_assign {p : BlockReader} {n l : String} {v : Value}
    (hw : (Statement.assign n l v).WellFormed) (hv : ReadsValue p v) :
    ReadsStatement p (.assign n l v) := by
  intro before cs rest h hf hc
  have heq : (Token.symbol '=').Solid := solid_symbol _
  have hcolon : (Token.symbol ':').Solid := solid_symbol _
  obtain ⟨⟨hn, hk⟩, hl, _⟩ := hw
  refine ⟨rest, ?_, rfl⟩
  by_cases he : l = ""
  · simp only [Statement.tokens, if_pos he, List.nil_append, List.getLastD_cons] at h hf
    obtain ⟨mid, hname, h⟩ := name_of_layout h hn heq
    obtain ⟨m, hg⟩ := skipGap_of_layout h heq
    have ha := assignedValue_of_layout hv hf hc h
    rw [statement_of_name hname hk]
    simp only [continuation, hg, Token.text, List.cons_append, bind_ok ha, he]
    rfl
  · simp only [Statement.tokens, if_neg he, List.cons_append, List.nil_append, List.getLastD_cons] at h hf
    obtain ⟨m₁, hname, h⟩ := name_of_layout h hn hcolon
    obtain ⟨m₂, hs, h⟩ := symbol_of_layout h hcolon
    obtain ⟨m₃, hlabel, h⟩ := label_of_layout h (hl.resolve_left he) heq (by decide)
    have ha := assignedValue_of_layout hv hf hc h
    rw [statement_of_name hname hk]
    simp only [continuation, skipGap_of_symbol? hs, bind_ok hlabel, bind_ok ha]
    rfl

lemma readsStatement_call {p : BlockReader} {c : Call} (hw : (Statement.call c).WellFormed) :
    ReadsStatement p (.call c) := by
  intro before cs rest h _ _
  have hopen : (Token.symbol '(').Solid := solid_symbol _
  obtain ⟨hc, hk⟩ := hw
  obtain ⟨mid, hn, h⟩ := name_of_layout h hc.1 hopen
  obtain ⟨m, hg⟩ := skipGap_of_layout h hopen
  have ha := arguments_of_layout hc.2 h
  refine ⟨rest, ?_, rfl⟩
  rw [statement_of_name hn hk]
  simp only [continuation, hg, Token.text, List.cons_append, bind_ok ha]
  rfl

lemma readsStatement_emit {p : BlockReader} {event : String} {payload : Option String}
    (hw : (Statement.emit event payload).WellFormed) : ReadsStatement p (.emit event payload) := by
  intro before cs rest h hf _
  obtain ⟨mid, hn, he⟩ := emission_of_layout hw.1 hw.2 hf h
  refine ⟨rest, ?_, rfl⟩
  simp only [statement, bind_ok hn, he]

lemma Closed.ends (h : Closed cs) (hl : ∀ c ∈ (skipInlineGap cs).head?, ¬ isNameStart c) :
    ∀ c ∈ (skipInlineGap cs).head?, c = '\n' ∨ c = '\x7d' := by
  intro c hc
  by_cases hn : c = '\n'
  · exact .inl hn
  · obtain ⟨r, hr⟩ := List.head?_eq_some_iff.mp hc
    have hp := h c (by rw [skipGap_of_skipInlineGap hr hn]; rfl)
    exact .inr (hp.resolve_left (hl c hc))

lemma readsStatement_exit {p : BlockReader} {f : String} (hw : (Statement.exit f).WellFormed) :
    ReadsStatement p (.exit f) := by
  intro before cs rest h hf hc
  have hend : Follows (.fragment f) rest := hf
  obtain ⟨w, hk, mid, e, hn, he, hg⟩ :=
    exit_of_next (layout_singleton.mp h) hw hend (hc.ends (hend.lineEnd rfl))
  exact ⟨e, by rw [statement_of_exit hn hk, he], hg⟩

lemma statement_head {s : Statement} (hw : s.WellFormed) :
    ∃ t ts, s.tokens = t :: ts ∧ t.Solid ∧ ∃ c r, t.text = c :: r ∧ isNameStart c := by
  have word : ∀ {w : String} {sp : Spacing}, IsName w.toList →
      (Token.word w sp).Solid ∧ ∃ c r, (Token.word w sp).text = c :: r ∧ isNameStart c := by
    rintro w sp h
    refine ⟨h.solid sp, ?_⟩
    obtain ⟨c, r, he, hc, _⟩ := h
    exact ⟨c, r, he, hc⟩
  cases s with
  | declare b n l v => exact ⟨_, _, rfl, word (isName_keyword b)⟩
  | assign n l v => exact ⟨_, _, rfl, word hw.1.1⟩
  | call c => exact ⟨_, _, rfl, word hw.1.1⟩
  | emit e p =>
    have hemit : IsName "emit".toList := by decide
    cases p
    · exact ⟨_, _, rfl, word hemit⟩
    · exact ⟨_, _, rfl, word hemit⟩
  | exit f => exact ⟨_, _, rfl, IsExit.solid hw, IsExit.head hw⟩

lemma readsBlock_nil : ReadsBlock block [] := by
  intro before cs cs' rest h hg
  obtain ⟨mid, hs, h⟩ := symbol_of_layout h (solid_symbol _)
  obtain rfl := layout_nil.mp h
  rw [block_eq]
  simp only [blockWith, hg, skipGap_of_symbol? hs, if_true]

lemma readsBlock_cons {s : Statement} {ss : List Statement} (hw : s.WellFormed) (hws : blockWellFormed ss)
    (hs : ReadsStatement block s) (hss : ReadsBlock block ss) : ReadsBlock block (s :: ss) := by
  intro before cs cs' rest h hg
  have hnext : ∃ t ts, blockTokens ss ++ [.symbol '\x7d'] = t :: ts ∧ t.Solid ∧ t.StartsLine := by
    cases ss with
    | nil => exact ⟨_, _, rfl, solid_symbol _, .inl rfl⟩
    | cons s' ss =>
      obtain ⟨t, ts, he, ht, hl⟩ := statement_head hws.1
      exact ⟨t, _, by rw [blockTokens, he]; rfl, ht, .inr hl⟩
  obtain ⟨t, ts, he, ht, hl⟩ := hnext
  obtain ⟨t₀, ts₀, he₀, ht₀, c, r, hc, hstart⟩ := statement_head hw
  rw [blockTokens, List.append_assoc] at h
  obtain ⟨mid, h, hrest⟩ := layout_append.mp h
  have hfirst := h
  rw [he₀] at hfirst
  obtain ⟨m₀, hg₀⟩ := skipGap_of_layout hfirst ht₀
  rw [hc, List.cons_append] at hg₀
  have hlay := hrest
  rw [he] at hlay
  obtain ⟨e, hst, hge⟩ := hs h (follows_of_layout hlay ht) (closed_of_layout hlay ht hl)
  have hne : c ≠ '\x7d' := by
    rintro rfl
    exact absurd hstart (by decide)
  have hread : statement block (c :: (r ++ m₀)) = .ok (s, e) := by
    rw [← hg₀, statement_skipGap, hst]
  rw [block_eq]
  simp only [blockWith, hg, hg₀, if_neg hne, bind_ok hread, bind_ok (hss hrest hge)]
  rfl

mutual

theorem readsValue (v : Value) (hw : v.WellFormed) : ReadsValue block v := by
  intro before cs rest h hf hc
  match v with
  | .closure c => exact closure_value_of_layout (readsClosure c hw h) h
  | .call c => exact call_value_of_layout hw.1 hw.2 h
  | .variable n =>
    have hn := word_value_of_layout (p := block) hw.1 hf hc h
    rwa [if_neg (not_or.mpr hw.2)] at hn
  | .literal t =>
    by_cases ht : t = "true" ∨ t = "false"
    · simp only [Value.tokens, literalToken, if_pos ht] at h hf
      have hname : IsName t.toList := by
        rcases ht with rfl | rfl
        · decide
        · decide
      have hn := word_value_of_layout (p := block) hname hf hc h
      rwa [if_pos ht] at hn
    · simp only [Value.tokens, literalToken, if_neg ht] at h
      exact literal_value_of_layout hw hc ht h

theorem readsClosure (c : Closure) (hw : c.WellFormed) {before : Token} {s : Spacing} {cs rest : List Char}
    (h : Layout before (c.tokens s) cs rest) : closure block cs = .ok (c, rest) := by
  match c with
  | ⟨ps, l, body⟩ => exact closure_step hw (fun _ _ hl => readsBlock body hw.2.2 hl rfl) h

theorem readsStatement (s : Statement) (hw : s.WellFormed) : ReadsStatement block s := by
  match s with
  | .declare b n l v => exact readsStatement_declare hw (readsValue v hw.2.2)
  | .assign n l v => exact readsStatement_assign hw (readsValue v hw.2.2)
  | .call c => exact readsStatement_call hw
  | .emit e p => exact readsStatement_emit hw
  | .exit f => exact readsStatement_exit hw

theorem readsBlock (ss : List Statement) (hw : blockWellFormed ss) : ReadsBlock block ss := by
  match ss with
  | [] => exact readsBlock_nil
  | s :: ss => exact readsBlock_cons hw.1 hw.2 (readsStatement s hw.1) (readsBlock ss hw.2)

end

lemma follows_finalGap (h : FinalGap cs) (hs : token.spacing = .free) : Follows token cs := by
  apply follows_free hs
  intro _ c hc hp
  obtain ⟨r, rfl⟩ := List.head?_eq_some_iff.mp hc
  rcases h.head with hb | rfl
  · exact not_isBlank_of_isNamePart hp hb
  · exact absurd hp (by decide)

lemma closure_last (c : Closure) (s : Spacing) : (c.tokens s).getLastD before = .symbol '\x7d' := by
  obtain ⟨ps, l, body⟩ := c
  simp only [Closure.tokens, List.getLastD_cons, getLastD_append, List.getLastD_nil]

lemma argumentTokens_last (as : List String) : (argumentTokens as).getLastD before = .symbol ')' := by
  simp only [argumentTokens, List.getLastD_cons, getLastD_append, List.getLastD_nil]

lemma value_last (v : Value) : (v.tokens.getLastD before).spacing = .free := by
  match v with
  | .closure c =>
    rw [Value.tokens, closure_last, Token.spacing_symbol]
  | .call c =>
    rw [Value.tokens, List.getLastD_cons, argumentTokens_last, Token.spacing_symbol]
  | .variable n => rfl
  | .literal t =>
    simp only [Value.tokens, literalToken]
    split
    · rfl
    · rfl

lemma Item.last (i : Item) : (i.tokens.getLastD before).spacing = .free := by
  cases i with
  | constant c =>
    simp only [Item.tokens, List.getLastD_cons]
    exact value_last c.value
  | event e => rfl
  | handler h =>
    rw [Item.tokens, List.getLastD_cons, List.getLastD_cons, closure_last, Token.spacing_symbol]

lemma Item.head (i : Item) : ∃ w ts, i.tokens = .word w .free :: ts ∧ IsName w.toList := by
  cases i with
  | constant c => exact ⟨_, _, rfl, by decide⟩
  | event e => exact ⟨_, _, rfl, by decide⟩
  | handler h => exact ⟨_, _, rfl, by decide⟩

lemma item_of_layout {i : Item} (hw : i.WellFormed) (hf : Follows (i.tokens.getLastD before) rest)
    (hc : Closed rest) (h : Layout before i.tokens cs rest) : item cs = .ok (i, rest) := by
  have hcolon : (Token.symbol ':').Solid := solid_symbol _
  cases i with
  | constant c =>
    obtain ⟨hn, hl, hv⟩ := hw
    simp only [Item.tokens, List.getLastD_cons] at hf
    obtain ⟨m₁, hk, h⟩ := name_of_layout h (by decide) (hn.solid _)
    have hb := binding_of_layout ⟨c.name, c.typeLabel⟩ (readsValue c.value hv) ⟨hn, hl⟩ hf hc h
    simp only [item, bind_ok hk, constant, bind_ok hb]
    rfl
  | event e =>
    obtain ⟨hn, hl⟩ := hw
    obtain ⟨m₁, hk, h⟩ := name_of_layout h (by decide) (hn.solid _)
    obtain ⟨m₂, hname, h⟩ := name_of_layout h hn hcolon
    obtain ⟨m₃, hs, h⟩ := symbol_of_layout h hcolon
    have hend : Follows (.label e.typeLabel) rest := hf
    have hne : (skipGap rest).head? ≠ some '<' := by
      intro he
      have hp := hc '<' he
      revert hp
      decide
    have hlabel := typeLabel_of_next (layout_singleton.mp h) hl hend hne
    simp only [item, bind_ok hk, event, parameter, bind_ok hname, bind_ok (symbol_eq_ok.mpr hs), bind_ok hlabel]
    rfl
  | handler d =>
    obtain ⟨hn, hcl⟩ := hw
    obtain ⟨m₁, hk, h⟩ := name_of_layout h (by decide) (hn.solid _)
    have hfn : ∃ ts, d.closure.tokens .free = .word "fn" .free :: ts := by
      obtain ⟨ps, l, body⟩ := d.closure
      exact ⟨_, rfl⟩
    obtain ⟨ts, hts⟩ := hfn
    rw [hts] at h
    obtain ⟨m₂, hname, h⟩ := name_of_layout h hn (IsName.solid (by decide) _)
    rw [← hts] at h
    have hclosure := readsClosure d.closure hcl h
    simp only [item, bind_ok hk, handler, bind_ok hname, bind_ok hclosure]
    rfl

lemma items_of_layout {is : List Item} (hw : ∀ i ∈ is, i.WellFormed) (hr : FinalGap rest) {cs' : List Char}
    (hg : skipGap cs' = skipGap cs) (h : Layout before (is.flatMap Item.tokens) cs rest) :
    items cs' = .ok is := by
  induction is generalizing before cs cs' with
  | nil =>
    obtain rfl := layout_nil.mp h
    rw [items_eq]
    simp only [itemsWith, hg, skipGap_eq_nil.mpr hr]
  | cons i is ih =>
    rw [List.flatMap_cons] at h
    obtain ⟨mid, h, hrest⟩ := layout_append.mp h
    have hmid : Follows (i.tokens.getLastD before) mid ∧ Closed mid := by
      cases is with
      | nil =>
        obtain rfl := layout_nil.mp hrest
        exact ⟨follows_finalGap hr i.last, closed_of_finalGap hr⟩
      | cons j js =>
        obtain ⟨w, ts, he, hname⟩ := Item.head j
        rw [List.flatMap_cons, he] at hrest
        exact ⟨follows_of_layout hrest (hname.solid _), closed_of_layout hrest (hname.solid _) (hname.startsLine _)⟩
    have hi := item_of_layout (hw i List.mem_cons_self) hmid.1 hmid.2 h
    have his := ih (fun j hj => hw j (List.mem_cons_of_mem i hj)) rfl hrest
    obtain ⟨w, ts, he, c, r, hcr, _⟩ := Item.head i
    rw [he] at h
    obtain ⟨m₀, hg₀⟩ := skipGap_of_layout h (IsName.solid ⟨c, r, hcr, by assumption⟩ _)
    rw [Token.text, hcr, List.cons_append] at hg₀
    have hread : item (c :: (r ++ m₀)) = .ok (i, mid) := by rw [← hg₀, item_skipGap, hi]
    rw [items_eq]
    simp only [itemsWith, hg, hg₀, bind_ok hread, bind_ok his]
    rfl

end Source

/-- Reading undoes writing: a text is read as the program of its items, whatever gaps it has. -/
theorem parse_of_rendering {items : List Item} {text : String} (hw : ∀ i ∈ items, i.WellFormed)
    (h : Rendering (items.flatMap Item.tokens) text.toList) : Program.parse text = .ok (.ofItems items) := by
  obtain ⟨rest, hl, hr⟩ := h
  rw [Program.parse, items_of_layout hw hr rfl hl]
  rfl

def nestedItems : List Item :=
  [.constant ⟨"x", "t", .call ⟨"f", ["y"]⟩⟩,
    .handler ⟨"on", ⟨⟨[⟨"b", "t"⟩], none⟩, "t",
      [.declare .let "g" "t" (.closure ⟨⟨[], none⟩, "t", [.emit "e" none]⟩), .assign "b" "" (.literal "true")]⟩⟩]

def nestedText : String :=
  .ofList (write .start (nestedItems.flatMap Item.tokens))

theorem parse_nestedText : (∀ i ∈ nestedItems, i.WellFormed) ∧
    Rendering (nestedItems.flatMap Item.tokens) nestedText.toList ∧
      Program.parse nestedText = .ok (.ofItems nestedItems) := by
  have hname : ∀ c, isNameStart c → IsName [c] := fun c h => ⟨c, [], rfl, h, List.forall_mem_nil _⟩
  have ht : IsType ['t'] := .name (hname 't' (by decide))
  have hw : ∀ i ∈ nestedItems, i.WellFormed := by
    intro i hi
    simp only [nestedItems, List.mem_cons, List.not_mem_nil, or_false] at hi
    rcases hi with rfl | rfl
    · refine ⟨hname 'x' (by decide), ht, ⟨hname 'f' (by decide), ?_⟩, by decide⟩
      intro a ha
      obtain rfl := List.mem_singleton.mp ha
      exact hname 'y' (by decide)
    · refine ⟨by decide, ?_, ht, ⟨hname 'g' (by decide), ht, ?_⟩, ?_, trivial⟩
      · intro p hp
        obtain rfl := List.mem_singleton.mp hp
        exact ⟨hname 'b' (by decide), ht⟩
      · refine ⟨List.forall_mem_nil _, ht, ⟨hname 'e' (by decide), ?_⟩, trivial⟩
        intro p hp
        cases hp
      · exact ⟨⟨hname 'b' (by decide), by decide⟩, .inl rfl, .inl rfl⟩
  have hr : Rendering (nestedItems.flatMap Item.tokens) nestedText.toList := by
    rw [nestedText, String.toList_ofList]
    exact rendering_write _
  exact ⟨hw, hr, parse_of_rendering hw hr⟩

end AmmCompiler
