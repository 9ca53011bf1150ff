import AmmCompiler.Proofs.Grammar.Completeness

/-! What is read is what the text spells: the part that a reader takes is the tokens of its answer and
gaps in front of them. -/

namespace AmmCompiler

open Source Text

variable {before : Token} {cs mid rest : List Char} {c : Char}

namespace Source

lemma follows_applied {w : String} (h : ∀ c ∈ cs.head?, ¬ isNamePart c)
    (ha : startsWith '(' (skipInlineGap cs) = true) : Follows (.word w .sameLine) cs := by
  apply follows_sameLine h
  simp only [startsWith, decide_eq_true_eq] at ha
  rw [ha]
  decide

lemma layout_of_symbol? (h : symbol? c cs = some rest) (hf : Follows before cs)
    (hb : before.spacing ≠ .lineEnd) (hs : (Token.symbol c).Solid) : Next before (.symbol c) cs rest :=
  next_of_symbol? h hf hs fun he => absurd he hb

lemma names_sound {as : List String} (h : names cs = .ok (as, rest)) (hf : Follows before cs) :
    as ≠ [] ∧ (∀ a ∈ as, IsName a.toList) ∧
      Layout before ((as.map (Token.word · .free)).intersperse (.symbol ',') ++ [.symbol ')']) cs rest := by
  have hcomma : (Token.symbol ',').Solid := solid_symbol _
  have hclose : (Token.symbol ')').Solid := solid_symbol _
  refine descend_ok (Q := fun cs a => ∀ before, Follows before cs → a.1 ≠ [] ∧ (∀ x ∈ a.1, IsName x.toList) ∧
    Layout before ((a.1.map (Token.word · .free)).intersperse (.symbol ',') ++ [.symbol ')']) cs a.2) ?_ h before hf
  rintro p hp cs ⟨as, rest⟩ h before hf
  simp only [namesWith, bind_eq_ok, Prod.exists] at h
  obtain ⟨w, r, hn, h⟩ := h
  obtain ⟨hw, hnext, hr⟩ := next_of_name hn hf .free
  have hfw : Follows (.word w .free) r := follows_word hr
  split at h
  · next r' hs =>
    simp only [bind_eq_ok, Prod.exists, pure_eq_ok, Prod.mk.injEq] at h
    obtain ⟨others, r'', ho, rfl, rfl⟩ := h
    obtain ⟨hne, hnames, hl⟩ := hp _ _ ho _ (follows_symbol ',' r')
    obtain ⟨x, xs, rfl⟩ := List.exists_cons_of_ne_nil hne
    refine ⟨List.cons_ne_nil _ _, ?_, .cons hnext (.cons (layout_of_symbol? hs hfw Spacing.free_ne_lineEnd hcomma) hl)⟩
    intro y hy
    rcases List.mem_cons.mp hy with rfl | hy
    · exact hw
    · exact hnames y hy
  · simp only [bind_eq_ok, pure_eq_ok, Prod.mk.injEq] at h
    obtain ⟨r', hs, rfl, rfl⟩ := h
    have hend := layout_of_symbol? (symbol_eq_ok.mp hs) hfw Spacing.free_ne_lineEnd hclose
    refine ⟨List.cons_ne_nil _ _, ?_, .cons hnext (.cons hend .nil)⟩
    intro y hy
    rw [List.mem_singleton.mp hy]
    exact hw

lemma arguments_sound {as : List String} (h : arguments cs = .ok (as, rest)) (hf : Follows before cs)
    (hb : before.spacing ≠ .lineEnd) : (∀ a ∈ as, IsName a.toList) ∧ Layout before (argumentTokens as) cs rest := by
  have hopen : (Token.symbol '(').Solid := solid_symbol _
  have hclose : (Token.symbol ')').Solid := solid_symbol _
  simp only [arguments, bind_eq_ok] at h
  obtain ⟨r, ho, h⟩ := h
  have hnext := layout_of_symbol? (symbol_eq_ok.mp ho) hf hb hopen
  split at h
  · next r' hs =>
    simp only [Except.ok.injEq, Prod.mk.injEq] at h
    obtain ⟨rfl, rfl⟩ := h
    have hcl := layout_of_symbol? hs (follows_symbol '(' r) Spacing.free_ne_lineEnd hclose
    exact ⟨List.forall_mem_nil _, .cons hnext (.cons hcl .nil)⟩
  · obtain ⟨_, hnames, hl⟩ := names_sound h (follows_symbol '(' r)
    exact ⟨hnames, .cons hnext hl⟩

lemma parameter_sound {p : Parameter} (h : parameter cs = .ok (p, rest)) (hf : Follows before cs) :
    p.WellFormed ∧ Layout before p.tokens cs rest ∧ Follows (.label p.typeLabel) rest := by
  simp only [parameter, bind_eq_ok, Prod.exists, pure_eq_ok, Prod.mk.injEq] at h
  obtain ⟨w, r₁, hn, r₂, hs, l, r₃, hl, rfl, rfl⟩ := h
  obtain ⟨hw, hnext, hr⟩ := next_of_name hn hf .free
  have hfw : Follows (.word w .free) r₁ := follows_word hr
  have hcolon := layout_of_symbol? (symbol_eq_ok.mp hs) hfw Spacing.free_ne_lineEnd (solid_symbol _)
  obtain ⟨ht, hlabel, hend⟩ := next_of_typeLabel hl (follows_symbol ':' r₂)
  exact ⟨⟨hw, ht⟩, .cons hnext (.cons hcolon (.cons hlabel .nil)), hend⟩

lemma parameters_sound {ps : Parameters} (h : parameters cs = .ok (ps, rest)) (hf : Follows before cs)
    (hb : before.spacing ≠ .lineEnd) : ps.WellFormed ∧ Layout before ps.tokens cs rest := by
  have hcomma : (Token.symbol ',').Solid := solid_symbol _
  have hclose : (Token.symbol ')').Solid := solid_symbol _
  refine descend_ok (Q := fun cs a => ∀ before, Follows before cs → before.spacing ≠ .lineEnd →
    a.1.WellFormed ∧ Layout before a.1.tokens cs a.2) ?_ h before hf hb
  rintro p hp cs ⟨ps, rest⟩ h before hf hb
  simp only [parametersWith] at h
  split at h
  · next r hs =>
    simp only [Except.ok.injEq, Prod.mk.injEq] at h
    obtain ⟨rfl, rfl⟩ := h
    exact ⟨List.forall_mem_nil _, .cons (layout_of_symbol? hs hf hb hclose) .nil⟩
  · simp only [bind_eq_ok, Prod.exists] at h
    obtain ⟨first, r, hp₁, h⟩ := h
    obtain ⟨hw, hl, hend⟩ := parameter_sound hp₁ hf
    split at h
    · next r' hs =>
      simp only [bind_eq_ok, Prod.exists, pure_eq_ok, Prod.mk.injEq] at h
      obtain ⟨others, r'', ho, rfl, rfl⟩ := h
      obtain ⟨hws, hls⟩ := hp _ _ ho _ (follows_symbol ',' r') Spacing.free_ne_lineEnd
      refine ⟨?_, ?_⟩
      · intro q hq
        simp only [Parameters.all, List.cons_append, List.mem_cons] at hq
        rcases hq with rfl | hq
        · exact hw
        · exact hws q hq
      · have hcom := layout_of_symbol? hs hend Spacing.free_ne_lineEnd hcomma
        have hall := layout_append.mpr ⟨r, hl, Layout.cons hcom hls⟩
        simpa [Parameters.tokens] using hall
    · simp only [bind_eq_ok, pure_eq_ok, Prod.mk.injEq] at h
      obtain ⟨r', hs, rfl, rfl⟩ := h
      refine ⟨?_, ?_⟩
      · intro q hq
        obtain rfl := List.mem_singleton.mp hq
        exact hw
      · have hcl := layout_of_symbol? (symbol_eq_ok.mp hs) hend Spacing.free_ne_lineEnd hclose
        have hall := layout_append.mpr ⟨r, hl, Layout.cons hcl .nil⟩
        simpa [Parameters.tokens] using hall

lemma parameters_last (ps : Parameters) : ps.tokens.getLastD before = .symbol ')' := by
  simp only [Parameters.tokens, getLastD_append, List.getLastD_cons, List.getLastD_nil]

def SoundBlock (p : BlockReader) : Prop :=
  ∀ ⦃cs ss rest⦄, p cs = .ok (ss, rest) → ∀ ⦃before cs'⦄, skipGap cs' = skipGap cs → Follows before cs' →
    blockWellFormed ss ∧ Layout before (blockTokens ss ++ [.symbol '\x7d']) cs' rest

def SoundValue (v : Value) (before : Token) (cs rest : List Char) : Prop :=
  v.WellFormed ∧ Layout before v.tokens cs rest ∧ Follows (v.tokens.getLastD before) rest

def SoundStatement (s : Statement) (before : Token) (cs rest : List Char) : Prop :=
  s.WellFormed ∧ ∃ e, Layout before s.tokens cs e ∧ Follows (s.tokens.getLastD before) e ∧ skipGap e = skipGap rest

lemma name_of_functionKeyword (h : functionKeyword cs = .ok rest) : name cs = .ok ("fn", rest) := by
  simp only [functionKeyword, bind_eq_ok, Prod.exists] at h
  obtain ⟨w, r, hn, h⟩ := h
  split at h
  · next hw =>
    obtain rfl := Except.ok.inj h
    rw [hn, hw]
  · cases h

lemma closure_sound {p : BlockReader} (hp : SoundBlock p) {c : Closure} {s : Spacing}
    (h : closure p cs = .ok (c, rest)) (hf : Follows before cs) (hs : s ≠ .lineEnd)
    (hw : ∀ mid, name cs = .ok ("fn", mid) → Follows (.word "fn" s) mid) :
    c.WellFormed ∧ Layout before (c.tokens s) cs rest := by
  have hopen : (Token.symbol '(').Solid := solid_symbol _
  have hcolon : (Token.symbol ':').Solid := solid_symbol _
  have hbrace : (Token.symbol '\x7b').Solid := solid_symbol _
  simp only [closure, bind_eq_ok, Prod.exists, pure_eq_ok, Prod.mk.injEq] at h
  obtain ⟨r₁, h₁, r₂, h₂, ps, r₃, h₃, r₄, h₄, label, r₅, h₅, r₆, h₆, body, r₇, h₇, rfl, rfl⟩ := h
  have hn := name_of_functionKeyword h₁
  obtain ⟨_, hkeyword, _⟩ := next_of_name hn hf s
  have hpar := layout_of_symbol? (symbol_eq_ok.mp h₂) (hw _ hn) hs hopen
  obtain ⟨hps, hparameters⟩ := parameters_sound h₃ (follows_symbol '(' r₂) Spacing.free_ne_lineEnd
  have hcol := layout_of_symbol? (symbol_eq_ok.mp h₄) (follows_symbol ')' r₃) Spacing.free_ne_lineEnd hcolon
  obtain ⟨hl, hlabel, hend⟩ := next_of_typeLabel h₅ (follows_symbol ':' r₄)
  have hbr := layout_of_symbol? (symbol_eq_ok.mp h₆) hend Spacing.free_ne_lineEnd hbrace
  obtain ⟨hb, hbody⟩ := hp h₇ rfl (follows_symbol '\x7b' r₆)
  refine ⟨⟨hps, hl, hb⟩, .cons hkeyword (.cons hpar (layout_append.mpr ⟨r₃, hparameters, ?_⟩))⟩
  rw [parameters_last]
  exact .cons hcol (.cons hlabel (.cons hbr hbody))

lemma literal_sound {t : String} (hl : IsLiteral t) (hne : ¬ (t = "true" ∨ t = "false"))
    (hg : skipGap cs = t.toList ++ rest) (hs : (Token.literal t).Solid) (hf : Follows before cs)
    (hb : before.spacing ≠ .lineEnd) : SoundValue (.literal t) before cs rest := by
  have hn : Next before (.literal t) cs rest := hf.next hg hs fun he => absurd he hb
  rw [SoundValue, Value.tokens, literalToken, if_neg hne]
  exact ⟨hl, .cons hn .nil, follows_literal t rest⟩

lemma ne_of_head {t : String} {c : Char} {r : List Char} (h : t.toList = c :: r) (hc : ¬ isNameStart c) :
    ¬ (t = "true" ∨ t = "false") := by
  rintro (rfl | rfl)
  · obtain ⟨rfl, _⟩ := List.cons.inj h
    exact hc (by decide)
  · obtain ⟨rfl, _⟩ := List.cons.inj h
    exact hc (by decide)

lemma wordValue_sound {p : BlockReader} (hp : SoundBlock p) {v : Value}
    (h : wordValue p cs = .ok (v, rest)) (hf : Follows before cs) : SoundValue v before cs rest := by
  simp only [wordValue, bind_eq_ok, Prod.exists] at h
  obtain ⟨w, r, hn, h⟩ := h
  obtain ⟨hw, hfree, hr⟩ := next_of_name hn hf .free
  have hend : Follows (.word w .free) r := follows_word hr
  split at h
  · next hfn =>
    obtain ⟨rfl, happ⟩ := hfn
    simp only [bind_eq_ok, Prod.exists, pure_eq_ok, Prod.mk.injEq] at h
    obtain ⟨c, r', hc, rfl, rfl⟩ := h
    have hfollows (mid : List Char) (hmid : name cs = .ok ("fn", mid)) : Follows (.word "fn" .sameLine) mid := by
      obtain ⟨_, rfl⟩ := Prod.mk.inj (Except.ok.inj (hn.symm.trans hmid))
      exact follows_applied hr happ
    obtain ⟨hcw, hl⟩ := closure_sound hp hc hf Spacing.sameLine_ne_lineEnd hfollows
    refine ⟨hcw, hl, ?_⟩
    rw [Value.tokens, closure_last]
    exact follows_symbol _ _
  · next hfn =>
    split at h
    · next ht =>
      simp only [pure_eq_ok, Prod.mk.injEq] at h
      obtain ⟨rfl, rfl⟩ := h
      rw [SoundValue, Value.tokens, literalToken, if_pos ht]
      refine ⟨?_, .cons hfree .nil, hend⟩
      rcases ht with ht | ht
      · exact .inl ht
      · exact .inr (.inl ht)
    · next ht =>
      obtain ⟨ht, hfalse⟩ := not_or.mp ht
      split at h
      · next happ =>
        simp only [bind_eq_ok, Prod.exists, pure_eq_ok, Prod.mk.injEq] at h
        obtain ⟨as, r', ha, rfl, rfl⟩ := h
        obtain ⟨_, hline, _⟩ := next_of_name hn hf .sameLine
        have hfollows : Follows (.word w .sameLine) r := follows_applied hr happ
        obtain ⟨has, hl⟩ := arguments_sound ha hfollows Spacing.sameLine_ne_lineEnd
        refine ⟨⟨⟨hw, has⟩, ?_⟩, .cons hline hl, ?_⟩
        · simp only [valueKeywords, List.mem_cons, List.not_mem_nil, or_false, not_or]
          exact ⟨fun he => hfn ⟨he, happ⟩, ht, hfalse⟩
        · rw [Value.tokens, List.getLastD_cons, argumentTokens_last]
          exact follows_symbol _ _
      · simp only [pure_eq_ok, Prod.mk.injEq] at h
        obtain ⟨rfl, rfl⟩ := h
        exact ⟨⟨hw, ht, hfalse⟩, .cons hfree .nil, hend⟩

lemma value_sound {p : BlockReader} (hp : SoundBlock p) {v : Value} (h : value p cs = .ok (v, rest))
    (hf : Follows before cs) (hb : before.spacing ≠ .lineEnd) : SoundValue v before cs rest := by
  simp only [value] at h
  split at h
  · cases h
  · next c r hg =>
    split at h
    · next hc =>
      subst hc
      simp only [bind_eq_ok, Prod.exists, pure_eq_ok, Prod.mk.injEq] at h
      obtain ⟨t, r', ht, rfl, rfl⟩ := h
      obtain ⟨hs, he⟩ := isString_of_string ht
      have hne : ¬ (t = "true" ∨ t = "false") := by
        obtain ⟨b, hq, _⟩ := hs
        exact ne_of_head hq (by decide)
      exact literal_sound (.inr (.inr (.inl hs))) hne (hg.trans he) hs.solid hf hb
    · split at h
      · simp only [bind_eq_ok, Prod.exists, pure_eq_ok, Prod.mk.injEq] at h
        obtain ⟨t, r', ht, rfl, rfl⟩ := h
        obtain ⟨hs, he⟩ := isNumber_of_number ht
        have hne : ¬ (t = "true" ∨ t = "false") := by
          obtain ⟨d, q, hq, hd⟩ := hs.head
          apply ne_of_head hq
          intro hstart
          rcases hd with hd | rfl
          · exact not_isDigit_of_isNameStart hstart hd
          · exact absurd hstart (by decide)
        exact literal_sound (.inr (.inr (.inr hs))) hne (hg.trans he) hs.solid hf hb
      · split at h
        · rw [← hg, wordValue_skipGap] at h
          exact wordValue_sound hp h hf
        · cases h

lemma assignedValue_sound {p : BlockReader} (hp : SoundBlock p) {v : Value}
    (h : assignedValue p cs = .ok (v, rest)) (hf : Follows before cs) (hb : before.spacing ≠ .lineEnd) :
    v.WellFormed ∧ Layout before (.symbol '=' :: v.tokens) cs rest ∧
      Follows (v.tokens.getLastD (.symbol '=')) rest := by
  simp only [assignedValue, bind_eq_ok] at h
  obtain ⟨r, hs, h⟩ := h
  have hn := layout_of_symbol? (symbol_eq_ok.mp hs) hf hb (solid_symbol _)
  obtain ⟨hv, hl, hend⟩ := value_sound hp h (follows_symbol '=' r) Spacing.free_ne_lineEnd
  exact ⟨hv, .cons hn hl, hend⟩

lemma binding_sound {p : BlockReader} (hp : SoundBlock p) {target : Parameter} {v : Value}
    (h : binding p cs = .ok ((target, v), rest)) (hf : Follows before cs) :
    target.WellFormed ∧ v.WellFormed ∧ Layout before (target.tokens ++ .symbol '=' :: v.tokens) cs rest ∧
      Follows (v.tokens.getLastD (.symbol '=')) rest := by
  simp only [binding, bind_eq_ok, Prod.exists, pure_eq_ok, Prod.mk.injEq] at h
  obtain ⟨t, r, ht, w, r', hw, ⟨rfl, rfl⟩, rfl⟩ := h
  obtain ⟨hwf, hl, hlabel⟩ := parameter_sound ht hf
  obtain ⟨hv, hvl, hend⟩ := assignedValue_sound hp hw hlabel Spacing.free_ne_lineEnd
  exact ⟨hwf, hv, layout_append.mpr ⟨r, hl, hvl⟩, hend⟩

lemma declaration_sound {p : BlockReader} (hp : SoundBlock p) {b : Binding} {s : Statement}
    (hn : name cs = .ok (b.keyword, mid)) (h : declaration p b mid = .ok (s, rest)) (hf : Follows before cs) :
    SoundStatement s before cs rest := by
  obtain ⟨_, hk, hr⟩ := next_of_name hn hf .free
  simp only [declaration, bind_eq_ok, Prod.exists, pure_eq_ok, Prod.mk.injEq] at h
  obtain ⟨⟨n, l⟩, v, r, hb, rfl, rfl⟩ := h
  obtain ⟨ht, hv, hl, hend⟩ := binding_sound hp hb (follows_word hr)
  refine ⟨⟨ht.1, ht.2, hv⟩, r, .cons hk hl, ?_, rfl⟩
  simpa only [Statement.tokens, List.getLastD_cons] using hend

lemma emission_sound {s : Statement} (hn : name cs = .ok ("emit", mid)) (h : emission mid = .ok (s, rest))
    (hf : Follows before cs) : SoundStatement s before cs rest := by
  obtain ⟨_, hk, hr⟩ := next_of_name hn hf .free
  have hkw : Follows (.word "emit" .free) mid := follows_word hr
  simp only [emission, bind_eq_ok, Prod.exists] at h
  obtain ⟨event, r, he, h⟩ := h
  have hnone (hl : ∀ c ∈ (skipInlineGap r).head?, ¬ isNameStart c) :
      SoundStatement (.emit event none) before cs r := by
    obtain ⟨hw, hnext, hr⟩ := next_of_name he hkw .lineEnd
    refine ⟨⟨hw, ?_⟩, r, .cons hk (.cons hnext .nil), follows_lineEnd hr hl, rfl⟩
    intro x hx
    cases hx
  split at h
  · next hi =>
    simp only [pure_eq_ok, Prod.mk.injEq] at h
    obtain ⟨rfl, rfl⟩ := h
    apply hnone
    rw [hi]
    intro d hd
    cases hd
  · next c r' hi =>
    split at h
    · next hc =>
      simp only [bind_eq_ok, Prod.exists, pure_eq_ok, Prod.mk.injEq] at h
      obtain ⟨payload, r'', hp, rfl, rfl⟩ := h
      obtain ⟨hw, hnext, hr⟩ := next_of_name he hkw .sameLine
      have hline : Follows (.word event .sameLine) r := by
        apply follows_sameLine hr
        intro hnl
        rw [hi] at hnl
        obtain rfl := Option.some.inj hnl
        exact absurd hc (by decide)
      obtain ⟨hpw, hpn, hpr⟩ := next_of_name hp hline .free
      refine ⟨⟨hw, ?_⟩, r'', .cons hk (.cons hnext (.cons hpn .nil)), follows_word hpr, rfl⟩
      intro x hx
      obtain rfl := Option.some.inj hx
      exact hpw
    · next hc =>
      simp only [pure_eq_ok, Prod.mk.injEq] at h
      obtain ⟨rfl, rfl⟩ := h
      apply hnone
      rw [hi]
      intro d hd
      obtain rfl := Option.some.inj hd
      exact hc

lemma exit_sound {w : String} {s : Statement} (hw : w ∈ exitKeywords) (hn : name cs = .ok (w, mid))
    (h : exit (skipGap cs) mid = .ok (s, rest)) (hf : Follows before cs) :
    SoundStatement s before cs rest := by
  obtain ⟨f, rfl, he, e, hnext, hg, hend⟩ := next_of_exit hw hn h hf
  exact ⟨he, e, .cons hnext .nil, hend, hg⟩

lemma continuation_sound {p : BlockReader} (hp : SoundBlock p) {w : String} {s : Statement}
    (hn : name cs = .ok (w, mid)) (hw : w ∉ statementKeywords) (h : continuation p w mid = .ok (s, rest))
    (hf : Follows before cs) : SoundStatement s before cs rest := by
  obtain ⟨hname, hnext, hr⟩ := next_of_name hn hf .free
  have hword : Follows (.word w .free) mid := follows_word hr
  simp only [continuation] at h
  split at h
  · simp only [bind_eq_ok, Prod.exists, pure_eq_ok, Prod.mk.injEq] at h
    obtain ⟨as, r, ha, rfl, rfl⟩ := h
    obtain ⟨has, hl⟩ := arguments_sound ha hword Spacing.free_ne_lineEnd
    refine ⟨⟨⟨hname, has⟩, hw⟩, r, .cons hnext hl, ?_, rfl⟩
    rw [Statement.tokens, List.getLastD_cons, argumentTokens_last]
    exact follows_symbol _ _
  · next r hg =>
    simp only [bind_eq_ok, Prod.exists, pure_eq_ok, Prod.mk.injEq] at h
    obtain ⟨l, r₁, hlabel, v, r₂, hv, rfl, rfl⟩ := h
    have hcolon : Next (.word w .free) (.symbol ':') mid r :=
      hword.next hg (solid_symbol _) fun he => absurd he Spacing.free_ne_lineEnd
    obtain ⟨hl, hln, hend⟩ := next_of_typeLabel hlabel (follows_symbol ':' r)
    obtain ⟨hvw, hvl, hvend⟩ := assignedValue_sound hp hv hend Spacing.free_ne_lineEnd
    have hne : l ≠ "" := by
      rintro rfl
      obtain ⟨c, q, hq, _⟩ := hl.head
      cases hq
    refine ⟨⟨⟨hname, hw⟩, .inr hl, hvw⟩, r₂, ?_, ?_, rfl⟩
    · rw [Statement.tokens, if_neg hne]
      exact .cons hnext (.cons hcolon (.cons hln hvl))
    · simpa only [Statement.tokens, if_neg hne, List.cons_append, List.nil_append, List.getLastD_cons] using hvend
  · simp only [bind_eq_ok, Prod.exists, pure_eq_ok, Prod.mk.injEq] at h
    obtain ⟨v, r, hv, rfl, rfl⟩ := h
    obtain ⟨hvw, hvl, hvend⟩ := assignedValue_sound hp hv hword Spacing.free_ne_lineEnd
    refine ⟨⟨⟨hname, hw⟩, .inl rfl, hvw⟩, r, .cons hnext hvl, ?_, rfl⟩
    simpa only [Statement.tokens, if_true, List.nil_append, List.getLastD_cons] using hvend
  · cases h

lemma statement_sound {p : BlockReader} (hp : SoundBlock p) {s : Statement}
    (h : statement p cs = .ok (s, rest)) (hf : Follows before cs) : SoundStatement s before cs rest := by
  simp only [statement, bind_eq_ok, Prod.exists] at h
  obtain ⟨w, r, hn, h⟩ := h
  split at h
  · exact declaration_sound (b := .const) hp hn h hf
  · exact declaration_sound (b := .let) hp hn h hf
  · exact emission_sound hn h hf
  · exact exit_sound (by decide) hn h hf
  · exact exit_sound (by decide) hn h hf
  · next h₁ h₂ h₃ h₄ h₅ =>
    have hw : w ∉ statementKeywords := by
      simp only [statementKeywords, List.mem_cons, List.not_mem_nil, or_false, not_or]
      exact ⟨h₁, h₂, h₃, h₄, h₅⟩
    exact continuation_sound hp hn hw h hf

lemma soundBlock : SoundBlock block := by
  have hclose : (Token.symbol '\x7d').Solid := solid_symbol _
  intro cs ss rest h
  refine descend_ok (Q := fun cs a => ∀ ⦃before cs'⦄, skipGap cs' = skipGap cs → Follows before cs' →
    blockWellFormed a.1 ∧ Layout before (blockTokens a.1 ++ [.symbol '\x7d']) cs' a.2) ?_ h
  rintro p hp cs ⟨ss, rest⟩ h before cs' hg hf
  have hsound : SoundBlock p := fun _ _ _ h => hp _ _ h
  simp only [blockWith] at h
  split at h
  · cases h
  · next c r hc =>
    split at h
    · next hb =>
      simp only [Except.ok.injEq, Prod.mk.injEq] at h
      obtain ⟨rfl, rfl⟩ := h
      exact ⟨trivial, .cons (hf.next (hg.trans (hb ▸ hc)) hclose fun _ => .inl rfl) .nil⟩
    · simp only [bind_eq_ok, Prod.exists, pure_eq_ok, Prod.mk.injEq] at h
      obtain ⟨first, r₁, hs, others, r₂, ho, rfl, rfl⟩ := h
      rw [← hc, ← hg, statement_skipGap] at hs
      obtain ⟨hw, e, hl, hend, hge⟩ := statement_sound hsound hs hf
      obtain ⟨hws, hls⟩ := hsound ho hge hend
      refine ⟨⟨hw, hws⟩, ?_⟩
      rw [blockTokens, List.append_assoc]
      exact layout_append.mpr ⟨e, hl, hls⟩

lemma item_sound {i : Item} (h : item cs = .ok (i, rest)) (hf : Follows before cs) :
    i.WellFormed ∧ Layout before i.tokens cs rest ∧ Follows (i.tokens.getLastD before) rest := by
  simp only [item, bind_eq_ok, Prod.exists] at h
  obtain ⟨w, r, hn, h⟩ := h
  obtain ⟨_, hk, hr⟩ := next_of_name hn hf .free
  split at h
  · simp only [constant, bind_eq_ok, Prod.exists, pure_eq_ok, Prod.mk.injEq] at h
    obtain ⟨⟨n, l⟩, v, r', hb, rfl, rfl⟩ := h
    obtain ⟨ht, hv, hl, hend⟩ := binding_sound soundBlock hb (follows_word hr)
    refine ⟨⟨ht.1, ht.2, hv⟩, .cons hk hl, ?_⟩
    simpa only [Item.tokens, List.getLastD_cons] using hend
  · simp only [event, bind_eq_ok, Prod.exists, pure_eq_ok, Prod.mk.injEq] at h
    obtain ⟨t, r', ht, rfl, rfl⟩ := h
    obtain ⟨hw, hl, hend⟩ := parameter_sound ht (follows_word hr)
    exact ⟨hw, .cons hk hl, hend⟩
  · simp only [handler, bind_eq_ok, Prod.exists, pure_eq_ok, Prod.mk.injEq] at h
    obtain ⟨e, r₁, he, c, r₂, hc, rfl, rfl⟩ := h
    obtain ⟨hw, hnext, hr₁⟩ := next_of_name he (follows_word hr) .free
    have hfollows (mid : List Char) (hmid : name r₁ = .ok ("fn", mid)) : Follows (.word "fn" .free) mid :=
      follows_word (skipGap_of_name hmid).2.2
    obtain ⟨hcw, hl⟩ := closure_sound soundBlock hc (follows_word hr₁) Spacing.free_ne_lineEnd hfollows
    refine ⟨⟨hw, hcw⟩, .cons hk (.cons hnext hl), ?_⟩
    rw [Item.tokens, List.getLastD_cons, List.getLastD_cons, closure_last]
    exact follows_symbol _ _
  · cases h

lemma items_sound {is : List Item} (h : items cs = .ok is) (hf : Follows before cs) :
    (∀ i ∈ is, i.WellFormed) ∧ ∃ rest, Layout before (is.flatMap Item.tokens) cs rest ∧ FinalGap rest := by
  refine descend_ok (Q := fun cs is => ∀ before, Follows before cs → (∀ i ∈ is, i.WellFormed) ∧
    ∃ rest, Layout before (is.flatMap Item.tokens) cs rest ∧ FinalGap rest) ?_ h before hf
  intro p hp cs is h before hf
  simp only [itemsWith] at h
  split at h
  · next hg =>
    obtain rfl := Except.ok.inj h
    exact ⟨List.forall_mem_nil _, cs, .nil, skipGap_eq_nil.mp hg⟩
  · next c r hg =>
    simp only [bind_eq_ok, Prod.exists, pure_eq_ok] at h
    obtain ⟨first, r₁, hi, others, ho, rfl⟩ := h
    rw [← hg, item_skipGap] at hi
    obtain ⟨hw, hl, hend⟩ := item_sound hi hf
    obtain ⟨hws, rest, hls, hr⟩ := hp _ _ ho _ hend
    refine ⟨?_, rest, ?_, hr⟩
    · intro i hi
      rcases List.mem_cons.mp hi with rfl | hi
      · exact hw
      · exact hws i hi
    · rw [List.flatMap_cons]
      exact layout_append.mpr ⟨r₁, hl, hls⟩

end Source

lemma items_of_parse {text : String} {p : Program} (h : Program.parse text = .ok p) :
    ∃ is, items text.toList = .ok is ∧ p = .ofItems is := by
  simp only [Program.parse] at h
  cases hi : items text.toList with
  | error f =>
    rw [hi] at h
    cases h
  | ok is =>
    rw [hi] at h
    exact ⟨is, rfl, (Except.ok.inj h).symm⟩

lemma failure_of_parse {text : String} {e : SyntaxError} (h : Program.parse text = .error e) :
    ∃ f, items text.toList = .error f ∧ e = f.locate text.toList := by
  rw [Program.parse] at h
  cases hi : items text.toList with
  | error f =>
    rw [hi] at h
    exact ⟨f, rfl, (Except.error.inj h).symm⟩
  | ok is =>
    rw [hi] at h
    cases h

lemma parse_of_items {text : String} {x : Except Failure (List Item)} (h : items text.toList = x) :
    Program.parse text = (x.map Program.ofItems).mapError (Failure.locate text.toList) := by
  rw [Program.parse, h]

lemma wellFormed_of_parse {text : String} {p : Program} (h : Program.parse text = .ok p) : p.WellFormed := by
  obtain ⟨is, hi, rfl⟩ := items_of_parse h
  exact Program.ofItems_wellFormed (items_sound hi (follows_start _)).1

/-- A text that is read as a program is the tokens of its items and gaps around them. -/
theorem rendering_of_parse {text : String} {p : Program} (h : Program.parse text = .ok p) :
    p.WellFormed ∧ ∃ items : List Item, (∀ i ∈ items, i.WellFormed) ∧
      Rendering (items.flatMap Item.tokens) text.toList ∧ p = .ofItems items := by
  obtain ⟨is, hi, he⟩ := items_of_parse h
  obtain ⟨hw, rest, hl, hr⟩ := items_sound hi (follows_start _)
  exact ⟨wellFormed_of_parse h, is, hw, ⟨rest, hl, hr⟩, he⟩

def commaText : String :=
  "on a fn (b: c,): d \x7b x = \"\x7d\" return x // y\n\x7d"

def commaProgram : Program where
  constants := []
  events := []
  handlers := [⟨"a", ⟨⟨[⟨"b", "c"⟩], none⟩, "d", [.assign "x" "" (.literal "\"\x7d\""), .exit "return x"]⟩⟩]

theorem rendering_commaText : Program.parse commaText = .ok commaProgram ∧ commaProgram.WellFormed ∧
    ∃ items : List Item, (∀ i ∈ items, i.WellFormed) ∧
      Rendering (items.flatMap Item.tokens) commaText.toList ∧ commaProgram = .ofItems items :=
  ⟨rfl, rendering_of_parse rfl⟩

end AmmCompiler
