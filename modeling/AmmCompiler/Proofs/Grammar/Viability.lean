import AmmCompiler.Proofs.Grammar.Completion

namespace AmmCompiler

open Source Text

variable {before : Token} {cs mid rest : List Char} {f : Failure} {p : BlockReader}

namespace Source

def ViableBlock (p : BlockReader) : Prop :=
  ∀ ⦃cs f⦄, p cs = .error f → ∀ ⦃before cs'⦄, skipGap cs' = skipGap cs → Follows before cs' →
    before.spacing ≠ .sameLine → ∃ ss, blockWellFormed ss ∧
      Completes before (blockTokens ss ++ [.symbol '\x7d']) cs' f.rest

lemma closureTail_error (hp : ViableBlock p) (h : closureTail p cs = .error f) (ho : symbol? '(' cs = some mid) :
    ∃ c : Closure, c.WellFormed ∧ ∀ ⦃before cs' s⦄, Layout before [.word "fn" s, .symbol '('] cs' mid →
      Completes before (c.tokens s) cs' f.rest := by
  rw [closureTail, bind_ok (symbol_eq_ok.mpr ho)] at h
  rcases bind_eq_error.mp h with h | ⟨⟨ps, r₁⟩, hps, h⟩
  · obtain ⟨ps, hps, hc⟩ := parameters_error h (follows_symbol '(' mid) Spacing.free_ne_sameLine
    exact ⟨⟨ps, "a", []⟩, ⟨hps, isType_a, trivial⟩, fun _ _ _ hl => hl.completes (hc.append _)⟩
  obtain ⟨hpw, hpl⟩ := parameters_sound hps (follows_symbol '(' mid) Spacing.free_ne_lineEnd
  have hclose (before : Token) : Follows (ps.tokens.getLastD before) r₁ := by
    rw [parameters_last]
    exact follows_symbol ')' r₁
  have hfree (before : Token) : (ps.tokens.getLastD before).spacing = .free := by rw [parameters_last]; rfl
  rcases bind_eq_error.mp h with h | ⟨r₂, hs, h⟩
  · obtain ⟨rfl, _⟩ := symbol_eq_error.mp h
    refine ⟨⟨ps, "a", []⟩, ⟨hpw, isType_a, trivial⟩, fun _ _ _ hl => hl.completes (hpl.completes ?_)⟩
    exact (hclose _).completes (by rw [hfree]; exact Spacing.free_ne_sameLine) _ _
  have hcolon := layout_of_symbol? (symbol_eq_ok.mp hs) (hclose (.symbol '('))
    (by rw [hfree]; exact Spacing.free_ne_lineEnd) (solid_symbol _)
  rcases bind_eq_error.mp h with h | ⟨⟨l, r₃⟩, hlabel, h⟩
  · obtain ⟨l, hl, hc⟩ := typeLabel_error h (follows_symbol ':' r₂) Spacing.free_ne_sameLine
    exact ⟨⟨ps, l, []⟩, ⟨hpw, hl, trivial⟩, fun _ _ _ hlay =>
      hlay.completes (hpl.completes (hcolon.completes (hc.append _)))⟩
  obtain ⟨hl, hln, hend⟩ := next_of_typeLabel hlabel (follows_symbol ':' r₂)
  rcases bind_eq_error.mp h with h | ⟨r₄, hs, h⟩
  · obtain ⟨rfl, _⟩ := symbol_eq_error.mp h
    exact ⟨⟨ps, l, []⟩, ⟨hpw, hl, trivial⟩, fun _ _ _ hlay => hlay.completes (hpl.completes (hcolon.completes
      (hln.completes (hend.completes Spacing.free_ne_sameLine _ _))))⟩
  have hbrace := layout_of_symbol? (symbol_eq_ok.mp hs) hend Spacing.free_ne_lineEnd (solid_symbol _)
  obtain ⟨ss, hss, hc⟩ := hp (map_eq_error.mp h) rfl (follows_symbol '\x7b' r₄) Spacing.free_ne_sameLine
  exact ⟨⟨ps, l, ss⟩, ⟨hpw, hl, hss⟩, fun _ _ _ hlay => hlay.completes (hpl.completes (hcolon.completes
    (hln.completes (hbrace.completes hc))))⟩

lemma functionKeyword_error (h : functionKeyword cs = .error f) : f.rest = skipGap cs := by
  rcases bind_eq_error.mp h with h | ⟨⟨w, r⟩, _, h⟩
  · obtain ⟨rfl, _⟩ := name_eq_error.mp h
    rfl
  · dsimp only at h
    split at h
    · cases h
    · obtain rfl := Except.error.inj h
      rfl

lemma closure_error (hp : ViableBlock p) (h : closure p cs = .error f) (hf : Follows before cs)
    (hb : before.spacing ≠ .sameLine) :
    ∃ c : Closure, c.WellFormed ∧ Completes before (c.tokens .free) cs f.rest := by
  have hbase : ∃ c : Closure, c.WellFormed ∧ Completes before (c.tokens .free) cs (skipGap cs) :=
    ⟨⟨⟨[], none⟩, "a", []⟩, ⟨List.forall_mem_nil _, isType_a, trivial⟩, hf.completes hb _ _⟩
  rcases bind_eq_error.mp h with h | ⟨r, hk, h⟩
  · rwa [functionKeyword_error h]
  · have hn := name_of_functionKeyword hk
    obtain ⟨_, hnext, hr⟩ := next_of_name hn hf .free
    have hword : Follows (.word "fn" .free) r := follows_word hr
    rcases bind_eq_error.mp h with hs | ⟨m, hs, _⟩
    · obtain ⟨rfl, _⟩ := symbol_eq_error.mp hs
      refine ⟨⟨⟨[], none⟩, "a", []⟩, ⟨List.forall_mem_nil _, isType_a, trivial⟩, hnext.completes ?_⟩
      exact hword.completes Spacing.free_ne_sameLine _ _
    · obtain ⟨c, hc, hlay⟩ := closureTail_error hp h (symbol_eq_ok.mp hs)
      have hopen := layout_of_symbol? (symbol_eq_ok.mp hs) hword Spacing.free_ne_lineEnd (solid_symbol _)
      exact ⟨c, hc, hlay (.cons hnext (.cons hopen .nil))⟩

lemma symbol?_of_applied (h : startsWith '(' (skipInlineGap cs)) : ∃ r, symbol? '(' cs = some r := by
  simp only [startsWith, decide_eq_true_eq] at h
  obtain ⟨r, hr⟩ := List.head?_eq_some_iff.mp h
  exact ⟨r, symbol_eq_ok.mp (symbol_of_skipGap (skipGap_of_skipInlineGap hr (by decide)))⟩

def ViableValue (before : Token) (cs rest : List Char) : Prop :=
  ∃ v : Value, v.WellFormed ∧ Completes before v.tokens cs rest

lemma Follows.viableValue (hf : Follows before cs) (hb : before.spacing ≠ .sameLine) :
    ViableValue before cs (skipGap cs) :=
  ⟨.variable "a", wellFormed_a, hf.completes hb _ _⟩

lemma wordValue_error (hp : ViableBlock p) (h : wordValue p cs = .error f) (hf : Follows before cs)
    (hb : before.spacing ≠ .sameLine) : ViableValue before cs f.rest := by
  rw [wordValue_eq] at h
  rcases bind_eq_error.mp h with h | ⟨⟨w, r⟩, hn, h⟩
  · obtain ⟨rfl, _⟩ := name_eq_error.mp h
    exact hf.viableValue hb
  obtain ⟨hw, hnext, hr⟩ := next_of_name hn hf .sameLine
  simp only [wordTail] at h
  split at h
  · next hfn =>
    obtain ⟨rfl, happ⟩ := hfn
    obtain ⟨m, ho⟩ := symbol?_of_applied happ
    obtain ⟨c, hc, hlay⟩ := closureTail_error hp (map_eq_error.mp h) ho
    have hword : Follows (.word "fn" .sameLine) r := follows_applied hr happ
    have hopen := layout_of_symbol? ho hword Spacing.sameLine_ne_lineEnd (solid_symbol _)
    exact ⟨.closure c, hc, hlay (.cons hnext (.cons hopen .nil))⟩
  · next hfn =>
    split at h
    · cases h
    · next ht =>
      split at h
      · next happ =>
        obtain ⟨m, ho⟩ := symbol?_of_applied happ
        obtain ⟨as, has, hc⟩ := arguments_error (map_eq_error.mp h) ho (follows_applied hr happ)
          Spacing.sameLine_ne_lineEnd
        refine ⟨.call ⟨w, as⟩, ⟨⟨hw, has⟩, ?_⟩, hnext.completes hc⟩
        simp only [valueKeywords, List.mem_cons, List.not_mem_nil, or_false, not_or]
        exact ⟨fun he => hfn ⟨he, happ⟩, not_or.mp ht⟩
      · cases h

lemma value_error (hp : ViableBlock p) (h : value p cs = .error f) (hf : Follows before cs)
    (hb : before.spacing ≠ .sameLine) (hl : before.spacing ≠ .lineEnd) : ViableValue before cs f.rest := by
  have hbase := hf.viableValue hb
  simp only [value] at h
  split at h
  · next hg =>
    obtain rfl := Except.error.inj h
    rwa [hg] at hbase
  · next c r hg =>
    split at h
    · obtain ⟨rfl, _⟩ := string_eq_error.mp (map_eq_error.mp h)
      rwa [hg] at hbase
    · split at h
      · obtain ⟨rfl, _⟩ := number_eq_error.mp (map_eq_error.mp h)
        rcases unsigned_eq (c :: r) with hu | hu
        · rwa [hg, ← hu] at hbase
        · have hzero : IsUnsigned ['0'] := .inl ⟨List.cons_ne_nil _ _, List.forall_mem_singleton.mpr rfl⟩
          -- A lone minus sign goes on to a number.
          refine ⟨.literal "-0", .inr (.inr (.inr (.inr ⟨['0'], rfl, hzero⟩))), ?_⟩
          exact hf.completes_part (c := '-') (u := []) (x := ['0']) hb (hg.trans hu) rfl (by decide)
            fun he => absurd he hl
      · split at h
        · rw [← hg, wordValue_skipGap] at h
          exact wordValue_error hp h hf hb
        · obtain rfl := Except.error.inj h
          rwa [hg] at hbase

lemma assignedValue_error (hp : ViableBlock p) (h : assignedValue p cs = .error f) (hf : Follows before cs)
    (hb : before.spacing ≠ .sameLine) (hl : before.spacing ≠ .lineEnd) :
    ∃ v : Value, v.WellFormed ∧ Completes before (.symbol '=' :: v.tokens) cs f.rest := by
  rcases bind_eq_error.mp h with h | ⟨r, hs, h⟩
  · obtain ⟨rfl, _⟩ := symbol_eq_error.mp h
    exact ⟨.variable "a", wellFormed_a, hf.completes hb _ _⟩
  · obtain ⟨v, hv, hc⟩ := value_error hp h (follows_symbol '=' r) Spacing.free_ne_sameLine Spacing.free_ne_lineEnd
    exact ⟨v, hv, (layout_of_symbol? (symbol_eq_ok.mp hs) hf hl (solid_symbol _)).completes hc⟩

lemma binding_error (hp : ViableBlock p) (h : binding p cs = .error f) (hf : Follows before cs)
    (hb : before.spacing ≠ .sameLine) : ∃ (target : Parameter) (v : Value), target.WellFormed ∧ v.WellFormed ∧
      Completes before (target.tokens ++ .symbol '=' :: v.tokens) cs f.rest := by
  rcases bind_eq_error.mp h with h | ⟨⟨target, r⟩, ht, h⟩
  · obtain ⟨target, hw, hc⟩ := parameter_error h hf hb
    exact ⟨target, .variable "a", hw, wellFormed_a, hc.append _⟩
  · obtain ⟨hw, hl, hend⟩ := parameter_sound ht hf
    obtain ⟨v, hv, hc⟩ :=
      assignedValue_error hp (map_eq_error.mp h) hend Spacing.free_ne_sameLine Spacing.free_ne_lineEnd
    exact ⟨target, v, hw, hv, hl.completes hc⟩

def ViableStatement (before : Token) (cs rest : List Char) : Prop :=
  ∃ s : Statement, s.WellFormed ∧ ∀ t ts, Completes before (s.tokens ++ t :: ts) cs rest

lemma Completes.viableStatement {s : Statement} (hc : Completes before s.tokens cs rest) (hw : s.WellFormed) :
    ViableStatement before cs rest :=
  ⟨s, hw, fun t ts => hc.append (t :: ts)⟩

lemma declaration_error (hp : ViableBlock p) {b : Binding} (hn : name cs = .ok (b.keyword, mid))
    (h : declaration p b mid = .error f) (hf : Follows before cs) : ViableStatement before cs f.rest := by
  obtain ⟨_, hk, hr⟩ := next_of_name hn hf .free
  obtain ⟨⟨n, l⟩, v, ht, hv, hc⟩ := binding_error hp (map_eq_error.mp h) (follows_word hr) Spacing.free_ne_sameLine
  exact Completes.viableStatement (s := .declare b n l v) (hk.completes hc) ⟨ht.1, ht.2, hv⟩

lemma emission_error (hn : name cs = .ok ("emit", mid)) (h : emission mid = .error f) (hf : Follows before cs) :
    ViableStatement before cs f.rest := by
  obtain ⟨_, hk, hr⟩ := next_of_name hn hf .free
  have hword : Follows (.word "emit" .free) mid := follows_word hr
  rcases bind_eq_error.mp h with h | ⟨⟨event, r⟩, _, h⟩
  · obtain ⟨rfl, _⟩ := name_eq_error.mp h
    have hc := hk.completes (hword.completes Spacing.free_ne_sameLine (.word "a" .lineEnd) [])
    refine Completes.viableStatement (s := .emit "a" none) hc ⟨isName_a, ?_⟩
    intro x hx
    cases hx
  · dsimp only at h
    split at h
    · cases h
    · next c q hi =>
      split at h
      · next hc =>
        obtain ⟨_, hne⟩ := name_eq_error.mp (map_eq_error.mp h)
        have hline : c ≠ '\n' := by
          rintro rfl
          exact absurd hc (by decide)
        rw [skipGap_of_skipInlineGap hi hline] at hne
        exact absurd hc (hne c rfl)
      · cases h

lemma exit_error {w : String} {u : List Char} (hw : w ∈ exitKeywords) (hn : name cs = .ok (w, mid))
    (h : exit u mid = .error f) (hf : Follows before cs) (hb : before.spacing ≠ .sameLine) :
    ViableStatement before cs f.rest := by
  obtain ⟨_, hg, hhead⟩ := skipGap_of_name hn
  obtain ⟨r, o, hr, rfl, _, rfl⟩ := exitEnd_error (exit_eq_error.mp h)
  obtain ⟨v, b, rfl, hblank, hv, hlast⟩ := hr.trim
  rw [List.append_assoc] at hg hhead
  have hex : IsExit (String.ofList (w.toList ++ v)).toList := by
    rw [String.toList_ofList]
    exact isExit_append hw hhead hv hlast
  obtain ⟨⟨c, q, hcq, hc, _⟩, _⟩ := isName_exitKeyword hw
  have htext : (Token.fragment (.ofList (w.toList ++ v))).text = c :: (q ++ v ++ []) := by
    rw [Token.text, String.toList_ofList, hcq, List.append_nil, List.cons_append]
  have hskip : skipGap cs = c :: (q ++ v ++ (b ++ '"' :: o)) := by
    rw [hg, hcq, List.cons_append, List.append_assoc]
  obtain ⟨pre, rfl, hnext⟩ := hf.next_part hb hskip htext (opens_of_isNameStart hc) fun _ => hex.startsLine
  refine ⟨.exit (.ofList (w.toList ++ v)), hex, fun t ts => ?_⟩
  -- The white space behind the fragment belongs to the gap in front of the next token.
  have hgap : Fits (.fragment (.ofList (w.toList ++ v))) (b ++ ['\n']) t := by
    refine ⟨?_, fun he => ?_, fun he => ?_, fun _ => .inl (by simp), fun _ _ _ => ?_⟩
    · refine gap_of_blank fun x hx => ?_
      rcases List.mem_append.mp hx with hx | hx
      · exact (hblank x hx).1
      · obtain rfl := List.mem_singleton.mp hx
        decide
    · cases he
    · cases he
    · cases b with
      | nil => decide
      | cons x b =>
        intro he
        obtain rfl := Option.some.inj he
        exact absurd (hblank '/' List.mem_cons_self).1 (by decide)
  refine ⟨pre ++ b, '\n' :: (t.text ++ write t ts), by simp, ?_⟩
  have hlay := Layout.cons (hnext (b ++ '\n' :: (t.text ++ write t ts)))
    (.cons ⟨b ++ ['\n'], by simp, hgap⟩ (layout_write t ts))
  rw [List.append_assoc]
  exact hlay

lemma continuation_error (hp : ViableBlock p) {w : String} (hn : name cs = .ok (w, mid))
    (hw : w ∉ statementKeywords) (h : continuation p w mid = .error f) (hf : Follows before cs) :
    ViableStatement before cs f.rest := by
  obtain ⟨hname, hnext, hr⟩ := next_of_name hn hf .free
  have hword : Follows (.word w .free) mid := follows_word hr
  simp only [continuation] at h
  split at h
  · next r hg =>
    obtain ⟨as, has, hc⟩ := arguments_error (map_eq_error.mp h) (symbol_eq_ok.mp (symbol_of_skipGap hg)) hword
      Spacing.free_ne_lineEnd
    exact Completes.viableStatement (s := .call ⟨w, as⟩) (hnext.completes hc) ⟨⟨hname, has⟩, hw⟩
  · next r hg =>
    have hcolon := layout_of_symbol? (symbol_eq_ok.mp (symbol_of_skipGap hg)) hword Spacing.free_ne_lineEnd
      (solid_symbol _)
    have hassign {l : String} {v : Value} (hl : IsType l.toList) (hv : v.WellFormed)
        (hc : Completes (.symbol ':') (.label l :: .symbol '=' :: v.tokens) r f.rest) :
        ViableStatement before cs f.rest := by
      have hne : l ≠ "" := by
        rintro rfl
        obtain ⟨c, q, hq, _⟩ := hl.head
        cases hq
      refine Completes.viableStatement (s := .assign w l v) ?_ ⟨⟨hname, hw⟩, .inr hl, hv⟩
      rw [Statement.tokens, if_neg hne]
      exact hnext.completes (hcolon.completes hc)
    rcases bind_eq_error.mp h with h | ⟨⟨l, r₁⟩, hlabel, h⟩
    · obtain ⟨l, hl, hc⟩ := typeLabel_error h (follows_symbol ':' r) Spacing.free_ne_sameLine
      exact hassign (v := .variable "a") hl wellFormed_a (hc.append _)
    · obtain ⟨hl, hln, hend⟩ := next_of_typeLabel hlabel (follows_symbol ':' r)
      obtain ⟨v, hv, hc⟩ := assignedValue_error hp (map_eq_error.mp h) hend Spacing.free_ne_sameLine
        Spacing.free_ne_lineEnd
      exact hassign hl hv (hln.completes hc)
  · obtain ⟨v, hv, hc⟩ := assignedValue_error hp (map_eq_error.mp h) hword Spacing.free_ne_sameLine
      Spacing.free_ne_lineEnd
    exact Completes.viableStatement (s := .assign w "" v) (hnext.completes hc) ⟨⟨hname, hw⟩, .inl rfl, hv⟩
  · obtain rfl := Except.error.inj h
    have hc := hnext.completes (hword.completes Spacing.free_ne_sameLine (.symbol '(') [.symbol ')'])
    exact Completes.viableStatement (s := .call ⟨w, []⟩) hc ⟨⟨hname, List.forall_mem_nil _⟩, hw⟩

lemma statement_error (hp : ViableBlock p) (h : statement p cs = .error f) (hf : Follows before cs)
    (hb : before.spacing ≠ .sameLine) : ViableStatement before cs f.rest := by
  rcases bind_eq_error.mp h with h | ⟨⟨w, r⟩, hn, h⟩
  · obtain ⟨rfl, _⟩ := name_eq_error.mp h
    have hc := hf.completes hb (.word "a" .free) [.symbol '(', .symbol ')']
    exact Completes.viableStatement (s := .call ⟨"a", []⟩) hc ⟨⟨isName_a, List.forall_mem_nil _⟩, by decide⟩
  · dsimp only at h
    split at h
    · exact declaration_error (b := .const) hp hn h hf
    · exact declaration_error (b := .let) hp hn h hf
    · exact emission_error hn h hf
    · exact exit_error (by decide) hn h hf hb
    · exact exit_error (by decide) hn h hf hb
    · next h₁ h₂ h₃ h₄ h₅ =>
      have hw : w ∉ statementKeywords := by
        simp only [statementKeywords, List.mem_cons, List.not_mem_nil, or_false, not_or]
        exact ⟨h₁, h₂, h₃, h₄, h₅⟩
      exact continuation_error hp hn hw h hf

lemma statement_last (s : Statement) : (s.tokens.getLastD before).spacing ≠ .sameLine := by
  have hv {before : Token} (v : Value) : (v.tokens.getLastD before).spacing ≠ .sameLine := by
    rw [value_last]
    exact Spacing.free_ne_sameLine
  cases s with
  | declare b n l v =>
    simp only [Statement.tokens, List.getLastD_cons]
    exact hv v
  | assign n l v =>
    simp only [Statement.tokens, List.getLastD_cons, getLastD_append]
    exact hv v
  | call c =>
    rw [Statement.tokens, List.getLastD_cons, argumentTokens_last]
    exact Spacing.free_ne_sameLine
  | emit e payload =>
    cases payload
    · exact Spacing.sameLine_ne_lineEnd.symm
    · exact Spacing.free_ne_sameLine
  | exit fragment => exact Spacing.sameLine_ne_lineEnd.symm

lemma viableBlock : ViableBlock block := by
  intro cs f h
  -- The statements are read behind the gap, while the layout begins in front of it.
  refine descend_error (P := Advances) (Q := fun cs f => ∀ ⦃before cs'⦄, skipGap cs' = skipGap cs → Follows before cs' →
    before.spacing ≠ .sameLine → ∃ ss, blockWellFormed ss ∧
      Completes before (blockTokens ss ++ [.symbol '\x7d']) cs' f.rest)
    block_advances block_eq blockWith_descends ?_ ?_ h
  · intro cs
    refine ⟨⟨skipGap cs, .value⟩, fun before cs' hg hf hb => ⟨[], trivial, ?_⟩⟩
    rw [← hg]
    exact hf.completes hb _ _
  · intro p hok hp cs f h before cs' hg hf hb
    have hviable : ViableBlock p := fun cs f h => hp cs f h
    simp only [blockWith] at h
    split at h
    · next hc =>
      obtain rfl := Except.error.inj h
      refine ⟨[], trivial, ?_⟩
      rw [← hc, ← hg]
      exact hf.completes hb _ _
    · next c r hc =>
      split at h
      · cases h
      · rw [← hc, ← hg] at h
        rcases bind_eq_error.mp h with h | ⟨⟨first, r₁⟩, hs, h⟩
        · rw [statement_skipGap] at h
          obtain ⟨s, hs, hcomp⟩ := statement_error hviable h hf hb
          refine ⟨[s], ⟨hs, trivial⟩, ?_⟩
          simpa [blockTokens] using hcomp (.symbol '\x7d') []
        · rw [statement_skipGap] at hs
          obtain ⟨hw, e, hl, hend, hge⟩ := statement_sound (fun _ _ _ h => soundBlock (hok _ _ h)) hs hf
          obtain ⟨ss, hss, hcomp⟩ := hp _ _ (map_eq_error.mp h) hge hend (statement_last first)
          refine ⟨first :: ss, ⟨hw, hss⟩, ?_⟩
          rw [blockTokens, List.append_assoc]
          exact hl.completes hcomp

lemma item_error (h : item cs = .error f) (hf : Follows before cs) (hb : before.spacing ≠ .sameLine) :
    ∃ i : Item, i.WellFormed ∧ Completes before i.tokens cs f.rest := by
  have hbase : ∃ i : Item, i.WellFormed ∧ Completes before i.tokens cs (skipGap cs) :=
    ⟨.event ⟨"a", "a"⟩, ⟨isName_a, isType_a⟩, hf.completes hb _ _⟩
  rcases bind_eq_error.mp h with h | ⟨⟨w, r⟩, hn, h⟩
  · obtain ⟨rfl, _⟩ := name_eq_error.mp h
    exact hbase
  obtain ⟨_, hk, hr⟩ := next_of_name hn hf .free
  have hword : Follows (.word w .free) r := follows_word hr
  dsimp only at h
  split at h
  · obtain ⟨⟨n, l⟩, v, ht, hv, hc⟩ := binding_error viableBlock (map_eq_error.mp h) hword Spacing.free_ne_sameLine
    exact ⟨.constant ⟨n, l, v⟩, ⟨ht.1, ht.2, hv⟩, hk.completes hc⟩
  · obtain ⟨⟨n, l⟩, ht, hc⟩ := parameter_error (map_eq_error.mp h) hword Spacing.free_ne_sameLine
    exact ⟨.event ⟨n, l⟩, ht, hk.completes hc⟩
  · rcases bind_eq_error.mp h with h | ⟨⟨e, r₁⟩, he, h⟩
    · obtain ⟨rfl, _⟩ := name_eq_error.mp h
      refine ⟨.handler ⟨"a", ⟨⟨[], none⟩, "a", []⟩⟩, ⟨isName_a, List.forall_mem_nil _, isType_a, trivial⟩, ?_⟩
      exact hk.completes (hword.completes Spacing.free_ne_sameLine _ _)
    · obtain ⟨hw, hnext, hr₁⟩ := next_of_name he hword .free
      obtain ⟨c, hc, hcomp⟩ := closure_error viableBlock (map_eq_error.mp h) (follows_word hr₁) Spacing.free_ne_sameLine
      exact ⟨.handler ⟨e, c⟩, ⟨hw, hc⟩, hk.completes (hnext.completes hcomp)⟩
  · obtain rfl := Except.error.inj h
    exact hbase

lemma items_viable (h : items cs = .error f) (hf : Follows before cs) (hb : before.spacing = .free) :
    ∃ is : List Item, (∀ i ∈ is, i.WellFormed) ∧ Completes before (is.flatMap Item.tokens) cs f.rest := by
  induction hn : cs.length using Nat.strong_induction_on generalizing cs before with
  | _ n ih =>
    subst hn
    rcases (items_eq_error h).2 with h | ⟨first, rest, hi, h⟩
    · obtain ⟨i, hi, hc⟩ := item_error h hf (by rw [hb]; exact Spacing.free_ne_sameLine)
      exact ⟨[i], List.forall_mem_singleton.mpr hi, by simpa using hc⟩
    · obtain ⟨hw, hl, hend⟩ := item_sound hi hf
      obtain ⟨is, his, hc⟩ := ih _ (item_advances hi).2 h hend first.last rfl
      exact ⟨first :: is, List.forall_mem_cons.mpr ⟨hw, his⟩, hl.completes hc⟩

lemma items_completes (h : items cs = .error f) : ∃ pre ext is, cs = pre ++ f.rest ∧ items (pre ++ ext) = .ok is := by
  obtain ⟨is, hw, pre, ext, rfl, hl⟩ := items_viable h (follows_start _) rfl
  exact ⟨pre, ext, is, rfl, items_of_layout hw (.inl .nil) rfl hl⟩

end Source

end AmmCompiler
