import AmmCompiler.Proofs.Grammar.Locality
import AmmCompiler.Proofs.Grammar.Soundness

namespace AmmCompiler

open Source Text

variable {before token : Token} {tokens more : List Token} {cs mid rest u x : List Char} {c : Char} {f : Failure}

namespace Source

def Completes (before : Token) (tokens : List Token) (cs rest : List Char) : Prop :=
  ∃ pre ext, cs = pre ++ rest ∧ Layout before tokens (pre ++ ext) []

lemma Next.replace (h : Next before token cs rest) :
    ∃ pre, cs = pre ++ rest ∧ ∀ y, Next before token (pre ++ y) y := by
  obtain ⟨gap, rfl, hf⟩ := h
  exact ⟨gap ++ token.text, by simp, fun y => ⟨gap, by simp, hf⟩⟩

lemma Layout.replace (h : Layout before tokens cs rest) :
    ∃ pre, cs = pre ++ rest ∧ ∀ y, Layout before tokens (pre ++ y) y := by
  induction h with
  | nil => exact ⟨[], rfl, fun _ => .nil⟩
  | cons hn _ ih =>
    obtain ⟨p, rfl, hp⟩ := hn.replace
    obtain ⟨q, rfl, hq⟩ := ih
    refine ⟨p ++ q, by simp, fun y => ?_⟩
    rw [List.append_assoc]
    exact .cons (hp _) (hq y)

lemma Completes.append (h : Completes before tokens cs rest) (more : List Token) :
    Completes before (tokens ++ more) cs rest := by
  obtain ⟨pre, ext, rfl, hl⟩ := h
  obtain ⟨q, hq, hl⟩ := hl.replace
  refine ⟨pre, ext ++ write (tokens.getLastD before) more, rfl, ?_⟩
  rw [← List.append_assoc, hq, List.append_nil]
  exact layout_append.mpr ⟨_, hl _, layout_write _ _⟩

lemma Layout.completes (h : Layout before tokens cs mid)
    (hc : Completes (tokens.getLastD before) more mid rest) : Completes before (tokens ++ more) cs rest := by
  obtain ⟨p, rfl, hp⟩ := h.replace
  obtain ⟨pre, ext, rfl, hl⟩ := hc
  refine ⟨p ++ pre, ext, by simp, ?_⟩
  rw [List.append_assoc]
  exact layout_append.mpr ⟨_, hp _, hl⟩

lemma Next.completes (h : Next before token cs mid) (hc : Completes token more mid rest) :
    Completes before (token :: more) cs rest :=
  (layout_singleton.mpr h).completes hc

lemma exists_pre (cs : List Char) : ∃ pre, cs = pre ++ skipGap cs ∧ Gap (pre ++ ['\n']) := by
  cases hg : skipGap cs with
  | nil => exact ⟨cs, by simp, (skipGap_eq_nil.mp hg).extend⟩
  | cons c r =>
    obtain ⟨g, hgap, he⟩ := exists_gap hg
    exact ⟨g, he, FinalGap.extend (.inl hgap)⟩

lemma Follows.completes (h : Follows before cs) (hb : before.spacing ≠ .sameLine) (token : Token)
    (tokens : List Token) : Completes before (token :: tokens) cs (skipGap cs) := by
  obtain ⟨pre, hpre, hgap⟩ := exists_pre cs
  have hfits : Fits before (pre ++ ['\n']) token := by
    refine ⟨hgap, fun _ _ => by simp, fun he => absurd he hb, fun _ => .inl (by simp), fun f hf hl => ?_⟩
    have hs := h.slash f hf hl
    cases pre with
    | nil => decide
    | cons c p =>
      rw [hpre] at hs
      exact hs
  refine ⟨pre, '\n' :: (token.text ++ write token tokens), hpre, ?_⟩
  exact .cons ⟨pre ++ ['\n'], by simp, hfits⟩ (layout_write _ _)

lemma Follows.alike {cs' : List Char} (h : Follows before cs) (hs : Alike cs cs') (hb : before.spacing ≠ .sameLine) :
    Follows before cs' := by
  refine ⟨fun hw => hs.not_part (h.apart hw), fun he => absurd he hb, fun he c hc hn => ?_, fun f hf hl hc => ?_⟩
  · have hne : c ≠ '\n' := by
      rintro rfl
      exact absurd hn (by decide)
    exact h.lineEnd he c ((hs.inline c hne).mpr hc) hn
  · exact h.slash f hf hl ((hs.head '/' (by decide)).mpr hc)

lemma Follows.next_part (h : Follows before cs) (hb : before.spacing ≠ .sameLine) (hg : skipGap cs = c :: (u ++ rest))
    (ht : token.text = c :: (u ++ x)) (hc : Opens c) (hl : before.spacing = .lineEnd → token.StartsLine) :
    ∃ pre, cs = pre ++ rest ∧ ∀ y, Next before token (pre ++ (x ++ y)) y := by
  obtain ⟨g, hgap, rfl⟩ := exists_gap hg
  refine ⟨g ++ c :: u, by simp, fun y => ⟨g, by simp [ht], ?_⟩⟩
  have hs : Alike (g ++ c :: (u ++ rest)) (g ++ (token.text ++ y)) := by
    rw [ht]
    exact (hc.sameStart _ _).toAlike.gap hgap
  exact (h.alike hs hb).fits hgap ⟨c, u ++ x, ht, hc.1, hc.2.1⟩ hl

lemma Follows.completes_part (h : Follows before cs) (hb : before.spacing ≠ .sameLine)
    (hg : skipGap cs = c :: (u ++ rest)) (ht : token.text = c :: (u ++ x)) (hc : Opens c)
    (hl : before.spacing = .lineEnd → token.StartsLine) : Completes before [token] cs rest := by
  obtain ⟨pre, rfl, hn⟩ := h.next_part hb hg ht hc hl
  refine ⟨pre, x, rfl, layout_singleton.mpr ?_⟩
  have hx := hn []
  rwa [List.append_nil] at hx

lemma descend_error {β : Type} {P : (List Char → Except Failure β) → Prop}
    {step : (List Char → Except Failure β) → List Char → Except Failure β} {Q : List Char → Failure → Prop}
    (hP : P (descend step)) (heq : ∀ cs, descend step cs = step (descend step) cs) (hd : Descends P step)
    (hQ : ∀ cs, ∃ f, Q cs f)
    (h : ∀ p, (∀ cs b, p cs = .ok b → descend step cs = .ok b) → (∀ cs f, p cs = .error f → Q cs f) →
      ∀ cs f, step p cs = .error f → Q cs f) (he : descend step cs = .error f) : Q cs f := by
  induction hn : cs.length using Nat.strong_induction_on generalizing cs f with
  | _ n ih =>
    subst hn
    -- Above the length of the input the recursion is replaced by failures of which `Q` holds.
    let p : List Char → Except Failure β := fun r =>
      if r.length < cs.length then descend step r else .error (hQ r).choose
    have hp : AgreeBelow cs p (descend step) := fun r hr => if_pos hr
    rw [heq, ← hd hP hp] at he
    refine h p ?_ ?_ cs f he
    · intro r b hb
      by_cases hr : r.length < cs.length
      · rwa [← hp r hr]
      · cases (if_neg hr).symm.trans hb
    · intro r g hg
      by_cases hr : r.length < cs.length
      · rw [hp r hr] at hg
        exact ih _ hr hg rfl
      · obtain rfl := Except.error.inj ((if_neg hr).symm.trans hg)
        exact (hQ r).choose_spec

lemma isName_a : IsName "a".toList := by decide

lemma isType_a : IsType "a".toList := .name isName_a

lemma wellFormed_a : (Value.variable "a").WellFormed :=
  ⟨isName_a, by decide, by decide⟩

def CompletesArguments (cs rest : List Char) : Prop :=
  ∃ pre ext, cs = pre ++ rest ∧ TypeArguments (pre ++ ext)

lemma typeWith_error {p : Skipper} (hp : ∀ cs f, p cs = .error f → CompletesArguments cs f.rest)
    (h : typeWith p cs = .error f) : f.rest = skipGap cs ∨
      ∃ c u x, isNameStart c ∧ skipGap cs = c :: (u ++ f.rest) ∧ IsType (c :: (u ++ x)) := by
  rcases bind_eq_error.mp h with h | ⟨⟨w, r⟩, hn, h⟩
  · obtain ⟨rfl, _⟩ := name_eq_error.mp h
    exact .inl rfl
  · dsimp only at h
    split at h
    · next r' hs =>
      obtain ⟨hw, hg, _⟩ := skipGap_of_name hn
      obtain ⟨g, hgap, rfl⟩ := gap_of_symbol? hs
      obtain ⟨pre, ext, rfl, has⟩ := hp _ _ h
      have ht := IsType.generic hw hgap has
      obtain ⟨c, q, he, hc, _⟩ := hw
      rw [he] at ht hg
      refine .inr ⟨c, q ++ (g ++ '<' :: pre), ext, hc, by simpa using hg, by simpa using ht⟩
    · cases h

lemma typeArgumentsWith_error {p : Skipper} (hok : ∀ cs rest, p cs = .ok rest → typeArguments cs = .ok rest)
    (hp : ∀ cs f, p cs = .error f → CompletesArguments cs f.rest) (h : typeArgumentsWith p cs = .error f) :
    CompletesArguments cs f.rest := by
  have hsound : ∀ cs rest, p cs = .ok rest → ∃ as, TypeArguments as ∧ cs = as ++ rest :=
    fun cs rest h => arguments_of_typeArguments (hok cs rest h)
  rcases bind_eq_error.mp h with h | ⟨r, hw, hr⟩
  · rcases typeWith_error hp h with hr | ⟨c, u, x, _, hg, ht⟩
    · obtain ⟨pre, hpre, hgap⟩ := exists_pre cs
      refine ⟨pre, '\n' :: 'a' :: ['>'], by rw [hr, ← hpre], ?_⟩
      simpa using TypeArguments.last hgap isType_a .nil
    · obtain ⟨g, hgap, rfl⟩ := exists_gap hg
      refine ⟨g ++ c :: u, x ++ ['>'], by simp, ?_⟩
      simpa using TypeArguments.last hgap ht .nil
  · obtain ⟨t, ht, hg, _⟩ := isType_of_typeWith hsound hw
    obtain ⟨c, q, rfl, _⟩ := ht.head
    obtain ⟨g, hgap, rfl⟩ := exists_gap hg
    split at hr
    · next r' hs =>
      obtain ⟨g', hgap', rfl⟩ := gap_of_symbol? hs
      obtain ⟨pre, ext, rfl, has⟩ := hp _ _ hr
      refine ⟨g ++ (c :: q ++ (g' ++ ',' :: pre)), ext, by simp, ?_⟩
      simpa using TypeArguments.cons hgap ht hgap' has
    · obtain ⟨rfl, _⟩ := symbol_eq_error.mp hr
      obtain ⟨pre, hpre, hgap'⟩ := exists_pre r
      refine ⟨g ++ (c :: q ++ pre), ['\n', '>'], ?_, ?_⟩
      · conv_lhs => rw [hpre]
        simp
      · simpa using TypeArguments.last hgap ht hgap'

lemma typeArguments_error (h : typeArguments cs = .error f) : CompletesArguments cs f.rest := by
  refine descend_error (P := Skips) (Q := fun cs f => CompletesArguments cs f.rest) typeArguments_skips
    typeArguments_eq typeArgumentsWith_descends ?_ (fun p hok hp cs f => typeArgumentsWith_error hok hp) h
  intro cs
  exact ⟨⟨cs, .value⟩, [], ['a', '>'], rfl, .last .nil isType_a .nil⟩

lemma typeLabel_error (h : typeLabel cs = .error f) (hf : Follows before cs) (hb : before.spacing ≠ .sameLine) :
    ∃ l : String, IsType l.toList ∧ Completes before [.label l] cs f.rest := by
  rcases typeWith_error (fun _ _ => typeArguments_error) (map_eq_error.mp h) with hr | ⟨c, u, x, hc, hg, ht⟩
  · rw [hr]
    exact ⟨"a", isType_a, hf.completes hb _ _⟩
  · refine ⟨.ofList (c :: (u ++ x)), by rwa [String.toList_ofList], ?_⟩
    refine hf.completes_part hb hg String.toList_ofList (opens_of_isNameStart hc) fun _ => ?_
    exact .inr ⟨c, _, String.toList_ofList, hc⟩

def CompletesNames (before : Token) (cs rest : List Char) : Prop :=
  ∃ as ≠ [], (∀ a ∈ as, IsName a.toList) ∧
    Completes before ((as.map (Token.word · .free)).intersperse (.symbol ',') ++ [.symbol ')']) cs rest

lemma Follows.completesNames (hf : Follows before cs) (hb : before.spacing ≠ .sameLine) :
    CompletesNames before cs (skipGap cs) :=
  ⟨["a"], List.cons_ne_nil _ _, List.forall_mem_singleton.mpr isName_a, hf.completes hb _ _⟩

lemma namesWith_error {p : Reader (List String)} (hp : ∀ cs f, p cs = .error f → ∀ before, Follows before cs →
    before.spacing ≠ .sameLine → CompletesNames before cs f.rest) (h : namesWith p cs = .error f)
    (hf : Follows before cs) (hb : before.spacing ≠ .sameLine) : CompletesNames before cs f.rest := by
  rcases bind_eq_error.mp h with h | ⟨⟨w, r⟩, hn, h⟩
  · obtain ⟨rfl, _⟩ := name_eq_error.mp h
    exact hf.completesNames hb
  · obtain ⟨hw, hnext, hr⟩ := next_of_name hn hf .free
    have hword : Follows (.word w .free) r := follows_word hr
    dsimp only at h
    split at h
    · next r' hs =>
      obtain ⟨as, hne, has, hc⟩ := hp _ _ (map_eq_error.mp h) _ (follows_symbol ',' r') Spacing.free_ne_sameLine
      obtain ⟨b, bs, rfl⟩ := List.exists_cons_of_ne_nil hne
      have hcomma := layout_of_symbol? hs hword Spacing.free_ne_lineEnd (solid_symbol _)
      exact ⟨w :: b :: bs, List.cons_ne_nil _ _, List.forall_mem_cons.mpr ⟨hw, has⟩,
        hnext.completes (hcomma.completes hc)⟩
    · obtain ⟨rfl, _⟩ := symbol_eq_error.mp (map_eq_error.mp h)
      exact ⟨[w], List.cons_ne_nil _ _, List.forall_mem_singleton.mpr hw,
        hnext.completes (hword.completes Spacing.free_ne_sameLine _ _)⟩

lemma names_error (h : names cs = .error f) (hf : Follows before cs) (hb : before.spacing ≠ .sameLine) :
    CompletesNames before cs f.rest := by
  refine descend_error (P := fun _ => True) (Q := fun cs f => ∀ before, Follows before cs → before.spacing ≠ .sameLine →
    CompletesNames before cs f.rest) trivial names_eq namesWith_descends ?_ ?_ h before hf hb
  · exact fun cs => ⟨⟨skipGap cs, .value⟩, fun _ => Follows.completesNames⟩
  · exact fun p _ hp cs f h before => namesWith_error hp h

lemma arguments_error (h : arguments cs = .error f) (ho : symbol? '(' cs = some mid) (hf : Follows before cs)
    (hb : before.spacing ≠ .lineEnd) :
    ∃ as, (∀ a ∈ as, IsName a.toList) ∧ Completes before (argumentTokens as) cs f.rest := by
  have hopen := layout_of_symbol? ho hf hb (solid_symbol _)
  rw [arguments, bind_ok (symbol_eq_ok.mpr ho)] at h
  split at h
  · cases h
  · obtain ⟨as, _, has, hc⟩ := names_error h (follows_symbol '(' mid) Spacing.free_ne_sameLine
    exact ⟨as, has, hopen.completes hc⟩

lemma parameter_error (h : parameter cs = .error f) (hf : Follows before cs) (hb : before.spacing ≠ .sameLine) :
    ∃ p : Parameter, p.WellFormed ∧ Completes before p.tokens cs f.rest := by
  rcases bind_eq_error.mp h with h | ⟨⟨w, r₁⟩, hn, h⟩
  · obtain ⟨rfl, _⟩ := name_eq_error.mp h
    exact ⟨⟨"a", "a"⟩, ⟨isName_a, isType_a⟩, hf.completes hb _ _⟩
  · obtain ⟨hw, hnext, hr⟩ := next_of_name hn hf .free
    have hword : Follows (.word w .free) r₁ := follows_word hr
    rcases bind_eq_error.mp h with h | ⟨r₂, hs, h⟩
    · obtain ⟨rfl, _⟩ := symbol_eq_error.mp h
      exact ⟨⟨w, "a"⟩, ⟨hw, isType_a⟩, hnext.completes (hword.completes Spacing.free_ne_sameLine _ _)⟩
    · have hcolon := layout_of_symbol? (symbol_eq_ok.mp hs) hword Spacing.free_ne_lineEnd (solid_symbol _)
      obtain ⟨l, hl, hc⟩ := typeLabel_error (map_eq_error.mp h) (follows_symbol ':' r₂) Spacing.free_ne_sameLine
      exact ⟨⟨w, l⟩, ⟨hw, hl⟩, hnext.completes (hcolon.completes hc)⟩

lemma parametersWith_error {p : Reader Parameters} (hp : ∀ cs f, p cs = .error f → ∀ before, Follows before cs →
    before.spacing ≠ .sameLine → ∃ ps : Parameters, ps.WellFormed ∧ Completes before ps.tokens cs f.rest)
    (h : parametersWith p cs = .error f)
    (hf : Follows before cs) (hb : before.spacing ≠ .sameLine) :
    ∃ ps : Parameters, ps.WellFormed ∧ Completes before ps.tokens cs f.rest := by
  simp only [parametersWith] at h
  split at h
  · cases h
  rcases bind_eq_error.mp h with h | ⟨⟨first, r⟩, hpar, h⟩
  · obtain ⟨q, hq, hc⟩ := parameter_error h hf hb
    refine ⟨⟨[], some q⟩, List.forall_mem_singleton.mpr hq, ?_⟩
    simpa [Parameters.tokens] using hc.append [.symbol ')']
  obtain ⟨hw, hlay, hend⟩ := parameter_sound hpar hf
  dsimp only at h
  split at h
  · next r' hs =>
    obtain ⟨ps, hps, hc⟩ := hp _ _ (map_eq_error.mp h) _ (follows_symbol ',' r') Spacing.free_ne_sameLine
    have hcomma := layout_of_symbol? hs hend Spacing.free_ne_lineEnd (solid_symbol _)
    refine ⟨{ ps with ordinary := first :: ps.ordinary }, List.forall_mem_cons.mpr ⟨hw, hps⟩, ?_⟩
    simpa [Parameters.tokens] using hlay.completes (hcomma.completes hc)
  · obtain ⟨rfl, _⟩ := symbol_eq_error.mp (map_eq_error.mp h)
    refine ⟨⟨[], some first⟩, List.forall_mem_singleton.mpr hw, ?_⟩
    have hc := hlay.completes (hend.completes Spacing.free_ne_sameLine (.symbol ')') [])
    simpa [Parameters.tokens] using hc

lemma parameters_error (h : parameters cs = .error f) (hf : Follows before cs) (hb : before.spacing ≠ .sameLine) :
    ∃ ps : Parameters, ps.WellFormed ∧ Completes before ps.tokens cs f.rest := by
  refine descend_error (P := fun _ => True) (Q := fun cs f => ∀ before, Follows before cs → before.spacing ≠ .sameLine →
    ∃ ps : Parameters, ps.WellFormed ∧ Completes before ps.tokens cs f.rest)
    trivial parameters_eq parametersWith_descends ?_ ?_ h before hf hb
  · exact fun cs => ⟨⟨skipGap cs, .value⟩, fun before hf hb => ⟨⟨[], none⟩, List.forall_mem_nil _, hf.completes hb _ _⟩⟩
  · exact fun p _ hp cs f h before => parametersWith_error hp h

end Source

end AmmCompiler
