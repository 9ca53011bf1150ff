import AmmCompiler.Proofs.Grammar.Locality

namespace AmmCompiler.Source

open Text Answer

def Broken (cs : List Char) (f : Failure) : Prop :=
  (f.fault = .openString → ∃ r, f.rest = '"' :: r ∧ closeString r = none) ∧
    (f.fault = .digits → '-' :: f.rest <:+ cs ∧ startsWithDigit f.rest = false)

structure Breaks {β : Type} [Answer β] (p : List Char → Except Failure β) : Prop where
  suffix : ∀ ⦃cs b⦄, p cs = .ok b → rest b <:+ cs
  broken : ∀ ⦃cs f⦄, p cs = .error f → Broken cs f

variable {α β γ : Type} {cs r : List Char} {c : Char} {f : Failure} {fault : Fault}

lemma broken_of_ne (hs : f.fault ≠ .openString) (hd : f.fault ≠ .digits) (cs : List Char) : Broken cs f :=
  ⟨fun h => absurd h hs, fun h => absurd h hd⟩

lemma Broken.mono (h : Broken r f) (hr : r <:+ cs) : Broken cs f :=
  ⟨h.1, fun hd => ⟨(h.2 hd).1.trans hr, (h.2 hd).2⟩⟩

section Combinators

variable [Answer β] [Answer γ] {p q x : List Char → Except Failure β}

lemma Breaks.congr (h : Breaks p) (he : ∀ cs, x cs = p cs) : Breaks x := by
  rwa [funext he]

lemma Breaks.bind {q : β → Except Failure γ} (hp : Breaks p) (hq : ∀ b, Breaks fun cs => q (leave b cs)) :
    Breaks fun cs => p cs >>= q := by
  have hrest (b : β) : q (leave b (Answer.rest b)) = q b := by rw [leave_rest]
  constructor
  · intro cs b h
    obtain ⟨a, ha, hb⟩ := bind_eq_ok.mp h
    rw [← hrest] at hb
    exact ((hq a).suffix hb).trans (hp.suffix ha)
  · intro cs f h
    rcases bind_eq_error.mp h with h | ⟨a, ha, hf⟩
    · exact hp.broken h
    · rw [← hrest] at hf
      exact ((hq a).broken hf).mono (hp.suffix ha)

lemma breaks_ok (b : β) : Breaks fun cs => (.ok (leave b cs) : Except Failure β) := by
  constructor
  · intro cs b' h
    obtain rfl := Except.ok.inj h
    exact ⟨[], rest_leave b cs⟩
  · intro cs f h
    cases h

lemma Breaks.map {p : Reader α} {δ : Type} (hp : Breaks p) (k : α → δ) : Breaks fun cs => do
    let (a, rest) ← p cs
    return (k a, rest) :=
  hp.bind fun b => breaks_ok (k b.1, b.2)

lemma Breaks.give {p : Skipper} (hp : Breaks p) (a : α) : Breaks fun cs => do
    let rest ← p cs
    return (a, rest) :=
  hp.bind fun _ => breaks_ok (a, [])

lemma breaks_fail (hs : fault ≠ .openString) (hd : fault ≠ .digits) :
    Breaks fun cs => (.error ⟨skipGap cs, fault⟩ : Except Failure β) := by
  constructor
  · intro cs b h
    cases h
  · intro cs f h
    obtain rfl := Except.error.inj h
    exact broken_of_ne hs hd cs

lemma breaks_choice {B : List Char → Prop} [DecidablePred B]
    (hp : ∀ cs, B cs → (∀ b, p cs = .ok b → rest b <:+ cs) ∧ ∀ f, p cs = .error f → Broken cs f) (hq : Breaks q) :
    Breaks fun cs => if B cs then p cs else q cs := by
  constructor
  · intro cs b h
    split at h
    · next hb => exact (hp cs hb).1 b h
    · exact hq.suffix h
  · intro cs f h
    split at h
    · next hb => exact (hp cs hb).2 f h
    · exact hq.broken h

lemma Breaks.ite (B : List Char → Prop) [DecidablePred B] (hp : Breaks p) (hq : Breaks q) :
    Breaks fun cs => if B cs then p cs else q cs :=
  breaks_choice (fun _ _ => ⟨fun _ h => hp.suffix h, fun _ h => hp.broken h⟩) hq

lemma breaks_descend {step : (List Char → Except Failure β) → List Char → Except Failure β}
    (h : ∀ p, Breaks p → Breaks (step p)) : Breaks (descend step) := by
  have hn (n : ℕ) : Breaks (descendWithin step n) := by
    induction n with
    | zero =>
      constructor
      · intro cs b h
        cases h
      · intro cs f h
        obtain rfl := Except.error.inj h
        exact broken_of_ne (Fault.noConfusion ·) (Fault.noConfusion ·) cs
    | succ n ih => exact h _ ih
  exact ⟨fun _ _ h => (hn _).suffix h, fun _ _ h => (hn _).broken h⟩

end Combinators

lemma breaks_name : Breaks name := by
  constructor
  · intro cs b h
    exact (name_advances h).1
  · intro cs f h
    obtain ⟨rfl, _⟩ := name_eq_error.mp h
    exact broken_of_ne (Fault.noConfusion ·) (Fault.noConfusion ·) cs

lemma breaks_symbol (c : Char) : Breaks (symbol c) := by
  constructor
  · intro cs b h
    exact (symbol_skips c h).1
  · intro cs f h
    obtain ⟨rfl, _⟩ := symbol_eq_error.mp h
    exact broken_of_ne (Fault.noConfusion ·) (Fault.noConfusion ·) cs

lemma Breaks.after [Answer β] {p : List Char → Except Failure β} (c : Char) (hp : Breaks p) :
    Breaks fun cs => symbol c cs >>= p :=
  (breaks_symbol c).bind fun _ => hp

lemma Breaks.branch [Answer β] {p q x : List Char → Except Failure β} (c : Char) (hp : Breaks p) (hq : Breaks q)
    (hx : ∀ cs, x cs = match symbol? c cs with | some rest => p rest | none => q cs) : Breaks x := by
  have hs {cs rest : List Char} (h : symbol? c cs = some rest) : rest <:+ cs := (symbol_skips c (symbol_eq_ok.mpr h)).1
  constructor
  · intro cs b h
    rw [hx] at h
    split at h
    · next hr => exact (hp.suffix h).trans (hs hr)
    · exact hq.suffix h
  · intro cs f h
    rw [hx] at h
    split at h
    · next hr => exact (hp.broken h).mono (hs hr)
    · exact hq.broken h

lemma Breaks.word [Answer β] {k : String → Option (List Char → Except Failure β)} {m : String → Fault}
    (hk : ∀ word p, k word = some p → Breaks p) (hs : ∀ word, m word ≠ .openString) (hd : ∀ word, m word ≠ .digits) :
    Breaks (byWord k m) := by
  constructor
  · intro cs b h
    obtain ⟨⟨word, rest⟩, hn, h⟩ := bind_eq_ok.mp h
    dsimp only at h
    split at h
    · next p hp => exact ((hk word p hp).suffix h).trans (name_advances hn).1
    · cases h
  · intro cs f h
    rcases bind_eq_error.mp h with h | ⟨⟨word, rest⟩, hn, h⟩
    · exact breaks_name.broken h
    · dsimp only at h
      split at h
      · next p hp => exact ((hk word p hp).broken h).mono (name_advances hn).1
      · obtain rfl := Except.error.inj h
        exact broken_of_ne (hs word) (hd word) cs

lemma breaks_typeWith {p : Skipper} (hp : Breaks p) : Breaks (typeWith p) :=
  breaks_name.bind fun _ => .branch '<' hp (breaks_ok []) fun _ => rfl

lemma breaks_typeArguments : Breaks typeArguments :=
  breaks_descend fun _ hp => (breaks_typeWith hp).bind fun _ => .branch ',' hp (breaks_symbol '>') fun _ => rfl

lemma breaks_typeLabel : Breaks typeLabel := by
  constructor
  · intro cs b h
    exact (typeLabel_advances h).1
  · intro cs f h
    exact (breaks_typeWith breaks_typeArguments).broken (map_eq_error.mp h)

lemma breaks_names : Breaks names :=
  breaks_descend fun _ hp => breaks_name.bind fun b =>
    .branch ',' (hp.map (b.1 :: ·)) ((breaks_symbol ')').give [b.1]) fun _ => rfl

lemma breaks_arguments : Breaks arguments :=
  .after '(' (.branch ')' (breaks_ok ([], [])) breaks_names fun _ => rfl)

lemma breaks_parameter : Breaks parameter :=
  breaks_name.bind fun b => .after ':' (breaks_typeLabel.map (Parameter.mk b.1))

lemma breaks_parametersTail {p : Reader Parameters} (hp : Breaks p) (first : Parameter) :
    Breaks (parametersTail p first) :=
  .branch ',' (hp.map (addOrdinary first)) ((breaks_symbol ')').give ⟨[], some first⟩) fun _ => rfl

lemma breaks_parameters : Breaks parameters :=
  breaks_descend fun _ hp => .branch ')' (breaks_ok (⟨[], none⟩, []))
    (breaks_parameter.bind fun b => breaks_parametersTail hp b.1) fun _ => rfl

lemma breaks_functionKeyword : Breaks functionKeyword := by
  refine (Breaks.word ?_ (fun _ => Fault.noConfusion) fun _ => Fault.noConfusion).congr functionKeyword_eq
  intro word p hp
  by_cases hw : word = "fn"
  · obtain rfl := Option.some.inj ((if_pos hw).symm.trans hp)
    exact breaks_ok []
  · cases (if_neg hw).symm.trans hp

lemma broken_number (h : (skipGap cs).head?.any opensNumber) (hf : number (skipGap cs) = .error f) : Broken cs f := by
  obtain ⟨rfl, hd⟩ := number_eq_error.mp hf
  refine ⟨(Fault.noConfusion ·), fun _ => ⟨?_, hd⟩⟩
  rcases unsigned_eq (skipGap cs) with hu | hu
  · obtain ⟨c, hc, hopen⟩ := (Option.any_eq_true _ _).mp h
    obtain ⟨r, hr⟩ := List.head?_eq_some_iff.mp hc
    rw [hu, hr, startsWithDigit] at hd
    rw [opensNumber, hd, Bool.false_or, beq_iff_eq] at hopen
    subst hopen
    rw [hr, unsigned] at hu
    exact absurd (congrArg List.length hu) (by simp)
  · exact hu ▸ skipGap_suffix cs

variable {p : BlockReader} (hp : Breaks p)

include hp

lemma breaks_closureTail : Breaks (closureTail p) :=
  .after '(' (breaks_parameters.bind fun ps => .after ':' (breaks_typeLabel.bind fun l =>
    .after '{' (hp.map (Closure.mk ps.1 l.1))))

lemma breaks_closure : Breaks (closure p) :=
  breaks_functionKeyword.bind fun _ => breaks_closureTail hp

lemma breaks_wordTail (word : String) : Breaks (wordTail p word) := by
  refine .ite (fun cs => word = "fn" ∧ startsWith '(' (skipInlineGap cs)) ((breaks_closureTail hp).map Value.closure) ?_
  refine .ite (fun _ => word = "true" ∨ word = "false") (breaks_ok (Value.literal word, [])) ?_
  exact .ite (fun cs => startsWith '(' (skipInlineGap cs)) (breaks_arguments.map fun as => Value.call ⟨word, as⟩)
    (breaks_ok (Value.variable word, []))

lemma breaks_wordValue : Breaks (wordValue p) :=
  (breaks_name.bind fun b => breaks_wordTail hp b.1).congr (wordValue_eq p)

lemma breaks_value : Breaks (value p) := by
  refine Breaks.congr (breaks_choice ?_ (breaks_choice ?_ (.ite (fun cs => (skipGap cs).head?.any isNameStart)
    (breaks_wordValue hp) (breaks_fail (Fault.noConfusion ·) (Fault.noConfusion ·))))) (value_eq p)
  · intro cs hq
    refine ⟨fun b h => ?_, fun f h => ?_⟩
    · exact (steady_string.map Value.literal).suffix_ok h
    · obtain ⟨rfl, hc⟩ := string_eq_error.mp (map_eq_error.mp h)
      obtain ⟨r, hr⟩ := List.head?_eq_some_iff.mp hq
      rw [hr] at hc
      exact ⟨fun _ => ⟨r, hr, hc⟩, (Fault.noConfusion ·)⟩
  · intro cs hd
    refine ⟨fun b h => ?_, fun f h => ?_⟩
    · exact (steady_number.map Value.literal).suffix_ok h
    · exact broken_number hd (map_eq_error.mp h)

lemma breaks_assignedValue : Breaks (assignedValue p) :=
  .after '=' (breaks_value hp)

lemma breaks_binding : Breaks (binding p) :=
  breaks_parameter.bind fun b => (breaks_assignedValue hp).map (Prod.mk b.1)

lemma breaks_declaration (kind : Binding) : Breaks (declaration p kind) :=
  (breaks_binding hp).map fun b => Statement.declare kind b.1.name b.1.typeLabel b.2

lemma breaks_continuation (name : String) : Breaks (continuation p name) := by
  have hlabel : Breaks (labelledAssignment p name) :=
    .after ':' (breaks_typeLabel.bind fun l => (breaks_assignedValue hp).map (Statement.assign name l.1))
  refine Breaks.congr ?_ (continuation_eq p name)
  refine .ite (fun cs => (skipGap cs).head? = some '(') (breaks_arguments.map fun as => Statement.call ⟨name, as⟩) ?_
  refine .ite (fun cs => (skipGap cs).head? = some ':') hlabel ?_
  exact .ite (fun cs => (skipGap cs).head? = some '=') ((breaks_assignedValue hp).map (Statement.assign name ""))
    (breaks_fail (Fault.noConfusion ·) (Fault.noConfusion ·))

omit hp

lemma breaks_emission : Breaks emission := by
  have htail (event : String) : Breaks (emissionTail event) :=
    .ite (fun cs => (skipInlineGap cs).head?.any isNameStart)
      (breaks_name.map fun payload => Statement.emit event (some payload)) (breaks_ok (Statement.emit event none, []))
  exact (breaks_name.bind fun b => htail b.1).congr emission_eq

lemma breaks_exit (u : List Char) : Breaks fun cs => exit (u ++ cs) cs := by
  constructor
  · intro cs b h
    exact exit_suffix h
  · intro cs f h
    obtain ⟨_, r, _, _, hr, rfl⟩ := exitEnd_error (exit_eq_error.mp h)
    exact ⟨fun _ => ⟨r, rfl, hr⟩, (Fault.noConfusion ·)⟩

include hp

lemma breaks_statementTail (word : String) : Breaks (statementTail p word) := by
  unfold statementTail
  split
  · exact breaks_declaration hp .const
  · exact breaks_declaration hp .let
  · exact breaks_emission
  · exact breaks_exit _
  · exact breaks_exit _
  · exact breaks_continuation hp word

lemma breaks_statement : Breaks (statement p) :=
  (breaks_name.bind fun b => breaks_statementTail hp b.1).congr (statement_eq p)

omit hp

lemma breaks_block : Breaks block := by
  refine breaks_descend fun p hp => Breaks.congr ?_ (blockWith_eq p)
  refine .ite (fun cs => (skipGap cs).head? = none) (breaks_fail (Fault.noConfusion ·) (Fault.noConfusion ·)) ?_
  exact .ite (fun cs => (skipGap cs).head? = some '\x7d') ((breaks_symbol '\x7d').give [])
    ((breaks_statement hp).bind fun b => hp.map (b.1 :: ·))

lemma breaks_item : Breaks item := by
  refine (Breaks.word ?_ (fun _ => Fault.noConfusion) fun _ => Fault.noConfusion).congr item_eq
  intro word p hp
  unfold itemReader? at hp
  split at hp
  · obtain rfl := Option.some.inj hp
    exact (breaks_binding breaks_block).map fun b => Item.constant ⟨b.1.name, b.1.typeLabel, b.2⟩
  · obtain rfl := Option.some.inj hp
    exact breaks_parameter.map fun declared => Item.event ⟨declared.name, declared.typeLabel⟩
  · obtain rfl := Option.some.inj hp
    exact breaks_name.bind fun b => (breaks_closure breaks_block).map fun c => Item.handler ⟨b.1, c⟩
  · cases hp

lemma items_broken (h : items cs = .error f) : Broken cs f := by
  induction hn : cs.length using Nat.strong_induction_on generalizing cs with
  | _ n ih =>
    subst hn
    rcases (items_eq_error h).2 with h | ⟨first, rest, hi, h⟩
    · exact breaks_item.broken h
    · obtain ⟨hr, hl⟩ := item_advances hi
      exact (ih _ hl h rfl).mono hr

end AmmCompiler.Source
