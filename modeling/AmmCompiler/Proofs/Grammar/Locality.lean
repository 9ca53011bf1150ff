import AmmCompiler.Proofs.Grammar.Steady
import AmmCompiler.Proofs.Grammar.Reading

namespace AmmCompiler.Source

open Text Answer

variable {α β γ : Type} {w r r' cs rest : List Char} {c : Char}

lemma symbol_of_skipGap (h : skipGap cs = c :: rest) : symbol c cs = .ok rest := by
  simp only [symbol, symbol?, h, if_true]

lemma steady_default [Answer β] : Steady SameStart fun _ => (default : Except Failure β) := by
  constructor
  · intro cs b h
    cases h
  · intro cs f h
    obtain rfl := Except.error.inj h
    exact List.nil_suffix
  · intro cs f h
    obtain rfl := Except.error.inj h
    rfl
  · intro w r r' b h
    cases h
  · intro w r r' fault h hs
    obtain ⟨rfl, rfl⟩ := Failure.mk.inj (Except.error.inj h)
    obtain rfl := List.head?_eq_none_iff.mp (SameSpot.head hs).symm
    exact ⟨rfl, .refl _⟩

lemma steady_descend [Answer β] {P : (List Char → Except Failure β) → Prop}
    {step : (List Char → Except Failure β) → List Char → Except Failure β}
    (h : ∀ p, Steady SameStart p → Steady SameStart (step p)) (hP : ∀ n, P (descendWithin step n))
    (hd : Descends P step) : Steady SameStart (descend step) := by
  have hn (n : ℕ) : Steady SameStart (descendWithin step n) := by
    induction n with
    | zero => exact steady_default
    | succ n ih => exact h _ ih
  -- Either text may be the longer one, so that both are compared at a depth above the two lengths.
  have he {n : ℕ} {cs : List Char} (hl : cs.length < n) : descend step cs = descendWithin step n cs :=
    descendWithin_eq hP hd (Nat.lt_succ_self _) hl
  constructor
  · intro cs b hb
    exact (hn _).suffix_ok hb
  · intro cs f hf
    exact (hn _).suffix_error hf
  · intro cs f hf
    exact (hn _).spotted hf
  · intro w r r' b hb hr hs
    have hl : (w ++ r).length < (w ++ r).length + (w ++ r').length + 1 := by omega
    have hl' : (w ++ r').length < (w ++ r).length + (w ++ r').length + 1 := by omega
    rw [he hl] at hb
    rw [he hl']
    exact (hn _).ok hb hr hs
  · intro w r r' fault hf hs
    have hl : (w ++ r).length < (w ++ r).length + (w ++ r').length + 1 := by omega
    have hl' : (w ++ r').length < (w ++ r).length + (w ++ r').length + 1 := by omega
    rw [he hl] at hf
    rw [he hl']
    exact (hn _).error hf hs

lemma Steady.after [Answer β] {p : List Char → Except Failure β} (c : Char) (hc : Opens c)
    (hp : Steady SameStart p) : Steady SameStart fun cs => symbol c cs >>= p :=
  (steady_symbol c hc).bind fun _ => hp.alike

lemma Steady.branch [Answer β] {p q x : List Char → Except Failure β} (c : Char) (hc : Opens c)
    (hp : Steady Alike p) (hq : Steady SameStart q) (hs : ∀ cs rest, symbol? c cs = some rest → x cs = p rest)
    (hn : ∀ cs, symbol? c cs = none → x cs = q cs) : Steady SameStart x := by
  refine (Steady.ite_head (· = some c) ((steady_symbol c hc).bind fun _ => hp) hq).congr fun cs => ?_
  cases h : symbol? c cs with
  | none => rw [if_neg (symbol?_eq_none.mp h), hn cs h]
  | some rest =>
    rw [if_pos (by rw [skipGap_of_symbol? h]; rfl), hs cs rest h, symbol_eq_ok.mpr h]
    rfl

lemma steady_typeWith {p : Skipper} (hp : Steady SameStart p) : Steady SameStart (typeWith p) := by
  refine steady_name.bind fun b => ?_
  have hp' : Steady SameStart fun cs => symbol '<' cs >>= p := .after '<' (by decide) hp
  refine (hp'.alike.ite (fun cs => (skipGap cs).head? = some '<') (fun _ _ h => h.bracket) (steady_ok [])).congr ?_
  intro cs
  dsimp only
  cases h : symbol? '<' cs with
  | none =>
    rw [if_neg (symbol?_eq_none.mp h)]
    rfl
  | some rest =>
    rw [if_pos (by rw [skipGap_of_symbol? h]; rfl), symbol_eq_ok.mpr h]
    rfl

lemma steady_typeArgumentsWith {p : Skipper} (hp : Steady SameStart p) : Steady SameStart (typeArgumentsWith p) := by
  refine (steady_typeWith hp).bind fun _ => (Steady.branch ',' (by decide) hp.alike
    (steady_symbol '>' (by decide)) ?_ ?_).alike
  · intro cs rest h
    simp only [leave, h]
  · intro cs h
    simp only [leave, h]

lemma steady_typeArguments : Steady SameStart typeArguments :=
  steady_descend (fun _ => steady_typeArgumentsWith) (descendWithin_skips fun _ => typeArgumentsWith_skips)
    typeArgumentsWith_descends

lemma steady_typeLabel : Steady SameStart typeLabel := by
  have hp : Steady SameStart (typeWith typeArguments) := steady_typeWith steady_typeArguments
  have herror {cs : List Char} {f : Failure} : typeLabel cs = .error f ↔ typeWith typeArguments cs = .error f :=
    map_eq_error
  constructor
  · intro cs b h
    exact (typeLabel_advances h).1
  · intro cs f h
    exact hp.suffix_error (herror.mp h)
  · intro cs f h
    exact hp.spotted (herror.mp h)
  · rintro w r r' ⟨l, rest⟩ h rfl hs
    obtain ⟨hl, hnext, _⟩ := next_of_typeLabel h (follows_start _)
    have hg := hnext.skipGap hl.solid
    simp only [typeLabel, bind_eq_ok, pure_eq_ok, Prod.mk.injEq] at h
    obtain ⟨r, hw, _, rfl⟩ := h
    obtain ⟨hw', hstart⟩ := hp.ok hw rfl hs
    obtain ⟨c, q, he, hc⟩ := hl.head
    rw [Token.text, he, List.cons_append] at hg
    obtain ⟨hg', _⟩ := skipGap_token hg (opens_of_isNameStart hc) r'
    refine ⟨?_, hstart⟩
    have hlabel : typeLabel (w ++ r') = .ok (.ofList (consumed (skipGap (w ++ r')) r'), r') := bind_ok hw' _
    rw [hlabel, hg', ← List.cons_append, consumed_append, ← he, String.ofList_toList]
    rfl
  · intro w r r' fault h hs
    obtain ⟨h', hstart⟩ := hp.error (herror.mp h) hs
    exact ⟨herror.mpr h', hstart⟩

lemma steady_namesWith {p : Reader (List String)} (hp : Steady SameStart p) : Steady SameStart (namesWith p) := by
  refine steady_name.bind fun b => (Steady.branch ',' (by decide) (hp.alike.map (b.1 :: ·))
    ((steady_symbol ')' (by decide)).give [b.1]) ?_ ?_).alike
  · intro cs rest h
    simp only [leave, h]
  · intro cs h
    simp only [leave, h]

lemma steady_names : Steady SameStart names :=
  steady_descend (fun _ => steady_namesWith) (fun _ => trivial) namesWith_descends

lemma steady_arguments : Steady SameStart arguments := by
  refine .after '(' (by decide) (.branch ')' (by decide) (steady_ok ([], [])) steady_names ?_ ?_)
  · intro cs rest h
    simp only [leave, h]
  · intro cs h
    simp only [h]

lemma steady_parameter : Steady SameStart parameter :=
  steady_name.bind fun b => (Steady.after ':' (by decide) (steady_typeLabel.map (Parameter.mk b.1))).alike

def addOrdinary (first : Parameter) (others : Parameters) : Parameters :=
  { others with ordinary := first :: others.ordinary }

def parametersTail (parameters : Reader Parameters) (first : Parameter) : Reader Parameters := fun cs =>
  match symbol? ',' cs with
  | some rest => do
    let (others, rest) ← parameters rest
    return (addOrdinary first others, rest)
  | none => do
    let rest ← symbol ')' cs
    return (⟨[], some first⟩, rest)

lemma steady_parametersTail {p : Reader Parameters} (hp : Steady SameStart p) (first : Parameter) :
    Steady SameStart (parametersTail p first) := by
  refine .branch ',' (by decide) (hp.alike.map (addOrdinary first))
    ((steady_symbol ')' (by decide)).give ⟨[], some first⟩) ?_ ?_
  · intro cs rest h
    simp only [parametersTail, h]
  · intro cs h
    simp only [parametersTail, h]

lemma steady_parametersWith {p : Reader Parameters} (hp : Steady SameStart p) :
    Steady SameStart (parametersWith p) := by
  have hcons : Steady SameStart fun cs => parameter cs >>= fun b => parametersTail p b.1 b.2 :=
    steady_parameter.bind fun b => (steady_parametersTail hp b.1).alike
  refine .branch ')' (by decide) (steady_ok (⟨[], none⟩, [])) hcons ?_ ?_
  · intro cs rest h
    simp only [parametersWith, h]
    rfl
  · intro cs h
    simp only [parametersWith, h]
    rfl

lemma steady_parameters : Steady SameStart parameters :=
  steady_descend (fun _ => steady_parametersWith) (fun _ => trivial) parametersWith_descends

def functionReader? (word : String) : Option Skipper :=
  if word = "fn" then some .ok else none

lemma functionKeyword_eq (cs : List Char) : functionKeyword cs = byWord functionReader? .functionKeyword cs := by
  refine bind_congr_ok fun b _ => ?_
  by_cases hw : b.1 = "fn"
  · simp only [functionReader?, hw, if_true]
  · simp only [functionReader?, hw, if_false]

lemma steady_functionKeyword : Steady SameStart functionKeyword := by
  refine (Steady.word functionReader? .functionKeyword ?_ (fun _ => rfl) fun _ _ hw hs => ⟨hw, hs⟩).congr
    functionKeyword_eq
  intro word p hp
  by_cases hw : word = "fn"
  · obtain rfl := Option.some.inj ((if_pos hw).symm.trans hp)
    exact steady_ok []
  · cases (if_neg hw).symm.trans hp

def closureTail (block : BlockReader) : Reader Closure := fun cs => do
  let rest ← symbol '(' cs
  let (parameters, rest) ← parameters rest
  let rest ← symbol ':' rest
  let (label, rest) ← typeLabel rest
  let rest ← symbol '{' rest
  let (body, rest) ← block rest
  return (⟨parameters, label, body⟩, rest)

lemma steady_closureTail {p : BlockReader} (hp : Steady SameStart p) : Steady SameStart (closureTail p) := by
  have hbody (ps : Parameters) (label : String) : Steady SameStart fun cs => do
      let rest ← symbol '{' cs
      let (body, rest) ← p rest
      return (Closure.mk ps label body, rest) :=
    .after '{' (by decide) (hp.map (Closure.mk ps label))
  have hlabel (ps : Parameters) : Steady SameStart fun cs => do
      let rest ← symbol ':' cs
      let (label, rest) ← typeLabel rest
      let rest ← symbol '{' rest
      let (body, rest) ← p rest
      return (Closure.mk ps label body, rest) :=
    .after ':' (by decide) (steady_typeLabel.bind fun b => (hbody ps b.1).alike)
  exact .after '(' (by decide) (steady_parameters.bind fun b => (hlabel b.1).alike)

lemma steady_closure {p : BlockReader} (hp : Steady SameStart p) : Steady SameStart (closure p) :=
  steady_functionKeyword.bind fun _ => (steady_closureTail hp).alike

lemma closure_of_name {p : BlockReader} (h : name cs = .ok ("fn", rest)) : closure p cs = closureTail p rest := by
  have hk : functionKeyword cs = .ok rest := bind_ok h _
  exact bind_ok hk _

def wordTail (block : BlockReader) (word : String) : Reader Value := fun cs =>
  if word = "fn" ∧ startsWith '(' (skipInlineGap cs) then do
    let (closure, rest) ← closureTail block cs
    return (.closure closure, rest)
  else if word = "true" ∨ word = "false" then .ok (.literal word, cs)
  else if startsWith '(' (skipInlineGap cs) then do
    let (arguments, rest) ← arguments cs
    return (.call ⟨word, arguments⟩, rest)
  else .ok (.variable word, cs)

lemma Alike.applied (h : Alike r r') : startsWith '(' (skipInlineGap r) ↔ startsWith '(' (skipInlineGap r') := by
  simp only [startsWith, decide_eq_true_eq]
  exact h.inline '(' (by decide)

lemma steady_wordTail {p : BlockReader} (hp : Steady SameStart p) (word : String) : Steady Alike (wordTail p word) := by
  refine .ite (fun cs => word = "fn" ∧ startsWith '(' (skipInlineGap cs)) (fun _ _ h => and_congr_right' h.applied)
    ((steady_closureTail hp).alike.map Value.closure) ?_
  refine .ite (fun _ => word = "true" ∨ word = "false") (fun _ _ _ => .rfl) (steady_ok (Value.literal word, [])) ?_
  exact .ite (fun cs => startsWith '(' (skipInlineGap cs)) (fun _ _ h => h.applied)
    (steady_arguments.alike.map fun as => Value.call ⟨word, as⟩) (steady_ok (Value.variable word, []))

lemma wordValue_eq (p : BlockReader) (cs : List Char) :
    wordValue p cs = name cs >>= fun b => wordTail p b.1 b.2 := by
  refine bind_congr_ok ?_
  rintro ⟨word, rest⟩ hn
  by_cases hf : word = "fn" ∧ startsWith '(' (skipInlineGap rest)
  · obtain ⟨rfl, happ⟩ := hf
    simp only [wordTail, happ, closure_of_name hn]
    rfl
  · simp only [wordTail, if_neg hf]
    rfl

lemma steady_wordValue {p : BlockReader} (hp : Steady SameStart p) : Steady SameStart (wordValue p) :=
  (steady_name.bind fun b => steady_wordTail hp b.1).congr (wordValue_eq p)

def opensNumber (c : Char) : Bool :=
  c.isDigit || c == '-'

lemma value_eq (p : BlockReader) (cs : List Char) : value p cs =
    if (skipGap cs).head? = some '"' then do
      let (token, rest) ← string (skipGap cs)
      return (.literal token, rest)
    else if (skipGap cs).head?.any opensNumber then do
      let (token, rest) ← number (skipGap cs)
      return (.literal token, rest)
    else if (skipGap cs).head?.any isNameStart then wordValue p cs
    else .error ⟨skipGap cs, .value⟩ := by
  rw [← wordValue_skipGap p cs]
  simp only [value]
  cases skipGap cs with
  | nil => simp
  | cons c r =>
    have hn : (some c).any opensNumber ↔ c.isDigit ∨ c = '-' := by simp [opensNumber]
    simp only [List.head?_cons, Option.some.injEq, hn]
    rfl

lemma steady_value {p : BlockReader} (hp : Steady SameStart p) : Steady SameStart (value p) := by
  have hfail : Steady SameStart fun cs => (.error ⟨skipGap cs, .value⟩ : Except Failure (Value × List Char)) :=
    steady_fail (fun _ _ h => h) fun _ h => h
  exact (Steady.ite_head (· = some '"') (steady_string.map Value.literal) (.ite_head (·.any opensNumber)
    (steady_number.map Value.literal) (.ite_head (·.any isNameStart) (steady_wordValue hp) hfail))).congr
      (value_eq p)

lemma steady_assignedValue {p : BlockReader} (hp : Steady SameStart p) : Steady SameStart (assignedValue p) :=
  .after '=' (by decide) (steady_value hp)

lemma steady_binding {p : BlockReader} (hp : Steady SameStart p) : Steady SameStart (binding p) :=
  steady_parameter.bind fun b => ((steady_assignedValue hp).map (Prod.mk b.1)).alike

lemma steady_declaration {p : BlockReader} (hp : Steady SameStart p) (kind : Binding) :
    Steady SameStart (declaration p kind) :=
  (steady_binding hp).map fun b => Statement.declare kind b.1.name b.1.typeLabel b.2

def emissionTail (event : String) : Reader Statement := fun cs =>
  if (skipInlineGap cs).head?.any isNameStart then do
    let (payload, rest) ← name cs
    return (.emit event (some payload), rest)
  else .ok (.emit event none, cs)

lemma emission_eq (cs : List Char) : emission cs = name cs >>= fun b => emissionTail b.1 b.2 := by
  refine bind_congr_ok ?_
  rintro ⟨event, rest⟩ _
  simp only [emissionTail]
  cases skipInlineGap rest with
  | nil => rfl
  | cons c r => rfl

lemma steady_emissionTail (event : String) : Steady Alike (emissionTail event) := by
  refine Steady.ite (fun cs => (skipInlineGap cs).head?.any isNameStart) ?_
    (steady_name.alike.map fun payload => Statement.emit event (some payload))
    (steady_ok (Statement.emit event none, []))
  intro r r' hs
  rw [Option.any_eq_true, Option.any_eq_true]
  refine exists_congr fun c => and_congr_left fun hc => hs.inline c ?_
  rintro rfl
  exact absurd hc (by decide)

lemma steady_emission : Steady SameStart emission := by
  have h : Steady SameStart fun cs => name cs >>= fun b => emissionTail b.1 b.2 :=
    steady_name.bind fun b => steady_emissionTail b.1
  exact h.congr emission_eq

def labelledAssignment (block : BlockReader) (name : String) : Reader Statement := fun cs => do
  let rest ← symbol ':' cs
  let (label, rest) ← typeLabel rest
  let (value, rest) ← assignedValue block rest
  return (.assign name label value, rest)

lemma continuation_eq (p : BlockReader) (name : String) (cs : List Char) : continuation p name cs =
    if (skipGap cs).head? = some '(' then do
      let (arguments, rest) ← arguments cs
      return (.call ⟨name, arguments⟩, rest)
    else if (skipGap cs).head? = some ':' then labelledAssignment p name cs
    else if (skipGap cs).head? = some '=' then do
      let (value, rest) ← assignedValue p cs
      return (.assign name "" value, rest)
    else .error ⟨skipGap cs, .continuation name⟩ := by
  simp only [continuation]
  split
  · next hg => simp only [hg, List.head?_cons, if_true]
  · next hg =>
    simp only [hg, List.head?_cons, labelledAssignment, symbol_of_skipGap hg]
    rfl
  · next hg =>
    simp only [hg, List.head?_cons]
    rfl
  · next h₁ h₂ h₃ =>
    cases hg : skipGap cs with
    | nil => rfl
    | cons c r =>
      simp only [List.head?_cons, Option.some.injEq]
      rw [if_neg, if_neg, if_neg]
      · rintro rfl
        exact h₃ r hg
      · rintro rfl
        exact h₂ r hg
      · rintro rfl
        exact h₁ r hg

lemma steady_continuation {p : BlockReader} (hp : Steady SameStart p) (name : String) :
    Steady SameStart (continuation p name) := by
  have hfail : Steady SameStart fun cs =>
      (.error ⟨skipGap cs, .continuation name⟩ : Except Failure (Statement × List Char)) :=
    steady_fail (fun _ _ h => h) fun _ h => h
  have hlabel : Steady SameStart (labelledAssignment p name) :=
    .after ':' (by decide)
      (steady_typeLabel.bind fun b => ((steady_assignedValue hp).map (Statement.assign name b.1)).alike)
  exact (Steady.ite_head (· = some '(') (steady_arguments.map fun as => Statement.call ⟨name, as⟩)
    (.ite_head (· = some ':') hlabel (.ite_head (· = some '=')
      ((steady_assignedValue hp).map (Statement.assign name "")) hfail))).congr (continuation_eq p name)

def statementTail (block : BlockReader) : String → Reader Statement
  | "const" => declaration block .const
  | "let" => declaration block .let
  | "emit" => emission
  | "return" => fun cs => exit ("return".toList ++ cs) cs
  | "break" => fun cs => exit ("break".toList ++ cs) cs
  | word => continuation block word

lemma steady_statementTail {p : BlockReader} (hp : Steady SameStart p) (word : String) :
    Steady Alike (statementTail p word) := by
  unfold statementTail
  split
  · exact (steady_declaration hp .const).alike
  · exact (steady_declaration hp .let).alike
  · exact steady_emission.alike
  · exact steady_exit _
  · exact steady_exit _
  · exact (steady_continuation hp word).alike

lemma statement_eq (p : BlockReader) (cs : List Char) :
    statement p cs = name cs >>= fun b => statementTail p b.1 b.2 := by
  refine bind_congr_ok ?_
  rintro ⟨word, rest⟩ hn
  obtain ⟨_, hg, _⟩ := skipGap_of_name hn
  dsimp only
  split
  · rfl
  · rfl
  · rfl
  · rw [hg]
    rfl
  · rw [hg]
    rfl
  · simp only [statementTail]

lemma steady_statement {p : BlockReader} (hp : Steady SameStart p) : Steady SameStart (statement p) :=
  (steady_name.bind fun b => steady_statementTail hp b.1).congr (statement_eq p)

lemma blockWith_eq (p : BlockReader) (cs : List Char) : blockWith p cs =
    if (skipGap cs).head? = none then .error ⟨skipGap cs, .symbol '\x7d'⟩
    else if (skipGap cs).head? = some '\x7d' then do
      let rest ← symbol '\x7d' cs
      return ([], rest)
    else do
      let (first, rest) ← statement p cs
      let (others, rest) ← p rest
      return (first :: others, rest) := by
  simp only [blockWith]
  rw [← statement_skipGap p cs]
  cases hg : skipGap cs with
  | nil => rfl
  | cons c r =>
    simp only [List.head?_cons, reduceCtorEq, if_false, Option.some.injEq]
    split
    · next hc =>
      subst hc
      rw [symbol_of_skipGap hg]
      rfl
    · rfl

lemma steady_blockWith {p : BlockReader} (hp : Steady SameStart p) : Steady SameStart (blockWith p) := by
  have hfail : Steady SameStart fun cs =>
      (.error ⟨skipGap cs, .symbol '\x7d'⟩ : Except Failure (List Statement × List Char)) :=
    steady_fail (fun _ _ h => h) fun _ h => h
  have hcons : Steady SameStart fun cs => do
      let (first, rest) ← statement p cs
      let (others, rest) ← p rest
      return (first :: others, rest) :=
    (steady_statement hp).bind fun b => (hp.map (b.1 :: ·)).alike
  exact (Steady.ite_head (· = none) hfail
    (.ite_head (· = some '\x7d') ((steady_symbol '\x7d' (by decide)).give []) hcons)).congr (blockWith_eq p)

lemma steady_block : Steady SameStart block :=
  steady_descend (fun _ => steady_blockWith) (descendWithin_advances fun _ => blockWith_advances) blockWith_descends

lemma steady_constant : Steady SameStart constant :=
  (steady_binding steady_block).map fun b => Item.constant ⟨b.1.name, b.1.typeLabel, b.2⟩

lemma steady_event : Steady SameStart event :=
  steady_parameter.map fun declared => Item.event ⟨declared.name, declared.typeLabel⟩

lemma steady_handler : Steady SameStart handler :=
  steady_name.bind fun b => ((steady_closure steady_block).map fun c => Item.handler ⟨b.1, c⟩).alike

def itemReader? : String → Option (Reader Item)
  | "const" => some constant
  | "event" => some event
  | "on" => some handler
  | _ => none

lemma item_eq (cs : List Char) : item cs = byWord itemReader? .itemKeyword cs := by
  refine bind_congr_ok ?_
  rintro ⟨word, rest⟩ _
  dsimp only
  split
  · rfl
  · rfl
  · rfl
  · simp only [itemReader?]

lemma steady_item : Steady SameStart item := by
  refine (Steady.word itemReader? .itemKeyword ?_ (fun _ => rfl) fun _ _ hw hs => ⟨hw, hs⟩).congr item_eq
  intro word p hp
  unfold itemReader? at hp
  split at hp
  · obtain rfl := Option.some.inj hp
    exact steady_constant.alike
  · obtain rfl := Option.some.inj hp
    exact steady_event.alike
  · obtain rfl := Option.some.inj hp
    exact steady_handler.alike
  · cases hp

lemma items_nil (h : skipGap cs = []) : items cs = .ok [] := by
  rw [items_eq]
  simp only [itemsWith, h]

lemma items_cons (h : skipGap cs ≠ []) : items cs = (do
    let (first, rest) ← item cs
    let others ← items rest
    return first :: others) := by
  rw [items_eq, ← item_skipGap]
  simp only [itemsWith]
  split
  · next hg => exact absurd hg h
  · next hg => rw [hg]

lemma items_eq_error {f : Failure} (h : items cs = .error f) : skipGap cs ≠ [] ∧
    (item cs = .error f ∨ ∃ first rest, item cs = .ok (first, rest) ∧ items rest = .error f) := by
  have hne : skipGap cs ≠ [] := by
    intro hg
    rw [items_nil hg] at h
    cases h
  rw [items_cons hne] at h
  refine ⟨hne, ?_⟩
  rcases bind_eq_error.mp h with h | ⟨⟨first, rest⟩, hi, h⟩
  · exact .inl h
  · exact .inr ⟨first, rest, hi, map_eq_error.mp h⟩

lemma items_error {f : Failure} (h : items cs = .error f) : f.rest <:+ cs ∧ Spotted f.fault f.rest := by
  induction hn : cs.length using Nat.strong_induction_on generalizing cs with
  | _ n ih =>
    subst hn
    rcases (items_eq_error h).2 with h | ⟨first, rest, hi, h⟩
    · exact ⟨steady_item.suffix_error h, steady_item.spotted h⟩
    · have hp := item_advances hi
      obtain ⟨hr, hs⟩ := ih _ hp.2 h rfl
      exact ⟨hr.trans hp.1, hs⟩

lemma items_steady {fault : Fault} (h : items (w ++ r) = .error ⟨r, fault⟩) (hs : SameFault fault r r') :
    items (w ++ r') = .error ⟨r', fault⟩ ∧ SameStart (w ++ r) (w ++ r') := by
  induction hn : (w ++ r).length using Nat.strong_induction_on generalizing w with
  | _ n ih =>
    subst hn
    have hcons {cs : List Char} (hstart : SameStart (w ++ r) cs) (hne : skipGap (w ++ r) ≠ []) : skipGap cs ≠ [] := by
      rwa [← List.head?_eq_none_iff.ne, ← hstart.start, List.head?_eq_none_iff.ne]
    obtain ⟨hne, h | ⟨first, rest, hi, h⟩⟩ := items_eq_error h
    · obtain ⟨hi, hstart⟩ := steady_item.error h hs
      refine ⟨?_, hstart⟩
      rw [items_cons (hcons hstart hne), hi]
      rfl
    · obtain ⟨u, rfl⟩ := (items_error h).1
      obtain ⟨hrest, hsight⟩ := ih _ (item_advances hi).2 h rfl
      obtain ⟨hi', hstart⟩ := steady_item.reach hi rfl hsight.toAlike
      refine ⟨?_, hstart⟩
      rw [items_cons (hcons hstart hne), bind_ok hi']
      exact map_eq_error.mpr hrest

end AmmCompiler.Source
