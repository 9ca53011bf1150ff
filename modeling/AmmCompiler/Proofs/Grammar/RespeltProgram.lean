import AmmCompiler.Proofs.Grammar.Commutation

namespace AmmCompiler

open Source

section Respell

variable (f : String → String)

def Parameter.respell (p : Parameter) : Parameter where
  name := p.name
  typeLabel := f p.typeLabel

def Parameters.respell (ps : Parameters) : Parameters where
  ordinary := ps.ordinary.map (Parameter.respell f)
  trailing := ps.trailing.map (Parameter.respell f)

mutual

def Value.respell : Value → Value
  | .closure c => .closure c.respell
  | .call c => .call c
  | .variable name => .variable name
  | .literal token => .literal (f token)

def Closure.respell : Closure → Closure
  | ⟨parameters, label, body⟩ => ⟨parameters.respell f, f label, blockRespell body⟩

def Statement.respell : Statement → Statement
  | .declare binding name label value => .declare binding name (f label) value.respell
  | .assign name label value => .assign name (f label) value.respell
  | .call c => .call c
  | .emit event payload => .emit event payload
  | .exit fragment => .exit (f fragment)

def blockRespell : List Statement → List Statement
  | [] => []
  | s :: ss => s.respell :: blockRespell ss

end

def Constant.respell (c : Constant) : Constant where
  name := c.name
  typeLabel := f c.typeLabel
  value := c.value.respell f

def EventDeclaration.respell (e : EventDeclaration) : EventDeclaration where
  name := e.name
  typeLabel := f e.typeLabel

def Handler.respell (h : Handler) : Handler where
  event := h.event
  closure := h.closure.respell f

def Source.Item.respell : Item → Item
  | constant c => constant (c.respell f)
  | event e => event (e.respell f)
  | handler h => handler (h.respell f)

def Program.respell (p : Program) : Program where
  constants := p.constants.map (Constant.respell f)
  events := p.events.map (EventDeclaration.respell f)
  handlers := p.handlers.map (Handler.respell f)

lemma Program.ofItems_respell (is : List Item) :
    ofItems (is.map (Item.respell f)) = (ofItems is).respell f := by
  simp only [ofItems, Program.respell, List.filterMap_map, List.map_filterMap, Program.mk.injEq]
  refine ⟨List.filterMap_congr fun i _ => ?_, List.filterMap_congr fun i _ => ?_,
    List.filterMap_congr fun i _ => ?_⟩
  all_goals cases i <;> rfl

end Respell

namespace Source

open Text Answer

def tidied {α : Type} (p : Reader α) : Reader α := fun cs => do
  let (a, rest) ← p cs
  return (a, skipGap rest)

variable {α : Type} {φ : List Char → List Char} {cs rest : List Char} {c : Char}

variable (h : Respelling φ)

include h

lemma commutes_typeWith {p : Skipper} (hp : Commutes φ φ p) : Commutes φ φ (typeWith p) := by
  intro cs
  refine (commutes_name h cs).bind ?_
  rintro ⟨w, rest⟩ _
  dsimp only [Prod.map_apply]
  rw [symbol?_respell h (by decide)]
  cases hs : symbol? '<' rest with
  | none => exact .done rest
  | some r => exact (hp r).mono (passes_symbol? (by decide) hs)

lemma commutes_typeArgumentsWith {p : Skipper} (hp : Commutes φ φ p) : Commutes φ φ (typeArgumentsWith p) := by
  intro cs
  refine (commutes_typeWith h hp cs).bind fun rest _ => ?_
  rw [symbol?_respell h (by decide)]
  cases hs : symbol? ',' rest with
  | none => exact commutes_symbol h (by decide) rest
  | some r => exact (hp r).mono (passes_symbol? (by decide) hs)

lemma commutes_typeArguments : Commutes φ φ typeArguments :=
  commutes_descend h.nil (fun _ => commutes_typeArgumentsWith h)
    (descendWithin_skips fun _ => typeArgumentsWith_skips) typeArgumentsWith_descends

lemma commutes_typeLabel : Commutes φ (Prod.map (respell φ) φ) typeLabel := by
  intro cs
  have hskip (cs : List Char) : typeWith typeArguments (skipGap cs) = typeWith typeArguments cs := by
    simp only [typeWith, name_skipGap]
  have hp := commutes_typeWith h (commutes_typeArguments h) (skipGap cs)
  rw [← h.skipGap, hskip, hskip] at hp
  refine .mono ?_ (passes_skipGap cs)
  refine hp.bindAt fun rest _ hr => ?_
  rw [h.skipGap]
  exact respelt_token h hr

lemma commutes_namesWith {p : Reader (List String)} (hp : Commutes φ (Prod.map id φ) p) :
    Commutes φ (Prod.map id φ) (namesWith p) := by
  intro cs
  refine (commutes_name h cs).bind ?_
  rintro ⟨first, rest⟩ _
  dsimp only [Prod.map_apply]
  rw [symbol?_respell h (by decide)]
  cases hs : symbol? ',' rest with
  | none => exact (commutes_symbol h (by decide) rest).give [first]
  | some r => exact ((hp r).map (first :: ·) (first :: ·) fun _ => rfl).mono (passes_symbol? (by decide) hs)

lemma commutes_names : Commutes φ (Prod.map id φ) names :=
  commutes_descend h.nil (fun _ => commutes_namesWith h) (fun _ => trivial) namesWith_descends

lemma commutes_arguments : Commutes φ (Prod.map id φ) arguments := by
  intro cs
  refine (commutes_symbol h (by decide) cs).bind fun rest _ => ?_
  rw [symbol?_respell h (by decide)]
  cases hs : symbol? ')' rest with
  | none => exact commutes_names h rest
  | some r => exact .ok (b := ([], r)) (passes_symbol? (by decide) hs)

lemma commutes_parameter : Commutes φ (Prod.map (Parameter.respell (respell φ)) φ) parameter := by
  intro cs
  refine (commutes_name h cs).bind ?_
  rintro ⟨name, rest⟩ _
  refine (commutes_symbol h (by decide) rest).bind fun rest _ => ?_
  exact (commutes_typeLabel h rest).map (Parameter.mk name) (Parameter.mk name) fun _ => rfl

lemma commutes_parametersTail {p : Reader Parameters}
    (hp : Commutes φ (Prod.map (Parameters.respell (respell φ)) φ) p) (first : Parameter) (cs : List Char) :
    Respelt φ (Prod.map (Parameters.respell (respell φ)) φ) cs (parametersTail p first cs)
      (parametersTail p (first.respell (respell φ)) (φ cs)) := by
  simp only [parametersTail, symbol?_respell h (by decide : IsPlain ',')]
  cases hs : symbol? ',' cs with
  | none => exact (commutes_symbol h (by decide) cs).give (Parameters.mk [] (some first))
  | some r =>
    exact ((hp r).map (addOrdinary first) (addOrdinary (first.respell (respell φ))) fun _ => rfl).mono
      (passes_symbol? (by decide) hs)

lemma commutes_parametersWith {p : Reader Parameters}
    (hp : Commutes φ (Prod.map (Parameters.respell (respell φ)) φ) p) :
    Commutes φ (Prod.map (Parameters.respell (respell φ)) φ) (parametersWith p) := by
  intro cs
  simp only [parametersWith, symbol?_respell h (by decide : IsPlain ')')]
  cases hs : symbol? ')' cs with
  | none => exact (commutes_parameter h cs).bind fun b _ => commutes_parametersTail h hp b.1 b.2
  | some r => exact .ok (b := (Parameters.mk [] none, r)) (passes_symbol? (by decide) hs)

lemma commutes_parameters : Commutes φ (Prod.map (Parameters.respell (respell φ)) φ) parameters :=
  commutes_descend h.nil (fun _ => commutes_parametersWith h) (fun _ => trivial) parametersWith_descends

lemma commutes_functionKeyword : Commutes φ φ functionKeyword := by
  intro cs
  rw [functionKeyword_eq, functionKeyword_eq]
  refine commutes_byWord h .functionKeyword (fun word p hp cs => ?_) cs
  by_cases hw : word = "fn"
  · obtain rfl := Option.some.inj ((if_pos hw).symm.trans hp)
    exact .done cs
  · cases (if_neg hw).symm.trans hp

variable {p : BlockReader} (hp : Commutes φ (Prod.map (blockRespell (respell φ)) φ) p)

include hp

lemma commutes_closure : Commutes φ (Prod.map (Closure.respell (respell φ)) φ) (closure p) := by
  intro cs
  refine (commutes_functionKeyword h cs).bind fun rest _ => ?_
  refine (commutes_symbol h (by decide) rest).bind fun rest _ => ?_
  refine (commutes_parameters h rest).bind ?_
  rintro ⟨parameters, rest⟩ _
  refine (commutes_symbol h (by decide) rest).bind fun rest _ => ?_
  refine (commutes_typeLabel h rest).bind ?_
  rintro ⟨label, rest⟩ _
  refine (commutes_symbol h (by decide) rest).bind fun rest _ => ?_
  exact (hp rest).map (Closure.mk parameters label)
    (Closure.mk (parameters.respell (respell φ)) (respell φ label)) fun _ => rfl

lemma commutes_wordValue : Commutes φ (Prod.map (Value.respell (respell φ)) φ) (wordValue p) := by
  intro cs
  refine (commutes_name h cs).bindAt ?_
  rintro ⟨word, rest⟩ hn hpass
  have happ : startsWith '(' (skipInlineGap (φ rest)) = startsWith '(' (skipInlineGap rest) := by
    simp only [startsWith, h.head_skipInlineGap]
  dsimp only [Prod.map_apply, id_eq]
  rw [happ]
  split
  · exact (commutes_closure h hp cs).map Value.closure Value.closure fun _ => rfl
  refine .mono ?_ hpass
  split
  · next hw =>
    have hliteral : respell φ word = word := respell_of_isPlain h (skipGap_of_name hn).1.isPlain
    have hd := Respelt.done (φ := φ) (g := Prod.map (Value.respell (respell φ)) φ) (.literal word, rest)
    rwa [Prod.map_apply, Value.respell, hliteral] at hd
  split
  · exact (commutes_arguments h rest).map (Value.call ⟨word, ·⟩) (Value.call ⟨word, ·⟩) fun _ => rfl
  · exact .done (g := Prod.map (Value.respell (respell φ)) φ) (.variable word, rest)

lemma commutes_value : Commutes φ (Prod.map (Value.respell (respell φ)) φ) (value p) := by
  intro cs
  rw [value_eq, value_eq]
  refine .ite_head h (· = some '"') (fun hs => (respelt_string h hs).map Value.literal Value.literal fun _ => rfl) ?_
  refine .ite_head h (·.any opensNumber) (fun _ => ?_) ?_
  · rw [h.skipGap]
    exact ((commutes_number h _).map Value.literal Value.literal fun _ => rfl).mono (passes_skipGap cs)
  · exact .ite_head h (·.any isNameStart) (fun _ => commutes_wordValue h hp cs) (.fail h .value)

lemma commutes_assignedValue : Commutes φ (Prod.map (Value.respell (respell φ)) φ) (assignedValue p) :=
  fun cs => (commutes_symbol h (by decide) cs).bind fun rest _ => commutes_value h hp rest

lemma commutes_binding :
    Commutes φ (Prod.map (Prod.map (Parameter.respell (respell φ)) (Value.respell (respell φ))) φ) (binding p) := by
  intro cs
  refine (commutes_parameter h cs).bind ?_
  rintro ⟨target, rest⟩ _
  exact (commutes_assignedValue h hp rest).map (Prod.mk target) (Prod.mk (target.respell (respell φ))) fun _ => rfl

lemma commutes_declaration (kind : Binding) :
    Commutes φ (Prod.map (Statement.respell (respell φ)) φ) (declaration p kind) :=
  fun cs => (commutes_binding h hp cs).map (fun b => Statement.declare kind b.1.name b.1.typeLabel b.2)
    (fun b => Statement.declare kind b.1.name b.1.typeLabel b.2) fun _ => rfl

lemma commutes_continuation (name : String) :
    Commutes φ (Prod.map (Statement.respell (respell φ)) φ) (continuation p name) := by
  intro cs
  rw [continuation_eq, continuation_eq]
  refine .ite_head h (· = some '(') (fun _ =>
    (commutes_arguments h cs).map (Statement.call ⟨name, ·⟩) (Statement.call ⟨name, ·⟩) fun _ => rfl) ?_
  refine .ite_head h (· = some ':') (fun _ => ?_) (.ite_head h (· = some '=') (fun _ => ?_) (.fail h _))
  · refine (commutes_symbol h (by decide) cs).bind fun rest _ => ?_
    refine (commutes_typeLabel h rest).bind ?_
    rintro ⟨label, rest⟩ _
    exact (commutes_assignedValue h hp rest).map (Statement.assign name label)
      (Statement.assign name (respell φ label)) fun _ => rfl
  · have hempty : respell φ "" = "" := respell_of_isPlain h (List.forall_mem_nil _)
    refine (commutes_assignedValue h hp cs).map (Statement.assign name "") (Statement.assign name "") fun v => ?_
    rw [Statement.respell, hempty]

omit hp

lemma commutes_emission : Commutes φ (Prod.map (Statement.respell (respell φ)) φ) emission := by
  intro cs
  rw [emission_eq, emission_eq]
  refine (commutes_name h cs).bind ?_
  rintro ⟨event, rest⟩ _
  dsimp only [emissionTail, Prod.map_apply, id_eq]
  rw [h.head_skipInlineGap]
  split
  · exact (commutes_name h rest).map (Statement.emit event <| some ·) (Statement.emit event <| some ·) fun _ => rfl
  · exact .done (g := Prod.map (Statement.respell (respell φ)) φ) (.emit event none, rest)

lemma commutes_tidied {f : α → α} {q : Reader α} (hq : Commutes φ (Prod.map f φ) q) :
    Commutes φ (Prod.map f φ) (tidied q) := by
  intro cs
  refine (hq cs).bind ?_
  rintro ⟨a, rest⟩ _
  have hr : Respelt φ (Prod.map f φ) rest (.ok (a, skipGap rest)) (.ok (f a, φ (skipGap rest))) :=
    .ok (b := (a, skipGap rest)) (passes_skipGap rest)
  rwa [← h.skipGap] at hr

lemma exitEnd_respell {e : List Char} (hs : Scanned cs e) : ∃ v b e', Unbroken v ∧ cs = v ++ e ∧
    φ cs = φ v ++ (b ++ e') ∧ (∀ c ∈ b, isBlank c) ∧ exitEnd (φ cs) = .ok e' ∧ skipGap e' = φ (skipGap e) ∧
      Passes cs e := by
  obtain ⟨v, hv, rfl, hstop, hl⟩ := hs
  obtain ⟨hφv, hlast⟩ := h.unbroken hv
  have hinline : ∀ c ∈ (skipInlineGap (φ e)).head?, c = '\n' ∨ c = '\x7d' := by
    rw [h.head_skipInlineGap]
    exact head_skipInlineGap_of_stops hstop
  obtain ⟨b, e', he, hb, hend⟩ := exitEnd_inline hinline
  have happ := h.append hv.whole hl
  refine ⟨v, b, e', hv, rfl, he ▸ happ, hb, ?_, ?_, passes_append hv.whole hl⟩
  · rw [happ, exitEnd_append hφv, hend]
    intro hv' he'
    exact hl (hlast ▸ hv') (h.head_of (by decide) he')
  · rw [← skipGap_append (gap_of_blank hb), ← he, h.skipGap]

lemma trim_respell {w : String} {v b : List Char} (hw : w ∈ exitKeywords) (hv : Unbroken v) (hb : ∀ c ∈ b, isBlank c) :
    trim (w.toList ++ φ v ++ b) = φ (trim (w.toList ++ v)) := by
  obtain ⟨u, d, rfl, hd, hu, hlast⟩ := hv.trim
  have hplain : ∀ c ∈ d, IsPlain c := fun c hc => isPlain_of_isBlank (hd c hc).1 (hd c hc).2
  have hφ : φ (u ++ d) = φ u ++ d := by
    rw [h.append hu.whole, h.of_isPlain hplain]
    intro _ hs
    obtain ⟨r, rfl⟩ := List.head?_eq_some_iff.mp hs
    exact (hplain '/' List.mem_cons_self).2.2 rfl
  have hblank : ∀ c ∈ d ++ b, isBlank c := List.forall_mem_append.mpr ⟨fun c hc => (hd c hc).1, hb⟩
  have hlast' : ∀ c ∈ (φ u).getLast?, ¬ isBlank c := by rwa [(h.unbroken hu).2]
  calc
    trim (w.toList ++ φ (u ++ d) ++ b) = trim (w.toList ++ φ u ++ (d ++ b)) := by simp [hφ]
    _ = w.toList ++ φ u := trim_exit hw hlast' hblank
    _ = φ (w.toList ++ u) := (h.append_plain (isName_exitKeyword hw).1.isPlain u).symm
    _ = φ (trim (w.toList ++ u ++ d)) := by rw [trim_exit hw hlast fun c hc => (hd c hc).1]
    _ = φ (trim (w.toList ++ (u ++ d))) := by rw [List.append_assoc]

lemma commutes_exit {w : String} (hw : w ∈ exitKeywords) :
    Commutes φ (Prod.map (Statement.respell (respell φ)) φ) (tidied fun cs => exit (w.toList ++ cs) cs) := by
  intro cs
  cases he : exitEnd cs with
  | error f =>
    obtain ⟨u, r, hu, rfl, hr, rfl⟩ := exitEnd_error he
    have hapart (u r : List Char) : Apart u ('"' :: r) := fun _ hs => absurd (Option.some.inj hs) (by decide)
    obtain ⟨r', hr', hc⟩ := h.openString hr
    have hopen : exitEnd (φ (u ++ '"' :: r)) = .error ⟨φ ('"' :: r), .openString⟩ := by
      rw [h.append hu.whole (hapart u r), hr', exitEnd_append (h.unbroken hu).1 (hapart _ r'), exitEnd_eq]
      simp only [exitEndWith, hc]
    simp only [tidied, exit, he, hopen]
    exact .error (passes_append hu.whole (hapart u r))
  | ok e =>
    obtain ⟨v, b, e', hv, rfl, hφ, hb, hend, hskip, hpass⟩ := exitEnd_respell h (scanned_of_exitEnd he)
    have hcut : consumed (w.toList ++ φ (v ++ e)) e' = w.toList ++ φ v ++ b := by
      rw [hφ, ← consumed_append (w.toList ++ φ v ++ b) e']
      simp
    have hcut' : consumed (w.toList ++ (v ++ e)) e = w.toList ++ v := by
      rw [← List.append_assoc, consumed_append]
    simp only [tidied, exit, he, hend, bind, Except.bind, pure, Except.pure, hcut, hcut', trim_respell h hw hv hb,
      hskip]
    have hok := Respelt.ok (φ := φ) (g := Prod.map (Statement.respell (respell φ)) φ)
      (b := (.exit (.ofList (trim (w.toList ++ v))), skipGap e)) (hpass.trans (passes_skipGap e))
    rwa [Prod.map_apply, Statement.respell, respell, String.toList_ofList] at hok

include hp

lemma commutes_statementTail (word : String) :
    Commutes φ (Prod.map (Statement.respell (respell φ)) φ) (tidied (statementTail p word)) := by
  unfold statementTail
  split
  · exact commutes_tidied h (commutes_declaration h hp .const)
  · exact commutes_tidied h (commutes_declaration h hp .let)
  · exact commutes_tidied h (commutes_emission h)
  · exact commutes_exit h (by decide)
  · exact commutes_exit h (by decide)
  · exact commutes_tidied h (commutes_continuation h hp word)

lemma commutes_statement : Commutes φ (Prod.map (Statement.respell (respell φ)) φ) (tidied (statement p)) := by
  have heq (cs : List Char) : tidied (statement p) cs = name cs >>= fun b => tidied (statementTail p b.1) b.2 := by
    simp only [tidied, statement_eq, bind_assoc]
  intro cs
  rw [heq, heq]
  exact (commutes_name h cs).bind fun b _ => commutes_statementTail h hp b.1 b.2

omit h hp in
lemma tidied_blockWith (hskip : ∀ cs, p (skipGap cs) = p cs) (cs : List Char) : (do
      let (first, rest) ← statement p cs
      let (others, rest) ← p rest
      return (first :: others, rest)) = tidied (statement p) cs >>= fun b => do
      let (others, rest) ← p b.2
      return (b.1 :: others, rest) := by
  simp only [tidied, bind_assoc, pure_bind, hskip]

lemma commutes_blockWith (hskip : ∀ cs, p (skipGap cs) = p cs) :
    Commutes φ (Prod.map (blockRespell (respell φ)) φ) (blockWith p) := by
  intro cs
  rw [blockWith_eq, blockWith_eq, tidied_blockWith hskip, tidied_blockWith hskip]
  refine .ite_head h (· = none) (fun _ => .fail h _) (.ite_head h (· = some '\x7d') (fun _ => ?_) ?_)
  · exact (commutes_symbol h (by decide) cs).give []
  · refine (commutes_statement h hp cs).bind fun b _ => ?_
    exact (hp b.2).map (b.1 :: ·) (b.1.respell (respell φ) :: ·) fun _ => rfl

omit hp

lemma commutes_block : Commutes φ (Prod.map (blockRespell (respell φ)) φ) block := by
  refine commutes_descend h.nil (fun n ih => commutes_blockWith h ih ?_)
    (descendWithin_advances fun _ => blockWith_advances) blockWith_descends
  intro cs
  cases n with
  | zero => rfl
  | succ n => simp only [descendWithin, blockWith, skipGap_skipGap]

lemma commutes_item : Commutes φ (Prod.map (Item.respell (respell φ)) φ) item := by
  intro cs
  rw [item_eq, item_eq]
  refine commutes_byWord h .itemKeyword (fun word p hp cs => ?_) cs
  unfold itemReader? at hp
  split at hp
  · obtain rfl := Option.some.inj hp
    exact (commutes_binding h (commutes_block h) cs).map (fun b => Item.constant ⟨b.1.name, b.1.typeLabel, b.2⟩)
      (fun b => Item.constant ⟨b.1.name, b.1.typeLabel, b.2⟩) fun _ => rfl
  · obtain rfl := Option.some.inj hp
    exact (commutes_parameter h cs).map (fun e => Item.event ⟨e.name, e.typeLabel⟩)
      (fun e => Item.event ⟨e.name, e.typeLabel⟩) fun _ => rfl
  · obtain rfl := Option.some.inj hp
    refine (commutes_name h cs).bind ?_
    rintro ⟨event, rest⟩ _
    exact (commutes_closure h (commutes_block h) rest).map (fun c => Item.handler ⟨event, c⟩)
      (fun c => Item.handler ⟨event, c⟩) fun _ => rfl
  · cases hp

lemma items_respell (cs : List Char) :
    (∀ is, items cs = .ok is → items (φ cs) = .ok (is.map (Item.respell (respell φ)))) ∧
      ∀ f, items cs = .error f → items (φ cs) = .error ⟨φ f.rest, f.fault⟩ ∧ Passes cs f.rest := by
  induction hn : cs.length using Nat.strong_induction_on generalizing cs with
  | _ n ih =>
    subst hn
    by_cases hg : skipGap cs = []
    · have hg' : skipGap (φ cs) = [] := by rw [h.skipGap, hg, h.nil]
      rw [items_nil hg, items_nil hg']
      constructor
      · intro is he
        obtain rfl := Except.ok.inj he
        rfl
      · intro f he
        cases he
    · have hg' : skipGap (φ cs) ≠ [] := by
        rw [← List.head?_eq_none_iff.ne, h.skipGap, h.head_skipGap, List.head?_eq_none_iff.ne]
        exact hg
      rw [items_cons hg, items_cons hg']
      cases hi : item cs with
      | error f =>
        obtain ⟨hi', hp⟩ := (commutes_item h).error hi
        rw [hi']
        constructor
        · intro is he
          cases he
        · intro f' he
          obtain rfl := Except.error.inj he
          exact ⟨rfl, hp⟩
      | ok b =>
        obtain ⟨first, rest⟩ := b
        obtain ⟨hi', hp⟩ := (commutes_item h).ok hi
        obtain ⟨hok, herror⟩ := ih _ (item_advances hi).2 rest rfl
        rw [bind_ok hi']
        constructor
        · intro is he
          change (items rest >>= fun others => .ok (first :: others)) = .ok is at he
          obtain ⟨others, ho, he⟩ := bind_eq_ok.mp he
          obtain rfl := Except.ok.inj he
          exact bind_ok (hok others ho) _
        · intro f he
          obtain ⟨hf, hr⟩ := herror f (map_eq_error.mp he)
          exact ⟨map_eq_error.mpr hf, hp.trans hr⟩

end Source

variable {φ : List Char → List Char}

lemma message_respell (h : Respelling φ) {fault : Fault} {r : List Char} (hs : Spotted fault r) :
    fault.message (φ r).head? = fault.message r.head? := by
  have hhead (hr : skipGap r = r) : (φ r).head? = r.head? := by rw [← hr, h.head_skipGap, hr]
  cases fault with
  | identifier => rw [hhead hs]
  | symbol c => rw [hhead hs]
  | continuation n => rw [hhead hs]
  | value => rw [hhead hs]
  | _ => rfl

lemma parse_respell (h : Respelling φ) (t : String) :
    (∃ p, Program.parse t = .ok p ∧ Program.parse (respell φ t) = .ok (p.respell (respell φ))) ∨
      ∃ e e' u, Program.parse t = .error e ∧ Program.parse (respell φ t) = .error e' ∧ e'.message = e.message ∧
        e.position = .after u ∧ e'.position = .after (φ u) ∧ (u = t.toList ∨ Whole u) := by
  obtain ⟨hok, herror⟩ := items_respell h t.toList
  simp only [Program.parse, respell, String.toList_ofList]
  cases hi : items t.toList with
  | ok is =>
    rw [hok is hi]
    exact .inl ⟨_, rfl, congrArg Except.ok (Program.ofItems_respell _ is)⟩
  | error f =>
    obtain ⟨hφ, hp⟩ := herror f hi
    obtain ⟨_, hspot⟩ := items_error hi
    rw [hφ]
    refine .inr ⟨_, _, consumed t.toList f.rest, rfl, rfl, message_respell h hspot, rfl, ?_, ?_⟩
    · rw [← h.consumed hp]
      rfl
    · obtain ⟨u, he, hr | ⟨hu, _⟩⟩ := hp
      · rw [hr, List.append_nil] at he
        rw [hr, ← List.append_nil t.toList, consumed_append, List.append_nil]
        exact .inl rfl
      · rw [he, consumed_append]
        exact .inr hu

end AmmCompiler
