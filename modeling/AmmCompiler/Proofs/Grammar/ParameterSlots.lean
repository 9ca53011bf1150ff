import AmmCompiler.Proofs.JavaScript.Parts
import Mathlib.Data.List.Chain

/-! The last parameter of a list is the trailing one, unless a comma stands behind it. The reader accepts that
comma, which the grammar does not have. -/

namespace AmmCompiler

open Source

def listTokens (ps : List Parameter) : List Token :=
  ((ps.map Parameter.tokens).intersperse [.symbol ',']).flatten ++ [.symbol ')']

/-- Only an empty list lacks its trailing parameter, and the list is written as the grammar has it. -/
structure Parameters.Slotted (ps : Parameters) : Prop where
  ordinary : ps.ordinary = ps.all.dropLast
  trailing : ps.trailing = ps.all.getLast?
  tokens : ps.tokens = listTokens ps.all

def commaClose : List Token :=
  [.symbol ',', .symbol ')']

def Tight (tokens : List Token) : Prop :=
  tokens.IsChain fun a b => ¬ (a = .symbol ',' ∧ b = .symbol ')')

def Part.Slotted : Part → Prop
  | .closure c => c.parameters.Slotted
  | _ => True

def Part.Within (tokens : List Token) : Part → Prop
  | .closure c => c.parameters.tokens <:+: tokens
  | _ => True

def Program.allClosures (p : Program) : List Closure :=
  p.handlers.map Handler.closure ++ p.closures

variable {xs ys tokens : List Token} {t : Token} {ps : Parameters} {p : Program}

lemma tight_iff : Tight tokens ↔ ¬ commaClose <:+: tokens := by
  rw [Tight, List.isChain_iff_forall_rel_of_append_cons_cons]
  constructor
  · rintro h ⟨xs, ys, he⟩
    exact h (he.symm.trans (List.append_assoc _ _ _)) ⟨rfl, rfl⟩
  · rintro h a b xs ys he ⟨rfl, rfl⟩
    exact h ⟨xs, ys, (List.append_assoc _ _ _).trans he.symm⟩

lemma tight_cons (h : t ≠ .symbol ',') : Tight (t :: tokens) ↔ Tight tokens := by
  rw [Tight, List.isChain_cons]
  exact and_iff_right fun b _ hb => h hb.1

lemma tight_word (w : String) (s : Spacing) : Tight (.word w s :: tokens) ↔ Tight tokens :=
  tight_cons Token.noConfusion

lemma tight_label (l : String) : Tight (.label l :: tokens) ↔ Tight tokens :=
  tight_cons Token.noConfusion

lemma tight_symbol {c : Char} (h : c ≠ ',') : Tight (.symbol c :: tokens) ↔ Tight tokens :=
  tight_cons fun he => h (Token.symbol.inj he)

lemma tight_comma : Tight (.symbol ',' :: tokens) ↔ tokens.head? ≠ some (.symbol ')') ∧ Tight tokens := by
  rw [Tight, List.isChain_cons]
  refine and_congr_left fun _ => ⟨fun h he => h _ he ⟨rfl, rfl⟩, ?_⟩
  rintro h b hb ⟨_, rfl⟩
  exact h hb

lemma tight_append (h : ys.head? ≠ some (.symbol ')')) : Tight (xs ++ ys) ↔ Tight xs ∧ Tight ys := by
  rw [Tight, List.isChain_append]
  refine and_congr_right fun _ => and_iff_left fun a _ b hb => ?_
  rintro ⟨_, rfl⟩
  exact h hb

lemma tight_parameter (p : Parameter) : Tight (p.tokens ++ ys) ↔ Tight ys :=
  (tight_word p.name .free).trans ((tight_symbol (by decide)).trans (tight_label p.typeLabel))

lemma tight_ordinary (ps : List Parameter) : Tight (ps.flatMap (fun p => p.tokens ++ [.symbol ',']) ++ ys) ↔
    (ps ≠ [] → ys.head? ≠ some (.symbol ')')) ∧ Tight ys := by
  induction ps with
  | nil => simp
  | cons p ps ih =>
    rw [List.flatMap_cons, List.append_assoc, List.append_assoc, tight_parameter, List.singleton_append,
      tight_comma, ih]
    cases ps with
    | nil => simp
    | cons q qs => simp [Parameter.tokens]

lemma tight_parameters : Tight ps.tokens ↔ (ps.trailing = none → ps.ordinary = []) := by
  obtain ⟨ordinary, trailing⟩ := ps
  rw [Parameters.tokens, tight_ordinary]
  cases trailing with
  | none => simp [Tight]
  | some q => simp [Parameter.tokens, Tight]

lemma tokens_concat (ps : List Parameter) (q : Parameter) :
    ps.flatMap (fun p => p.tokens ++ [.symbol ',']) ++ (q.tokens ++ [.symbol ')']) = listTokens (ps ++ [q]) := by
  rw [listTokens, ← List.append_assoc]
  congr 1
  induction ps with
  | nil => simp
  | cons p ps ih =>
    rw [List.flatMap_cons, List.append_assoc, ih]
    cases ps with
    | nil => simp
    | cons p' ps => simp

lemma slotted_iff : ps.Slotted ↔ Tight ps.tokens := by
  rw [tight_parameters]
  obtain ⟨ordinary, trailing⟩ := ps
  constructor
  · rintro ⟨ho, ht, _⟩ rfl
    rw [List.getLast?_eq_none_iff.mp ht.symm] at ho
    exact ho
  · intro h
    cases trailing with
    | none =>
      obtain rfl : ordinary = [] := h rfl
      exact ⟨rfl, rfl, rfl⟩
    | some q =>
      refine ⟨List.dropLast_concat.symm, List.getLast?_concat.symm, ?_⟩
      rw [Parameters.tokens, Option.toList_some, List.flatMap_singleton]
      exact tokens_concat ordinary q

lemma tight_arguments (as : List String) : Tight (argumentTokens as) := by
  rw [argumentTokens, tight_symbol (by decide)]
  induction as with
  | nil => exact .singleton _
  | cons a as ih =>
    cases as with
    | nil => exact (tight_word a .free).mpr (.singleton _)
    | cons b bs =>
      refine (tight_word a .free).mpr (tight_comma.mpr ⟨?_, ih⟩)
      cases bs with
      | nil => simp
      | cons b' bs => simp

lemma head_statement (s : Statement) (ts : List Token) : (s.tokens ++ ts).head? ≠ some (.symbol ')') := by
  cases s with
  | emit e p => cases p <;> simp [Statement.tokens]
  | _ => simp [Statement.tokens]

mutual

theorem tight_value (v : Value) (l : String) : Tight v.tokens ↔ ∀ part ∈ v.parts l, part.Slotted := by
  match v with
  | .closure c =>
    rw [Value.tokens, Value.parts, List.forall_mem_cons, tight_closure c .sameLine]
    rfl
  | .call c =>
    have ha := (tight_word c.opcode .sameLine).mpr (tight_arguments c.arguments)
    exact iff_of_true ha (List.forall_mem_singleton.mpr trivial)
  | .variable n => exact iff_of_true (.singleton _) (List.forall_mem_nil _)
  | .literal t => exact iff_of_true (.singleton _) (List.forall_mem_singleton.mpr trivial)

theorem tight_closure (c : Closure) (s : Spacing) :
    Tight (c.tokens s) ↔ c.parameters.Slotted ∧ ∀ part ∈ c.parts, part.Slotted := by
  match c with
  | ⟨ps, l, body⟩ =>
    have hbody := tight_block body
    have hclose : Tight [Token.symbol '\x7d'] := .singleton _
    rw [Closure.tokens, tight_word, tight_symbol (by decide), tight_append (by simp), ← slotted_iff,
      tight_symbol (by decide), tight_label, tight_symbol (by decide), tight_append (by simp), hbody,
      and_iff_left hclose]
    rfl

theorem tight_statement (s : Statement) : Tight s.tokens ↔ ∀ part ∈ s.parts, part.Slotted := by
  match s with
  | .declare b n l v =>
    rw [Statement.tokens, tight_word, tight_word, tight_symbol (by decide), tight_label, tight_symbol (by decide),
      tight_value v l, Statement.parts, List.forall_mem_append]
    exact (and_iff_left (List.forall_mem_singleton.mpr trivial)).symm
  | .assign n l v =>
    have hl : Tight ((if l = "" then [] else [.symbol ':', .label l]) ++ .symbol '=' :: v.tokens) ↔
        Tight (.symbol '=' :: v.tokens) := by
      split
      · rfl
      · exact (tight_symbol (by decide)).trans (tight_label l)
    rw [Statement.tokens, tight_word, hl, tight_symbol (by decide), tight_value v l, Statement.parts,
      List.forall_mem_append]
    exact (and_iff_left (List.forall_mem_singleton.mpr trivial)).symm
  | .call c =>
    have ha := (tight_word c.opcode .free).mpr (tight_arguments c.arguments)
    exact iff_of_true ha (List.forall_mem_cons.mpr ⟨trivial, List.forall_mem_singleton.mpr trivial⟩)
  | .emit e none =>
    have he := (tight_word "emit" .free).mpr (.singleton (.word e .lineEnd))
    exact iff_of_true he (List.forall_mem_singleton.mpr trivial)
  | .emit e (some p) =>
    have he := (tight_word "emit" .free).mpr ((tight_word e .sameLine).mpr (.singleton (.word p .free)))
    exact iff_of_true he (List.forall_mem_singleton.mpr trivial)
  | .exit f => exact iff_of_true (.singleton _) (List.forall_mem_singleton.mpr trivial)

theorem tight_block (ss : List Statement) : Tight (blockTokens ss) ↔ ∀ part ∈ blockParts ss, part.Slotted := by
  match ss with
  | [] => exact iff_of_true .nil (List.forall_mem_nil _)
  | s :: ss =>
    have hhead : (blockTokens ss).head? ≠ some (.symbol ')') := by
      cases ss with
      | nil => simp [blockTokens]
      | cons s' ss => exact head_statement s' _
    rw [blockTokens, tight_append hhead, tight_statement s, tight_block ss, blockParts, List.forall_mem_append]

end

def Source.Item.parts : Item → List Part
  | constant c => c.parts
  | event _ => []
  | handler h => .closure h.closure :: h.closure.parts

lemma tight_item (i : Item) : Tight i.tokens ↔ ∀ part ∈ i.parts, part.Slotted := by
  cases i with
  | constant c =>
    rw [Item.tokens, tight_word, tight_word, tight_symbol (by decide), tight_label, tight_symbol (by decide),
      tight_value c.value c.typeLabel]
    rfl
  | event e =>
    have he := (tight_word "event" .free).mpr ((tight_parameter ⟨e.name, e.typeLabel⟩).mpr .nil)
    exact iff_of_true he (List.forall_mem_nil _)
  | handler h =>
    rw [Item.tokens, tight_word, tight_word, tight_closure, Item.parts, List.forall_mem_cons]
    rfl

lemma tight_items (is : List Item) : Tight (is.flatMap Item.tokens) ↔ ∀ i ∈ is, ∀ part ∈ i.parts, part.Slotted := by
  induction is with
  | nil => exact iff_of_true .nil (List.forall_mem_nil _)
  | cons i is ih =>
    have hhead : (is.flatMap Item.tokens).head? ≠ some (.symbol ')') := by
      cases is with
      | nil => simp
      | cons j js =>
        obtain ⟨w, ts, he, _⟩ := Item.head j
        simp [he]
    rw [List.flatMap_cons, tight_append hhead, tight_item, ih, List.forall_mem_cons]

lemma Part.Within.mono {part : Part} (h : part.Within xs) (hs : xs <:+: ys) : part.Within ys := by
  cases part with
  | closure c => exact List.IsInfix.trans h hs
  | _ => trivial

mutual

theorem within_value (v : Value) (l : String) : ∀ part ∈ v.parts l, part.Within v.tokens := by
  match v with
  | .closure c => exact List.forall_mem_cons.mpr (within_closure c .sameLine)
  | .call c => exact List.forall_mem_singleton.mpr trivial
  | .variable n => exact List.forall_mem_nil _
  | .literal t => exact List.forall_mem_singleton.mpr trivial

theorem within_closure (c : Closure) (s : Spacing) :
    c.parameters.tokens <:+: c.tokens s ∧ ∀ part ∈ c.parts, part.Within (c.tokens s) := by
  match c with
  | ⟨ps, l, body⟩ =>
    refine ⟨⟨[.word "fn" s, .symbol '('], _, rfl⟩, fun part hp => (within_block body part hp).mono ?_⟩
    exact ⟨.word "fn" s :: .symbol '(' :: (ps.tokens ++ [.symbol ':', .label l, .symbol '\x7b']), [.symbol '\x7d'],
      by simp [Closure.tokens]⟩

theorem within_statement (s : Statement) : ∀ part ∈ s.parts, part.Within s.tokens := by
  match s with
  | .declare b n l v =>
    refine List.forall_mem_append.mpr ⟨fun part hp => ?_, List.forall_mem_singleton.mpr trivial⟩
    exact (within_value v l part hp).mono
      ⟨[.word b.keyword .free, .word n .free, .symbol ':', .label l, .symbol '='], [], by simp [Statement.tokens]⟩
  | .assign n l v =>
    refine List.forall_mem_append.mpr ⟨fun part hp => ?_, List.forall_mem_singleton.mpr trivial⟩
    exact (within_value v l part hp).mono
      ⟨.word n .free :: ((if l = "" then [] else [.symbol ':', .label l]) ++ [.symbol '=']), [],
        by simp [Statement.tokens]⟩
  | .call c => exact List.forall_mem_cons.mpr ⟨trivial, List.forall_mem_singleton.mpr trivial⟩
  | .emit e p => exact List.forall_mem_singleton.mpr trivial
  | .exit f => exact List.forall_mem_singleton.mpr trivial

theorem within_block (ss : List Statement) : ∀ part ∈ blockParts ss, part.Within (blockTokens ss) := by
  match ss with
  | [] => exact List.forall_mem_nil _
  | s :: ss =>
    refine List.forall_mem_append.mpr ⟨fun part hp => ?_, fun part hp => ?_⟩
    · exact (within_statement s part hp).mono (List.prefix_append _ _).isInfix
    · exact (within_block ss part hp).mono (List.suffix_append _ _).isInfix

end

lemma within_item (i : Item) : ∀ part ∈ i.parts, part.Within i.tokens := by
  cases i with
  | constant c =>
    intro part hp
    exact (within_value c.value c.typeLabel part hp).mono
      ⟨[.word "const" .free, .word c.name .free, .symbol ':', .label c.typeLabel, .symbol '='], [],
        by simp [Item.tokens]⟩
  | event e => exact List.forall_mem_nil _
  | handler h =>
    have hs : h.closure.tokens .free <:+: (Item.handler h).tokens :=
      ⟨[.word "on" .free, .word h.event .free], [], by simp [Item.tokens]⟩
    obtain ⟨hp, hparts⟩ := within_closure h.closure .free
    exact List.forall_mem_cons.mpr ⟨hp.trans hs, fun part hp => (hparts part hp).mono hs⟩

lemma mem_constants {is : List Item} {c : Constant} : c ∈ (Program.ofItems is).constants ↔ .constant c ∈ is :=
  mem_filterMap_iff fun i c => by cases i <;> simp [Item.constant?]

lemma mem_handlers {is : List Item} {h : Handler} : h ∈ (Program.ofItems is).handlers ↔ .handler h ∈ is :=
  mem_filterMap_iff fun i h => by cases i <;> simp [Item.handler?]

lemma mem_allClosures {is : List Item} {c : Closure} :
    c ∈ (Program.ofItems is).allClosures ↔ ∃ i ∈ is, .closure c ∈ i.parts := by
  simp only [Program.allClosures, Program.parts, Program.mem_closures, List.mem_append, List.mem_map, List.mem_flatMap,
    mem_constants, mem_handlers]
  constructor
  · rintro (⟨h, hi, rfl⟩ | ⟨d, hi, hc⟩ | ⟨h, hi, hc⟩)
    · exact ⟨_, hi, List.mem_cons_self⟩
    · exact ⟨_, hi, hc⟩
    · exact ⟨_, hi, List.mem_cons_of_mem _ hc⟩
  · rintro ⟨i, hi, hc⟩
    cases i with
    | constant d => exact .inr (.inl ⟨d, hi, hc⟩)
    | event e => cases hc
    | handler h =>
      rcases List.mem_cons.mp hc with hc | hc
      · exact .inl ⟨h, hi, (Part.closure.inj hc).symm⟩
      · exact .inr (.inr ⟨h, hi, hc⟩)

lemma slotted_closures {is : List Item} :
    (∀ c ∈ (Program.ofItems is).allClosures, c.parameters.Slotted) ↔ ∀ i ∈ is, ∀ part ∈ i.parts, part.Slotted := by
  constructor
  · intro h i hi part hp
    cases part with
    | closure c => exact h c (mem_allClosures.mpr ⟨i, hi, hp⟩)
    | _ => trivial
  · intro h c hc
    obtain ⟨i, hi, hp⟩ := mem_allClosures.mp hc
    exact h i hi _ hp

/-- A text that is read as a program writes the parameters of each closure in a list, and the last one of them is
the trailing one, as in the grammar, exactly when no comma stands behind it. -/
theorem slots_of_parse {text : String} (h : Program.parse text = .ok p) : ∃ items : List Item,
    (∀ i ∈ items, i.WellFormed) ∧ Rendering (items.flatMap Item.tokens) text.toList ∧ p = .ofItems items ∧
      (∀ c ∈ p.allClosures, c.parameters.tokens <:+: items.flatMap Item.tokens ∧
        (c.parameters.Slotted ↔ ¬ commaClose <:+: c.parameters.tokens)) ∧
      ((∀ c ∈ p.allClosures, c.parameters.Slotted) ↔ ¬ commaClose <:+: items.flatMap Item.tokens) := by
  obtain ⟨is, hi, rfl⟩ := items_of_parse h
  obtain ⟨hw, rest, hl, hr⟩ := items_sound hi (follows_start _)
  refine ⟨is, hw, ⟨rest, hl, hr⟩, rfl, fun c hc => ⟨?_, slotted_iff.trans tight_iff⟩, ?_⟩
  · obtain ⟨i, hi, hp⟩ := mem_allClosures.mp hc
    obtain ⟨before, after, rfl⟩ := List.append_of_mem hi
    have hs : i.tokens <:+: (before ++ i :: after).flatMap Item.tokens :=
      ⟨before.flatMap Item.tokens, after.flatMap Item.tokens, by simp⟩
    exact (within_item i _ hp).mono hs
  · rw [slotted_closures, ← tight_items, tight_iff]

def closedText : String :=
  "on a fn (b: c,): d \x7b\n  const f: t = fn (x: t, y: t): t \x7b\n  \x7d\n\x7d\n"

def closedClosure : Closure :=
  ⟨⟨[⟨"b", "c"⟩], none⟩, "d", [.declare .const "f" "t" (.closure ⟨⟨[⟨"x", "t"⟩], some ⟨"y", "t"⟩⟩, "t", []⟩)]⟩

def closedProgram : Program where
  constants := []
  events := []
  handlers := [⟨"a", closedClosure⟩]

theorem slots_closedText : Program.parse closedText = .ok closedProgram ∧
    (∃ items : List Item, (∀ i ∈ items, i.WellFormed) ∧ Rendering (items.flatMap Item.tokens) closedText.toList ∧
      closedProgram = .ofItems items ∧ commaClose <:+: items.flatMap Item.tokens) ∧
        closedClosure ∈ closedProgram.allClosures ∧ closedClosure.parameters.names = ["b"] ∧
          closedClosure.parameters.trailing = none := by
  have hp : Program.parse closedText = .ok closedProgram := rfl
  have hc : closedClosure ∈ closedProgram.allClosures := List.mem_cons_self
  obtain ⟨items, hw, hr, he, _, hall⟩ := slots_of_parse hp
  refine ⟨hp, ⟨items, hw, hr, he, ?_⟩, hc, rfl, rfl⟩
  by_contra hn
  have hslot := (hall.mpr hn closedClosure hc).trailing
  cases hslot

end AmmCompiler
