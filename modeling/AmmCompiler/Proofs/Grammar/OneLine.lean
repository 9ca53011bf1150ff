import AmmCompiler.Proofs.Grammar.KeptLines

namespace AmmCompiler

open Source Text

mutual

def Value.spellings : Value → List String
  | .closure c => c.spellings
  | .call _ => []
  | .variable _ => []
  | .literal token => [token]

def Closure.spellings : Closure → List String
  | ⟨parameters, label, body⟩ => parameters.all.map Parameter.typeLabel ++ label :: blockSpellings body

def Statement.spellings : Statement → List String
  | .declare _ _ label value => label :: value.spellings
  | .assign _ label value => label :: value.spellings
  | .call _ => []
  | .emit _ _ => []
  | .exit fragment => [fragment]

def blockSpellings : List Statement → List String
  | [] => []
  | s :: ss => s.spellings ++ blockSpellings ss

end

def Program.spellings (p : Program) : List String :=
  p.constants.flatMap (fun c => c.typeLabel :: c.value.spellings) ++
    (p.events.map EventDeclaration.typeLabel ++ p.handlers.flatMap fun h => h.closure.spellings)

def OnOneLine (spellings : List String) : Prop :=
  ∀ s ∈ spellings, '\n' ∉ s.toList

instance : DecidablePred OnOneLine :=
  fun _ => List.decidableBAll _ _

variable {w l t f : String} {c : Char}

lemma oneLine_of_last {token : Token} (hs : token.Solid) (hn : '\n' ∉ token.text)
    (hl : ∀ c ∈ token.text.getLast?, ¬ isBlank c) : token.OneLine :=
  ⟨hs, hn, fun he => hl _ he (by decide)⟩

lemma oneLine_word (h : IsName w.toList) (s : Spacing) : (Token.word w s).OneLine := by
  have hb : ∀ c ∈ w.toList, ¬ isBlank c := fun c hc => not_isBlank_of_isNamePart (h.all c hc)
  exact oneLine_of_last (h.solid s) (fun hn => hb _ hn (by decide)) fun c hc => hb c (List.mem_of_mem_getLast? hc)

lemma oneLine_symbol (c : Char) (h : isBlank c = false ∧ c ≠ '/' := by decide) : (Token.symbol c).OneLine := by
  have hb : ¬ isBlank c := by simp [h.1]
  refine oneLine_of_last (solid_symbol c h) (fun hn => ?_) fun d hd => ?_
  · obtain rfl := List.mem_singleton.mp hn
    exact hb (by decide)
  · obtain rfl := Option.some.inj hd
    exact hb

lemma oneLine_label (h : IsType l.toList) (hn : '\n' ∉ l.toList) : (Token.label l).OneLine := by
  refine oneLine_of_last h.solid hn fun c hc => ?_
  rw [Token.text] at hc
  generalize l.toList = cs at h hc
  cases h with
  | name hw =>
    obtain ⟨d, hd, hp⟩ := hw.getLast?
    obtain rfl := Option.some.inj (hd.symm.trans hc)
    exact not_isBlank_of_isNamePart hp
  | generic _ _ has =>
    rw [List.getLast?_append, List.getLast?_append, List.getLast?_cons, has.getLast?] at hc
    obtain rfl := Option.some.inj hc
    decide

lemma oneLine_literal (h : IsLiteral t) (hn : '\n' ∉ t.toList) : (literalToken t).OneLine := by
  rw [literalToken]
  split
  · next hw => exact oneLine_word (by rcases hw with rfl | rfl <;> decide) .free
  · next hw =>
    rcases h with h | h | h | h
    · exact absurd (.inl h) hw
    · exact absurd (.inr h) hw
    · refine oneLine_of_last h.solid hn fun c hc => ?_
      obtain ⟨b, he, hb⟩ := h
      rw [Token.text, he, List.getLast?_cons, hb.getLast?] at hc
      obtain rfl := Option.some.inj hc
      decide
    · refine oneLine_of_last h.solid hn fun c hc hb => ?_
      rcases h.mem (List.mem_of_mem_getLast? hc) with hd | rfl | rfl
      · exact not_isBlank_of_isNamePart (isNamePart_of_isDigit hd) hb
      · exact absurd hb (by decide)
      · exact absurd hb (by decide)

lemma oneLine_fragment (h : IsExit f.toList) (hn : '\n' ∉ f.toList) : (Token.fragment f).OneLine := by
  have hlast := h
  obtain ⟨_, _, _, _, _, _, htrim⟩ := hlast
  exact oneLine_of_last h.solid hn (last_of_trim htrim)

lemma oneLine_parameter {q : Parameter} (h : q.WellFormed) (hn : '\n' ∉ q.typeLabel.toList) :
    ∀ t ∈ q.tokens, t.OneLine := by
  rw [Parameter.tokens, List.forall_mem_cons, List.forall_mem_cons, List.forall_mem_singleton]
  exact ⟨oneLine_word h.1 _, oneLine_symbol _, oneLine_label h.2 hn⟩

lemma oneLine_parameters {ps : Parameters} (h : ps.WellFormed)
    (hs : OnOneLine (ps.all.map Parameter.typeLabel)) : ∀ t ∈ ps.tokens, t.OneLine := by
  have hp : ∀ q ∈ ps.all, ∀ t ∈ q.tokens, t.OneLine := fun q hq =>
    oneLine_parameter (h q hq) (hs _ (List.mem_map_of_mem hq))
  rw [Parameters.all, List.forall_mem_append] at hp
  rw [Parameters.tokens, List.forall_mem_append, List.forall_mem_append, List.forall_mem_singleton]
  refine ⟨?_, ?_, oneLine_symbol _⟩
  · intro t ht
    obtain ⟨q, hq, ht⟩ := List.mem_flatMap.mp ht
    rcases List.mem_append.mp ht with ht | ht
    · exact hp.1 q hq t ht
    · obtain rfl := List.mem_singleton.mp ht
      exact oneLine_symbol _
  · intro t ht
    obtain ⟨q, hq, ht⟩ := List.mem_flatMap.mp ht
    exact hp.2 q hq t ht

lemma oneLine_arguments {as : List String} (h : ∀ a ∈ as, IsName a.toList) : ∀ t ∈ argumentTokens as, t.OneLine := by
  have hargs : ∀ t ∈ (as.map (Token.word · .free)).intersperse (.symbol ','), t.OneLine := by
    induction as with
    | nil => exact List.forall_mem_nil _
    | cons a as ih =>
      obtain ⟨ha, has⟩ := List.forall_mem_cons.mp h
      have hnext := ih has
      cases as with
      | nil => exact List.forall_mem_singleton.mpr (oneLine_word ha _)
      | cons b as =>
        exact List.forall_mem_cons.mpr ⟨oneLine_word ha _, List.forall_mem_cons.mpr ⟨oneLine_symbol _, hnext⟩⟩
  rw [argumentTokens, List.forall_mem_cons, List.forall_mem_append, List.forall_mem_singleton]
  exact ⟨oneLine_symbol _, hargs, oneLine_symbol _⟩

mutual

theorem oneLine_value (v : Value) (h : v.WellFormed) (hs : OnOneLine v.spellings) : ∀ t ∈ v.tokens, t.OneLine := by
  match v with
  | .closure c => exact oneLine_closure c h hs .sameLine
  | .call c => exact List.forall_mem_cons.mpr ⟨oneLine_word h.1.1 _, oneLine_arguments h.1.2⟩
  | .variable n => exact List.forall_mem_singleton.mpr (oneLine_word h.1 _)
  | .literal t => exact List.forall_mem_singleton.mpr (oneLine_literal h (hs t List.mem_cons_self))

theorem oneLine_closure (c : Closure) (h : c.WellFormed) (hs : OnOneLine c.spellings) (s : Spacing) :
    ∀ t ∈ c.tokens s, t.OneLine := by
  match c with
  | ⟨parameters, label, body⟩ =>
    obtain ⟨hp, hl, hb⟩ := h
    obtain ⟨hsp, hs⟩ := List.forall_mem_append.mp hs
    obtain ⟨hsl, hsb⟩ := List.forall_mem_cons.mp hs
    simp only [Closure.tokens, List.forall_mem_cons, List.forall_mem_append]
    exact ⟨oneLine_word (by decide) s, oneLine_symbol _, oneLine_parameters hp hsp, oneLine_symbol _,
      oneLine_label hl hsl, oneLine_symbol _, oneLine_block body hb hsb, oneLine_symbol _, List.forall_mem_nil _⟩

theorem oneLine_statement (st : Statement) (h : st.WellFormed) (hs : OnOneLine st.spellings) :
    ∀ t ∈ st.tokens, t.OneLine := by
  match st with
  | .declare b n l v =>
    obtain ⟨hn, hl, hv⟩ := h
    obtain ⟨hsl, hsv⟩ := List.forall_mem_cons.mp hs
    simp only [Statement.tokens, List.forall_mem_cons]
    exact ⟨oneLine_word (isName_keyword b) _, oneLine_word hn _, oneLine_symbol _, oneLine_label hl hsl,
      oneLine_symbol _, oneLine_value v hv hsv⟩
  | .assign n l v =>
    obtain ⟨⟨hn, _⟩, hl, hv⟩ := h
    obtain ⟨hsl, hsv⟩ := List.forall_mem_cons.mp hs
    simp only [Statement.tokens, List.forall_mem_cons, List.forall_mem_append]
    refine ⟨oneLine_word hn _, ?_, oneLine_symbol _, oneLine_value v hv hsv⟩
    split
    · exact List.forall_mem_nil _
    · next hne =>
      simp only [List.forall_mem_cons]
      exact ⟨oneLine_symbol _, oneLine_label (hl.resolve_left hne) hsl, List.forall_mem_nil _⟩
  | .call c => exact List.forall_mem_cons.mpr ⟨oneLine_word h.1.1 _, oneLine_arguments h.1.2⟩
  | .emit e none =>
    simp only [Statement.tokens, List.forall_mem_cons]
    exact ⟨oneLine_word (by decide) _, oneLine_word h.1 _, List.forall_mem_nil _⟩
  | .emit e (some payload) =>
    simp only [Statement.tokens, List.forall_mem_cons]
    exact ⟨oneLine_word (by decide) _, oneLine_word h.1 _, oneLine_word (h.2 payload rfl) _, List.forall_mem_nil _⟩
  | .exit f => exact List.forall_mem_singleton.mpr (oneLine_fragment h (hs f List.mem_cons_self))

theorem oneLine_block (ss : List Statement) (h : blockWellFormed ss) (hs : OnOneLine (blockSpellings ss)) :
    ∀ t ∈ blockTokens ss, t.OneLine := by
  match ss with
  | [] => exact List.forall_mem_nil _
  | st :: ss =>
    obtain ⟨hfirst, hothers⟩ := List.forall_mem_append.mp hs
    rw [blockTokens, List.forall_mem_append]
    exact ⟨oneLine_statement st h.1 hfirst, oneLine_block ss h.2 hothers⟩

end

lemma oneLine_items {is : List Item} (h : ∀ i ∈ is, i.WellFormed) (hs : OnOneLine (Program.ofItems is).spellings) :
    ∀ i ∈ is, ∀ t ∈ i.tokens, t.OneLine := by
  obtain ⟨hconstants, hs⟩ := List.forall_mem_append.mp hs
  obtain ⟨hevents, hhandlers⟩ := List.forall_mem_append.mp hs
  intro i hi
  have hw := h i hi
  cases i with
  | constant c =>
    have hc : c ∈ is.filterMap Item.constant? := List.mem_filterMap.mpr ⟨_, hi, rfl⟩
    have hsc : OnOneLine (c.typeLabel :: c.value.spellings) := fun s hm =>
      hconstants s (List.mem_flatMap.mpr ⟨c, hc, hm⟩)
    obtain ⟨hsl, hsv⟩ := List.forall_mem_cons.mp hsc
    simp only [Item.tokens, List.forall_mem_cons]
    exact ⟨oneLine_word (by decide) _, oneLine_word hw.1 _, oneLine_symbol _, oneLine_label hw.2.1 hsl,
      oneLine_symbol _, oneLine_value c.value hw.2.2 hsv⟩
  | event e =>
    have he : e ∈ is.filterMap Item.event? := List.mem_filterMap.mpr ⟨_, hi, rfl⟩
    simp only [Item.tokens, List.forall_mem_cons]
    exact ⟨oneLine_word (by decide) _, oneLine_word hw.1 _, oneLine_symbol _,
      oneLine_label hw.2 (hevents _ (List.mem_map_of_mem he)), List.forall_mem_nil _⟩
  | handler d =>
    have hd : d ∈ is.filterMap Item.handler? := List.mem_filterMap.mpr ⟨_, hi, rfl⟩
    simp only [Item.tokens, List.forall_mem_cons]
    exact ⟨oneLine_word (by decide) _, oneLine_word hw.1 _, oneLine_closure d.closure hw.2
      (fun s hm => hhandlers s (List.mem_flatMap.mpr ⟨d, hd, hm⟩)) .free⟩

lemma parse_keptLines {keep : List Char → Bool} (hk : KeepsCode keep) {text : String} {p : Program}
    (h : Program.parse text = .ok p) (hs : OnOneLine p.spellings) :
    Program.parse (.ofList (['\n'].intercalate ((lines text.toList).filter keep))) = .ok p := by
  obtain ⟨is, hi, rfl⟩ := items_of_parse h
  have hw := (items_sound hi (follows_start _)).1
  rw [parse_of_items (by rw [String.toList_ofList, items_keptLines hk hi (oneLine_items hw hs)])]
  rfl

end AmmCompiler
