import AmmCompiler.Proofs.Scanning.Literals
import AmmCompiler.Proofs.Scanning.Types

namespace AmmCompiler.Scanner

open Source Text

variable {t : Trial} {base cs cs' : List Char}

lemma names_skipGap (cs : List Char) : Source.names (skipGap cs) = Source.names cs := by
  rw [names_eq, names_eq cs, Source.namesWith, Source.namesWith, name_skipGap]

lemma follows_names (hg : skipGap cs = skipGap cs') : Follows t base names cs Loosely (Source.names cs') := by
  refine follows_loop names_skipGap (fun again cs' ih cs hg => ?_) hg
  rw [Scanner.namesWith, names_eq, Source.namesWith]
  refine .bind (follows_name hg) ?_
  rintro _ first rest hfirst rfl
  refine .look rfl (fun r hr => ?_) fun hr => ?_
  · dsimp only
    rw [hr]
    refine .bind (ih r ((name_advances hfirst).trans (symbol?_past hr)).2 r rfl) ?_
    rintro ⟨others, left⟩ _ rest _ ⟨rfl, hs⟩
    exact .pure ⟨rfl, hs⟩
  · dsimp only
    rw [hr]
    refine .bind (follows_symbol (skipGap_skipGap rest)) ?_
    rintro _ _ rest _ rfl
    exact .pure ⟨rfl, .refl _⟩

lemma follows_arguments (hg : skipGap cs = skipGap cs') :
    Follows t base arguments cs Loosely (Source.arguments cs') := by
  refine .bind (follows_symbol hg) ?_
  rintro rest _ _ _ rfl
  refine .look rfl (fun r hr => ?_) fun hr => ?_
  · rw [hr]
    exact .pure ⟨rfl, .refl r⟩
  · rw [hr]
    exact follows_names (skipGap_skipGap rest)

lemma follows_parameter (hg : skipGap cs = skipGap cs') :
    Follows t base parameter cs Loosely (Source.parameter cs') := by
  refine .bind (follows_name hg) ?_
  rintro _ name rest _ rfl
  refine .bind (follows_symbol rfl) ?_
  rintro rest _ _ _ rfl
  refine .bind (follows_typeLabel rfl) ?_
  rintro ⟨label, left⟩ _ rest _ ⟨rfl, hs⟩
  exact .pure ⟨rfl, hs⟩

lemma symbol?_skipGap (c : Char) (cs : List Char) : Source.symbol? c (skipGap cs) = Source.symbol? c cs := by
  rw [Source.symbol?, Source.symbol?, skipGap_skipGap]

lemma parameter_skipGap (cs : List Char) : Source.parameter (skipGap cs) = Source.parameter cs := by
  rw [Source.parameter, Source.parameter, name_skipGap]

lemma parameters_skipGap (cs : List Char) : Source.parameters (skipGap cs) = Source.parameters cs := by
  rw [parameters_eq, parameters_eq cs, Source.parametersWith, Source.parametersWith, symbol?_skipGap,
    parameter_skipGap]

lemma follows_parameters (hg : skipGap cs = skipGap cs') :
    Follows t base parameters cs Loosely (Source.parameters cs') := by
  refine follows_loop parameters_skipGap (fun again cs' ih cs hg => ?_) hg
  rw [Scanner.parametersWith, parameters_eq, Source.parametersWith]
  refine .look hg (fun r hr => ?_) fun hr => ?_
  · rw [hr]
    exact .of_ends (.pure _) ⟨rfl, .refl r⟩
  rw [hr]
  refine .bind (follows_parameter ((skipGap_skipGap cs).trans hg)) ?_
  rintro ⟨first, left⟩ _ rest hfirst ⟨rfl, hs⟩
  refine .look hs.skipGap_eq (fun r hr => ?_) fun hr => ?_
  · dsimp only at hr ⊢
    rw [hr]
    refine .bind (ih r ((parameter_advances hfirst).trans (symbol?_past hr)).2 r rfl) ?_
    rintro ⟨others, left⟩ _ rest _ ⟨rfl, hs⟩
    exact .pure ⟨rfl, hs⟩
  · dsimp only at hr ⊢
    rw [hr]
    refine .bind (follows_symbol ((skipGap_skipGap rest).trans hs.skipGap_eq)) ?_
    rintro _ _ rest _ rfl
    exact .pure ⟨rfl, .refl _⟩

lemma slack_skipInlineGap (cs : List Char) : Slack cs (skipInlineGap cs) := by
  fun_induction skipInlineGap cs with
  | case1 => exact .refl []
  | case2 rest => exact .refl _
  | case3 rest =>
    refine ⟨(List.dropWhile_suffix _).trans ((List.suffix_cons _ _).trans (List.suffix_cons _ _)), ?_⟩
    rw [skipGap, skipComment_eq]
  | case4 c rest _ _ hc ih =>
    exact ⟨ih.suffix.trans (List.suffix_cons c rest), ih.skipGap_eq.trans (skipGap_blank hc rest).symm⟩
  | case5 c rest => exact .refl _

lemma ends_skipInlineGap : Ends t base (skipBlanks false) cs (.ok ()) (skipInlineGap cs) :=
  ends_skipBlanks false cs

lemma follows_emission (hg : skipGap cs = skipGap cs') :
    Follows t base emission cs Loosely (Source.emission cs') := by
  refine .bind (follows_name hg) ?_
  rintro _ event rest _ rfl
  refine .after ends_skipInlineGap ?_
  have hs := slack_skipInlineGap rest
  dsimp only
  cases hi : skipInlineGap rest with
  | nil =>
    rw [hi] at hs
    exact .after ends_startsName_nil (.pure ⟨rfl, hs⟩)
  | cons c r =>
    rw [hi] at hs
    refine .after ends_startsName ?_
    dsimp only
    by_cases hc : isNameStart c
    · rw [if_pos hc, if_pos hc]
      refine .bind (follows_name hs.skipGap_eq) ?_
      rintro _ payload rest _ rfl
      exact .pure ⟨rfl, .refl _⟩
    · rw [if_neg hc, if_neg hc]
      exact .pure ⟨rfl, hs⟩

lemma follows_exit {q : List Char} (hq : q <:+ t.text.toList) (hs : cs <:+ q) :
    Follows t base (exit (placeOf t.text q)) cs Loosely (Source.exit q cs) := by
  refine .bind (follows_exitEnd cs) ?_
  rintro rest _ _ h rfl
  obtain ⟨fragment, rfl⟩ := (exitEnd_suffix h).trans hs
  have ht : trimmed (.ofList fragment) = .ofList (trim fragment) := by
    rw [trimmed, String.toList_ofList]
  refine .after ends_here (.after (ends_slice hq) ?_)
  rw [consumed_append, ht]
  exact .pure ⟨rfl, .refl rest⟩

variable {blocks : Scanner (List Statement)}

abbrev BlocksBelow (t : Trial) (base : List Char) (blocks : Scanner (List Statement)) (cs : List Char) : Prop :=
  Below t base blocks Loosely Source.block cs

lemma follows_closure (ih : BlocksBelow t base blocks cs') (hg : skipGap cs = skipGap cs') :
    Follows t base (closure blocks) cs Loosely (Source.closure Source.block cs') := by
  rw [closure]
  refine .bind (follows_functionKeyword hg) ?_
  rintro r₁ _ _ h₁ rfl
  refine .bind (follows_symbol rfl) ?_
  rintro r₂ _ _ h₂ rfl
  refine .bind (follows_parameters rfl) ?_
  rintro ⟨parameters, r₃⟩ _ _ h₃ ⟨rfl, hs₃⟩
  refine .bind (follows_symbol hs₃.skipGap_eq) ?_
  rintro r₄ _ _ h₄ rfl
  refine .bind (follows_typeLabel rfl) ?_
  rintro ⟨label, r₅⟩ _ _ h₅ ⟨rfl, hs₅⟩
  refine .bind (follows_symbol hs₅.skipGap_eq) ?_
  rintro r₆ _ _ h₆ rfl
  have hp := (functionKeyword_skips h₁).trans (symbol_skips _ h₂)
  have hp := (hp.trans (parameters_advances h₃)).trans (symbol_skips _ h₄)
  refine .bind (ih r₆ ((hp.trans (typeLabel_advances h₅)).trans (symbol_skips _ h₆)).2 r₆ rfl) ?_
  rintro ⟨body, left⟩ _ rest _ ⟨rfl, hs⟩
  exact .pure ⟨rfl, hs⟩

lemma startsWith_iff {c : Char} : startsWith c cs ↔ cs.head? = some c :=
  decide_eq_true_iff

lemma follows_wordValue (ih : BlocksBelow t base blocks cs) :
    Follows t base (wordValue blocks) cs Loosely (Source.wordValue Source.block cs) := by
  rw [wordValue]
  refine .of_standing fun _ hb => .after ends_here (.bind (follows_name rfl) ?_)
  rintro _ word rest _ rfl
  refine .after ends_skipInlineGap (.after ends_current ?_)
  have hs := slack_skipInlineGap rest
  dsimp only
  by_cases hfn : word = "fn" ∧ (skipInlineGap rest).head? = some '('
  · rw [if_pos hfn, if_pos (hfn.imp_right startsWith_iff.mpr)]
    refine .after (ends_returnTo hb) (.bind (follows_closure ih rfl) ?_)
    rintro ⟨closure, left⟩ _ rest _ ⟨rfl, hs⟩
    exact .pure ⟨rfl, hs⟩
  rw [if_neg hfn, if_neg (mt (And.imp_right startsWith_iff.mp) hfn)]
  by_cases hbool : word = "true" ∨ word = "false"
  · rw [if_pos hbool, if_pos hbool]
    exact .pure ⟨rfl, hs⟩
  rw [if_neg hbool, if_neg hbool]
  by_cases happlied : (skipInlineGap rest).head? = some '('
  · rw [if_pos happlied, if_pos (startsWith_iff.mpr happlied)]
    refine .bind (follows_arguments hs.skipGap_eq) ?_
    rintro ⟨arguments, left⟩ _ rest _ ⟨rfl, hs⟩
    exact .pure ⟨rfl, hs⟩
  · rw [if_neg happlied, if_neg (mt startsWith_iff.mp happlied)]
    exact .pure ⟨rfl, hs⟩

lemma follows_value (ih : BlocksBelow t base blocks cs') (hg : skipGap cs = skipGap cs') :
    Follows t base (value blocks) cs Loosely (Source.value Source.block cs') := by
  rw [value]
  refine .after ends_skipGap ?_
  rw [Source.value, hg]
  have hl := skipGap_length cs'
  cases hc : skipGap cs' with
  | nil => exact .after ends_current (.after ends_current (follows_fail rfl rfl))
  | cons c r =>
    rw [hc] at hl
    refine .after ends_current_cons ?_
    dsimp only
    by_cases hquote : c = '"'
    · rw [if_pos hquote, if_pos hquote]
      refine .bind follows_string ?_
      rintro _ token rest _ rfl
      exact .pure ⟨rfl, .refl rest⟩
    rw [if_neg hquote, if_neg hquote]
    by_cases hdigit : c.isDigit ∨ c = '-'
    · rw [if_pos hdigit, if_pos hdigit]
      refine .bind follows_number ?_
      rintro _ token rest _ rfl
      exact .pure ⟨rfl, .refl rest⟩
    rw [if_neg hdigit, if_neg hdigit]
    refine .after ends_startsName ?_
    by_cases hname : isNameStart c
    · rw [if_pos hname, if_pos hname]
      exact follows_wordValue (ih.mono hl)
    · rw [if_neg hname, if_neg hname]
      exact .after ends_current (follows_fail rfl rfl)

lemma follows_assignedValue (ih : BlocksBelow t base blocks cs') (hg : skipGap cs = skipGap cs') :
    Follows t base (assignedValue blocks) cs Loosely (Source.assignedValue Source.block cs') := by
  rw [assignedValue]
  refine .bind (follows_symbol hg) ?_
  rintro rest _ _ h rfl
  exact follows_value (ih.past (symbol_skips _ h)) rfl

lemma follows_binding (ih : BlocksBelow t base blocks cs') (hg : skipGap cs = skipGap cs') :
    Follows t base (binding blocks) cs Loosely (Source.binding Source.block cs') := by
  rw [binding]
  refine .bind (follows_parameter hg) ?_
  rintro ⟨target, left⟩ _ rest h ⟨rfl, hs⟩
  refine .bind (follows_assignedValue (ih.past (parameter_advances h)) hs.skipGap_eq) ?_
  rintro ⟨value, left⟩ _ rest _ ⟨rfl, hs⟩
  exact .pure ⟨rfl, hs⟩

lemma follows_declaration (ih : BlocksBelow t base blocks cs') (hg : skipGap cs = skipGap cs') (kind : Binding) :
    Follows t base (declaration blocks kind) cs Loosely (Source.declaration Source.block kind cs') := by
  rw [declaration]
  refine .bind (follows_binding ih hg) ?_
  rintro ⟨⟨target, value⟩, left⟩ _ rest _ ⟨rfl, hs⟩
  exact .pure ⟨rfl, hs⟩

lemma symbol?_eq_of_skipGap {expected c : Char} {r : List Char} (h : skipGap cs = c :: r) :
    Source.symbol? expected cs = if c = expected then some r else none := by
  rw [Source.symbol?, h]

lemma follows_assignedLabel {r : List Char} (h : skipGap cs = ':' :: r) :
    Follows t base assignedLabel cs Loosely (Source.typeLabel r) := by
  have hs : Source.symbol? ':' cs = some r := by rw [symbol?_eq_of_skipGap h, if_pos rfl]
  refine .look rfl (fun rest hr => ?_) fun hn => ?_
  · obtain rfl := Option.some.inj (hs.symm.trans hr)
    exact follows_typeLabel rfl
  · rw [hs] at hn
    cases hn

lemma ends_assignedLabel {r : List Char} (h : skipGap cs = '=' :: r) :
    Ends t base assignedLabel cs (.ok "") (skipGap cs) := by
  have hs : Source.symbol? ':' cs = none := by rw [symbol?_eq_of_skipGap h, if_neg (by decide)]
  have he : Ends t base (symbol? ':') cs (.ok (Source.symbol? ':' cs).isSome)
      ((Source.symbol? ':' cs).getD (skipGap cs)) := ends_symbol? rfl
  rw [hs] at he
  exact he.bind (.pure "")

lemma follows_continuation (ih : BlocksBelow t base blocks cs') (hg : skipGap cs = skipGap cs') (name : String) :
    Follows t base (continuation blocks name) cs Loosely (Source.continuation Source.block name cs') := by
  rw [continuation]
  refine .after ends_skipGap (.after ends_current ?_)
  rw [hg]
  have hg := skipGap_skipGap cs'
  fun_cases Source.continuation Source.block name cs' with
  | case1 r hr =>
    rw [hr] at hg ⊢
    refine .bind (follows_arguments (hg.trans hr.symm)) ?_
    rintro ⟨arguments, left⟩ _ rest _ ⟨rfl, hs⟩
    exact .pure ⟨rfl, hs⟩
  | case2 r hr =>
    have hp := past_of_skipGap hr
    rw [hr] at hg ⊢
    refine .bind (follows_assignedLabel hg) ?_
    rintro ⟨label, left⟩ _ rest h ⟨rfl, hs⟩
    have hp := hp.trans (typeLabel_advances h)
    refine .bind (follows_assignedValue (ih.past hp) hs.skipGap_eq) ?_
    rintro ⟨value, left⟩ _ rest _ ⟨rfl, hs⟩
    exact .pure ⟨rfl, hs⟩
  | case3 r hr =>
    rw [hr] at hg ⊢
    refine .after (ends_assignedLabel hg) (.bind (follows_assignedValue ih ?_) ?_)
    · rw [hg, hg, hr]
    rintro ⟨value, left⟩ _ rest _ ⟨rfl, hs⟩
    exact .pure ⟨rfl, hs⟩
  | case4 hcall hlabel hassign =>
    cases hc : skipGap cs' with
    | nil => exact .after ends_current (follows_fail rfl rfl)
    | cons c r =>
      dsimp only [List.head?_cons]
      split
      · next hh => exact absurd hc (Option.some.inj hh ▸ hcall r)
      · next hh => exact absurd hc (Option.some.inj hh ▸ hlabel r)
      · next hh => exact absurd hc (Option.some.inj hh ▸ hassign r)
      · exact .after ends_current (follows_fail rfl rfl)

lemma follows_statement (ih : BlocksBelow t base blocks cs') (hg : skipGap cs = skipGap cs') :
    Follows t base (statement blocks) cs Loosely (Source.statement Source.block cs') := by
  rw [statement]
  refine .of_standing fun ht hb => .after ends_skipGap (.after ends_here ?_)
  have hq : skipGap cs' <:+ t.text.toList := hg ▸ (skipGap_suffix cs).trans (hb.trans ht.suffix)
  rw [hg]
  refine .bind (follows_name (skipGap_skipGap cs')) ?_
  rintro _ word rest h rfl
  have hs : rest <:+ skipGap cs' := ⟨word.toList, (skipGap_of_name h).2.1.symm⟩
  have ih := ih.past (name_advances h)
  dsimp only
  by_cases hconst : word = "const"
  · rw [if_pos hconst, hconst]
    exact follows_declaration ih rfl .const
  by_cases hlet : word = "let"
  · rw [if_neg hconst, if_pos hlet, hlet]
    exact follows_declaration ih rfl .let
  by_cases hemit : word = "emit"
  · rw [if_neg hconst, if_neg hlet, if_pos hemit, hemit]
    exact follows_emission rfl
  rw [if_neg hconst, if_neg hlet, if_neg hemit]
  by_cases hexit : word = "return" ∨ word = "break"
  · rw [if_pos hexit]
    rcases hexit with rfl | rfl
    · exact follows_exit hq hs
    · exact follows_exit hq hs
  · rw [if_neg hexit]
    split
    · exact absurd rfl hconst
    · exact absurd rfl hlet
    · exact absurd rfl hemit
    · exact absurd (.inl rfl) hexit
    · exact absurd (.inr rfl) hexit
    · exact follows_continuation ih rfl word

lemma block_skipGap (cs : List Char) : Source.block (skipGap cs) = Source.block cs := by
  rw [block_eq, block_eq cs, Source.blockWith, Source.blockWith, skipGap_skipGap]

lemma follows_block (hg : skipGap cs = skipGap cs') :
    Follows t base block cs Loosely (Source.block cs') := by
  refine follows_loop block_skipGap (fun again cs' ih cs hg => ?_) hg
  rw [Scanner.blockWith, block_eq, Source.blockWith]
  refine .look hg (fun r hr => ?_) fun hr => ?_
  · have hc := skipGap_of_symbol? hr
    rw [hc]
    dsimp only
    rw [if_pos rfl]
    exact .of_ends (.pure []) ⟨rfl, .refl r⟩
  refine .after ends_atEnd ?_
  have hl := skipGap_length cs'
  rw [hg]
  cases hc : skipGap cs' with
  | nil => exact follows_fail rfl rfl
  | cons c r =>
    have hne : c ≠ '\x7d' := by
      rintro rfl
      rw [symbol?_eq_of_skipGap hc, if_pos rfl] at hr
      cases hr
    rw [hc] at hl
    dsimp only [List.isEmpty_cons]
    rw [if_neg Bool.false_ne_true, if_neg hne]
    refine .bind (follows_statement (ih.mono hl) rfl) ?_
    rintro ⟨first, left⟩ _ rest h ⟨rfl, hs⟩
    refine .bind (ih.mono hl left (statement_advances block_advances h).2 rest hs.skipGap_eq) ?_
    rintro ⟨others, left⟩ _ rest _ ⟨rfl, hs⟩
    exact .pure ⟨rfl, hs⟩

lemma blocksBelow (cs : List Char) : BlocksBelow t base block cs :=
  fun _ _ _ => follows_block

lemma follows_item (hg : skipGap cs = skipGap cs') : Follows t base item cs Loosely (Source.item cs') := by
  refine .of_standing fun ht hb => .bind (follows_name hg) ?_
  have hq : skipGap cs' <:+ t.text.toList := hg ▸ (skipGap_suffix cs).trans (hb.trans ht.suffix)
  rintro _ word rest h rfl
  dsimp only
  by_cases hconst : word = "const"
  · rw [if_pos hconst, hconst]
    refine .bind (follows_binding (blocksBelow rest) rfl) ?_
    rintro ⟨⟨target, value⟩, left⟩ _ rest _ ⟨rfl, hs⟩
    exact .pure ⟨rfl, hs⟩
  by_cases hevent : word = "event"
  · rw [if_neg hconst, if_pos hevent, hevent]
    refine .bind (follows_parameter rfl) ?_
    rintro ⟨declared, left⟩ _ rest _ ⟨rfl, hs⟩
    exact .pure ⟨rfl, hs⟩
  rw [if_neg hconst, if_neg hevent]
  by_cases hon : word = "on"
  · rw [if_pos hon, hon]
    refine .bind (follows_name rfl) ?_
    rintro _ event rest _ rfl
    refine .bind (follows_closure (blocksBelow rest) rfl) ?_
    rintro ⟨closure, left⟩ _ rest _ ⟨rfl, hs⟩
    exact .pure ⟨rfl, hs⟩
  · rw [if_neg hon]
    split
    · exact absurd rfl hconst
    · exact absurd rfl hevent
    · exact absurd rfl hon
    · exact follows_failBefore hq (skipGap_of_name h).2.1 rfl

lemma follows_items (hn : cs.length < t.rounds) :
    Follows t base items (skipGap cs) (fun is is' _ => is = is') (Source.items cs) := by
  refine .after ends_read (within_induction
    (motive := fun x cs => Follows t base x (skipGap cs) (fun is is' _ => is = is') (Source.items cs)) ?_ _ cs hn)
  intro again cs ih
  rw [Scanner.itemsWith, items_eq, Source.itemsWith]
  have hl := skipGap_length cs
  refine .after ends_atEnd ?_
  cases hc : skipGap cs with
  | nil => exact .of_ends (.pure []) rfl
  | cons c r =>
    rw [hc] at hl
    dsimp only [List.isEmpty_cons]
    rw [if_neg Bool.false_ne_true]
    refine .bind (follows_item rfl) ?_
    rintro ⟨first, left⟩ _ rest h ⟨rfl, hs⟩
    refine .after ends_skipGap ?_
    rw [hs.skipGap_eq]
    refine .bind (ih left (Nat.lt_of_lt_of_le (item_advances h).2 hl)) ?_
    rintro others _ rest _ rfl
    exact .pure rfl

end AmmCompiler.Scanner
