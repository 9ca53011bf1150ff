import AmmCompiler.Proofs.Grammar.Reading
import AmmCompiler.Proofs.Scanning.Tokens

namespace AmmCompiler.Scanner

open Source Text

variable {t : Trial} {base cs cs' : List Char}

def EndsType (text : String) (left : List Char) (stop : Nat) (rest : List Char) : Prop :=
  stop = placeOf text left ∧ Slack left rest

lemma typeWith_skipGap (p : Skipper) (cs : List Char) : typeWith p (skipGap cs) = typeWith p cs := by
  simp only [typeWith, name_skipGap]

lemma typeArguments_skipGap (cs : List Char) : Source.typeArguments (skipGap cs) = Source.typeArguments cs := by
  rw [typeArguments_eq, typeArguments_eq cs, Source.typeArgumentsWith, Source.typeArgumentsWith, typeWith_skipGap]

lemma follows_typeEndWith {arguments : Scanner Nat}
    (ih : Below t base arguments (EndsType t.text) Source.typeArguments cs') (hg : skipGap cs = skipGap cs') :
    Follows t base (typeEndWith arguments) cs (EndsType t.text) (typeWith Source.typeArguments cs') := by
  rw [typeEndWith]
  refine .bind (follows_name hg) ?_
  rintro _ word rest hn rfl
  refine .after ends_here (.look rfl (fun r hr => ?_) fun hr => ?_)
  · dsimp only
    rw [hr]
    exact ih r ((name_advances hn).trans (symbol?_past hr)).2 r rfl
  · dsimp only
    rw [hr]
    exact .of_ends (.pure _) ⟨rfl, slack_skipGap rest⟩

lemma follows_typeArguments (hg : skipGap cs = skipGap cs') :
    Follows t base typeArguments cs (EndsType t.text) (Source.typeArguments cs') := by
  refine follows_loop typeArguments_skipGap (fun again cs' ih cs hg => ?_) hg
  rw [Scanner.typeArgumentsWith, typeArguments_eq, Source.typeArgumentsWith]
  refine .bind (follows_typeEndWith ih hg) ?_
  rintro left stop rest ht ⟨rfl, hs⟩
  refine .look hs.skipGap_eq (fun r hr => ?_) fun hr => ?_
  · rw [hr]
    exact ih r ((typeWith_skips typeArguments_skips ht).trans (symbol?_past hr)).2 r rfl
  · rw [hr]
    refine (follows_symbol ((skipGap_skipGap rest).trans hs.skipGap_eq)).finish ?_
    rintro _ _ _ _ rfl
    exact .of_ends ends_here ⟨rfl, .refl _⟩

lemma follows_typeEnd (hg : skipGap cs = skipGap cs') :
    Follows t base typeEnd cs (EndsType t.text) (typeWith Source.typeArguments cs') :=
  follows_typeEndWith (fun _ _ _ => follows_typeArguments) hg

lemma follows_typeLabel (hg : skipGap cs = skipGap cs') :
    Follows t base typeLabel cs Loosely (Source.typeLabel cs') := by
  refine .of_standing fun ht hb => .after ends_skipGap (.after ends_here ?_)
  have hg' : skipGap (skipGap cs) = skipGap cs' := (skipGap_skipGap cs).trans hg
  refine .bind (follows_typeEnd hg') ?_
  rintro left stop rest h ⟨rfl, hs⟩
  obtain ⟨label, hl⟩ : left <:+ skipGap cs' := by
    rw [← typeWith_skipGap] at h
    exact (typeWith_skips typeArguments_skips h).1
  have hc : label ++ left <:+ t.text.toList := by
    rw [hl, ← hg]
    exact (skipGap_suffix cs).trans (hb.trans ht.suffix)
  rw [hg, ← hl, consumed_append]
  exact .of_ends (ends_slice hc) ⟨rfl, hs⟩

end AmmCompiler.Scanner
