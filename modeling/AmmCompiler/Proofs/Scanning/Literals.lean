import AmmCompiler.Proofs.Scanning.Tokens

namespace AmmCompiler.Scanner

open Source Text

variable {t : Trial} {base cs q : List Char}

def behindString (q cs : List Char) : Except Failure (List Char) :=
  (Source.closeString cs).elim (.error ⟨q, .openString⟩) .ok

lemma suffix_of_behindString {r : List Char} (h : behindString q cs = .ok r) : r <:+ cs := by
  rw [behindString] at h
  cases hc : Source.closeString cs with
  | none =>
    rw [hc] at h
    cases h
  | some s =>
    rw [hc] at h
    exact Except.ok.inj h ▸ closeString_suffix hc

lemma follows_closeString (hq : q <:+ t.text.toList) (cs : List Char) :
    Follows t base (closeString (placeOf t.text q)) cs Left (behindString q cs) := by
  refine Follows.loop (fun again cs ih => ?_) cs
  rw [closeStringWith, behindString]
  fun_cases Source.closeString cs with
  | case1 =>
    refine .after ends_current ?_
    exact follows_failAt (f := ⟨q, .openString⟩) hq rfl
  | case2 r =>
    refine .after ends_current_cons ?_
    dsimp only
    rw [if_neg (by decide), if_pos rfl]
    exact .of_ends ends_advance rfl
  | case3 c r =>
    refine .after ends_current_cons ?_
    dsimp only
    rw [if_pos rfl]
    exact .after ends_advance (.after ends_advance (ih r (Nat.lt_succ_of_lt (Nat.lt_succ_self _))))
  | case4 c r hquote hescape =>
    refine .after ends_current_cons ?_
    dsimp only
    by_cases hc : c = '\\'
    · cases r with
      | nil =>
        rw [if_pos hc]
        exact .after ends_advance (.after ends_advance (ih [] Nat.zero_lt_one))
      | cons d s => exact absurd rfl (hescape d s hc)
    · rw [if_neg hc, if_neg hquote]
      exact .after ends_advance (ih r (Nat.lt_succ_self _))

lemma string_eq (cs : List Char) : Source.string cs =
    behindString cs cs.tail >>= fun rest => .ok (.ofList (consumed cs rest), rest) := by
  rw [Source.string, behindString]
  cases Source.closeString cs.tail <;> rfl

lemma follows_string : Follows t base string cs Exactly (Source.string cs) := by
  refine .of_standing fun ht hb => .after ends_here (.after ends_advance ?_)
  rw [string_eq]
  refine (follows_closeString (hb.trans ht.suffix) cs.tail).bind ?_
  rintro rest _ _ h rfl
  obtain ⟨token, rfl⟩ : rest <:+ cs := (suffix_of_behindString h).trans (List.tail_suffix cs)
  rw [consumed_append]
  exact .of_ends (ends_slice_here (hb.trans ht.suffix)) rfl

lemma ends_skipSign : Ends t base skipSign cs (.ok ()) (unsigned cs) := by
  refine ends_current.bind ?_
  by_cases h : cs.head? = some '-'
  · obtain ⟨r, rfl⟩ := List.head?_eq_some_iff.mp h
    rw [if_pos h]
    exact ends_advance
  · rw [if_neg h]
    have hu : unsigned cs = cs := by
      rw [unsigned]
      rintro r rfl
      exact h rfl
    rw [hu]
    exact .pure ()

lemma ends_skipFraction : Ends t base skipFraction cs (.ok ()) (Source.skipFraction cs) := by
  refine ends_current.bind ?_
  by_cases h : cs.head? = some '.'
  · obtain ⟨r, rfl⟩ := List.head?_eq_some_iff.mp h
    rw [if_pos h]
    refine (ends_peek 1).bind ?_
    cases r with
    | nil => exact .pure ()
    | cons d s =>
      by_cases hd : d.isDigit
      · have hh : ('.' :: d :: s)[1]?.any Char.isDigit = true := hd
        have he : (d :: s).dropWhile Char.isDigit = s.dropWhile Char.isDigit := List.dropWhile_cons_of_pos hd
        rw [if_pos hh, Source.skipFraction, if_pos hd, ← he]
        exact ends_advance.bind (ends_skipWhile Char.isDigit (d :: s))
      · have hh : ¬ ('.' :: d :: s)[1]?.any Char.isDigit = true := hd
        rw [if_neg hh, Source.skipFraction, if_neg hd]
        exact .pure ()
  · rw [if_neg h, skipFraction_of_ne h]
    exact .pure ()

lemma dropWhile_eq_self_iff (cs : List Char) : cs.dropWhile Char.isDigit = cs ↔ ¬ startsWithDigit cs := by
  cases cs with
  | nil => exact ⟨fun _ h => absurd h (by decide), fun _ => rfl⟩
  | cons c r =>
    rw [startsWithDigit]
    constructor
    · intro h hc
      rw [List.dropWhile_cons_of_pos hc] at h
      have hl := (List.dropWhile_suffix (l := r) Char.isDigit).length_le
      rw [h, List.length_cons] at hl
      omega
    · exact fun hc => List.dropWhile_cons_of_neg hc

lemma follows_number : Follows t base number cs Exactly (Source.number cs) := by
  refine .of_standing fun ht hb => .after ends_here (.after ends_skipSign (.after ends_here ?_))
  refine .after (ends_skipWhile Char.isDigit _) (.after ends_here ?_)
  have hs : unsigned cs <:+ cs := unsigned_suffix cs
  have hd : (unsigned cs).dropWhile Char.isDigit <:+ unsigned cs := List.dropWhile_suffix _
  rw [Source.number]
  by_cases h : startsWithDigit (unsigned cs)
  · have hp : ¬ placeOf t.text ((unsigned cs).dropWhile Char.isDigit) = placeOf t.text (unsigned cs) := by
      intro he
      exact (dropWhile_eq_self_iff _).mp (placeOf_inj hd (hs.trans (hb.trans ht.suffix)) he.symm).symm h
    rw [if_neg hp, if_pos h]
    refine .after ends_skipFraction ?_
    have hr := (skipFraction_suffix _).trans (hd.trans hs)
    generalize Source.skipFraction ((unsigned cs).dropWhile Char.isDigit) = rest at hr ⊢
    obtain ⟨token, rfl⟩ := hr
    dsimp only
    rw [consumed_append]
    exact .of_ends (ends_slice_here (hb.trans ht.suffix)) rfl
  · have hn := (dropWhile_eq_self_iff _).mpr h
    rw [hn, if_pos rfl, if_neg h]
    exact follows_fail rfl rfl

lemma exitEndWith_quote (p : Skipper) (r : List Char) :
    Source.exitEndWith p ('"' :: r) = Source.string ('"' :: r) >>= fun b => p b.2 := by
  rw [Source.exitEndWith, Source.string, List.tail_cons]
  cases Source.closeString r <;> rfl

lemma follows_exitEnd (cs : List Char) : Follows t base exitEnd cs Left (Source.exitEnd cs) := by
  refine Follows.loop (fun again cs ih => ?_) cs
  rw [Scanner.exitEndWith, exitEnd_eq]
  cases cs with
  | nil => exact .after ends_current (.of_ends (.pure ()) rfl)
  | cons c r =>
    refine .after ends_current_cons ?_
    dsimp only
    by_cases hend : c = '\n' ∨ c = '\x7d'
    · rw [if_pos hend]
      have he : Source.exitEndWith Source.exitEnd (c :: r) = .ok (c :: r) := by
        rcases hend with rfl | rfl <;> rfl
      rw [he]
      exact .of_ends (.pure ()) rfl
    · rw [if_neg hend]
      refine .after ends_startsComment ?_
      by_cases hcomment : c = '/' ∧ r.head? = some '/'
      · rw [if_pos (decide_eq_true hcomment)]
        obtain ⟨rfl, hr⟩ := hcomment
        obtain ⟨s, rfl⟩ := List.head?_eq_some_iff.mp hr
        exact .of_ends (.pure ()) rfl
      · rw [if_neg (by simpa using hcomment)]
        by_cases hquote : c = '"'
        · rw [if_pos hquote, hquote, exitEndWith_quote]
          refine .bind follows_string ?_
          rintro _ _ rest hs rfl
          exact ih rest (string_past hs).2
        · rw [if_neg hquote]
          have he : Source.exitEndWith Source.exitEnd (c :: r) = Source.exitEnd r := by
            rw [Source.exitEndWith]
            · exact fun hc => hend (.inl hc)
            · exact fun hc => hend (.inr hc)
            · rintro s hc rfl
              exact hcomment ⟨hc, rfl⟩
            · exact hquote
          rw [he]
          exact .after ends_advance (ih r (Nat.lt_succ_self _))

end AmmCompiler.Scanner
