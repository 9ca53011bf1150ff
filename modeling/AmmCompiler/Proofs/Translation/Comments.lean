import AmmCompiler.Proofs.Grammar.Concatenation
import AmmCompiler.Proofs.JavaScript.Spelling

/-! Comments are found by one pass over a text that only knows strings, and a text is translated as it is
without them. -/

namespace AmmCompiler

namespace Source

mutual

/-- The text without its comments. A comment ends before the newline. -/
def codeOf : List Char → List Char
  | [] => []
  | '/' :: '/' :: rest => codeAfterComment rest
  | '"' :: rest => '"' :: codeAfterQuote rest
  | c :: rest => c :: codeOf rest

def codeAfterComment : List Char → List Char
  | [] => []
  | '\n' :: rest => '\n' :: codeOf rest
  | _ :: rest => codeAfterComment rest

def codeAfterQuote : List Char → List Char
  | [] => []
  | '"' :: rest => '"' :: codeOf rest
  | '\\' :: c :: rest => '\\' :: c :: codeAfterQuote rest
  | c :: rest => c :: codeAfterQuote rest

end

variable {r u : List Char} {c : Char}

lemma codeOf_plain (hq : c ≠ '"') (hs : ¬ (c = '/' ∧ r.head? = some '/')) : codeOf (c :: r) = c :: codeOf r := by
  rw [codeOf]
  · rintro r' rfl rfl
    exact hs ⟨rfl, rfl⟩
  · exact hq

lemma codeOf_newline (r : List Char) : codeOf ('\n' :: r) = '\n' :: codeOf r :=
  codeOf_plain (by decide) (by simp)

lemma count_comment {body : List Char} (hb : '\n' ∉ body) : ('/' :: '/' :: body).count '\n' = 0 := by
  rw [List.count_eq_zero]
  simpa using hb

lemma codeAfterComment_append {body : List Char} (hb : '\n' ∉ body) (hr : EndsLine r) :
    codeAfterComment (body ++ r) = codeOf r := by
  induction body with
  | nil =>
    cases r with
    | nil => rw [List.nil_append, codeAfterComment, codeOf]
    | cons c r =>
      obtain rfl := hr c rfl
      rw [List.nil_append, codeAfterComment, codeOf_newline]
  | cons c body ih =>
    rw [List.cons_append, codeAfterComment, ih fun hm => hb (List.mem_cons_of_mem c hm)]
    rintro rfl
    exact hb List.mem_cons_self

lemma codeAfterQuote_append {b : List Char} (hb : StringBody b) (r : List Char) :
    codeAfterQuote (b ++ r) = b ++ codeOf r := by
  induction hb with
  | close => rw [List.cons_append, List.nil_append, codeAfterQuote, List.cons_append, List.nil_append]
  | escape _ ih => rw [List.cons_append, List.cons_append, codeAfterQuote, ih, List.cons_append, List.cons_append]
  | @plain c b hq hs _ ih =>
    rw [List.cons_append, codeAfterQuote, ih, List.cons_append]
    · exact hq
    · rintro d s rfl
      exact absurd rfl hs

lemma codeAfterQuote_open (h : closeString r = none) : codeAfterQuote r = r := by
  fun_induction closeString r with
  | case1 => rw [codeAfterQuote]
  | case2 => cases h
  | case3 c r ih => rw [codeAfterQuote, ih h]
  | case4 c r hq hs ih =>
    rw [codeAfterQuote, ih h]
    · exact hq
    · exact hs

lemma codeOf_comment {body : List Char} (hb : '\n' ∉ body) (hr : EndsLine r) :
    codeOf ('/' :: '/' :: (body ++ r)) = codeOf r := by
  rw [codeOf, codeAfterComment_append hb hr]

lemma respelling_codeOf : Respelling codeOf where
  nil := by rw [codeOf]
  plain _ hq hs := codeOf_plain hq hs
  newline := ⟨[], List.forall_mem_nil _, codeOf_newline⟩
  comment hb := ⟨[], .inl rfl, fun r hr => codeOf_comment hb hr⟩
  string {b} hb := ⟨b, hb, fun r => by rw [codeOf, codeAfterQuote_append hb]⟩
  openString {r} hr := ⟨r, by rw [codeOf, codeAfterQuote_open hr], hr⟩

lemma codeOf_unbroken (h : Unbroken u) : codeOf u = u := by
  induction h with
  | nil => rw [codeOf]
  | string hb _ ih => rw [codeOf, codeAfterQuote_append hb, ih]
  | plain _ _ hq hs _ ih => rw [codeOf_plain hq hs, ih]

lemma after_codeOf (h : Whole u) : Position.after (codeOf u) = Position.after u := by
  induction h with
  | nil => rw [codeOf]
  | @plain c u hq hs _ ih =>
    rw [codeOf_plain hq hs]
    exact Position.after_congr ih [c]
  | @comment body u hb _ ih =>
    have hline := Position.after_lines [] (codeOf u)
    have hline' := Position.after_lines ('/' :: '/' :: body) u
    rw [List.nil_append, ih] at hline
    rw [codeOf_comment hb (endsLine_newline u), codeOf_newline, hline, ← List.cons_append, ← List.cons_append,
      hline', count_comment hb]
    rfl
  | @string b u hb _ ih =>
    have hcongr := Position.after_congr ih ('"' :: b)
    rwa [codeOf, codeAfterQuote_append hb]

lemma count_codeOf (u : List Char) : (codeOf u).count '\n' = u.count '\n' := by
  induction u using pieces_induction with
  | nil => rw [codeOf]
  | plain c r _ hq hs ih => rw [codeOf_plain hq hs, List.count_cons, List.count_cons, ih]
  | newline r ih => rw [codeOf_newline, List.count_cons, List.count_cons, ih]
  | comment body r hb hr ih =>
    rw [codeOf_comment hb hr, ih, ← List.cons_append, ← List.cons_append, List.count_append, count_comment hb,
      Nat.zero_add]
  | string b r hb ih =>
    rw [codeOf, codeAfterQuote_append hb, ← List.cons_append, ← List.cons_append, List.count_append,
      List.count_append, ih]
  | openString r hr => rw [codeOf, codeAfterQuote_open hr]

end Source

open Source

def withoutComments : String → String :=
  respell codeOf

lemma keeps_withoutComments (part : Part) : part.Keeps withoutComments := by
  have hkept {t : String} (h : codeOf t.toList = t.toList) : withoutComments t = t := by
    rw [withoutComments, respell, h, String.ofList_toList]
  cases part with
  | statement s =>
    cases s with
    | exit x =>
      rintro ⟨w, hw, r, he, _, hr, _⟩
      apply hkept
      have hword : ∀ c ∈ w.toList, isNamePart c := (isName_exitKeyword hw).1.all
      rw [he, codeOf_unbroken (unbroken_name hword hr)]
    | _ => trivial
  | literal l t =>
    intro h
    apply hkept
    rcases h with rfl | rfl | ⟨b, he, hb⟩ | h
    · rfl
    · rfl
    · rw [he, codeOf, ← List.append_nil b, codeAfterQuote_append hb, codeOf]
    · apply respelling_codeOf.of_isPlain
      rcases h with h | ⟨u, he, h⟩
      · exact h.isPlain
      · rw [he]
        exact List.forall_mem_cons.mpr ⟨by decide, h.isPlain⟩
  | _ => trivial

/-- Without its comments a text is the same program but for the spelling of type labels, and is translated in
the same way. A text that is no program has the same fault without its comments, which is in the same place
unless it is the end of the text. -/
theorem translateText_withoutComments (t : String) :
    ((∃ p, Program.parse t = .ok p ∧ Program.parse (withoutComments t) = .ok (p.respell withoutComments)) ∨
      ∃ e e', Program.parse t = .error e ∧ Program.parse (withoutComments t) = .error e' ∧ e'.message = e.message ∧
        e'.position.line = e.position.line ∧ (e'.position.column = e.position.column ∨
          e.position = .after t.toList ∧ e'.position = .after (withoutComments t).toList)) ∧
      (∀ js, translateText .alan (withoutComments t) = .ok js ↔ translateText .alan t = .ok js) ∧
      ∀ capability, translateText .alan (withoutComments t) = .error (.unsupported capability) ↔
        translateText .alan t = .error (.unsupported capability) := by
  rcases parse_respell respelling_codeOf t with ⟨p, hp, hp'⟩ | ⟨e, e', u, he, he', hm, hu, hu', hend⟩
  · have ht := translate_respell respelling_codeOf .alan (by decide) (wellFormed_of_parse hp)
      fun part _ => keeps_withoutComments part
    have htext : translateText .alan (withoutComments t) = translateText .alan t := by
      simp only [translateText, parseText, withoutComments, hp, hp']
      exact ht
    exact ⟨.inl ⟨p, hp, hp'⟩, fun js => by rw [htext], fun c => by rw [htext]⟩
  · have htext : translateText .alan t = .error (.malformed e.report) := by
      simp only [translateText, parseText, he]
      rfl
    have htext' : translateText .alan (withoutComments t) = .error (.malformed e'.report) := by
      simp only [translateText, parseText, withoutComments, he']
      rfl
    refine ⟨.inr ⟨e, e', he, he', hm, ?_, ?_⟩, fun js => ?_, fun c => ?_⟩
    · rw [hu, hu', Position.after, Position.after, count_codeOf]
    · rcases hend with rfl | hw
      · right
        rw [withoutComments, respell, String.toList_ofList]
        exact ⟨hu, hu'⟩
      · left
        rw [hu, hu', after_codeOf hw]
    · rw [htext, htext']
      simp
    · rw [htext, htext']
      simp

example : withoutComments "a // \"b\n\"// c\" / d //" = "a \n\"// c\" / d " := rfl

end AmmCompiler
