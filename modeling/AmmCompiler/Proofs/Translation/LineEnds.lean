import AmmCompiler.Proofs.Grammar.Concatenation
import AmmCompiler.Proofs.JavaScript.Spelling

/-! A text may end its lines with `\r\n` as well as with `\n`. -/

namespace AmmCompiler

namespace Source

open Text

def carriageReturns : List Char → List Char
  | [] => []
  | '\n' :: rest => '\r' :: '\n' :: carriageReturns rest
  | c :: rest => c :: carriageReturns rest

variable {r u v : List Char} {c : Char}

lemma carriageReturns_cons (h : c ≠ '\n') (r : List Char) : carriageReturns (c :: r) = c :: carriageReturns r := by
  rw [carriageReturns]
  exact h

lemma carriageReturns_append (u v : List Char) :
    carriageReturns (u ++ v) = carriageReturns u ++ carriageReturns v := by
  fun_induction carriageReturns u with
  | case1 => rfl
  | case2 r ih => rw [List.cons_append, carriageReturns, ih, List.cons_append, List.cons_append]
  | case3 c r hn ih => rw [List.cons_append, carriageReturns_cons hn, ih, List.cons_append]

lemma carriageReturns_eq (h : '\n' ∉ u) : carriageReturns u = u := by
  fun_induction carriageReturns u with
  | case1 => rfl
  | case2 r _ => exact absurd List.mem_cons_self h
  | case3 c r _ ih => rw [ih fun hm => h (List.mem_cons_of_mem c hm)]

lemma stringBody_carriageReturns {b : List Char} (h : StringBody b) : StringBody (carriageReturns b) := by
  induction h with
  | close => exact .close
  | @escape c b _ ih =>
    rw [carriageReturns_cons (by decide)]
    by_cases hc : c = '\n'
    · rw [hc, carriageReturns]
      exact .escape (.plain (by decide) (by decide) ih)
    · rw [carriageReturns_cons hc]
      exact .escape ih
  | @plain c b hq hs _ ih =>
    by_cases hc : c = '\n'
    · rw [hc, carriageReturns]
      exact .plain (by decide) (by decide) (.plain (by decide) (by decide) ih)
    · rw [carriageReturns_cons hc]
      exact .plain hq hs ih

lemma closeString_carriageReturns (h : closeString r = none) : closeString (carriageReturns r) = none := by
  fun_induction closeString r with
  | case1 => rfl
  | case2 => cases h
  | case3 c r ih =>
    rw [carriageReturns_cons (by decide)]
    by_cases hc : c = '\n'
    · rw [hc, carriageReturns, closeString, closeString, ih h]
      · decide
      · exact fun _ _ he => absurd he (by decide)
    · rw [carriageReturns_cons hc, closeString, ih h]
  | case4 c r hq hs ih =>
    by_cases hc : c = '\n'
    · rw [hc, carriageReturns, closeString, closeString, ih h]
      · decide
      · exact fun _ _ he => absurd he (by decide)
      · decide
      · exact fun _ _ he => absurd he (by decide)
    · rw [carriageReturns_cons hc, closeString, ih h]
      · exact hq
      · rintro d s rfl he
        cases r with
        | nil => cases he
        | cons d r => exact hs d r rfl rfl

lemma respelling_carriageReturns : Respelling carriageReturns where
  nil := rfl
  plain hn _ _ := carriageReturns_cons hn _
  newline := ⟨['\r'], List.forall_mem_singleton.mpr (by decide), fun _ => rfl⟩
  comment {body} hb := by
    refine ⟨'/' :: '/' :: body, .inr ⟨body, hb, rfl⟩, fun r _ => ?_⟩
    rw [carriageReturns_cons (by decide), carriageReturns_cons (by decide), carriageReturns_append,
      carriageReturns_eq hb]
    rfl
  string {b} hb := by
    refine ⟨carriageReturns b, stringBody_carriageReturns hb, fun r => ?_⟩
    rw [carriageReturns_cons (by decide), carriageReturns_append]
  openString {r} hr := ⟨carriageReturns r, carriageReturns_cons (by decide) r, closeString_carriageReturns hr⟩

lemma after_carriageReturns (u : List Char) : Position.after (carriageReturns u) = Position.after u := by
  fun_induction carriageReturns u with
  | case1 => rfl
  | case2 r ih =>
    have hline := Position.after_lines ['\r'] (carriageReturns r)
    have hline' := Position.after_lines [] r
    rw [ih] at hline
    exact hline.trans hline'.symm
  | case3 c r _ ih => exact Position.after_congr ih [c]

lemma string_of_newline (h : Unbroken u) (hn : '\n' ∈ u) :
    ∃ v b r, u = v ++ '"' :: (b ++ r) ∧ Unbroken v ∧ StringBody b ∧ '\n' ∈ b := by
  induction h with
  | nil => cases hn
  | @string b r hb _ ih =>
    by_cases hbn : '\n' ∈ b
    · exact ⟨[], b, r, rfl, .nil, hb, hbn⟩
    · have hr : '\n' ∈ r := by simpa [hbn] using hn
      obtain ⟨v, b', r', rfl, hv, hb', hn'⟩ := ih hr
      exact ⟨'"' :: (b ++ v), b', r', by simp, .string hb hv, hb', hn'⟩
  | @plain c r hcn hcb hq hs _ ih =>
    have hr : '\n' ∈ r := by simpa [hcn.symm] using hn
    obtain ⟨v, b, r', rfl, hv, hb, hn'⟩ := ih hr
    refine ⟨c :: v, b, r', rfl, .plain hcn hcb hq ?_ hv, hb, hn'⟩
    rintro ⟨rfl, hh⟩
    refine hs ⟨rfl, ?_⟩
    rw [List.head?_append, hh, Option.some_or]

end Source

open Source

inductive Program.HasString (p : Program) : List Char → Prop
  | literal {l t : String} {b : List Char} : (l, t) ∈ p.literals → t.toList = '"' :: b → p.HasString b
  | fragment {x : String} {u b r : List Char} : .exit x ∈ p.statements → x.toList = u ++ '"' :: (b ++ r) →
      Unbroken u → StringBody b → p.HasString b

def withCarriageReturns : String → String :=
  respell carriageReturns

lemma keeps_withCarriageReturns {p : Program} (h : ∀ b, p.HasString b → '\n' ∉ b) {part : Part}
    (hpart : part ∈ p.parts) : part.Keeps withCarriageReturns := by
  have hkept {t : String} (h : '\n' ∉ t.toList) : withCarriageReturns t = t := by
    rw [withCarriageReturns, respell, carriageReturns_eq h, String.ofList_toList]
  cases part with
  | statement s =>
    cases s with
    | exit x =>
      rintro ⟨w, hw, r, he, _, hr, _⟩
      have hx : Unbroken x.toList := he ▸ unbroken_name (isName_exitKeyword hw).1.all hr
      refine hkept fun hn => ?_
      obtain ⟨u, b, r, he, hu, hb, hbn⟩ := string_of_newline hx hn
      exact h b (.fragment (List.mem_filterMap.mpr ⟨_, hpart, rfl⟩) he hu hb) hbn
    | _ => trivial
  | literal l t =>
    rintro (rfl | rfl | ⟨b, he, _⟩ | ht)
    · rfl
    · rfl
    · have hb := h b (.literal (List.mem_filterMap.mpr ⟨_, hpart, rfl⟩) he)
      exact hkept (by simpa [he] using hb)
    · exact hkept ht.no_newline
  | _ => trivial

/-- With other line ends a text has the same fault in the same place, or it is the same program but for the
newlines in type labels, literals and exit fragments. A translation shows those in strings only. -/
theorem parse_withCarriageReturns (t : String) :
    (∃ e e', Program.parse t = .error e ∧ Program.parse (withCarriageReturns t) = .error e' ∧
      e'.position = e.position ∧ e'.message = e.message ∧
        translateText .alan (withCarriageReturns t) = translateText .alan t) ∨
      ∃ p, Program.parse t = .ok p ∧ Program.parse (withCarriageReturns t) = .ok (p.respell withCarriageReturns) ∧
        ((∀ b, p.HasString b → '\n' ∉ b) →
          translateText .alan (withCarriageReturns t) = translateText .alan t) := by
  rcases parse_respell respelling_carriageReturns t with ⟨p, hp, hp'⟩ | ⟨e, e', u, he, he', hm, hu, hu', _⟩
  · refine .inr ⟨p, hp, hp', fun hstrings => ?_⟩
    have ht := translate_respell respelling_carriageReturns .alan (by decide) (wellFormed_of_parse hp)
      fun _ => keeps_withCarriageReturns hstrings
    simp only [translateText, parseText, withCarriageReturns, hp, hp']
    exact ht
  · have hpos : e'.position = e.position := by rw [hu, hu', after_carriageReturns]
    refine .inl ⟨e, e', he, he', hpos, hm, ?_⟩
    simp only [translateText, parseText, withCarriageReturns, he, he', Except.mapError, SyntaxError.report, hpos, hm]

def brokenLabelText : String :=
  "const x: a<\nb> = 1\non c fn (): d \x7b\n  return x\n\x7d\n"

theorem translateText_brokenLabelText : ∃ p, Program.parse brokenLabelText = .ok p ∧
    Program.parse (withCarriageReturns brokenLabelText) = .ok (p.respell withCarriageReturns) ∧
      p.constants.map Constant.typeLabel = ["a<\nb>"] ∧
        translateText .alan (withCarriageReturns brokenLabelText) = translateText .alan brokenLabelText := by
  rcases parse_withCarriageReturns brokenLabelText with ⟨e, _, he, _⟩ | ⟨p, hp, hp', ht⟩
  · cases he
  · have hparse : Program.parse brokenLabelText = .ok ⟨[⟨"x", "a<\nb>", .literal "1"⟩], [],
        [⟨"c", ⟨⟨[], none⟩, "d", [.exit "return x"]⟩⟩]⟩ := rfl
    obtain rfl := Except.ok.inj (hparse.symm.trans hp)
    refine ⟨_, hp, hp', rfl, ht ?_⟩
    rintro b (⟨hl, hb⟩ | ⟨hx, hb, _, _⟩)
    · obtain ⟨rfl, rfl⟩ := Prod.mk.inj (List.mem_singleton.mp hl)
      exact absurd (List.cons.inj hb).1 (by decide)
    · obtain rfl := Statement.exit.inj (List.mem_singleton.mp hx)
      have hquote : '"' ∈ "return x".toList := by simp [hb]
      exact absurd hquote (by decide)

end AmmCompiler
