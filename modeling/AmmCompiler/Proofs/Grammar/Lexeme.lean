import AmmCompiler.Proofs.Grammar.Layout
import AmmCompiler.Source.Unfolding
import Mathlib.Data.List.TakeWhile

namespace AmmCompiler.Source

open Text

def IsName (cs : List Char) : Prop :=
  ∃ c r, cs = c :: r ∧ isNameStart c ∧ ∀ d ∈ r, isNamePart d

inductive StringBody : List Char → Prop
  | close : StringBody ['"']
  | escape {c : Char} {b : List Char} : StringBody b → StringBody ('\\' :: c :: b)
  | plain {c : Char} {b : List Char} : c ≠ '"' → c ≠ '\\' → StringBody b → StringBody (c :: b)

def IsString (cs : List Char) : Prop :=
  ∃ b, cs = '"' :: b ∧ StringBody b

def IsDigits (cs : List Char) : Prop :=
  cs ≠ [] ∧ ∀ c ∈ cs, c.isDigit

def IsUnsigned (cs : List Char) : Prop :=
  IsDigits cs ∨ ∃ d e, cs = d ++ '.' :: e ∧ IsDigits d ∧ IsDigits e

def IsNumber (cs : List Char) : Prop :=
  IsUnsigned cs ∨ ∃ u, cs = '-' :: u ∧ IsUnsigned u

def IsLiteral (token : String) : Prop :=
  token = "true" ∨ token = "false" ∨ IsString token.toList ∨ IsNumber token.toList

variable {before token : Token} {cs rest : List Char} {c : Char}

def isName : List Char → Bool
  | [] => false
  | c :: r => isNameStart c && r.all isNamePart

lemma isName_iff {w : List Char} : isName w ↔ IsName w := by
  cases w with
  | nil =>
    constructor
    · intro h
      cases h
    · rintro ⟨_, _, h, _⟩
      cases h
  | cons c r =>
    rw [isName, Bool.and_eq_true, List.all_eq_true]
    constructor
    · intro h
      exact ⟨c, r, rfl, h⟩
    · rintro ⟨d, q, h, hd⟩
      obtain ⟨rfl, rfl⟩ := List.cons.inj h
      exact hd

instance : DecidablePred IsName :=
  fun _ => decidable_of_iff _ isName_iff

lemma IsName.solid {w : String} (h : IsName w.toList) (s : Spacing) : (Token.word w s).Solid := by
  obtain ⟨c, r, he, hc, _⟩ := h
  refine ⟨c, r, he, not_isBlank_of_isNamePart (isNamePart_of_isNameStart hc), ?_⟩
  rintro rfl
  exact absurd hc (by decide)

lemma IsName.startsLine {w : String} (h : IsName w.toList) (s : Spacing) : (Token.word w s).StartsLine := by
  obtain ⟨c, r, he, hc, _⟩ := h
  exact .inr ⟨c, r, he, hc⟩

lemma IsName.head_ne {w : String} (h : IsName w.toList) (s : Spacing) (hc : ¬ isNameStart c) :
    (Token.word w s).text.head? ≠ some c := by
  obtain ⟨d, r, he, hd, _⟩ := h
  rw [Token.text, he, List.head?_cons]
  rintro heq
  obtain rfl := Option.some.inj heq
  exact hc hd

lemma IsName.all {w : List Char} (h : IsName w) : ∀ c ∈ w, isNamePart c := by
  obtain ⟨c, r, rfl, hc, hr⟩ := h
  intro d hd
  rcases List.mem_cons.mp hd with rfl | hd
  · exact isNamePart_of_isNameStart hc
  · exact hr d hd

lemma name_of_skipGap {w : String} (h : skipGap cs = w.toList ++ rest) (hw : IsName w.toList)
    (hr : ∀ c ∈ rest.head?, ¬ isNamePart c) : name cs = .ok (w, rest) := by
  obtain ⟨c, r, he, hc, hp⟩ := hw
  have hrest : rest.takeWhile isNamePart = [] ∧ rest.dropWhile isNamePart = rest := by
    cases rest with
    | nil => exact ⟨rfl, rfl⟩
    | cons d rest =>
      have hd : ¬ isNamePart d := hr d rfl
      exact ⟨List.takeWhile_cons_of_neg hd, List.dropWhile_cons_of_neg hd⟩
  rw [he, List.cons_append] at h
  simp only [name, h, if_pos hc]
  rw [List.takeWhile_append_of_pos hp, List.dropWhile_append_of_pos hp, hrest.1, hrest.2,
    List.append_nil, ← he, String.ofList_toList]

lemma skipGap_of_name {w : String} (h : name cs = .ok (w, rest)) :
    IsName w.toList ∧ skipGap cs = w.toList ++ rest ∧ ∀ c ∈ rest.head?, ¬ isNamePart c := by
  simp only [name] at h
  split at h
  · cases h
  · next c r hc =>
    split at h
    · next hs =>
      simp only [Except.ok.injEq, Prod.mk.injEq] at h
      obtain ⟨rfl, rfl⟩ := h
      rw [String.toList_ofList, hc, List.cons_append, List.takeWhile_append_dropWhile]
      refine ⟨⟨c, _, rfl, hs, fun d hd => List.mem_takeWhile_imp hd⟩, rfl, ?_⟩
      intro d hd
      have hn := List.head?_dropWhile_not isNamePart r
      rw [Option.mem_def.mp hd] at hn
      simpa using hn
    · cases h

lemma name_of_next {w : String} {s : Spacing} (h : Next before (.word w s) cs rest) (hw : IsName w.toList)
    (hr : ∀ c ∈ rest.head?, ¬ isNamePart c) : name cs = .ok (w, rest) :=
  name_of_skipGap (h.skipGap (hw.solid s)) hw hr

lemma next_of_name {w : String} (h : name cs = .ok (w, rest)) (hf : Follows before cs) (s : Spacing) :
    IsName w.toList ∧ Next before (.word w s) cs rest ∧ ∀ c ∈ rest.head?, ¬ isNamePart c := by
  obtain ⟨hw, hg, hr⟩ := skipGap_of_name h
  exact ⟨hw, hf.next hg (hw.solid s) fun _ => hw.startsLine s, hr⟩

lemma solid_symbol (c : Char) (h : isBlank c = false ∧ c ≠ '/' := by decide) : (Token.symbol c).Solid :=
  ⟨c, [], rfl, by simp [h.1], h.2⟩

lemma symbol?_of_next (h : Next before (.symbol c) cs rest) (hs : (Token.symbol c).Solid) :
    symbol? c cs = some rest := by
  simp only [symbol?, h.skipGap hs, Token.text, List.cons_append, List.nil_append, if_pos]

lemma symbol?_of_ne (h : Next before token cs rest) (hs : token.Solid) (hne : token.text.head? ≠ some c) :
    symbol? c cs = none := by
  have hg := h.skipGap hs
  obtain ⟨d, r, ht, _⟩ := hs
  rw [ht] at hg hne
  simp only [symbol?, hg, List.cons_append]
  rw [if_neg]
  rintro rfl
  exact hne rfl

lemma symbol_eq_ok : symbol c cs = .ok rest ↔ symbol? c cs = some rest := by
  simp only [symbol]
  cases symbol? c cs <;> simp

lemma skipGap_of_symbol? (h : symbol? c cs = some rest) : skipGap cs = c :: rest := by
  simp only [symbol?] at h
  split at h
  · cases h
  · next d r hd =>
    split at h
    · next he =>
      obtain rfl := Option.some.inj h
      exact he ▸ hd
    · cases h

lemma next_of_symbol? (h : symbol? c cs = some rest) (hf : Follows before cs) (hs : (Token.symbol c).Solid)
    (hl : before.spacing = .lineEnd → c = '\x7d') : Next before (.symbol c) cs rest :=
  hf.next (skipGap_of_symbol? h) hs fun hb => .inl (congrArg Token.symbol (hl hb))

lemma closeString_append {b : List Char} (h : StringBody b) (rest : List Char) :
    closeString (b ++ rest) = some rest := by
  induction h with
  | close => rfl
  | escape _ ih => rw [List.cons_append, List.cons_append, closeString, ih]
  | @plain c b hq hb _ ih =>
    rw [List.cons_append, closeString, ih]
    · exact hq
    · rintro d r rfl
      exact absurd rfl hb

lemma body_of_closeString (h : closeString cs = some rest) : ∃ b, StringBody b ∧ cs = b ++ rest := by
  fun_induction closeString cs with
  | case1 => cases h
  | case2 r =>
    obtain rfl := Option.some.inj h
    exact ⟨_, .close, rfl⟩
  | case3 c r ih =>
    obtain ⟨b, hb, rfl⟩ := ih h
    exact ⟨_, .escape hb, rfl⟩
  | case4 c r hq he ih =>
    obtain ⟨b, hb, rfl⟩ := ih h
    refine ⟨c :: b, .plain hq ?_ hb, rfl⟩
    rintro rfl
    cases hb with
    | close => exact he _ _ rfl rfl
    | escape _ => exact he _ _ rfl rfl
    | plain _ _ _ => exact he _ _ rfl rfl

lemma consumed_append (xs ys : List Char) : consumed (xs ++ ys) ys = xs := by
  simp [consumed]

lemma string_append {t : String} (h : IsString t.toList) (rest : List Char) :
    string (t.toList ++ rest) = .ok (t, rest) := by
  have hs := h
  obtain ⟨b, he, hb⟩ := hs
  have hc : closeString (t.toList ++ rest).tail = some rest := by
    rw [he, List.cons_append, List.tail_cons, closeString_append hb]
  simp only [string, hc, consumed_append, String.ofList_toList]

lemma isString_of_string {t : String} (h : string ('"' :: cs) = .ok (t, rest)) :
    IsString t.toList ∧ '"' :: cs = t.toList ++ rest := by
  simp only [string, List.tail_cons] at h
  split at h
  · next r hr =>
    obtain ⟨b, hb, rfl⟩ := body_of_closeString hr
    simp only [Except.ok.injEq, Prod.mk.injEq] at h
    obtain ⟨rfl, rfl⟩ := h
    rw [← List.cons_append, consumed_append, String.toList_ofList]
    exact ⟨⟨b, rfl, hb⟩, rfl⟩
  · cases h

lemma digits_append {d : List Char} (h : ∀ c ∈ d, c.isDigit) (hr : ∀ c ∈ rest.head?, ¬ c.isDigit) :
    (d ++ rest).dropWhile Char.isDigit = rest := by
  rw [List.dropWhile_append_of_pos h]
  cases rest with
  | nil => rfl
  | cons c rest => exact List.dropWhile_cons_of_neg (hr c rfl)

lemma skipFraction_of_ne (h : cs.head? ≠ some '.') : skipFraction cs = cs := by
  unfold skipFraction
  split
  · exact absurd rfl h
  · rfl

lemma IsDigits.head {d : List Char} (h : IsDigits d) : ∃ c r, d = c :: r ∧ c.isDigit := by
  obtain ⟨hne, hd⟩ := h
  obtain ⟨c, r, rfl⟩ := List.exists_cons_of_ne_nil hne
  exact ⟨c, r, rfl, hd c List.mem_cons_self⟩

lemma IsUnsigned.head {u : List Char} (h : IsUnsigned u) : ∃ c r, u = c :: r ∧ c.isDigit := by
  rcases h with h | ⟨d, e, rfl, h, _⟩
  · exact h.head
  · obtain ⟨c, r, rfl, hc⟩ := h.head
    exact ⟨c, _, rfl, hc⟩

lemma IsNumber.head {t : List Char} (h : IsNumber t) : ∃ c r, t = c :: r ∧ (c.isDigit ∨ c = '-') := by
  rcases h with h | ⟨u, rfl, _⟩
  · obtain ⟨c, r, rfl, hc⟩ := h.head
    exact ⟨c, r, rfl, .inl hc⟩
  · exact ⟨'-', u, rfl, .inr rfl⟩

lemma IsUnsigned.mem {u : List Char} (h : IsUnsigned u) {c : Char} (hc : c ∈ u) : c.isDigit ∨ c = '.' := by
  rcases h with ⟨_, hd⟩ | ⟨d, e, rfl, ⟨_, hd⟩, ⟨_, he⟩⟩
  · exact .inl (hd c hc)
  · rcases List.mem_append.mp hc with hc | hc
    · exact .inl (hd c hc)
    · rcases List.mem_cons.mp hc with hc | hc
      · exact .inr hc
      · exact .inl (he c hc)

lemma IsNumber.mem {t : List Char} (h : IsNumber t) {c : Char} (hc : c ∈ t) : c.isDigit ∨ c = '.' ∨ c = '-' := by
  rcases h with h | ⟨u, rfl, h⟩
  · exact (h.mem hc).imp_right .inl
  · rcases List.mem_cons.mp hc with rfl | hc
    · exact .inr (.inr rfl)
    · exact (h.mem hc).imp_right .inl

lemma IsNumber.no_newline {t : List Char} (h : IsNumber t) : '\n' ∉ t :=
  fun hn => absurd (h.mem hn) (by decide)

lemma IsNumber.solid {t : String} (h : IsNumber t.toList) : (Token.literal t).Solid := by
  obtain ⟨c, r, he, hc⟩ := h.head
  refine ⟨c, r, he, ?_, ?_⟩
  · rcases hc with hc | rfl
    · exact not_isBlank_of_isNamePart (isNamePart_of_isDigit hc)
    · decide
  · rintro rfl
    revert hc
    decide

lemma IsString.solid {t : String} (h : IsString t.toList) : (Token.literal t).Solid := by
  obtain ⟨b, he, _⟩ := h
  exact ⟨'"', b, he, by decide, by decide⟩

lemma skip_unsigned {u : List Char} (h : IsUnsigned u) (hr : ∀ c ∈ rest.head?, ¬ c.isDigit ∧ c ≠ '.') :
    skipFraction ((u ++ rest).dropWhile Char.isDigit) = rest := by
  have hrd : ∀ c ∈ rest.head?, ¬ c.isDigit := fun c hc => (hr c hc).1
  rcases h with ⟨_, hd⟩ | ⟨d, e, rfl, ⟨_, hd⟩, he⟩
  · rw [digits_append hd hrd]
    apply skipFraction_of_ne
    intro hp
    exact (hr _ hp).2 rfl
  · obtain ⟨c, r, rfl, hc⟩ := he.head
    rw [List.append_assoc, digits_append hd, List.cons_append, List.cons_append, skipFraction, if_pos hc]
    · exact digits_append (fun d hm => he.2 d (List.mem_cons_of_mem c hm)) hrd
    · intro d hm
      obtain rfl := Option.some.inj hm
      decide

lemma unsigned_append {t : List Char} (h : IsNumber t) :
    ∃ u, IsUnsigned u ∧ ∀ rest, unsigned (t ++ rest) = u ++ rest := by
  rcases h with h | ⟨u, rfl, h⟩
  · refine ⟨t, h, fun rest => ?_⟩
    obtain ⟨c, r, rfl, hc⟩ := h.head
    rw [List.cons_append, unsigned]
    intro r' hr'
    obtain ⟨rfl, _⟩ := List.cons.inj hr'
    exact absurd hc (by decide)
  · exact ⟨u, h, fun rest => by rw [List.cons_append, unsigned]⟩

lemma startsWithDigit_unsigned {u : List Char} (h : IsUnsigned u) (rest : List Char) : startsWithDigit (u ++ rest) := by
  obtain ⟨c, r, rfl, hc⟩ := h.head
  rwa [List.cons_append, startsWithDigit]

lemma number_append {t : String} (h : IsNumber t.toList)
    (hr : ∀ c ∈ rest.head?, ¬ c.isDigit ∧ c ≠ '.') : number (t.toList ++ rest) = .ok (t, rest) := by
  obtain ⟨u, h, hu⟩ := unsigned_append h
  simp only [number, hu, if_pos (startsWithDigit_unsigned h rest), skip_unsigned h hr, consumed_append,
    String.ofList_toList]

lemma unsigned_eq (cs : List Char) : unsigned cs = cs ∨ cs = '-' :: unsigned cs := by
  unfold unsigned
  split
  · exact .inr rfl
  · exact .inl rfl

lemma skipFraction_eq (cs : List Char) : skipFraction cs = cs ∨
    ∃ e, IsDigits e ∧ cs = '.' :: (e ++ skipFraction cs) := by
  unfold skipFraction
  split
  · next c r =>
    by_cases hc : c.isDigit
    · rw [if_pos hc]
      refine .inr ⟨c :: r.takeWhile Char.isDigit, ⟨List.cons_ne_nil _ _, ?_⟩, ?_⟩
      · intro d hd
        rcases List.mem_cons.mp hd with rfl | hd
        · exact hc
        · exact List.mem_takeWhile_imp hd
      · rw [List.cons_append, List.takeWhile_append_dropWhile]
    · rw [if_neg hc]
      exact .inl rfl
  · exact .inl rfl

lemma isUnsigned_of_skip {u : List Char} (h : startsWithDigit u) :
    ∃ v, IsUnsigned v ∧ u = v ++ skipFraction (u.dropWhile Char.isDigit) := by
  have hd : IsDigits (u.takeWhile Char.isDigit) := by
    refine ⟨?_, fun c hc => List.mem_takeWhile_imp hc⟩
    cases u with
    | nil => cases h
    | cons c r =>
      rw [startsWithDigit] at h
      rw [List.takeWhile_cons_of_pos h]
      exact List.cons_ne_nil _ _
  have hu := List.takeWhile_append_dropWhile (p := Char.isDigit) (l := u)
  rcases skipFraction_eq (u.dropWhile Char.isDigit) with he | ⟨e, hdig, he⟩
  · exact ⟨_, .inl hd, by rw [he, hu]⟩
  · refine ⟨_, .inr ⟨_, e, rfl, hd, hdig⟩, ?_⟩
    rw [List.append_assoc, List.cons_append, ← he, hu]

lemma isNumber_of_number {t : String} (h : number cs = .ok (t, rest)) :
    IsNumber t.toList ∧ cs = t.toList ++ rest := by
  simp only [number] at h
  split at h
  · next hs =>
    obtain ⟨v, hv, he⟩ := isUnsigned_of_skip hs
    simp only [Except.ok.injEq, Prod.mk.injEq] at h
    obtain ⟨rfl, hr⟩ := h
    rw [hr] at he ⊢
    rcases unsigned_eq cs with hu | hu
    · rw [hu] at he
      rw [he, consumed_append, String.toList_ofList]
      exact ⟨.inl hv, rfl⟩
    · rw [hu, he, ← List.cons_append, consumed_append, String.toList_ofList]
      exact ⟨.inr ⟨v, rfl, hv⟩, rfl⟩
  · cases h

end AmmCompiler.Source
