import AmmCompiler.Proofs.JavaScript.Doubles
import AmmCompiler.Proofs.JavaScript.Parts

/-! What the literals of a script mean. A literal of the source is written as it is, and JavaScript has other
rules for it. -/

namespace AmmCompiler

open Source

inductive LiteralMeaning
  | boolean (value : Bool)
  | string (body : List Char)
  | number (value : Number)
  | octal (value : Number)
  | bigInt (value : ℤ)
  deriving DecidableEq

def LiteralMeaning.neg : LiteralMeaning → LiteralMeaning
  | number v => number v.neg
  | octal v => octal v.neg
  | bigInt v => bigInt (-v)
  | other => other

def decimalFraction (ds es : List Char) : ℚ :=
  Nat.ofDigitChars 10 (ds ++ es) 0 / 10 ^ es.length

/-- What a numeral without its sign means in the source: an integer is exact, and a fraction is the double next to
it. -/
def numeralMeaning (wide : Bool) (cs : List Char) : LiteralMeaning :=
  let ds := cs.takeWhile Char.isDigit
  match cs.dropWhile Char.isDigit with
  | '.' :: es => .number (nearest (decimalFraction ds es))
  | _ => if wide then .bigInt (Nat.ofDigitChars 10 ds 0) else .number (.finite (Nat.ofDigitChars 10 ds 0))

def tokenMeaning (wide : Bool) : List Char → LiteralMeaning
  | '"' :: b => .string b
  | '-' :: u => (numeralMeaning wide u).neg
  | cs =>
    if cs = "true".toList then .boolean true
    else if cs = "false".toList then .boolean false
    else numeralMeaning wide cs

def Padded (ds : List Char) : Prop :=
  ds.head? = some '0' ∧ ds ≠ ['0']

instance : DecidablePred Padded :=
  fun _ => inferInstanceAs (Decidable (_ ∧ _))

def IsLegacyOctal (ds : List Char) : Prop :=
  Padded ds ∧ '8' ∉ ds ∧ '9' ∉ ds

instance : DecidablePred IsLegacyOctal :=
  fun _ => inferInstanceAs (Decidable (_ ∧ _))

/-- The numerals of JavaScript outside of strict mode, but for the exponents, bases and separators that no token of
the source has. -/
def scriptNumeral? (cs : List Char) : Option LiteralMeaning :=
  let ds := cs.takeWhile Char.isDigit
  match cs.dropWhile Char.isDigit with
  | [] =>
    if ds = [] then none
    else if IsLegacyOctal ds then some (.octal (nearest (Nat.ofDigitChars 8 ds 0)))
    else some (.number (nearest (Nat.ofDigitChars 10 ds 0)))
  | ['n'] => if ds = [] ∨ Padded ds then none else some (.bigInt (Nat.ofDigitChars 10 ds 0))
  | '.' :: es =>
    if ds ++ es = [] ∨ IsLegacyOctal ds ∨ ¬ es.all Char.isDigit then none
    else some (.number (nearest (decimalFraction ds es)))
  | _ => none

def hexValue? (c : Char) : Option Nat :=
  if c.isDigit then some (c.toNat - '0'.toNat)
  else if 'a' ≤ c ∧ c ≤ 'f' then some (c.toNat - 'a'.toNat + 10)
  else if 'A' ≤ c ∧ c ≤ 'F' then some (c.toNat - 'A'.toNat + 10)
  else none

def isHex (c : Char) : Bool :=
  (hexValue? c).isSome

def codePoint (hs : List Char) : Nat :=
  hs.foldl (fun n c => 16 * n + (hexValue? c).getD 0) 0

def wholeEscape : List Char → Bool
  | 'x' :: a :: b :: _ => isHex a && isHex b
  | 'u' :: '\x7b' :: r => !(r.takeWhile isHex).isEmpty && codePoint (r.takeWhile isHex) ≤ 0x10FFFF &&
      (r.dropWhile isHex).head? == some '\x7d'
  | 'u' :: a :: b :: c :: d :: _ => [a, b, c, d].all isHex
  | c :: _ => c != 'x' && c != 'u'
  | [] => false

def isLineBreak (c : Char) : Bool :=
  c = '\n' ∨ c = '\r'

def scriptString : List Char → Bool
  | [] => false
  | '"' :: b => b.isEmpty
  | '\\' :: '\r' :: '\n' :: b => scriptString b
  | '\\' :: c :: b => wholeEscape (c :: b) && scriptString b
  | c :: b => !isLineBreak c && scriptString b

def scriptLiteral? : List Char → Option LiteralMeaning
  | '"' :: b => if scriptString b then some (.string b) else none
  | '-' :: cs => (scriptNumeral? cs).map LiteralMeaning.neg
  | cs =>
    if cs = "true".toList then some (.boolean true)
    else if cs = "false".toList then some (.boolean false)
    else scriptNumeral? cs

def unescaped : List Char → List Char
  | '\\' :: '\r' :: '\n' :: b => unescaped b
  | '\\' :: _ :: b => unescaped b
  | c :: b => c :: unescaped b
  | [] => []

def escapes : List Char → List (List Char)
  | '\\' :: c :: b => (c :: b) :: escapes b
  | _ :: b => escapes b
  | [] => []

/-- A zero may stand in front of other digits only if one of them is not octal and no suffix follows, and an integer
without a suffix has to be a double. -/
def PortableNumeral (wide : Bool) (cs : List Char) : Prop :=
  let ds := cs.takeWhile Char.isDigit
  (¬ Padded ds ∨ ('8' ∈ ds ∨ '9' ∈ ds) ∧ (wide → ds ≠ cs)) ∧
    (ds = cs → ¬ wide → IsDouble (Nat.ofDigitChars 10 ds 0))

def Portable (wide : Bool) : List Char → Prop
  | '"' :: b => (∀ c ∈ unescaped b, ¬ isLineBreak c) ∧ ∀ e ∈ escapes b, wholeEscape e
  | cs => PortableNumeral wide (unsigned cs)

variable {wide : Bool} {l t : String} {b u ds es : List Char}

lemma neg_involutive : Function.Involutive LiteralMeaning.neg := by
  intro m
  cases m with
  | boolean _ => rfl
  | string _ => rfl
  | number v => exact congrArg LiteralMeaning.number (Number.neg_involutive v)
  | octal v => exact congrArg LiteralMeaning.octal (Number.neg_involutive v)
  | bigInt v => exact congrArg LiteralMeaning.bigInt (Int.neg_neg v)

lemma not_isLegacyOctal : ¬ IsLegacyOctal ds ↔ ¬ Padded ds ∨ '8' ∈ ds ∨ '9' ∈ ds := by
  rw [IsLegacyOctal]
  tauto

lemma ite_none_eq_some {α : Type} {P : Prop} [Decidable P] {a : α} : (if P then none else some a) = some a ↔ ¬ P := by
  by_cases h : P
  · simp [h]
  · simp [h]

lemma split_digits (h : IsDigits ds) : ds.takeWhile Char.isDigit = ds ∧ ds.dropWhile Char.isDigit = [] :=
  ⟨List.takeWhile_eq_self_iff.mpr h.2, List.dropWhile_eq_nil_iff.mpr h.2⟩

lemma split_digits_cons {x : Char} (h : IsDigits ds) (r : List Char) (hx : ¬ x.isDigit := by decide) :
    (ds ++ x :: r).takeWhile Char.isDigit = ds ∧ (ds ++ x :: r).dropWhile Char.isDigit = x :: r := by
  rw [List.takeWhile_append_of_pos h.2, List.dropWhile_append_of_pos h.2, List.takeWhile_cons_of_neg hx,
    List.dropWhile_cons_of_neg hx, List.append_nil]
  exact ⟨rfl, rfl⟩

lemma integer_reading (h : IsDigits ds) :
    scriptNumeral? ds = some (numeralMeaning false ds) ↔ PortableNumeral false ds := by
  obtain ⟨ht, hd⟩ := split_digits h
  have hn : PortableNumeral false ds ↔ ¬ IsLegacyOctal ds ∧ IsDouble (Nat.ofDigitChars 10 ds 0) := by
    rw [not_isLegacyOctal, PortableNumeral, ht]
    simp
  rw [hn, ← nearest_eq_self_iff]
  by_cases ho : IsLegacyOctal ds
  · simp [scriptNumeral?, numeralMeaning, ht, hd, h.1, ho]
  · simp [scriptNumeral?, numeralMeaning, ht, hd, h.1, ho]

lemma bigInt_reading (h : IsDigits ds) :
    scriptNumeral? (ds ++ ['n']) = some (numeralMeaning true ds) ↔ PortableNumeral true ds := by
  obtain ⟨ht, hd⟩ := split_digits h
  obtain ⟨ht', hd'⟩ := split_digits_cons (x := 'n') h []
  have hn : PortableNumeral true ds ↔ ¬ (ds = [] ∨ Padded ds) := by
    simp [PortableNumeral, ht, h.1]
  rw [hn]
  simp only [scriptNumeral?, numeralMeaning, ht, hd, ht', hd', if_pos]
  exact ite_none_eq_some

lemma fraction_reading (hd : IsDigits ds) (he : IsDigits es) :
    scriptNumeral? (ds ++ '.' :: es) = some (numeralMeaning wide (ds ++ '.' :: es)) ↔
      PortableNumeral wide (ds ++ '.' :: es) := by
  obtain ⟨ht, hd'⟩ := split_digits_cons (x := '.') hd es
  have hall : es.all Char.isDigit = true := List.all_eq_true.mpr he.2
  have hn : PortableNumeral wide (ds ++ '.' :: es) ↔
      ¬ (ds ++ es = [] ∨ IsLegacyOctal ds ∨ ¬ es.all Char.isDigit) := by
    have hne : ds ≠ ds ++ '.' :: es := by simp
    rw [PortableNumeral, ht]
    simp [hall, hd.1, not_isLegacyOctal, hne]
  rw [hn]
  simp only [scriptNumeral?, numeralMeaning, ht, hd']
  exact ite_none_eq_some

lemma isDigits_iff (h : IsUnsigned u) : IsDigits u ↔ '.' ∉ u := by
  constructor
  · intro hd hm
    exact absurd (hd.2 _ hm) (by decide)
  · intro hm
    rcases h with h | ⟨d, e, rfl, _⟩
    · exact h
    · exact absurd (List.mem_append_right _ List.mem_cons_self) hm

lemma numeral_reading (h : IsUnsigned u) (wide : Bool) :
    scriptNumeral? (u ++ if wide ∧ '.' ∉ u then ['n'] else []) = some (numeralMeaning wide u) ↔
      PortableNumeral wide u := by
  rcases h with h | ⟨d, e, rfl, hd, he⟩
  · have hm : '.' ∉ u := (isDigits_iff (.inl h)).mp h
    cases wide with
    | false =>
      rw [if_neg (by simp), List.append_nil]
      exact integer_reading h
    | true =>
      rw [if_pos ⟨rfl, hm⟩]
      exact bigInt_reading h
  · rw [if_neg fun hm => hm.2 (List.mem_append_right _ List.mem_cons_self), List.append_nil]
    exact fraction_reading hd he

lemma digit_reading (h : IsUnsigned u) (wide : Bool) (r : List Char) :
    scriptLiteral? (u ++ r) = scriptNumeral? (u ++ r) ∧ tokenMeaning wide u = numeralMeaning wide u ∧
      (Portable wide u ↔ PortableNumeral wide u) := by
  obtain ⟨c, q, rfl, hc⟩ := h.head
  have hne (d : Char) (hd : d.isDigit = false) : c ≠ d := by
    rintro rfl
    rw [hd] at hc
    cases hc
  have hquote (q b : List Char) : c :: q ≠ '"' :: b := fun h => hne '"' (by decide) (List.cons.inj h).1
  have hminus (q b : List Char) : c :: q ≠ '-' :: b := fun h => hne '-' (by decide) (List.cons.inj h).1
  have htrue (q : List Char) : c :: q ≠ "true".toList := fun h => hne 't' (by decide) (List.cons.inj h).1
  have hfalse (q : List Char) : c :: q ≠ "false".toList := fun h => hne 'f' (by decide) (List.cons.inj h).1
  refine ⟨?_, ?_, ?_⟩
  · rw [List.cons_append, scriptLiteral?, if_neg (htrue _), if_neg (hfalse _)]
    · exact hquote _
    · exact hminus _
  · rw [tokenMeaning, if_neg (htrue _), if_neg (hfalse _)]
    · exact hquote _
    · exact hminus _
  · rw [Portable, unsigned]
    · exact hminus _
    · exact hquote _

lemma number_reading {t : List Char} (h : IsNumber t) (wide : Bool) :
    scriptLiteral? (t ++ if wide ∧ '.' ∉ t then ['n'] else []) = some (tokenMeaning wide t) ↔ Portable wide t := by
  rcases h with h | ⟨u, rfl, h⟩
  · obtain ⟨hscript, hmeaning, hportable⟩ := digit_reading h wide (if wide ∧ '.' ∉ t then ['n'] else [])
    rw [hscript, hmeaning, hportable]
    exact numeral_reading h wide
  · have hdot : '.' ∉ '-' :: u ↔ '.' ∉ u := by simp
    have hportable : Portable wide ('-' :: u) ↔ PortableNumeral wide u := by
      rw [Portable, unsigned]
      rintro _ ⟨⟩
    rw [hportable, ← numeral_reading h wide, tokenMeaning, List.cons_append, scriptLiteral?,
      Option.map_eq_some_iff]
    simp only [hdot]
    constructor
    · rintro ⟨m, hm, he⟩
      rw [hm, neg_involutive.injective he]
    · intro hm
      exact ⟨_, hm, rfl⟩

lemma string_reading (h : StringBody b) :
    scriptString b ↔ (∀ c ∈ unescaped b, ¬ isLineBreak c) ∧ ∀ e ∈ escapes b, wholeEscape e := by
  fun_induction scriptString b with
  | case1 => cases h
  | case2 b =>
    cases h with
    | close => exact iff_of_true rfl ⟨List.forall_mem_singleton.mpr (by decide), List.forall_mem_nil _⟩
    | plain hq _ _ => exact absurd rfl hq
  | case3 b ih =>
    cases h with
    | plain _ hb _ => exact absurd rfl hb
    | escape h =>
      cases h with
      | plain _ _ h =>
        have hw : wholeEscape ('\r' :: '\n' :: b) = true := rfl
        have he : escapes ('\\' :: '\r' :: '\n' :: b) = ('\r' :: '\n' :: b) :: escapes b := rfl
        rw [ih h, unescaped, he, List.forall_mem_cons]
        tauto
  | case4 c b hc ih =>
    cases h with
    | plain _ hb _ => exact absurd rfl hb
    | escape h =>
      rw [Bool.and_eq_true, ih h, unescaped, escapes, List.forall_mem_cons]
      · tauto
      · exact hc
  | case5 c b hq hreturn hescape ih =>
    have hc : c ≠ '\\' := by
      rintro rfl
      cases h with
      | escape _ => exact hescape _ _ rfl rfl
      | plain _ hb _ => exact hb rfl
    cases h with
    | close => exact absurd rfl hq
    | escape _ => exact absurd rfl hc
    | plain _ _ h =>
      rw [Bool.and_eq_true, ih h, unescaped, escapes, List.forall_mem_cons, Bool.not_eq_true', ← Bool.not_eq_true,
        and_assoc]
      · exact fun _ _ he _ => hc he
      · exact fun _ he _ => hc he
      · exact fun _ _ he _ => hc he

lemma isDecimalInteger_number (h : IsNumber t.toList) : isDecimalInteger t ↔ '.' ∉ t.toList := by
  rw [isDecimalInteger_iff, IsInteger]
  constructor
  · rintro (hd | ⟨u, he, hd⟩) hm
    · exact absurd (hd.2 _ hm) (by decide)
    · rw [he] at hm
      exact absurd (hd.2 _ (List.mem_of_ne_of_mem (by decide) hm)) (by decide)
  · intro hm
    rcases h with h | ⟨u, he, h⟩
    · exact .inl ((isDigits_iff h).mpr hm)
    · rw [he] at hm
      exact .inr ⟨u, he, (isDigits_iff h).mpr fun hu => hm (List.mem_cons_of_mem _ hu)⟩

lemma literalText_number (h : IsNumber t.toList) (l : String) : (Target.alan.literalText l t).toList =
    t.toList ++ if decide (Text.trimmed l = "int64") ∧ '.' ∉ t.toList then ['n'] else [] := by
  have hb : Target.alan.isBigInt l t ↔ decide (Text.trimmed l = "int64") ∧ '.' ∉ t.toList := by
    rw [Target.isBigInt, Bool.and_eq_true, isDecimalInteger_number h, beq_iff_eq, decide_eq_true_eq, and_comm]
    rfl
  rw [Target.literalText]
  by_cases hw : Target.alan.isBigInt l t
  · rw [if_pos hw, if_pos (hb.mp hw), String.toList_append]
    rfl
  · rw [if_neg hw, if_neg (mt hb.mpr hw), List.append_nil]

lemma literalText_of_not_integer (h : ¬ isDecimalInteger t) (l : String) : Target.alan.literalText l t = t := by
  rw [Target.literalText, if_neg]
  exact fun hb => h (Bool.and_eq_true_iff.mp hb).1

lemma literal_reading (h : IsLiteral t) (l : String) :
    scriptLiteral? (Target.alan.literalText l t).toList =
      some (tokenMeaning (Text.trimmed l = "int64") t.toList) ↔ Portable (Text.trimmed l = "int64") t.toList := by
  have hword {w : List Char} (hw : ¬ Padded (w.takeWhile Char.isDigit)) (hne : w.takeWhile Char.isDigit ≠ w)
      (wide : Bool) : PortableNumeral wide w :=
    ⟨.inl hw, fun he => absurd he hne⟩
  rcases h with rfl | rfl | h | h
  · rw [literalText_of_not_integer (by decide)]
    exact iff_of_true rfl (hword (by decide) (by decide) _)
  · rw [literalText_of_not_integer (by decide)]
    exact iff_of_true rfl (hword (by decide) (by decide) _)
  · obtain ⟨b, he, hb⟩ := h
    have hn : ¬ isDecimalInteger t := by
      rw [isDecimalInteger, he]
      simp
    rw [literalText_of_not_integer hn, he, scriptLiteral?, tokenMeaning, Portable, ← string_reading hb]
    by_cases hs : scriptString b
    · rw [if_pos hs]
      exact iff_of_true rfl hs
    · rw [if_neg hs]
      exact iff_of_false (Option.some_ne_none _).symm hs
  · rw [literalText_number h]
    exact number_reading h _

/-- JavaScript reads the text of a literal as what the source means by it exactly when a number has no needless zero
in front, or an 8 or a 9 keeps it from being octal and it takes no suffix, when an integer that takes no suffix is a
double, and when a string has neither a line break that no backslash escapes nor an escape that breaks off. -/
theorem meaning_of_literal {text : String} {p : Program} (hp : Program.parse text = .ok p) (ht : (l, t) ∈ p.literals)
    (label indent : String) (st : Statistics) :
    scriptLiteral? (((Value.literal t).compile .alan label indent).run st).1.toList =
        some (tokenMeaning (Text.trimmed label = "int64") t.toList) ↔
      Portable (Text.trimmed label = "int64") t.toList := by
  rw [value_text]
  exact literal_reading ((wellFormed_of_parse hp).isLiteral ht) label

example : scriptLiteral? "-010".toList = some (.octal (.finite (-8))) ∧
    tokenMeaning false "-010".toList = .number (.finite (-10)) := by
  decide +kernel

def paddedText : String :=
  "const x: int64 = 007\n"

def paddedProgram : Program where
  constants := [⟨"x", "int64", .literal "007"⟩]
  events := []
  handlers := []

def paddedScript : String :=
  "const r = require('alan-js-runtime')\nconst x = 007n\nr.emit('_start', undefined)\n"

theorem meaning_paddedText : Program.parse paddedText = .ok paddedProgram ∧
    ("int64", "007") ∈ paddedProgram.literals ∧ translateText .alan paddedText = .ok paddedScript ∧
      tokenMeaning true "007".toList = .bigInt 7 ∧ scriptLiteral? "007n".toList = none ∧
        ¬ Portable (Text.trimmed "int64" = "int64") "007".toList := by
  have hp : Program.parse paddedText = .ok paddedProgram := rfl
  have ht : ("int64", "007") ∈ paddedProgram.literals := List.mem_cons_self
  have hx : translateText .alan paddedText = .ok paddedScript := by decide +kernel
  have hn : scriptLiteral? "007n".toList = none := by decide
  refine ⟨hp, ht, hx, by decide, hn, fun h => ?_⟩
  have hr := (meaning_of_literal hp ht "int64" "" .empty).mpr h
  cases hn.symm.trans hr

end AmmCompiler
