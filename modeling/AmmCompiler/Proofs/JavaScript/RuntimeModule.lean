import AmmCompiler.Proofs.CommandLine.ModuleOption
import AmmCompiler.Proofs.Fixture.Directives
import AmmCompiler.Proofs.JavaScript.Assembly
import AmmCompiler.Proofs.JavaScript.Literals

/-! The module that a script requires is what JavaScript makes of the text between the quotes of the header, and
the name of the module is copied there as it is. -/

namespace AmmCompiler

open Text

def codeUnits (n : Nat) : List Nat :=
  if n < 0x10000 then [n] else [0xD800 + (n - 0x10000) / 0x400, 0xDC00 + (n - 0x10000) % 0x400]

def unitsOf (cs : List Char) : List Nat :=
  cs.flatMap fun c => codeUnits c.toNat

def isOctal (c : Char) : Bool :=
  '0' ≤ c ∧ c ≤ '7'

def octalDigits : List Char → List Char
  | [] => []
  | c :: cs => ((c :: cs).takeWhile isOctal).take (if c ≤ '3' then 3 else 2)

def isLineEnd (c : Char) : Bool :=
  isLineBreak c ∨ c = '\u2028' ∨ c = '\u2029'

def singleEscape : Char → Char
  | 'b' => '\x08'
  | 't' => '\t'
  | 'n' => '\n'
  | 'v' => '\x0b'
  | 'f' => '\x0c'
  | 'r' => '\r'
  | c => c

def escapeUnits : List Char → List Nat
  | [] => []
  | 'x' :: cs => [codePoint (cs.take 2)]
  | 'u' :: '\x7b' :: cs => codeUnits (codePoint (cs.takeWhile isHex))
  | 'u' :: cs => [codePoint (cs.take 4)]
  | c :: cs =>
    if isLineEnd c then []
    else if octalDigits (c :: cs) = [] then codeUnits (singleEscape c).toNat
    else [Nat.ofDigitChars 8 (octalDigits (c :: cs)) 0]

def escapeLength : List Char → Nat
  | 'x' :: _ => 3
  | 'u' :: '\x7b' :: cs => (cs.takeWhile isHex).length + 3
  | 'u' :: _ => 5
  | '\r' :: '\n' :: _ => 2
  | cs => max 1 (octalDigits cs).length

/-- The string that ends at the next single quote, outside of strict mode, and what stands behind it. The characters
of an escape are passed over one by one. -/
def quotedFrom : Nat → List Char → Option (List Nat × List Char)
  | _, [] => none
  | passed + 1, _ :: cs => quotedFrom passed cs
  | 0, '\x27' :: cs => some ([], cs)
  | 0, '\\' :: cs =>
    if wholeEscape cs then (quotedFrom (escapeLength cs) cs).map fun read => (escapeUnits cs ++ read.1, read.2)
    else none
  | 0, c :: cs =>
    if isLineBreak c then none else (quotedFrom 0 cs).map fun read => (codeUnits c.toNat ++ read.1, read.2)

def requiredModule? (handle script : String) : Option (List Nat) :=
  match textAfter? ("const " ++ handle ++ " = require('") script with
  | none => none
  | some rest =>
    match quotedFrom 0 rest.toList with
    | some (units, ')' :: _) => some units
    | _ => none

def Plain (m : List Char) : Prop :=
  ∀ c ∈ m, c ≠ '\x27' ∧ c ≠ '\\' ∧ ¬ isLineBreak c

variable {m : String} {target : Target} {cs ds rest tail : List Char} {units : List Nat} {passed : Nat}

lemma unitsOf_cons (c : Char) (cs : List Char) : unitsOf (c :: cs) = codeUnits c.toNat ++ unitsOf cs :=
  rfl

lemma unitsOf_append (cs ds : List Char) : unitsOf (cs ++ ds) = unitsOf cs ++ unitsOf ds :=
  List.flatMap_append

lemma codeUnits_length (n : Nat) : 1 ≤ (codeUnits n).length ∧ (codeUnits n).length ≤ 2 := by
  rw [codeUnits]
  split
  · exact ⟨le_rfl, Nat.le_succ 1⟩
  · exact ⟨Nat.le_succ 1, le_rfl⟩

lemma length_le_units (cs : List Char) : cs.length ≤ (unitsOf cs).length := by
  induction cs with
  | nil => exact le_rfl
  | cons c cs ih =>
    rw [unitsOf_cons, List.length_append, List.length_cons, Nat.add_comm]
    exact Nat.add_le_add (codeUnits_length _).1 ih

lemma codeUnits_append_inj {c d : Char} {us vs : List Nat}
    (h : codeUnits c.toNat ++ us = codeUnits d.toNat ++ vs) : c = d ∧ us = vs := by
  have hc : c.toNat < 0xD800 ∨ 0xDFFF < c.toNat ∧ c.toNat < 0x110000 := c.valid
  have hd : d.toNat < 0xD800 ∨ 0xDFFF < d.toNat ∧ d.toNat < 0x110000 := d.valid
  rw [← Char.toNat_inj]
  generalize c.toNat = n at *
  generalize d.toNat = k at *
  rw [codeUnits, codeUnits] at h
  split at h <;> split at h <;> simp only [List.cons_append, List.nil_append, List.cons.injEq] at h <;> grind

lemma unitsOf_injective : Function.Injective unitsOf := by
  intro cs
  induction cs with
  | nil =>
    intro ds h
    cases ds with
    | nil => rfl
    | cons d ds =>
      have hl := (length_le_units (d :: ds)).trans_eq (congrArg List.length h).symm
      cases hl
  | cons c cs ih =>
    intro ds h
    cases ds with
    | nil =>
      have hl := (length_le_units (c :: cs)).trans_eq (congrArg List.length h)
      cases hl
    | cons d ds =>
      obtain ⟨rfl, ht⟩ := codeUnits_append_inj h
      rw [ih ht]

lemma quotedFrom_plain (h : Plain cs) (rest : List Char) :
    quotedFrom 0 (cs ++ '\x27' :: rest) = some (unitsOf cs, rest) := by
  induction cs with
  | nil => rfl
  | cons c cs ih =>
    obtain ⟨⟨hq, hb, hn⟩, hcs⟩ := List.forall_mem_cons.mp h
    rw [List.cons_append, quotedFrom, if_neg hn, ih hcs]
    · rfl
    · exact hq
    · exact hb

lemma singleEscape_length (c : Char) :
    (codeUnits (singleEscape c).toNat).length ≤ (codeUnits c.toNat).length := by
  fun_cases singleEscape c with
  | case7 => exact le_rfl
  | _ => exact (codeUnits_length _).1

lemma escapeLength_pos (cs : List Char) : 0 < escapeLength cs := by
  fun_cases escapeLength cs with
  | case5 => exact Nat.lt_of_lt_of_le Nat.one_pos (Nat.le_max_left _ _)
  | _ => exact Nat.succ_pos _

lemma escapeUnits_length (h : escapeLength cs ≤ cs.length) :
    (escapeUnits cs).length ≤ (unitsOf (cs.take (escapeLength cs))).length := by
  have hlong : escapeLength cs ≤ (unitsOf (cs.take (escapeLength cs))).length := by
    refine le_trans ?_ (length_le_units _)
    rw [List.length_take, Nat.min_eq_left h]
  have hpos := (escapeLength_pos cs).trans_le hlong
  fun_cases escapeUnits cs with
  | case1 => exact Nat.zero_le _
  | case2 => exact hpos
  | case3 cs =>
    have htwo : 2 ≤ escapeLength ('u' :: '\x7b' :: cs) := Nat.le_add_left 2 _
    exact (codeUnits_length _).2.trans (htwo.trans hlong)
  | case4 => exact hpos
  | case5 => exact Nat.zero_le _
  | case6 c cs =>
    obtain ⟨k, hk⟩ := Nat.exists_eq_succ_of_ne_zero (escapeLength_pos (c :: cs)).ne'
    rw [hk, List.take_succ_cons, unitsOf_cons, List.length_append]
    exact (singleEscape_length c).trans (Nat.le_add_right _ _)
  | case7 => exact hpos

lemma prepend_eq_some {us : List Nat} {r : Option (List Nat × List Char)}
    (h : (r.map fun read => (us ++ read.1, read.2)) = some (units, rest)) :
    ∃ vs, r = some (vs, rest) ∧ units = us ++ vs := by
  obtain ⟨⟨vs, _⟩, rfl, he⟩ := Option.map_eq_some_iff.mp h
  obtain ⟨rfl, rfl⟩ := Prod.mk.inj he
  exact ⟨vs, rfl, rfl⟩

lemma quotedFrom_length (h : quotedFrom passed cs = some (units, rest)) : ∃ body, cs = body ++ '\x27' :: rest ∧
    passed ≤ body.length ∧ units.length ≤ (unitsOf (body.drop passed)).length ∧
      (units.length = (unitsOf (body.drop passed)).length → Plain (body.drop passed)) := by
  fun_induction quotedFrom passed cs generalizing units with
  | case1 => cases h
  | case2 passed c cs ih =>
    obtain ⟨body, rfl, hp, hl, he⟩ := ih h
    exact ⟨c :: body, rfl, Nat.succ_le_succ hp, hl, he⟩
  | case3 cs =>
    cases h
    exact ⟨[], rfl, le_rfl, le_rfl, fun _ => List.forall_mem_nil _⟩
  | case4 cs hw ih =>
    obtain ⟨vs, hv, rfl⟩ := prepend_eq_some h
    obtain ⟨body, rfl, hp, hl, _⟩ := ih hv
    have hfits : escapeLength (body ++ '\x27' :: rest) ≤ (body ++ '\x27' :: rest).length :=
      hp.trans (List.length_append ▸ Nat.le_add_right _ _)
    have hshort := escapeUnits_length hfits
    rw [List.take_append_of_le_length hp] at hshort
    have hbody := congrArg (fun b => (unitsOf b).length)
      (List.take_append_drop (escapeLength (body ++ '\x27' :: rest)) body)
    simp only [unitsOf_append, List.length_append] at hbody
    have hlt : (escapeUnits (body ++ '\x27' :: rest) ++ vs).length < (unitsOf ('\\' :: body)).length := by
      rw [List.length_append, unitsOf_cons, List.length_append]
      have hone := (codeUnits_length '\\'.toNat).1
      omega
    exact ⟨'\\' :: body, rfl, Nat.zero_le _, hlt.le, fun he => absurd he hlt.ne⟩
  | case5 => cases h
  | case6 => cases h
  | case7 c cs hq hb hn ih =>
    obtain ⟨vs, hv, rfl⟩ := prepend_eq_some h
    obtain ⟨body, rfl, _, hl, hplain⟩ := ih hv
    refine ⟨c :: body, rfl, Nat.zero_le _, ?_, fun he => ?_⟩
    · simp only [List.drop_zero, unitsOf_cons, List.length_append] at hl ⊢
      exact Nat.add_le_add_left hl _
    · simp only [List.drop_zero, unitsOf_cons, List.length_append] at he
      exact List.forall_mem_cons.mpr ⟨⟨hq, hb, hn⟩, hplain (Nat.add_left_cancel he)⟩

lemma ne_of_isHex {c : Char} (h : isHex c) : c ≠ ')' := by
  rintro rfl
  cases h

lemma take_octalDigits (cs : List Char) : cs.take (octalDigits cs).length = octalDigits cs := by
  cases cs with
  | nil => rfl
  | cons c cs =>
    have htake := List.take_prefix (if c ≤ '3' then 3 else 2) ((c :: cs).takeWhile isOctal)
    exact (List.prefix_iff_eq_take.mp (htake.trans ( List.takeWhile_prefix isOctal))).symm

lemma ne_of_octal : ∀ c ∈ octalDigits cs, c ≠ ')' := by
  rintro c hc rfl
  cases cs with
  | nil => cases hc
  | cons d cs => cases List.mem_takeWhile_imp (List.mem_of_mem_take hc)

lemma escape_tail (hw : wholeEscape cs) : ∀ c ∈ (cs.take (escapeLength cs)).tail, c ≠ ')' := by
  fun_cases wholeEscape cs with
  | case1 a b cs =>
    rw [wholeEscape, Bool.and_eq_true] at hw
    exact List.forall_mem_cons.mpr ⟨ne_of_isHex hw.1, List.forall_mem_singleton.mpr (ne_of_isHex hw.2)⟩
  | case2 cs =>
    rw [wholeEscape, Bool.and_eq_true, beq_iff_eq] at hw
    obtain ⟨ds, hds⟩ := List.head?_eq_some_iff.mp hw.2
    have hcs := List.takeWhile_append_dropWhile (p := isHex) (l := cs)
    have hhex : ∀ c ∈ cs.takeWhile isHex, c ≠ ')' := fun c hc => ne_of_isHex (List.mem_takeWhile_imp hc)
    rw [hds] at hcs
    have htake : cs.take ((cs.takeWhile isHex).length + 1) = cs.takeWhile isHex ++ ['\x7d'] := by
      calc
        _ = (cs.takeWhile isHex ++ '\x7d' :: ds).take ((cs.takeWhile isHex).length + 1) := by rw [hcs]
        _ = _ := List.take_length_add_append 1
    rw [escapeLength, List.take_succ_cons, List.take_succ_cons, htake]
    refine List.forall_mem_cons.mpr ⟨by decide, List.forall_mem_append.mpr ⟨hhex, ?_⟩⟩
    exact List.forall_mem_singleton.mpr (by decide)
  | case3 a b c d cs hb =>
    rw [wholeEscape] at hw
    · rw [escapeLength]
      · exact fun e he => ne_of_isHex (List.all_eq_true.mp hw e he)
      · exact fun _ he => hb (List.cons.inj he).1
    · exact hb
  | case4 c cs hx hb hu =>
    have hc : c ≠ 'x' ∧ c ≠ 'u' := by
      rw [wholeEscape] at hw
      · simpa using hw
      · exact hx
      · exact hb
      · exact hu
    by_cases hr : ∃ ds, c = '\r' ∧ cs = '\n' :: ds
    · obtain ⟨ds, rfl, rfl⟩ := hr
      exact List.forall_mem_singleton.mpr (by decide)
    have hl : escapeLength (c :: cs) = max 1 (octalDigits (c :: cs)).length := by
      rw [escapeLength]
      · exact fun _ he => hc.1 (List.cons.inj he).1
      · exact fun _ he => hc.2 (List.cons.inj he).1
      · exact fun _ he => hc.2 (List.cons.inj he).1
      · exact fun ds he => hr ⟨ds, List.cons.inj he⟩
    rcases Nat.eq_zero_or_pos (octalDigits (c :: cs)).length with hz | hp
    · rw [hl, hz]
      exact List.forall_mem_nil _
    · rw [hl, Nat.max_eq_right hp, take_octalDigits]
      exact fun e he => ne_of_octal e (List.mem_of_mem_tail he)
  | case5 => cases hw

lemma escapeLength_le (hw : wholeEscape (cs ++ ')' :: tail)) : escapeLength (cs ++ ')' :: tail) ≤ cs.length + 1 := by
  cases cs with
  | nil => exact Nat.le_of_eq rfl
  | cons c cs =>
    by_contra hl
    obtain ⟨k, hk⟩ := Nat.exists_eq_add_of_lt (Nat.lt_of_not_le hl)
    refine escape_tail hw ')' ?_ rfl
    have hlen : escapeLength (c :: cs ++ ')' :: tail) = (cs.length + (k + 1)) + 1 + 1 := by
      rw [hk, List.length_cons]
      omega
    rw [hlen, List.cons_append, List.take_succ_cons, List.tail_cons, Nat.add_assoc, List.take_length_add_append]
    exact List.mem_append_right _ List.mem_cons_self

lemma quotedFrom_header (hp : passed ≤ cs.length + 1)
    (h : quotedFrom passed (cs ++ ')' :: '\n' :: tail) = some (units, rest)) :
    ∃ ds, rest = ds ++ ')' :: '\n' :: tail := by
  induction cs generalizing passed units with
  | nil =>
    cases passed with
    | zero => cases h
    | succ passed =>
      obtain rfl : passed = 0 := by simpa using hp
      cases h
  | cons c cs ih =>
    cases passed with
    | succ passed => exact ih (Nat.le_of_succ_le_succ hp) h
    | zero =>
      by_cases hq : c = '\x27'
      · subst hq
        cases h
        exact ⟨cs, rfl⟩
      by_cases hb : c = '\\'
      · subst hb
        rw [List.cons_append, quotedFrom] at h
        split at h
        · next hw =>
          obtain ⟨vs, hv, rfl⟩ := prepend_eq_some h
          exact ih (escapeLength_le hw) hv
        · cases h
      · rw [List.cons_append, quotedFrom] at h
        · split at h
          · cases h
          · obtain ⟨vs, hv, rfl⟩ := prepend_eq_some h
            exact ih (Nat.zero_le _) hv
        · exact hq
        · exact hb

lemma plain_of_quotedFrom (h : quotedFrom 0 (cs ++ '\x27' :: ')' :: '\n' :: tail) = some (unitsOf cs, rest)) :
    Plain cs := by
  have hcs : cs ++ '\x27' :: ')' :: '\n' :: tail = (cs ++ ['\x27']) ++ ')' :: '\n' :: tail := by simp
  obtain ⟨body, hbody, _, hl, hplain⟩ := quotedFrom_length h
  obtain ⟨ds, rfl⟩ := quotedFrom_header (Nat.zero_le _) (hcs ▸ h)
  have hend : cs ++ ['\x27'] = body ++ '\x27' :: ds := by
    refine (List.append_left_inj (')' :: '\n' :: tail)).mp ?_
    rw [← hcs, hbody, List.append_assoc, List.cons_append]
  have hlen := congrArg List.length hend
  simp only [List.length_append, List.length_cons, List.length_nil] at hlen
  obtain ⟨more, rfl⟩ : body <+: cs :=
    List.prefix_of_prefix_length_le ⟨_, hend.symm⟩ (List.prefix_append _ _) (by omega)
  have hmore := length_le_units more
  rw [List.drop_zero] at hl hplain
  rw [unitsOf_append, List.length_append] at hl hplain
  obtain rfl : more = [] := List.eq_nil_of_length_eq_zero (by omega)
  rw [List.append_nil]
  exact hplain rfl

lemma requiredModule_header (target : Target) (rest : String) : requiredModule? target.handle (target.header ++ rest) =
    match quotedFrom 0 (target.runtimeModule.toList ++ '\x27' :: ')' :: '\n' :: rest.toList) with
    | some (units, ')' :: _) => some units
    | _ => none := by
  have hstart : target.header ++ rest = "const " ++ target.handle ++ " = require('" ++
      (target.runtimeModule ++ ("')\n" ++ rest)) := by
    simp only [Target.header, String.append_assoc]
  rw [requiredModule?, textAfter?_eq_some.mpr hstart]
  simp only [String.toList_append]
  rfl

lemma requiredModule_iff (target : Target) (rest : String) :
    requiredModule? target.handle (target.header ++ rest) = some (unitsOf target.runtimeModule.toList) ↔
      Plain target.runtimeModule.toList := by
  rw [requiredModule_header]
  constructor
  · intro h
    split at h
    · next hr =>
      obtain rfl := Option.some.inj h
      exact plain_of_quotedFrom hr
    · cases h
  · intro h
    rw [quotedFrom_plain h]
    rfl

lemma header_of_translate {text js : String} (h : translateText target text = .ok js) :
    ∃ rest, js = target.header ++ rest := by
  obtain ⟨p, _, hp⟩ := translateText_eq_ok.mp h
  obtain ⟨_, rfl⟩ := translate_eq_ok.mp hp
  simp only [ProgramOutline.text, String.append_assoc]
  exact ⟨_, rfl⟩

lemma requiredModule_of_requests {text js : String} (hm : Requests m target) (ht : translateText target text = .ok js) :
    requiredModule? target.handle js = some (unitsOf m.toList) ↔ Plain m.toList := by
  obtain ⟨rest, rfl⟩ := header_of_translate ht
  obtain rfl := runtimeModule_of_requests hm
  exact requiredModule_iff target rest

/-- The script requires the module that was asked for if and only if its name is plain, and then no other plain
name leads to the same module. -/
theorem required_iff_plain {text js : String} (hm : Requests m target) (ht : translateText target text = .ok js) :
    (requiredModule? target.handle js = some (unitsOf m.toList) ↔ Plain m.toList) ∧
      ∀ {m' text' js' : String} {target' : Target}, Requests m' target' → translateText target' text' = .ok js' →
        Plain m.toList → Plain m'.toList →
        requiredModule? target'.handle js' = requiredModule? target.handle js → m' = m := by
  refine ⟨requiredModule_of_requests hm ht, fun hm' ht' hplain hplain' he => ?_⟩
  rw [(requiredModule_of_requests hm ht).mpr hplain, (requiredModule_of_requests hm' ht').mpr hplain'] at he
  exact String.toList_injective (unitsOf_injective (Option.some.inj he))

def windowsModule : String :=
  ".\\lib.js"

def windowsScript : String :=
  "const r = require('.\\lib.js')\nr.emit('_start', undefined)\n"

theorem required_windowsModule :
    ∃ o, Request.ofArguments ["--runtime-module", windowsModule] = .run o ∧
      translateText (o.target []) "" = .ok windowsScript ∧ ¬ Plain windowsModule.toList ∧
        requiredModule? "r" windowsScript = some (unitsOf ".lib.js".toList) ∧
          requiredModule? "r" windowsScript ≠ some (unitsOf windowsModule.toList) := by
  have hr : Request.ofArguments ([] ++ (["--runtime-module", windowsModule] ++ [])) =
      .run { Options.initial with runtimeModule := some windowsModule } := rfl
  have hx : translateText (Options.target { Options.initial with runtimeModule := some windowsModule } []) "" =
      .ok windowsScript := by decide +kernel
  have hm := Requests.command [] List.not_mem_nil List.mem_cons_self hr
  have hn : ¬ Plain windowsModule.toList := fun h => (h '\\' (by decide)).2.1 rfl
  exact ⟨_, hr, hx, hn, by decide +kernel, mt (required_iff_plain hm hx).1.mp hn⟩

example : requiredModule? "r" "const r = require('it's')\n" = none := by
  decide +kernel

end AmmCompiler
