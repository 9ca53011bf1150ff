import AmmCompiler.Proofs.Grammar.Sight
import AmmCompiler.Proofs.Grammar.Syntax

/-! The answer of a reader, a failure included, depends only on the text up to where it stops and on what
it sees there. -/

namespace AmmCompiler.Source

open Text

class Answer (β : Type) where
  rest : β → List Char
  leave : β → List Char → β
  leave_rest : ∀ b, leave b (rest b) = b
  rest_leave : ∀ b r, rest (leave b r) = r
  leave_leave : ∀ b r r', leave (leave b r) r' = leave b r'

instance : Answer (List Char) := ⟨id, fun _ r => r, fun _ => rfl, fun _ _ => rfl, fun _ _ _ => rfl⟩

instance {α : Type} : Answer (α × List Char) :=
  ⟨Prod.snd, fun b r => (b.1, r), fun _ => rfl, fun _ _ => rfl, fun _ _ _ => rfl⟩

open Answer

structure SameSpot (r r' : List Char) : Prop where
  head : r.head? = r'.head?
  alike : Alike r r'
  solid : skipGap r' = r'

def StartsWord (w : String) (r : List Char) : Prop :=
  ∃ s, r = w.toList ++ s ∧ ∀ c ∈ s.head?, ¬ isNamePart c

/-- What is left of the text where a reader fails. -/
def Spotted : Fault → List Char → Prop
  | .functionKeyword w, r => IsName w.toList ∧ StartsWord w r
  | .itemKeyword w, r => IsName w.toList ∧ StartsWord w r
  | .digits, _ => True
  | .openString, _ => True
  | _, r => skipGap r = r

def SameFault : Fault → List Char → List Char → Prop
  | .functionKeyword w, _, r' => StartsWord w r'
  | .itemKeyword w, _, r' => StartsWord w r'
  | .digits, r, r' => r.head? = r'.head? ∧ (skipGap r = r → SameSpot r r')
  | .openString, _, _ => False
  | _, r, r' => SameSpot r r'

structure Steady {β : Type} [Answer β] (R : List Char → List Char → Prop) (p : List Char → Except Failure β) :
    Prop where
  suffix_ok : ∀ ⦃cs b⦄, p cs = .ok b → rest b <:+ cs
  suffix_error : ∀ ⦃cs f⦄, p cs = .error f → f.rest <:+ cs
  spotted : ∀ ⦃cs f⦄, p cs = .error f → Spotted f.fault f.rest
  ok : ∀ ⦃w r r' b⦄, p (w ++ r) = .ok b → rest b = r → Alike r r' →
    p (w ++ r') = .ok (leave b r') ∧ R (w ++ r) (w ++ r')
  error : ∀ ⦃w r r' fault⦄, p (w ++ r) = .error ⟨r, fault⟩ → SameFault fault r r' →
    p (w ++ r') = .error ⟨r', fault⟩ ∧ R (w ++ r) (w ++ r')

variable {α β γ : Type} {w r r' cs rest : List Char} {c : Char}

lemma SameSpot.skipGap (h : SameSpot r r') (hw : skipGap (w ++ r) = r) :
    Source.skipGap (w ++ r') = r' ∧ SameStart (w ++ r) (w ++ r') := by
  cases r with
  | nil =>
    obtain rfl := List.head?_eq_none_iff.mp h.head.symm
    exact ⟨hw, .refl _⟩
  | cons c s =>
    obtain ⟨g, hg, he⟩ := exists_gap hw
    obtain rfl := List.append_cancel_right he
    have hs : SameStart (c :: s) r' := by
      refine ⟨h.alike, ?_⟩
      rw [h.solid, ← h.head, ← skipGap_append hg, hw]
    exact ⟨by rw [skipGap_append hg, h.solid], hs.gap hg⟩

lemma skipGap_solid_token {u : List Char} (h : skipGap (w ++ r) = u ++ r) (hne : u ≠ [])
    (hs : SameStart (u ++ r) (u ++ r') ∧ skipGap (u ++ r') = u ++ r') :
    skipGap (w ++ r') = u ++ r' ∧ SameStart (w ++ r) (w ++ r') := by
  obtain ⟨c, q, rfl⟩ := List.exists_cons_of_ne_nil hne
  obtain ⟨g, hg, he⟩ := exists_gap h
  have hw : w = g ++ c :: q := by
    rw [← List.append_left_inj r]
    simpa using he
  subst hw
  have hstart := hs.1.gap hg
  rw [List.append_assoc, List.append_assoc, skipGap_append hg]
  exact ⟨hs.2, hstart⟩

lemma skipGap_token {q : List Char} (h : skipGap (w ++ r) = c :: (q ++ r)) (hc : Opens c) (r' : List Char) :
    skipGap (w ++ r') = c :: (q ++ r') ∧ SameStart (w ++ r) (w ++ r') :=
  skipGap_solid_token (u := c :: q) h (List.cons_ne_nil c q)
    ⟨hc.sameStart _ _, skipGap_solid hc.1 hc.2.1 _⟩

lemma map_eq_error {ε : Type} {x : Except ε α} {f : α → β} {e : ε} :
    (do return f (← x)) = Except.error e ↔ x = .error e := by
  cases x with
  | error e' => simp [bind, Except.bind]
  | ok a => simp [bind, Except.bind, pure, Except.pure]

lemma bind_eq_error {ε : Type} {x : Except ε α} {f : α → Except ε β} {e : ε} :
    (x >>= f) = .error e ↔ x = .error e ∨ ∃ a, x = .ok a ∧ f a = .error e := by
  cases x with
  | error e' => simp [bind, Except.bind]
  | ok a => simp [bind, Except.bind]

lemma Steady.alike [Answer β] {p : List Char → Except Failure β} (h : Steady SameStart p) : Steady Alike p where
  suffix_ok := h.suffix_ok
  suffix_error := h.suffix_error
  spotted := h.spotted
  ok _ _ _ _ hp hr ha := ⟨(h.ok hp hr ha).1, (h.ok hp hr ha).2.toAlike⟩
  error _ _ _ _ hp hs := ⟨(h.error hp hs).1, (h.error hp hs).2.toAlike⟩

lemma Steady.congr [Answer β] {R : List Char → List Char → Prop} {p q : List Char → Except Failure β}
    (h : Steady R p) (he : ∀ cs, q cs = p cs) : Steady R q := by
  rwa [funext he]

lemma Steady.reach [Answer β] {R : List Char → List Char → Prop} {p : List Char → Except Failure β}
    (hp : Steady R p) {u : List Char} {b : β} (h : p (w ++ r) = .ok b) (hu : Answer.rest b = u ++ r)
    (hs : Alike (u ++ r) (u ++ r')) : p (w ++ r') = .ok (leave b (u ++ r')) ∧ R (w ++ r) (w ++ r') := by
  obtain ⟨v, hv⟩ := hp.suffix_ok h
  rw [hu, ← List.append_assoc] at hv
  obtain rfl := List.append_cancel_right hv
  rw [List.append_assoc] at h ⊢
  rw [List.append_assoc]
  exact hp.ok h hu hs

lemma Steady.bind [Answer β] [Answer γ] {R : List Char → List Char → Prop} {p : List Char → Except Failure β}
    {q : β → Except Failure γ} (hp : Steady R p) (hq : ∀ b, Steady Alike fun cs => q (leave b cs)) :
    Steady R fun cs => p cs >>= q := by
  have hrest (b : β) : q (leave b (Answer.rest b)) = q b := by rw [leave_rest]
  constructor
  · intro cs b h
    obtain ⟨a, ha, hb⟩ := bind_eq_ok.mp h
    rw [← hrest] at hb
    exact ((hq a).suffix_ok hb).trans (hp.suffix_ok ha)
  · intro cs f h
    rcases bind_eq_error.mp h with h | ⟨a, ha, hf⟩
    · exact hp.suffix_error h
    · rw [← hrest] at hf
      exact ((hq a).suffix_error hf).trans (hp.suffix_ok ha)
  · intro cs f h
    rcases bind_eq_error.mp h with h | ⟨a, ha, hf⟩
    · exact hp.spotted h
    · rw [← hrest] at hf
      exact (hq a).spotted hf
  · intro w r r' b h hr hs
    -- What `p` leaves is the part `u` that `q` takes, with `r` behind it.
    obtain ⟨a, ha, hb⟩ := bind_eq_ok.mp h
    rw [← hrest] at hb
    obtain ⟨u, hu⟩ := (hq a).suffix_ok hb
    rw [hr] at hu
    rw [← hu] at hb
    obtain ⟨hqr, hsight⟩ := (hq a).ok hb hr hs
    obtain ⟨hpr, hR⟩ := hp.reach ha hu.symm hsight
    exact ⟨bind_eq_ok.mpr ⟨_, hpr, hqr⟩, hR⟩
  · intro w r r' fault h hs
    rcases bind_eq_error.mp h with h | ⟨a, ha, hf⟩
    · obtain ⟨hpr, hR⟩ := hp.error h hs
      exact ⟨bind_eq_error.mpr (.inl hpr), hR⟩
    · rw [← hrest] at hf
      obtain ⟨u, hu⟩ := (hq a).suffix_error hf
      rw [← hu] at hf
      obtain ⟨hqr, hsight⟩ := (hq a).error hf hs
      obtain ⟨hpr, hR⟩ := hp.reach ha hu.symm hsight
      exact ⟨bind_eq_error.mpr (.inr ⟨_, hpr, hqr⟩), hR⟩

lemma steady_ok [Answer β] (b : β) : Steady Alike fun cs => (.ok (leave b cs) : Except Failure β) := by
  constructor
  · intro cs b' h
    obtain rfl := Except.ok.inj h
    exact ⟨[], rest_leave b cs⟩
  · intro cs f h
    cases h
  · intro cs f h
    cases h
  · intro w r r' b' h hr hs
    obtain rfl := Except.ok.inj h
    rw [rest_leave] at hr
    obtain rfl : w = [] := List.append_left_eq_self.mp hr
    rw [leave_leave]
    exact ⟨rfl, hs⟩
  · intro w r r' fault h
    cases h

lemma Steady.map {R : List Char → List Char → Prop} {p : Reader α} (hp : Steady R p) (f : α → γ) :
    Steady R fun cs => do
      let (a, rest) ← p cs
      return (f a, rest) :=
  hp.bind fun b => steady_ok (f b.1, b.2)

lemma Steady.give {R : List Char → List Char → Prop} {p : Skipper} (hp : Steady R p) (a : α) :
    Steady R fun cs => do
      let rest ← p cs
      return (a, rest) :=
  hp.bind fun _ => steady_ok (a, [])

lemma steady_fail [Answer β] {fault : Fault} (hf : ∀ r r', SameFault fault r r' → SameSpot r r')
    (hs : ∀ r, skipGap r = r → Spotted fault r) :
    Steady SameStart fun cs => (.error ⟨skipGap cs, fault⟩ : Except Failure β) := by
  constructor
  · intro cs b h
    cases h
  · intro cs f h
    obtain rfl := Except.error.inj h
    exact skipGap_suffix cs
  · intro cs f h
    obtain rfl := Except.error.inj h
    exact hs _ (skipGap_skipGap cs)
  · intro w r r' b h
    cases h
  · intro w r r' fault' h hr
    obtain ⟨hg, rfl⟩ := Failure.mk.inj (Except.error.inj h)
    obtain ⟨hg', hstart⟩ := (hf r r' hr).skipGap hg
    exact ⟨by rw [hg'], hstart⟩

lemma Steady.ite [Answer β] {R : List Char → List Char → Prop} {p q : List Char → Except Failure β}
    (B : List Char → Prop) [DecidablePred B] (hB : ∀ ⦃cs cs'⦄, R cs cs' → (B cs ↔ B cs'))
    (hp : Steady R p) (hq : Steady R q) : Steady R fun cs => if B cs then p cs else q cs := by
  constructor
  · intro cs b h
    split at h
    · exact hp.suffix_ok h
    · exact hq.suffix_ok h
  · intro cs f h
    split at h
    · exact hp.suffix_error h
    · exact hq.suffix_error h
  · intro cs f h
    split at h
    · exact hp.spotted h
    · exact hq.spotted h
  · intro w r r' b h hr hs
    split at h
    · next hb =>
      obtain ⟨hpr, hR⟩ := hp.ok h hr hs
      exact ⟨by rw [if_pos ((hB hR).mp hb), hpr], hR⟩
    · next hb =>
      obtain ⟨hqr, hR⟩ := hq.ok h hr hs
      exact ⟨by rw [if_neg (mt (hB hR).mpr hb), hqr], hR⟩
  · intro w r r' fault h hs
    split at h
    · next hb =>
      obtain ⟨hpr, hR⟩ := hp.error h hs
      exact ⟨by rw [if_pos ((hB hR).mp hb), hpr], hR⟩
    · next hb =>
      obtain ⟨hqr, hR⟩ := hq.error h hs
      exact ⟨by rw [if_neg (mt (hB hR).mpr hb), hqr], hR⟩

lemma Steady.ite_head [Answer β] {p q : List Char → Except Failure β} (B : Option Char → Prop) [DecidablePred B]
    (hp : Steady SameStart p) (hq : Steady SameStart q) :
    Steady SameStart fun cs => if B (skipGap cs).head? then p cs else q cs :=
  .ite (fun cs => B (skipGap cs).head?) (fun _ _ h => by rw [h.start]) hp hq

lemma name_eq_error {f : Failure} : name cs = .error f ↔
    f = ⟨skipGap cs, .identifier⟩ ∧ ∀ c ∈ (skipGap cs).head?, ¬ isNameStart c := by
  simp only [name]
  cases skipGap cs with
  | nil =>
    constructor
    · intro h
      exact ⟨(Except.error.inj h).symm, fun c hc => by cases hc⟩
    · rintro ⟨rfl, _⟩
      rfl
  | cons d s =>
    dsimp only
    by_cases hd : isNameStart d
    · rw [if_pos hd]
      constructor
      · intro h
        cases h
      · rintro ⟨_, hn⟩
        exact absurd hd (hn d rfl)
    · rw [if_neg hd]
      constructor
      · intro h
        refine ⟨(Except.error.inj h).symm, fun c hc => ?_⟩
        obtain rfl := Option.some.inj hc
        exact hd
      · rintro ⟨rfl, _⟩
        rfl

lemma steady_name : Steady SameStart name := by
  constructor
  · intro cs b h
    exact (name_advances h).1
  · intro cs f h
    obtain ⟨rfl, _⟩ := name_eq_error.mp h
    exact skipGap_suffix cs
  · intro cs f h
    obtain ⟨rfl, _⟩ := name_eq_error.mp h
    exact skipGap_skipGap cs
  · rintro w r r' ⟨word, rest⟩ h rfl hs
    obtain ⟨hw, hg, hr⟩ := skipGap_of_name h
    have hword := hw
    obtain ⟨c, q, he, hc, _⟩ := hword
    rw [he, List.cons_append] at hg
    obtain ⟨hg', hstart⟩ := skipGap_token hg (opens_of_isNameStart hc) r'
    rw [← List.cons_append, ← he] at hg'
    exact ⟨name_of_skipGap hg' hw (hs.not_part hr), hstart⟩
  · intro w r r' fault h hs
    obtain ⟨he, hc⟩ := name_eq_error.mp h
    obtain ⟨hr, rfl⟩ := Failure.mk.inj he
    obtain ⟨hg, hstart⟩ := SameSpot.skipGap hs hr.symm
    exact ⟨name_eq_error.mpr ⟨by rw [hg], hstart.start ▸ hc⟩, hstart⟩

lemma symbol_eq_error {f : Failure} : symbol c cs = .error f ↔
    f = ⟨skipGap cs, .symbol c⟩ ∧ (skipGap cs).head? ≠ some c := by
  rw [← symbol?_eq_none]
  simp only [symbol]
  split
  · next h => simp [h]
  · next h => simp [h, eq_comm]

lemma steady_symbol (c : Char) (hc : Opens c) : Steady SameStart (symbol c) := by
  constructor
  · intro cs b h
    exact (symbol_skips c h).1
  · intro cs f h
    obtain ⟨rfl, _⟩ := symbol_eq_error.mp h
    exact skipGap_suffix cs
  · intro cs f h
    obtain ⟨rfl, _⟩ := symbol_eq_error.mp h
    exact skipGap_skipGap cs
  · rintro w r r' b h rfl _
    have hg := skipGap_of_symbol? (symbol_eq_ok.mp h)
    obtain ⟨hg', hstart⟩ := skipGap_token (q := []) hg hc r'
    refine ⟨symbol_eq_ok.mpr ?_, hstart⟩
    simp only [symbol?, hg', if_pos]
    rfl
  · intro w r r' fault h hs
    obtain ⟨he, hne⟩ := symbol_eq_error.mp h
    obtain ⟨hr, rfl⟩ := Failure.mk.inj he
    obtain ⟨hg, hstart⟩ := SameSpot.skipGap hs hr.symm
    exact ⟨symbol_eq_error.mpr ⟨by rw [hg], hstart.start ▸ hne⟩, hstart⟩

lemma string_eq_error {f : Failure} : string cs = .error f ↔ f = ⟨cs, .openString⟩ ∧ closeString cs.tail = none := by
  simp only [string]
  split
  · next h => simp [h]
  · next h => simp [h, eq_comm]

lemma steady_string : Steady SameStart fun cs => string (skipGap cs) := by
  constructor
  · rintro cs ⟨t, rest⟩ h
    cases hg : skipGap cs with
    | nil =>
      rw [hg] at h
      cases h
    | cons c r =>
      rw [hg] at h
      exact ((string_past h).of_suffix (hg ▸ skipGap_suffix cs)).1
  · intro cs f h
    obtain ⟨rfl, _⟩ := string_eq_error.mp h
    exact skipGap_suffix cs
  · intro cs f h
    obtain ⟨rfl, _⟩ := string_eq_error.mp h
    trivial
  · rintro w r r' ⟨t, rest⟩ h rfl _
    change string (skipGap (w ++ rest)) = .ok (t, rest) at h
    change string (skipGap (w ++ r')) = .ok (t, r') ∧ _
    have ht : ∃ c b, StringBody b ∧ skipGap (w ++ rest) = c :: (b ++ rest) ∧ t = .ofList (c :: b) := by
      cases hg : skipGap (w ++ rest) with
      | nil =>
        rw [hg] at h
        cases h
      | cons c q =>
        rw [hg] at h
        simp only [string, List.tail_cons] at h
        split at h
        · next e he =>
          simp only [Except.ok.injEq, Prod.mk.injEq] at h
          obtain ⟨rfl, rfl⟩ := h
          obtain ⟨b, hb, rfl⟩ := body_of_closeString he
          exact ⟨c, b, hb, rfl, by rw [← List.cons_append, consumed_append]⟩
        · cases h
    obtain ⟨c, b, hb, hg, rfl⟩ := ht
    obtain ⟨d, q, rfl⟩ : ∃ d q, b = d :: q := by
      cases hb with
      | close => exact ⟨_, _, rfl⟩
      | escape _ => exact ⟨_, _, rfl⟩
      | plain _ _ _ => exact ⟨_, _, rfl⟩
    have hsolid : skipGap (c :: d :: (q ++ rest)) = c :: d :: (q ++ rest) := by
      have hs := skipGap_skipGap (w ++ rest)
      rwa [hg] at hs
    obtain ⟨hg', hstart⟩ := skipGap_solid_token (u := c :: d :: q) hg (List.cons_ne_nil _ _)
      (sameStart_pair hsolid (q ++ r'))
    refine ⟨?_, hstart⟩
    have hclose : closeString (c :: d :: q ++ r').tail = some r' := closeString_append hb r'
    simp only [hg', string, hclose, consumed_append]
  · intro w r r' fault h hs
    obtain ⟨he, _⟩ := string_eq_error.mp h
    obtain ⟨_, rfl⟩ := Failure.mk.inj he
    exact absurd hs id

lemma number_eq_error {f : Failure} : number cs = .error f ↔
    f = ⟨unsigned cs, .digits⟩ ∧ startsWithDigit (unsigned cs) = false := by
  simp only [number]
  split
  · next h => simp [h]
  · next h => simp [h, eq_comm]

lemma dropWhile_digit : cs.dropWhile Char.isDigit = cs ↔ startsWithDigit cs = false := by
  cases cs with
  | nil => simp [startsWithDigit]
  | cons c r =>
    rw [startsWithDigit]
    by_cases hc : c.isDigit
    · simp only [List.dropWhile_cons_of_pos hc, hc, Bool.true_eq_false, iff_false]
      intro he
      have hl := (List.dropWhile_suffix Char.isDigit (l := r)).length_le
      rw [he, List.length_cons] at hl
      omega
    · simp [List.dropWhile_cons_of_neg hc, hc]

lemma skipFraction_eq_self : skipFraction cs = cs ↔ (cs.head? = some '.' → startsWithDigit cs.tail = false) := by
  unfold skipFraction
  split
  · next c r =>
    simp only [List.head?_cons, List.tail_cons, startsWithDigit, forall_const]
    by_cases hc : c.isDigit
    · simp only [hc, if_true, Bool.true_eq_false, iff_false]
      intro he
      have hl := (List.dropWhile_suffix Char.isDigit (l := r)).length_le
      rw [he, List.length_cons, List.length_cons] at hl
      omega
    · simp [hc]
  · next h =>
    refine iff_of_true rfl fun hp => ?_
    obtain ⟨r, rfl⟩ := List.head?_eq_some_iff.mp hp
    cases r with
    | nil => rfl
    | cons c r => exact absurd rfl (h c r)

lemma skip_alike {u : List Char} (hu : IsUnsigned u) (h : skipFraction ((u ++ r).dropWhile Char.isDigit) = r)
    (hd : startsWithDigit r = startsWithDigit r')
    (hp : r'.head? = some '.' → r.head? = some '.' ∧ startsWithDigit r.tail = startsWithDigit r'.tail) :
    skipFraction ((u ++ r').dropWhile Char.isDigit) = r' := by
  rcases hu with ⟨_, hdig⟩ | ⟨d, e, rfl, ⟨_, hdig⟩, he⟩
  · rw [List.dropWhile_append_of_pos hdig] at h ⊢
    have hdrop : r.dropWhile Char.isDigit = r := by
      refine (List.dropWhile_suffix _).eq_of_length_le ?_
      conv_lhs => rw [← h]
      exact (skipFraction_suffix _).length_le
    rw [hdrop, skipFraction_eq_self] at h
    rw [dropWhile_digit, hd] at hdrop
    rw [dropWhile_digit.mpr hdrop, skipFraction_eq_self]
    intro hpoint
    obtain ⟨hpoint', htail⟩ := hp hpoint
    rw [← htail, h hpoint']
  · obtain ⟨c, q, rfl, hc⟩ := he.head
    have hpoint (x : List Char) : skipFraction ((d ++ '.' :: c :: q ++ x).dropWhile Char.isDigit) =
        x.dropWhile Char.isDigit := by
      rw [List.append_assoc, List.dropWhile_append_of_pos hdig, List.cons_append, List.cons_append,
        List.dropWhile_cons_of_neg (by decide), skipFraction, if_pos hc]
      exact List.dropWhile_append_of_pos fun y hy => he.2 y (List.mem_cons_of_mem c hy)
    rw [hpoint, dropWhile_digit] at h ⊢
    rwa [← hd]

lemma unsigned_eq_self : unsigned cs = cs ↔ cs.head? ≠ some '-' := by
  unfold unsigned
  split
  · simp
  · next h =>
    refine iff_of_true rfl fun he => ?_
    obtain ⟨r, rfl⟩ := List.head?_eq_some_iff.mp he
    exact h r rfl

lemma steady_number : Steady SameStart fun cs => number (skipGap cs) := by
  constructor
  · rintro cs ⟨t, rest⟩ h
    exact (number_advances h).1.trans (skipGap_suffix cs)
  · intro cs f h
    obtain ⟨rfl, _⟩ := number_eq_error.mp h
    exact (unsigned_suffix _).trans (skipGap_suffix cs)
  · intro cs f h
    obtain ⟨rfl, _⟩ := number_eq_error.mp h
    trivial
  · rintro w r r' ⟨t, rest⟩ h rfl hs
    change number (skipGap (w ++ rest)) = .ok (t, rest) at h
    change number (skipGap (w ++ r')) = .ok (t, r') ∧ _
    obtain ⟨ht, hg⟩ := isNumber_of_number h
    obtain ⟨c, q, he, hc⟩ := ht.head
    rw [hg] at h
    rw [he, List.cons_append] at hg
    obtain ⟨hg', hstart⟩ := skipGap_token hg (opens_of_number hc) r'
    rw [← List.cons_append, ← he] at hg'
    refine ⟨?_, hstart⟩
    obtain ⟨u, hu, hun⟩ := unsigned_append ht
    simp only [number, hun, if_pos (startsWithDigit_unsigned hu _), Except.ok.injEq, Prod.mk.injEq] at h
    have hpoint (he : r'.head? = some '.') :
        rest.head? = some '.' ∧ startsWithDigit rest.tail = startsWithDigit r'.tail :=
      ⟨(hs.head '.' (by decide)).mpr he, hs.fraction ((hs.head '.' (by decide)).mpr he)⟩
    simp only [hg', number, hun, if_pos (startsWithDigit_unsigned hu _), skip_alike hu h.2 hs.digit hpoint,
      consumed_append, String.ofList_toList]
  · intro w r r' fault h hs
    obtain ⟨he, hd⟩ := number_eq_error.mp h
    obtain ⟨hr, rfl⟩ := Failure.mk.inj he
    obtain ⟨hhead, hsolid⟩ := hs
    have hd' : startsWithDigit r' = false := by
      rw [← hr] at hd
      rw [Bool.eq_false_iff, ne_eq, startsWithDigit_iff] at hd ⊢
      rwa [← hhead]
    rcases unsigned_eq (skipGap (w ++ r)) with hu | hu
    · rw [hu] at hr
      obtain ⟨hg, hstart⟩ := SameSpot.skipGap (hsolid (hr ▸ skipGap_skipGap _)) hr.symm
      refine ⟨number_eq_error.mpr ?_, hstart⟩
      have hun : unsigned r' = r' := by
        rw [unsigned_eq_self, ← hhead, hr, ← unsigned_eq_self, hu]
      rw [hg, hun]
      exact ⟨rfl, hd'⟩
    · rw [← hr] at hu
      obtain ⟨hg, hstart⟩ := skipGap_token (q := []) hu (opens_of_number (.inr rfl)) r'
      refine ⟨number_eq_error.mpr ?_, hstart⟩
      rw [hg, List.nil_append, unsigned]
      exact ⟨rfl, hd'⟩

lemma exitEnd_error {f : Failure} (h : exitEnd cs = .error f) :
    ∃ u r, Unbroken u ∧ cs = u ++ '"' :: r ∧ closeString r = none ∧ f = ⟨'"' :: r, .openString⟩ := by
  induction hn : cs.length using Nat.strong_induction_on generalizing cs with
  | _ n ih =>
    subst hn
    rw [exitEnd_eq] at h
    unfold exitEndWith at h
    split at h
    case h_5 r =>
      split at h
      · next r' hr =>
        have hl := (closeString_suffix hr).length_le
        obtain ⟨b, hb, rfl⟩ := body_of_closeString hr
        obtain ⟨u, q, hu, he, hf⟩ := ih _ (by rw [List.length_cons]; omega) h rfl
        exact ⟨'"' :: (b ++ u), q, .string hb hu, by rw [he]; simp, hf⟩
      · next hr =>
        obtain rfl := Except.error.inj h
        exact ⟨[], r, .nil, rfl, hr, rfl⟩
    case h_6 c r hn hb hs hq =>
      obtain ⟨u, q, hu, he, hf⟩ := ih _ (by rw [List.length_cons]; omega) h rfl
      refine ⟨c :: u, q, .plain hn hb hq ?_ hu, by rw [he]; rfl, hf⟩
      rintro ⟨rfl, hh⟩
      obtain ⟨u, rfl⟩ := List.head?_eq_some_iff.mp hh
      exact hs _ rfl he
    all_goals cases h

lemma exit_eq_error {u : List Char} {f : Failure} : exit u cs = .error f ↔ exitEnd cs = .error f := by
  rw [exit]
  exact map_eq_error

lemma steady_exit (u : List Char) : Steady Alike fun cs => exit (u ++ cs) cs := by
  constructor
  · rintro cs ⟨s, rest⟩ h
    exact exit_suffix h
  · intro cs f h
    obtain ⟨v, _, _, rfl, _, rfl⟩ := exitEnd_error (exit_eq_error.mp h)
    exact List.suffix_append v _
  · intro cs f h
    obtain ⟨_, _, _, _, _, rfl⟩ := exitEnd_error (exit_eq_error.mp h)
    trivial
  · rintro w r r' ⟨s, rest⟩ h rfl hs
    change exit (u ++ (w ++ rest)) (w ++ rest) = .ok (s, rest) at h
    change exit (u ++ (w ++ r')) (w ++ r') = .ok (s, r') ∧ _
    simp only [exit, bind_eq_ok, pure_eq_ok, Prod.mk.injEq] at h
    obtain ⟨e, he, rfl, rfl⟩ := h
    obtain ⟨v, hv, hw, hstop, hl⟩ := scanned_of_exitEnd he
    obtain rfl := List.append_cancel_right hw
    have hl' : w.getLast? = some '/' → r'.head? ≠ some '/' :=
      fun hlast hr => hl hlast ((hs.head '/' (by decide)).mpr hr)
    refine ⟨?_, hs.fragment hv hl⟩
    rw [exit, exitEnd_append hv hl', exitEnd_stops (hs.stops.mp hstop), ← List.append_assoc,
      ← List.append_assoc, consumed_append]
    simp only [bind, Except.bind, consumed_append]
    rfl
  · intro w r r' fault h hs
    obtain ⟨_, _, _, _, _, hf⟩ := exitEnd_error (exit_eq_error.mp h)
    obtain ⟨_, rfl⟩ := Failure.mk.inj hf
    exact absurd hs id

def byWord {β : Type} (k : String → Option (List Char → Except Failure β)) (m : String → Fault) (cs : List Char) :
    Except Failure β := do
  let (word, rest) ← name cs
  match k word with
  | some p => p rest
  | none => .error ⟨skipGap cs, m word⟩

lemma Steady.word [Answer β] (k : String → Option (List Char → Except Failure β)) (m : String → Fault)
    (hk : ∀ word p, k word = some p → Steady Alike p)
    (hmk : ∀ word, SameFault (m word) = fun _ r' => StartsWord word r')
    (hs : ∀ word r, IsName word.toList → StartsWord word r → Spotted (m word) r) : Steady SameStart (byWord k m) := by
  constructor
  · intro cs b h
    obtain ⟨⟨word, rest⟩, hn, h⟩ := bind_eq_ok.mp h
    dsimp only at h
    split at h
    · next p hp => exact ((hk word p hp).suffix_ok h).trans (name_advances hn).1
    · cases h
  · intro cs f h
    rcases bind_eq_error.mp h with h | ⟨⟨word, rest⟩, hn, h⟩
    · exact steady_name.suffix_error h
    · dsimp only at h
      split at h
      · next p hp => exact ((hk word p hp).suffix_error h).trans (name_advances hn).1
      · obtain rfl := Except.error.inj h
        exact skipGap_suffix cs
  · intro cs f h
    rcases bind_eq_error.mp h with h | ⟨⟨word, rest⟩, hn, h⟩
    · exact steady_name.spotted h
    · dsimp only at h
      split at h
      · next p hp => exact (hk word p hp).spotted h
      · obtain rfl := Except.error.inj h
        obtain ⟨hw, hg, hr⟩ := skipGap_of_name hn
        exact hs word _ hw ⟨rest, hg, hr⟩
  · intro w r r' b h hr hsight
    obtain ⟨⟨word, rest⟩, hn, h⟩ := bind_eq_ok.mp h
    dsimp only at h
    split at h
    · next p hp =>
      obtain ⟨u, rfl⟩ := hr ▸ (hk word p hp).suffix_ok h
      obtain ⟨hpr, hs⟩ := (hk word p hp).ok h hr hsight
      obtain ⟨hn', hR⟩ := steady_name.reach hn rfl hs
      refine ⟨bind_eq_ok.mpr ⟨_, hn', ?_⟩, hR⟩
      change (match k word with
        | some p => p (u ++ r')
        | none => .error ⟨skipGap (w ++ r'), m word⟩) = _
      rw [hp]
      exact hpr
    · cases h
  · intro w r r' fault h hsame
    rcases bind_eq_error.mp h with h | ⟨⟨word, rest⟩, hn, h⟩
    · obtain ⟨hn', hR⟩ := steady_name.error h hsame
      exact ⟨bind_eq_error.mpr (.inl hn'), hR⟩
    · dsimp only at h
      split at h
      · next p hp =>
        obtain ⟨u, rfl⟩ := (hk word p hp).suffix_error h
        obtain ⟨hpr, hs⟩ := (hk word p hp).error h hsame
        obtain ⟨hn', hR⟩ := steady_name.reach hn rfl hs
        refine ⟨bind_eq_error.mpr (.inr ⟨_, hn', ?_⟩), hR⟩
        change (match k word with
          | some p => p (u ++ r')
          | none => .error ⟨skipGap (w ++ r'), m word⟩) = _
        rw [hp]
        exact hpr
      · next hnone =>
        obtain ⟨hg, rfl⟩ := Failure.mk.inj (Except.error.inj h)
        rw [hmk] at hsame
        obtain ⟨s, rfl, hs⟩ := hsame
        obtain ⟨hw, he, _⟩ := skipGap_of_name hn
        have hword := hw
        obtain ⟨c, q, hcq, hc, _⟩ := hword
        obtain rfl : r = word.toList ++ rest := hg.symm.trans he
        rw [← List.append_assoc, hcq, List.cons_append] at he
        obtain ⟨hg', hR⟩ := skipGap_token he (opens_of_isNameStart hc) s
        rw [← List.cons_append, ← hcq, List.append_assoc] at hg'
        rw [← hcq, List.append_assoc, List.append_assoc] at hR
        refine ⟨bind_eq_error.mpr (.inr ⟨_, name_of_skipGap hg' hw hs, ?_⟩), hR⟩
        dsimp only
        rw [hnone, hg']

end AmmCompiler.Source
