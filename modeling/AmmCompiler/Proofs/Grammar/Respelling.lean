import AmmCompiler.Proofs.Grammar.Sight

/-! Texts rewritten without a change to what they say: blanks come in front of newlines, comments are dropped
or replaced, strings get other bodies, and everything else is copied. -/

namespace AmmCompiler.Source

open Text

def Apart (u r : List Char) : Prop :=
  u.getLast? = some '/' → r.head? ≠ some '/'

def EndsLine (r : List Char) : Prop :=
  ∀ c ∈ r.head?, c = '\n'

structure Respelling (φ : List Char → List Char) : Prop where
  nil : φ [] = []
  plain {c : Char} {r : List Char} : c ≠ '\n' → c ≠ '"' → ¬ (c = '/' ∧ r.head? = some '/') →
    φ (c :: r) = c :: φ r
  newline : ∃ b, (∀ c ∈ b, isBlank c ∧ c ≠ '\n') ∧ ∀ r, φ ('\n' :: r) = b ++ '\n' :: φ r
  comment {body : List Char} : '\n' ∉ body → ∃ e, (e = [] ∨ ∃ body', '\n' ∉ body' ∧ e = '/' :: '/' :: body') ∧
    ∀ r, EndsLine r → φ ('/' :: '/' :: (body ++ r)) = e ++ φ r
  string {b : List Char} : StringBody b → ∃ b', StringBody b' ∧ ∀ r, φ ('"' :: (b ++ r)) = '"' :: (b' ++ φ r)
  openString {r : List Char} : closeString r = none → ∃ r', φ ('"' :: r) = '"' :: r' ∧ closeString r' = none

/-- A text that breaks off neither in a string nor in a comment. -/
inductive Whole : List Char → Prop
  | nil : Whole []
  | plain {c : Char} {r : List Char} : c ≠ '"' → ¬ (c = '/' ∧ r.head? = some '/') → Whole r → Whole (c :: r)
  | comment {body r : List Char} : '\n' ∉ body → Whole r → Whole ('/' :: '/' :: (body ++ '\n' :: r))
  | string {b r : List Char} : StringBody b → Whole r → Whole ('"' :: (b ++ r))

def Passes (cs rest : List Char) : Prop :=
  ∃ u, cs = u ++ rest ∧ (rest = [] ∨ Whole u ∧ Apart u rest)

def IsPlain (c : Char) : Prop :=
  c ≠ '\n' ∧ c ≠ '"' ∧ c ≠ '/'

instance : DecidablePred IsPlain :=
  fun _ => inferInstanceAs (Decidable (_ ∧ _))

variable {φ : List Char → List Char} {cs rest u v w g r : List Char} {c : Char}

lemma endsLine_nil : EndsLine [] :=
  fun _ hc => by cases hc

lemma endsLine_newline (r : List Char) : EndsLine ('\n' :: r) :=
  fun _ hc => (Option.some.inj hc).symm

@[elab_as_elim]
theorem pieces_induction {P : List Char → Prop} (nil : P [])
    (plain : ∀ c r, c ≠ '\n' → c ≠ '"' → ¬ (c = '/' ∧ r.head? = some '/') → P r → P (c :: r))
    (newline : ∀ r, P r → P ('\n' :: r))
    (comment : ∀ body r, '\n' ∉ body → EndsLine r → P r → P ('/' :: '/' :: (body ++ r)))
    (string : ∀ b r, StringBody b → P r → P ('"' :: (b ++ r)))
    (openString : ∀ r, closeString r = none → P ('"' :: r)) (cs : List Char) : P cs := by
  induction hn : cs.length using Nat.strong_induction_on generalizing cs with
  | _ n ih =>
    subst hn
    cases cs with
    | nil => exact nil
    | cons c r =>
      by_cases hnl : c = '\n'
      · subst hnl
        exact newline r (ih _ (Nat.lt_succ_self _) r rfl)
      by_cases hq : c = '"'
      · subst hq
        cases hr : closeString r with
        | none => exact openString r hr
        | some s =>
          obtain ⟨b, hb, rfl⟩ := body_of_closeString hr
          have hl : s.length < ('"' :: (b ++ s)).length := by
            rw [List.length_cons, List.length_append]
            omega
          exact string b s hb (ih _ hl s rfl)
      by_cases hs : c = '/' ∧ r.head? = some '/'
      · obtain ⟨rfl, hr⟩ := hs
        obtain ⟨q, rfl⟩ := List.head?_eq_some_iff.mp hr
        have hp := comment (q.takeWhile (· ≠ '\n')) (q.dropWhile (· ≠ '\n')) ?_ ?_
          (ih _ ?_ _ rfl)
        · rwa [List.takeWhile_append_dropWhile] at hp
        · intro hm
          simpa using List.mem_takeWhile_imp hm
        · intro c hc
          exact head_dropWhile_newline hc
        · have hl := (List.dropWhile_suffix (· ≠ '\n') (l := q)).length_le
          simp only [List.length_cons]
          omega
      · exact plain c r hnl hq hs (ih _ (Nat.lt_succ_self _) r rfl)

lemma Apart.right (h : Apart (u ++ v) r) : Apart v r := by
  intro hv
  apply h
  rw [List.getLast?_append, hv, Option.some_or]

lemma Apart.cons (h : Apart (c :: u) r) (hs : ¬ (c = '/' ∧ u.head? = some '/')) :
    ¬ (c = '/' ∧ (u ++ r).head? = some '/') := by
  rintro ⟨rfl, hr⟩
  cases u with
  | nil => exact h rfl hr
  | cons d u => exact hs ⟨rfl, hr⟩

lemma apart_of_isPlain (h : ∀ c ∈ w, IsPlain c) (r : List Char) : Apart w r :=
  fun he => absurd rfl (h _ (List.mem_of_mem_getLast? he)).2.2

lemma IsPlain.start (h : IsPlain c) (r : List Char) : ¬ (c = '/' ∧ r.head? = some '/') :=
  fun he => h.2.2 he.1

lemma isPlain_of_isBlank (h : isBlank c) (hn : c ≠ '\n') : IsPlain c :=
  ⟨hn, ne_of_isBlank h (by decide), ne_of_isBlank h (by decide)⟩

lemma isPlain_of_isNamePart (h : isNamePart c) : IsPlain c := by
  refine ⟨?_, ?_, ?_⟩
  · rintro rfl
    exact absurd h (by decide)
  · rintro rfl
    exact absurd h (by decide)
  · rintro rfl
    exact absurd h (by decide)

lemma IsName.isPlain (h : IsName w) : ∀ c ∈ w, IsPlain c :=
  fun c hc => isPlain_of_isNamePart (h.all c hc)

lemma isPlain_of_number (h : c.isDigit ∨ c = '.') : IsPlain c := by
  rcases h with h | rfl
  · exact isPlain_of_isNamePart (isNamePart_of_isDigit h)
  · decide

lemma IsUnsigned.isPlain (h : IsUnsigned w) : ∀ c ∈ w, IsPlain c :=
  fun _ hc => isPlain_of_number (h.mem hc)

lemma whole_of_isPlain (h : ∀ c ∈ w, IsPlain c) : Whole w := by
  induction w with
  | nil => exact .nil
  | cons c w ih =>
    have hc := h c List.mem_cons_self
    exact .plain hc.2.1 (hc.start w) (ih fun d hd => h d (List.mem_cons_of_mem c hd))

lemma Whole.append (hu : Whole u) (hv : Whole v) (h : Apart u v) : Whole (u ++ v) := by
  induction hu with
  | nil => exact hv
  | @plain c u hq hs _ ih => exact .plain hq (h.cons hs) (ih (Apart.right (u := [c]) h))
  | @comment body u hb _ ih =>
    have hw := Whole.comment hb (ih (Apart.right (u := '/' :: '/' :: (body ++ ['\n'])) (by simpa using h)))
    simpa using hw
  | @string b u hb _ ih =>
    have hw := Whole.string hb (ih (Apart.right (u := '"' :: b) (by simpa using h)))
    simpa using hw

lemma Gap.whole (h : Gap g) : Whole g := by
  induction h with
  | nil => exact .nil
  | @blank c g hc _ ih =>
    refine .plain (ne_of_isBlank hc (by decide)) ?_ ih
    rintro ⟨rfl, _⟩
    exact absurd hc (by decide)
  | comment hb _ ih => exact .comment hb ih

lemma Gap.last (h : Gap g) : ∀ c ∈ g.getLast?, isBlank c := by
  have hcons {d : Char} {g : List Char} (hd : isBlank d) (hg : ∀ c ∈ g.getLast?, isBlank c) :
      ∀ c ∈ (d :: g).getLast?, isBlank c := by
    intro c hc
    rw [List.getLast?_cons, Option.mem_some_iff] at hc
    cases hl : g.getLast? with
    | none => rwa [← hc, hl]
    | some e =>
      rw [hl, Option.getD_some] at hc
      exact hg c (hc ▸ hl)
  induction h with
  | nil => exact fun _ hc => by cases hc
  | blank hd _ ih => exact hcons hd ih
  | @comment body g _ _ ih =>
    rw [← List.cons_append, ← List.cons_append, List.getLast?_append_cons]
    exact hcons (by decide) ih

lemma Gap.apart (h : Gap g) (r : List Char) : Apart g r :=
  fun hl => absurd (h.last '/' hl) (by decide)

lemma Unbroken.whole (h : Unbroken u) : Whole u := by
  induction h with
  | nil => exact .nil
  | string hb _ ih => exact .string hb ih
  | plain _ _ hq hs _ ih => exact .plain hq hs ih

lemma Passes.refl (cs : List Char) : Passes cs cs :=
  ⟨[], rfl, .inr ⟨.nil, fun h => by cases h⟩⟩

lemma passes_append (hu : Whole u) (h : Apart u rest) : Passes (u ++ rest) rest :=
  ⟨u, rfl, .inr ⟨hu, h⟩⟩

lemma Passes.trans (h : Passes cs rest) (h' : Passes rest r) : Passes cs r := by
  obtain ⟨u, rfl, hu⟩ := h
  obtain ⟨v, rfl, hv⟩ := h'
  refine ⟨u ++ v, by simp, ?_⟩
  rcases hv with rfl | ⟨hv, hvr⟩
  · exact .inl rfl
  rcases hu with he | ⟨hu, huv⟩
  · exact .inl (List.append_eq_nil_iff.mp he).2
  refine .inr ⟨hu.append hv ?_, ?_⟩
  · intro hl hh
    refine huv hl ?_
    rw [List.head?_append, hh, Option.some_or]
  · cases v with
    | nil => simpa using huv
    | cons c v =>
      intro hl
      apply hvr
      rwa [List.getLast?_append_cons] at hl

lemma passes_skipGap (cs : List Char) : Passes cs (skipGap cs) := by
  cases hg : skipGap cs with
  | nil => exact ⟨cs, by simp, .inl rfl⟩
  | cons c r =>
    obtain ⟨g, hgap, rfl⟩ := exists_gap hg
    exact passes_append hgap.whole (hgap.apart _)

lemma passes_plain (h : ∀ c ∈ w, IsPlain c) (hg : skipGap cs = w ++ rest) : Passes cs rest :=
  (passes_skipGap cs).trans (hg ▸ passes_append (whole_of_isPlain h) (apart_of_isPlain h rest))

namespace Respelling

variable (h : Respelling φ)

include h

lemma cons (hc : IsPlain c) (r : List Char) : φ (c :: r) = c :: φ r :=
  h.plain hc.1 hc.2.1 (hc.start r)

lemma append_plain (hw : ∀ c ∈ w, IsPlain c) (r : List Char) : φ (w ++ r) = w ++ φ r := by
  induction w with
  | nil => rfl
  | cons c w ih =>
    rw [List.cons_append, h.cons (hw c List.mem_cons_self), ih fun d hd => hw d (List.mem_cons_of_mem c hd)]
    rfl

lemma of_isPlain (hw : ∀ c ∈ w, IsPlain c) : φ w = w := by
  have he := h.append_plain hw []
  rwa [List.append_nil, h.nil, List.append_nil] at he

lemma append (hu : Whole u) (hr : Apart u r) : φ (u ++ r) = φ u ++ φ r := by
  induction hu with
  | nil => rw [h.nil, List.nil_append, List.nil_append]
  | @plain c u hq hs _ ih =>
    have ih := ih (Apart.right (u := [c]) hr)
    by_cases hn : c = '\n'
    · subst hn
      obtain ⟨b, _, hb⟩ := h.newline
      rw [List.cons_append, hb, hb, ih, List.append_assoc, List.cons_append]
    · rw [List.cons_append, h.plain hn hq (hr.cons hs), h.plain hn hq hs, ih, List.cons_append]
  | @comment body u hb _ ih =>
    have ih := ih (Apart.right (u := '/' :: '/' :: (body ++ ['\n'])) (by simpa using hr))
    obtain ⟨e, _, he⟩ := h.comment hb
    obtain ⟨b, _, hbl⟩ := h.newline
    rw [List.cons_append, List.cons_append, List.append_assoc, List.cons_append, he _ (endsLine_newline _),
      he _ (endsLine_newline _), hbl, hbl, ih]
    simp
  | @string b u hb _ ih =>
    have ih := ih (Apart.right (u := '"' :: b) (by simpa using hr))
    obtain ⟨b', _, he⟩ := h.string hb
    rw [List.cons_append, List.append_assoc, he, he, ih]
    simp

lemma gap (hg : Gap g) : Gap (φ g) := by
  induction hg with
  | nil =>
    rw [h.nil]
    exact .nil
  | @blank c g hc hg ih =>
    by_cases hn : c = '\n'
    · subst hn
      obtain ⟨b, hb, he⟩ := h.newline
      rw [he]
      exact (gap_of_blank fun c hc => (hb c hc).1).append (.blank hc ih)
    · rw [h.cons (isPlain_of_isBlank hc hn)]
      exact .blank hc ih
  | @comment body g hb hg ih =>
    obtain ⟨e, he, heq⟩ := h.comment hb
    obtain ⟨b, hbl, hnl⟩ := h.newline
    have hblank : Gap (b ++ '\n' :: φ g) :=
      (gap_of_blank fun c hc => (hbl c hc).1).append (.blank (by decide) ih)
    rw [heq _ (endsLine_newline g), hnl]
    rcases he with rfl | ⟨body', hb', rfl⟩
    · exact hblank
    · have hbody : '\n' ∉ body' ++ b := List.not_mem_append hb' fun hm => (hbl _ hm).2 rfl
      simpa using Gap.comment hbody ih

lemma head_of (hc : ¬ isBlank c) (hr : (φ r).head? = some c) : r.head? = some c := by
  have hblank {b s : List Char} (hb : ∀ c ∈ b, isBlank c ∧ c ≠ '\n') : (b ++ '\n' :: s).head? ≠ some c := by
    cases b with
    | nil =>
      intro he
      obtain rfl := Option.some.inj he
      exact hc (by decide)
    | cons d b =>
      intro he
      obtain rfl := Option.some.inj he
      exact hc (hb _ List.mem_cons_self).1
  cases r using pieces_induction with
  | nil =>
    rw [h.nil] at hr
    exact hr
  | plain d s hn hq hs =>
    rw [h.plain hn hq hs] at hr
    exact hr
  | newline s =>
    obtain ⟨b, hb, he⟩ := h.newline
    rw [he] at hr
    exact absurd hr (hblank hb)
  | comment body s hb hs =>
    obtain ⟨e, he, heq⟩ := h.comment hb
    rw [heq s hs] at hr
    rcases he with rfl | ⟨body', _, rfl⟩
    · cases s with
      | nil =>
        rw [List.nil_append, h.nil] at hr
        cases hr
      | cons d s =>
        obtain rfl := hs d rfl
        obtain ⟨b, hb, he⟩ := h.newline
        rw [List.nil_append, he] at hr
        exact absurd hr (hblank hb)
    · exact hr
  | string b s hb =>
    obtain ⟨b', _, he⟩ := h.string hb
    rw [he] at hr
    exact hr
  | openString s hs =>
    obtain ⟨s', he, _⟩ := h.openString hs
    rw [he] at hr
    exact hr

lemma start (hb : ¬ isBlank c) (hs : c = '/' → r.head? ≠ some '/') :
    ∃ q, φ (c :: r) = c :: q ∧ (c = '/' → q.head? ≠ some '/') := by
  by_cases hq : c = '"'
  · subst hq
    cases hr : closeString r with
    | none =>
      obtain ⟨r', he, _⟩ := h.openString hr
      exact ⟨r', he, fun hc => absurd hc (by decide)⟩
    | some s =>
      obtain ⟨b, hbody, rfl⟩ := body_of_closeString hr
      obtain ⟨b', _, he⟩ := h.string hbody
      exact ⟨_, he _, fun hc => absurd hc (by decide)⟩
  · have hn : c ≠ '\n' := by
      rintro rfl
      exact hb (by decide)
    exact ⟨φ r, h.plain hn hq fun he => hs he.1 he.2, fun hc he => hs hc (h.head_of (by decide) he)⟩

lemma head_iff (hb : ¬ isBlank c) (hs : c ≠ '/') : (φ r).head? = some c ↔ r.head? = some c := by
  refine ⟨h.head_of hb, fun hr => ?_⟩
  obtain ⟨s, rfl⟩ := List.head?_eq_some_iff.mp hr
  obtain ⟨q, he, _⟩ := h.start hb (r := s) fun hc => absurd hc hs
  rw [he]
  rfl

lemma skipGap (cs : List Char) : skipGap (φ cs) = φ (skipGap cs) := by
  cases hg : Source.skipGap cs with
  | nil =>
    rw [h.nil, skipGap_eq_nil]
    rcases skipGap_eq_nil.mp hg with hgap | ⟨g, body, hgap, hb, rfl⟩
    · exact .inl (h.gap hgap)
    · obtain ⟨e, he, heq⟩ := h.comment hb
      have he' := heq [] endsLine_nil
      rw [List.append_nil, h.nil, List.append_nil] at he'
      rw [h.append hgap.whole (hgap.apart _), he']
      rcases he with rfl | ⟨body', hb', rfl⟩
      · rw [List.append_nil]
        exact .inl (h.gap hgap)
      · exact .inr ⟨φ g, body', h.gap hgap, hb', rfl⟩
  | cons c r =>
    obtain ⟨g, hgap, rfl⟩ := exists_gap hg
    rw [skipGap_append hgap] at hg
    obtain ⟨hb, hs⟩ := start_of_skipGap hg
    obtain ⟨q, he, hq⟩ := h.start hb hs
    rw [h.append hgap.whole (hgap.apart _), skipGap_append (h.gap hgap), he, skipGap_of_start hb hq]

lemma head_skipGap (cs : List Char) : (φ (Source.skipGap cs)).head? = (Source.skipGap cs).head? := by
  cases hg : Source.skipGap cs with
  | nil => rw [h.nil]
  | cons c r =>
    have hc := start_of_skipGap (hg ▸ skipGap_skipGap cs)
    obtain ⟨q, he, _⟩ := h.start hc.1 hc.2
    rw [he, List.head?_cons, List.head?_cons]

lemma head_skipInlineGap (cs : List Char) : (skipInlineGap (φ cs)).head? = (skipInlineGap cs).head? := by
  obtain ⟨b, hb, hnl⟩ := h.newline
  have hline (r : List Char) : skipInlineGap (φ ('\n' :: r)) = '\n' :: φ r := by
    rw [hnl, skipInlineGap_append (gap_of_blank fun c hc => (hb c hc).1) fun hm => (hb _ hm).2 rfl, skipInlineGap]
  fun_induction skipInlineGap cs with
  | case1 => rw [h.nil, skipInlineGap]
  | case2 r => rw [hline]; rfl
  | case3 r =>
    have hbody : '\n' ∉ r.takeWhile (· ≠ '\n') := fun hm => by simpa using List.mem_takeWhile_imp hm
    obtain ⟨e, he, heq⟩ := h.comment hbody
    have hcs := heq (r.dropWhile (· ≠ '\n')) fun c hc => head_dropWhile_newline hc
    rw [List.takeWhile_append_dropWhile] at hcs
    rw [hcs]
    cases hd : r.dropWhile (· ≠ '\n') with
    | nil =>
      rw [h.nil, List.append_nil]
      rcases he with rfl | ⟨body', hb', rfl⟩
      · rw [skipInlineGap]
      · exact (head_skipInlineGap_comment [] hb').1
    | cons c s =>
      obtain rfl := head_dropWhile_newline (by rw [hd]; rfl)
      rcases he with rfl | ⟨body', hb', rfl⟩
      · rw [List.nil_append, hline]
        rfl
      · have hbody' : '\n' ∉ body' ++ b := List.not_mem_append hb' fun hm => (hb _ hm).2 rfl
        rw [hnl]
        simpa using (head_skipInlineGap_comment (φ s) hbody').2
  | case4 c r hn _ hc ih =>
    rw [h.cons (isPlain_of_isBlank hc hn), skipInlineGap_blank hc hn, ih]
  | case5 c r hn hs hc =>
    have hs' : c = '/' → r.head? ≠ some '/' := by
      rintro rfl he
      obtain ⟨r, rfl⟩ := List.head?_eq_some_iff.mp he
      exact hs r rfl rfl
    obtain ⟨q, he, hq⟩ := h.start hc hs'
    rw [he, skipInlineGap_start hc]
    · rfl
    · rintro q' hc' rfl
      exact hq hc' rfl

lemma unbroken (hu : Unbroken u) : Unbroken (φ u) ∧ (φ u).getLast? = u.getLast? := by
  induction hu with
  | nil =>
    rw [h.nil]
    exact ⟨.nil, rfl⟩
  | @string b u hb _ ih =>
    obtain ⟨b', hb', he⟩ := h.string hb
    refine ⟨he u ▸ .string hb' ih.1, ?_⟩
    rw [he, List.getLast?_cons, List.getLast?_cons, List.getLast?_append, List.getLast?_append, ih.2, hb.getLast?,
      hb'.getLast?]
  | @plain c u hn hb hq hs _ ih =>
    rw [h.plain hn hq hs]
    refine ⟨.plain hn hb hq (fun he => hs ⟨he.1, h.head_of (by decide) he.2⟩) ih.1, ?_⟩
    rw [List.getLast?_cons, List.getLast?_cons, ih.2]

end Respelling

end AmmCompiler.Source
