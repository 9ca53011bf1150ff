import AmmCompiler.Proofs.Grammar.Lexeme
import AmmCompiler.Proofs.Text.Lines

namespace AmmCompiler.Source

open Text

inductive Unbroken : List Char → Prop
  | nil : Unbroken []
  | string {b r : List Char} : StringBody b → Unbroken r → Unbroken ('"' :: (b ++ r))
  | plain {c : Char} {r : List Char} : c ≠ '\n' → c ≠ '\x7d' → c ≠ '"' →
      ¬ (c = '/' ∧ r.head? = some '/') → Unbroken r → Unbroken (c :: r)

def exitKeywords : List String :=
  ["return", "break"]

def IsExit (cs : List Char) : Prop :=
  ∃ w ∈ exitKeywords, ∃ r, cs = w.toList ++ r ∧ (∀ c ∈ r.head?, ¬ isNamePart c) ∧ Unbroken r ∧ trim cs = cs

def Stops (cs : List Char) : Prop :=
  ∀ c ∈ cs.head?, c = '\n' ∨ c = '\x7d' ∨ ∃ r, cs = '/' :: '/' :: r

variable {cs rest : List Char} {c : Char}

lemma stops_nil : Stops [] := by
  intro c hc
  cases hc

lemma exitEnd_stops (h : Stops cs) : exitEnd cs = .ok cs := by
  rw [exitEnd_eq]
  cases cs with
  | nil => rfl
  | cons c r =>
    rcases h c rfl with rfl | rfl | ⟨r', he⟩
    · rfl
    · rfl
    · rw [he]
      rfl

lemma exitEnd_plain (hn : c ≠ '\n') (hb : c ≠ '\x7d') (hq : c ≠ '"')
    (hs : ¬ (c = '/' ∧ rest.head? = some '/')) : exitEnd (c :: rest) = exitEnd rest := by
  rw [exitEnd_eq]
  unfold exitEndWith
  split
  · next he => cases he
  · next he => exact absurd (List.cons.inj he).1 hn
  · next he => exact absurd (List.cons.inj he).1 hb
  · next he =>
    obtain ⟨rfl, rfl⟩ := List.cons.inj he
    exact absurd ⟨rfl, rfl⟩ hs
  · next he => exact absurd (List.cons.inj he).1 hq
  · next he => rw [(List.cons.inj he).2]

lemma exitEnd_string {b : List Char} (h : StringBody b) (rest : List Char) :
    exitEnd ('"' :: (b ++ rest)) = exitEnd rest := by
  rw [exitEnd_eq]
  simp only [exitEndWith, closeString_append h]

lemma exitEnd_blank (h : isBlank c) (hn : c ≠ '\n') : exitEnd (c :: rest) = exitEnd rest := by
  apply exitEnd_plain hn
  · exact ne_of_isBlank h (by decide)
  · exact ne_of_isBlank h (by decide)
  · rintro ⟨rfl, _⟩
    exact absurd h (by decide)

lemma exitEnd_append {r : List Char} (h : Unbroken r)
    (hs : r.getLast? = some '/' → rest.head? ≠ some '/') : exitEnd (r ++ rest) = exitEnd rest := by
  induction h with
  | nil => rfl
  | @string b r hb hr ih =>
    rw [List.cons_append, List.append_assoc, exitEnd_string hb]
    apply ih
    intro hl
    apply hs
    rw [← List.cons_append, List.getLast?_append, hl, Option.some_or]
  | @plain c r hn hb hq hc hr ih =>
    rw [List.cons_append, exitEnd_plain hn hb hq]
    · apply ih
      intro hl
      apply hs
      rw [List.getLast?_cons, hl]
      rfl
    · rintro ⟨rfl, hh⟩
      cases r with
      | nil => exact hs rfl hh
      | cons d r => exact hc ⟨rfl, hh⟩

lemma StringBody.getLast? {b : List Char} (h : StringBody b) : b.getLast? = some '"' := by
  induction h with
  | close => rfl
  | escape _ ih => rw [List.getLast?_cons, List.getLast?_cons, ih, Option.getD_some, Option.getD_some]
  | plain _ _ _ ih => rw [List.getLast?_cons, ih, Option.getD_some]

def Scanned (cs rest : List Char) : Prop :=
  ∃ r, Unbroken r ∧ cs = r ++ rest ∧ Stops rest ∧ (r.getLast? = some '/' → rest.head? ≠ some '/')

lemma Scanned.plain {r : List Char} (h : Scanned r rest) (hn : c ≠ '\n') (hb : c ≠ '\x7d') (hq : c ≠ '"')
    (hs : ¬ (c = '/' ∧ r.head? = some '/')) : Scanned (c :: r) rest := by
  obtain ⟨u, hu, rfl, hstop, hl⟩ := h
  refine ⟨c :: u, .plain hn hb hq ?_ hu, rfl, hstop, ?_⟩
  · rintro ⟨rfl, hh⟩
    refine hs ⟨rfl, ?_⟩
    rw [List.head?_append, hh, Option.some_or]
  · cases u with
    | nil =>
      rintro he hr
      exact hs ⟨Option.some.inj he, hr⟩
    | cons d u => exact hl

lemma Scanned.string {b r : List Char} (hb : StringBody b) (h : Scanned r rest) :
    Scanned ('"' :: (b ++ r)) rest := by
  obtain ⟨u, hu, rfl, hstop, hl⟩ := h
  refine ⟨'"' :: (b ++ u), .string hb hu, by simp, hstop, ?_⟩
  intro he
  apply hl
  cases u with
  | nil =>
    rw [List.append_nil, List.getLast?_cons, hb.getLast?] at he
    cases he
  | cons d u =>
    rw [← List.cons_append, List.getLast?_append] at he
    rwa [List.getLast?_cons] at he ⊢

lemma Scanned.stop (h : Stops cs) : Scanned cs cs := by
  refine ⟨[], .nil, rfl, h, ?_⟩
  intro hl
  cases hl

lemma scanned_of_exitEnd (h : exitEnd cs = .ok rest) : Scanned cs rest := by
  refine descend_ok (Q := Scanned) ?_ h
  intro p hp cs rest h
  unfold exitEndWith at h
  split at h
  · obtain rfl := Except.ok.inj h
    exact .stop stops_nil
  · obtain rfl := Except.ok.inj h
    exact .stop fun c hc => .inl (Option.some.inj hc).symm
  · obtain rfl := Except.ok.inj h
    exact .stop fun c hc => .inr (.inl (Option.some.inj hc).symm)
  · obtain rfl := Except.ok.inj h
    exact .stop fun c _ => .inr (.inr ⟨_, rfl⟩)
  · split at h
    · next r hr =>
      obtain ⟨b, hb, rfl⟩ := body_of_closeString hr
      exact .string hb (hp _ _ h)
    · cases h
  · next c r hn hb hs hq =>
    refine (hp _ _ h).plain ?_ ?_ ?_ ?_
    · exact hn
    · exact hb
    · exact hq
    · rintro ⟨hc, hh⟩
      obtain ⟨r', rfl⟩ := List.head?_eq_some_iff.mp hh
      exact hs _ hc rfl

lemma gap_of_blank {b : List Char} (h : ∀ c ∈ b, isBlank c) : Gap b := by
  induction b with
  | nil => exact .nil
  | cons c b ih => exact .blank (h c List.mem_cons_self) (ih fun d hd => h d (List.mem_cons_of_mem c hd))

lemma trim_append {f b : List Char} (hh : ∀ c ∈ f.head?, ¬ isBlank c)
    (hl : ∀ c ∈ f.getLast?, ¬ isBlank c) (hb : ∀ c ∈ b, isBlank c) : trim (f ++ b) = f := by
  have he : trimStart f.reverse = f.reverse := trimStart_of_head (by rwa [List.head?_reverse])
  rw [trim_blank hb, trim, trimStart_of_head hh, trimEnd, he, List.reverse_reverse]

lemma last_of_trim (h : trim cs = cs) : ∀ c ∈ cs.getLast?, ¬ isBlank c := by
  intro c hc hb
  rw [← h, trim, trimEnd, List.getLast?_reverse] at hc
  have hn := List.head?_dropWhile_not isBlank (trimStart cs).reverse
  rw [trimStart, Option.mem_def] at hc
  rw [hc] at hn
  exact absurd hb (by simpa using hn)

lemma Unbroken.trim {r : List Char} (h : Unbroken r) : ∃ u b, r = u ++ b ∧
    (∀ c ∈ b, isBlank c ∧ c ≠ '\n') ∧ Unbroken u ∧ ∀ c ∈ u.getLast?, ¬ isBlank c := by
  induction h with
  | nil =>
    refine ⟨[], [], rfl, List.forall_mem_nil _, .nil, ?_⟩
    intro c hc
    cases hc
  | @string s r hs _ ih =>
    obtain ⟨u, b, rfl, hb, hu, hl⟩ := ih
    refine ⟨'"' :: (s ++ u), b, by simp, hb, .string hs hu, ?_⟩
    intro c hc
    rw [List.getLast?_cons, List.getLast?_append, hs.getLast?] at hc
    cases hlast : u.getLast? with
    | none =>
      rw [hlast] at hc
      obtain rfl := Option.some.inj hc
      decide
    | some d =>
      rw [hlast] at hc
      obtain rfl := Option.some.inj hc
      exact hl d hlast
  | @plain c r hn hb hq hs _ ih =>
    obtain ⟨u, b, rfl, hbl, hu, hl⟩ := ih
    cases u with
    | nil =>
      by_cases hc : isBlank c
      · refine ⟨[], c :: b, rfl, ?_, .nil, ?_⟩
        · intro d hd
          rcases List.mem_cons.mp hd with rfl | hd
          · exact ⟨hc, hn⟩
          · exact hbl d hd
        · intro d hd
          cases hd
      · refine ⟨[c], b, rfl, hbl, .plain hn hb hq ?_ .nil, ?_⟩
        · rintro ⟨_, hd⟩
          cases hd
        · intro d hd
          obtain rfl := Option.some.inj hd
          exact hc
    | cons d u =>
      refine ⟨c :: d :: u, b, rfl, hbl, .plain hn hb hq hs hu, ?_⟩
      rwa [List.getLast?_cons_cons]

lemma exitEnd_inline (h : ∀ c ∈ (skipInlineGap cs).head?, c = '\n' ∨ c = '\x7d') :
    ∃ b e, cs = b ++ e ∧ (∀ c ∈ b, isBlank c) ∧ exitEnd cs = .ok e := by
  fun_induction skipInlineGap cs with
  | case1 => exact ⟨[], [], rfl, List.forall_mem_nil _, exitEnd_stops stops_nil⟩
  | case2 r => exact ⟨[], _, rfl, List.forall_mem_nil _, exitEnd_stops fun c hc => .inl (Option.some.inj hc).symm⟩
  | case3 r => exact ⟨[], _, rfl, List.forall_mem_nil _, exitEnd_stops fun c _ => .inr (.inr ⟨r, rfl⟩)⟩
  | case4 c r hn _ hc ih =>
    obtain ⟨b, e, rfl, hb, he⟩ := ih h
    refine ⟨c :: b, e, rfl, ?_, (exitEnd_blank hc hn).trans he⟩
    intro d hd
    rcases List.mem_cons.mp hd with rfl | hd
    · exact hc
    · exact hb d hd
  | case5 c r hn _ hc =>
    refine ⟨[], _, rfl, List.forall_mem_nil _, exitEnd_stops ?_⟩
    intro d hd
    rcases h d hd with hd | hd
    · exact .inl hd
    · exact .inr (.inl hd)

lemma unbroken_name {w : List Char} (h : ∀ c ∈ w, isNamePart c) {u : List Char} (hu : Unbroken u) :
    Unbroken (w ++ u) := by
  induction w with
  | nil => exact hu
  | cons c w ih =>
    have hc := h c List.mem_cons_self
    refine .plain ?_ ?_ ?_ ?_ (ih fun d hd => h d (List.mem_cons_of_mem c hd))
    · rintro rfl
      exact absurd hc (by decide)
    · rintro rfl
      exact absurd hc (by decide)
    · rintro rfl
      exact absurd hc (by decide)
    · rintro ⟨rfl, _⟩
      exact absurd hc (by decide)

lemma IsExit.head {f : List Char} (h : IsExit f) : ∃ c r, f = c :: r ∧ isNameStart c := by
  obtain ⟨w, hw, r, rfl, _⟩ := h
  simp only [exitKeywords, List.mem_cons, List.not_mem_nil, or_false] at hw
  rcases hw with rfl | rfl
  · exact ⟨'r', _, rfl, by decide⟩
  · exact ⟨'b', _, rfl, by decide⟩

lemma IsExit.solid {f : String} (h : IsExit f.toList) : (Token.fragment f).Solid := by
  obtain ⟨c, r, he, hc⟩ := h.head
  refine ⟨c, r, he, not_isBlank_of_isNamePart (isNamePart_of_isNameStart hc), ?_⟩
  rintro rfl
  exact absurd hc (by decide)

lemma IsExit.startsLine {f : String} (h : IsExit f.toList) : (Token.fragment f).StartsLine := by
  obtain ⟨c, r, he, hc⟩ := h.head
  exact .inr ⟨c, r, he, hc⟩

lemma isName_exitKeyword {w : String} (h : w ∈ exitKeywords) :
    IsName w.toList ∧ ∃ c, w.toList.getLast? = some c ∧ ¬ isBlank c ∧ c ≠ '/' := by
  simp only [exitKeywords, List.mem_cons, List.not_mem_nil, or_false] at h
  rcases h with rfl | rfl
  · exact ⟨by decide, 'n', rfl, by decide, by decide⟩
  · exact ⟨by decide, 'k', rfl, by decide, by decide⟩

lemma head_of_inline (h : ∀ c ∈ (skipInlineGap cs).head?, ¬ isNamePart c) :
    ∀ c ∈ cs.head?, ¬ isNamePart c := by
  intro c hc hp
  obtain ⟨r, rfl⟩ := List.head?_eq_some_iff.mp hc
  refine h c ?_ hp
  rw [skipInlineGap_solid (not_isBlank_of_isNamePart hp)]
  · rfl
  · rintro rfl
    exact absurd hp (by decide)

lemma exit_of_next {before : Token} {f : String} (h : Next before (.fragment f) cs rest)
    (hf : IsExit f.toList) (hr : Follows (.fragment f) rest)
    (hl : ∀ c ∈ (skipInlineGap rest).head?, c = '\n' ∨ c = '\x7d') :
    ∃ w ∈ exitKeywords, ∃ mid e, name cs = .ok (w, mid) ∧
      exit (skipGap cs) mid = .ok (.exit f, e) ∧ skipGap e = skipGap rest := by
  have hg := h.skipGap hf.solid
  have hf' := hf
  obtain ⟨w, hw, r, he, hp, hu, ht⟩ := hf'
  obtain ⟨hname, d, hd, _, _⟩ := isName_exitKeyword hw
  obtain ⟨b, e, rfl, hb, hend⟩ := exitEnd_inline hl
  have hcs : skipGap cs = w.toList ++ (r ++ (b ++ e)) := by
    rw [hg, Token.text, he, List.append_assoc]
  have hhead : ∀ c ∈ (r ++ (b ++ e)).head?, ¬ isNamePart c := by
    cases r with
    | cons x r => exact hp
    | nil =>
      apply head_of_inline
      intro c hc
      rcases hl c hc with rfl | rfl <;> decide
  refine ⟨w, hw, r ++ (b ++ e), e, name_of_skipGap hcs hname hhead, ?_, ?_⟩
  · have hexit : exitEnd (r ++ (b ++ e)) = .ok e := by
      rw [exitEnd_append hu, hend]
      intro hlast
      refine hr.slash f rfl ?_
      rw [he, List.getLast?_append, hlast, Option.some_or]
    have htrim : trim (f.toList ++ b) = f.toList := by
      obtain ⟨c, r', hc, hs⟩ := hf.head
      refine trim_append (fun x hx => ?_) (last_of_trim ht) hb
      rw [hc] at hx
      obtain rfl := Option.some.inj hx
      exact not_isBlank_of_isNamePart (isNamePart_of_isNameStart hs)
    rw [exit, hexit, hg, Token.text, ← List.append_assoc]
    simp only [bind, Except.bind, consumed_append, htrim, String.ofList_toList]
    rfl
  · rw [skipGap_append (gap_of_blank hb)]

lemma head_skipInlineGap_of_stops (h : Stops cs) : ∀ c ∈ (skipInlineGap cs).head?, c = '\n' ∨ c = '\x7d' := by
  cases cs with
  | nil =>
    intro c hc
    cases hc
  | cons d r =>
    intro c hc
    rcases h d rfl with rfl | rfl | ⟨r', he⟩
    · exact .inl (Option.some.inj hc).symm
    · rw [skipInlineGap_solid (by decide) (by decide)] at hc
      exact .inr (Option.some.inj hc).symm
    · rw [he, skipInlineGap] at hc
      exact .inl (head_dropWhile_newline hc)

lemma getLast?_exit {w : String} {u : List Char} (hw : w ∈ exitKeywords) {c : Char}
    (hc : c ∈ (w.toList ++ u).getLast?) : (¬ isBlank c ∧ c ≠ '/') ∨ c ∈ u.getLast? := by
  obtain ⟨_, k, hk, hb, hs⟩ := isName_exitKeyword hw
  rw [List.getLast?_append, hk] at hc
  cases hu : u.getLast? with
  | none =>
    rw [hu] at hc
    obtain rfl := Option.some.inj hc
    exact .inl ⟨hb, hs⟩
  | some d =>
    rw [hu] at hc
    exact .inr hc

lemma trim_exit {w : String} {u b : List Char} (hw : w ∈ exitKeywords)
    (hu : ∀ c ∈ u.getLast?, ¬ isBlank c) (hb : ∀ c ∈ b, isBlank c) :
    trim (w.toList ++ u ++ b) = w.toList ++ u := by
  obtain ⟨⟨c, r, hc, hs, _⟩, _⟩ := isName_exitKeyword hw
  apply trim_append _ _ hb
  · intro d hd
    rw [hc] at hd
    obtain rfl := Option.some.inj hd
    exact not_isBlank_of_isNamePart (isNamePart_of_isNameStart hs)
  · intro d hd
    rcases getLast?_exit hw hd with h | h
    · exact h.1
    · exact hu d h

lemma follows_fragment {w : String} {u b : List Char} (hw : w ∈ exitKeywords)
    (hb : ∀ c ∈ b, isBlank c ∧ c ≠ '\n') (hstop : Stops rest)
    (hl : (u ++ b).getLast? = some '/' → rest.head? ≠ some '/') :
    Follows (.fragment (.ofList (w.toList ++ u))) (b ++ rest) := by
  constructor
  · intro he
    cases he
  · intro he
    cases he
  · intro _
    rw [skipInlineGap_append (gap_of_blank fun c hc => (hb c hc).1) fun hm => (hb _ hm).2 rfl]
    intro c hc hn
    rcases head_skipInlineGap_of_stops hstop c hc with rfl | rfl
    · exact absurd hn (by decide)
    · exact absurd hn (by decide)
  · intro f hf he
    obtain rfl := Token.fragment.inj hf
    rw [String.toList_ofList] at he
    rcases getLast?_exit hw he with h | h
    · exact absurd rfl h.2
    · cases b with
      | nil =>
        rw [List.append_nil] at hl
        exact hl h
      | cons d b =>
        intro hd
        obtain rfl := Option.some.inj hd
        exact absurd (hb '/' List.mem_cons_self).1 (by decide)

lemma isExit_append {w : String} {u r : List Char} (hw : w ∈ exitKeywords)
    (hhead : ∀ c ∈ (u ++ r).head?, ¬ isNamePart c) (hu : Unbroken u) (hlast : ∀ c ∈ u.getLast?, ¬ isBlank c) :
    IsExit (w.toList ++ u) := by
  have htrim := trim_exit hw hlast (List.forall_mem_nil fun c => isBlank c)
  rw [List.append_nil] at htrim
  refine ⟨w, hw, u, rfl, ?_, hu, htrim⟩
  intro c hc
  apply hhead
  rw [List.head?_append, Option.mem_def.mp hc, Option.some_or, Option.mem_def]

lemma next_of_exit {before : Token} {w : String} {mid : List Char} {s : Statement}
    (hw : w ∈ exitKeywords) (hn : name cs = .ok (w, mid)) (h : exit (skipGap cs) mid = .ok (s, rest))
    (hf : Follows before cs) : ∃ f, s = .exit f ∧ IsExit f.toList ∧ ∃ e, Next before (.fragment f) cs e ∧
      skipGap e = skipGap rest ∧ Follows (.fragment f) e := by
  obtain ⟨_, hg, hhead⟩ := skipGap_of_name hn
  simp only [exit, bind_eq_ok, pure_eq_ok, Prod.mk.injEq] at h
  obtain ⟨e, he, rfl, rfl⟩ := h
  obtain ⟨r, hr, rfl, hstop, hslash⟩ := scanned_of_exitEnd he
  obtain ⟨u, b, rfl, hb, hu, hlast⟩ := hr.trim
  have hblank : ∀ c ∈ b, isBlank c := fun c hc => (hb c hc).1
  have hcs : skipGap cs = w.toList ++ u ++ (b ++ e) := by
    rw [hg]
    simp
  rw [hcs, ← List.append_assoc, consumed_append, trim_exit hw hlast hblank]
  have hex : IsExit (String.ofList (w.toList ++ u)).toList := by
    rw [String.toList_ofList]
    rw [List.append_assoc] at hhead
    exact isExit_append hw hhead hu hlast
  refine ⟨_, rfl, hex, b ++ e, ?_, skipGap_append (gap_of_blank hblank) e, follows_fragment hw hb hstop hslash⟩
  refine hf.next ?_ hex.solid fun _ => hex.startsLine
  rw [hcs, Token.text, String.toList_ofList]

end AmmCompiler.Source
