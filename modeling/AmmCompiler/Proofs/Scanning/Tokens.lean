import AmmCompiler.Proofs.Grammar.Lexeme
import AmmCompiler.Proofs.Scanning.Course
import AmmCompiler.Proofs.Scanning.Readers

namespace AmmCompiler.Scanner

open Source Text

variable {α β : Type} {t : Trial} {base cs cs' r : List Char} {c expected : Char}

lemma ends_startsComment : Ends t base (startsComment c) (c :: r)
    (.ok (decide (c = '/' ∧ r.head? = some '/'))) (c :: r) := by
  rw [startsComment]
  by_cases h : c = '/'
  · rw [if_pos h]
    refine (ends_peek 1).bind ?_
    have he : decide ((c :: r)[1]? = some '/') = decide (c = '/' ∧ r.head? = some '/') := by
      simp [h, List.head?_eq_getElem?]
    rw [he]
    exact .pure _
  · rw [if_neg h, decide_eq_false fun hc => h hc.1]
    exact .pure _

lemma ends_skipWhile (p : Char → Bool) (cs : List Char) :
    Ends t base (skipWhile p) cs (.ok ()) (cs.dropWhile p) := by
  refine Ends.loop (fun again cs ih => ?_) cs
  rw [skipWhileWith]
  cases cs with
  | nil => exact ends_current.bind (.pure ())
  | cons c r =>
    refine ends_current_cons.bind ?_
    dsimp only
    by_cases h : p c
    · rw [if_pos h, List.dropWhile_cons_of_pos h]
      exact ends_advance.bind (ih r (Nat.lt_succ_self _))
    · rw [if_neg h, List.dropWhile_cons_of_neg h]
      exact .pure ()

def behindGap : Bool → List Char → List Char
  | true => skipGap
  | false => skipInlineGap

lemma skipComment_eq (cs : List Char) : skipComment cs = skipGap (cs.dropWhile (· ≠ '\n')) := by
  induction cs with
  | nil => rfl
  | cons c r ih =>
    by_cases h : c = '\n'
    · rw [h, skipComment, List.dropWhile_cons_of_neg (by decide), skipGap_blank (by decide)]
    · rw [skipComment, List.dropWhile_cons_of_pos (by simpa using h), ih]
      exact h

lemma behindGap_comment (newlines : Bool) (r : List Char) :
    behindGap newlines ('/' :: '/' :: r) = behindGap newlines (r.dropWhile (· ≠ '\n')) := by
  cases newlines with
  | true => rw [behindGap, skipGap, skipComment_eq]
  | false =>
    rw [behindGap, skipInlineGap]
    cases hd : r.dropWhile (· ≠ '\n') with
    | nil => rfl
    | cons c s =>
      rw [head_dropWhile_newline (c := c) (by rw [hd, List.head?_cons]), skipInlineGap]

lemma behindGap_newline (r : List Char) : behindGap false ('\n' :: r) = '\n' :: r := by
  rw [behindGap, skipInlineGap]

lemma behindGap_blank {newlines : Bool} (h : isBlank c) (hn : ¬ (c = '\n' ∧ newlines = false)) (r : List Char) :
    behindGap newlines (c :: r) = behindGap newlines r := by
  cases newlines with
  | true => exact skipGap_blank h r
  | false => exact skipInlineGap_blank h (fun hc => hn ⟨hc, rfl⟩) r

lemma behindGap_start {newlines : Bool} (h : ¬ isBlank c) (hs : ¬ (c = '/' ∧ r.head? = some '/')) :
    behindGap newlines (c :: r) = c :: r := by
  have hs : ∀ s, c = '/' → r = '/' :: s → False := fun s hc hr => hs ⟨hc, by rw [hr, List.head?_cons]⟩
  cases newlines with
  | true => exact skipGap_start h hs
  | false =>
    rw [behindGap, skipInlineGap, if_neg h]
    · rintro rfl
      exact h (by decide)
    · exact hs

lemma ends_skipBlanks (newlines : Bool) (cs : List Char) :
    Ends t base (skipBlanks newlines) cs (.ok ()) (behindGap newlines cs) := by
  refine Ends.loop (fun again cs ih => ?_) cs
  rw [skipBlanksWith]
  cases cs with
  | nil => cases newlines <;> exact ends_current.bind (.pure ())
  | cons c r =>
    refine ends_current_cons.bind (ends_startsComment.bind ?_)
    by_cases hc : c = '/' ∧ r.head? = some '/'
    · obtain ⟨rfl, hr⟩ := hc
      obtain ⟨s, rfl⟩ := List.head?_eq_some_iff.mp hr
      rw [if_pos (decide_eq_true ⟨rfl, rfl⟩), behindGap_comment]
      have hd : ('/' :: '/' :: s).dropWhile (· ≠ '\n') = s.dropWhile (· ≠ '\n') := by
        rw [List.dropWhile_cons_of_pos (by decide), List.dropWhile_cons_of_pos (by decide)]
      refine (hd ▸ ends_skipWhile _ _ : Ends t base _ _ (.ok ()) _).bind (ih _ ?_)
      exact Nat.lt_succ_of_lt (Nat.lt_succ_of_le (List.dropWhile_suffix _).length_le)
    · rw [if_neg (by simpa using hc)]
      by_cases hb : isBlank c
      · rw [if_pos hb]
        by_cases hn : c = '\n' ∧ newlines = false
        · obtain ⟨rfl, rfl⟩ := hn
          rw [if_pos ⟨rfl, rfl⟩, behindGap_newline]
          exact .pure ()
        · rw [if_neg hn, behindGap_blank hb hn]
          exact ends_advance.bind (ih r (Nat.lt_succ_self _))
      · rw [if_neg hb, behindGap_start hb hc]
        exact .pure ()

lemma ends_skipGap : Ends t base (skipBlanks true) cs (.ok ()) (skipGap cs) :=
  ends_skipBlanks true cs

def Exactly (b : α × List Char) (a : α) (rest : List Char) : Prop :=
  b = (a, rest)

structure Slack (left rest : List Char) : Prop where
  suffix : rest <:+ left
  skipGap_eq : skipGap rest = skipGap left

def Loosely (b : α × List Char) (a : α) (rest : List Char) : Prop :=
  b.1 = a ∧ Slack b.2 rest

def Left (left : List Char) (_ : Unit) (rest : List Char) : Prop :=
  left = rest

lemma Slack.refl (cs : List Char) : Slack cs cs :=
  ⟨List.suffix_rfl, rfl⟩

lemma slack_skipGap (cs : List Char) : Slack cs (skipGap cs) :=
  ⟨skipGap_suffix cs, skipGap_skipGap cs⟩

lemma Exactly.loosely {b : α × List Char} {a : α} {rest : List Char} (h : Exactly b a rest) : Loosely b a rest := by
  obtain rfl := h
  exact ⟨rfl, .refl rest⟩

lemma Follows.loosely {x : Scanner α} {r : Except Failure (α × List Char)} (h : Follows t base x cs Exactly r) :
    Follows t base x cs Loosely r :=
  h.mono fun _ _ _ => Exactly.loosely

variable {k : Bool → Scanner α} {P : β → α → List Char → Prop} {answer : Except Failure β}

lemma ends_symbol? (hg : skipGap cs = skipGap cs') : Ends t base (symbol? expected) cs
    (.ok (Source.symbol? expected cs').isSome) ((Source.symbol? expected cs').getD (skipGap cs)) := by
  refine ends_skipGap.bind ?_
  rw [Source.symbol?, ← hg]
  cases skipGap cs with
  | nil => exact ends_current.bind (.pure false)
  | cons c r =>
    refine ends_current_cons.bind ?_
    dsimp only
    by_cases hc : c = expected
    · rw [if_pos (congrArg some hc), if_pos hc]
      exact ends_advance.bind (.pure true)
    · rw [if_neg (mt Option.some.inj hc), if_neg hc]
      exact .pure false

lemma Follows.look (hg : skipGap cs = skipGap cs')
    (found : ∀ rest, Source.symbol? expected cs' = some rest → Follows t base (k true) rest P answer)
    (missing : Source.symbol? expected cs' = none → Follows t base (k false) (skipGap cs) P answer) :
    Follows t base (symbol? expected >>= k) cs P answer := by
  refine .after (ends_symbol? hg) ?_
  cases hs : Source.symbol? expected cs' with
  | none => exact missing hs
  | some rest => exact found rest hs

lemma follows_symbol (hg : skipGap cs = skipGap cs') :
    Follows t base (symbol expected) cs Left (Source.symbol expected cs') := by
  rw [Source.symbol]
  refine .look hg (fun rest hs => ?_) fun hs => ?_
  · rw [hs]
    exact .of_ends (.pure ()) rfl
  · rw [hs, ← hg]
    exact .after ends_current (follows_fail rfl rfl)

def Below (t : Trial) (base : List Char) (scan : Scanner α) (P : β → α → List Char → Prop)
    (read : List Char → Except Failure β) (cs : List Char) : Prop :=
  ∀ r, r.length < cs.length → ∀ r', skipGap r' = skipGap r → Follows t base scan r' P (read r)

variable {scan : Scanner α} {Q : β → α → List Char → Prop} {read : List Char → Except Failure β}

lemma Below.mono (h : Below t base scan Q read cs) (hl : r.length ≤ cs.length) : Below t base scan Q read r :=
  fun s hs => h s (Nat.lt_of_lt_of_le hs hl)

lemma Below.past (h : Below t base scan Q read cs) (hp : Past cs r) : Below t base scan Q read r :=
  h.mono (Nat.le_of_lt hp.2)

lemma follows_loop {step : Scanner α → Scanner α} (hread : ∀ cs, read (skipGap cs) = read cs)
    (h : ∀ again cs', Below t base again Q read cs' → ∀ cs, skipGap cs = skipGap cs' →
      Follows t base (step again) cs Q (read cs'))
    (hg : skipGap cs = skipGap cs') : Follows t base (loop step) cs Q (read cs') := by
  rw [← hread cs', ← hg, hread cs]
  refine .of_standing fun ht hb => .after ends_read ?_
  exact within_induction (motive := fun x r => ∀ r', skipGap r' = skipGap r → Follows t base x r' Q (read r))
    h t.rounds cs (ht.length_lt hb) cs rfl

lemma ends_startsName_nil : Ends t base startsName [] (.ok false) [] :=
  ends_current.bind (.pure false)

lemma ends_startsName : Ends t base startsName (c :: r) (.ok (isNameStart c)) (c :: r) :=
  ends_current.bind (.pure _)

lemma follows_name (hg : skipGap cs = skipGap cs') : Follows t base name cs Exactly (Source.name cs') := by
  refine .after ends_skipGap ?_
  rw [Source.name, ← hg]
  cases skipGap cs with
  | nil => exact .after ends_startsName_nil (.after ends_current (follows_fail rfl rfl))
  | cons c r =>
    refine .after ends_startsName ?_
    dsimp only
    by_cases hc : isNameStart c
    · rw [if_pos hc, if_pos hc]
      refine .of_standing fun ht hb => .after ends_here (.after (ends_skipWhile isNamePart _) ?_)
      have he : (c :: r).dropWhile isNamePart = r.dropWhile isNamePart :=
        List.dropWhile_cons_of_pos (isNamePart_of_isNameStart hc)
      have hr : (c :: r.takeWhile isNamePart) ++ r.dropWhile isNamePart = c :: r := by
        rw [List.cons_append, List.takeWhile_append_dropWhile]
      rw [he, ← hr]
      exact .of_ends (ends_slice_here (hr ▸ hb.trans ht.suffix)) rfl
    · rw [if_neg hc, if_neg hc]
      exact .after ends_current (follows_fail rfl rfl)

lemma follows_functionKeyword (hg : skipGap cs = skipGap cs') :
    Follows t base functionKeyword cs Left (Source.functionKeyword cs') := by
  refine .of_standing fun ht hb => .bind (follows_name hg) ?_
  rintro _ word rest hn rfl
  dsimp only
  by_cases hw : word = "fn"
  · rw [if_pos hw, if_pos hw]
    exact .of_ends (.pure ()) rfl
  · rw [if_neg hw, if_neg hw]
    have hs : skipGap cs' <:+ t.text.toList := hg ▸ (skipGap_suffix cs).trans (hb.trans ht.suffix)
    exact follows_failBefore hs (skipGap_of_name hn).2.1 rfl

end AmmCompiler.Scanner
