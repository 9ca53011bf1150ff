import AmmCompiler.Proofs.Scanning.Blocks

/-! Every scan of a text ends, its loops given more rounds than the text has characters, and gets past the
character that it starts at. -/

namespace AmmCompiler.Scanner

open Source

variable {α : Type} {start : List Char → List Char} {scan : Scanner α}
  {read : String → List Char → Except Failure (α × List Char)} {r : Except Failure (α × List Char)}
  {t : Trial} {text : String} {base cs rest : List Char} {a : α}

def outcome (text : String) : Except Failure (α × List Char) → Except Stop α
  | .ok (a, _) => .ok a
  | .error f => .error (f.locate text.toList).stop

/-- Wherever in a text it sets out, the scan ends as the reader does and without a panic, what it does is sound
from there on, and with an answer it stands behind the character that it starts at. -/
def Progresses (start : List Char → List Char) (read : String → List Char → Except Failure (α × List Char))
    (scan : Scanner α) : Prop :=
  ∀ (front rest : String) (rounds : Nat) (accesses : List Access), (front ++ rest).length < rounds → ∃ o c,
    scan ⟨front ++ rest, rounds⟩ ⟨front.utf8ByteSize, accesses⟩ = some (o, c) ∧
      o = outcome (front ++ rest) (read (front ++ rest) (start rest.toList)) ∧ o ≠ .error .panic ∧
      IsBoundary (front ++ rest) c.place ∧
      Logged (front ++ rest) front.utf8ByteSize ⟨front.utf8ByteSize, accesses⟩ c ∧
      ∀ a, o = .ok a → ∃ first after, start rest.toList = first :: after ∧ placeOf (front ++ rest) after ≤ c.place

lemma outcome_ne_panic (text : String) (r : Except Failure (α × List Char)) : outcome text r ≠ .error .panic := by
  cases r with
  | ok b => exact fun h => nomatch h
  | error f => exact fun h => nomatch Except.error.inj h

lemma exists_of_outcome (h : outcome text r = .ok a) : ∃ rest, r = .ok (a, rest) := by
  cases r with
  | ok b =>
    obtain rfl := Except.ok.inj h
    exact ⟨b.2, rfl⟩
  | error f => cases h

lemma ends_of_follows (h : Follows t base scan cs Loosely r) (ht : Outset t base) (hb : cs <:+ base) :
    ∃ left, Ends t base scan cs (outcome t.text r) left ∧ ∀ a rest, r = .ok (a, rest) → left <:+ rest := by
  have h := h ht hb
  cases r with
  | ok b =>
    obtain ⟨_, left, he, rfl, hs⟩ := h
    refine ⟨left, he, fun a rest hr => ?_⟩
    obtain rfl := Except.ok.inj hr
    exact hs.suffix
  | error f =>
    obtain ⟨left, he⟩ := h
    exact ⟨left, he, fun _ _ hr => nomatch hr⟩

lemma exists_cons_of_past (h : Past cs rest) : ∃ first after, cs = first :: after ∧ rest <:+ after := by
  obtain ⟨⟨a, rfl⟩, hl⟩ := h
  cases a with
  | nil => exact absurd hl (lt_irrefl _)
  | cons c a => exact ⟨c, a ++ rest, rfl, List.suffix_append a rest⟩

lemma Progresses.of_follows (hstart : ∀ cs, start cs <:+ cs) (hread : ∀ text, Advances (read text))
    (h : ∀ t base cs, Follows t base scan cs Loosely (read t.text (start cs))) : Progresses start read scan := by
  intro front rest rounds accesses hrounds
  have hr : front.toList ++ rest.toList = (front ++ rest).toList := String.toList_append.symm
  have hplace : placeOf (front ++ rest) rest.toList = front.utf8ByteSize := by
    rw [placeOf_eq hr, byteLength_toList]
  have ht : Outset ⟨front ++ rest, rounds⟩ rest.toList := ⟨⟨_, hr⟩, hrounds⟩
  obtain ⟨left, he, hleft⟩ := ends_of_follows (h _ rest.toList rest.toList) ht List.suffix_rfl
  obtain ⟨c, hrun, hstands, hlogged⟩ :=
    he ⟨front.utf8ByteSize, accesses⟩ ⟨ht, List.suffix_rfl, hplace.symm⟩
  refine ⟨_, c, hrun, rfl, outcome_ne_panic _ _, ?_, hplace ▸ hlogged, fun a ha => ?_⟩
  · rw [hstands.place_eq]
    exact isBoundary_placeOf hstands.text_suffix
  · obtain ⟨behind, ha⟩ := exists_of_outcome ha
    obtain ⟨first, after, hfirst, hbehind⟩ := exists_cons_of_past (hread _ ha)
    have hafter : after <:+ rest.toList := (List.suffix_cons first after).trans (hfirst ▸ hstart rest.toList)
    refine ⟨first, after, hfirst, ?_⟩
    rw [hstands.place_eq]
    exact placeOf_mono ((hleft a behind ha).trans hbehind) (hafter.trans ht.suffix)

lemma string_advances : Advances Source.string := by
  intro cs token rest h
  cases cs with
  | nil => cases h
  | cons c r => exact string_past h

def typePlace (text : String) (cs : List Char) : Except Failure (Nat × List Char) := do
  let left ← typeWith Source.typeArguments cs
  return (placeOf text left, left)

lemma typePlace_advances (text : String) : Advances (typePlace text) := by
  intro cs stop rest h
  obtain ⟨left, hl, h⟩ := bind_eq_ok.mp h
  obtain ⟨rfl, rfl⟩ := Prod.mk.inj (Except.ok.inj h)
  exact typeWith_skips typeArguments_skips hl

lemma follows_typePlace (t : Trial) (base cs : List Char) :
    Follows t base typeEnd cs Loosely (typePlace t.text (skipGap cs)) := by
  rw [← bind_pure typeEnd]
  refine .bind (follows_typeEnd (skipGap_skipGap cs).symm) ?_
  rintro left _ rest _ ⟨rfl, hs⟩
  exact .pure ⟨rfl, hs⟩

lemma follows_program (t : Trial) : Follows t t.text.toList program t.text.toList (fun p p' _ => p = p')
    (Source.items t.text.toList >>= fun is => .ok (Program.ofItems is)) := by
  refine .of_standing fun ht hb => .after ends_skipGap (.bind (follows_items (ht.length_lt hb)) ?_)
  rintro is _ _ _ rfl
  exact .pure rfl

lemma ends_program (hrounds : t.text.length < t.rounds) : ∃ c,
    program t ⟨0, []⟩ = some ((Program.parse t.text).mapError SyntaxError.stop, c) ∧
      Logged t.text 0 ⟨0, []⟩ c := by
  have ht : Outset t t.text.toList := ⟨List.suffix_rfl, hrounds⟩
  have h := follows_program t ht List.suffix_rfl
  have hc : Stands t t.text.toList ⟨0, []⟩ t.text.toList := ⟨ht, List.suffix_rfl, (placeOf_start t.text).symm⟩
  rw [Program.parse]
  cases hi : Source.items t.text.toList with
  | ok is =>
    rw [hi] at h
    obtain ⟨_, _, he, rfl⟩ := h
    obtain ⟨c, hrun, _, hlogged⟩ := he _ hc
    exact ⟨c, hrun, placeOf_start t.text ▸ hlogged⟩
  | error f =>
    rw [hi] at h
    obtain ⟨_, he⟩ := h
    obtain ⟨c, hrun, _, hlogged⟩ := he _ hc
    exact ⟨c, hrun, placeOf_start t.text ▸ hlogged⟩

/-- The scan of a text ends with what the text is read as, and stays between the characters on the way. -/
theorem progress_of_scan (text : String) :
    (∀ rounds, text.length < rounds → ∃ c,
      program ⟨text, rounds⟩ ⟨0, []⟩ = some ((Program.parse text).mapError SyntaxError.stop, c) ∧
        ∀ a ∈ c.accesses, a.Sound text 0) ∧
    Progresses skipGap (fun _ => Source.name) name ∧
    Progresses skipGap typePlace typeEnd ∧
    Progresses id (fun _ => Source.string) string ∧
    Progresses id (fun _ => Source.number) number ∧
    Progresses skipGap (fun _ => Source.arguments) arguments ∧
    Progresses skipGap (fun _ => Source.value Source.block) (value block) ∧
    Progresses skipGap (fun _ => Source.closure Source.block) (closure block) ∧
    Progresses skipGap (fun _ => Source.statement Source.block) (statement block) := by
  refine ⟨?_, ?_, ?_, ?_, ?_, ?_, ?_, ?_, ?_⟩
  · intro rounds hrounds
    obtain ⟨c, hrun, added, hadded, hsound⟩ := ends_program (t := ⟨text, rounds⟩) hrounds
    rw [List.append_nil] at hadded
    exact ⟨c, hrun, fun a ha => hsound a (hadded ▸ ha)⟩
  · exact .of_follows skipGap_suffix (fun _ => name_advances) fun _ _ cs =>
      (follows_name (skipGap_skipGap cs).symm).loosely
  · exact .of_follows skipGap_suffix typePlace_advances follows_typePlace
  · exact .of_follows (fun _ => List.suffix_rfl) (fun _ => string_advances) fun _ _ _ => follows_string.loosely
  · exact .of_follows (fun _ => List.suffix_rfl) (fun _ => number_advances) fun _ _ _ => follows_number.loosely
  · exact .of_follows skipGap_suffix (fun _ => arguments_advances) fun _ _ cs =>
      follows_arguments (skipGap_skipGap cs).symm
  · exact .of_follows skipGap_suffix (fun _ => value_advances block_advances) fun _ _ cs =>
      follows_value (blocksBelow _) (skipGap_skipGap cs).symm
  · exact .of_follows skipGap_suffix (fun _ => closure_advances block_advances) fun _ _ cs =>
      follows_closure (blocksBelow _) (skipGap_skipGap cs).symm
  · exact .of_follows skipGap_suffix (fun _ => statement_advances block_advances) fun _ _ cs =>
      follows_statement (blocksBelow _) (skipGap_skipGap cs).symm

def misspeltText : String :=
  "// é\nconst f: t = fn (): v \x7b\x7d\nhandler"

theorem scan_misspeltText : ∃ c, program ⟨misspeltText, 38⟩ ⟨0, []⟩ =
      some (.error (.failure ⟨3, 1⟩ "Expected 'const', 'event' or 'on' but found 'handler'"), c) ∧
    ∀ a ∈ c.accesses, a.Sound misspeltText 0 := by
  have h : Program.parse misspeltText = .error ⟨⟨3, 1⟩, .itemKeyword "handler", some 'h'⟩ := rfl
  have hs := (progress_of_scan misspeltText).1 38 (by decide)
  rw [h] at hs
  exact hs

end AmmCompiler.Scanner
