import AmmCompiler.Fixture
import AmmCompiler.Proofs.Grammar.OneLine

/-! The lines of a fixture are sorted by how they begin, and the program is the same without the directives. -/

namespace AmmCompiler

open Source Text

def directives : List String :=
  ["// RUN:", "// CHECK-NEXT:", "// CHECK-NOT:", "// CHECK-EMPTY", "// CHECK:", "// COM:", "// ERROR:"]

inductive LineIs (line : String) : FixtureLine → Prop
  | run {text command : String} {arguments : List String} : trimmed line = "// RUN:" ++ text →
      (∀ invocation, trimmed text ≠ "not " ++ invocation) → wordsOf text = command :: arguments →
      LineIs line (.run ⟨command, arguments, false⟩)
  | failingRun {text invocation command : String} {arguments : List String} : trimmed line = "// RUN:" ++ text →
      trimmed text = "not " ++ invocation → wordsOf invocation = command :: arguments →
      LineIs line (.run ⟨command, arguments, true⟩)
  | next {text : String} : trimmed line = "// CHECK-NEXT:" ++ text → LineIs line (.check (.next (trimmed text)))
  | absent {text : String} : trimmed line = "// CHECK-NOT:" ++ text → LineIs line (.check (.absent (trimmed text)))
  | blank {text : String} : trimmed line = "// CHECK-EMPTY" ++ text → LineIs line (.check .blank)
  | present {text : String} : trimmed line = "// CHECK:" ++ text → LineIs line (.check (.present (trimmed text)))
  | comment {text : String} : trimmed line = "// COM:" ++ text → LineIs line (.check (.comment (trimmed text)))
  | errorPattern {text : String} : trimmed line = "// ERROR:" ++ text → LineIs line (.errorPattern (trimmed text))
  | source : (∀ d ∈ directives, ∀ text, trimmed line ≠ d ++ text) → LineIs line (.source line)

/-- Lines sorted into runs, checks, error patterns and source lines, in the order of the text. -/
inductive Sorted : List String → List Run → List Check → List String → List String → Prop
  | nil : Sorted [] [] [] [] []
  | run {line ls rs cs es ss} {r : Run} : LineIs line (.run r) → Sorted ls rs cs es ss →
      Sorted (line :: ls) (r :: rs) cs es ss
  | check {line ls rs cs es ss} {c : Check} : LineIs line (.check c) → Sorted ls rs cs es ss →
      Sorted (line :: ls) rs (c :: cs) es ss
  | errorPattern {line ls rs cs es ss} {e : String} : LineIs line (.errorPattern e) → Sorted ls rs cs es ss →
      Sorted (line :: ls) rs cs (e :: es) ss
  | source {line ls rs cs es ss} {s : String} : LineIs line (.source s) → Sorted ls rs cs es ss →
      Sorted (line :: ls) rs cs es (s :: ss)

variable {start text rest line d d' : String} {part : FixtureLine}

lemma textAfter?_eq_some : textAfter? start text = some rest ↔ text = start ++ rest := by
  simp only [textAfter?, after?, Option.map_eq_some_iff, Option.ite_none_right_eq_some, List.isPrefixOf_iff_prefix]
  constructor
  · rintro ⟨_, ⟨⟨r, hr⟩, he⟩, rfl⟩
    obtain rfl := Option.some.inj he
    apply String.toList_injective
    rw [← hr, String.toList_append, List.drop_left, String.toList_ofList]
  · rintro rfl
    simp

lemma textAfter?_eq_none : textAfter? start text = none ↔ ∀ rest, text ≠ start ++ rest := by
  rw [Option.eq_none_iff_forall_not_mem]
  exact forall_congr' fun _ => not_congr textAfter?_eq_some

lemma textAfter?_others (hd : d ∈ directives) (h : text = d ++ rest) :
    ∀ d' ∈ directives, d' ≠ d → textAfter? d' text = none := by
  have hdistinct : ∀ d ∈ directives, ∀ d' ∈ directives, d.toList <+: d'.toList → d = d' := by decide +kernel
  intro d' hd' hne
  rw [textAfter?_eq_none]
  intro rest' he
  have hl := congrArg String.toList (h.symm.trans he)
  rw [String.toList_append, String.toList_append] at hl
  rcases List.prefix_or_prefix_of_prefix ⟨_, hl⟩ (List.prefix_append _ _) with h | h
  · exact hne (hdistinct d hd d' hd' h).symm
  · exact hne (hdistinct d' hd' d hd h)

lemma ofText?_eq (text : String) : Run.ofText? text =
    match textAfter? "not " (trimmed text) with
    | some invocation => match wordsOf invocation with
      | [] => none
      | command :: arguments => some ⟨command, arguments, true⟩
    | none => match wordsOf text with
      | [] => none
      | command :: arguments => some ⟨command, arguments, false⟩ := by
  unfold Run.ofText?
  cases textAfter? "not " (trimmed text) with
  | none => rfl
  | some invocation => rfl

lemma ofLine_of_lineIs (h : LineIs line part) : FixtureLine.ofLine line = .ok part := by
  cases h with
  | run ht hnot hw =>
    have hrun := textAfter?_eq_some.mpr ht
    have hnone := textAfter?_eq_none.mpr hnot
    simp only [FixtureLine.ofLine, ofText?_eq, hrun, hnone, hw]
  | failingRun ht hnot hw =>
    have hrun := textAfter?_eq_some.mpr ht
    have hsome := textAfter?_eq_some.mpr hnot
    simp only [FixtureLine.ofLine, ofText?_eq, hrun, hsome, hw]
  | source hn =>
    have hnone : ∀ d ∈ directives, textAfter? d (trimmed line) = none := fun d hd => textAfter?_eq_none.mpr (hn d hd)
    simp only [directives, List.forall_mem_cons] at hnone
    simp only [FixtureLine.ofLine, FixtureLine.checkOf?, hnone]
    rfl
  | next ht | absent ht | blank ht | present ht | comment ht | errorPattern ht =>
    have hothers := textAfter?_others (by simp [directives]) ht
    simp [directives] at hothers
    simp only [FixtureLine.ofLine, FixtureLine.checkOf?, textAfter?_eq_some.mpr ht, hothers]
    rfl

lemma lineIs_run {r : Run} (ht : trimmed line = "// RUN:" ++ text) (hr : Run.ofText? text = some r) :
    LineIs line (.run r) := by
  rw [ofText?_eq] at hr
  cases hn : textAfter? "not " (trimmed text) with
  | none =>
    simp only [hn] at hr
    cases hw : wordsOf text with
    | nil => simp [hw] at hr
    | cons command arguments =>
      obtain rfl : _ = r := by simpa [hw] using hr
      exact .run ht (textAfter?_eq_none.mp hn) hw
  | some invocation =>
    simp only [hn] at hr
    cases hw : wordsOf invocation with
    | nil => simp [hw] at hr
    | cons command arguments =>
      obtain rfl : _ = r := by simpa [hw] using hr
      exact .failingRun ht (textAfter?_eq_some.mp hn) hw

lemma lineIs_iff : LineIs line part ↔ FixtureLine.ofLine line = .ok part := by
  refine ⟨ofLine_of_lineIs, fun h => ?_⟩
  have hpart {q : FixtureLine} (hq : LineIs line q) : LineIs line part := by
    obtain rfl := Except.ok.inj ((ofLine_of_lineIs hq).symm.trans h)
    exact hq
  by_cases hd : ∀ d ∈ directives, ∀ text, trimmed line ≠ d ++ text
  · exact hpart (.source hd)
  · push Not at hd
    obtain ⟨d, hd, text, ht⟩ := hd
    simp only [directives, List.mem_cons, List.not_mem_nil, or_false] at hd
    rcases hd with rfl | rfl | rfl | rfl | rfl | rfl | rfl
    · simp only [FixtureLine.ofLine, textAfter?_eq_some.mpr ht] at h
      split at h
      · next r hr =>
        obtain rfl := Except.ok.inj h
        exact lineIs_run ht hr
      · cases h
    · exact hpart (.next ht)
    · exact hpart (.absent ht)
    · exact hpart (.blank ht)
    · exact hpart (.present ht)
    · exact hpart (.comment ht)
    · exact hpart (.errorPattern ht)

lemma sorted_iff {ls : List String} {rs : List Run} {cs : List Check} {es ss : List String} :
    Sorted ls rs cs es ss ↔ ∃ parts, ls.mapM FixtureLine.ofLine = .ok parts ∧
      parts.filterMap FixtureLine.run? = rs ∧ parts.filterMap FixtureLine.check? = cs ∧
        parts.filterMap FixtureLine.errorPattern? = es ∧ parts.filterMap FixtureLine.source? = ss := by
  constructor
  · intro h
    have hcons {line : String} {part : FixtureLine} {ls : List String} {parts : List FixtureLine}
        (hl : LineIs line part) (hp : ls.mapM FixtureLine.ofLine = .ok parts) :
        (line :: ls).mapM FixtureLine.ofLine = .ok (part :: parts) := by
      rw [List.mapM_cons, lineIs_iff.mp hl, hp]
      rfl
    induction h with
    | nil => exact ⟨[], rfl, rfl, rfl, rfl, rfl⟩
    | run hl _ ih | check hl _ ih | errorPattern hl _ ih | source hl _ ih =>
      obtain ⟨parts, hp, rfl, rfl, rfl, rfl⟩ := ih
      exact ⟨_, hcons hl hp, rfl, rfl, rfl, rfl⟩
  · rintro ⟨parts, hp, rfl, rfl, rfl, rfl⟩
    induction ls generalizing parts with
    | nil =>
      obtain rfl := pure_eq_ok.mp hp
      exact .nil
    | cons line ls ih =>
      rw [List.mapM_cons] at hp
      obtain ⟨part, hl, hp⟩ := bind_eq_ok.mp hp
      obtain ⟨others, ho, he⟩ := bind_eq_ok.mp hp
      obtain rfl := pure_eq_ok.mp he
      have hs := ih others ho
      rw [← lineIs_iff] at hl
      cases part with
      | run r => exact .run hl hs
      | check c => exact .check hl hs
      | errorPattern e => exact .errorPattern hl hs
      | source s => exact .source hl hs

def isSource (l : List Char) : Bool :=
  directives.all fun d => !d.toList.isPrefixOf (trim l)

lemma isSource_iff {l : List Char} : isSource l ↔ ∀ d ∈ directives, ¬ d.toList <+: trim l := by
  simp only [isSource, List.all_eq_true, Bool.not_eq_true', ← Bool.not_eq_true, List.isPrefixOf_iff_prefix]

lemma trimEnd_prefix (cs : List Char) : trimEnd cs <+: cs := by
  rw [trimEnd, ← List.reverse_suffix, List.reverse_reverse]
  exact List.dropWhile_suffix _

lemma keepsCode_isSource : KeepsCode isSource where
  nil := by decide
  blank c l hc := by
    have ht : trim (c :: l) = trim l := congrArg trimEnd (List.dropWhile_cons_of_pos hc)
    rw [isSource, ht, isSource]
  solid c l hc hs := by
    have hslash : ∀ d ∈ directives, d.toList.head? = some '/' := by decide +kernel
    rw [isSource_iff]
    intro d hd hp
    have ht : trim (c :: l) <+: c :: l := by
      rw [trim, trimStart, List.dropWhile_cons_of_neg hc]
      exact trimEnd_prefix _
    obtain ⟨r, hr⟩ := hp.trans ht
    obtain ⟨q, hq⟩ := List.head?_eq_some_iff.mp (hslash d hd)
    rw [hq] at hr
    exact hs (List.cons.inj hr).1.symm

lemma not_isSource (hd : d ∈ directives) (ht : trimmed line = d ++ text) : ¬ isSource line.toList := by
  intro hs
  refine isSource_iff.mp hs d hd ⟨text.toList, ?_⟩
  rw [← String.toList_append, ← ht, trimmed, String.toList_ofList]

lemma isSource_of_forall (h : ∀ d ∈ directives, ∀ text, trimmed line ≠ d ++ text) : isSource line.toList := by
  rw [isSource_iff]
  rintro d hd ⟨r, hr⟩
  refine h d hd (.ofList r) ?_
  rw [trimmed, ← hr, String.ofList_append, String.ofList_toList]

lemma sources_of_sorted {ls : List String} {rs : List Run} {cs : List Check} {es ss : List String}
    (h : Sorted ls rs cs es ss) : ss = ls.filter (isSource ·.toList) := by
  have hneg {line : String} {part : FixtureLine} (hl : LineIs line part) (hp : part.source? = none) :
      ¬ isSource line.toList := by
    cases hl with
    | run ht _ _ | failingRun ht _ _ => exact not_isSource (by simp [directives]) ht
    | source _ => cases hp
    | _ ht => exact not_isSource (by simp [directives]) ht
  induction h with
  | nil => rfl
  | run hl _ ih | check hl _ ih | errorPattern hl _ ih => rw [List.filter_cons, if_neg (hneg hl rfl), ih]
  | source hl _ ih =>
    cases hl with
    | source hn => rw [List.filter_cons, if_pos (isSource_of_forall hn), ih]

/-- Every line of a fixture has one place, and if no label, literal or exit fragment goes over the end of a
line then the source lines alone are the same program as all lines. -/
theorem parse_fixture {content : String} {fixture : Fixture} (h : Fixture.parse content = .ok fixture) :
    (∃ sources, (∀ rs cs es ss, Sorted (linesOf content) rs cs es ss ↔
        rs = fixture.runs ∧ cs = fixture.checks ∧ es = fixture.errorPatterns ∧ ss = sources) ∧
      fixture.source = "\n".intercalate sources) ∧
    ∀ p, Program.parse content = .ok p → OnOneLine p.spellings → Program.parse fixture.source = .ok p := by
  rw [Fixture.parse] at h
  cases hm : (linesOf content).mapM FixtureLine.ofLine with
  | error e =>
    rw [hm] at h
    cases h
  | ok parts =>
    rw [hm] at h
    obtain rfl := Except.ok.inj h
    have hsorted := sorted_iff.mpr ⟨parts, hm, rfl, rfl, rfl, rfl⟩
    refine ⟨⟨parts.filterMap FixtureLine.source?, fun rs cs es ss => ?_, rfl⟩, fun p hp hs => ?_⟩
    · constructor
      · intro h
        obtain ⟨parts', hm', rfl, rfl, rfl, rfl⟩ := sorted_iff.mp h
        obtain rfl := Except.ok.inj (hm.symm.trans hm')
        exact ⟨rfl, rfl, rfl, rfl⟩
      · rintro ⟨rfl, rfl, rfl, rfl⟩
        exact hsorted
    · have hsource : (Fixture.ofLines parts).source =
          .ofList (['\n'].intercalate ((lines content.toList).filter isSource)) := by
        apply String.toList_injective
        rw [String.toList_ofList, Fixture.ofLines, sources_of_sorted hsorted, String.toList_intercalate]
        simp [linesOf, List.filter_map, Function.comp_def]
      rw [hsource]
      exact parse_keptLines keepsCode_isSource hp hs

def directedText : String :=
  "// CHECK: x\r\non a fn (): b \x7b\n  emit c // RUN: d\n  // COM: y\n\x7d\n"

def directedProgram : Program where
  constants := []
  events := []
  handlers := [⟨"a", ⟨⟨[], none⟩, "b", [.emit "c" none]⟩⟩]

theorem parse_directedText : ∃ fixture, Fixture.parse directedText = .ok fixture ∧
    fixture.checks = [.present "x", .comment "y"] ∧ fixture.source = "on a fn (): b \x7b\n  emit c // RUN: d\n\x7d" ∧
      Program.parse fixture.source = .ok directedProgram := by
  have h : Fixture.parse directedText = .ok ⟨[], [.present "x", .comment "y"], [],
      "on a fn (): b \x7b\n  emit c // RUN: d\n\x7d"⟩ := rfl
  exact ⟨_, h, rfl, rfl, (parse_fixture h).2 directedProgram rfl (by decide)⟩

end AmmCompiler
