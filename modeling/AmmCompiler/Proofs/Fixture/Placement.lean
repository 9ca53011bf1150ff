import AmmCompiler.Fixture.Check
import Mathlib.Data.List.Forall2
import Mathlib.Data.List.TakeWhile
import Mathlib.Order.Bounds.Basic
import Mathlib.Tactic.Lemma

/-! An inspection finds no mismatch exactly when its checks can be placed on the lines of the output, each on
the line that it has to take. For checks that only look for a pattern, any lines in their order will do. -/

namespace AmmCompiler

open Text

def Shows (lines : List String) (pattern : String) (n : Nat) : Prop :=
  ∃ line, lines[n]? = some line ∧ pattern.toList <:+: line.toList

/-- Which line a check takes, and whether it takes one, when `cursor` is the first line that is left. -/
inductive Check.Takes (lines : List String) (cursor : Nat) : Check → Option Nat → Prop
  | present {pattern : String} {n : Nat} : IsLeast {n | cursor ≤ n ∧ Shows lines pattern n} n →
      Takes lines cursor (.present pattern) (some n)
  | next {pattern : String} : Shows lines pattern cursor → Takes lines cursor (.next pattern) (some cursor)
  | blank {line : String} : lines[cursor]? = some line → (∀ c ∈ line.toList, isBlank c) →
      Takes lines cursor .blank (some cursor)
  | ended : lines.length ≤ cursor → Takes lines cursor .blank none
  | absent {pattern : String} : (∀ n, cursor ≤ n → ¬ Shows lines pattern n) → Takes lines cursor (.absent pattern) none
  | comment {text : String} : Takes lines cursor (.comment text) none

def Check.pattern? : Check → Option String
  | present pattern => some pattern
  | _ => none

def Check.isComment : Check → Bool
  | comment _ => true
  | _ => false

abbrev Placement := List (Check × Option Nat)

namespace Placement

def checks (p : Placement) : List Check :=
  p.map Prod.fst

def taken (p : Placement) : List Nat :=
  p.filterMap Prod.snd

def cursor (start : Nat) (p : Placement) : Nat :=
  p.taken.getLast?.elim start (· + 1)

structure Valid (lines : List String) (p : Placement) : Prop where
  increasing : p.taken.Pairwise (· < ·)
  takes : ∀ before check line after, p = before ++ (check, line) :: after →
    check.Takes lines (cursor 0 before) line

inductive From (lines : List String) : Nat → Placement → Prop
  | nil {start : Nat} : From lines start []
  | cons {start : Nat} {check : Check} {line : Option Nat} {others : Placement} : check.Takes lines start line →
      From lines (line.elim start (· + 1)) others → From lines start ((check, line) :: others)

end Placement

open Placement

variable {lines : List String} {start n : Nat} {pattern : String} {check : Check} {line : Option Nat}
  {checks before after : List Check} {p : Placement}

lemma occursIn_iff {pattern cs : List Char} : occursIn pattern cs ↔ pattern <:+: cs := by
  induction cs with
  | nil => rw [occursIn, List.isEmpty_iff, List.infix_nil]
  | cons c cs ih => rw [occursIn, Bool.or_eq_true, List.isPrefixOf_iff_prefix, ih, List.infix_cons_iff]

lemma trimmed_eq_empty {line : String} : trimmed line = "" ↔ ∀ c ∈ line.toList, isBlank c := by
  have hempty : trimmed line = "" ↔ trim line.toList = [] := by
    rw [trimmed, ← String.toList_inj, String.toList_ofList, String.toList_empty]
  rw [hempty, trim, trimEnd, trimStart, trimStart, List.reverse_eq_nil_iff, List.dropWhile_eq_nil_iff]
  simp only [List.mem_reverse]
  constructor
  · intro h c hc
    rw [← List.takeWhile_append_dropWhile (p := isBlank) (l := line.toList)] at hc
    rcases List.mem_append.mp hc with hc | hc
    · exact List.mem_takeWhile_imp hc
    · exact h c hc
  · intro h c hc
    exact h c ((List.dropWhile_suffix _).subset hc)

lemma shows_iff : Shows lines pattern n ↔ ∃ h : n < lines.length, contains lines[n] pattern := by
  rw [Shows]
  constructor
  · rintro ⟨line, hl, hp⟩
    obtain ⟨h, rfl⟩ := List.getElem?_eq_some_iff.mp hl
    exact ⟨h, occursIn_iff.mpr hp⟩
  · rintro ⟨h, hc⟩
    exact ⟨_, List.getElem?_eq_getElem h, occursIn_iff.mp hc⟩

lemma shows_drop (i : Nat) : Shows (lines.drop start) pattern i ↔ Shows lines pattern (start + i) := by
  rw [Shows, Shows, List.getElem?_drop]

lemma findFrom_eq_none : findFrom lines start pattern = none ↔ ∀ n, start ≤ n → ¬ Shows lines pattern n := by
  have hnone : findFrom lines start pattern = none ↔ ∀ i, ¬ Shows (lines.drop start) pattern i := by
    rw [findFrom, Option.map_eq_none_iff, List.findIdx?_eq_none_iff]
    simp only [shows_iff, not_exists, Bool.not_eq_true, List.forall_mem_iff_forall_getElem]
  rw [hnone]
  constructor
  · intro h n hn
    rw [← Nat.add_sub_cancel' hn, ← shows_drop]
    exact h _
  · intro h i
    rw [shows_drop]
    exact h _ (Nat.le_add_right start i)

lemma findFrom_eq_some : findFrom lines start pattern = some n ↔
    IsLeast {n | start ≤ n ∧ Shows lines pattern n} n := by
  have hsome (i : Nat) : (lines.drop start).findIdx? (fun line => contains line pattern) = some i ↔
      Shows lines pattern (start + i) ∧ ∀ j < i, ¬ Shows lines pattern (start + j) := by
    rw [List.findIdx?_eq_some_iff_getElem, ← shows_drop, shows_iff]
    simp only [← shows_drop, @shows_iff (lines.drop start)]
    constructor
    · rintro ⟨h, hc, hmin⟩
      exact ⟨⟨h, hc⟩, fun j hj hs => hmin j hj hs.2⟩
    · rintro ⟨⟨h, hc⟩, hmin⟩
      exact ⟨h, hc, fun j hj hs => hmin j hj ⟨hj.trans h, hs⟩⟩
  rw [findFrom, Option.map_eq_some_iff]
  constructor
  · rintro ⟨i, hi, rfl⟩
    obtain ⟨hs, hmin⟩ := (hsome i).mp hi
    refine ⟨⟨Nat.le_add_right start i, hs⟩, ?_⟩
    rintro m ⟨hm, hsm⟩
    by_contra hlt
    refine hmin (m - start) (by omega) ?_
    rwa [Nat.add_sub_cancel' hm]
  · rintro ⟨⟨hn, hs⟩, hmin⟩
    refine ⟨n - start, (hsome _).mpr ⟨?_, fun j hj hsj => ?_⟩, Nat.add_sub_cancel' hn⟩
    · rwa [Nat.add_sub_cancel' hn]
    · have hle := hmin ⟨Nat.le_add_right start j, hsj⟩
      omega

lemma place_of_takes (h : check.Takes lines start line) :
    ∃ sighting, check.place lines start = .ok (sighting, line.elim start (· + 1)) := by
  cases h with
  | @present pattern n hn =>
    refine ⟨some (.present pattern n), ?_⟩
    simp only [Check.place, findFrom_eq_some.mpr hn, Option.elim_some]
  | @next pattern hs =>
    obtain ⟨line, hl, hp⟩ := hs
    have hc : contains line pattern = true := occursIn_iff.mpr hp
    refine ⟨some (.next pattern start), ?_⟩
    simp only [Check.place, hl, if_pos hc, Option.elim_some]
  | blank hl hb =>
    refine ⟨none, ?_⟩
    simp only [Check.place, hl, if_pos (trimmed_eq_empty.mpr hb), Option.elim_some]
  | ended hn =>
    refine ⟨none, ?_⟩
    simp only [Check.place, List.getElem?_eq_none_iff.mpr hn, Option.elim_none]
  | absent hn =>
    refine ⟨none, ?_⟩
    simp only [Check.place, findFrom_eq_none.mpr hn, Option.elim_none]
  | comment => exact ⟨none, rfl⟩

lemma takes_of_place {sighting : Option Sighting} (h : check.place lines start = .ok (sighting, n)) :
    ∃ line, check.Takes lines start line ∧ n = line.elim start (· + 1) := by
  cases check with
  | present pattern =>
    simp only [Check.place] at h
    split at h
    · next m hm =>
      obtain ⟨_, rfl⟩ := Prod.mk.inj (Except.ok.inj h)
      exact ⟨some m, .present (findFrom_eq_some.mp hm), rfl⟩
    · cases h
  | next pattern =>
    simp only [Check.place] at h
    split at h
    · next line hl =>
      split at h
      · next hc =>
        obtain ⟨_, rfl⟩ := Prod.mk.inj (Except.ok.inj h)
        exact ⟨some start, .next ⟨line, hl, occursIn_iff.mp hc⟩, rfl⟩
      · cases h
    · cases h
  | absent pattern =>
    simp only [Check.place] at h
    split at h
    · cases h
    · next hn =>
      obtain ⟨_, rfl⟩ := Prod.mk.inj (Except.ok.inj h)
      exact ⟨none, .absent (findFrom_eq_none.mp hn), rfl⟩
  | blank =>
    simp only [Check.place] at h
    split at h
    · next line hl =>
      split at h
      · next hb =>
        obtain ⟨_, rfl⟩ := Prod.mk.inj (Except.ok.inj h)
        exact ⟨some start, .blank hl (trimmed_eq_empty.mp hb), rfl⟩
      · cases h
    · next hl =>
      obtain ⟨_, rfl⟩ := Prod.mk.inj (Except.ok.inj h)
      exact ⟨none, .ended (List.getElem?_eq_none_iff.mp hl), rfl⟩
  | comment text =>
    obtain ⟨_, rfl⟩ := Prod.mk.inj (Except.ok.inj h)
    exact ⟨none, .comment, rfl⟩

lemma mismatch_cons : (inspectFrom lines start (check :: checks)).mismatch = none ↔
    ∃ line, check.Takes lines start line ∧ (inspectFrom lines (line.elim start (· + 1)) checks).mismatch = none := by
  rw [inspectFrom]
  constructor
  · intro h
    split at h
    · cases h
    · next sighting n hp =>
      obtain ⟨line, ht, rfl⟩ := takes_of_place hp
      exact ⟨line, ht, h⟩
  · rintro ⟨line, ht, h⟩
    obtain ⟨sighting, hp⟩ := place_of_takes ht
    simp only [hp, h]

lemma mismatch_iff_from : (inspectFrom lines start checks).mismatch = none ↔
    ∃ p : Placement, p.checks = checks ∧ p.From lines start := by
  induction checks generalizing start with
  | nil => exact ⟨fun _ => ⟨[], rfl, .nil⟩, fun _ => rfl⟩
  | cons check checks ih =>
    rw [mismatch_cons]
    constructor
    · rintro ⟨line, ht, h⟩
      obtain ⟨p, rfl, hp⟩ := ih.mp h
      exact ⟨(check, line) :: p, rfl, .cons ht hp⟩
    · rintro ⟨p, hp, hf⟩
      cases hf with
      | nil => cases hp
      | cons ht hf =>
        obtain ⟨rfl, rfl⟩ := List.cons.inj hp
        exact ⟨_, ht, ih.mpr ⟨_, rfl, hf⟩⟩

lemma cursor_cons : cursor start ((check, line) :: p) = cursor (line.elim start (· + 1)) p := by
  cases line with
  | none => rfl
  | some n =>
    change (List.getLast? (n :: p.taken)).elim start (· + 1) = p.taken.getLast?.elim (n + 1) (· + 1)
    rw [List.getLast?_cons]
    cases p.taken.getLast? <;> rfl

lemma le_of_takes (h : check.Takes lines start (some n)) : start ≤ n := by
  cases h with
  | present hn => exact hn.1.1
  | next _ => exact Nat.le_refl _
  | blank _ _ => exact Nat.le_refl _

lemma increasing_of_from (h : p.From lines start) : p.taken.Pairwise (· < ·) ∧ ∀ n ∈ p.taken, start ≤ n := by
  induction h with
  | nil => exact ⟨.nil, List.forall_mem_nil _⟩
  | @cons start check line others ht _ ih =>
    cases line with
    | none => exact ih
    | some n =>
      have hn := le_of_takes ht
      refine ⟨List.pairwise_cons.mpr ⟨fun m hm => ih.2 m hm, ih.1⟩, ?_⟩
      exact List.forall_mem_cons.mpr ⟨hn, fun m hm => (hn.trans (Nat.le_succ n)).trans (ih.2 m hm)⟩

lemma from_iff : p.From lines start ↔ ∀ before check line after, p = before ++ (check, line) :: after →
    check.Takes lines (cursor start before) line := by
  constructor
  · intro h
    induction h with
    | nil =>
      intro before check line after he
      exact absurd he.symm (List.append_ne_nil_of_right_ne_nil _ (List.cons_ne_nil _ _))
    | @cons start check line others ht _ ih =>
      intro before check' line' after he
      cases before with
      | nil =>
        obtain ⟨hmark, _⟩ := List.cons.inj he
        obtain ⟨rfl, rfl⟩ := Prod.mk.inj hmark
        exact ht
      | cons mark before =>
        obtain ⟨rfl, hothers⟩ := List.cons.inj he
        rw [cursor_cons]
        exact ih before check' line' after hothers
  · intro h
    induction p generalizing start with
    | nil => exact .nil
    | cons mark p ih =>
      refine .cons (h [] _ _ p rfl) (ih fun before check line after he => ?_)
      rw [← cursor_cons]
      exact h (mark :: before) check line after (congrArg _ he)

lemma valid_iff : p.Valid lines ↔ p.From lines 0 :=
  ⟨fun h => from_iff.mpr h.takes, fun h => ⟨(increasing_of_from h).1, from_iff.mp h⟩⟩

lemma mismatch_present : (inspectFrom lines start (.present pattern :: checks)).mismatch = none ↔
    ∃ n, IsLeast {n | start ≤ n ∧ Shows lines pattern n} n ∧ (inspectFrom lines (n + 1) checks).mismatch = none := by
  rw [mismatch_cons]
  constructor
  · rintro ⟨line, ht, h⟩
    cases ht with
    | present hn => exact ⟨_, hn, h⟩
  · rintro ⟨n, hn, h⟩
    exact ⟨some n, .present hn, h⟩

lemma inspectFrom_comment (text : String) :
    inspectFrom lines start (.comment text :: checks) = inspectFrom lines start checks :=
  rfl

lemma mismatch_plain (h : ∀ c ∈ checks, (∃ pattern, c = .present pattern) ∨ ∃ text, c = .comment text) :
    (inspectFrom lines start checks).mismatch = none ↔ ∃ ns : List Nat, ns.Pairwise (· < ·) ∧
      (∀ n ∈ ns, start ≤ n) ∧ List.Forall₂ (Shows lines) (checks.filterMap Check.pattern?) ns := by
  induction checks generalizing start with
  | nil => exact ⟨fun _ => ⟨[], .nil, List.forall_mem_nil _, .nil⟩, fun _ => rfl⟩
  | cons check checks ih =>
    obtain ⟨hcheck, hchecks⟩ := List.forall_mem_cons.mp h
    rcases hcheck with ⟨pattern, rfl⟩ | ⟨text, rfl⟩
    · rw [mismatch_present]
      constructor
      · rintro ⟨n, ⟨⟨hn, hs⟩, _⟩, hm⟩
        obtain ⟨ns, hlt, hle, hall⟩ := (ih hchecks).mp hm
        refine ⟨n :: ns, List.pairwise_cons.mpr ⟨hle, hlt⟩, ?_, .cons hs hall⟩
        exact List.forall_mem_cons.mpr ⟨hn, fun m hm => hn.trans (Nat.le_of_succ_le (hle m hm))⟩
      · rintro ⟨ns, hlt, hle, hall⟩
        cases hall with
        | @cons _ m _ ns hs hall =>
          obtain ⟨hm, hle⟩ := List.forall_mem_cons.mp hle
          obtain ⟨hfirst, hlt⟩ := List.pairwise_cons.mp hlt
          cases hf : findFrom lines start pattern with
          | none => exact absurd hs (findFrom_eq_none.mp hf m hm)
          | some n =>
            have hleast := findFrom_eq_some.mp hf
            have hnm : n ≤ m := hleast.2 ⟨hm, hs⟩
            refine ⟨n, hleast, (ih hchecks).mpr ⟨ns, hlt, fun k hk => ?_, hall⟩⟩
            exact (Nat.succ_le_succ hnm).trans (hfirst k hk)
    · rw [inspectFrom_comment, ih hchecks]
      rfl

lemma inspectFrom_filter : inspectFrom lines start (checks.filter fun c => !c.isComment) =
    inspectFrom lines start checks := by
  induction checks generalizing start with
  | nil => rfl
  | cons check checks ih =>
    cases check with
    | comment text => exact ih
    | _ =>
      rw [List.filter_cons_of_pos rfl, inspectFrom, inspectFrom]
      simp only [ih]

lemma mismatch_of_absent (h : (inspectFrom lines start (before ++ .absent pattern :: after)).mismatch = none) :
    (inspectFrom lines start (before ++ after)).mismatch = none := by
  induction before generalizing start with
  | nil =>
    obtain ⟨line, ht, h⟩ := mismatch_cons.mp h
    cases ht with
    | absent _ => exact h
  | cons check before ih =>
    obtain ⟨line, ht, h⟩ := mismatch_cons.mp h
    exact mismatch_cons.mpr ⟨line, ht, ih h⟩

/-- No mismatch is found exactly when the checks have a valid placement, and for checks that look for patterns
alone exactly when some lines show the patterns in their order. Comments do not matter, and a check that a
pattern is absent can be left out. -/
theorem mismatch_iff_placement (output : String) (checks : List Check) :
    ((inspect output checks).mismatch = none ↔ ∃ p : Placement, p.checks = checks ∧ p.Valid (linesOf output)) ∧
      ((∀ c ∈ checks, (∃ pattern, c = .present pattern) ∨ ∃ text, c = .comment text) →
        ((inspect output checks).mismatch = none ↔ ∃ ns : List Nat, ns.Pairwise (· < ·) ∧
          List.Forall₂ (Shows (linesOf output)) (checks.filterMap Check.pattern?) ns)) ∧
      (∀ others : List Check, others.filter (fun c => !c.isComment) = checks.filter (fun c => !c.isComment) →
        inspect output others = inspect output checks) ∧
      ∀ before pattern after, checks = before ++ .absent pattern :: after → (inspect output checks).mismatch = none →
        (inspect output (before ++ after)).mismatch = none := by
  refine ⟨?_, fun h => ?_, fun others h => ?_, ?_⟩
  · rw [inspect, mismatch_iff_from]
    simp only [valid_iff]
  · rw [inspect, mismatch_plain h]
    simp only [Nat.zero_le, implies_true, true_and]
  · rw [inspect, inspect, ← inspectFrom_filter, h, inspectFrom_filter]
  · rintro before pattern after rfl h
    exact mismatch_of_absent h

def placedOutput : String :=
  "a b\n \nc\n"

def placedChecks : List Check :=
  [.present "b", .comment "x", .blank, .absent "a", .next "c", .blank]

def plainChecks : List Check :=
  [.present "b", .comment "x", .present "c"]

theorem placement_placedChecks :
    (∃ p : Placement, p.checks = placedChecks ∧ p.Valid (linesOf placedOutput)) ∧
      (inspect placedOutput [.present "b", .comment "x", .blank, .next "c", .blank]).mismatch = none ∧
        inspect placedOutput [.present "b", .present "c"] = inspect placedOutput plainChecks ∧
          ∃ ns : List Nat, ns.Pairwise (· < ·) ∧ List.Forall₂ (Shows (linesOf placedOutput)) ["b", "c"] ns := by
  have hplaced : (inspect placedOutput placedChecks).mismatch = none := rfl
  have hplain : (inspect placedOutput plainChecks).mismatch = none := rfl
  have hkinds : ∀ c ∈ plainChecks, (∃ pattern, c = .present pattern) ∨ ∃ text, c = .comment text := by
    simp [plainChecks]
  obtain ⟨hvalid, _, _, habsent⟩ := mismatch_iff_placement placedOutput placedChecks
  obtain ⟨_, hlines, hcomment, _⟩ := mismatch_iff_placement placedOutput plainChecks
  exact ⟨hvalid.mp hplaced, habsent [.present "b", .comment "x", .blank] "a" [.next "c", .blank] rfl hplaced,
    hcomment _ rfl, (hlines hkinds).mp hplain⟩

end AmmCompiler
