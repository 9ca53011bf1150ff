import AmmCompiler.Proofs.Text.ByteOrder
import AmmCompiler.Statistics
import AmmCompiler.Statistics.Count
import Mathlib.Data.List.Permutation

/-! The report depends on the calls alone, in whatever order they were recorded and in whatever order the counts
are gone through, and its breakdown lists the opcodes with the most calls. -/

namespace AmmCompiler

def Ahead (a b : String × Nat) : Prop :=
  b.2 < a.2 ∨ a.2 = b.2 ∧ Text.bytes a.1 < Text.bytes b.1

structure TopTen (entries listed : List (String × Nat)) : Prop where
  length : listed.length = min 10 entries.length
  distinct : (listed.map Prod.fst).Nodup
  exact : ∀ e ∈ listed, e ∈ entries
  ordered : listed.Pairwise Ahead
  leftOut : ∀ e ∈ entries, e ∉ listed → ∀ first ∈ listed, Ahead first e

namespace Statistics

def recordCalls (s : Statistics) (calls : List (String × Bool)) : Statistics :=
  calls.foldl (fun s call => s.recordCall call.1 call.2) s

def breakdown (listed : List (String × Nat)) : String :=
  if listed = [] then ""
  else "  Opcode breakdown:\n" ++ String.join (listed.map fun e => "    " ++ e.1 ++ ": " ++ toString e.2 ++ "\n")

/-- The report when the counts are those of `entries`, gone through in their order. -/
def reportIn (s : Statistics) (entries : List (String × Nat)) : String :=
  ({ s with opcodes := .empty } : Statistics).report ++ breakdown ((entries.mergeSort Tally.precedes).take 10)

end Statistics

namespace Tally

variable {tally : Tally} {a b c e : String × Nat} {l l' : List (String × Nat)} {name : String}

lemma precedes_iff : precedes a b = true ↔ b.2 < a.2 ∨ a.2 = b.2 ∧ a.1 ≤ b.1 := by
  simp [precedes]

lemma precedes_trans (hab : precedes a b = true) (hbc : precedes b c = true) : precedes a c = true := by
  rw [precedes_iff] at *
  rcases hab with hab | ⟨hab, hle⟩
  · left
    omega
  · rcases hbc with hbc | ⟨hbc, hle'⟩
    · left
      omega
    · exact .inr ⟨hab.trans hbc, String.le_trans hle hle'⟩

lemma precedes_total (a b : String × Nat) : (precedes a b || precedes b a) = true := by
  rw [Bool.or_eq_true, precedes_iff, precedes_iff]
  rcases Nat.lt_trichotomy a.2 b.2 with hlt | heq | hlt
  · exact .inr (.inl hlt)
  · rcases String.le_total a.1 b.1 with hle | hle
    · exact .inl (.inr ⟨heq, hle⟩)
    · exact .inr (.inr ⟨heq.symm, hle⟩)
  · exact .inl (.inl hlt)

lemma precedes_antisymm (hab : precedes a b = true) (hba : precedes b a = true) : a = b := by
  rw [precedes_iff] at *
  rcases hab with hab | ⟨hab, hle⟩
  · omega
  · rcases hba with hba | ⟨_, hle'⟩
    · omega
    · exact Prod.ext (String.le_antisymm hle hle') hab

lemma ahead_of_precedes (h : precedes a b = true) (hne : a.1 ≠ b.1) : Ahead a b := by
  rcases precedes_iff.mp h with hlt | ⟨heq, hle⟩
  · exact .inl hlt
  · exact .inr ⟨heq, Text.bytes_lt_iff.mpr (Std.lt_of_le_of_ne hle hne)⟩

lemma pairwise_sorted (l : List (String × Nat)) :
    (l.mergeSort precedes).Pairwise fun a b => precedes a b = true :=
  @List.pairwise_mergeSort _ precedes (fun _ _ _ => precedes_trans) precedes_total l

lemma sorted_of_perm (h : l.Perm l') : l.mergeSort precedes = l'.mergeSort precedes := by
  have hperm : (l.mergeSort precedes).Perm (l'.mergeSort precedes) :=
    (List.mergeSort_perm l _).trans (h.trans (List.mergeSort_perm l' _).symm)
  exact hperm.eq_of_pairwise (fun a b _ _ => precedes_antisymm) (pairwise_sorted l) (pairwise_sorted l')

lemma distinct_entries (tally : Tally) : (tally.entries.map Prod.fst).Nodup :=
  tally.ascending.imp fun h => Std.ne_of_lt h

lemma ahead_sorted (h : (l.map Prod.fst).Nodup) : (l.mergeSort precedes).Pairwise Ahead := by
  have hnames : ((l.mergeSort precedes).map Prod.fst).Nodup := ((List.mergeSort_perm l _).map _).nodup_iff.mpr h
  have hne := List.pairwise_map.mp hnames
  exact ((pairwise_sorted l).and hne).imp fun ⟨hp, hn⟩ => ahead_of_precedes hp hn

lemma countIn_of_mem (hd : (l.map Prod.fst).Nodup) (he : e ∈ l) : countIn e.1 l = e.2 := by
  induction l with
  | nil => cases he
  | cons first others ih =>
    obtain ⟨hfirst, hd⟩ := List.nodup_cons.mp hd
    rcases List.mem_cons.mp he with rfl | he
    · exact if_pos rfl
    · have hne : e.1 ≠ first.1 := fun h => hfirst (h ▸ List.mem_map_of_mem he)
      exact (if_neg hne).trans (ih hd he)

lemma mem_entries_iff : e ∈ tally.entries ↔ e.2 = tally.count e.1 ∧ 0 < e.2 := by
  constructor
  · intro he
    exact ⟨(countIn_of_mem tally.distinct_entries he).symm, tally.positive e he⟩
  · rintro ⟨hcount, hpos⟩
    rw [hcount, count, pos_countIn_iff tally.positive, List.mem_map] at hpos
    obtain ⟨other, ho, hname⟩ := hpos
    have hother : tally.count e.1 = other.2 := hname ▸ countIn_of_mem tally.distinct_entries ho
    obtain rfl : e = other := Prod.ext hname.symm (hcount.trans hother)
    exact ho

lemma topTen_sorted (h : (l.map Prod.fst).Nodup) : TopTen l ((l.mergeSort precedes).take 10) := by
  have hperm : (l.mergeSort precedes).Perm l := List.mergeSort_perm _ _
  have hsorted := ahead_sorted h
  rw [← List.take_append_drop 10 (l.mergeSort precedes), List.pairwise_append] at hsorted
  obtain ⟨hlisted, _, hahead⟩ := hsorted
  refine ⟨?_, ?_, fun e he => ?_, hlisted, fun e he hn first hf => hahead first hf e ?_⟩
  · rw [List.length_take, hperm.length_eq]
  · have hnames := (hperm.map Prod.fst).nodup_iff.mpr h
    exact hnames.sublist ((List.take_sublist 10 _).map _)
  · exact hperm.mem_iff.mp (List.mem_of_mem_take he)
  · have hm := hperm.mem_iff.mpr he
    rw [← List.take_append_drop 10 (l.mergeSort precedes), List.mem_append] at hm
    exact hm.resolve_left hn

lemma add_right_comm (tally : Tally) (x y : String) : (tally.add x).add y = (tally.add y).add x := by
  apply ext_count
  intro z
  rw [count_add, count_add, count_add, count_add, Nat.add_right_comm]

end Tally

namespace Statistics

variable {s : Statistics} {calls calls' : List (String × Bool)} {entries : List (String × Nat)}

lemma recordCall_comm (s : Statistics) (a b : String × Bool) :
    (s.recordCall a.1 a.2).recordCall b.1 b.2 = (s.recordCall b.1 b.2).recordCall a.1 a.2 := by
  obtain ⟨x, p⟩ := a
  obtain ⟨y, q⟩ := b
  cases p <;> cases q <;> simp [recordCall, Tally.add_right_comm _ x y]

lemma recordCalls_perm (h : calls.Perm calls') (s : Statistics) : s.recordCalls calls = s.recordCalls calls' :=
  h.foldl_eq' (fun a _ b _ s => recordCall_comm s a b) s

lemma count_recordCall (s : Statistics) (opcode name : String) (suspending : Bool) :
    (s.recordCall opcode suspending).opcodes.count name = s.opcodes.count name + if name = opcode then 1 else 0 := by
  cases suspending <;> exact Tally.count_add _ _ _

lemma count_recordCalls (s : Statistics) (calls : List (String × Bool)) (name : String) :
    (s.recordCalls calls).opcodes.count name = s.opcodes.count name + (calls.map Prod.fst).count name := by
  induction calls generalizing s with
  | nil => rfl
  | cons call calls ih =>
    have hcall := ih (s.recordCall call.1 call.2)
    rw [count_recordCall] at hcall
    refine hcall.trans ?_
    rw [List.map_cons, List.count_cons, Nat.add_assoc]
    by_cases h : name = call.1
    · simp [h, Nat.add_comm]
    · simp [h, Ne.symm h]

lemma busiest_eq_nil (tally : Tally) : tally.busiest = [] ↔ tally.entries = [] := by
  rw [← List.length_eq_zero_iff, ← List.length_eq_zero_iff, Tally.busiest,
    (Tally.topTen_sorted tally.distinct_entries).length]
  omega

lemma report_eq (s : Statistics) : s.report = s.reportIn s.opcodes.entries := by
  have hlines : s.reportLines = ({ s with opcodes := .empty } : Statistics).reportLines ++ s.opcodeLines := by
    simp only [reportLines, opcodeLines]
    exact (congrArg (· ++ _) (List.append_nil _)).symm
  rw [report, hlines, List.map_append, String.join_append]
  change _ = ({ s with opcodes := .empty } : Statistics).report ++ breakdown s.opcodes.busiest
  congr 1
  rw [opcodeLines, breakdown]
  simp only [List.isEmpty_iff, busiest_eq_nil]
  split
  · rfl
  · rw [List.map_cons, String.join_cons, List.map_map]
    rfl

/-- A list of counts with distinct names stands for a map, with the order in which it is gone through. -/
theorem report_of_statistics (s : Statistics) :
    (∀ calls calls', calls.Perm calls' → s.recordCalls calls = s.recordCalls calls' ∧
      (s.recordCalls calls).report = (s.recordCalls calls').report) ∧
    (∀ calls name, (s.recordCalls calls).opcodes.count name =
      s.opcodes.count name + (calls.map Prod.fst).count name) ∧
    (∀ e, e ∈ s.opcodes.entries ↔ e.2 = s.opcodes.count e.1 ∧ 0 < e.2) ∧
    (∀ entries, entries.Perm s.opcodes.entries → s.reportIn entries = s.report) ∧
    (∀ entries entries', entries.Perm entries' → s.reportIn entries = s.reportIn entries') ∧
    ∀ entries, (entries.map Prod.fst).Nodup → ∃ listed, TopTen entries listed ∧
      s.reportIn entries = ({ s with opcodes := .empty } : Statistics).report ++ breakdown listed := by
  have hreport (entries entries' : List (String × Nat)) (h : entries.Perm entries') :
      s.reportIn entries = s.reportIn entries' := by
    rw [reportIn, Tally.sorted_of_perm h, reportIn]
  refine ⟨fun calls calls' h => ?_, count_recordCalls s, fun e => Tally.mem_entries_iff,
    fun entries h => (hreport _ _ h).trans (report_eq s).symm, hreport,
    fun entries h => ⟨_, Tally.topTen_sorted h, rfl⟩⟩
  rw [recordCalls_perm h]
  exact ⟨rfl, rfl⟩

def crowdedCalls : List (String × Bool) :=
  ("k", true) :: ["j", "i", "h", "g", "f", "e", "d", "c", "b", "a", "k"].map (·, false)

theorem report_crowdedCalls : ∃ s, s = Statistics.empty.recordCalls crowdedCalls ∧
    Statistics.empty.recordCalls crowdedCalls.reverse = s ∧ s.reportIn s.opcodes.entries.reverse = s.report ∧
      s.opcodes.count "k" = 2 ∧
      (∃ listed, TopTen [("x", 1), ("y", 0)] listed ∧
        s.reportIn [("x", 1), ("y", 0)] = ({ s with opcodes := .empty } : Statistics).report ++ breakdown listed) ∧
      s.opcodes.busiest.map Prod.fst = ["k", "a", "b", "c", "d", "e", "f", "g", "h", "i"] := by
  obtain ⟨hcalls, hcount, _⟩ := report_of_statistics .empty
  obtain ⟨_, _, _, hentries, _, hlisted⟩ := report_of_statistics (Statistics.empty.recordCalls crowdedCalls)
  refine ⟨_, rfl, (hcalls _ _ (List.reverse_perm _)).1, hentries _ (List.reverse_perm _), ?_, hlisted _ (by decide), ?_⟩
  · rw [hcount]
    rfl
  · cbv

end Statistics

end AmmCompiler
