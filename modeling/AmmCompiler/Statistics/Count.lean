import AmmCompiler.Statistics.Tally

namespace AmmCompiler.Tally

theorem countIn_eq_zero {a : String} {entries : List (String × Nat)} (h : a ∉ entries.map Prod.fst) :
    countIn a entries = 0 := by
  induction entries with
  | nil => rfl
  | cons e others ih =>
    simp only [List.map_cons, List.mem_cons, not_or] at h
    rw [countIn, if_neg h.1, ih h.2]

theorem not_mem_of_lt {a : String} {e : String × Nat} {entries : List (String × Nat)} (ha : a < e.1)
    (h : ((e :: entries).map Prod.fst).Pairwise (· < ·)) : a ∉ (e :: entries).map Prod.fst := by
  intro hm
  rcases List.mem_cons.mp hm with rfl | hm
  · exact String.lt_irrefl _ ha
  · exact String.lt_irrefl _ (String.lt_trans ha ((List.pairwise_cons.mp h).1 _ hm))

theorem countIn_addTo (a name : String) {entries : List (String × Nat)}
    (h : (entries.map Prod.fst).Pairwise (· < ·)) :
    countIn a (addTo name entries) = countIn a entries + if a = name then 1 else 0 := by
  induction entries with
  | nil => simp [addTo, countIn]
  | cons e others ih =>
    obtain ⟨first, n⟩ := e
    have hothers := (List.pairwise_cons.mp h).2
    simp only [addTo]
    split
    · next hlt =>
      by_cases ha : a = name
      · subst ha
        rw [countIn_eq_zero (not_mem_of_lt hlt h)]
        simp [countIn]
      · simp [countIn, ha]
    · split
      · next hne =>
        subst hne
        by_cases ha : a = name <;> simp [countIn, ha]
      · next hne =>
        by_cases ha : a = first
        · subst ha
          simp [countIn, Ne.symm hne]
        · simp [countIn, ha, ih hothers]

@[simp] theorem count_empty (a : String) : empty.count a = 0 :=
  rfl

@[simp] theorem count_add (tally : Tally) (a name : String) :
    (tally.add name).count a = tally.count a + if a = name then 1 else 0 :=
  countIn_addTo a name tally.ascending

theorem pos_countIn_iff {a : String} {entries : List (String × Nat)} (h : ∀ e ∈ entries, 0 < e.2) :
    0 < countIn a entries ↔ a ∈ entries.map Prod.fst := by
  induction entries with
  | nil => simp [countIn]
  | cons e others ih =>
    simp only [List.forall_mem_cons] at h
    simp only [countIn, List.map_cons, List.mem_cons]
    split
    · next ha => simp [ha, h.1]
    · next ha => simp [ha, ih h.2]

theorem entries_ext {s t : List (String × Nat)} (hs : (s.map Prod.fst).Pairwise (· < ·))
    (ht : (t.map Prod.fst).Pairwise (· < ·)) (ps : ∀ e ∈ s, 0 < e.2) (pt : ∀ e ∈ t, 0 < e.2)
    (h : ∀ a, countIn a s = countIn a t) : s = t := by
  induction s generalizing t with
  | nil =>
    cases t with
    | nil => rfl
    | cons e t =>
      have := h e.1
      have := pt e List.mem_cons_self
      simp only [countIn, ↓reduceIte] at *
      omega
  | cons d s ih =>
    have hd := h d.1
    have pd := ps d List.mem_cons_self
    simp only [countIn, ↓reduceIte] at hd
    cases t with
    | nil =>
      simp only [countIn] at hd
      omega
    | cons e t =>
      have he := h e.1
      have pe := pt e List.mem_cons_self
      simp only [countIn, ↓reduceIte] at he
      rcases Std.lt_trichotomy d.1 e.1 with hlt | heq | hlt
      · have h0 := countIn_eq_zero (not_mem_of_lt hlt ht)
        omega
      · simp only [countIn, heq, ↓reduceIte] at hd
        obtain rfl : d = e := Prod.ext heq hd
        refine congrArg _ (ih (List.pairwise_cons.mp hs).2 (List.pairwise_cons.mp ht).2
          (List.forall_mem_cons.mp ps).2 (List.forall_mem_cons.mp pt).2 fun a => ?_)
        by_cases ha : a = d.1
        · subst ha
          rw [countIn_eq_zero fun hm => String.lt_irrefl _ ((List.pairwise_cons.mp hs).1 _ hm),
            countIn_eq_zero fun hm => String.lt_irrefl _ ((List.pairwise_cons.mp ht).1 _ hm)]
        · have := h a
          simpa only [countIn, ha, ↓reduceIte] using this
      · have h0 := countIn_eq_zero (not_mem_of_lt hlt hs)
        simp only [countIn] at h0
        omega

theorem ext_count {s t : Tally} (h : ∀ a, s.count a = t.count a) : s = t := by
  obtain ⟨entries, hs, ps⟩ := s
  obtain ⟨entries', ht, pt⟩ := t
  obtain rfl : entries = entries' := entries_ext hs ht ps pt h
  rfl

end AmmCompiler.Tally
