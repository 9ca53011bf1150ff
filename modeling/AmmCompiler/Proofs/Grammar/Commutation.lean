import AmmCompiler.Proofs.Grammar.Respelling
import AmmCompiler.Proofs.Grammar.Locality

namespace AmmCompiler.Source

open Text Answer

inductive Respelt {β : Type} [Answer β] (φ : List Char → List Char) (g : β → β) (cs : List Char) :
    Except Failure β → Except Failure β → Prop
  | ok {b : β} : Passes cs (rest b) → Respelt φ g cs (.ok b) (.ok (g b))
  | error {f : Failure} : Passes cs f.rest → Respelt φ g cs (.error f) (.error ⟨φ f.rest, f.fault⟩)

def Commutes {β : Type} [Answer β] (φ : List Char → List Char) (g : β → β) (p : List Char → Except Failure β) :
    Prop :=
  ∀ cs, Respelt φ g cs (p cs) (p (φ cs))

def respell (φ : List Char → List Char) (s : String) : String :=
  .ofList (φ s.toList)

variable {α β γ δ : Type} {φ : List Char → List Char} {cs rest : List Char} {c : Char}

section Combinators

variable [Answer β] [Answer γ] {g : β → β} {g' : γ → γ} {x y : Except Failure β} {p : List Char → Except Failure β}

lemma Respelt.mono (h : Respelt φ g rest x y) (hp : Passes cs rest) : Respelt φ g cs x y := by
  cases h with
  | ok h => exact .ok (hp.trans h)
  | error h => exact .error (hp.trans h)

lemma Respelt.bindAt {q q' : β → Except Failure γ} (h : Respelt φ g cs x y)
    (hq : ∀ b, x = .ok b → Passes cs (Answer.rest b) → Respelt φ g' cs (q b) (q' (g b))) :
    Respelt φ g' cs (x >>= q) (y >>= q') := by
  cases h with
  | ok h => exact hq _ rfl h
  | error h => exact .error h

lemma Respelt.bind {q q' : β → Except Failure γ} (h : Respelt φ g cs x y)
    (hq : ∀ b, x = .ok b → Respelt φ g' (Answer.rest b) (q b) (q' (g b))) :
    Respelt φ g' cs (x >>= q) (y >>= q') :=
  h.bindAt fun b hb hp => (hq b hb).mono hp

lemma Respelt.done (b : β) : Respelt φ g (Answer.rest b) (.ok b) (.ok (g b)) :=
  .ok (.refl _)

lemma Commutes.ok (h : Commutes φ g p) {b : β} (hb : p cs = .ok b) :
    p (φ cs) = .ok (g b) ∧ Passes cs (Answer.rest b) := by
  have hr := h cs
  rw [hb] at hr
  generalize p (φ cs) = y at hr
  cases hr with
  | ok hp => exact ⟨rfl, hp⟩

lemma Commutes.error (h : Commutes φ g p) {f : Failure} (hf : p cs = .error f) :
    p (φ cs) = .error ⟨φ f.rest, f.fault⟩ ∧ Passes cs f.rest := by
  have hr := h cs
  rw [hf] at hr
  generalize p (φ cs) = y at hr
  cases hr with
  | error hp => exact ⟨rfl, hp⟩

lemma passes_nil (cs : List Char) : Passes cs [] :=
  ⟨cs, (List.append_nil cs).symm, .inl rfl⟩

lemma commutes_descend {P : (List Char → Except Failure β) → Prop}
    {step : (List Char → Except Failure β) → List Char → Except Failure β} (hφ : φ [] = [])
    (h : ∀ n, Commutes φ g (descendWithin step n) → Commutes φ g (step (descendWithin step n)))
    (hP : ∀ n, P (descendWithin step n)) (hd : Descends P step) : Commutes φ g (descend step) := by
  have hn (n : ℕ) : Commutes φ g (descendWithin step n) := by
    induction n with
    | zero =>
      intro cs
      have he : Respelt φ g cs (.error ⟨[], .value⟩) (.error ⟨φ [], .value⟩) := .error (passes_nil cs)
      rwa [hφ] at he
    | succ n ih => exact h n ih
  have he {n : ℕ} {cs : List Char} (hl : cs.length < n) : descend step cs = descendWithin step n cs :=
    descendWithin_eq hP hd (Nat.lt_succ_self _) hl
  intro cs
  have hcs : cs.length < cs.length + (φ cs).length + 1 := by omega
  have hφcs : (φ cs).length < cs.length + (φ cs).length + 1 := by omega
  rw [he hcs, he hφcs]
  exact hn _ cs

end Combinators

lemma Respelt.map {f : α → α} {f' : δ → δ} {x y : Except Failure (α × List Char)}
    (h : Respelt φ (Prod.map f φ) cs x y) (k k' : α → δ) (hk : ∀ a, f' (k a) = k' (f a)) :
    Respelt φ (Prod.map f' φ) cs (do let (a, rest) ← x; return (k a, rest))
      (do let (a, rest) ← y; return (k' a, rest)) := by
  refine h.bind ?_
  rintro ⟨a, rest⟩ _
  have hd := Respelt.done (φ := φ) (g := Prod.map f' φ) (k a, rest)
  rwa [Prod.map_apply, hk] at hd

lemma Respelt.give {f : α → α} {x y : Except Failure (List Char)} (h : Respelt φ φ cs x y) (a : α) :
    Respelt φ (Prod.map f φ) cs (do let rest ← x; return (a, rest)) (do let rest ← y; return (f a, rest)) :=
  h.bind fun rest _ => .done (g := Prod.map f φ) (a, rest)

lemma passes_symbol? (hc : IsPlain c) (h : symbol? c cs = some rest) : Passes cs rest :=
  passes_plain (w := [c]) (List.forall_mem_singleton.mpr hc) (skipGap_of_symbol? h)

lemma passes_unsigned (cs : List Char) : Passes cs (unsigned cs) := by
  rcases unsigned_eq cs with hu | hu
  · rw [hu]
    exact .refl cs
  · conv_lhs => rw [hu]
    have hplain : ∀ c ∈ ['-'], IsPlain c := List.forall_mem_singleton.mpr (by decide)
    exact passes_append (whole_of_isPlain hplain) (apart_of_isPlain hplain _)

variable (h : Respelling φ)

include h

lemma respell_of_isPlain {s : String} (hs : ∀ c ∈ s.toList, IsPlain c) : respell φ s = s := by
  rw [respell, h.of_isPlain hs, String.ofList_toList]

lemma Respelling.consumed (hp : Passes cs rest) : consumed (φ cs) (φ rest) = φ (consumed cs rest) := by
  obtain ⟨u, rfl, rfl | ⟨hu, hr⟩⟩ := hp
  · rw [h.nil, List.append_nil, ← List.append_nil (φ u), consumed_append, ← List.append_nil u, consumed_append,
      List.append_nil]
  · rw [h.append hu hr, consumed_append, consumed_append]

lemma respelt_token (hp : Passes cs rest) : Respelt φ (Prod.map (respell φ) φ) cs
    (.ok (.ofList (Source.consumed cs rest), rest)) (.ok (.ofList (Source.consumed (φ cs) (φ rest)), φ rest)) := by
  have ht := Respelt.ok (φ := φ) (g := Prod.map (respell φ) φ) (b := (.ofList (Source.consumed cs rest), rest)) hp
  rwa [Prod.map_apply, respell, String.toList_ofList, ← h.consumed hp] at ht

lemma commutes_name : Commutes φ (Prod.map id φ) name := by
  intro cs
  cases hn : name cs with
  | error f =>
    obtain ⟨rfl, hc⟩ := name_eq_error.mp hn
    have hφ : name (φ cs) = .error ⟨φ (skipGap cs), .identifier⟩ := by
      rw [name_eq_error, h.skipGap, h.head_skipGap]
      exact ⟨rfl, hc⟩
    rw [hφ]
    exact .error (passes_skipGap cs)
  | ok b =>
    obtain ⟨w, rest⟩ := b
    obtain ⟨hw, hg, hr⟩ := skipGap_of_name hn
    have hφ : name (φ cs) = .ok (w, φ rest) := by
      refine name_of_skipGap ?_ hw fun c hc hp => hr c (h.head_of (not_isBlank_of_isNamePart hp) hc) hp
      rw [h.skipGap, hg, h.append_plain hw.isPlain]
    rw [hφ]
    exact .ok (passes_plain hw.isPlain hg)

lemma symbol?_respell (hc : IsPlain c) (cs : List Char) : symbol? c (φ cs) = (symbol? c cs).map φ := by
  cases hs : symbol? c cs with
  | none => rwa [Option.map_none, symbol?_eq_none, h.skipGap, h.head_skipGap, ← symbol?_eq_none]
  | some rest =>
    have hg := h.skipGap cs
    rw [skipGap_of_symbol? hs, h.cons hc] at hg
    rw [Option.map_some, ← symbol_eq_ok, symbol_of_skipGap hg]

lemma commutes_symbol (hc : IsPlain c) : Commutes φ φ (symbol c) := by
  intro cs
  cases hs : symbol c cs with
  | error f =>
    obtain ⟨rfl, hne⟩ := symbol_eq_error.mp hs
    have hφ : symbol c (φ cs) = .error ⟨φ (skipGap cs), .symbol c⟩ := by
      rw [symbol_eq_error, h.skipGap, h.head_skipGap]
      exact ⟨rfl, hne⟩
    rw [hφ]
    exact .error (passes_skipGap cs)
  | ok rest =>
    have hr := symbol_eq_ok.mp hs
    have hφ : symbol c (φ cs) = .ok (φ rest) := by rw [symbol_eq_ok, symbol?_respell h hc, hr, Option.map_some]
    rw [hφ]
    exact .ok (passes_symbol? hc hr)

lemma Respelt.ite_head [Answer β] {g : β → β} {x y x' y' : Except Failure β} (B : Option Char → Prop)
    [DecidablePred B] (hp : B (skipGap cs).head? → Respelt φ g cs x x') (hq : Respelt φ g cs y y') :
    Respelt φ g cs (if B (skipGap cs).head? then x else y) (if B (skipGap (φ cs)).head? then x' else y') := by
  rw [h.skipGap, h.head_skipGap]
  split
  · next hb => exact hp hb
  · exact hq

lemma Respelt.fail [Answer β] {g : β → β} (fault : Fault) :
    Respelt φ g cs (.error ⟨skipGap cs, fault⟩) (.error ⟨skipGap (φ cs), fault⟩) := by
  rw [h.skipGap]
  exact .error (passes_skipGap cs)

lemma commutes_byWord [Answer β] {g : β → β} {k : String → Option (List Char → Except Failure β)} (m : String → Fault)
    (hk : ∀ word p, k word = some p → Commutes φ g p) : Commutes φ g (byWord k m) := by
  intro cs
  refine (commutes_name h cs).bindAt ?_
  rintro ⟨word, rest⟩ _ hp
  dsimp only [Prod.map, id]
  cases hw : k word with
  | none => exact .fail h _
  | some p => exact (hk word p hw rest).mono hp

lemma respelt_string (hs : (skipGap cs).head? = some '"') :
    Respelt φ (Prod.map (respell φ) φ) cs (string (skipGap cs)) (string (skipGap (φ cs))) := by
  obtain ⟨r, hr⟩ := List.head?_eq_some_iff.mp hs
  rw [h.skipGap]
  refine .mono ?_ (passes_skipGap cs)
  rw [hr]
  cases hc : closeString r with
  | none =>
    obtain ⟨r', he, hc'⟩ := h.openString hc
    have hopen : string ('"' :: r) = .error ⟨'"' :: r, .openString⟩ := string_eq_error.mpr ⟨rfl, hc⟩
    have hopen' : string (φ ('"' :: r)) = .error ⟨φ ('"' :: r), .openString⟩ :=
      string_eq_error.mpr ⟨rfl, by rwa [he]⟩
    rw [hopen, hopen']
    exact .error (.refl _)
  | some rest =>
    obtain ⟨b, hb, rfl⟩ := body_of_closeString hc
    obtain ⟨b', hb', he⟩ := h.string hb
    have hp : Passes ('"' :: (b ++ rest)) rest := by
      refine passes_append (u := '"' :: b) (by simpa using Whole.string hb .nil) fun hl => ?_
      rw [List.getLast?_cons, hb.getLast?] at hl
      cases hl
    have hclose : closeString (φ ('"' :: (b ++ rest))).tail = some (φ rest) := by
      rw [he, List.tail_cons, closeString_append hb']
    simp only [string, List.tail_cons, closeString_append hb, hclose]
    exact respelt_token h hp

lemma startsWithDigit_respell (r : List Char) : startsWithDigit (φ r) = startsWithDigit r := by
  rw [Bool.eq_iff_iff, startsWithDigit_iff, startsWithDigit_iff]
  refine exists_congr fun c => and_congr_left fun hd => h.head_iff ?_ ?_
  · exact not_isBlank_of_isNamePart (isNamePart_of_isDigit hd)
  · rintro rfl
    exact absurd hd (by decide)

lemma unsigned_respell (cs : List Char) : unsigned (φ cs) = φ (unsigned cs) := by
  rcases unsigned_eq cs with hu | hu
  · rw [hu, unsigned_eq_self]
    intro he
    exact unsigned_eq_self.mp hu (h.head_of (by decide) he)
  · conv_lhs => rw [hu, h.cons (by decide), unsigned]

lemma commutes_number : Commutes φ (Prod.map (respell φ) φ) number := by
  intro cs
  have hu := unsigned_respell h cs
  cases hd : startsWithDigit (unsigned cs) with
  | false =>
    have hn : number cs = .error ⟨unsigned cs, .digits⟩ := number_eq_error.mpr ⟨rfl, hd⟩
    have hn' : number (φ cs) = .error ⟨φ (unsigned cs), .digits⟩ :=
      number_eq_error.mpr ⟨by rw [hu], by rwa [hu, startsWithDigit_respell h]⟩
    rw [hn, hn']
    exact .error (passes_unsigned cs)
  | true =>
    obtain ⟨v, hv, he⟩ := isUnsigned_of_skip hd
    generalize hrest : skipFraction ((unsigned cs).dropWhile Char.isDigit) = rest at he
    have hskip : skipFraction ((φ (unsigned cs)).dropWhile Char.isDigit) = φ rest := by
      rw [he] at hrest
      rw [he, h.append_plain hv.isPlain]
      refine skip_alike hv hrest (startsWithDigit_respell h rest).symm fun hp => ?_
      obtain ⟨r, rfl⟩ := List.head?_eq_some_iff.mp (h.head_of (by decide) hp)
      rw [h.cons (by decide), List.tail_cons, List.tail_cons, startsWithDigit_respell h]
      exact ⟨rfl, rfl⟩
    have hp : Passes cs rest := by
      refine (passes_unsigned cs).trans ?_
      rw [he]
      exact passes_append (whole_of_isPlain hv.isPlain) (apart_of_isPlain hv.isPlain rest)
    simp only [number, hu, startsWithDigit_respell h, hd, if_true, hrest, hskip]
    exact respelt_token h hp

end AmmCompiler.Source
