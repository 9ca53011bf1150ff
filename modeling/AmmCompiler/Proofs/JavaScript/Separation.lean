import AmmCompiler.Proofs.Grammar.Soundness
import AmmCompiler.Proofs.JavaScript.Outline

namespace AmmCompiler

open Source Text

variable {t u r s : List Char} {x y : Char}

lemma span_inj {P : Char → Bool} (ht : ∀ c ∈ t, P c) (hu : ∀ c ∈ u, P c) (hx : ¬ P x) (hy : ¬ P y)
    (h : t ++ x :: r = u ++ y :: s) : t = u ∧ x = y ∧ r = s := by
  have htake := congrArg (List.takeWhile P) h
  rw [List.takeWhile_append_of_pos ht, List.takeWhile_append_of_pos hu, List.takeWhile_cons_of_neg hx,
    List.takeWhile_cons_of_neg hy, List.append_nil, List.append_nil] at htake
  obtain rfl := htake
  exact ⟨rfl, List.cons.inj (List.append_cancel_left h)⟩

lemma name_inj {v w : String} (hv : IsName v.toList) (hw : IsName w.toList)
    (h : v.toList ++ x :: r = w.toList ++ y :: s) (hx : isNamePart x = false := by decide)
    (hy : isNamePart y = false := by decide) : v = w ∧ x = y ∧ r = s := by
  obtain ⟨he, hxy, hrs⟩ := span_inj hv.all hw.all (by simp [hx]) (by simp [hy]) h
  exact ⟨String.toList_inj.mp he, hxy, hrs⟩

def commas (names : List String) : List Char :=
  names.flatMap fun w => ',' :: ' ' :: w.toList

lemma commas_cons (w : String) (ws : List String) : commas (w :: ws) = ',' :: ' ' :: (w.toList ++ commas ws) := by
  rw [commas, List.flatMap_cons]
  rfl

lemma commas_append (w : String) (ws : List String) (r : List Char) :
    commas (w :: ws) ++ r = ',' :: ' ' :: (w.toList ++ (commas ws ++ r)) := by
  rw [commas_cons, List.cons_append, List.cons_append, List.append_assoc]

lemma intercalate_cons (w : String) (ws : List String) :
    (", ".intercalate (w :: ws)).toList = w.toList ++ commas ws := by
  induction ws generalizing w with
  | nil => simp [commas]
  | cons v vs ih =>
    have hv := ih v
    rw [String.toList_intercalate] at hv ⊢
    rw [List.map_cons, List.map_cons, List.intercalate_cons_cons, ← List.map_cons, hv, commas_cons, List.append_assoc]
    rfl

lemma mem_intercalate {ws : List String} {c : Char} (h : c ∈ (", ".intercalate ws).toList) :
    c = ',' ∨ c = ' ' ∨ ∃ w ∈ ws, c ∈ w.toList := by
  cases ws with
  | nil => cases h
  | cons w ws =>
    rw [intercalate_cons, List.mem_append] at h
    rcases h with h | h
    · exact .inr (.inr ⟨w, List.mem_cons_self, h⟩)
    · obtain ⟨v, hv, h⟩ := List.mem_flatMap.mp h
      rcases List.mem_cons.mp h with rfl | h
      · exact .inl rfl
      · rcases List.mem_cons.mp h with rfl | h
        · exact .inr (.inl rfl)
        · exact .inr (.inr ⟨v, List.mem_cons_of_mem w hv, h⟩)

lemma commas_head (ws : List String) (r : List Char) :
    ∃ x q, commas ws ++ ')' :: r = x :: q ∧ isNamePart x = false := by
  cases ws with
  | nil => exact ⟨_, _, rfl, by decide⟩
  | cons w ws => exact ⟨_, _, rfl, by decide⟩

lemma commas_inj {vs ws : List String} (hv : ∀ v ∈ vs, IsName v.toList) (hw : ∀ w ∈ ws, IsName w.toList)
    (h : commas vs ++ ')' :: r = commas ws ++ ')' :: s) : vs = ws ∧ r = s := by
  induction vs generalizing ws with
  | nil =>
    cases ws with
    | nil => exact ⟨rfl, (List.cons.inj h).2⟩
    | cons w ws => exact absurd (List.cons.inj h).1 (by decide)
  | cons v vs ih =>
    cases ws with
    | nil => exact absurd (List.cons.inj h).1 (by decide)
    | cons w ws =>
      obtain ⟨x, q, hq, hx⟩ := commas_head vs r
      obtain ⟨y, q', hq', hy⟩ := commas_head ws s
      rw [commas_append, commas_append, hq, hq'] at h
      have he := (List.cons.inj (List.cons.inj h).2).2
      obtain ⟨rfl, rfl, rfl⟩ := name_inj (hv v List.mem_cons_self) (hw w List.mem_cons_self) he hx hy
      obtain ⟨rfl, rfl⟩ := ih (fun a ha => hv a (List.mem_cons_of_mem v ha))
        (fun a ha => hw a (List.mem_cons_of_mem v ha)) (hq.trans hq'.symm)
      exact ⟨rfl, rfl⟩

lemma names_inj {vs ws : List String} (hv : ∀ v ∈ vs, IsName v.toList) (hw : ∀ w ∈ ws, IsName w.toList)
    (h : (", ".intercalate vs).toList ++ ')' :: r = (", ".intercalate ws).toList ++ ')' :: s) :
    vs = ws ∧ r = s := by
  have hnone {w : String} {ws : List String} {r s : List Char} (hw : IsName w.toList) :
      ')' :: r ≠ (", ".intercalate (w :: ws)).toList ++ ')' :: s := by
    obtain ⟨c, q, hq, hc, _⟩ := hw
    rw [intercalate_cons, hq]
    intro h
    obtain ⟨rfl, _⟩ := List.cons.inj h
    exact absurd hc (by decide)
  cases vs with
  | nil =>
    cases ws with
    | nil => exact ⟨rfl, (List.cons.inj h).2⟩
    | cons w ws => exact absurd h (hnone (hw w List.mem_cons_self))
  | cons v vs =>
    cases ws with
    | nil => exact absurd h.symm (hnone (hv v List.mem_cons_self))
    | cons w ws =>
      rw [intercalate_cons, intercalate_cons] at h
      refine commas_inj hv hw ?_
      rw [commas_append, commas_append, ← List.append_assoc, ← List.append_assoc, h]

lemma string_inj (ht : IsString t) (hu : IsString u) (h : t ++ r = u ++ s) : t = u ∧ r = s := by
  obtain ⟨b, rfl, hb⟩ := ht
  obtain ⟨d, rfl, hd⟩ := hu
  have htail : b ++ r = d ++ s := (List.cons.inj h).2
  have hclose := congrArg closeString htail
  rw [closeString_append hb, closeString_append hd] at hclose
  obtain rfl := Option.some.inj hclose
  exact ⟨List.append_cancel_right h, rfl⟩

def Atomic (t : List Char) : Prop :=
  IsString t ∨ t.head? ≠ some '"' ∧ t ≠ [] ∧ '\n' ∉ t

lemma atomic_inj (ht : Atomic t) (hu : Atomic u) (h : t ++ '\n' :: r = u ++ '\n' :: s) : t = u ∧ r = s := by
  have hmixed {t u r s : List Char} (ht : IsString t) (hu : u.head? ≠ some '"') (hne : u ≠ []) :
      t ++ r ≠ u ++ s := by
    obtain ⟨b, rfl, _⟩ := ht
    obtain ⟨c, q, rfl⟩ := List.exists_cons_of_ne_nil hne
    intro h
    obtain ⟨rfl, _⟩ := List.cons.inj h
    exact hu rfl
  rcases ht with ht | ⟨ht, htn, htl⟩
  · rcases hu with hu | ⟨hu, hun, _⟩
    · obtain ⟨rfl, he⟩ := string_inj ht hu h
      exact ⟨rfl, (List.cons.inj he).2⟩
    · exact absurd h (hmixed ht hu hun)
  · rcases hu with hu | ⟨_, _, hul⟩
    · exact absurd h.symm (hmixed hu ht htn)
    · obtain ⟨rfl, _, rfl⟩ := span_inj (P := (· ≠ '\n')) (x := '\n') (y := '\n')
        (fun c hc => by simpa using ne_of_mem_of_not_mem hc htl)
        (fun c hc => by simpa using ne_of_mem_of_not_mem hc hul) (by decide) (by decide) h
      exact ⟨rfl, rfl⟩

lemma atomic_of_name {w : String} (h : IsName w.toList) : Atomic w.toList := by
  refine .inr ⟨?_, ?_, ?_⟩
  · obtain ⟨c, q, he, hc, _⟩ := h
    rw [he, List.head?_cons]
    intro hq
    obtain rfl := Option.some.inj hq
    exact absurd hc (by decide)
  · obtain ⟨c, q, he, _⟩ := h
    rw [he]
    exact List.cons_ne_nil c q
  · intro hn
    exact absurd (h.all '\n' hn) (by decide)

def StartsNumber (t : List Char) : Prop :=
  ∃ c q, t = c :: q ∧ (c.isDigit ∨ c = '-')

lemma StartsNumber.not_name {t : List Char} (h : StartsNumber t) : ∃ c q, t = c :: q ∧ ¬ isNameStart c := by
  obtain ⟨c, q, rfl, hc⟩ := h
  refine ⟨c, q, rfl, ?_⟩
  intro hs
  rcases hc with hc | rfl
  · exact not_isDigit_of_isNameStart hs hc
  · exact absurd hs (by decide)

lemma StartsNumber.atomic {t : List Char} (h : StartsNumber t) (hn : '\n' ∉ t) : Atomic t := by
  obtain ⟨c, q, rfl, hc⟩ := h
  refine .inr ⟨?_, List.cons_ne_nil c q, hn⟩
  intro hq
  obtain rfl := Option.some.inj hq
  exact absurd hc (by decide)

lemma isNumber_of_isDecimalInteger {t : String} (h : isDecimalInteger t) : IsNumber t.toList := by
  have hd {d : List Char} (h : (!d.isEmpty && d.all Char.isDigit) = true) : IsUnsigned d := by
    simp only [Bool.and_eq_true, Bool.not_eq_true', List.isEmpty_eq_false_iff, List.all_eq_true] at h
    exact .inl h
  simp only [isDecimalInteger] at h
  split at h
  · next d he =>
    rw [he]
    exact .inr ⟨d, rfl, hd h⟩
  · exact .inl (hd h)

lemma literalText_cases {l t : String} (h : IsLiteral t) :
    Atomic (Target.alan.literalText l t).toList ∧ (Target.alan.literalText l t = "true" ∨
      Target.alan.literalText l t = "false" ∨
        ∃ c q, (Target.alan.literalText l t).toList = c :: q ∧ ¬ isNameStart c) := by
  rw [Target.literalText]
  split
  · next hb =>
    have hnum := isNumber_of_isDecimalInteger (Bool.and_eq_true_iff.mp hb).1
    have hs : StartsNumber (t ++ Target.alan.bigIntSuffix).toList := by
      obtain ⟨c, q, he, hc⟩ := hnum.head
      exact ⟨c, q ++ ['n'], by rw [String.toList_append, he]; rfl, hc⟩
    have hn : '\n' ∉ (t ++ Target.alan.bigIntSuffix).toList := by
      rw [String.toList_append]
      intro hn
      rcases List.mem_append.mp hn with hn | hn
      · exact hnum.no_newline hn
      · exact absurd hn (by decide)
    exact ⟨hs.atomic hn, .inr (.inr hs.not_name)⟩
  · rcases h with rfl | rfl | h | h
    · exact ⟨atomic_of_name (by decide), .inl rfl⟩
    · exact ⟨atomic_of_name (by decide), .inr (.inl rfl)⟩
    · refine ⟨.inl h, .inr (.inr ?_)⟩
      obtain ⟨b, he, _⟩ := h
      exact ⟨_, b, he, by decide⟩
    · have hs : StartsNumber t.toList := h.head
      exact ⟨hs.atomic h.no_newline, .inr (.inr hs.not_name)⟩

lemma variable_ne_literal {n l t : String} (hn : IsName n.toList ∧ n ≠ "true" ∧ n ≠ "false") (ht : IsLiteral t) :
    n ≠ Target.alan.literalText l t := by
  obtain ⟨⟨c, q, he, hc, _⟩, htrue, hfalse⟩ := hn
  rcases (literalText_cases (l := l) ht).2 with h | h | ⟨d, q', hd, hnot⟩
  · rwa [h]
  · rwa [h]
  · intro heq
    rw [← heq, he] at hd
    obtain ⟨rfl, _⟩ := List.cons.inj hd
    exact hnot hc

def invocationTail (c : Call) (r : List Char) : List Char :=
  c.opcode.toList ++ '(' :: ((", ".intercalate c.arguments).toList ++ ')' :: r)

lemma callText_append (c : Call) (r : List Char) : (Target.alan.callText c).toList ++ r =
    if Target.alan.suspends c.opcode then "await".toList ++ ' ' :: 'r' :: '.' :: invocationTail c r
    else "r".toList ++ '.' :: invocationTail c r := by
  have hh : Target.alan.handle = "r" := rfl
  rw [Target.callText, Target.invocation, hh, invocationTail]
  split
  · simp only [String.toList_append, String.reduceToList, List.append_assoc, List.cons_append, List.nil_append]
  · simp only [String.toList_append, String.reduceToList, List.append_assoc, List.cons_append, List.nil_append]

lemma invocationTail_inj {c d : Call} (hc : c.WellFormed) (hd : d.WellFormed)
    (h : invocationTail c r = invocationTail d s) : c = d ∧ r = s := by
  obtain ⟨ho, _, h⟩ := name_inj hc.1 hd.1 h
  obtain ⟨ha, hr⟩ := names_inj hc.2 hd.2 h
  rw [Call.mk.injEq]
  exact ⟨⟨ho, ha⟩, hr⟩

lemma isName_await : IsName "await".toList := by decide

lemma isName_r : IsName "r".toList := by decide

lemma callText_inj {c d : Call} (hc : c.WellFormed) (hd : d.WellFormed)
    (h : (Target.alan.callText c).toList ++ r = (Target.alan.callText d).toList ++ s) : c = d ∧ r = s := by
  rw [callText_append, callText_append] at h
  split at h
  · split at h
    · obtain ⟨_, _, h⟩ := name_inj isName_await isName_await h
      exact invocationTail_inj hc hd (List.cons.inj (List.cons.inj h).2).2
    · exact absurd (name_inj isName_await isName_r h).1 (by decide)
  · split at h
    · exact absurd (name_inj isName_r isName_await h).1 (by decide)
    · exact invocationTail_inj hc hd (name_inj isName_r isName_r h).2.2

lemma variable_literal_absurd {n t l : String} (hn : (Value.variable n).WellFormed) (ht : IsLiteral t)
    (h : n.toList ++ '\n' :: r = (Target.alan.literalText l t).toList ++ '\n' :: s) : False := by
  obtain ⟨he, _⟩ := atomic_inj (atomic_of_name hn.1) (literalText_cases ht).1 h
  exact variable_ne_literal hn ht (String.toList_inj.mp he)

lemma exit_inj {f g : String} (hf : IsExit f.toList) (hg : IsExit g.toList)
    (h : f.toList ++ '\n' :: r = g.toList ++ '\n' :: s) : f = g ∧ r = s := by
  have hend {f : String} (hf : IsExit f.toList) (r : List Char) :
      exitEnd (f.toList ++ '\n' :: r) = .ok ('\n' :: r) := by
    obtain ⟨w, hw, u, he, _, hu, _⟩ := hf
    rw [he, exitEnd_append (unbroken_name (isName_exitKeyword hw).1.all hu)]
    · exact exitEnd_stops fun c hc => .inl (Option.some.inj hc).symm
    · rintro _ hc
      exact absurd (Option.some.inj hc) (by decide)
  have he := congrArg exitEnd h
  rw [hend hf, hend hg] at he
  obtain rfl := (List.cons.inj (Except.ok.inj he)).2
  exact ⟨String.toList_inj.mp (List.append_cancel_right h), rfl⟩

end AmmCompiler
