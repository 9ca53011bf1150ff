import AmmCompiler.Proofs.JavaScript.Separation

namespace AmmCompiler

open Source Text

variable {r : List Char} {x : Char}

inductive ValueForm
  | closure
  | call
  | atom

def Value.form : Value → ValueForm
  | .closure _ => .closure
  | .call _ => .call
  | .variable _ => .atom
  | .literal _ => .atom

def valueForm (cs : List Char) : ValueForm :=
  if "async".toList ++ [' ', '('] <+: cs then .closure
  else if "r".toList ++ ['.'] <+: cs ∨ "await".toList ++ [' ', 'r', '.'] <+: cs then .call
  else .atom

lemma valueForm_closure (r : List Char) : valueForm ("async".toList ++ ' ' :: '(' :: r) = .closure := by
  rw [valueForm, if_pos]
  simp

lemma valueForm_call (c : Call) (r : List Char) : valueForm ((Target.alan.callText c).toList ++ r) = .call := by
  rw [callText_append, valueForm]
  split
  · rw [if_neg (by simp), if_pos (.inr (by simp))]
  · rw [if_neg (by simp), if_pos (.inl (by simp))]

lemma valueForm_atom {t : List Char} (ht : IsName t ∨ ∃ c q, t = c :: q ∧ ¬ isNameStart c) (r : List Char) :
    valueForm (t ++ '\n' :: r) = .atom := by
  have hnot {w : String} {x : Char} {p : List Char} (hw : IsName w.toList) (hx : isNamePart x = false) (hn : x ≠ '\n') :
      ¬ (w.toList ++ x :: p) <+: t ++ '\n' :: r := by
    rintro ⟨z, hz⟩
    rw [List.append_assoc, List.cons_append] at hz
    rcases ht with ht | ⟨c, q, rfl, hc⟩
    · obtain ⟨_, he, _⟩ := span_inj hw.all ht.all (by simp [hx]) (by decide) hz
      exact hn he
    · obtain ⟨d, q', hd, hstart, _⟩ := hw
      rw [hd] at hz
      obtain ⟨rfl, _⟩ := List.cons.inj hz
      exact hc hstart
  have hasync := hnot (w := "async") (x := ' ') (p := ['(']) (by decide) (by decide) (by decide)
  have hplain := hnot (x := '.') (p := []) isName_r (by decide) (by decide)
  have hawait := hnot (x := ' ') (p := ['r', '.']) isName_await (by decide) (by decide)
  rw [valueForm, if_neg hasync, if_neg (not_or.mpr ⟨hplain, hawait⟩)]

lemma closure_append (names : List String) (body : List StatementOutline) (ind : String) (r : List Char) :
    ((ValueOutline.closure names body).text .alan ind).toList ++ r = "async".toList ++
      ' ' :: '(' :: ((", ".intercalate names).toList ++ ')' :: (" => \x7b\n".toList ++
        ((outlineLines .alan (ind ++ indentStep) body).toList ++ ((ind ++ indentStep).toList ++ '\x7d' :: r)))) := by
  simp only [ValueOutline.text, String.toList_append, String.reduceToList, List.append_assoc, List.cons_append,
    List.nil_append]

lemma valueForm_text {v : Value} (hv : v.WellFormed) (l ind : String) (r : List Char) :
    valueForm (((v.outline .alan l).text .alan ind).toList ++ '\n' :: r) = v.form := by
  match v with
  | .closure ⟨_, _, _⟩ =>
    rw [Value.outline, Closure.outline, closure_append]
    exact valueForm_closure _
  | .call c => exact valueForm_call c _
  | .variable n => exact valueForm_atom (.inl hv.1) r
  | .literal t =>
    rw [Value.outline, ValueOutline.text]
    refine valueForm_atom ?_ r
    rcases (literalText_cases (l := l) hv).2 with h | h | h
    · rw [h]
      exact .inl (by decide)
    · rw [h]
      exact .inl (by decide)
    · exact .inr h

inductive StatementForm
  | declare
  | assign
  | call
  | emit
  | exit

def Statement.form : Statement → StatementForm
  | .declare _ _ _ _ => .declare
  | .assign _ _ _ => .assign
  | .call _ => .call
  | .emit _ _ => .emit
  | .exit _ => .exit

def formOf (word : String) (tail : List Char) : StatementForm :=
  if word = "const" ∨ word = "let" then .declare
  else if word ∈ exitKeywords then .exit
  else if " =".toList <+: tail then .assign
  else if ".emit('".toList <+: tail then .emit
  else .call

def statementForm (cs : List Char) : StatementForm :=
  formOf (.ofList (cs.takeWhile isNamePart)) (cs.dropWhile isNamePart)

lemma statementForm_lead {w : String} (hw : IsName w.toList) (hx : isNamePart x = false) (r : List Char) :
    statementForm (w.toList ++ x :: r) = formOf w (x :: r) := by
  have hn : ¬ isNamePart x := by simp [hx]
  rw [statementForm, List.takeWhile_append_of_pos hw.all, List.dropWhile_append_of_pos hw.all,
    List.takeWhile_cons_of_neg hn, List.dropWhile_cons_of_neg hn, List.append_nil, String.ofList_toList]

lemma declare_append (b : Binding) (n : String) (v : ValueOutline) (ind : String) (r : List Char) :
    ((StatementOutline.declare b n v).text .alan ind).toList ++ r =
      b.keyword.toList ++ ' ' :: (n.toList ++ ' ' :: '=' :: ' ' :: ((v.text .alan ind).toList ++ r)) := by
  simp only [StatementOutline.text, String.toList_append, String.reduceToList, List.append_assoc,
    List.cons_append, List.nil_append]

lemma assign_append (n : String) (v : ValueOutline) (ind : String) (r : List Char) :
    ((StatementOutline.assign n v).text .alan ind).toList ++ r =
      n.toList ++ ' ' :: '=' :: ' ' :: ((v.text .alan ind).toList ++ r) := by
  simp only [StatementOutline.text, String.toList_append, String.reduceToList, List.append_assoc,
    List.cons_append, List.nil_append]

lemma emit_append (e p ind : String) (r : List Char) :
    ((StatementOutline.emit e p).text .alan ind).toList ++ r =
      "r".toList ++ '.' :: ("emit('".toList ++ (e.toList ++ '\'' :: ',' :: ' ' :: (p.toList ++ ')' :: r))) := by
  have hh : Target.alan.handle = "r" := rfl
  simp only [StatementOutline.text, Target.emitEvent, hh, String.toList_append, String.reduceToList,
    List.append_assoc, List.cons_append, List.nil_append]

lemma exit_text {f : String} (h : IsExit f.toList) (ind : String) :
    (StatementOutline.exit f).text .alan ind = f := by
  obtain ⟨_, _, _, _, _, _, ht⟩ := h
  rw [StatementOutline.text, trimmed, ht, String.ofList_toList]

lemma exit_lead {f : String} (h : IsExit f.toList) (r : List Char) : ∃ w ∈ exitKeywords, IsName w.toList ∧
    ∃ x q, f.toList ++ '\n' :: r = w.toList ++ x :: q ∧ isNamePart x = false := by
  obtain ⟨w, hw, u, he, hu, _⟩ := h
  refine ⟨w, hw, (isName_exitKeyword hw).1, ?_⟩
  rw [he, List.append_assoc]
  cases u with
  | nil => exact ⟨'\n', r, rfl, by decide⟩
  | cons c u => exact ⟨c, u ++ '\n' :: r, rfl, by simpa using hu c rfl⟩

lemma formOf_exit {w : String} (hw : w ∈ exitKeywords) (cs : List Char) : formOf w cs = .exit := by
  have hne : ¬ (w = "const" ∨ w = "let") := by
    rintro (rfl | rfl)
    · exact absurd hw (by decide)
    · exact absurd hw (by decide)
  rw [formOf, if_neg hne, if_pos hw]

lemma formOf_call {w : String} {cs : List Char} (hw : w ∉ statementKeywords) (ha : ¬ " =".toList <+: cs)
    (he : ¬ ".emit('".toList <+: cs) : formOf w cs = .call := by
  simp only [statementKeywords, List.mem_cons, List.not_mem_nil, or_false, not_or] at hw
  obtain ⟨h₁, h₂, h₃, h₄, h₅⟩ := hw
  rw [formOf, if_neg (not_or.mpr ⟨h₁, h₂⟩), if_neg _, if_neg ha, if_neg he]
  simp only [exitKeywords, List.mem_cons, List.not_mem_nil, or_false, not_or]
  exact ⟨h₄, h₅⟩

lemma statementForm_call {c : Call} (hc : c.WellFormed) (hk : c.opcode ∉ statementKeywords) (r : List Char) :
    statementForm ((Target.alan.callText c).toList ++ r) = .call := by
  rw [callText_append]
  split
  · rw [statementForm_lead isName_await (by decide)]
    exact formOf_call (by decide) (by simp) (by simp)
  · rw [statementForm_lead isName_r (by decide)]
    refine formOf_call (by decide) (by simp) ?_
    rintro ⟨z, hz⟩
    have hemit : IsName "emit".toList := by decide
    obtain ⟨he, _⟩ := name_inj (x := '(') hemit hc.1 (List.cons.inj hz).2
    rw [← he] at hk
    exact hk (by decide)

lemma statementForm_text {s : Statement} (hs : s.WellFormed) (ind : String) (r : List Char) :
    statementForm (((s.outline .alan).text .alan ind).toList ++ '\n' :: r) = s.form := by
  cases s with
  | declare b n l v =>
    have hb : b.keyword = "const" ∨ b.keyword = "let" := by
      cases b
      · exact .inl rfl
      · exact .inr rfl
    rw [Statement.outline, declare_append, statementForm_lead (isName_keyword b) (by decide), formOf, if_pos hb]
    rfl
  | assign n l v =>
    obtain ⟨⟨hn, hk⟩, _⟩ := hs
    simp only [statementKeywords, List.mem_cons, List.not_mem_nil, or_false, not_or] at hk
    obtain ⟨h₁, h₂, h₃, h₄, h₅⟩ := hk
    rw [Statement.outline, assign_append, statementForm_lead hn (by decide), formOf,
      if_neg (not_or.mpr ⟨h₁, h₂⟩), if_neg, if_pos (by simp)]
    · rfl
    · simp only [exitKeywords, List.mem_cons, List.not_mem_nil, or_false, not_or]
      exact ⟨h₄, h₅⟩
  | call c => exact statementForm_call hs.1 hs.2 _
  | emit e p =>
    rw [Statement.outline, emit_append, statementForm_lead (by decide) (by decide), formOf,
      if_neg (by decide), if_neg (by decide), if_neg (by simp), if_pos (by simp)]
    rfl
  | exit f =>
    obtain ⟨w, hw, hname, x, q, he, hx⟩ := exit_lead hs r
    rw [Statement.outline, exit_text hs, he, statementForm_lead hname hx, formOf_exit hw]
    rfl

end AmmCompiler
