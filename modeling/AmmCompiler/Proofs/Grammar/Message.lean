import AmmCompiler.Proofs.Grammar.Breakage
import AmmCompiler.Proofs.Grammar.Soundness

/-! A message tells the truth about the place that is reported with it. -/

namespace AmmCompiler

open Source Text

def functionMessage (word : String) : String :=
  "Expected 'fn' but found '" ++ word ++ "'"

def itemMessage (word : String) : String :=
  "Expected 'const', 'event' or 'on' but found '" ++ word ++ "'"

/-- What a message says of the text in front of the fault and from there on. -/
structure Tells (message : String) (front rest : List Char) : Prop where
  functionWord : ∀ w, message = functionMessage w → IsName w.toList ∧ StartsWord w rest
  itemWord : ∀ w, message = itemMessage w → IsName w.toList ∧ StartsWord w rest
  character : ∀ c : Char, ("found '" ++ c.toString ++ "'").toList <:+ message.toList →
    rest.head? = some c ∧ ¬ isBlank c ∧ ∀ r, rest ≠ '/' :: '/' :: r
  inputEnd : "end of input".toList <:+ message.toList → rest = []
  openString : message = "Unterminated string literal" →
    ∃ r, rest = '"' :: r ∧ ∀ b s, StringBody b → r ≠ b ++ s
  digits : message = "Expected digits in number literal" →
    front.getLast? = some '-' ∧ ∀ c ∈ rest.head?, ¬ c.isDigit

variable {fault : Fault} {found : Option Char} {w : String} {c : Char} {r s front rest : List Char}

namespace Fault

lemma eq_functionKeyword (h : fault.message found = functionMessage w) : fault = .functionKeyword w := by
  replace h := congrArg String.toList h
  unfold message functionMessage at h
  split at h <;> simp at h
  exact congrArg functionKeyword (String.toList_injective h)

lemma eq_itemKeyword (h : fault.message found = itemMessage w) : fault = .itemKeyword w := by
  replace h := congrArg String.toList h
  unfold message itemMessage at h
  split at h <;> simp at h
  exact congrArg itemKeyword (String.toList_injective h)

lemma eq_openString (h : fault.message found = "Unterminated string literal") : fault = .openString := by
  replace h := congrArg String.toList h
  unfold message at h
  split at h <;> simp at h
  rfl

lemma eq_digits (h : fault.message found = "Expected digits in number literal") : fault = .digits := by
  replace h := congrArg String.toList h
  unfold message at h
  split at h <;> simp at h
  rfl

lemma eq_some_of_describe (h : ['\'', c, '\''] <:+ s ++ (describe found).toList) : found = some c := by
  obtain ⟨u, h⟩ := h
  replace h := congrArg List.reverse h
  cases found with
  | none => simp [describe] at h
  | some d =>
    simp only [describe, String.toList_append, List.reverse_append] at h
    simp at h
    exact congrArg some h.1.symm

lemma eq_none_of_describe (h : "end of input".toList <:+ s ++ (describe found).toList) : found = none := by
  obtain ⟨u, h⟩ := h
  replace h := congrArg List.reverse h
  cases found with
  | none => rfl
  | some d => simp [describe] at h

lemma eq_singleton_of_name (hw : IsName w.toList) (h : ['\'', c, '\''] <:+ s ++ w.toList ++ ['\'']) :
    w.toList = [c] := by
  obtain ⟨u, h⟩ := h
  have hq : '\'' ∉ w.toList.reverse := fun hm => absurd (hw.all _ (List.mem_reverse.mp hm)) (by decide)
  have hne : w.toList.reverse ≠ [] := by
    obtain ⟨_, _, he, _⟩ := hw
    simp [he]
  replace h := congrArg List.reverse h
  rw [List.reverse_append, List.reverse_append, List.reverse_append] at h
  rw [← List.reverse_inj]
  match hr : w.toList.reverse with
  | [] => exact absurd hr hne
  | [d] =>
    rw [hr] at h
    simp at h
    rw [h.1]
    rfl
  | d :: e :: v =>
    rw [hr] at h hq
    simp at h
    simp [← h.2.1] at hq

lemma head_of_message (h : ['\'', c, '\''] <:+ (fault.message r.head?).toList) (hs : Spotted fault r) :
    r.head? = some c ∧ skipGap r = r := by
  unfold message at h
  split at h
  case h_1 | h_2 | h_5 | h_6 =>
    rw [String.toList_append] at h
    exact ⟨eq_some_of_describe h, hs⟩
  case h_3 w | h_4 w =>
    obtain ⟨hw, t, rfl, _⟩ := hs
    rw [String.toList_append, String.toList_append] at h
    have he := eq_singleton_of_name hw h
    obtain ⟨d, v, hd, hc, _⟩ := hw
    rw [he] at hd ⊢
    obtain ⟨rfl, rfl⟩ := List.cons.inj hd
    exact ⟨rfl, skipGap_solid (opens_of_isNameStart hc).1 (opens_of_isNameStart hc).2.1 t⟩
  case h_7 | h_8 =>
    obtain ⟨u, h⟩ := h
    replace h := congrArg List.reverse h
    simp at h

lemma rest_of_message (h : "end of input".toList <:+ (fault.message r.head?).toList) : r = [] := by
  rw [← List.head?_eq_none_iff]
  unfold message at h
  split at h
  case h_1 | h_2 | h_5 | h_6 =>
    rw [String.toList_append] at h
    exact eq_none_of_describe h
  all_goals
    obtain ⟨u, h⟩ := h
    replace h := congrArg List.reverse h
    simp at h

end Fault

lemma Position.exists_line (text : List Char) : ∃ before line, text = before ++ line ∧
    (before = [] ∨ before.getLast? = some '\n') ∧ '\n' ∉ line ∧
    Position.after text = ⟨text.count '\n' + 1, line.length + 1⟩ := by
  refine ⟨(text.reverse.dropWhile (· ≠ '\n')).reverse, (text.reverse.takeWhile (· ≠ '\n')).reverse, ?_, ?_, ?_, ?_⟩
  · rw [← List.reverse_append, List.takeWhile_append_dropWhile, List.reverse_reverse]
  · rw [List.getLast?_reverse, List.reverse_eq_nil_iff]
    cases hd : text.reverse.dropWhile (· ≠ '\n') with
    | nil => exact .inl rfl
    | cons c r =>
      have hc := List.head?_dropWhile_not (· ≠ '\n') text.reverse
      rw [hd] at hc
      exact .inr (by simpa using hc)
  · intro hm
    simpa using List.mem_takeWhile_imp (List.mem_reverse.mp hm)
  · rw [Position.after, List.length_reverse]

lemma tells_of_failure {f : Failure} (hf : items (front ++ f.rest) = .error f) :
    Tells (f.fault.message f.rest.head?) front f.rest := by
  have hs := (items_error hf).2
  have hb := items_broken hf
  refine ⟨?_, ?_, ?_, Fault.rest_of_message, ?_, ?_⟩
  · intro w hw
    rw [Fault.eq_functionKeyword hw] at hs
    exact hs
  · intro w hw
    rw [Fault.eq_itemKeyword hw] at hs
    exact hs
  · intro c hc
    have hq : ['\'', c, '\''] <:+ ("found '" ++ c.toString ++ "'").toList := ⟨"found ".toList, by simp⟩
    obtain ⟨hh, hg⟩ := Fault.head_of_message (hq.trans hc) hs
    obtain ⟨s, hr⟩ := List.head?_eq_some_iff.mp hh
    rw [hr] at hg
    obtain ⟨hblank, hcomment⟩ := start_of_skipGap hg
    refine ⟨hh, hblank, fun r hs => ?_⟩
    obtain ⟨rfl, rfl⟩ := List.cons.inj (hr.symm.trans hs)
    exact hcomment rfl rfl
  · intro ho
    obtain ⟨r, hr, hc⟩ := hb.1 (Fault.eq_openString ho)
    refine ⟨r, hr, ?_⟩
    rintro b s hbody rfl
    rw [closeString_append hbody] at hc
    cases hc
  · intro hd
    obtain ⟨⟨u, hu⟩, hn⟩ := hb.2 (Fault.eq_digits hd)
    obtain rfl : u ++ ['-'] = front := List.append_cancel_right (List.append_assoc u ['-'] f.rest ▸ hu)
    refine ⟨List.getLast?_concat, fun c hc => ?_⟩
    obtain ⟨s, hr⟩ := List.head?_eq_some_iff.mp hc
    rw [hr] at hn
    exact Bool.not_eq_true _ ▸ hn

/-- A text is rejected at a place in it, and the message tells what is there. -/
theorem message_of_parse {text : String} {e : SyntaxError} (h : Program.parse text = .error e) :
    ∃ before line rest, text.toList = before ++ line ++ rest ∧ (before = [] ∨ before.getLast? = some '\n') ∧
      '\n' ∉ line ∧ e.position = ⟨(before ++ line).count '\n' + 1, line.length + 1⟩ ∧
      Tells e.message (before ++ line) rest := by
  obtain ⟨f, hf, rfl⟩ := failure_of_parse h
  obtain ⟨front, ht⟩ := (items_error hf).1
  rw [← ht] at hf ⊢
  obtain ⟨before, line, rfl, hbefore, hline, hp⟩ := Position.exists_line front
  refine ⟨before, line, f.rest, rfl, hbefore, hline, ?_, tells_of_failure hf⟩
  rw [Failure.locate, consumed_append, hp]

def digitlessText : String :=
  "const a: b =\n  -x"

theorem message_digitlessText : ∃ before line rest, digitlessText.toList = before ++ line ++ rest ∧
    (before = [] ∨ before.getLast? = some '\n') ∧ '\n' ∉ line ∧
    (⟨2, 4⟩ : Position) = ⟨(before ++ line).count '\n' + 1, line.length + 1⟩ ∧
    Tells "Expected digits in number literal" (before ++ line) rest :=
  message_of_parse (e := ⟨⟨2, 4⟩, .digits, some 'x'⟩) rfl

end AmmCompiler
