import AmmCompiler.Proofs.JavaScript.Assembly

/-! Which opcodes suspend decides where `await` is written and how the calls are counted, and nothing else. -/

namespace AmmCompiler

/-- A piece of a script: a call, or a text in which nothing is awaited. -/
inductive Span
  | plain (text : String)
  | call (call : Call)

namespace Span

def call? : Span → Option Call
  | plain _ => none
  | call c => some c

def text (target : Target) : Span → String
  | plain t => t
  | call c => target.callText c

def awaitText (target : Target) (fresh : Call → Bool) : Span → String
  | plain t => t
  | call c => if fresh c then "await " ++ target.invocation c else target.callText c

end Span

def spansText (text : Span → String) (spans : List Span) : String :=
  String.join (spans.map text)

mutual

def Value.spans (target : Target) (typeLabel indent : String) : Value → List Span
  | .closure c => c.spans target indent
  | .call c => [.call c]
  | .variable name => [.plain name]
  | .literal token => [.plain (target.literalText typeLabel token)]

def Closure.spans (target : Target) (indent : String) : Closure → List Span
  | ⟨parameters, _, body⟩ => .plain ("async (" ++ ", ".intercalate parameters.names ++ ") => \x7b\n") ::
      (blockSpans target (indent ++ indentStep) body ++ [.plain (indent ++ indentStep ++ "\x7d")])

def Statement.spans (target : Target) (indent : String) : Statement → List Span
  | .declare binding name typeLabel value =>
    .plain (binding.keyword ++ " " ++ name ++ " = ") :: value.spans target typeLabel indent
  | .assign name typeLabel value => .plain (name ++ " = ") :: value.spans target typeLabel indent
  | .call c => [.call c]
  | .emit event payload => [.plain (target.emitEvent event (payload.getD "undefined"))]
  | .exit fragment => [.plain (Text.trimmed fragment)]

def blockSpans (target : Target) (indent : String) : List Statement → List Span
  | [] => []
  | s :: ss => .plain (indent ++ indentStep) ::
      (s.spans target indent ++ .plain "\n" :: blockSpans target indent ss)

end

def Constant.spans (target : Target) (c : Constant) : List Span :=
  .plain ("const " ++ c.name ++ " = ") :: (c.value.spans target c.typeLabel "" ++ [.plain "\n"])

def Handler.spans (target : Target) (h : Handler) : List Span :=
  .plain (target.handle ++ ".on('" ++ h.event ++ "', async (" ++ h.closure.parameters.payload?.getD "" ++
    ") => \x7b\n") :: (blockSpans target "" h.closure.body ++ [.plain "\x7d)\n"])

def Program.spans (target : Target) (p : Program) : List Span :=
  .plain target.header :: (p.constants.flatMap (Constant.spans target) ++ (p.handlers.flatMap (Handler.spans target) ++
    [.plain (target.listenerLines (p.handles target.connectionEvent) (p.handles target.tcpConnectionEvent)),
      .plain target.startLine]))

variable {target target' : Target} {text : Span → String} {x y : Span} {xs ys : List Span}

lemma spansText_cons : spansText text (x :: xs) = text x ++ spansText text xs := by
  rw [spansText, List.map_cons, String.join_cons, spansText]

lemma spansText_append : spansText text (xs ++ ys) = spansText text xs ++ spansText text ys := by
  rw [spansText, List.map_append, String.join_append, spansText, spansText]

lemma spansText_nil : spansText text [] = "" :=
  rfl

lemma spansText_singleton : spansText text [x] = text x := by
  rw [spansText_cons, spansText_nil, String.append_empty]

mutual

theorem value_spansText (v : Value) (l indent : String) :
    spansText (Span.text target) (v.spans target.suspendNone l indent) = (v.outline target l).text target indent := by
  match v with
  | .closure c => exact closure_spansText c indent
  | .call c => exact spansText_singleton
  | .variable n => exact spansText_singleton
  | .literal t => exact spansText_singleton

theorem closure_spansText (c : Closure) (indent : String) :
    spansText (Span.text target) (c.spans target.suspendNone indent) = (c.outline target).text target indent := by
  match c with
  | ⟨parameters, label, body⟩ =>
    have hb := block_spansText body (indent ++ indentStep)
    simp only [Closure.spans, Closure.outline, ValueOutline.text, spansText_cons, spansText_append, spansText_nil, hb,
      Span.text, String.append_assoc, String.append_empty]

theorem statement_spansText (s : Statement) (indent : String) :
    spansText (Span.text target) (s.spans target.suspendNone indent) = (s.outline target).text target indent := by
  match s with
  | .declare b n l v =>
    rw [Statement.spans, spansText_cons, value_spansText v l indent]
    rfl
  | .assign n l v =>
    rw [Statement.spans, spansText_cons, value_spansText v l indent]
    rfl
  | .call c => exact spansText_singleton
  | .emit e p => exact spansText_singleton
  | .exit f => exact spansText_singleton

theorem block_spansText (ss : List Statement) (indent : String) :
    spansText (Span.text target) (blockSpans target.suspendNone indent ss) =
      outlineLines target indent (blockOutline target ss) := by
  match ss with
  | [] => rfl
  | s :: ss =>
    have hs := statement_spansText s indent
    have hss := block_spansText ss indent
    simp only [blockSpans, blockOutline, outlineLines, spansText_cons, spansText_append, hs, hss, Span.text,
      String.append_assoc]

end

lemma constant_spansText (c : Constant) :
    spansText (Span.text target) (c.spans target.suspendNone) = c.script target := by
  rw [Constant.spans, spansText_cons, spansText_append, value_spansText, spansText_singleton]
  simp only [Span.text, Constant.script, Constant.outline, ConstantOutline.text, String.append_assoc]

lemma handler_spansText (h : Handler) :
    spansText (Span.text target) (h.spans target.suspendNone) = h.script target := by
  rw [Handler.spans, spansText_cons, spansText_append, block_spansText, spansText_singleton]
  simp only [Span.text, Handler.script, Handler.outline, HandlerOutline.text, Target.suspendNone, String.append_assoc]

lemma flatMap_spansText {α : Type} {spans : α → List Span} {script : α → String}
    (h : ∀ a, spansText text (spans a) = script a) (as : List α) :
    spansText text (as.flatMap spans) = String.join (as.map script) :=
  join_flatMap h as

lemma program_spansText (p : Program) :
    spansText (Span.text target) (p.spans target.suspendNone) = (p.outline target).text target := by
  rw [outline_text, Program.spans, spansText_cons, spansText_append, spansText_append,
    flatMap_spansText constant_spansText, flatMap_spansText handler_spansText, spansText_cons, spansText_singleton]
  simp only [Span.text, Target.frame, Target.listenerLines, handles_iff, String.append_assoc]
  rfl

lemma calls_append : (xs ++ ys).filterMap Span.call? = xs.filterMap Span.call? ++ ys.filterMap Span.call? :=
  List.filterMap_append

lemma calls_plain (t : String) : (Span.plain t :: xs).filterMap Span.call? = xs.filterMap Span.call? :=
  List.filterMap_cons_none rfl

mutual

theorem value_calls (v : Value) (l indent : String) :
    (v.spans target l indent).filterMap Span.call? = (v.parts l).filterMap Part.call? := by
  match v with
  | .closure c => exact closure_calls c indent
  | .call c => rfl
  | .variable n => rfl
  | .literal t => rfl

theorem closure_calls (c : Closure) (indent : String) :
    (c.spans target indent).filterMap Span.call? = c.parts.filterMap Part.call? := by
  match c with
  | ⟨parameters, label, body⟩ =>
    rw [Closure.spans, calls_plain, calls_append, block_calls body (indent ++ indentStep), Closure.parts]
    exact List.append_nil _

theorem statement_calls (s : Statement) (indent : String) :
    (s.spans target indent).filterMap Span.call? = s.parts.filterMap Part.call? := by
  match s with
  | .declare b n l v =>
    rw [Statement.spans, calls_plain, value_calls v l indent, Statement.parts, List.filterMap_append]
    exact (List.append_nil _).symm
  | .assign n l v =>
    rw [Statement.spans, calls_plain, value_calls v l indent, Statement.parts, List.filterMap_append]
    exact (List.append_nil _).symm
  | .call c => rfl
  | .emit e p => rfl
  | .exit f => rfl

theorem block_calls (ss : List Statement) (indent : String) :
    (blockSpans target indent ss).filterMap Span.call? = (blockParts ss).filterMap Part.call? := by
  match ss with
  | [] => rfl
  | s :: ss =>
    rw [blockSpans, calls_plain, calls_append, calls_plain, statement_calls s indent, block_calls ss indent, blockParts,
      List.filterMap_append]

end

lemma flatMap_calls {α : Type} {spans : α → List Span} {parts : α → List Part}
    (h : ∀ a, (spans a).filterMap Span.call? = (parts a).filterMap Part.call?) (as : List α) :
    (as.flatMap spans).filterMap Span.call? = (as.flatMap parts).filterMap Part.call? := by
  induction as with
  | nil => rfl
  | cons a as ih => rw [List.flatMap_cons, List.flatMap_cons, calls_append, h, ih, List.filterMap_append]

lemma program_calls (p : Program) : (p.spans target).filterMap Span.call? = p.calls := by
  have hc (c : Constant) : (c.spans target).filterMap Span.call? = c.parts.filterMap Part.call? := by
    rw [Constant.spans, calls_plain, calls_append, value_calls, Constant.parts]
    exact List.append_nil _
  have hh (h : Handler) : (h.spans target).filterMap Span.call? = h.closure.parts.filterMap Part.call? := by
    obtain ⟨event, parameters, label, body⟩ := h
    rw [Handler.spans, calls_plain, calls_append, block_calls, Closure.parts]
    exact List.append_nil _
  rw [Program.spans, calls_plain, calls_append, calls_append, flatMap_calls hc, flatMap_calls hh, Program.calls,
    Program.parts, List.filterMap_append]
  exact congrArg _ (List.append_nil _)

def Target.awaitsAnew (target target' : Target) (c : Call) : Bool :=
  c.opcode ∈ target'.suspending ∧ c.opcode ∉ target.suspending

lemma awaitsAnew_iff {c : Call} :
    target.awaitsAnew target' c ↔ c.opcode ∈ target'.suspending ∧ c.opcode ∉ target.suspending := by
  rw [Target.awaitsAnew, decide_eq_true_eq]

lemma callText_of_mem {c : Call} (h : c.opcode ∈ target.suspending) :
    target.callText c = "await " ++ target.invocation c := by
  rw [Target.callText, Target.suspends, if_pos (decide_eq_true h)]

lemma callText_of_not_mem {c : Call} (h : c.opcode ∉ target.suspending) : target.callText c = target.invocation c := by
  rw [Target.callText, Target.suspends, if_neg (by simpa using h), String.empty_append]

lemma eq_of_suspendNone {α : Type} (f : Target → α) (hd : target.suspendNone = target'.suspendNone)
    (hf : ∀ t : Target, f t.suspendNone = f t) : f target' = f target := by
  rw [← hf target', ← hd, hf]

lemma text_eq_awaitText (hd : target.suspendNone = target'.suspendNone)
    (hs : ∀ op, op ∈ target.suspending → op ∈ target'.suspending) (x : Span) :
    x.text target' = x.awaitText target (target.awaitsAnew target') := by
  have hi (c : Call) : target'.invocation c = target.invocation c :=
    eq_of_suspendNone (fun t => t.invocation c) hd fun _ => rfl
  cases x with
  | plain t => rfl
  | call c =>
    rw [Span.text, Span.awaitText]
    by_cases hn : c.opcode ∈ target'.suspending
    · by_cases ho : c.opcode ∈ target.suspending
      · rw [if_neg fun h => (awaitsAnew_iff.mp h).2 ho, callText_of_mem hn, callText_of_mem ho, hi]
      · rw [if_pos (awaitsAnew_iff.mpr ⟨hn, ho⟩), callText_of_mem hn, hi]
    · rw [if_neg fun h => hn (awaitsAnew_iff.mp h).1, callText_of_not_mem hn, callText_of_not_mem (mt (hs _) hn), hi]

lemma length_awaitText {fresh : Call → Bool} (hf : ∀ c, fresh c → c.opcode ∉ target.suspending) (xs : List Span) :
    (spansText (Span.awaitText target fresh) xs).length =
      (spansText (Span.text target) xs).length + 6 * (xs.filterMap Span.call?).countP fresh := by
  induction xs with
  | nil => rfl
  | cons x xs ih =>
    rw [spansText_cons, spansText_cons, String.length_append, String.length_append, ih]
    cases x with
    | plain t =>
      rw [calls_plain, Span.text, Span.awaitText, Nat.add_assoc]
    | call c =>
      have hsix : "await ".length = 6 := rfl
      have hcalls : (Span.call c :: xs).filterMap Span.call? = c :: xs.filterMap Span.call? :=
        List.filterMap_cons_some rfl
      rw [hcalls, List.countP_cons, Span.text, Span.awaitText]
      by_cases hc : fresh c
      · rw [if_pos hc, if_pos hc, callText_of_not_mem (hf c hc), String.length_append, hsix]
        omega
      · rw [if_neg hc, if_neg hc]
        omega

lemma countP_suspending (hs : ∀ op, op ∈ target.suspending → op ∈ target'.suspending) (cs : List Call) :
    cs.countP (fun c => c.opcode ∈ target'.suspending) =
      cs.countP (fun c => c.opcode ∈ target.suspending) + cs.countP (target.awaitsAnew target') := by
  induction cs with
  | nil => rfl
  | cons c cs ih =>
    have hc := hs c.opcode
    simp only [List.countP_cons, ih, awaitsAnew_iff, decide_eq_true_eq]
    by_cases hn : c.opcode ∈ target'.suspending
    · by_cases ho : c.opcode ∈ target.suspending
      · simp only [hn, ho, not_true_eq_false, and_false, if_true, if_false]
        omega
      · simp only [hn, ho, not_false_eq_true, and_true, if_true, if_false]
        omega
    · simp only [hn, mt hc hn, false_and, if_false]
      omega

lemma totalCalls_statistics (p : Program) : (p.statistics target).totalCalls = p.calls.length := by
  have h := @counts_statistics target p
  rw [Statistics.totalCalls, h.suspendingCalls, h.plainCalls]
  simp only [List.length_eq_countP_add_countP fun c : Call => decide (c.opcode ∈ target.suspending), decide_not,
    Bool.decide_eq_true]

lemma statistics_suspending (hd : target.suspendNone = target'.suspendNone) (p : Program) :
    p.statistics target' = { p.statistics target with
      suspendingCalls := (p.statistics target').suspendingCalls
      plainCalls := (p.statistics target').plainCalls } := by
  have h := @counts_statistics target p
  have h' := @counts_statistics target' p
  have hlabel : target'.bigIntLabel = target.bigIntLabel := eq_of_suspendNone Target.bigIntLabel hd fun _ => rfl
  have hhttp : (p.statistics target').httpListener = (p.statistics target).httpListener :=
    eq_of_suspendNone (fun t => p.handles t.connectionEvent) hd fun _ => rfl
  have htcp : (p.statistics target').tcpListener = (p.statistics target).tcpListener :=
    eq_of_suspendNone (fun t => p.handles t.tcpConnectionEvent) hd fun _ => rfl
  have hop : (p.statistics target').opcodes = (p.statistics target).opcodes :=
    Tally.ext_count fun op => (h'.opcodes op).trans (h.opcodes op).symm
  have hbig : (p.statistics target').bigIntLiterals = (p.statistics target).bigIntLiterals := by
    rw [h'.bigIntLiterals, h.bigIntLiterals, hlabel]
  rw [Statistics.mk.injEq]
  exact ⟨h'.constants.trans h.constants.symm, h'.events.trans h.events.symm, h'.handlers.trans h.handlers.symm,
    h'.statements.trans h.statements.symm, h'.closures.trans h.closures.symm, rfl, rfl, hbig, hhttp, htcp, hop⟩

/-- Where one target awaits some opcodes more than another and agrees with it otherwise, a program fails for
both or for none, and its scripts are made of the same spans: an `await` stands in front of each call of such an
opcode, and of these calls only. -/
theorem translate_suspending (hd : target.suspendNone = target'.suspendNone)
    (hs : ∀ op, op ∈ target.suspending → op ∈ target'.suspending) (p : Program) :
    (∀ e, p.translate target = .error e ↔ p.translate target' = .error e) ∧
      ∀ js s, p.translateWithStatistics target = .ok (js, s) → ∃ js' s',
        p.translateWithStatistics target' = .ok (js', s') ∧
          (p.spans target.suspendNone).filterMap Span.call? = p.calls ∧
          js = spansText (Span.text target) (p.spans target.suspendNone) ∧
          js' = spansText (Span.awaitText target fun c => c.opcode ∈ target'.suspending ∧ c.opcode ∉ target.suspending)
            (p.spans target.suspendNone) ∧
          s.suspendingCalls ≤ s'.suspendingCalls ∧
          js'.length = js.length + 6 * (s'.suspendingCalls - s.suspendingCalls) ∧
          s'.totalCalls = s.totalCalls ∧
          s' = { s with suspendingCalls := s'.suspendingCalls, plainCalls := s'.plainCalls } := by
  have hport : target'.controlPortEvent = target.controlPortEvent :=
    eq_of_suspendNone Target.controlPortEvent hd fun _ => rfl
  refine ⟨fun e => ?_, fun js s h => ?_⟩
  · rw [translate_eq, translate_eq, handles_outline, handles_outline, hport]
    split
    · rfl
    · simp
  · obtain ⟨hfree, rfl, rfl⟩ := translateWithStatistics_eq_ok.mp h
    have hspans : (p.outline target').text target' =
        spansText (Span.awaitText target (target.awaitsAnew target')) (p.spans target.suspendNone) := by
      rw [← program_spansText, ← hd, funext (text_eq_awaitText hd hs)]
    have hcount : (p.statistics target').suspendingCalls =
        (p.statistics target).suspendingCalls + p.calls.countP (target.awaitsAnew target') := by
      rw [(counts_statistics p).suspendingCalls, (counts_statistics p).suspendingCalls, countP_suspending hs]
    refine ⟨_, _, translateWithStatistics_eq_ok.mpr ⟨hport ▸ hfree, rfl, rfl⟩, program_calls p,
      (program_spansText p).symm, hspans, ?_, ?_, ?_, statistics_suspending hd p⟩
    · rw [hcount]
      exact Nat.le_add_right _ _
    · rw [hspans, length_awaitText fun c hc => (awaitsAnew_iff.mp hc).2, program_calls, program_spansText, hcount,
        Nat.add_sub_cancel_left]
    · rw [totalCalls_statistics, totalCalls_statistics]

def addTarget : Target :=
  Target.alan.suspendNone.suspend "addi64"

def pausedScript (pause : String) : String :=
  "const r = require('alan-js-runtime')\nconst f = async () => \x7b\n    let g = async () => \x7b\n" ++
    "      n = -5n\n      " ++ pause ++ "r.waitop(n)\n      r.emit('e', undefined)\n    \x7d\n  \x7d\n" ++
      "r.on('e', async () => \x7b\n  const m = await r.addi64(m, m)\n\x7d)\nr.emit('_start', undefined)\n"

theorem suspending_countedProgram :
    addTarget.suspendNone = (addTarget.suspend "waitop").suspendNone ∧
      (∀ op, op ∈ addTarget.suspending → op ∈ (addTarget.suspend "waitop").suspending) ∧
        ∃ s s', countedProgram.translateWithStatistics addTarget = .ok (pausedScript "", s) ∧
          countedProgram.translateWithStatistics (addTarget.suspend "waitop") = .ok (pausedScript "await ", s') ∧
          (pausedScript "await ").length = (pausedScript "").length + 6 * (s'.suspendingCalls - s.suspendingCalls) ∧
          s' = { s with suspendingCalls := s'.suspendingCalls, plainCalls := s'.plainCalls } := by
  have hd : addTarget.suspendNone = (addTarget.suspend "waitop").suspendNone := rfl
  have hs (op : String) (h : op ∈ addTarget.suspending) : op ∈ (addTarget.suspend "waitop").suspending :=
    OpcodeSet.mem_insert.mpr (.inr h)
  have hx : countedProgram.translateWithStatistics addTarget =
      .ok (pausedScript "", countedProgram.statistics addTarget) := by decide +kernel
  have hy : (countedProgram.translateWithStatistics (addTarget.suspend "waitop")).map Prod.fst =
      .ok (pausedScript "await ") := by decide +kernel
  obtain ⟨js', s', hjs, _, _, _, _, hlength, _, hsame⟩ := (translate_suspending hd hs countedProgram).2 _ _ hx
  rw [hjs] at hy
  obtain rfl : js' = pausedScript "await " := Except.ok.inj hy
  exact ⟨hd, hs, _, s', hx, hjs, hlength, hsame⟩

end AmmCompiler
