import AmmCompiler.Proofs.JavaScript.Outline
import Mathlib.Data.List.Basic

/-! Where awaited calls stand: inside the body of an asynchronous function, unless the call is the value
of a constant. -/

namespace AmmCompiler

/-- A piece of a script. `enter` opens the body of an asynchronous function and `leave` closes it. -/
inductive Chunk
  | plain (text : String)
  | awaited (call : Call)
  | enter (parameters : List String)
  | leave

def Chunk.text (target : Target) : Chunk → String
  | .plain text => text
  | .awaited call => "await " ++ target.invocation call
  | .enter parameters => "async (" ++ ", ".intercalate parameters ++ ") => \x7b\n"
  | .leave => "\x7d"

def written (target : Target) (chunks : List Chunk) : String :=
  String.join (chunks.map (Chunk.text target))

def Target.callChunk (target : Target) (call : Call) : Chunk :=
  if target.suspends call.opcode then .awaited call else .plain (target.invocation call)

mutual

def ValueOutline.chunks (target : Target) (indent : String) : ValueOutline → List Chunk
  | .closure parameters body =>
    .enter parameters :: (blockChunks target (indent ++ indentStep) body ++ [.plain (indent ++ indentStep), .leave])
  | .call c => [target.callChunk c]
  | .variable name => [.plain name]
  | .literal text => [.plain text]

def StatementOutline.chunks (target : Target) (indent : String) : StatementOutline → List Chunk
  | .declare binding name value => .plain (binding.keyword ++ " " ++ name ++ " = ") :: value.chunks target indent
  | .assign name value => .plain (name ++ " = ") :: value.chunks target indent
  | .call c => [target.callChunk c]
  | .emit event payload => [.plain (target.emitEvent event payload)]
  | .exit fragment => [.plain (Text.trimmed fragment)]

def blockChunks (target : Target) (indent : String) : List StatementOutline → List Chunk
  | [] => []
  | s :: ss => .plain (indent ++ indentStep) ::
      (s.chunks target indent ++ .plain "\n" :: blockChunks target indent ss)

end

def ConstantOutline.chunks (target : Target) (c : ConstantOutline) : List Chunk :=
  .plain ("const " ++ c.name ++ " = ") :: (c.value.chunks target "" ++ [.plain "\n"])

def HandlerOutline.chunks (target : Target) (h : HandlerOutline) : List Chunk :=
  .plain (target.handle ++ ".on('" ++ h.event ++ "', ") :: .enter h.payload.toList ::
    (blockChunks target "" h.body ++ [.leave, .plain ")\n"])

def ProgramOutline.chunks (target : Target) (p : ProgramOutline) : List Chunk :=
  .plain target.header :: (p.constants.flatMap (ConstantOutline.chunks target) ++
    (p.handlers.flatMap (HandlerOutline.chunks target) ++
      [.plain (target.listenerLines (p.handles target.connectionEvent) (p.handles target.tcpConnectionEvent)),
        .plain target.startLine]))

def depthBehind : Nat → List Chunk → Nat
  | depth, [] => depth
  | depth, .enter _ :: chunks => depthBehind (depth + 1) chunks
  | depth, .leave :: chunks => depthBehind (depth - 1) chunks
  | depth, _ :: chunks => depthBehind depth chunks

def awaits : Nat → List Chunk → List (Nat × Call)
  | _, [] => []
  | depth, .awaited call :: chunks => (depth, call) :: awaits depth chunks
  | depth, .enter _ :: chunks => awaits (depth + 1) chunks
  | depth, .leave :: chunks => awaits (depth - 1) chunks
  | depth, .plain _ :: chunks => awaits depth chunks

def outerAwaits (chunks : List Chunk) : List Call :=
  ((awaits 0 chunks).filter fun a => a.1 = 0).map Prod.snd

def Value.awaited? (target : Target) : Value → Option Call
  | .call c => if target.suspends c.opcode then some c else none
  | _ => none

def Constant.awaited? (target : Target) (c : Constant) : Option Call :=
  c.value.awaited? target

variable {target : Target}

lemma written_cons (c : Chunk) (cs : List Chunk) : written target (c :: cs) = c.text target ++ written target cs := by
  rw [written, List.map_cons, String.join_cons, written]

lemma written_append (xs ys : List Chunk) :
    written target (xs ++ ys) = written target xs ++ written target ys := by
  rw [written, List.map_append, String.join_append, written, written]

lemma written_nil : written target [] = "" :=
  rfl

lemma written_call (c : Call) : written target [target.callChunk c] = target.callText c := by
  rw [written_cons, written_nil, String.append_empty, Target.callChunk, Target.callText]
  split
  · rfl
  · rw [String.empty_append]
    rfl

mutual

theorem written_value (v : ValueOutline) (indent : String) :
    written target (v.chunks target indent) = v.text target indent := by
  match v with
  | .closure ps body =>
    have hb := written_block body (indent ++ indentStep)
    simp only [ValueOutline.chunks, ValueOutline.text, written_cons, written_append, written_nil, hb, Chunk.text,
      String.append_assoc, String.append_empty]
  | .call c => exact written_call c
  | .variable n =>
    rw [ValueOutline.chunks, written_cons, written_nil, String.append_empty]
    rfl
  | .literal t =>
    rw [ValueOutline.chunks, written_cons, written_nil, String.append_empty]
    rfl

theorem written_statement (s : StatementOutline) (indent : String) :
    written target (s.chunks target indent) = s.text target indent := by
  match s with
  | .declare b n v =>
    rw [StatementOutline.chunks, written_cons, written_value v indent]
    rfl
  | .assign n v =>
    rw [StatementOutline.chunks, written_cons, written_value v indent]
    rfl
  | .call c => exact written_call c
  | .emit e p =>
    rw [StatementOutline.chunks, written_cons, written_nil, String.append_empty]
    rfl
  | .exit f =>
    rw [StatementOutline.chunks, written_cons, written_nil, String.append_empty]
    rfl

theorem written_block (ss : List StatementOutline) (indent : String) :
    written target (blockChunks target indent ss) = outlineLines target indent ss := by
  match ss with
  | [] => rfl
  | s :: ss =>
    have hs := written_statement s indent
    have hss := written_block ss indent
    simp only [blockChunks, outlineLines, written_cons, written_append, hs, hss, Chunk.text, String.append_assoc]

end

lemma written_constants (cs : List ConstantOutline) :
    written target (cs.flatMap (ConstantOutline.chunks target)) = String.join (cs.map (ConstantOutline.text target)) := by
  induction cs with
  | nil => rfl
  | cons c cs ih =>
    rw [List.flatMap_cons, written_append, ih, List.map_cons, String.join_cons, ConstantOutline.chunks, written_cons,
      written_append, written_value, written_cons, written_nil, ConstantOutline.text]
    simp only [Chunk.text, String.append_assoc, String.append_empty]

lemma written_handlers (hs : List HandlerOutline) :
    written target (hs.flatMap (HandlerOutline.chunks target)) = String.join (hs.map (HandlerOutline.text target)) := by
  induction hs with
  | nil => rfl
  | cons h hs ih =>
    have hp : ", ".intercalate h.payload.toList = h.payload.getD "" := by
      cases h.payload <;> rfl
    have ho : "', async (" = "', " ++ "async (" := by decide
    have hc : "\x7d)\n" = "\x7d" ++ ")\n" := by decide
    rw [List.flatMap_cons, written_append, ih, List.map_cons, String.join_cons, HandlerOutline.chunks, written_cons,
      written_cons, written_append, written_block, written_cons, written_cons, written_nil, HandlerOutline.text, ho, hc]
    simp only [Chunk.text, hp, String.append_assoc, String.append_empty]

lemma written_program (p : ProgramOutline) : written target (p.chunks target) = p.text target := by
  rw [ProgramOutline.chunks, written_cons, written_append, written_append, written_constants, written_handlers,
    written_cons, written_cons, written_nil, ProgramOutline.text]
  simp only [Chunk.text, String.append_assoc, String.append_empty]

lemma depthBehind_append (d : Nat) (xs ys : List Chunk) :
    depthBehind d (xs ++ ys) = depthBehind (depthBehind d xs) ys := by
  induction xs generalizing d with
  | nil => rfl
  | cons x xs ih =>
    cases x with
    | plain _ => exact ih d
    | awaited _ => exact ih d
    | enter _ => exact ih (d + 1)
    | leave => exact ih (d - 1)

lemma awaits_append (d : Nat) (xs ys : List Chunk) :
    awaits d (xs ++ ys) = awaits d xs ++ awaits (depthBehind d xs) ys := by
  induction xs generalizing d with
  | nil => rfl
  | cons x xs ih =>
    cases x with
    | plain _ => exact ih d
    | awaited _ => exact congrArg _ (ih d)
    | enter _ => exact ih (d + 1)
    | leave => exact ih (d - 1)

def Balanced (chunks : List Chunk) : Prop :=
  ∀ d, depthBehind d chunks = d ∧ ∀ a ∈ awaits d chunks, d ≤ a.1

def Enclosed (chunks : List Chunk) : Prop :=
  ∀ d, depthBehind d chunks = d ∧ ∀ a ∈ awaits d chunks, d < a.1

variable {xs ys : List Chunk}

lemma balanced_nil : Balanced [] :=
  fun _ => ⟨rfl, List.forall_mem_nil _⟩

lemma enclosed_nil : Enclosed [] :=
  fun _ => ⟨rfl, List.forall_mem_nil _⟩

lemma Enclosed.balanced (h : Enclosed xs) : Balanced xs :=
  fun d => ⟨(h d).1, fun a ha => Nat.le_of_lt ((h d).2 a ha)⟩

lemma Balanced.append (hx : Balanced xs) (hy : Balanced ys) : Balanced (xs ++ ys) := by
  intro d
  rw [depthBehind_append, awaits_append, (hx d).1]
  refine ⟨(hy d).1, ?_⟩
  intro a ha
  rcases List.mem_append.mp ha with ha | ha
  · exact (hx d).2 a ha
  · exact (hy d).2 a ha

lemma Enclosed.append (hx : Enclosed xs) (hy : Enclosed ys) : Enclosed (xs ++ ys) := by
  intro d
  rw [depthBehind_append, awaits_append, (hx d).1]
  refine ⟨(hy d).1, ?_⟩
  intro a ha
  rcases List.mem_append.mp ha with ha | ha
  · exact (hx d).2 a ha
  · exact (hy d).2 a ha

lemma enclosed_plain (t : String) (h : Enclosed xs) : Enclosed (.plain t :: xs) :=
  h

lemma balanced_plain (t : String) (h : Balanced xs) : Balanced (.plain t :: xs) :=
  h

lemma balanced_call (c : Call) : Balanced [target.callChunk c] := by
  intro d
  rw [Target.callChunk]
  split
  · refine ⟨rfl, ?_⟩
    intro a ha
    obtain rfl := List.mem_singleton.mp ha
    exact Nat.le_refl d
  · exact balanced_nil d

lemma Balanced.enclosed (h : Balanced xs) (ps : List String) : Enclosed (.enter ps :: (xs ++ [.leave])) := by
  intro d
  obtain ⟨hd, ha⟩ := h (d + 1)
  rw [depthBehind, awaits, depthBehind_append, awaits_append, hd]
  refine ⟨Nat.add_sub_cancel d 1, ?_⟩
  intro a hm
  rw [awaits, awaits, List.append_nil] at hm
  exact ha a hm

lemma enclosed_closure (ps : List String) (body : List StatementOutline) (indent : String)
    (h : Balanced (blockChunks target (indent ++ indentStep) body)) :
    Enclosed ((ValueOutline.closure ps body).chunks target indent) := by
  have hb := (h.append (balanced_plain (indent ++ indentStep) balanced_nil)).enclosed ps
  rwa [List.append_assoc] at hb

mutual

theorem balanced_value (v : ValueOutline) (indent : String) : Balanced (v.chunks target indent) := by
  match v with
  | .closure ps body => exact (enclosed_closure ps body indent (balanced_block body _)).balanced
  | .call c => exact balanced_call c
  | .variable n => exact balanced_plain n balanced_nil
  | .literal t => exact balanced_plain t balanced_nil

theorem balanced_statement (s : StatementOutline) (indent : String) : Balanced (s.chunks target indent) := by
  match s with
  | .declare b n v => exact balanced_plain _ (balanced_value v indent)
  | .assign n v => exact balanced_plain _ (balanced_value v indent)
  | .call c => exact balanced_call c
  | .emit e p => exact balanced_plain _ balanced_nil
  | .exit f => exact balanced_plain _ balanced_nil

theorem balanced_block (ss : List StatementOutline) (indent : String) : Balanced (blockChunks target indent ss) := by
  match ss with
  | [] => exact balanced_nil
  | s :: ss =>
    have hss := balanced_plain "\n" (balanced_block ss indent)
    exact balanced_plain _ ((balanced_statement s indent).append hss)

end

lemma enclosed_handlers (hs : List HandlerOutline) : Enclosed (hs.flatMap (HandlerOutline.chunks target)) := by
  induction hs with
  | nil => exact enclosed_nil
  | cons h hs ih =>
    rw [List.flatMap_cons]
    refine Enclosed.append ?_ ih
    have hb := (@balanced_block target h.body "").enclosed h.payload.toList
    have hp : Enclosed [.plain ")\n"] := enclosed_plain _ enclosed_nil
    have hall := hb.append hp
    rw [List.cons_append, List.append_assoc] at hall
    exact enclosed_plain _ hall

lemma outerAwaits_append (hx : Balanced xs) (ys : List Chunk) :
    outerAwaits (xs ++ ys) = outerAwaits xs ++ outerAwaits ys := by
  rw [outerAwaits, awaits_append, (hx 0).1, List.filter_append, List.map_append, outerAwaits, outerAwaits]

lemma outerAwaits_enclosed (h : Enclosed xs) : outerAwaits xs = [] := by
  rw [outerAwaits, List.map_eq_nil_iff, List.filter_eq_nil_iff]
  intro a ha
  have hd := (h 0).2 a ha
  simp only [decide_eq_true_eq]
  omega

lemma outerAwaits_value (v : Value) (l indent : String) :
    outerAwaits ((v.outline target l).chunks target indent) = (v.awaited? target).toList := by
  match v with
  | .closure ⟨ps, _, body⟩ =>
    exact outerAwaits_enclosed (enclosed_closure _ _ indent (balanced_block _ _))
  | .call c =>
    rw [Value.outline, ValueOutline.chunks, Target.callChunk, Value.awaited?]
    split
    · rfl
    · rfl
  | .variable n => rfl
  | .literal t => rfl

lemma outerAwaits_constants (cs : List Constant) :
    Balanced ((cs.map (Constant.outline target)).flatMap (ConstantOutline.chunks target)) ∧
      outerAwaits ((cs.map (Constant.outline target)).flatMap (ConstantOutline.chunks target)) =
        cs.filterMap (Constant.awaited? target) := by
  induction cs with
  | nil => exact ⟨balanced_nil, rfl⟩
  | cons c cs ih =>
    have hv := @balanced_value target (c.value.outline target c.typeLabel) ""
    have hc : Balanced ((c.outline target).chunks target) :=
      balanced_plain _ (hv.append (balanced_plain "\n" balanced_nil))
    have ha : outerAwaits ((c.outline target).chunks target) = (c.awaited? target).toList := by
      have happ := outerAwaits_append hv [.plain "\n"]
      rw [outerAwaits_value] at happ
      exact happ.trans (List.append_nil _)
    rw [List.map_cons, List.flatMap_cons, outerAwaits_append hc, ha, ih.2]
    refine ⟨hc.append ih.1, ?_⟩
    cases h : c.awaited? target with
    | none => rw [List.filterMap_cons_none h, Option.toList_none, List.nil_append]
    | some a => rw [List.filterMap_cons_some h, Option.toList_some, List.cons_append, List.nil_append]

lemma outerAwaits_program (p : Program) : outerAwaits ((p.outline target).chunks target) =
    p.constants.filterMap (Constant.awaited? target) := by
  obtain ⟨hb, hc⟩ := @outerAwaits_constants target p.constants
  have hh := @enclosed_handlers target (p.outline target).handlers
  have happ := outerAwaits_append hb ((p.outline target).handlers.flatMap (HandlerOutline.chunks target) ++
    [.plain (target.listenerLines ((p.outline target).handles target.connectionEvent)
      ((p.outline target).handles target.tcpConnectionEvent)), .plain target.startLine])
  rw [outerAwaits_append hh.balanced, outerAwaits_enclosed hh, hc] at happ
  exact happ.trans (List.append_nil _)

lemma awaits_inside_iff (chunks : List Chunk) : (∀ a ∈ awaits 0 chunks, 0 < a.1) ↔ outerAwaits chunks = [] := by
  rw [outerAwaits, List.map_eq_nil_iff, List.filter_eq_nil_iff]
  simp only [decide_eq_true_eq, Nat.pos_iff_ne_zero]

/-- The calls awaited outside every asynchronous function are the awaited values of the constants, so the
awaits of a script are legal exactly when no constant is a call of a suspending opcode. -/
theorem outerAwaits_of_translate {p : Program} {js : String} (h : p.translate target = .ok js) :
    js = written target ((p.outline target).chunks target) ∧
      outerAwaits ((p.outline target).chunks target) = p.constants.filterMap (Constant.awaited? target) ∧
        ((∀ a ∈ awaits 0 ((p.outline target).chunks target), 0 < a.1) ↔
          ∀ c ∈ p.constants, ∀ call, c.value = .call call → ¬ target.suspends call.opcode) := by
  refine ⟨by rw [written_program, text_of_translate h], outerAwaits_program p, ?_⟩
  rw [awaits_inside_iff, outerAwaits_program, List.filterMap_eq_nil_iff]
  constructor
  · intro hn c hc call he hs
    have hv := hn c hc
    rw [Constant.awaited?, he, Value.awaited?, if_pos hs] at hv
    cases hv
  · intro hn c hc
    rw [Constant.awaited?]
    match hv : c.value with
    | .closure _ => rfl
    | .call call => rw [Value.awaited?, if_neg (hn c hc call hv)]
    | .variable _ => rfl
    | .literal _ => rfl

def awaitedText : String :=
  "const x: t = httpget(u)\n"

def awaitedProgram : Program where
  constants := [⟨"x", "t", .call ⟨"httpget", ["u"]⟩⟩]
  events := []
  handlers := []

def awaitedScript : String :=
  "const r = require('alan-js-runtime')\nconst x = await r.httpget(u)\nr.emit('_start', undefined)\n"

theorem outerAwaits_awaitedText : Program.parse awaitedText = .ok awaitedProgram ∧
    awaitedProgram.translate .alan = .ok awaitedScript ∧
      awaitedScript = written .alan ((awaitedProgram.outline .alan).chunks .alan) ∧
        outerAwaits ((awaitedProgram.outline .alan).chunks .alan) = [⟨"httpget", ["u"]⟩] ∧
          ¬ ∀ a ∈ awaits 0 ((awaitedProgram.outline .alan).chunks .alan), 0 < a.1 := by
  have hp : Program.parse awaitedText = .ok awaitedProgram := rfl
  have hx : awaitedProgram.translate .alan = .ok awaitedScript := by decide +kernel
  have hs : Target.alan.suspends "httpget" = true := by decide +kernel
  obtain ⟨hw, ha, hi⟩ := outerAwaits_of_translate hx
  refine ⟨hp, hx, hw, ?_, ?_⟩
  · rw [ha, awaitedProgram, List.filterMap_cons_some (b := ⟨"httpget", ["u"]⟩), List.filterMap_nil]
    rw [Constant.awaited?, Value.awaited?, if_pos hs]
  · rw [hi]
    intro hn
    exact hn _ List.mem_cons_self _ rfl hs

end AmmCompiler
