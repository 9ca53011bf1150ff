import AmmCompiler.Proofs.Grammar.OneLine
import AmmCompiler.Proofs.JavaScript.Assembly
import AmmCompiler.Proofs.JavaScript.Separation

/-! The lines of a script: how many there are, and how far those of a handler are indented. -/

namespace AmmCompiler

def Target.strings (target : Target) : List String :=
  [target.runtimeModule, target.handle, target.startEvent, target.controlPortEvent, target.connectionEvent,
    target.tcpConnectionEvent, target.httpListener, target.tcpListener, target.bigIntLabel, target.bigIntSuffix] ++
      target.suspending.toList

def Call.strings (c : Call) : List String :=
  c.opcode :: c.arguments

def Parameters.strings (ps : Parameters) : List String :=
  ps.names ++ ps.all.map Parameter.typeLabel

mutual

def Value.strings : Value → List String
  | .closure c => c.strings
  | .call c => c.strings
  | .variable name => [name]
  | .literal token => [token]

def Closure.strings : Closure → List String
  | ⟨parameters, label, body⟩ => parameters.strings ++ label :: blockStrings body

def Statement.strings : Statement → List String
  | .declare _ name label value => name :: label :: value.strings
  | .assign name label value => name :: label :: value.strings
  | .call c => c.strings
  | .emit event payload => event :: payload.toList
  | .exit fragment => [fragment]

def blockStrings : List Statement → List String
  | [] => []
  | s :: ss => s.strings ++ blockStrings ss

end

def Constant.strings (c : Constant) : List String :=
  c.name :: c.typeLabel :: c.value.strings

def EventDeclaration.strings (e : EventDeclaration) : List String :=
  [e.name, e.typeLabel]

def Handler.strings (h : Handler) : List String :=
  h.event :: h.closure.strings

def Program.strings (p : Program) : List String :=
  p.constants.flatMap Constant.strings ++ (p.events.flatMap EventDeclaration.strings ++
    p.handlers.flatMap Handler.strings)

/-- A line of a block: the first one of a statement that stands inside of `depth` closures, or the brace that
closes the closure in which such a statement ends. -/
inductive Row
  | statement (depth : Nat) (statement : Statement)
  | brace (depth : Nat)

namespace Value

def firstLine (target : Target) (typeLabel : String) : Value → String
  | closure c => "async (" ++ ", ".intercalate c.parameters.names ++ ") => \x7b"
  | call c => target.callText c
  | «variable» name => name
  | literal token => target.literalText typeLabel token

end Value

namespace Statement

def firstLine (target : Target) : Statement → String
  | declare binding name typeLabel value => binding.keyword ++ " " ++ name ++ " = " ++ value.firstLine target typeLabel
  | assign name typeLabel value => name ++ " = " ++ value.firstLine target typeLabel
  | call c => target.callText c
  | emit event payload => target.emitEvent event (payload.getD "undefined")
  | exit fragment => Text.trimmed fragment

def value? : Statement → Option Value
  | declare _ _ _ value => some value
  | assign _ _ value => some value
  | _ => none

end Statement

def spaces (n : Nat) : String :=
  .ofList (List.replicate n ' ')

namespace Row

def depth : Row → Nat
  | statement d _ => d
  | brace d => d

def content (target : Target) : Row → String
  | statement _ s => s.firstLine target
  | brace _ => "\x7d"

def text (target : Target) (row : Row) : String :=
  spaces (2 * (row.depth + 1)) ++ row.content target ++ "\n"

end Row

def rowsText (target : Target) (rows : List Row) : String :=
  String.join (rows.map (Row.text target))

mutual

def Value.rows (depth : Nat) : Value → List Row
  | .closure c => c.rows depth
  | .call _ => []
  | .variable _ => []
  | .literal _ => []

def Closure.rows (depth : Nat) : Closure → List Row
  | ⟨_, _, body⟩ => blockRows (depth + 1) body ++ [.brace depth]

def Statement.rows (depth : Nat) : Statement → List Row
  | .declare _ _ _ value => value.rows depth
  | .assign _ _ value => value.rows depth
  | .call _ => []
  | .emit _ _ => []
  | .exit _ => []

def blockRows (depth : Nat) : List Statement → List Row
  | [] => []
  | s :: ss => .statement depth s :: (s.rows depth ++ blockRows depth ss)

end

/-- The statement stands in the block inside of `depth` closures. -/
inductive Nested : Nat → Statement → List Statement → Prop
  | here {s : Statement} {ss : List Statement} : s ∈ ss → Nested 0 s ss
  | inside {depth : Nat} {s outer : Statement} {c : Closure} {ss : List Statement} : outer ∈ ss →
      outer.value? = some (.closure c) → Nested depth s c.body → Nested (depth + 1) s ss

def newlines (s : String) : Nat :=
  s.toList.count '\n'

def lineCount (parts : List Part) : Nat :=
  (parts.filterMap Part.statement?).length + (parts.filterMap Part.closure?).length

variable {target : Target} {x y : String} {rows more : List Row} {ps qs : List Part}

lemma spaces_add (m n : Nat) : spaces (m + n) = spaces m ++ spaces n := by
  rw [spaces, spaces, spaces, ← String.ofList_append, List.replicate_append_replicate]

lemma spaces_indent (d : Nat) : spaces (2 * d) ++ indentStep = spaces (2 * (d + 1)) := by
  rw [Nat.mul_succ, spaces_add]
  rfl

lemma rowsText_nil : rowsText target [] = "" :=
  rfl

lemma rowsText_cons (row : Row) : rowsText target (row :: rows) = row.text target ++ rowsText target rows := by
  rw [rowsText, List.map_cons, String.join_cons, rowsText]

lemma rowsText_append : rowsText target (rows ++ more) = rowsText target rows ++ rowsText target more := by
  rw [rowsText, List.map_append, String.join_append, rowsText, rowsText]

mutual

theorem value_rowsText (v : Value) (l : String) (d : Nat) : (v.outline target l).text target (spaces (2 * d)) ++ "\n" =
    v.firstLine target l ++ "\n" ++ rowsText target (v.rows d) := by
  match v with
  | .closure c => exact closure_rowsText c d
  | .call c => exact (String.append_empty).symm
  | .variable n => exact (String.append_empty).symm
  | .literal t => exact (String.append_empty).symm

theorem closure_rowsText (c : Closure) (d : Nat) : (c.outline target).text target (spaces (2 * d)) ++ "\n" =
    (Value.closure c).firstLine target "" ++ "\n" ++ rowsText target (c.rows d) := by
  match c with
  | ⟨parameters, label, body⟩ =>
    have hb := block_rowsText body (d + 1)
    have ho : ") => \x7b\n" = ") => \x7b" ++ "\n" := by decide
    rw [Closure.rows, rowsText_append, rowsText_cons, rowsText_nil, ← hb, Closure.outline, ValueOutline.text,
      spaces_indent, ho]
    simp only [Value.firstLine, Row.text, Row.depth, Row.content, String.append_assoc, String.append_empty]

theorem statement_rowsText (s : Statement) (d : Nat) : (s.outline target).text target (spaces (2 * d)) ++ "\n" =
    s.firstLine target ++ "\n" ++ rowsText target (s.rows d) := by
  match s with
  | .declare b n l v =>
    have hv := value_rowsText v l d
    rw [Statement.outline, StatementOutline.text, String.append_assoc, hv]
    simp only [Statement.firstLine, Statement.rows, String.append_assoc]
  | .assign n l v =>
    have hv := value_rowsText v l d
    rw [Statement.outline, StatementOutline.text, String.append_assoc, hv]
    simp only [Statement.firstLine, Statement.rows, String.append_assoc]
  | .call c => exact (String.append_empty).symm
  | .emit e p => exact (String.append_empty).symm
  | .exit f => exact (String.append_empty).symm

theorem block_rowsText (ss : List Statement) (d : Nat) :
    outlineLines target (spaces (2 * d)) (blockOutline target ss) = rowsText target (blockRows d ss) := by
  match ss with
  | [] => rfl
  | s :: ss =>
    have hs := congrArg (· ++ rowsText target (blockRows d ss)) (statement_rowsText s d)
    have hss := block_rowsText ss d
    rw [blockRows, rowsText_cons, rowsText_append, blockOutline, outlineLines, spaces_indent, hss, Row.text]
    simp only [Row.depth, Row.content, String.append_assoc] at hs ⊢
    rw [hs]

end

lemma newlines_append (x y : String) : newlines (x ++ y) = newlines x + newlines y := by
  rw [newlines, String.toList_append, List.count_append, newlines, newlines]

lemma newlines_eq_zero (h : '\n' ∉ x.toList) : newlines x = 0 :=
  List.count_eq_zero.mpr h

lemma not_mem_append : '\n' ∉ (x ++ y).toList ↔ '\n' ∉ x.toList ∧ '\n' ∉ y.toList := by
  rw [String.toList_append, List.mem_append, not_or]

lemma not_mem_spaces (n : Nat) : '\n' ∉ (spaces n).toList := by
  rw [spaces, String.toList_ofList, List.mem_replicate]
  rintro ⟨_, h⟩
  exact absurd h (by decide)

lemma not_mem_commas {xs : List String} (h : OnOneLine xs) : '\n' ∉ (", ".intercalate xs).toList := by
  intro hm
  rcases mem_intercalate hm with hc | hc | ⟨x, hx, hm⟩
  · exact absurd hc (by decide)
  · exact absurd hc (by decide)
  · exact h x hx hm

lemma not_mem_trimmed (h : '\n' ∉ x.toList) : '\n' ∉ (Text.trimmed x).toList := by
  have hstart (cs : List Char) : ∀ c ∈ Text.trimStart cs, c ∈ cs := fun c hc => (List.dropWhile_suffix _).mem hc
  rw [Text.trimmed, String.toList_ofList, Text.trim, Text.trimEnd, List.mem_reverse]
  exact fun hm => h (hstart _ _ (List.mem_reverse.mp (hstart _ _ hm)))

lemma Target.handle_oneLine (ht : OnOneLine target.strings) : '\n' ∉ target.handle.toList :=
  ht _ (by simp [Target.strings])

lemma not_mem_callText (ht : OnOneLine target.strings) {c : Call} (h : OnOneLine c.strings) :
    '\n' ∉ (target.callText c).toList := by
  obtain ⟨hop, hargs⟩ := List.forall_mem_cons.mp h
  have hawait : '\n' ∉ (if target.suspends c.opcode then "await " else "").toList := by
    split <;> decide
  simp only [Target.callText, Target.invocation, not_mem_append]
  exact ⟨hawait, ⟨⟨⟨⟨Target.handle_oneLine ht, by decide⟩, hop⟩, by decide⟩, not_mem_commas hargs⟩, by decide⟩

lemma not_mem_literalText (ht : OnOneLine target.strings) {t : String} (h : '\n' ∉ t.toList) (l : String) :
    '\n' ∉ (target.literalText l t).toList := by
  rw [Target.literalText]
  split
  · exact not_mem_append.mpr ⟨h, ht _ (by simp [Target.strings])⟩
  · exact h

lemma not_mem_emitEvent (ht : OnOneLine target.strings) (he : '\n' ∉ x.toList) (hp : '\n' ∉ y.toList) :
    '\n' ∉ (target.emitEvent x y).toList := by
  simp only [Target.emitEvent, not_mem_append]
  exact ⟨⟨⟨⟨⟨Target.handle_oneLine ht, by decide⟩, he⟩, by decide⟩, hp⟩, by decide⟩

lemma not_mem_getD {payload : Option String} (h : OnOneLine payload.toList) (hx : '\n' ∉ x.toList) :
    '\n' ∉ (payload.getD x).toList := by
  cases payload with
  | none => exact hx
  | some p => exact h p List.mem_cons_self

lemma not_mem_valueLine (ht : OnOneLine target.strings) {v : Value} (h : OnOneLine v.strings) (l : String) :
    '\n' ∉ (v.firstLine target l).toList := by
  match v with
  | .closure ⟨parameters, label, body⟩ =>
    have hn : OnOneLine parameters.names := fun n hn => h n (List.mem_append_left _ (List.mem_append_left _ hn))
    simp only [Value.firstLine, not_mem_append]
    exact ⟨⟨by decide, not_mem_commas hn⟩, by decide⟩
  | .call c => exact not_mem_callText ht h
  | .variable n => exact h n List.mem_cons_self
  | .literal t => exact not_mem_literalText ht (h t List.mem_cons_self) l

lemma not_mem_statementLine (ht : OnOneLine target.strings) {s : Statement} (h : OnOneLine s.strings) :
    '\n' ∉ (s.firstLine target).toList := by
  cases s with
  | declare b n l v =>
    obtain ⟨hn, hv⟩ := List.forall_mem_cons.mp h
    have hv := not_mem_valueLine ht (List.forall_mem_cons.mp hv).2 l
    have hb : '\n' ∉ b.keyword.toList := by
      cases b <;> decide
    simp only [Statement.firstLine, not_mem_append]
    exact ⟨⟨⟨⟨hb, by decide⟩, hn⟩, by decide⟩, hv⟩
  | assign n l v =>
    obtain ⟨hn, hv⟩ := List.forall_mem_cons.mp h
    have hv := not_mem_valueLine ht (List.forall_mem_cons.mp hv).2 l
    simp only [Statement.firstLine, not_mem_append]
    exact ⟨⟨hn, by decide⟩, hv⟩
  | call c => exact not_mem_callText ht h
  | emit e p =>
    obtain ⟨he, hp⟩ := List.forall_mem_cons.mp h
    exact not_mem_emitEvent ht he (not_mem_getD hp (by decide))
  | exit f => exact not_mem_trimmed (h f List.mem_cons_self)

def WholeRows (target : Target) (rows : List Row) : Prop :=
  ∀ row ∈ rows, '\n' ∉ (row.content target).toList

lemma wholeRows_nil : WholeRows target [] :=
  List.forall_mem_nil _

mutual

theorem value_wholeRows (ht : OnOneLine target.strings) (v : Value) (h : OnOneLine v.strings) (d : Nat) :
    WholeRows target (v.rows d) := by
  match v with
  | .closure c => exact closure_wholeRows ht c h d
  | .call c => exact wholeRows_nil
  | .variable n => exact wholeRows_nil
  | .literal t => exact wholeRows_nil

theorem closure_wholeRows (ht : OnOneLine target.strings) (c : Closure) (h : OnOneLine c.strings) (d : Nat) :
    WholeRows target (c.rows d) := by
  match c with
  | ⟨parameters, label, body⟩ =>
    have hb : OnOneLine (blockStrings body) := (List.forall_mem_cons.mp (List.forall_mem_append.mp h).2).2
    refine List.forall_mem_append.mpr ⟨block_wholeRows ht body hb (d + 1), ?_⟩
    rw [List.forall_mem_singleton, Row.content]
    decide

theorem statement_wholeRows (ht : OnOneLine target.strings) (s : Statement) (h : OnOneLine s.strings) (d : Nat) :
    WholeRows target (s.rows d) := by
  match s with
  | .declare b n l v => exact value_wholeRows ht v (List.forall_mem_cons.mp (List.forall_mem_cons.mp h).2).2 d
  | .assign n l v => exact value_wholeRows ht v (List.forall_mem_cons.mp (List.forall_mem_cons.mp h).2).2 d
  | .call c => exact wholeRows_nil
  | .emit e p => exact wholeRows_nil
  | .exit f => exact wholeRows_nil

theorem block_wholeRows (ht : OnOneLine target.strings) (ss : List Statement) (h : OnOneLine (blockStrings ss))
    (d : Nat) : WholeRows target (blockRows d ss) := by
  match ss with
  | [] => exact wholeRows_nil
  | s :: ss =>
    obtain ⟨hs, hss⟩ := List.forall_mem_append.mp h
    have hrows := List.forall_mem_append.mpr ⟨statement_wholeRows ht s hs d, block_wholeRows ht ss hss d⟩
    exact List.forall_mem_cons.mpr ⟨not_mem_statementLine ht hs, hrows⟩

end

lemma newlines_rows (h : WholeRows target rows) : newlines (rowsText target rows) = rows.length := by
  induction rows with
  | nil => rfl
  | cons row rows ih =>
    obtain ⟨hrow, hrows⟩ := List.forall_mem_cons.mp h
    have hone : newlines "\n" = 1 := rfl
    rw [rowsText_cons, newlines_append, ih hrows, Row.text, newlines_append, newlines_append,
      newlines_eq_zero (not_mem_spaces _), newlines_eq_zero hrow, hone, List.length_cons]
    omega

lemma lineCount_append : lineCount (ps ++ qs) = lineCount ps + lineCount qs := by
  simp only [lineCount, List.filterMap_append, List.length_append]
  omega

mutual

theorem value_rows_length (v : Value) (l : String) (d : Nat) : (v.rows d).length = lineCount (v.parts l) := by
  match v with
  | .closure c => exact closure_rows_length c d
  | .call c => rfl
  | .variable n => rfl
  | .literal t => rfl

theorem closure_rows_length (c : Closure) (d : Nat) : (c.rows d).length = lineCount (.closure c :: c.parts) := by
  match c with
  | ⟨parameters, label, body⟩ =>
    have hb := block_rows_length body (d + 1)
    rw [Closure.rows, List.length_append, hb]
    rfl

theorem statement_rows_length (s : Statement) (d : Nat) : (s.rows d).length + 1 = lineCount s.parts := by
  match s with
  | .declare b n l v =>
    rw [Statement.rows, Statement.parts, lineCount_append, value_rows_length v l d]
    rfl
  | .assign n l v =>
    rw [Statement.rows, Statement.parts, lineCount_append, value_rows_length v l d]
    rfl
  | .call c => rfl
  | .emit e p => rfl
  | .exit f => rfl

theorem block_rows_length (ss : List Statement) (d : Nat) : (blockRows d ss).length = lineCount (blockParts ss) := by
  match ss with
  | [] => rfl
  | s :: ss =>
    have hs := statement_rows_length s d
    have hss := block_rows_length ss d
    rw [blockRows, blockParts, List.length_cons, List.length_append, lineCount_append]
    omega

end

lemma blockRows_append (ss ts : List Statement) (d : Nat) : blockRows d (ss ++ ts) = blockRows d ss ++ blockRows d ts := by
  induction ss with
  | nil => rfl
  | cons s ss ih => rw [List.cons_append, blockRows, blockRows, ih, List.cons_append, List.append_assoc]

lemma rows_of_value {s : Statement} {c : Closure} (h : s.value? = some (.closure c)) (d : Nat) :
    s.rows d = blockRows (d + 1) c.body ++ [.brace d] := by
  obtain ⟨parameters, label, body⟩ := c
  cases s with
  | declare b n l v =>
    obtain rfl := Option.some.inj h
    rfl
  | assign n l v =>
    obtain rfl := Option.some.inj h
    rfl
  | call c => cases h
  | emit e p => cases h
  | exit f => cases h

lemma rows_of_mem {s : Statement} {ss : List Statement} (h : s ∈ ss) (d : Nat) :
    ∃ before after, blockRows d ss = before ++ .statement d s :: (s.rows d ++ after) := by
  obtain ⟨front, back, rfl⟩ := List.append_of_mem h
  exact ⟨blockRows d front, blockRows d back, by rw [blockRows_append, blockRows]⟩

lemma rows_of_nested {e : Nat} {s : Statement} {ss : List Statement} (h : Nested e s ss) (d : Nat) :
    ∃ before after, blockRows d ss = before ++ .statement (d + e) s :: (s.rows (d + e) ++ after) := by
  induction h generalizing d with
  | here hs => exact rows_of_mem hs d
  | @inside e s outer c ss ho hv _ ih =>
    obtain ⟨front, back, hrows⟩ := rows_of_mem ho d
    obtain ⟨before, after, hbody⟩ := ih (d + 1)
    have he : d + 1 + e = d + (e + 1) := by omega
    rw [rows_of_value hv, hbody, he] at hrows
    refine ⟨front ++ .statement d outer :: before, after ++ .brace d :: back, ?_⟩
    rw [hrows]
    simp only [List.append_assoc, List.cons_append, List.nil_append]

lemma newlines_header (ht : OnOneLine target.strings) : newlines target.header = 1 := by
  have hm : '\n' ∉ target.runtimeModule.toList := ht _ (by simp [Target.strings])
  simp only [Target.header, newlines_append, newlines_eq_zero (Target.handle_oneLine ht), newlines_eq_zero hm]
  rfl

lemma newlines_startLine (ht : OnOneLine target.strings) : newlines target.startLine = 1 := by
  have hs : '\n' ∉ target.startEvent.toList := ht _ (by simp [Target.strings])
  rw [Target.startLine, newlines_append, newlines_eq_zero (not_mem_emitEvent ht hs (by decide))]
  rfl

lemma newlines_startListener (ht : OnOneLine target.strings) (hl : '\n' ∉ x.toList) :
    newlines (target.startListener x) = 1 := by
  have hs : '\n' ∉ target.startEvent.toList := ht _ (by simp [Target.strings])
  simp only [Target.startListener, newlines_append, newlines_eq_zero (Target.handle_oneLine ht), newlines_eq_zero hs,
    newlines_eq_zero hl]
  rfl

lemma newlines_frame (ht : OnOneLine target.strings) (http tcp : Prop) [Decidable http] [Decidable tcp] :
    newlines (target.frame x http tcp) =
      2 + newlines x + (if http then 1 else 0) + (if tcp then 1 else 0) := by
  have hh := newlines_startListener ht (x := target.httpListener) (ht _ (by simp [Target.strings]))
  have hc := newlines_startListener ht (x := target.tcpListener) (ht _ (by simp [Target.strings]))
  have hlistener (q : Prop) [Decidable q] (l : String) (hl : newlines (target.startListener l) = 1) :
      newlines (if q then target.startListener l else "") = if q then 1 else 0 := by
    split
    · exact hl
    · rfl
  simp only [Target.frame, newlines_append, newlines_header ht, newlines_startLine ht, hlistener _ _ hh,
    hlistener _ _ hc]
  omega

def Handler.firstLine (target : Target) (h : Handler) : String :=
  target.handle ++ ".on('" ++ h.event ++ "', async (" ++ h.closure.parameters.payload?.getD "" ++ ") => \x7b"

lemma constant_rowsText (c : Constant) : c.script target = "const " ++ c.name ++ " = " ++
    c.value.firstLine target c.typeLabel ++ "\n" ++ rowsText target (c.value.rows 0) := by
  have hv := @value_rowsText target c.value c.typeLabel 0
  have hempty : spaces (2 * 0) = "" := rfl
  rw [hempty] at hv
  simp only [Constant.script, Constant.outline, ConstantOutline.text, String.append_assoc] at hv ⊢
  rw [hv]

lemma handler_rowsText (h : Handler) : h.script target =
    h.firstLine target ++ "\n" ++ rowsText target (blockRows 0 h.closure.body) ++ "\x7d)\n" := by
  have hb := @block_rowsText target h.closure.body 0
  have hempty : spaces (2 * 0) = "" := rfl
  have ho : ") => \x7b\n" = ") => \x7b" ++ "\n" := by decide
  rw [hempty] at hb
  rw [Handler.script, Handler.outline, HandlerOutline.text, hb, ho, Handler.firstLine]
  simp only [String.append_assoc]

lemma newlines_constant (ht : OnOneLine target.strings) {c : Constant} (h : OnOneLine c.strings) :
    newlines (c.script target) = 1 + lineCount c.parts := by
  obtain ⟨hn, hv⟩ := List.forall_mem_cons.mp h
  have hv := (List.forall_mem_cons.mp hv).2
  simp only [constant_rowsText, newlines_append, newlines_eq_zero hn,
    newlines_eq_zero (not_mem_valueLine ht hv c.typeLabel), newlines_rows (value_wholeRows ht c.value hv 0),
    value_rows_length c.value c.typeLabel 0, Constant.parts]
  rfl

lemma handler_wholeRows (ht : OnOneLine target.strings) {h : Handler} (hs : OnOneLine h.strings) :
    WholeRows target (blockRows 0 h.closure.body) := by
  obtain ⟨event, parameters, label, body⟩ := h
  obtain ⟨_, hc⟩ := List.forall_mem_cons.mp hs
  exact block_wholeRows ht body (List.forall_mem_cons.mp (List.forall_mem_append.mp hc).2).2 0

lemma handler_firstLine (ht : OnOneLine target.strings) {h : Handler} (hs : OnOneLine h.strings) :
    '\n' ∉ (h.firstLine target).toList := by
  obtain ⟨event, parameters, label, body⟩ := h
  obtain ⟨he, hc⟩ := List.forall_mem_cons.mp hs
  have hp : OnOneLine parameters.payload?.toList := fun n hn =>
    hc n (List.mem_append_left _ (List.mem_append_left _ (List.mem_of_mem_head? (Option.mem_toList.mp hn))))
  simp only [Handler.firstLine, not_mem_append]
  exact ⟨⟨⟨⟨⟨Target.handle_oneLine ht, by decide⟩, he⟩, by decide⟩, not_mem_getD hp (by decide)⟩, by decide⟩

lemma newlines_handler (ht : OnOneLine target.strings) {h : Handler} (hs : OnOneLine h.strings) :
    newlines (h.script target) = 2 + lineCount h.closure.parts := by
  have hparts : h.closure.parts = blockParts h.closure.body := by
    obtain ⟨event, parameters, label, body⟩ := h
    rfl
  have hopen : newlines "\n" = 1 := rfl
  have hclose : newlines "\x7d)\n" = 1 := rfl
  simp only [handler_rowsText, newlines_append, newlines_eq_zero (handler_firstLine ht hs),
    newlines_rows (handler_wholeRows ht hs), block_rows_length, hparts, hopen, hclose]
  omega

lemma newlines_items {α : Type} {script : α → String} {parts : α → List Part} {k : Nat} {as : List α}
    (h : ∀ a ∈ as, newlines (script a) = k + lineCount (parts a)) :
    newlines (String.join (as.map script)) = k * as.length + lineCount (as.flatMap parts) := by
  induction as with
  | nil => rfl
  | cons a as ih =>
    obtain ⟨ha, has⟩ := List.forall_mem_cons.mp h
    rw [List.map_cons, String.join_cons, newlines_append, ha, ih has, List.flatMap_cons, lineCount_append,
      List.length_cons, Nat.mul_succ]
    omega

lemma newlines_program {p : Program} (ht : OnOneLine target.strings) (hp : OnOneLine p.strings) :
    newlines ((p.outline target).text target) = 2 + p.constants.length + 2 * p.handlers.length +
      p.statements.length + p.closures.length + (if p.Listens target.connectionEvent then 1 else 0) +
        (if p.Listens target.tcpConnectionEvent then 1 else 0) := by
  obtain ⟨hc, hrest⟩ := List.forall_mem_append.mp hp
  have hh := (List.forall_mem_append.mp hrest).2
  have hconstants : newlines (String.join (p.constants.map (Constant.script target))) =
      1 * p.constants.length + lineCount (p.constants.flatMap Constant.parts) :=
    newlines_items fun c hm => newlines_constant ht fun s hs => hc s (List.mem_flatMap.mpr ⟨c, hm, hs⟩)
  have hhandlers : newlines (String.join (p.handlers.map (Handler.script target))) =
      2 * p.handlers.length + lineCount (p.handlers.flatMap fun d => d.closure.parts) :=
    newlines_items fun d hm => newlines_handler ht fun s hs => hh s (List.mem_flatMap.mpr ⟨d, hm, hs⟩)
  have hparts : p.statements.length + p.closures.length = lineCount (p.constants.flatMap Constant.parts) +
      lineCount (p.handlers.flatMap fun d => d.closure.parts) := by
    rw [← lineCount_append]
    rfl
  rw [outline_text, newlines_frame ht, newlines_append, hconstants, hhandlers]
  omega

/-- Where no string is broken, a script has a line for each constant, statement, closure and listener, two for each
handler, and two of its own. Between the first and the last line of a handler stand the rows of its body, and each
row is one line behind the spaces of its depth. The text of a statement inside of some closures is its row of that
depth and the rows behind it; the last of these, if it ends in a closure, is of the same depth and closes it. -/
theorem lines_of_translate {p : Program} {js : String} {s : Statistics} (hn : OnOneLine (target.strings ++ p.strings))
    (h : p.translateWithStatistics target = .ok (js, s)) :
    js.toList.getLast? = some '\n' ∧
      js.toList.count '\n' = 2 + s.constants + 2 * s.handlers + s.statements + s.closures +
        (if s.httpListener then 1 else 0) + (if s.tcpListener then 1 else 0) ∧
      js = target.frame (String.join (p.constants.map (Constant.script target)) ++
        String.join (p.handlers.map (Handler.script target)))
          (p.Listens target.connectionEvent) (p.Listens target.tcpConnectionEvent) ∧
      ∀ d ∈ p.handlers,
        d.script target = d.firstLine target ++ "\n" ++ rowsText target (blockRows 0 d.closure.body) ++ "\x7d)\n" ∧
        (∀ row ∈ blockRows 0 d.closure.body, '\n' ∉ (row.content target).toList) ∧
        ∀ depth t, Nested depth t d.closure.body →
          (∃ before after, blockRows 0 d.closure.body = before ++ .statement depth t :: (t.rows depth ++ after)) ∧
          (∀ st, ((t.compile target (spaces (2 * depth))).run st).1 ++ "\n" =
            t.firstLine target ++ "\n" ++ rowsText target (t.rows depth)) ∧
          ∀ c, t.value? = some (.closure c) → t.rows depth = blockRows (depth + 1) c.body ++ [.brace depth] := by
  obtain ⟨ht, hp⟩ := List.forall_mem_append.mp hn
  obtain ⟨_, rfl, rfl⟩ := translateWithStatistics_eq_ok.mp h
  have hcounts := @counts_statistics target p
  refine ⟨?_, ?_, outline_text, fun d hd => ⟨handler_rowsText d, ?_, fun depth t hnested => ⟨?_, fun st => ?_, ?_⟩⟩⟩
  · rw [ProgramOutline.text, String.toList_append, List.getLast?_append, Target.startLine, String.toList_append,
      List.getLast?_append]
    rfl
  · have hhttp : (p.statistics target).httpListener = true ↔ p.Listens target.connectionEvent := handles_iff
    have htcp : (p.statistics target).tcpListener = true ↔ p.Listens target.tcpConnectionEvent := handles_iff
    change newlines _ = _
    simp only [newlines_program ht hp, hcounts.constants, hcounts.handlers, hcounts.statements, hcounts.closures, hhttp,
      htcp]
  · exact handler_wholeRows ht fun s hs => (List.forall_mem_append.mp (List.forall_mem_append.mp hp).2).2 s
      (List.mem_flatMap.mpr ⟨d, hd, hs⟩)
  · have hrows := rows_of_nested hnested 0
    rwa [Nat.zero_add] at hrows
  · rw [statement_text, statement_rowsText]
  · exact fun c hc => rows_of_value hc depth

def towerBody : List Statement :=
  [.declare .const "f" "t" (.closure ⟨⟨[], some ⟨"x", "t"⟩⟩, "t",
    [.assign "g" "t" (.closure ⟨⟨[], none⟩, "t", [.call ⟨"waitop", ["x"]⟩]⟩), .exit "return g"]⟩), .emit "e" none]

def towerProgram : Program where
  constants := [⟨"k", "t", .closure ⟨⟨[], none⟩, "t", [.exit "return"]⟩⟩]
  events := []
  handlers := [⟨"__conn", ⟨⟨[], none⟩, "void", towerBody⟩⟩]

def towerScript : String :=
  "const r = require('alan-js-runtime')\nconst k = async () => \x7b\n    return\n  \x7d\n" ++
    "r.on('__conn', async () => \x7b\n  const f = async (x) => \x7b\n    g = async () => \x7b\n" ++
      "      await r.waitop(x)\n    \x7d\n    return g\n  \x7d\n  r.emit('e', undefined)\n\x7d)\n" ++
        "r.on('_start', () => r.httplsn())\nr.emit('_start', undefined)\n"

theorem lines_towerProgram : OnOneLine (Target.alan.strings ++ towerProgram.strings) ∧
    towerProgram.translateWithStatistics .alan = .ok (towerScript, towerProgram.statistics .alan) ∧
      towerScript.toList.count '\n' = 15 ∧ Nested 2 (.call ⟨"waitop", ["x"]⟩) towerBody ∧
        ∃ before after, blockRows 0 towerBody = before ++ .statement 2 (.call ⟨"waitop", ["x"]⟩) :: after := by
  have hn : OnOneLine (Target.alan.strings ++ towerProgram.strings) := by decide +kernel
  have hx : towerProgram.translateWithStatistics .alan = .ok (towerScript, towerProgram.statistics .alan) := by
    decide +kernel
  have hnested : Nested 2 (.call ⟨"waitop", ["x"]⟩) towerBody :=
    .inside List.mem_cons_self rfl (.inside List.mem_cons_self rfl (.here List.mem_cons_self))
  obtain ⟨_, hcount, _, hhandlers⟩ := lines_of_translate hn hx
  obtain ⟨⟨before, after, hrows⟩, _⟩ := (hhandlers _ List.mem_cons_self).2.2 2 _ hnested
  refine ⟨hn, hx, hcount.trans ?_, hnested, before, after, hrows⟩
  decide +kernel

end AmmCompiler
