import AmmCompiler.Proofs.JavaScript.Assembly
import AmmCompiler.Proofs.JavaScript.Parts
import AmmCompiler.Proofs.JavaScript.Unambiguity

/-! The brackets of a script, outside of its strings. Whatever a literal or an exit fragment holds, the blocks
that are open in front of it are open behind it. -/

namespace AmmCompiler

open Source Text

/-- Where a reader of JavaScript is: in code, in a string, or behind a backslash in a string. The closing
brackets that it expects come innermost first. -/
inductive Scan
  | code (expected : List Char)
  | quoted (quote : Char) (expected : List Char)
  | escaped (quote : Char) (expected : List Char)
  deriving DecidableEq

def quotes : List Char :=
  ['"', '\'']

def closers : List Char :=
  [')', ']', '\x7d']

def closer? : Char → Option Char
  | '(' => some ')'
  | '[' => some ']'
  | '\x7b' => some '\x7d'
  | _ => none

def expectedAfter (expected : List Char) (c : Char) : Option (List Char) :=
  match closer? c with
  | some d => some (d :: expected)
  | none =>
    if c ∉ closers then some expected
    else match expected with
      | [] => none
      | d :: rest => if c = d then some rest else none

namespace Scan

def step : Scan → Char → Option Scan
  | code expected, c =>
    if c ∈ quotes then some (quoted c expected) else (expectedAfter expected c).map code
  | quoted quote expected, c =>
    if c = quote then some (code expected)
    else if c = '\\' then some (escaped quote expected)
    else some (quoted quote expected)
  | escaped quote expected, _ => some (quoted quote expected)

def run (s : Scan) (cs : List Char) : Option Scan :=
  cs.foldlM step s

def Reads (s : Scan) (x : String) (s' : Scan) : Prop :=
  s.run x.toList = some s'

instance (s s' : Scan) (x : String) : Decidable (s.Reads x s') :=
  inferInstanceAs (Decidable (_ = _))

def inside (outer : List Char) : Scan → Scan
  | code expected => code (expected ++ outer)
  | quoted quote expected => quoted quote (expected ++ outer)
  | escaped quote expected => escaped quote (expected ++ outer)

end Scan

def WellBracketed (x : String) : Prop :=
  (Scan.code []).Reads x (.code [])

instance : DecidablePred WellBracketed :=
  fun _ => inferInstanceAs (Decidable (Scan.Reads _ _ _))

/-- The text takes the expected brackets from `p` to `q`. The sources stand in it in their order, each well
bracketed and in code. -/
inductive Carries : List Char → List Char → List String → String → Prop
  | plain {p q : List Char} {x : String} : (Scan.code p).Reads x (.code q) → Carries p q [] x
  | source {p q r : List Char} {ts : List String} {x t y : String} : (Scan.code p).Reads x (.code q) →
      WellBracketed t → Carries q r ts y → Carries p r (t :: ts) (x ++ (t ++ y))

def Part.source? : Part → Option String
  | .literal typeLabel token => some (Target.alan.literalText typeLabel token)
  | .statement (.exit fragment) => some fragment
  | _ => none

def sources (parts : List Part) : List String :=
  parts.filterMap Part.source?

def Program.pieces (target : Target) (p : Program) : List String :=
  target.header :: (p.constants.map (Constant.script target) ++ (p.handlers.map (Handler.script target) ++
    ((if p.Listens target.connectionEvent then [target.startListener target.httpListener] else []) ++
      ((if p.Listens target.tcpConnectionEvent then [target.startListener target.tcpListener] else []) ++
        [target.startLine]))))

variable {p q r outer : List Char} {s s' s'' : Scan} {x y t : String} {ts us : List String} {c quote : Char}

lemma expectedAfter_append (h : expectedAfter p c = some q) : expectedAfter (p ++ outer) c = some (q ++ outer) := by
  unfold expectedAfter at h ⊢
  cases ho : closer? c with
  | some d =>
    rw [ho] at h
    obtain rfl := Option.some.inj h
    rfl
  | none =>
    rw [ho] at h
    by_cases hc : c ∉ closers
    · simp only [if_pos hc] at h ⊢
      obtain rfl := Option.some.inj h
      rfl
    · simp only [if_neg hc] at h ⊢
      cases p with
      | nil => cases h
      | cons d p =>
        obtain ⟨hd, he⟩ := Option.ite_none_right_eq_some.mp h
        obtain rfl := Option.some.inj he
        exact if_pos hd

namespace Scan

lemma step_inside (h : s.step c = some s') : (s.inside outer).step c = some (s'.inside outer) := by
  cases s with
  | code p =>
    simp only [step, inside] at h ⊢
    by_cases hc : c ∈ quotes
    · rw [if_pos hc] at h ⊢
      obtain rfl := Option.some.inj h
      rfl
    · rw [if_neg hc] at h ⊢
      obtain ⟨q, hq, rfl⟩ := Option.map_eq_some_iff.mp h
      rw [expectedAfter_append hq]
      rfl
  | quoted quote p =>
    simp only [step, inside] at h ⊢
    by_cases hc : c = quote
    · rw [if_pos hc] at h ⊢
      obtain rfl := Option.some.inj h
      rfl
    · rw [if_neg hc] at h ⊢
      by_cases hb : c = '\\'
      · rw [if_pos hb] at h ⊢
        obtain rfl := Option.some.inj h
        rfl
      · rw [if_neg hb] at h ⊢
        obtain rfl := Option.some.inj h
        rfl
  | escaped quote p =>
    obtain rfl := Option.some.inj h
    rfl

lemma run_cons (c : Char) (cs : List Char) : s.run (c :: cs) = (s.step c).bind (·.run cs) :=
  List.foldlM_cons

lemma run_append (cs ds : List Char) : s.run (cs ++ ds) = (s.run cs).bind (·.run ds) :=
  List.foldlM_append

lemma run_inside {cs : List Char} (h : s.run cs = some s') : (s.inside outer).run cs = some (s'.inside outer) := by
  induction cs generalizing s with
  | nil =>
    obtain rfl := Option.some.inj h
    rfl
  | cons c cs ih =>
    rw [run_cons] at h ⊢
    obtain ⟨m, hm, h⟩ := Option.bind_eq_some_iff.mp h
    rw [step_inside hm]
    exact ih h

lemma Reads.inside (h : s.Reads x s') (outer : List Char) : (s.inside outer).Reads x (s'.inside outer) :=
  run_inside h

lemma Reads.append (hx : s.Reads x s') (hy : s'.Reads y s'') : s.Reads (x ++ y) s'' := by
  rw [Reads, String.toList_append, run_append, hx]
  exact hy

end Scan

open Scan

lemma WellBracketed.within (h : WellBracketed x) (p : List Char) : (Scan.code p).Reads x (.code p) :=
  Reads.inside h p

lemma WellBracketed.append (hx : WellBracketed x) (hy : WellBracketed y) : WellBracketed (x ++ y) :=
  Reads.append hx hy

lemma wellBracketed_join {xs : List String} (h : ∀ x ∈ xs, WellBracketed x) : WellBracketed (String.join xs) := by
  induction xs with
  | nil => exact rfl
  | cons x xs ih =>
    obtain ⟨hx, hxs⟩ := List.forall_mem_cons.mp h
    rw [String.join_cons]
    exact hx.append (ih hxs)

def IsNeutral (c : Char) : Prop :=
  c ∉ '\\' :: quotes ++ closers ∧ closer? c = none

instance : DecidablePred IsNeutral :=
  fun _ => inferInstanceAs (Decidable (_ ∧ _))

lemma isNeutral_of_isNamePart (h : isNamePart c) : IsNeutral c := by
  have hne (d : Char) (hd : isNamePart d = false) : c ≠ d := by
    rintro rfl
    rw [hd] at h
    cases h
  refine ⟨fun hm => ?_, ?_⟩
  · simp only [quotes, closers, List.cons_append, List.nil_append, List.mem_cons, List.not_mem_nil, or_false] at hm
    rcases hm with rfl | rfl | rfl | rfl | rfl | rfl <;> exact hne _ (by decide) rfl
  · unfold closer?
    split
    · exact absurd rfl (hne _ (by decide))
    · exact absurd rfl (hne _ (by decide))
    · exact absurd rfl (hne _ (by decide))
    · rfl

lemma reads_plain (h : ∀ c ∈ x.toList, IsNeutral c) (hs : ∀ c, IsNeutral c → s.step c = some s) : s.Reads x s := by
  have hrun (cs : List Char) (h : ∀ c ∈ cs, IsNeutral c) : s.run cs = some s := by
    induction cs with
    | nil => rfl
    | cons c cs ih =>
      obtain ⟨hc, hcs⟩ := List.forall_mem_cons.mp h
      rw [run_cons, hs c hc]
      exact ih hcs
  exact hrun _ h

lemma wellBracketed_plain (h : ∀ c ∈ x.toList, IsNeutral c) : WellBracketed x := by
  refine reads_plain h fun c hc => ?_
  obtain ⟨hm, ho⟩ := hc
  obtain ⟨hq, hc⟩ := not_or.mp (mt List.mem_append.mpr hm)
  have hsame : expectedAfter [] c = some [] := by
    simp only [expectedAfter, ho, if_pos hc]
  rw [step, if_neg (mt (List.mem_cons_of_mem _) hq), hsame]
  rfl

lemma reads_quoted (h : IsName x.toList) (p : List Char) : (Scan.quoted '\'' p).Reads x (.quoted '\'' p) := by
  refine reads_plain (fun c hc => isNeutral_of_isNamePart (h.all c hc)) fun c hc => ?_
  have hq : c ≠ '\'' := by
    rintro rfl
    exact absurd hc (by decide)
  have hb : c ≠ '\\' := by
    rintro rfl
    exact absurd hc (by decide)
  rw [step, if_neg hq, if_neg hb]

lemma wellBracketed_name (h : IsName x.toList) : WellBracketed x :=
  wellBracketed_plain fun c hc => isNeutral_of_isNamePart (h.all c hc)

lemma wellBracketed_commas {xs : List String} (h : ∀ x ∈ xs, IsName x.toList) :
    WellBracketed (", ".intercalate xs) := by
  refine wellBracketed_plain fun c hc => ?_
  rcases mem_intercalate hc with rfl | rfl | ⟨x, hx, hc⟩
  · decide
  · decide
  · exact isNeutral_of_isNamePart ((h x hx).all c hc)

lemma wellBracketed_number (h : IsNumber x.toList) : WellBracketed x := by
  refine wellBracketed_plain fun c hc => ?_
  rcases h.mem hc with hc | rfl | rfl
  · exact isNeutral_of_isNamePart (isNamePart_of_isDigit hc)
  · decide
  · decide

lemma run_stringBody {b : List Char} (h : StringBody b) : (Scan.quoted '"' []).run b = some (.code []) := by
  induction h with
  | close => rfl
  | escape _ ih => exact ih
  | plain hq hs _ ih =>
    rw [run_cons, step, if_neg hq, if_neg hs]
    exact ih

lemma wellBracketed_string (h : IsString x.toList) : WellBracketed x := by
  obtain ⟨b, he, hb⟩ := h
  rw [WellBracketed, Reads, he]
  exact run_stringBody hb

lemma wellBracketed_literal {l : String} (h : IsLiteral t) : WellBracketed (Target.alan.literalText l t) := by
  rw [Target.literalText]
  split
  · next hb =>
    have hn := isNumber_of_isDecimalInteger (Bool.and_eq_true_iff.mp hb).1
    exact (wellBracketed_number hn).append (by decide)
  · rcases h with rfl | rfl | h | h
    · decide
    · decide
    · exact wellBracketed_string h
    · exact wellBracketed_number h

lemma wellBracketed_source {part : Part} (h : part.WellFormed) (he : part.source? = some t)
    (hexit : ∀ f, part = .statement (.exit f) → WellBracketed f) : WellBracketed t := by
  match part with
  | .literal l u =>
    obtain rfl := Option.some.inj he
    exact wellBracketed_literal h
  | .statement (.exit f) =>
    obtain rfl := Option.some.inj he
    exact hexit f rfl

lemma wellBracketed_call {c : Call} (h : c.WellFormed) : WellBracketed (Target.alan.callText c) := by
  have hawait : WellBracketed (if Target.alan.suspends c.opcode then "await " else "") := by
    split <;> decide
  have hr : WellBracketed (Target.alan.handle ++ ".") := by decide
  have hopen : (Scan.code []).Reads "(" (.code [')']) := by decide
  have hclose : (Scan.code [')']).Reads ")" (.code []) := by decide
  have hhead := Reads.append (hr.append (wellBracketed_name h.1)) hopen
  exact hawait.append ((hhead.append ((wellBracketed_commas h.2).within _)).append hclose)

lemma wellBracketed_emit {e payload : String} (he : IsName e.toList) (hp : IsName payload.toList) :
    WellBracketed (Target.alan.emitEvent e payload) := by
  have hopen : (Scan.code []).Reads (Target.alan.handle ++ ".emit('") (.quoted '\'' [')']) := by decide
  have hbehind : (Scan.quoted '\'' [')']).Reads "', " (.code [')']) := by decide
  have hclose : (Scan.code [')']).Reads ")" (.code []) := by decide
  exact (((hopen.append (reads_quoted he _)).append hbehind).append ((wellBracketed_name hp).within _)).append hclose

namespace Carries

lemma reads (h : Carries p q ts x) : (Scan.code p).Reads x (.code q) := by
  induction h with
  | plain hx => exact hx
  | source hx ht _ ih => exact hx.append ((ht.within _).append ih)

lemma before (hx : (Scan.code p).Reads x (.code q)) (h : Carries q r ts y) : Carries p r ts (x ++ y) := by
  cases h with
  | plain hy => exact .plain (hx.append hy)
  | source hz ht hy =>
    rw [← String.append_assoc]
    exact .source (hx.append hz) ht hy

lemma append (hx : Carries p q ts x) (hy : Carries q r us y) : Carries p r (ts ++ us) (x ++ y) := by
  induction hx with
  | plain hx => exact before hx hy
  | source hx ht _ ih =>
    rw [String.append_assoc, String.append_assoc]
    exact .source hx ht (ih hy)

lemma after (hx : Carries p q ts x) (hy : (Scan.code q).Reads y (.code r)) : Carries p r ts (x ++ y) := by
  have h := hx.append (.plain hy)
  rwa [List.append_nil] at h

lemma inside (h : Carries p q ts x) (outer : List Char) : Carries (p ++ outer) (q ++ outer) ts x := by
  induction h with
  | plain hx => exact .plain (hx.inside outer)
  | source hx ht _ ih => exact .source (hx.inside outer) ht ih

lemma split (h : Carries p r (us ++ t :: ts) x) : ∃ before behind q, x = before ++ (t ++ behind) ∧
    Carries p q us before ∧ (Scan.code q).Reads t (.code q) ∧ Carries q r ts behind := by
  induction us generalizing p x with
  | nil =>
    cases h with
    | source hx ht hy => exact ⟨_, _, _, rfl, .plain hx, ht.within _, hy⟩
  | cons u us ih =>
    cases h with
    | source hx hu hy =>
      obtain ⟨before, behind, q, rfl, hbefore, ht, hbehind⟩ := ih hy
      exact ⟨_, behind, q, by simp only [String.append_assoc], .source hx hu hbefore, ht, hbehind⟩

lemma single (h : WellBracketed t) : Carries [] [] [t] t := by
  have hs : Carries [] [] [t] ("" ++ (t ++ "")) := .source rfl h (.plain rfl)
  rwa [String.empty_append, String.append_empty] at hs

end Carries

lemma sources_append {ps qs : List Part} : sources (ps ++ qs) = sources ps ++ sources qs :=
  List.filterMap_append

mutual

theorem value_carries (v : Value) (h : v.WellFormed) (l indent : String) (hi : WellBracketed indent)
    (hs : ∀ t ∈ sources (v.parts l), WellBracketed t) :
    Carries [] [] (sources (v.parts l)) ((v.outline .alan l).text .alan indent) := by
  match v with
  | .closure c => exact closure_carries c h indent hi hs
  | .call c => exact .plain (wellBracketed_call h.1)
  | .variable n => exact .plain (wellBracketed_name h.1)
  | .literal t => exact .single (hs _ List.mem_cons_self)

theorem closure_carries (c : Closure) (h : c.WellFormed) (indent : String) (hi : WellBracketed indent)
    (hs : ∀ t ∈ sources c.parts, WellBracketed t) :
    Carries [] [] (sources c.parts) ((c.outline .alan).text .alan indent) := by
  match c with
  | ⟨parameters, label, body⟩ =>
    have hstep : WellBracketed indentStep := by decide
    have hindent := hi.append hstep
    have hopen : (Scan.code []).Reads "async (" (.code [')']) := by decide
    have hbrace : (Scan.code [')']).Reads ") => \x7b\n" (.code ['\x7d']) := by decide
    have hclose : (Scan.code ['\x7d']).Reads "\x7d" (.code []) := by decide
    have hnames := (wellBracketed_commas (names_of_parameters h.1)).within [')']
    have hbody := (block_carries body h.2.2 (indent ++ indentStep) hindent hs).inside ['\x7d']
    exact ((Carries.before ((hopen.append hnames).append hbrace) hbody).after (hindent.within _)).after hclose

theorem statement_carries (s : Statement) (h : s.WellFormed) (indent : String) (hi : WellBracketed indent)
    (hs : ∀ t ∈ sources s.parts, WellBracketed t) :
    Carries [] [] (sources s.parts) ((s.outline .alan).text .alan indent) := by
  have hequals : WellBracketed " = " := by decide
  match s with
  | .declare b n l v =>
    have hspace : WellBracketed " " := by decide
    have hbinding := ((wellBracketed_name (isName_keyword b)).append hspace).append (wellBracketed_name h.1)
    have hsources : sources (Statement.declare b n l v).parts = sources (v.parts l) :=
      sources_append.trans (List.append_nil _)
    rw [hsources] at hs ⊢
    exact .before (hbinding.append hequals) (value_carries v h.2.2 l indent hi hs)
  | .assign n l v =>
    have hsources : sources (Statement.assign n l v).parts = sources (v.parts l) :=
      sources_append.trans (List.append_nil _)
    rw [hsources] at hs ⊢
    exact .before ((wellBracketed_name h.1.1).append hequals) (value_carries v h.2.2 l indent hi hs)
  | .call c => exact .plain (wellBracketed_call h.1)
  | .emit e payload => exact .plain (wellBracketed_emit h.1 (isName_payload h.2))
  | .exit f =>
    rw [Statement.outline, exit_text h]
    exact .single (hs f List.mem_cons_self)

theorem block_carries (ss : List Statement) (h : blockWellFormed ss) (indent : String) (hi : WellBracketed indent)
    (hs : ∀ t ∈ sources (blockParts ss), WellBracketed t) :
    Carries [] [] (sources (blockParts ss)) (outlineLines .alan indent (blockOutline .alan ss)) := by
  match ss with
  | [] => exact .plain rfl
  | s :: ss =>
    have hstep : WellBracketed indentStep := by decide
    have hend : WellBracketed "\n" := by decide
    rw [blockParts, sources_append] at hs ⊢
    obtain ⟨hs, hss⟩ := List.forall_mem_append.mp hs
    have hline := Carries.before (hi.append hstep) (statement_carries s h.1 indent hi hs)
    exact (hline.after hend).append (block_carries ss h.2 indent hi hss)

end

lemma constant_carries {c : Constant} (h : (Item.constant c).WellFormed)
    (hs : ∀ t ∈ sources c.parts, WellBracketed t) : Carries [] [] (sources c.parts) (c.script .alan) := by
  have hconst : WellBracketed "const " := by decide
  have hequals : WellBracketed " = " := by decide
  have hend : WellBracketed "\n" := by decide
  have hvalue := value_carries c.value h.2.2 c.typeLabel "" rfl hs
  exact (Carries.before ((hconst.append (wellBracketed_name h.1)).append hequals) hvalue).after hend

lemma handler_carries {d : Handler} (h : (Item.handler d).WellFormed)
    (hs : ∀ t ∈ sources d.closure.parts, WellBracketed t) :
    Carries [] [] (sources d.closure.parts) (d.script .alan) := by
  obtain ⟨event, parameters, label, body⟩ := d
  obtain ⟨he, hp, _, hb⟩ := h
  have hopen : (Scan.code []).Reads (Target.alan.handle ++ ".on('") (.quoted '\'' [')']) := by decide
  have hasync : (Scan.quoted '\'' [')']).Reads "', async (" (.code [')', ')']) := by decide
  have hbrace : (Scan.code [')', ')']).Reads ") => \x7b\n" (.code ['\x7d', ')']) := by decide
  have hclose : (Scan.code ['\x7d', ')']).Reads "\x7d)\n" (.code []) := by decide
  have hpayload : WellBracketed (parameters.payload?.getD "") :=
    wellBracketed_plain fun c hc => isNeutral_of_isNamePart (payload_part hp c hc)
  have hhead := ((hopen.append (reads_quoted he _)).append hasync).append (hpayload.within _)
  have hbody := (block_carries body hb "" rfl hs).inside ['\x7d', ')']
  exact (Carries.before (hhead.append hbrace) hbody).after hclose

lemma items_carry {α : Type} {script : α → String} {parts : α → List Part} {as : List α}
    (h : ∀ a ∈ as, Carries [] [] (sources (parts a)) (script a)) :
    Carries [] [] (sources (as.flatMap parts)) (String.join (as.map script)) := by
  induction as with
  | nil => exact .plain rfl
  | cons a as ih =>
    obtain ⟨ha, has⟩ := List.forall_mem_cons.mp h
    rw [List.flatMap_cons, sources_append, List.map_cons, String.join_cons]
    exact ha.append (ih has)

lemma text_eq_join {target : Target} (p : Program) :
    (p.outline target).text target = String.join (p.pieces target) := by
  rw [outline_text, Target.frame, Program.pieces, String.join_cons, String.join_append, String.join_append,
    String.join_append, String.join_append]
  split <;> split <;> simp [String.append_assoc]

lemma mem_sources {part : Part} {parts : List Part} (h : part ∈ parts) (ht : part.source? = some t) :
    t ∈ sources parts :=
  List.mem_filterMap.mpr ⟨part, h, ht⟩

lemma wellBracketed_sources {p : Program} (hp : p.WellFormed)
    (hexit : ∀ f, .exit f ∈ p.statements → WellBracketed f) : ∀ t ∈ sources p.parts, WellBracketed t := by
  intro t ht
  obtain ⟨part, hpart, he⟩ := List.mem_filterMap.mp ht
  refine wellBracketed_source (hp.parts part hpart) he fun f hf => hexit f ?_
  exact Program.mem_statements.mpr (hf ▸ hpart)

lemma wellBracketed_listeners (http tcp : Prop) [Decidable http] [Decidable tcp] :
    ∀ piece ∈ (if http then [Target.alan.startListener Target.alan.httpListener] else []) ++
      ((if tcp then [Target.alan.startListener Target.alan.tcpListener] else []) ++ [Target.alan.startLine]),
        WellBracketed piece := by
  split <;> split <;> decide

lemma program_carries {p : Program} (hp : p.WellFormed) (hs : ∀ t ∈ sources p.parts, WellBracketed t) :
    (∀ piece ∈ p.pieces .alan, WellBracketed piece) ∧
      Carries [] [] (sources p.parts) (String.join (p.pieces .alan)) := by
  have hheader : WellBracketed Target.alan.header := by decide
  have htail := wellBracketed_listeners (p.Listens Target.alan.connectionEvent) (p.Listens Target.alan.tcpConnectionEvent)
  have hconstants : ∀ c ∈ p.constants, Carries [] [] (sources c.parts) (c.script .alan) := by
    intro c hc
    refine constant_carries (hp.1 c hc) fun t ht => hs t ?_
    obtain ⟨part, hpart, he⟩ := List.mem_filterMap.mp ht
    exact mem_sources (List.mem_append_left _ (List.mem_flatMap.mpr ⟨c, hc, hpart⟩)) he
  have hhandlers : ∀ d ∈ p.handlers, Carries [] [] (sources d.closure.parts) (d.script .alan) := by
    intro d hd
    refine handler_carries (hp.2.2 d hd) fun t ht => hs t ?_
    obtain ⟨part, hpart, he⟩ := List.mem_filterMap.mp ht
    exact mem_sources (List.mem_append_right _ (List.mem_flatMap.mpr ⟨d, hd, hpart⟩)) he
  constructor
  · refine List.forall_mem_cons.mpr ⟨hheader, List.forall_mem_append.mpr ⟨?_, List.forall_mem_append.mpr ⟨?_, htail⟩⟩⟩
    · exact List.forall_mem_map.mpr fun c hc => (hconstants c hc).reads
    · exact List.forall_mem_map.mpr fun d hd => (hhandlers d hd).reads
  · rw [Program.pieces, String.join_cons, String.join_append, String.join_append, Program.parts, sources_append]
    have hitems := (items_carry hhandlers).after (wellBracketed_join htail)
    exact .before hheader ((items_carry hconstants).append hitems)

/-- The script of a program whose exit fragments are well bracketed is well bracketed, and so is each constant,
handler and listener line of it and everything in front of one. The literals and the exit fragments stand in the
script in code, and the same brackets are open at the end of each as at its start. -/
theorem brackets_of_translate {text js : String} {p : Program} (hp : Program.parse text = .ok p)
    (hx : translateText .alan text = .ok js) (hexit : ∀ f, .exit f ∈ p.statements → WellBracketed f) :
    WellBracketed js ∧ js = String.join (p.pieces .alan) ∧
      (∀ piece ∈ p.pieces .alan, WellBracketed piece) ∧
      (∀ front, front <+: p.pieces .alan → WellBracketed (String.join front)) ∧
      Carries [] [] (sources p.parts) js ∧
      ∀ us t vs, sources p.parts = us ++ t :: vs → ∃ before behind expected, js = before ++ (t ++ behind) ∧
        (Scan.code []).Reads before (.code expected) ∧ (Scan.code expected).Reads t (.code expected) ∧
          (Scan.code expected).Reads behind (.code []) := by
  have hwf := wellFormed_of_parse hp
  simp only [translateText, parseText, hp] at hx
  obtain ⟨_, rfl⟩ := translate_eq_ok.mp hx
  obtain ⟨hpieces, hcarries⟩ := program_carries hwf (wellBracketed_sources hwf hexit)
  rw [text_eq_join]
  refine ⟨wellBracketed_join hpieces, rfl, hpieces, fun front hfront => ?_, hcarries, fun us t vs ht => ?_⟩
  · exact wellBracketed_join fun piece hpiece => hpieces piece (hfront.subset hpiece)
  · obtain ⟨before, behind, expected, hjs, hbefore, hreads, hbehind⟩ := (ht ▸ hcarries).split
    exact ⟨before, behind, expected, hjs, hbefore.reads, hreads, hbehind.reads⟩

def bracketText : String :=
  "on e fn (): t \x7b\n  f = fn (x: t): t \x7b\n    let y: t = \"a)\x7d\\\"]'\"\n    return [m(')')]\n  \x7d\n\x7d\n"

def bracketBody : List Statement :=
  [.declare .let "y" "t" (.literal "\"a)\x7d\\\"]'\""), .exit "return [m(')')]"]

def bracketProgram : Program where
  constants := []
  events := []
  handlers := [⟨"e", ⟨⟨[], none⟩, "t", [.assign "f" "" (.closure ⟨⟨[], some ⟨"x", "t"⟩⟩, "t", bracketBody⟩)]⟩⟩]

def bracketScript : String :=
  "const r = require('alan-js-runtime')\nr.on('e', async () => \x7b\n  f = async (x) => \x7b\n" ++
    "    let y = \"a)\x7d\\\"]'\"\n    return [m(')')]\n  \x7d\n\x7d)\nr.emit('_start', undefined)\n"

theorem brackets_bracketProgram : Program.parse bracketText = .ok bracketProgram ∧
    translateText .alan bracketText = .ok bracketScript ∧
      (∀ f, .exit f ∈ bracketProgram.statements → WellBracketed f) ∧ WellBracketed bracketScript ∧
        ∃ before behind expected, bracketScript = before ++ ("return [m(')')]" ++ behind) ∧
          (Scan.code []).Reads before (.code expected) ∧
            (Scan.code expected).Reads "return [m(')')]" (.code expected) := by
  have hp : Program.parse bracketText = .ok bracketProgram := rfl
  have hx : translateText .alan bracketText = .ok bracketScript := by decide +kernel
  have hexit : ∀ f, .exit f ∈ bracketProgram.statements → WellBracketed f := by
    intro f hf
    rcases List.mem_cons.mp hf with h | hf
    · cases h
    · rcases List.mem_cons.mp hf with h | hf
      · obtain rfl := Statement.exit.inj h
        decide
      · rcases List.mem_cons.mp hf with h | hf
        · cases h
        · cases hf
  obtain ⟨hscript, _, _, _, _, hplaces⟩ := brackets_of_translate hp hx hexit
  obtain ⟨before, behind, expected, hjs, hbefore, hreads, _⟩ := hplaces ["\"a)\x7d\\\"]'\""] _ [] rfl
  exact ⟨hp, hx, hexit, hscript, before, behind, expected, hjs, hbefore, hreads⟩

end AmmCompiler
