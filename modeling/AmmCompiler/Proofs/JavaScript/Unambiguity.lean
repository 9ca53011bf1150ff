import AmmCompiler.Proofs.JavaScript.Form

/-! No two outlines of programs have one text. -/

namespace AmmCompiler

open Source Text

variable {r s : List Char}

lemma lines_append (st : StatementOutline) (ss : List StatementOutline) (ind : String) (r : List Char) :
    (outlineLines .alan ind (st :: ss)).toList ++ r =
      ind.toList ++ ' ' :: ' ' :: ((st.text .alan ind).toList ++ '\n' :: ((outlineLines .alan ind ss).toList ++ r)) := by
  simp only [outlineLines, indentStep, String.toList_append, String.reduceToList, List.append_assoc,
    List.cons_append, List.nil_append]

lemma names_of_parameters {ps : Parameters} (h : ps.WellFormed) : ∀ n ∈ ps.names, IsName n.toList := by
  intro n hn
  obtain ⟨p, hp, rfl⟩ := List.mem_map.mp hn
  exact (h p hp).1

lemma keyword_inj {b d : Binding} (h : b.keyword = d.keyword) : b = d := by
  cases b
  · cases d
    · rfl
    · exact absurd h (by decide)
  · cases d
    · exact absurd h (by decide)
    · rfl

lemma isName_payload {payload : Option String} (h : ∀ p ∈ payload, IsName p.toList) :
    IsName (payload.getD "undefined").toList := by
  cases payload with
  | none => decide
  | some p => exact h p rfl

mutual

theorem value_inj (a b : Value) (ha : a.WellFormed) (hb : b.WellFormed) {l m ind : String} {r s : List Char}
    (h : ((a.outline .alan l).text .alan ind).toList ++ '\n' :: r =
      ((b.outline .alan m).text .alan ind).toList ++ '\n' :: s) :
    a.outline .alan l = b.outline .alan m ∧ r = s := by
  have hform := congrArg valueForm h
  rw [valueForm_text ha, valueForm_text hb] at hform
  cases a with
  | closure c =>
    cases b with
    | closure d =>
      rw [Value.outline, Value.outline] at h ⊢
      obtain ⟨he, hr⟩ := closure_inj c d ha hb h
      exact ⟨he, (List.cons.inj hr).2⟩
    | _ => cases hform
  | call c =>
    cases b with
    | call d =>
      rw [Value.outline, Value.outline, ValueOutline.text, ValueOutline.text] at h
      obtain ⟨rfl, hr⟩ := callText_inj ha.1 hb.1 h
      exact ⟨rfl, (List.cons.inj hr).2⟩
    | _ => cases hform
  | «variable» n =>
    cases b with
    | «variable» k =>
      rw [Value.outline, Value.outline, ValueOutline.text, ValueOutline.text] at h
      obtain ⟨he, hr⟩ := atomic_inj (atomic_of_name ha.1) (atomic_of_name hb.1) h
      exact ⟨congrArg ValueOutline.variable (String.toList_inj.mp he), hr⟩
    | literal t =>
      rw [Value.outline, Value.outline, ValueOutline.text, ValueOutline.text] at h
      exact (variable_literal_absurd ha hb h).elim
    | _ => cases hform
  | literal t =>
    cases b with
    | literal u =>
      rw [Value.outline, Value.outline, ValueOutline.text, ValueOutline.text] at h
      obtain ⟨he, hr⟩ := atomic_inj (literalText_cases ha).1 (literalText_cases hb).1 h
      exact ⟨congrArg ValueOutline.literal (String.toList_inj.mp he), hr⟩
    | «variable» n =>
      rw [Value.outline, Value.outline, ValueOutline.text, ValueOutline.text] at h
      exact (variable_literal_absurd hb ha h.symm).elim
    | _ => cases hform
termination_by structural a

theorem closure_inj (c d : Closure) (hc : c.WellFormed) (hd : d.WellFormed) {ind : String} {r s : List Char}
    (h : ((c.outline .alan).text .alan ind).toList ++ r = ((d.outline .alan).text .alan ind).toList ++ s) :
    c.outline .alan = d.outline .alan ∧ r = s := by
  match c, d with
  | ⟨ps, _, body⟩, ⟨qs, _, body'⟩ =>
    rw [Closure.outline, Closure.outline, closure_append, closure_append] at h
    have h := (List.cons.inj (List.cons.inj (List.append_cancel_left h)).2).2
    obtain ⟨hn, hb⟩ := names_inj (names_of_parameters hc.1) (names_of_parameters hd.1) h
    obtain ⟨hbody, hr⟩ := block_inj body body' _ hc.2.2 hd.2.2 (List.append_cancel_left hb)
    rw [Closure.outline, Closure.outline, hn, hbody]
    exact ⟨rfl, hr⟩
termination_by structural c

theorem statement_inj (a b : Statement) (ha : a.WellFormed) (hb : b.WellFormed) {ind : String} {r s : List Char}
    (h : ((a.outline .alan).text .alan ind).toList ++ '\n' :: r =
      ((b.outline .alan).text .alan ind).toList ++ '\n' :: s) :
    a.outline .alan = b.outline .alan ∧ r = s := by
  have hform := congrArg statementForm h
  rw [statementForm_text ha, statementForm_text hb] at hform
  cases a with
  | declare k n l v =>
    cases b with
    | declare k' n' l' v' =>
      rw [Statement.outline, Statement.outline, declare_append, declare_append] at h
      obtain ⟨hk, _, h⟩ := name_inj (isName_keyword k) (isName_keyword k') h
      obtain ⟨rfl, _, h⟩ := name_inj ha.1 hb.1 h
      obtain ⟨hv, hr⟩ := value_inj v v' ha.2.2 hb.2.2 (List.cons.inj (List.cons.inj h).2).2
      rw [Statement.outline, Statement.outline, keyword_inj hk, hv]
      exact ⟨rfl, hr⟩
    | _ => cases hform
  | assign n l v =>
    cases b with
    | assign n' l' v' =>
      rw [Statement.outline, Statement.outline, assign_append, assign_append] at h
      obtain ⟨rfl, _, h⟩ := name_inj ha.1.1 hb.1.1 h
      obtain ⟨hv, hr⟩ := value_inj v v' ha.2.2 hb.2.2 (List.cons.inj (List.cons.inj h).2).2
      rw [Statement.outline, Statement.outline, hv]
      exact ⟨rfl, hr⟩
    | _ => cases hform
  | call c =>
    cases b with
    | call d =>
      rw [Statement.outline, Statement.outline, StatementOutline.text, StatementOutline.text] at h
      obtain ⟨rfl, hr⟩ := callText_inj ha.1 hb.1 h
      exact ⟨rfl, (List.cons.inj hr).2⟩
    | _ => cases hform
  | emit e p =>
    cases b with
    | emit e' p' =>
      rw [Statement.outline, Statement.outline, emit_append, emit_append] at h
      have h := List.append_cancel_left (List.cons.inj (List.append_cancel_left h)).2
      obtain ⟨rfl, _, h⟩ := name_inj ha.1 hb.1 h
      have h := (List.cons.inj (List.cons.inj h).2).2
      obtain ⟨hp, _, h⟩ := name_inj (isName_payload ha.2) (isName_payload hb.2) h
      rw [Statement.outline, Statement.outline, hp]
      exact ⟨rfl, (List.cons.inj h).2⟩
    | _ => cases hform
  | exit f =>
    cases b with
    | exit g =>
      rw [Statement.outline, Statement.outline, exit_text ha, exit_text hb] at h
      obtain ⟨rfl, hr⟩ := exit_inj ha hb h
      exact ⟨rfl, hr⟩
    | _ => cases hform
termination_by structural a

theorem block_inj (ss ts : List Statement) (ind : String) (hs : blockWellFormed ss) (ht : blockWellFormed ts)
    {r s : List Char} (h : (outlineLines .alan ind (blockOutline .alan ss)).toList ++ (ind.toList ++ '\x7d' :: r) =
      (outlineLines .alan ind (blockOutline .alan ts)).toList ++ (ind.toList ++ '\x7d' :: s)) :
    blockOutline .alan ss = blockOutline .alan ts ∧ r = s := by
  match ss, ts with
  | [], [] => exact ⟨rfl, (List.cons.inj (List.append_cancel_left h)).2⟩
  | [], t :: ts =>
    rw [blockOutline, blockOutline, lines_append] at h
    exact absurd (List.cons.inj (List.append_cancel_left h)).1 (by decide)
  | a :: ss, [] =>
    rw [blockOutline, blockOutline, lines_append] at h
    exact absurd (List.cons.inj (List.append_cancel_left h)).1 (by decide)
  | a :: ss, t :: ts =>
    rw [blockOutline, blockOutline, lines_append, lines_append] at h
    have h := (List.cons.inj (List.cons.inj (List.append_cancel_left h)).2).2
    obtain ⟨ha, h⟩ := statement_inj a t hs.1 ht.1 h
    obtain ⟨hss, hr⟩ := block_inj ss ts ind hs.2 ht.2 h
    rw [blockOutline, blockOutline, ha, hss]
    exact ⟨rfl, hr⟩
termination_by structural ss

end

lemma joined_append (t : String) (ts : List String) (r : List Char) :
    (String.join (t :: ts)).toList ++ r = t.toList ++ ((String.join ts).toList ++ r) := by
  rw [String.join_cons, String.toList_append, List.append_assoc]

lemma constant_append (c : ConstantOutline) (r : List Char) : (c.text .alan).toList ++ r =
    "const ".toList ++ (c.name.toList ++ ' ' :: '=' :: ' ' :: ((c.value.text .alan "").toList ++ '\n' :: r)) := by
  simp only [ConstantOutline.text, String.toList_append, String.reduceToList, List.append_assoc, List.cons_append,
    List.nil_append]

lemma constants_inj {cs ds : List Constant} (hc : ∀ c ∈ cs, (Item.constant c).WellFormed)
    (hd : ∀ d ∈ ds, (Item.constant d).WellFormed) (hr : r.head? = some 'r') (hs : s.head? = some 'r')
    (h : (String.join ((cs.map (Constant.outline .alan)).map (ConstantOutline.text .alan))).toList ++ r =
      (String.join ((ds.map (Constant.outline .alan)).map (ConstantOutline.text .alan))).toList ++ s) :
    cs.map (Constant.outline .alan) = ds.map (Constant.outline .alan) ∧ r = s := by
  have hnone {c : Constant} {cs : List Constant} {r s : List Char} (hr : r.head? = some 'r') : r ≠
      (String.join (((c :: cs).map (Constant.outline .alan)).map (ConstantOutline.text .alan))).toList ++ s := by
    rw [List.map_cons, List.map_cons, joined_append, constant_append]
    rintro rfl
    exact absurd (Option.some.inj hr) (by decide)
  induction cs generalizing ds with
  | nil =>
    cases ds with
    | nil => exact ⟨rfl, h⟩
    | cons d ds => exact absurd h (hnone hr)
  | cons c cs ih =>
    cases ds with
    | nil => exact absurd h.symm (hnone hs)
    | cons d ds =>
      simp only [List.map_cons, joined_append, constant_append] at h
      have hcw := hc c List.mem_cons_self
      have hdw := hd d List.mem_cons_self
      obtain ⟨hn, _, h⟩ := name_inj hcw.1 hdw.1 (List.append_cancel_left h)
      obtain ⟨hv, h⟩ := value_inj _ _ hcw.2.2 hdw.2.2 (List.cons.inj (List.cons.inj h).2).2
      obtain ⟨hcs, hrs⟩ := ih (fun x hx => hc x (List.mem_cons_of_mem c hx))
        (fun x hx => hd x (List.mem_cons_of_mem d hx)) h
      rw [List.map_cons, List.map_cons, Constant.outline, Constant.outline, hn, hv, hcs]
      exact ⟨rfl, hrs⟩

def registrationTail (payload : String) (body : List StatementOutline) (r : List Char) : List Char :=
  ',' :: ' ' :: ("async".toList ++ ' ' :: '(' :: (payload.toList ++ ')' :: (" => \x7b\n".toList ++
    ((outlineLines .alan "" body).toList ++ '\x7d' :: ')' :: '\n' :: r))))

lemma registration_append (h : HandlerOutline) (r : List Char) : (h.text .alan).toList ++ r =
    "r.on('".toList ++ (h.event.toList ++ '\'' :: registrationTail (h.payload.getD "") h.body r) := by
  have hh : Target.alan.handle = "r" := rfl
  simp only [HandlerOutline.text, registrationTail, hh, String.toList_append, String.reduceToList, List.append_assoc,
    List.cons_append, List.nil_append]

lemma payload_part {ps : Parameters} (h : ps.WellFormed) : ∀ c ∈ (ps.payload?.getD "").toList, isNamePart c := by
  cases hp : ps.payload? with
  | none => exact List.forall_mem_nil _
  | some n => exact (names_of_parameters h n (List.mem_of_mem_head? hp)).all

lemma payload_inj {ps qs : Parameters} (hp : ps.WellFormed) (hq : qs.WellFormed)
    (h : ps.payload?.getD "" = qs.payload?.getD "") : ps.payload? = qs.payload? := by
  have hne {ps : Parameters} {n : String} (hp : ps.WellFormed) (hn : ps.payload? = some n) : "" ≠ n := by
    rintro rfl
    obtain ⟨c, q, he, _⟩ := names_of_parameters hp _ (List.mem_of_mem_head? hn)
    cases he
  cases hn : ps.payload? with
  | none =>
    cases hk : qs.payload? with
    | none => rfl
    | some k =>
      rw [hn, hk] at h
      exact absurd h (hne hq hk)
  | some n =>
    cases hk : qs.payload? with
    | none =>
      rw [hn, hk] at h
      exact absurd h.symm (hne hp hn)
    | some k =>
      rw [hn, hk] at h
      exact congrArg some h

lemma handler_inj {g h : Handler} (hg : (Item.handler g).WellFormed) (hh : (Item.handler h).WellFormed)
    (he : ((g.outline .alan).text .alan).toList ++ r = ((h.outline .alan).text .alan).toList ++ s) :
    g.outline .alan = h.outline .alan ∧ r = s := by
  obtain ⟨event, ps, l, body⟩ := g
  obtain ⟨event', qs, l', body'⟩ := h
  obtain ⟨hge, hps, _, hgb⟩ := hg
  obtain ⟨hhe, hqs, _, hhb⟩ := hh
  rw [registration_append, registration_append] at he
  obtain ⟨hev, _, he⟩ := name_inj hge hhe (List.append_cancel_left he)
  rw [registrationTail, registrationTail] at he
  have he := (List.cons.inj (List.cons.inj (List.append_cancel_left (List.cons.inj (List.cons.inj he).2).2)).2).2
  obtain ⟨hp, _, he⟩ := span_inj (payload_part hps) (payload_part hqs) (by decide) (by decide) he
  obtain ⟨hb, hr⟩ := block_inj body body' "" hgb hhb (List.append_cancel_left he)
  have hpayload := payload_inj hps hqs (String.toList_inj.mp hp)
  rw [Handler.outline, Handler.outline, HandlerOutline.mk.injEq]
  exact ⟨⟨hev, hpayload, hb⟩, (List.cons.inj (List.cons.inj hr).2).2⟩

def ending (http tcp : Bool) : List Char :=
  (Target.alan.listenerLines http tcp ++ Target.alan.startLine).toList

lemma listener_append (l : String) (r : List Char) : (Target.alan.startListener l).toList ++ r =
    "r.on('".toList ++ ("_start".toList ++ '\'' :: ',' :: ' ' :: '(' :: (") => r.".toList ++ (l.toList ++
      ("())\n".toList ++ r)))) := by
  have hh : Target.alan.handle = "r" := rfl
  have hs : Target.alan.startEvent = "_start" := rfl
  simp only [Target.startListener, hh, hs, String.toList_append, String.reduceToList, List.append_assoc,
    List.cons_append, List.nil_append]

lemma listener_ne_handler {h : Handler} (hw : (Item.handler h).WellFormed) (l : String) (r s : List Char) :
    (Target.alan.startListener l).toList ++ r ≠ ((h.outline .alan).text .alan).toList ++ s := by
  rw [listener_append, registration_append]
  intro he
  obtain ⟨_, _, he⟩ := name_inj (by decide) hw.1 (List.append_cancel_left he)
  simp [registrationTail] at he

lemma start_ne_handler (h : Handler) (r s : List Char) :
    Target.alan.startLine.toList ++ r ≠ ((h.outline .alan).text .alan).toList ++ s := by
  have hh : Target.alan.handle = "r" := rfl
  rw [registration_append]
  simp [Target.startLine, Target.emitEvent, hh]

lemma ending_ne_handler {h : Handler} (hw : (Item.handler h).WellFormed) (http tcp : Bool) (r : List Char) :
    ending http tcp ≠ ((h.outline .alan).text .alan).toList ++ r := by
  cases http
  · cases tcp
    · have he : ending false false = Target.alan.startLine.toList ++ [] := by simp [ending, Target.listenerLines]
      rw [he]
      exact start_ne_handler h [] r
    · have he : ending false true = (Target.alan.startListener Target.alan.tcpListener).toList ++
          Target.alan.startLine.toList := by simp [ending, Target.listenerLines]
      rw [he]
      exact listener_ne_handler hw _ _ r
  · have he : ending true tcp = (Target.alan.startListener Target.alan.httpListener).toList ++
        ending false tcp := by simp [ending, Target.listenerLines]
    rw [he]
    exact listener_ne_handler hw _ _ r

lemma handlers_inj {gs hs : List Handler} (hg : ∀ g ∈ gs, (Item.handler g).WellFormed)
    (hh : ∀ h ∈ hs, (Item.handler h).WellFormed) {a b c d : Bool}
    (he : (String.join ((gs.map (Handler.outline .alan)).map (HandlerOutline.text .alan))).toList ++ ending a b =
      (String.join ((hs.map (Handler.outline .alan)).map (HandlerOutline.text .alan))).toList ++ ending c d) :
    gs.map (Handler.outline .alan) = hs.map (Handler.outline .alan) := by
  induction gs generalizing hs with
  | nil =>
    cases hs with
    | nil => rfl
    | cons h hs =>
      rw [List.map_cons, List.map_cons, joined_append] at he
      exact absurd he (ending_ne_handler (hh h List.mem_cons_self) a b _)
  | cons g gs ih =>
    cases hs with
    | nil =>
      rw [List.map_cons, List.map_cons, joined_append] at he
      exact absurd he.symm (ending_ne_handler (hg g List.mem_cons_self) c d _)
    | cons h hs =>
      simp only [List.map_cons, joined_append] at he
      obtain ⟨hgh, he⟩ := handler_inj (hg g List.mem_cons_self) (hh h List.mem_cons_self) he
      have htail := ih (fun x hx => hg x (List.mem_cons_of_mem g hx)) (fun x hx => hh x (List.mem_cons_of_mem h hx)) he
      rw [List.map_cons, List.map_cons, hgh, htail]

lemma program_append (p : ProgramOutline) : (p.text .alan).toList = Target.alan.header.toList ++
    ((String.join (p.constants.map (ConstantOutline.text .alan))).toList ++
      ((String.join (p.handlers.map (HandlerOutline.text .alan))).toList ++
        ending (p.handles Target.alan.connectionEvent) (p.handles Target.alan.tcpConnectionEvent))) := by
  simp only [ProgramOutline.text, ending, String.toList_append, List.append_assoc]

lemma head_handlers (hs : List HandlerOutline) (http tcp : Bool) :
    ((String.join (hs.map (HandlerOutline.text .alan))).toList ++ ending http tcp).head? = some 'r' := by
  cases hs with
  | nil =>
    cases http <;> cases tcp <;> rfl
  | cons h hs =>
    rw [List.map_cons, joined_append, registration_append]
    rfl

/-- Programs have one text exactly when they have one outline. -/
theorem translate_eq_iff {s t x y : String} {p q : Program} (hp : Program.parse s = .ok p)
    (hq : Program.parse t = .ok q) (hx : p.translate .alan = .ok x) (hy : q.translate .alan = .ok y) :
    x = y ↔ p.outline .alan = q.outline .alan := by
  rw [text_of_translate hx, text_of_translate hy]
  constructor
  · intro h
    obtain ⟨hpc, _, hph⟩ := wellFormed_of_parse hp
    obtain ⟨hqc, _, hqh⟩ := wellFormed_of_parse hq
    have h := congrArg String.toList h
    rw [program_append, program_append] at h
    obtain ⟨hc, h⟩ := constants_inj hpc hqc (head_handlers _ _ _) (head_handlers _ _ _) (List.append_cancel_left h)
    have hh := handlers_inj hph hqh h
    rw [Program.outline, Program.outline, hc, hh]
  · intro h
    rw [h]

def labelledText : String :=
  "event e: void const x: int64 = 5 on a fn (b: t, c: t): void \x7b emit e \x7d"

def unlabelledText : String :=
  "const x: int64 = 5\non a fn (b: u): u \x7bemit e undefined\x7d"

def labelledProgram : Program where
  constants := [⟨"x", "int64", .literal "5"⟩]
  events := [⟨"e", "void"⟩]
  handlers := [⟨"a", ⟨⟨[⟨"b", "t"⟩], some ⟨"c", "t"⟩⟩, "void", [.emit "e" none]⟩⟩]

def unlabelledProgram : Program where
  constants := [⟨"x", "int64", .literal "5"⟩]
  events := []
  handlers := [⟨"a", ⟨⟨[], some ⟨"b", "u"⟩⟩, "u", [.emit "e" (some "undefined")]⟩⟩]

def commonScript : String :=
  "const r = require('alan-js-runtime')\nconst x = 5n\nr.on('a', async (b) => \x7b\n  r.emit('e', undefined)\n\x7d)\n" ++
    "r.emit('_start', undefined)\n"

theorem translate_labelledText : Program.parse labelledText = .ok labelledProgram ∧
    Program.parse unlabelledText = .ok unlabelledProgram ∧ labelledProgram.translate .alan = .ok commonScript ∧
      unlabelledProgram.translate .alan = .ok commonScript ∧
        labelledProgram.outline .alan = unlabelledProgram.outline .alan := by
  have hs : Program.parse labelledText = .ok labelledProgram := rfl
  have ht : Program.parse unlabelledText = .ok unlabelledProgram := rfl
  have hx : labelledProgram.translate .alan = .ok commonScript := by decide +kernel
  have hy : unlabelledProgram.translate .alan = .ok commonScript := by decide +kernel
  exact ⟨hs, ht, hx, hy, (translate_eq_iff hs ht hx hy).mp rfl⟩

end AmmCompiler
