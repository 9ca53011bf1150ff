import AmmCompiler.Proofs.Text.Lines
import AmmCompiler.Target.OpcodeList

/-! Opcode lists as they are written: one name on a line, with white space, remarks and line ends as one likes. -/

namespace AmmCompiler

open Text

structure IsOpcodeName (name : String) : Prop where
  nonempty : name ≠ ""
  trimmed : Text.trimmed name = name
  unmarked : '#' ∉ name.toList
  oneLine : '\n' ∉ name.toList

def IsSpacing (cs : List Char) : Prop :=
  ∀ c ∈ cs, isBlank c ∧ c ≠ '\n'

def IsRemark (cs : List Char) : Prop :=
  cs = [] ∨ ∃ note, cs = '#' :: note ∧ '\n' ∉ note

inductive OpcodeLine : List String → List Char → Prop
  | empty {space remark : List Char} : IsSpacing space → IsRemark remark → OpcodeLine [] (space ++ remark)
  | name {name : String} {before after remark : List Char} : IsOpcodeName name → IsSpacing before →
      IsSpacing after → IsRemark remark → OpcodeLine [name] (before ++ name.toList ++ after ++ remark)

inductive OpcodeLayout : List String → List Char → Prop
  | last {names : List String} {line : List Char} : OpcodeLine names line → OpcodeLayout names line
  | line {names later : List String} {line carriage text : List Char} : OpcodeLine names line →
      carriage = [] ∨ carriage = ['\r'] → OpcodeLayout later text →
      OpcodeLayout (names ++ later) (line ++ carriage ++ '\n' :: text)

def namesIn (lines : List (List Char)) : List String :=
  ((lines.map opcodeOn).filter fun name => !name.isEmpty).map String.ofList

variable {names : List String} {name : String} {a b cs line remark y : List Char}

lemma namesIn_append (ls ms : List (List Char)) : namesIn (ls ++ ms) = namesIn ls ++ namesIn ms := by
  rw [namesIn, List.map_append, List.filter_append, List.map_append, namesIn, namesIn]

lemma namesIn_empty (h : opcodeOn line = []) : namesIn [line] = [] := by
  rw [namesIn, List.map_singleton, h]
  rfl

lemma namesIn_name (h : opcodeOn line ≠ []) : namesIn [line] = [String.ofList (opcodeOn line)] := by
  rw [namesIn, List.map_singleton, List.filter_cons_of_pos (by simpa using h)]
  rfl

lemma opcodeOn_remark (h : '#' ∉ cs) (hr : IsRemark remark) : opcodeOn (cs ++ remark) = trim cs := by
  rcases hr with rfl | ⟨note, rfl, -⟩
  · rw [List.append_nil, opcodeOn, List.takeWhile_eq_self_iff.mpr (all_ne h)]
  · have hstop : ('#' :: note).takeWhile (· ≠ '#') = [] := List.takeWhile_cons_of_neg (by simp)
    rw [opcodeOn, List.takeWhile_append_of_pos (all_ne h), hstop, List.append_nil]

lemma carriage_blank : ∀ c ∈ ['\r'], isBlank c :=
  List.forall_mem_singleton.mpr (by decide)

lemma opcodeOn_blank (hb : ∀ c ∈ b, isBlank c) (line : List Char) : opcodeOn (line ++ b) = opcodeOn line := by
  rw [opcodeOn, List.takeWhile_append]
  split
  · next h =>
    have hline : line.takeWhile (· ≠ '#') = line := (List.takeWhile_prefix _).eq_of_length h
    have hmark : '#' ∉ b := fun hm => absurd (hb _ hm) (by decide)
    rw [List.takeWhile_eq_self_iff.mpr (all_ne hmark), trim_blank hb, opcodeOn, hline]
  · rfl

lemma namesIn_blank (hb : ∀ c ∈ b, isBlank c) (line : List Char) : namesIn [line ++ b] = namesIn [line] := by
  rw [namesIn, List.map_singleton, opcodeOn_blank hb, namesIn, List.map_singleton]

lemma namesIn_last (hb : '\n' ∉ b) : namesIn (lines b) = namesIn [b] := by
  cases b with
  | nil => rfl
  | cons c b => rw [lines_single hb (List.cons_ne_nil c b)]

lemma namesIn_line (hb : '\n' ∉ b) (y : List Char) :
    namesIn (lines (b ++ '\n' :: y)) = namesIn [b] ++ namesIn (lines y) := by
  obtain ⟨l, hl, hbl⟩ := lines_append_newline hb y
  have hnames : namesIn [b] = namesIn [l] := by
    rcases hbl with rfl | rfl
    · rfl
    · exact namesIn_blank carriage_blank l
  rw [hl, hnames]
  exact namesIn_append [l] (lines y)

lemma namesIn_newline (a y : List Char) :
    namesIn (lines (a ++ '\n' :: y)) = namesIn (lines a) ++ namesIn (lines y) := by
  induction a using newline_induction with
  | last b hb => rw [namesIn_line hb, namesIn_last hb]
  | line b a hb ih => rw [List.append_assoc, List.cons_append, namesIn_line hb, ih, namesIn_line hb, List.append_assoc]

lemma IsSpacing.blank (h : IsSpacing cs) : ∀ c ∈ cs, isBlank c :=
  fun c hc => (h c hc).1

lemma IsSpacing.newline (h : IsSpacing cs) : '\n' ∉ cs :=
  fun hm => (h _ hm).2 rfl

lemma IsSpacing.unmarked (h : IsSpacing cs) : '#' ∉ cs :=
  fun hm => absurd (h.blank _ hm) (by decide)

lemma IsRemark.newline (h : IsRemark cs) : '\n' ∉ cs := by
  rcases h with rfl | ⟨note, rfl, hn⟩
  · exact List.not_mem_nil
  · rw [List.mem_cons]
    exact not_or.mpr ⟨by decide, hn⟩

lemma IsOpcodeName.toList_ne_nil (h : IsOpcodeName name) : name.toList ≠ [] :=
  fun he => h.nonempty (String.toList_eq_nil_iff.mp he)

lemma IsOpcodeName.trim_toList (h : IsOpcodeName name) : trim name.toList = name.toList := by
  rw [← String.toList_ofList (l := trim name.toList)]
  exact congrArg String.toList h.trimmed

lemma OpcodeLine.newline (h : OpcodeLine names line) : '\n' ∉ line := by
  cases h with
  | empty hs hr => exact List.not_mem_append hs.newline hr.newline
  | name hn hb ha hr =>
    exact List.not_mem_append (List.not_mem_append (List.not_mem_append hb.newline hn.oneLine) ha.newline) hr.newline

lemma OpcodeLine.names_eq (h : OpcodeLine names line) : namesIn [line] = names := by
  cases h with
  | empty hs hr =>
    apply namesIn_empty
    rw [opcodeOn_remark hs.unmarked hr]
    exact (trim_blank hs.blank []).trans rfl
  | name hn hb ha hr =>
    have hopcode := opcodeOn_remark
      (List.not_mem_append (List.not_mem_append hb.unmarked hn.unmarked) ha.unmarked) hr
    rw [trim_between hb.blank ha.blank, hn.trim_toList] at hopcode
    rw [namesIn_name (by rw [hopcode]; exact hn.toList_ne_nil), hopcode, String.ofList_toList]

lemma OpcodeLayout.names_eq (h : OpcodeLayout names cs) : namesIn (lines cs) = names := by
  induction h with
  | last hl => rw [namesIn_last hl.newline, hl.names_eq]
  | @line _ _ l carriage text hl hc _ ih =>
    rcases hc with rfl | rfl
    · rw [List.append_nil, namesIn_line hl.newline, hl.names_eq, ih]
    · have hmem : '\n' ∉ l ++ ['\r'] := List.not_mem_append hl.newline (by decide)
      rw [namesIn_line hmem, namesIn_blank carriage_blank, hl.names_eq, ih]

lemma exists_remark (hb : '\n' ∉ b) : ∃ code remark, b = code ++ remark ∧
    '#' ∉ code ∧ '\n' ∉ code ∧ IsRemark remark := by
  refine ⟨b.takeWhile (· ≠ '#'), b.dropWhile (· ≠ '#'), List.takeWhile_append_dropWhile.symm, ?_, ?_, ?_⟩
  · intro hm
    simpa using List.mem_takeWhile_imp hm
  · exact fun hm => hb ((List.takeWhile_prefix _).mem hm)
  · cases hd : b.dropWhile (· ≠ '#') with
    | nil => exact .inl rfl
    | cons c note =>
      have hc := List.head?_dropWhile_not (fun c : Char => decide (c ≠ '#')) b
      have hmem : '\n' ∉ c :: note := fun hm => hb ((List.dropWhile_suffix (· ≠ '#')).mem (hd ▸ hm))
      rw [hd] at hc
      obtain rfl : c = '#' := by simpa using hc
      exact .inr ⟨note, rfl, fun hm => hmem (List.mem_cons_of_mem _ hm)⟩

lemma isOpcodeName_trim (hne : trim cs ≠ []) (hm : '#' ∉ cs) (hn : '\n' ∉ cs) :
    IsOpcodeName (String.ofList (trim cs)) := by
  obtain ⟨a, b, hcs, -, -⟩ := exists_trim cs
  have hmem {c : Char} (hc : c ∈ trim cs) : c ∈ cs := by
    rw [hcs]
    exact List.mem_append_left _ (List.mem_append_right _ hc)
  constructor
  · intro he
    exact hne (String.ofList_eq_empty_iff.mp he)
  · rw [trimmed, String.toList_ofList, trim_trim]
  · rw [String.toList_ofList]
    exact fun hc => hm (hmem hc)
  · rw [String.toList_ofList]
    exact fun hc => hn (hmem hc)

lemma opcodeLine_names (hb : '\n' ∉ b) : OpcodeLine (namesIn [b]) b := by
  obtain ⟨code, remark, rfl, hm, hn, hr⟩ := exists_remark hb
  obtain ⟨before, after, hcode, hbefore, hafter⟩ := exists_trim code
  have hopcode : opcodeOn (code ++ remark) = trim code := opcodeOn_remark hm hr
  have hspacing {cs : List Char} (hblank : ∀ c ∈ cs, isBlank c) (hsub : ∀ c ∈ cs, c ∈ code) : IsSpacing cs :=
    fun c hc => ⟨hblank c hc, fun he => hn (he ▸ hsub c hc)⟩
  by_cases hempty : trim code = []
  · have hblank : ∀ c ∈ code, isBlank c := by
      rw [hempty, List.append_nil] at hcode
      intro c hc
      rw [hcode] at hc
      exact (List.mem_append.mp hc).elim (hbefore c) (hafter c)
    rw [namesIn_empty (hopcode.trans hempty)]
    exact .empty (hspacing hblank fun _ => id) hr
  · have hline := OpcodeLine.name (isOpcodeName_trim hempty hm hn)
      (hspacing hbefore fun c hc => by rw [hcode]; exact List.mem_append_left _ (List.mem_append_left _ hc))
      (hspacing hafter fun c hc => by rw [hcode]; exact List.mem_append_right _ hc) hr
    rw [String.toList_ofList, ← hcode] at hline
    rw [namesIn_name (by rwa [hopcode]), hopcode]
    exact hline

lemma opcodeLayout_names (cs : List Char) : OpcodeLayout (namesIn (lines cs)) cs := by
  induction cs using newline_induction with
  | last b hb =>
    rw [namesIn_last hb]
    exact .last (opcodeLine_names hb)
  | line b y hb ih =>
    have hlayout := OpcodeLayout.line (opcodeLine_names hb) (.inl rfl) ih
    rwa [List.append_nil, ← namesIn_line hb] at hlayout

lemma namesIn_eq_iff : namesIn (lines cs) = names ↔ OpcodeLayout names cs :=
  ⟨fun h => h ▸ opcodeLayout_names cs, OpcodeLayout.names_eq⟩

lemma OpcodeLine.isOpcodeName (h : OpcodeLine names line) : ∀ name ∈ names, IsOpcodeName name := by
  cases h with
  | empty => exact List.forall_mem_nil _
  | name hn => exact List.forall_mem_singleton.mpr hn

lemma OpcodeLayout.isOpcodeName (h : OpcodeLayout names cs) : ∀ name ∈ names, IsOpcodeName name := by
  induction h with
  | last hl => exact hl.isOpcodeName
  | line hl _ _ ih => exact List.forall_mem_append.mpr ⟨hl.isOpcodeName, ih⟩

lemma opcodeLine_name (h : IsOpcodeName name) : OpcodeLine [name] name.toList := by
  have hspacing : IsSpacing [] := List.forall_mem_nil _
  have hline := OpcodeLine.name h hspacing hspacing (.inl rfl)
  rwa [List.append_nil, List.append_nil] at hline

lemma opcodeLayout_joined (h : ∀ name ∈ names, IsOpcodeName name) :
    OpcodeLayout names ("\n".intercalate names).toList := by
  induction names with
  | nil => exact opcodeLayout_names []
  | cons name names ih =>
    obtain ⟨hn, hnames⟩ := List.forall_mem_cons.mp h
    cases names with
    | nil =>
      rw [String.intercalate_singleton]
      exact .last (opcodeLine_name hn)
    | cons next names =>
      have hlayout := OpcodeLayout.line (opcodeLine_name hn) (.inl rfl) (ih hnames)
      rw [String.intercalate_cons_cons, String.toList_append, String.toList_append, List.append_assoc]
      rwa [List.append_nil] at hlayout

theorem opcodeList_roundTrip :
    (∀ text, ∀ name ∈ opcodeList text, IsOpcodeName name) ∧
    (∀ names, (∀ name ∈ names, IsOpcodeName name) → opcodeList ("\n".intercalate names) = names) ∧
    (∀ text, opcodeList ("\n".intercalate (opcodeList text)) = opcodeList text) ∧
    (∀ names text, opcodeList text = names ↔ OpcodeLayout names text.toList) ∧
    ∀ a b, opcodeList (a ++ "\n" ++ b) = opcodeList a ++ opcodeList b := by
  have hlayout (names : List String) (text : String) : opcodeList text = names ↔ OpcodeLayout names text.toList :=
    namesIn_eq_iff
  have hnames (text : String) : ∀ name ∈ opcodeList text, IsOpcodeName name :=
    ((hlayout _ text).mp rfl).isOpcodeName
  have hjoined (names : List String) (h : ∀ name ∈ names, IsOpcodeName name) :
      opcodeList ("\n".intercalate names) = names :=
    (hlayout names _).mpr (opcodeLayout_joined h)
  refine ⟨hnames, hjoined, fun text => hjoined _ (hnames text), hlayout, fun a b => ?_⟩
  have happend : (a ++ "\n" ++ b).toList = a.toList ++ '\n' :: b.toList := by
    rw [String.toList_append, String.toList_append, List.append_assoc]
    rfl
  calc opcodeList (a ++ "\n" ++ b) = namesIn (lines (a.toList ++ '\n' :: b.toList)) :=
      congrArg (fun cs => namesIn (lines cs)) happend
    _ = opcodeList a ++ opcodeList b := namesIn_newline a.toList b.toList

theorem opcodeList_annotated :
    opcodeList " tcpconn\t# sockets\r\n\r\n# files\nread all" = ["tcpconn", "read all"] ∧
      opcodeList ("\n".intercalate ["tcpconn", "read all"]) = ["tcpconn", "read all"] ∧
      OpcodeLayout ["tcpconn", "read all"] " tcpconn\t# sockets\r\n\r\n# files\nread all".toList := by
  have hlist : opcodeList " tcpconn\t# sockets\r\n\r\n# files\nread all" = ["tcpconn", "read all"] := by
    decide +kernel
  obtain ⟨hnames, hjoined, -, hlayout, -⟩ := opcodeList_roundTrip
  exact ⟨hlist, hjoined _ (hlist ▸ hnames _), (hlayout _ _).mp hlist⟩

end AmmCompiler
