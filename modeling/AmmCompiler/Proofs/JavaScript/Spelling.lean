import AmmCompiler.Proofs.Grammar.RespeltProgram
import AmmCompiler.Proofs.JavaScript.Assembly

namespace AmmCompiler

open Source Text

def Part.Keeps (f : String → String) : Part → Prop
  | .literal _ token => IsLiteral token → f token = token
  | .statement (.exit fragment) => IsExit fragment.toList → f fragment = fragment
  | _ => True

def KeepsBigInt (target : Target) (f : String → String) : Prop :=
  ∀ l, l = "" ∨ IsType l.toList → (trimmed (f l) = target.bigIntLabel ↔ trimmed l = target.bigIntLabel)

variable {target : Target} {f : String → String}

lemma Parameters.names_respell (ps : Parameters) : (ps.respell f).names = ps.names := by
  obtain ⟨ordinary, trailing⟩ := ps
  cases trailing <;> simp [names, all, respell, Parameter.respell]

lemma mem_trim {cs : List Char} {c : Char} (hc : c ∈ cs) (hb : ¬ isBlank c) : c ∈ trim cs := by
  have hstart {cs : List Char} (hc : c ∈ cs) : c ∈ trimStart cs := by
    rw [← List.takeWhile_append_dropWhile (p := isBlank) (l := cs)] at hc
    exact (List.mem_append.mp hc).resolve_left fun hm => hb (List.mem_takeWhile_imp hm)
  exact List.mem_reverse.mpr (hstart (List.mem_reverse.mpr (hstart hc)))

mutual

theorem value_respell (hf : KeepsBigInt target f) (v : Value) (l : String) (hv : v.WellFormed)
    (hl : l = "" ∨ IsType l.toList) (hk : ∀ part ∈ v.parts l, part.Keeps f) :
    (v.respell f).outline target (f l) = v.outline target l := by
  match v with
  | .closure c => exact closure_respell hf c hv fun part hp => hk part (List.mem_cons_of_mem _ hp)
  | .call c => rfl
  | .variable n => rfl
  | .literal t =>
    have ht : f t = t := hk _ List.mem_cons_self hv
    have hb : target.isBigInt (f l) t = target.isBigInt l t := by
      rw [Target.isBigInt, Target.isBigInt, Bool.eq_iff_iff]
      simp only [Bool.and_eq_true, beq_iff_eq, hf l hl]
    simp only [Value.respell, Value.outline, Target.literalText, ht, hb]

theorem closure_respell (hf : KeepsBigInt target f) (c : Closure) (hc : c.WellFormed)
    (hk : ∀ part ∈ c.parts, part.Keeps f) : (c.respell f).outline target = c.outline target := by
  match c with
  | ⟨parameters, label, body⟩ =>
    have hb := block_respell hf body hc.2.2 hk
    simp only [Closure.respell, Closure.outline, hb, Parameters.names_respell]

theorem statement_respell (hf : KeepsBigInt target f) (s : Statement) (hs : s.WellFormed)
    (hk : ∀ part ∈ s.parts, part.Keeps f) : (s.respell f).outline target = s.outline target := by
  match s with
  | .declare b n l v =>
    have hv := value_respell hf v l hs.2.2 (.inr hs.2.1) fun part hp => hk part (List.mem_append_left _ hp)
    simp only [Statement.respell, Statement.outline, hv]
  | .assign n l v =>
    have hv := value_respell hf v l hs.2.2 hs.2.1 fun part hp => hk part (List.mem_append_left _ hp)
    simp only [Statement.respell, Statement.outline, hv]
  | .call c => rfl
  | .emit e p => rfl
  | .exit x =>
    have hx : f x = x := hk (.statement (.exit x)) List.mem_cons_self hs
    simp only [Statement.respell, Statement.outline, hx]

theorem block_respell (hf : KeepsBigInt target f) (ss : List Statement) (hs : blockWellFormed ss)
    (hk : ∀ part ∈ blockParts ss, part.Keeps f) : blockOutline target (blockRespell f ss) = blockOutline target ss := by
  match ss with
  | [] => rfl
  | s :: ss =>
    have hfirst := statement_respell hf s hs.1 fun part hp => hk part (List.mem_append_left _ hp)
    have hothers := block_respell hf ss hs.2 fun part hp => hk part (List.mem_append_right _ hp)
    simp only [blockRespell, blockOutline, hfirst, hothers]

end

lemma outline_respell (hf : KeepsBigInt target f) {p : Program} (hp : p.WellFormed)
    (hk : ∀ part ∈ p.parts, part.Keeps f) : (p.respell f).outline target = p.outline target := by
  obtain ⟨hconstants, _, hhandlers⟩ := hp
  have hc : ∀ c ∈ p.constants, (c.respell f).outline target = c.outline target := by
    intro c hc
    have hv := value_respell hf c.value c.typeLabel (hconstants c hc).2.2 (.inr (hconstants c hc).2.1) fun part hp =>
      hk part (List.mem_append_left _ (List.mem_flatMap.mpr ⟨c, hc, hp⟩))
    simp only [Constant.respell, Constant.outline, hv]
  have hd : ∀ d ∈ p.handlers, (d.respell f).outline target = d.outline target := by
    intro d hd
    obtain ⟨event, ⟨parameters, label, body⟩⟩ := d
    have hb := block_respell hf body (hhandlers _ hd).2.2.2 fun part hp =>
      hk part (List.mem_append_right _ (List.mem_flatMap.mpr ⟨_, hd, hp⟩))
    simp only [Handler.respell, Handler.outline, Closure.respell, hb, Parameters.payload?, Parameters.names_respell]
  simp only [Program.outline, Program.respell, List.map_map, ProgramOutline.mk.injEq]
  exact ⟨List.map_congr_left hc, List.map_congr_left hd⟩

lemma label_respell {φ : List Char → List Char} (h : Respelling φ) {label l : String} (hlabel : '<' ∉ label.toList)
    (hl : l = "" ∨ IsType l.toList) : trimmed (respell φ l) = label ↔ trimmed l = label := by
  have hne {s : String} (hs : '<' ∈ s.toList) : trimmed s ≠ label := by
    rintro rfl
    rw [trimmed, String.toList_ofList] at hlabel
    exact hlabel (mem_trim hs (by decide))
  rcases hl with rfl | hl
  · rw [respell_of_isPlain h (List.forall_mem_nil _)]
  generalize hcs : l.toList = cs at hl
  cases hl with
  | name hw => rw [respell_of_isPlain h (hcs ▸ hw.isPlain)]
  | @generic w g as hw hg has =>
    have hφ : respell φ l = .ofList (w ++ (φ g ++ '<' :: φ as)) := by
      rw [respell, hcs, h.append_plain hw.isPlain, h.append hg.whole (hg.apart _), h.cons (by decide)]
    have hmem : '<' ∈ (respell φ l).toList := by simp [hφ]
    have hmem' : '<' ∈ l.toList := by simp [hcs]
    exact iff_of_false (hne hmem) (hne hmem')

lemma translate_respell {φ : List Char → List Char} (h : Respelling φ) (target : Target)
    (hlabel : '<' ∉ target.bigIntLabel.toList) {p : Program} (hp : p.WellFormed)
    (hk : ∀ part ∈ p.parts, part.Keeps (respell φ)) :
    (p.respell (respell φ)).translate target = p.translate target := by
  rw [translate_eq, translate_eq, outline_respell (fun l => label_respell h hlabel) hp hk]

end AmmCompiler
