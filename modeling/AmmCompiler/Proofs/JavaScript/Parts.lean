import AmmCompiler.Proofs.Grammar.Soundness
import AmmCompiler.Proofs.JavaScript.Counts

namespace AmmCompiler

open Source

def Part.WellFormed : Part → Prop
  | .statement s => s.WellFormed
  | .closure c => c.WellFormed
  | .call c => c.WellFormed
  | .literal _ token => IsLiteral token

mutual

theorem value_wellFormedParts (v : Value) (h : v.WellFormed) (l : String) : ∀ part ∈ v.parts l, part.WellFormed := by
  match v with
  | .closure c => exact List.forall_mem_cons.mpr ⟨h, closure_wellFormedParts c h⟩
  | .call c => exact List.forall_mem_singleton.mpr h.1
  | .variable n => exact List.forall_mem_nil _
  | .literal t => exact List.forall_mem_singleton.mpr h

theorem closure_wellFormedParts (c : Closure) (h : c.WellFormed) : ∀ part ∈ c.parts, part.WellFormed := by
  match c with
  | ⟨parameters, label, body⟩ => exact block_wellFormedParts body h.2.2

theorem statement_wellFormedParts (s : Statement) (h : s.WellFormed) : ∀ part ∈ s.parts, part.WellFormed := by
  match s with
  | .declare b n l v =>
    exact List.forall_mem_append.mpr ⟨value_wellFormedParts v h.2.2 l, List.forall_mem_singleton.mpr h⟩
  | .assign n l v =>
    exact List.forall_mem_append.mpr ⟨value_wellFormedParts v h.2.2 l, List.forall_mem_singleton.mpr h⟩
  | .call c => exact List.forall_mem_cons.mpr ⟨h.1, List.forall_mem_singleton.mpr h⟩
  | .emit e p => exact List.forall_mem_singleton.mpr h
  | .exit f => exact List.forall_mem_singleton.mpr h

theorem block_wellFormedParts (ss : List Statement) (h : blockWellFormed ss) :
    ∀ part ∈ blockParts ss, part.WellFormed := by
  match ss with
  | [] => exact List.forall_mem_nil _
  | s :: ss =>
    exact List.forall_mem_append.mpr ⟨statement_wellFormedParts s h.1, block_wellFormedParts ss h.2⟩

end

lemma mem_filterMap_iff {α β : Type} {f : α → Option β} {make : β → α} (h : ∀ a b, f a = some b ↔ a = make b)
    {as : List α} {b : β} : b ∈ as.filterMap f ↔ make b ∈ as := by
  simp only [List.mem_filterMap, h, exists_eq_right]

namespace Program

variable {p : Program}

lemma WellFormed.parts (h : p.WellFormed) : ∀ part ∈ p.parts, part.WellFormed := by
  obtain ⟨hc, _, hh⟩ := h
  refine List.forall_mem_append.mpr ⟨fun part hpart => ?_, fun part hpart => ?_⟩
  · obtain ⟨c, hmem, hpart⟩ := List.mem_flatMap.mp hpart
    exact value_wellFormedParts c.value (hc c hmem).2.2 c.typeLabel part hpart
  · obtain ⟨d, hmem, hpart⟩ := List.mem_flatMap.mp hpart
    exact closure_wellFormedParts d.closure (hh d hmem).2 part hpart

lemma mem_literals {l t : String} : (l, t) ∈ p.literals ↔ Part.literal l t ∈ p.parts := by
  refine List.mem_filterMap.trans ⟨?_, fun h => ⟨_, h, rfl⟩⟩
  rintro ⟨part, h, he⟩
  cases part with
  | literal l' t' =>
    obtain ⟨rfl, rfl⟩ := Prod.mk.inj (Option.some.inj he)
    exact h
  | _ => cases he

lemma mem_statements {s : Statement} : s ∈ p.statements ↔ Part.statement s ∈ p.parts :=
  mem_filterMap_iff fun part s => by cases part <;> simp [Part.statement?]

lemma mem_closures {c : Closure} : c ∈ p.closures ↔ Part.closure c ∈ p.parts :=
  mem_filterMap_iff fun part c => by cases part <;> simp [Part.closure?]

lemma WellFormed.isLiteral (h : p.WellFormed) {l t : String} (ht : (l, t) ∈ p.literals) : IsLiteral t :=
  h.parts _ (mem_literals.mp ht)

end Program

end AmmCompiler
