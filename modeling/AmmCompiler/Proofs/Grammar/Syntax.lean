import AmmCompiler.Proofs.Grammar.Fragment
import AmmCompiler.Proofs.Grammar.TypeLabel

namespace AmmCompiler

open Source

def statementKeywords : List String :=
  ["const", "let", "emit", "return", "break"]

def valueKeywords : List String :=
  ["fn", "true", "false"]

namespace Parameter

def tokens (p : Parameter) : List Token :=
  [.word p.name .free, .symbol ':', .label p.typeLabel]

def WellFormed (p : Parameter) : Prop :=
  IsName p.name.toList ∧ IsType p.typeLabel.toList

end Parameter

namespace Parameters

/-- Ordinary parameters are those with a comma behind them, so a comma may stand before the parenthesis. -/
def tokens (ps : Parameters) : List Token :=
  ps.ordinary.flatMap (fun p => p.tokens ++ [.symbol ',']) ++
    (ps.trailing.toList.flatMap Parameter.tokens ++ [.symbol ')'])

def WellFormed (ps : Parameters) : Prop :=
  ∀ p ∈ ps.all, p.WellFormed

end Parameters

lemma isName_keyword (b : Binding) : IsName b.keyword.toList := by
  cases b
  · decide
  · decide

def argumentTokens (arguments : List String) : List Token :=
  .symbol '(' :: ((arguments.map (Token.word · .free)).intersperse (.symbol ',') ++ [.symbol ')'])

def Call.WellFormed (c : Call) : Prop :=
  IsName c.opcode.toList ∧ ∀ a ∈ c.arguments, IsName a.toList

def literalToken (token : String) : Token :=
  if token = "true" ∨ token = "false" then .word token .free else .literal token

mutual

def Value.tokens : Value → List Token
  | .closure c => c.tokens .sameLine
  | .call c => .word c.opcode .sameLine :: argumentTokens c.arguments
  | .variable name => [.word name .free]
  | .literal token => [literalToken token]

def Closure.tokens (spacing : Spacing) : Closure → List Token
  | ⟨parameters, label, body⟩ =>
    .word "fn" spacing :: .symbol '(' :: (parameters.tokens ++
      (.symbol ':' :: .label label :: .symbol '\x7b' :: (blockTokens body ++ [.symbol '\x7d'])))

def Statement.tokens : Statement → List Token
  | .declare binding name label value =>
    .word binding.keyword .free :: .word name .free :: .symbol ':' :: .label label :: .symbol '=' :: value.tokens
  | .assign name label value =>
    .word name .free :: ((if label = "" then [] else [.symbol ':', .label label]) ++ .symbol '=' :: value.tokens)
  | .call c => .word c.opcode .free :: argumentTokens c.arguments
  | .emit event none => [.word "emit" .free, .word event .lineEnd]
  | .emit event (some payload) => [.word "emit" .free, .word event .sameLine, .word payload .free]
  | .exit fragment => [.fragment fragment]

def blockTokens : List Statement → List Token
  | [] => []
  | s :: ss => s.tokens ++ blockTokens ss

end

mutual

def Value.WellFormed : Value → Prop
  | .closure c => c.WellFormed
  | .call c => c.WellFormed ∧ c.opcode ∉ valueKeywords
  | .variable name => IsName name.toList ∧ name ≠ "true" ∧ name ≠ "false"
  | .literal token => IsLiteral token

def Closure.WellFormed : Closure → Prop
  | ⟨parameters, label, body⟩ => parameters.WellFormed ∧ IsType label.toList ∧ blockWellFormed body

def Statement.WellFormed : Statement → Prop
  | .declare _ name label value => IsName name.toList ∧ IsType label.toList ∧ value.WellFormed
  | .assign name label value => (IsName name.toList ∧ name ∉ statementKeywords) ∧
      (label = "" ∨ IsType label.toList) ∧ value.WellFormed
  | .call c => c.WellFormed ∧ c.opcode ∉ statementKeywords
  | .emit event payload => IsName event.toList ∧ ∀ p ∈ payload, IsName p.toList
  | .exit fragment => IsExit fragment.toList

def blockWellFormed : List Statement → Prop
  | [] => True
  | s :: ss => s.WellFormed ∧ blockWellFormed ss

end

namespace Source.Item

def tokens : Item → List Token
  | constant c => .word "const" .free :: .word c.name .free :: .symbol ':' :: .label c.typeLabel ::
      .symbol '=' :: c.value.tokens
  | event e => [.word "event" .free, .word e.name .free, .symbol ':', .label e.typeLabel]
  | handler h => .word "on" .free :: .word h.event .free :: h.closure.tokens .free

def WellFormed : Item → Prop
  | constant c => IsName c.name.toList ∧ IsType c.typeLabel.toList ∧ c.value.WellFormed
  | event e => IsName e.name.toList ∧ IsType e.typeLabel.toList
  | handler h => IsName h.event.toList ∧ h.closure.WellFormed

end Source.Item

namespace Program

def WellFormed (p : Program) : Prop :=
  (∀ c ∈ p.constants, (Item.constant c).WellFormed) ∧ (∀ e ∈ p.events, (Item.event e).WellFormed) ∧
    ∀ h ∈ p.handlers, (Item.handler h).WellFormed

lemma ofItems_wellFormed {items : List Item} (h : ∀ i ∈ items, i.WellFormed) : (ofItems items).WellFormed := by
  refine ⟨?_, ?_, ?_⟩
  · intro c hc
    obtain ⟨i, hi, he⟩ := List.mem_filterMap.mp hc
    cases i with
    | constant d =>
      obtain rfl := Option.some.inj he
      exact h _ hi
    | event _ => cases he
    | handler _ => cases he
  · intro e he
    obtain ⟨i, hi, he⟩ := List.mem_filterMap.mp he
    cases i with
    | constant _ => cases he
    | event d =>
      obtain rfl := Option.some.inj he
      exact h _ hi
    | handler _ => cases he
  · intro c hc
    obtain ⟨i, hi, he⟩ := List.mem_filterMap.mp hc
    cases i with
    | constant _ => cases he
    | event _ => cases he
    | handler d =>
      obtain rfl := Option.some.inj he
      exact h _ hi

end Program

end AmmCompiler
