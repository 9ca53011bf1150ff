import AmmCompiler.Source.Block

/-! A source text is a list of items, and a program keeps each kind of item in the order of the text. -/

namespace AmmCompiler

namespace Source

inductive Item
  | constant (constant : Constant)
  | event (event : EventDeclaration)
  | handler (handler : Handler)

namespace Item

def constant? : Item → Option Constant
  | constant c => some c
  | _ => none

def event? : Item → Option EventDeclaration
  | event e => some e
  | _ => none

def handler? : Item → Option Handler
  | handler h => some h
  | _ => none

end Item

def constant : Reader Item := fun cs => do
  let ((target, value), rest) ← binding block cs
  return (.constant ⟨target.name, target.typeLabel, value⟩, rest)

def event : Reader Item := fun cs => do
  let (declared, rest) ← parameter cs
  return (.event ⟨declared.name, declared.typeLabel⟩, rest)

def handler : Reader Item := fun cs => do
  let (event, rest) ← name cs
  let (closure, rest) ← closure block rest
  return (.handler ⟨event, closure⟩, rest)

def item : Reader Item := fun cs => do
  let (word, rest) ← name cs
  match word with
  | "const" => constant rest
  | "event" => event rest
  | "on" => handler rest
  | _ => .error ⟨skipGap cs, .itemKeyword word⟩

def itemsWith (items : List Char → Except Failure (List Item)) (cs : List Char) :
    Except Failure (List Item) :=
  match skipGap cs with
  | [] => .ok []
  | c :: rest => do
    let (first, rest) ← item (c :: rest)
    let others ← items rest
    return first :: others

def items : List Char → Except Failure (List Item) :=
  descend itemsWith

def itemsBeforeWith (items : List Char → List Item) (cs : List Char) : List Item :=
  match skipGap cs with
  | [] => []
  | c :: rest =>
    match item (c :: rest) with
    | .ok (first, rest) => first :: items rest
    | .error _ => []

def itemsBefore : List Char → List Item :=
  descend itemsBeforeWith

end Source

open Source

namespace Program

def ofItems (items : List Item) : Program where
  constants := items.filterMap Item.constant?
  events := items.filterMap Item.event?
  handlers := items.filterMap Item.handler?

def parse (text : String) : Except SyntaxError Program :=
  ((items text.toList).map ofItems).mapError (Failure.locate text.toList)

end Program

end AmmCompiler
