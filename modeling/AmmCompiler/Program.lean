/-! Programs: constants, event declarations and handlers, each in source order. -/

namespace AmmCompiler

structure Call where
  opcode : String
  arguments : List String
  deriving DecidableEq, Repr

structure Parameter where
  name : String
  typeLabel : String
  deriving DecidableEq, Repr

/-- Parameters followed by a comma, and the final one. -/
structure Parameters where
  ordinary : List Parameter
  trailing : Option Parameter
  deriving DecidableEq, Repr

inductive Binding
  | const
  | let
  deriving DecidableEq, Repr

mutual

structure Closure where
  parameters : Parameters
  resultLabel : String
  body : List Statement

inductive Value
  | closure (closure : Closure)
  | call (call : Call)
  | variable (name : String)
  | literal (token : String)

inductive Statement
  | declare (binding : Binding) (name typeLabel : String) (value : Value)
  | assign (name typeLabel : String) (value : Value)
  | call (call : Call)
  | emit (event : String) (payload : Option String)
  | exit (fragment : String)

end

instance : Inhabited Closure := ⟨⟨⟨[], none⟩, "", []⟩⟩
instance : Inhabited Value := ⟨.variable ""⟩
instance : Inhabited Statement := ⟨.exit ""⟩

structure Constant where
  name : String
  typeLabel : String
  value : Value

structure EventDeclaration where
  name : String
  typeLabel : String
  deriving DecidableEq, Repr

structure Handler where
  event : String
  closure : Closure

structure Program where
  constants : List Constant
  events : List EventDeclaration
  handlers : List Handler

def Program.append (p q : Program) : Program where
  constants := p.constants ++ q.constants
  events := p.events ++ q.events
  handlers := p.handlers ++ q.handlers

namespace Parameters

def all (p : Parameters) : List Parameter :=
  p.ordinary ++ p.trailing.toList

def names (p : Parameters) : List String :=
  p.all.map Parameter.name

/-- A handler receives one value, under the name of its first parameter. -/
def payload? (p : Parameters) : Option String :=
  p.names.head?

end Parameters

namespace Binding

def keyword : Binding → String
  | const => "const"
  | .let => "let"

end Binding

end AmmCompiler
