import AmmCompiler.SyntaxError

namespace AmmCompiler.Source

structure Failure where
  rest : List Char
  fault : Fault
  deriving DecidableEq, Repr

instance : Inhabited Failure := ⟨⟨[], .value⟩⟩

abbrev Skipper := List Char → Except Failure (List Char)

abbrev Reader (α : Type) := List Char → Except Failure (α × List Char)

def consumed (text rest : List Char) : List Char :=
  text.take (text.length - rest.length)

def Failure.locate (text : List Char) (f : Failure) : SyntaxError where
  position := .after (consumed text f.rest)
  fault := f.fault
  found := f.rest.head?

end AmmCompiler.Source
