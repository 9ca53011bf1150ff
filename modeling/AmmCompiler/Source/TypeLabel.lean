import AmmCompiler.Source.Lexeme

namespace AmmCompiler.Source

def typeWith (arguments : Skipper) : Skipper := fun cs => do
  let (_, rest) ← name cs
  match symbol? '<' rest with
  | some rest => arguments rest
  | none => .ok rest

def typeArgumentsWith (arguments : Skipper) : Skipper := fun cs => do
  let rest ← typeWith arguments cs
  match symbol? ',' rest with
  | some rest => arguments rest
  | none => symbol '>' rest

def typeArguments : Skipper :=
  descend typeArgumentsWith

def typeLabel : Reader String := fun cs => do
  let rest ← typeWith typeArguments cs
  return (.ofList (consumed (skipGap cs) rest), rest)

end AmmCompiler.Source
