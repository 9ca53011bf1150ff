import AmmCompiler.Text.Lines

namespace AmmCompiler

open Text

def opcodeOn (line : List Char) : List Char :=
  trim (line.takeWhile (· ≠ '#'))

def opcodeList (text : String) : List String :=
  (((lines text.toList).map opcodeOn).filter fun name => !name.isEmpty).map String.ofList

end AmmCompiler
