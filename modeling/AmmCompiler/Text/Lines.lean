import AmmCompiler.Text.Blank

namespace AmmCompiler.Text

/-- A line ends before `\n` or `\r\n`; the characters after the last `\n`, if any, are a line too. -/
def lines : List Char → List (List Char)
  | [] => []
  | '\r' :: '\n' :: rest => [] :: lines rest
  | '\n' :: rest => [] :: lines rest
  | c :: rest =>
    match lines rest with
    | [] => [[c]]
    | line :: others => (c :: line) :: others

def fieldsBy (separates : Char → Bool) : List Char → List (List Char)
  | [] => [[]]
  | c :: rest =>
    if separates c then [] :: fieldsBy separates rest
    else match fieldsBy separates rest with
      | [] => [[c]]
      | field :: others => (c :: field) :: others

def words (cs : List Char) : List (List Char) :=
  (fieldsBy isBlank cs).filter fun field => !field.isEmpty

def after? (start cs : List Char) : Option (List Char) :=
  if start.isPrefixOf cs then some (cs.drop start.length) else none

def occursIn (pattern : List Char) : List Char → Bool
  | [] => pattern.isEmpty
  | c :: rest => pattern.isPrefixOf (c :: rest) || occursIn pattern rest

def linesOf (text : String) : List String :=
  (lines text.toList).map String.ofList

def wordsOf (text : String) : List String :=
  (words text.toList).map String.ofList

def textAfter? (start text : String) : Option String :=
  (after? start.toList text.toList).map String.ofList

def contains (text pattern : String) : Bool :=
  occursIn pattern.toList text.toList

end AmmCompiler.Text
