import AmmCompiler.Text.Blank

namespace AmmCompiler.Source

open Text

mutual

def skipGap : List Char → List Char
  | [] => []
  | '/' :: '/' :: rest => skipComment rest
  | c :: rest => if isBlank c then skipGap rest else c :: rest

def skipComment : List Char → List Char
  | [] => []
  | '\n' :: rest => skipGap rest
  | _ :: rest => skipComment rest

end

def skipInlineGap : List Char → List Char
  | [] => []
  | '\n' :: rest => '\n' :: rest
  | '/' :: '/' :: rest => rest.dropWhile (· ≠ '\n')
  | c :: rest => if isBlank c then skipInlineGap rest else c :: rest

end AmmCompiler.Source
