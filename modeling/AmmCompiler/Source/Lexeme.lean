import AmmCompiler.Source.Gap
import AmmCompiler.Source.Reader
import AmmCompiler.Source.Descent

namespace AmmCompiler.Source

def isNameStart (c : Char) : Bool :=
  c.isAlpha || c == '_'

def isNamePart (c : Char) : Bool :=
  c.isAlphanum || c == '_'

def name : Reader String := fun cs =>
  match skipGap cs with
  | [] => .error ⟨[], .identifier⟩
  | c :: rest =>
    if isNameStart c then .ok (.ofList (c :: rest.takeWhile isNamePart), rest.dropWhile isNamePart)
    else .error ⟨c :: rest, .identifier⟩

def symbol? (expected : Char) (cs : List Char) : Option (List Char) :=
  match skipGap cs with
  | [] => none
  | c :: rest => if c = expected then some rest else none

def symbol (expected : Char) : Skipper := fun cs =>
  match symbol? expected cs with
  | some rest => .ok rest
  | none => .error ⟨skipGap cs, .symbol expected⟩

def functionKeyword : Skipper := fun cs => do
  let (word, rest) ← name cs
  if word = "fn" then .ok rest else .error ⟨skipGap cs, .functionKeyword word⟩

def closeString : List Char → Option (List Char)
  | [] => none
  | '"' :: rest => some rest
  | '\\' :: _ :: rest => closeString rest
  | _ :: rest => closeString rest

def string : Reader String := fun cs =>
  match closeString cs.tail with
  | some rest => .ok (.ofList (consumed cs rest), rest)
  | none => .error ⟨cs, .openString⟩

def unsigned : List Char → List Char
  | '-' :: rest => rest
  | cs => cs

def skipFraction : List Char → List Char
  | '.' :: c :: rest => if c.isDigit then rest.dropWhile Char.isDigit else '.' :: c :: rest
  | cs => cs

def startsWithDigit : List Char → Bool
  | c :: _ => c.isDigit
  | [] => false

def number : Reader String := fun cs =>
  if startsWithDigit (unsigned cs) then
    let rest := skipFraction ((unsigned cs).dropWhile Char.isDigit)
    .ok (.ofList (consumed cs rest), rest)
  else .error ⟨unsigned cs, .digits⟩

def exitEndWith (exitEnd : Skipper) : Skipper := fun cs =>
  match cs with
  | [] => .ok []
  | '\n' :: _ => .ok cs
  | '}' :: _ => .ok cs
  | '/' :: '/' :: _ => .ok cs
  | '"' :: rest =>
    match closeString rest with
    | some rest => exitEnd rest
    | none => .error ⟨cs, .openString⟩
  | _ :: rest => exitEnd rest

/-- Where an exit fragment ends: at the end of the line, a closing brace or a comment, none of them in
a string. -/
def exitEnd : Skipper :=
  descend exitEndWith

end AmmCompiler.Source
