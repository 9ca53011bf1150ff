import AmmCompiler.Source.Item
import AmmCompiler.Proofs.Scanning.Cursor

namespace AmmCompiler.Scanner

open Source

def startsComment (c : Char) : Scanner Bool := do
  if c = '/' then return (← peek 1) = some '/' else return false

def skipWhileWith (p : Char → Bool) (again : Scanner Unit) : Scanner Unit := do
  match ← current with
  | none => return ()
  | some c =>
    if p c then do
      advance
      again
    else return ()

def skipWhile (p : Char → Bool) : Scanner Unit :=
  loop (skipWhileWith p)

def skipBlanksWith (newlines : Bool) (again : Scanner Unit) : Scanner Unit := do
  match ← current with
  | none => return ()
  | some c =>
    if ← startsComment c then do
      skipWhile (· ≠ '\n')
      again
    else if Text.isBlank c then
      if c = '\n' ∧ newlines = false then return ()
      else do
        advance
        again
    else return ()

def skipBlanks (newlines : Bool) : Scanner Unit :=
  loop (skipBlanksWith newlines)

def symbol? (expected : Char) : Scanner Bool := do
  skipBlanks true
  if (← current) = some expected then do
    advance
    return true
  else return false

def symbol (expected : Char) : Scanner Unit := do
  if ← symbol? expected then return ()
  else fail ((Fault.symbol expected).message (← current))

def startsName : Scanner Bool :=
  return (← current).any isNameStart

def name : Scanner String := do
  skipBlanks true
  if ← startsName then do
    let start ← here
    skipWhile isNamePart
    slice start (← here)
  else fail (Fault.identifier.message (← current))

def functionKeyword : Scanner Unit := do
  let word ← name
  if word = "fn" then return ()
  else failBefore word ((Fault.functionKeyword word).message none)

def typeEndWith (arguments : Scanner Nat) : Scanner Nat := do
  let _ ← name
  let stop ← here
  if ← symbol? '<' then arguments else return stop

def typeArgumentsWith (arguments : Scanner Nat) : Scanner Nat := do
  let _ ← typeEndWith arguments
  if ← symbol? ',' then arguments
  else do
    symbol '>'
    here

def typeArguments : Scanner Nat :=
  loop typeArgumentsWith

def typeEnd : Scanner Nat :=
  typeEndWith typeArguments

def typeLabel : Scanner String := do
  skipBlanks true
  let start ← here
  let stop ← typeEnd
  slice start stop

def closeStringWith (start : Nat) (again : Scanner Unit) : Scanner Unit := do
  match ← current with
  | none => failAt start (Fault.openString.message none)
  | some c =>
    if c = '\\' then do
      advance
      advance
      again
    else if c = '"' then advance
    else do
      advance
      again

def closeString (start : Nat) : Scanner Unit :=
  loop (closeStringWith start)

def string : Scanner String := do
  let start ← here
  advance
  closeString start
  slice start (← here)

def skipSign : Scanner Unit := do
  if (← current) = some '-' then advance else return ()

def skipFraction : Scanner Unit := do
  if (← current) = some '.' then
    if (← peek 1).any Char.isDigit then do
      advance
      skipWhile Char.isDigit
    else return ()
  else return ()

def number : Scanner String := do
  let start ← here
  skipSign
  let digits ← here
  skipWhile Char.isDigit
  if (← here) = digits then fail (Fault.digits.message none)
  else do
    skipFraction
    slice start (← here)

def exitEndWith (again : Scanner Unit) : Scanner Unit := do
  match ← current with
  | none => return ()
  | some c =>
    if c = '\n' ∨ c = '\x7d' then return ()
    else if ← startsComment c then return ()
    else if c = '"' then do
      let _ ← string
      again
    else do
      advance
      again

def exitEnd : Scanner Unit :=
  loop exitEndWith

def namesWith (names : Scanner (List String)) : Scanner (List String) := do
  let first ← name
  if ← symbol? ',' then do
    let others ← names
    return first :: others
  else do
    symbol ')'
    return [first]

def names : Scanner (List String) :=
  loop namesWith

def arguments : Scanner (List String) := do
  symbol '('
  if ← symbol? ')' then return [] else names

def parameter : Scanner Parameter := do
  let name ← name
  symbol ':'
  let label ← typeLabel
  return ⟨name, label⟩

def parametersWith (parameters : Scanner Parameters) : Scanner Parameters := do
  if ← symbol? ')' then return ⟨[], none⟩
  else do
    let first ← parameter
    if ← symbol? ',' then do
      let others ← parameters
      return { others with ordinary := first :: others.ordinary }
    else do
      symbol ')'
      return ⟨[], some first⟩

def parameters : Scanner Parameters :=
  loop parametersWith

def emission : Scanner Statement := do
  let event ← name
  skipBlanks false
  if ← startsName then do
    let payload ← name
    return .emit event (some payload)
  else return .emit event none

def exit (start : Nat) : Scanner Statement := do
  exitEnd
  let fragment ← slice start (← here)
  return .exit (Text.trimmed fragment)

def assignedLabel : Scanner String := do
  if ← symbol? ':' then typeLabel else return ""

section

variable (block : Scanner (List Statement))

def closure : Scanner Closure := do
  functionKeyword
  symbol '('
  let parameters ← parameters
  symbol ':'
  let label ← typeLabel
  symbol '\x7b'
  let body ← block
  return ⟨parameters, label, body⟩

def wordValue : Scanner Value := do
  let start ← here
  let word ← name
  skipBlanks false
  let next ← current
  if word = "fn" ∧ next = some '(' then do
    returnTo start
    let closure ← closure block
    return .closure closure
  else if word = "true" ∨ word = "false" then return .literal word
  else if next = some '(' then do
    let arguments ← arguments
    return .call ⟨word, arguments⟩
  else return .variable word

def value : Scanner Value := do
  skipBlanks true
  match ← current with
  | none => fail (Fault.value.message (← current))
  | some c =>
    if c = '"' then do
      let token ← string
      return .literal token
    else if c.isDigit ∨ c = '-' then do
      let token ← number
      return .literal token
    else if ← startsName then wordValue block
    else fail (Fault.value.message (← current))

def assignedValue : Scanner Value := do
  symbol '='
  value block

def binding : Scanner (Parameter × Value) := do
  let target ← parameter
  let value ← assignedValue block
  return (target, value)

def declaration (kind : Binding) : Scanner Statement := do
  let (target, value) ← binding block
  return .declare kind target.name target.typeLabel value

def continuation (name : String) : Scanner Statement := do
  skipBlanks true
  match ← current with
  | some '(' =>
    let arguments ← arguments
    return .call ⟨name, arguments⟩
  | some ':' | some '=' =>
    let label ← assignedLabel
    let value ← assignedValue block
    return .assign name label value
  | _ => fail ((Fault.continuation name).message (← current))

def statement : Scanner Statement := do
  skipBlanks true
  let start ← here
  let word ← name
  if word = "const" then declaration block .const
  else if word = "let" then declaration block .let
  else if word = "emit" then emission
  else if word = "return" ∨ word = "break" then exit start
  else continuation block word

def blockWith : Scanner (List Statement) := do
  if ← symbol? '\x7d' then return []
  else if ← atEnd then fail ((Fault.symbol '\x7d').message none)
  else do
    let first ← statement block
    let others ← block
    return first :: others

end

def block : Scanner (List Statement) :=
  loop blockWith

def item : Scanner Item := do
  let word ← name
  if word = "const" then do
    let (target, value) ← binding block
    return .constant ⟨target.name, target.typeLabel, value⟩
  else if word = "event" then do
    let declared ← parameter
    return .event ⟨declared.name, declared.typeLabel⟩
  else if word = "on" then do
    let event ← name
    let closure ← closure block
    return .handler ⟨event, closure⟩
  else failBefore word ((Fault.itemKeyword word).message none)

def itemsWith (items : Scanner (List Item)) : Scanner (List Item) := do
  if ← atEnd then return []
  else do
    let first ← item
    skipBlanks true
    let others ← items
    return first :: others

def items : Scanner (List Item) :=
  loop itemsWith

def program : Scanner Program := do
  skipBlanks true
  let items ← items
  return .ofItems items

end AmmCompiler.Scanner
