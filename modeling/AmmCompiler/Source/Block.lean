import AmmCompiler.Program
import AmmCompiler.Source.TypeLabel

namespace AmmCompiler.Source

def namesWith (names : Reader (List String)) : Reader (List String) := fun cs => do
  let (first, rest) ← name cs
  match symbol? ',' rest with
  | some rest =>
    let (others, rest) ← names rest
    return (first :: others, rest)
  | none =>
    let rest ← symbol ')' rest
    return ([first], rest)

def names : Reader (List String) :=
  descend namesWith

def arguments : Reader (List String) := fun cs => do
  let rest ← symbol '(' cs
  match symbol? ')' rest with
  | some rest => .ok ([], rest)
  | none => names rest

def parameter : Reader Parameter := fun cs => do
  let (name, rest) ← name cs
  let rest ← symbol ':' rest
  let (label, rest) ← typeLabel rest
  return (⟨name, label⟩, rest)

/-- The parenthesis may close after a comma, and then no parameter is the trailing one. -/
def parametersWith (parameters : Reader Parameters) : Reader Parameters := fun cs =>
  match symbol? ')' cs with
  | some rest => .ok (⟨[], none⟩, rest)
  | none => do
    let (first, rest) ← parameter cs
    match symbol? ',' rest with
    | some rest =>
      let (others, rest) ← parameters rest
      return ({ others with ordinary := first :: others.ordinary }, rest)
    | none =>
      let rest ← symbol ')' rest
      return (⟨[], some first⟩, rest)

def parameters : Reader Parameters :=
  descend parametersWith

abbrev BlockReader := Reader (List Statement)

def closure (block : BlockReader) : Reader Closure := fun cs => do
  let rest ← functionKeyword cs
  let rest ← symbol '(' rest
  let (parameters, rest) ← parameters rest
  let rest ← symbol ':' rest
  let (label, rest) ← typeLabel rest
  let rest ← symbol '{' rest
  let (body, rest) ← block rest
  return (⟨parameters, label, body⟩, rest)

def startsWith (c : Char) (cs : List Char) : Bool :=
  cs.head? = some c

def wordValue (block : BlockReader) : Reader Value := fun cs => do
  let (word, rest) ← name cs
  let applied := startsWith '(' (skipInlineGap rest)
  if word = "fn" ∧ applied then
    let (closure, rest) ← closure block cs
    return (.closure closure, rest)
  else if word = "true" ∨ word = "false" then
    return (.literal word, rest)
  else if applied then
    let (arguments, rest) ← arguments rest
    return (.call ⟨word, arguments⟩, rest)
  else
    return (.variable word, rest)

def value (block : BlockReader) : Reader Value := fun cs =>
  match skipGap cs with
  | [] => .error ⟨[], .value⟩
  | c :: rest =>
    if c = '"' then do
      let (token, rest) ← string (c :: rest)
      return (.literal token, rest)
    else if c.isDigit ∨ c = '-' then do
      let (token, rest) ← number (c :: rest)
      return (.literal token, rest)
    else if isNameStart c then wordValue block (c :: rest)
    else .error ⟨c :: rest, .value⟩

def assignedValue (block : BlockReader) : Reader Value := fun cs => do
  let rest ← symbol '=' cs
  value block rest

def binding (block : BlockReader) : Reader (Parameter × Value) := fun cs => do
  let (target, rest) ← parameter cs
  let (value, rest) ← assignedValue block rest
  return ((target, value), rest)

def declaration (block : BlockReader) (kind : Binding) : Reader Statement := fun cs => do
  let ((target, value), rest) ← binding block cs
  return (.declare kind target.name target.typeLabel value, rest)

def emission : Reader Statement := fun cs => do
  let (event, rest) ← name cs
  match skipInlineGap rest with
  | [] => return (.emit event none, rest)
  | c :: _ =>
    if isNameStart c then
      let (payload, rest) ← name rest
      return (.emit event (some payload), rest)
    else return (.emit event none, rest)

def exit (cs rest : List Char) : Except Failure (Statement × List Char) := do
  let rest ← exitEnd rest
  return (.exit (.ofList (Text.trim (consumed cs rest))), rest)

def continuation (block : BlockReader) (name : String) : Reader Statement := fun cs =>
  match skipGap cs with
  | '(' :: _ => do
    let (arguments, rest) ← arguments cs
    return (.call ⟨name, arguments⟩, rest)
  | ':' :: rest => do
    let (label, rest) ← typeLabel rest
    let (value, rest) ← assignedValue block rest
    return (.assign name label value, rest)
  | '=' :: _ => do
    let (value, rest) ← assignedValue block cs
    return (.assign name "" value, rest)
  | rest => .error ⟨rest, .continuation name⟩

def statement (block : BlockReader) : Reader Statement := fun cs => do
  let (word, rest) ← name cs
  match word with
  | "const" => declaration block .const rest
  | "let" => declaration block .let rest
  | "emit" => emission rest
  | "return" | "break" => exit (skipGap cs) rest
  | _ => continuation block word rest

def blockWith (block : BlockReader) : Reader (List Statement) := fun cs =>
  match skipGap cs with
  | [] => .error ⟨[], .symbol '}'⟩
  | c :: rest =>
    if c = '}' then .ok ([], rest)
    else do
      let (first, rest) ← statement block (c :: rest)
      let (others, rest) ← block rest
      return (first :: others, rest)

def block : BlockReader :=
  descend blockWith

end AmmCompiler.Source
