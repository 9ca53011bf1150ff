import AmmCompiler.Program
import AmmCompiler.Target
import AmmCompiler.Statistics
import AmmCompiler.Text.Blank

/-! JavaScript for calls, values and statement blocks, with a record of what was written. -/

namespace AmmCompiler

abbrev Emission := StateM Statistics

def indentStep : String := "  "

def isDecimalInteger (token : String) : Bool :=
  match token.toList with
  | '-' :: digits => !digits.isEmpty && digits.all Char.isDigit
  | digits => !digits.isEmpty && digits.all Char.isDigit

namespace Target

def isBigInt (target : Target) (typeLabel token : String) : Bool :=
  isDecimalInteger token && Text.trimmed typeLabel == target.bigIntLabel

def invocation (target : Target) (call : Call) : String :=
  target.handle ++ "." ++ call.opcode ++ "(" ++ ", ".intercalate call.arguments ++ ")"

def emitEvent (target : Target) (event payload : String) : String :=
  target.handle ++ ".emit('" ++ event ++ "', " ++ payload ++ ")"

end Target

def Call.compile (target : Target) (call : Call) : Emission String := do
  let suspending := target.suspends call.opcode
  modify fun s => s.recordCall call.opcode suspending
  return (if suspending then "await " else "") ++ target.invocation call

def compileLiteral (target : Target) (typeLabel token : String) : Emission String := do
  if target.isBigInt typeLabel token then
    modify Statistics.recordBigInt
    return token ++ target.bigIntSuffix
  else
    return token

mutual

def Value.compile (target : Target) (typeLabel indent : String) : Value → Emission String
  | .closure closure => closure.compile target indent
  | .call call => call.compile target
  | .variable name => return name
  | .literal token => compileLiteral target typeLabel token

def Closure.compile (target : Target) (indent : String) : Closure → Emission String
  | ⟨parameters, _, body⟩ => do
    modify Statistics.recordClosure
    let body ← compileBlock target (indent ++ indentStep) body
    return "async (" ++ ", ".intercalate parameters.names ++ ") => \x7b\n" ++ body ++
      (indent ++ indentStep) ++ "\x7d"

def Statement.compile (target : Target) (indent : String) : Statement → Emission String
  | .declare binding name typeLabel value => do
    let value ← value.compile target typeLabel indent
    return binding.keyword ++ " " ++ name ++ " = " ++ value
  | .assign name typeLabel value => do
    let value ← value.compile target typeLabel indent
    return name ++ " = " ++ value
  | .call call => call.compile target
  | .emit event payload => return target.emitEvent event (payload.getD "undefined")
  | .exit fragment => return Text.trimmed fragment

def compileBlock (target : Target) (indent : String) : List Statement → Emission String
  | [] => return ""
  | statement :: others => do
    let line ← statement.compile target indent
    modify Statistics.recordStatement
    let lines ← compileBlock target indent others
    return indent ++ indentStep ++ line ++ "\n" ++ lines

end

end AmmCompiler
