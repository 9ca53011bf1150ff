import AmmCompiler.JavaScript.Block

/-! JavaScript for whole programs: the runtime, the constants, the handlers, the listeners they need and
the start event. -/

namespace AmmCompiler

/-- A handler on `event` needs the control port, which JavaScript lacks. -/
structure UnsupportedCapability where
  event : String
  deriving DecidableEq, Repr

namespace Target

def header (target : Target) : String :=
  "const " ++ target.handle ++ " = require('" ++ target.runtimeModule ++ "')\n"

def startListener (target : Target) (listener : String) : String :=
  target.handle ++ ".on('" ++ target.startEvent ++ "', () => " ++ target.handle ++ "." ++ listener ++
    "())\n"

def listenerLines (target : Target) (http tcp : Bool) : String :=
  (if http then target.startListener target.httpListener else "") ++
    (if tcp then target.startListener target.tcpListener else "")

def startLine (target : Target) : String :=
  target.emitEvent target.startEvent "undefined" ++ "\n"

end Target

namespace Program

def handles (program : Program) (event : String) : Bool :=
  program.handlers.any fun handler => handler.event == event

end Program

def Constant.compile (target : Target) (constant : Constant) : Emission String := do
  let value ← constant.value.compile target constant.typeLabel ""
  modify Statistics.recordConstant
  return "const " ++ constant.name ++ " = " ++ value ++ "\n"

def Handler.compileRegistration (target : Target) (handler : Handler) : Emission String := do
  let payload := handler.closure.parameters.payload?.getD ""
  let body ← compileBlock target "" handler.closure.body
  modify Statistics.recordHandler
  return target.handle ++ ".on('" ++ handler.event ++ "', async (" ++ payload ++ ") => \x7b\n" ++ body ++
    "\x7d)\n"

abbrev FallibleEmission := ExceptT UnsupportedCapability Emission

def Handler.compile (target : Target) (handler : Handler) : FallibleEmission String := do
  if handler.event = target.controlPortEvent then throw ⟨handler.event⟩
  handler.compileRegistration target

def compileConstants (target : Target) : List Constant → Emission String
  | [] => return ""
  | constant :: others => do
    let text ← constant.compile target
    let texts ← compileConstants target others
    return text ++ texts

def compileHandlers (target : Target) : List Handler → FallibleEmission String
  | [] => return ""
  | handler :: others => do
    let text ← handler.compile target
    let texts ← compileHandlers target others
    return text ++ texts

def Program.compile (target : Target) (program : Program) : FallibleEmission String := do
  let constants ← compileConstants target program.constants
  modify fun s => s.recordEvents program.events.length
  let handlers ← compileHandlers target program.handlers
  let http := program.handles target.connectionEvent
  let tcp := program.handles target.tcpConnectionEvent
  modify fun s => s.recordListeners http tcp
  return target.header ++ constants ++ handlers ++ target.listenerLines http tcp ++ target.startLine

end AmmCompiler
