import AmmCompiler.CommandLine.Name
import AmmCompiler.CommandLine.Options
import AmmCompiler.Target.OpcodeList
import AmmCompiler.Translation

/-! The command builds a target from the options, translates the input, writes the script, and reports a
failure in one line. -/

namespace AmmCompiler

inductive CommandError
  | unreadable (path : String) (error : AccessError)
  | unreadableInput (error : AccessError)
  | translation (inputName : String) (error : TranslationError)
  | unwritable (path : String) (error : AccessError)
  | unprintable (error : AccessError)
  deriving DecidableEq, Repr

def CommandError.message : CommandError → String
  | unreadable path error => "Failed to read " ++ path ++ ": " ++ error.message
  | unreadableInput error => error.message
  | translation inputName error =>
    if error.isMalformed then inputName ++ ": " ++ error.message else error.message
  | unwritable path error => "Failed to write " ++ path ++ ": " ++ error.message
  | unprintable error => error.message

def CommandError.report (e : CommandError) : String :=
  "Error: " ++ e.message ++ "\n"

namespace Options

def target (o : Options) (fileOpcodes : List String) : Target :=
  let base := Target.alan.withRuntimeModule (o.runtimeModule.getD Target.alan.runtimeModule)
  let base := if o.replaceAsyncOpcodes then base.suspendNone else base
  (base.suspendAll fileOpcodes).suspendAll o.asyncOpcodes

def inputFile? (o : Options) : Option String :=
  o.input.filter (· ≠ "-")

def inputName (o : Options) : String :=
  o.inputFile?.getD "<stdin>"

variable {m : Type → Type} [Monad m] (host : Host m)

def readFile (path : String) : ExceptT CommandError m String := do
  match ← host.readFile path with
  | .ok text => return text
  | .error e => throw (.unreadable path e)

def opcodesRecord (path : String) (opcodes : List String) : LogRecord :=
  ⟨.debug, "ammtojs", "loaded " ++ toString opcodes.length ++ " suspending opcodes from " ++ path⟩

def readOpcodes (o : Options) : ExceptT CommandError m (List String) :=
  match o.asyncOpcodesFile with
  | some path => do
    let opcodes := opcodeList (← readFile host path)
    host.log (opcodesRecord path opcodes)
    return opcodes
  | none => return []

def readSource (o : Options) : ExceptT CommandError m String :=
  match o.inputFile? with
  | some path => readFile host path
  | none => do
    match ← host.readInput with
    | .ok text => return text
    | .error e => throw (.unreadableInput e)

def named {α : Type} (o : Options) (result : Except TranslationError α) : ExceptT CommandError m α :=
  liftExcept (result.mapError (CommandError.translation o.inputName))

def translateSource (o : Options) (target : Target) (source : String) : ExceptT CommandError m String := do
  host.logAll (textRecords target source)
  o.named (translateText target source)

def translateAndReport (o : Options) (target : Target) (source : String) : ExceptT CommandError m String := do
  host.logAll (parseRecords source)
  let program ← o.named (parseText source)
  host.logAll (program.records target)
  let (script, statistics) ← o.named (program.translateWithStatistics target)
  host.writeDiagnostics statistics.report
  return script

def makeScript (o : Options) : ExceptT CommandError m String := do
  let opcodes ← o.readOpcodes host
  let source ← o.readSource host
  if o.statistics then o.translateAndReport host (o.target opcodes) source
  else o.translateSource host (o.target opcodes) source

def writeScript (o : Options) (script : String) : ExceptT CommandError m Unit :=
  match o.output with
  | some path => do
    match ← host.writeFile path script with
    | .ok _ => return
    | .error e => throw (.unwritable path e)
  | none => do
    match ← host.writeOutput script with
    | .ok _ => return
    | .error e => throw (.unprintable e)

def run (o : Options) : ExceptT CommandError m Unit := do
  o.writeScript host (← o.makeScript host)

end Options

def Notice.text : Notice → String
  | help => helpNotice
  | version => versionNotice

def exitCode {m : Type → Type} [Monad m] (host : Host m) : Except CommandError Unit → m Nat
  | .ok _ => return 0
  | .error e => do
    host.writeDiagnostics e.report
    return 1

/-- The exit code of the command: two for misuse, one for a failure. A notice may fail to be printed. -/
def runCommand {m : Type → Type} [Monad m] (host : Host m) (arguments : List String) : m Nat :=
  match Request.ofArguments arguments with
  | .misuse => return 2
  | .print notice => do
    let _ ← host.writeOutput notice.text
    return 0
  | .run o => do
    host.startLog (.ofVerbosity o.verbosity)
    exitCode host (← (o.run host).run)

end AmmCompiler
