import AmmCompiler.Text.Lines

/-! The options of the command. Arguments are read from left to right, and the first misuse or request for
a notice decides. -/

namespace AmmCompiler

structure Options where
  input : Option String
  output : Option String
  runtimeModule : Option String
  asyncOpcodes : List String
  asyncOpcodesFile : Option String
  replaceAsyncOpcodes : Bool
  statistics : Bool
  verbosity : Nat
  deriving DecidableEq, Repr

inductive Notice
  | help
  | version
  deriving DecidableEq, Repr

inductive Request
  | run (options : Options)
  | print (notice : Notice)
  | misuse
  deriving DecidableEq, Repr

inductive Setting
  | output
  | runtimeModule
  | asyncOpcode
  | asyncOpcodesFile
  deriving DecidableEq, Repr

def Setting.named? : String → Option Setting
  | "output" => some .output
  | "runtime-module" => some .runtimeModule
  | "async-opcode" => some .asyncOpcode
  | "async-opcodes-file" => some .asyncOpcodesFile
  | _ => none

inductive Reading
  | proceed (options : Options) (pending : Option Setting)
  | print (notice : Notice)
  | misuse

namespace Options

def initial : Options where
  input := none
  output := none
  runtimeModule := none
  asyncOpcodes := []
  asyncOpcodesFile := none
  replaceAsyncOpcodes := false
  statistics := false
  verbosity := 0

def setPath? (given : Option String) (path : String) : Option String :=
  if given.isNone ∧ path ≠ "" then some path else none

def setInput? (o : Options) (path : String) : Option Options :=
  (setPath? o.input path).map fun path => { o with input := some path }

def set? (o : Options) (value : String) : Setting → Option Options
  | .output => (setPath? o.output value).map fun path => { o with output := some path }
  | .runtimeModule =>
    if o.runtimeModule.isNone then some { o with runtimeModule := some value } else none
  | .asyncOpcode => some { o with asyncOpcodes := o.asyncOpcodes ++ [value] }
  | .asyncOpcodesFile =>
    (setPath? o.asyncOpcodesFile value).map fun path => { o with asyncOpcodesFile := some path }

def readValue (o : Options) (setting : Setting) (value : String) : Reading :=
  match o.set? value setting with
  | some o => .proceed o none
  | none => .misuse

def readFlag (o : Options) : String → Reading
  | "replace-async-opcodes" =>
    if o.replaceAsyncOpcodes then .misuse else .proceed { o with replaceAsyncOpcodes := true } none
  | "stats" => if o.statistics then .misuse else .proceed { o with statistics := true } none
  | "verbose" => .proceed { o with verbosity := o.verbosity + 1 } none
  | "help" => .print .help
  | "version" => .print .version
  | _ => .misuse

def readLong (o : Options) (cs : List Char) : Reading :=
  let name := String.ofList (cs.takeWhile (· ≠ '='))
  match Setting.named? name, cs.dropWhile (· ≠ '=') with
  | some setting, [] => .proceed o (some setting)
  | some setting, _ :: value => o.readValue setting (.ofList value)
  | none, [] => o.readFlag name
  | none, _ :: _ => .misuse

def readShort (o : Options) : List Char → Reading
  | [] => .proceed o none
  | ['o'] => .proceed o (some .output)
  | 'o' :: '=' :: value => o.readValue .output (.ofList value)
  | 'o' :: value => o.readValue .output (.ofList value)
  | 'v' :: rest => ({ o with verbosity := o.verbosity + 1 }).readShort rest
  | 'h' :: _ => .print .help
  | 'V' :: _ => .print .version
  | _ => .misuse

def readInput (o : Options) (path : String) : Reading :=
  match o.setInput? path with
  | some o => .proceed o none
  | none => .misuse

def readArgument (o : Options) (argument : String) : Reading :=
  match argument.toList with
  | '-' :: '-' :: long => o.readLong long
  | '-' :: c :: short => o.readShort (c :: short)
  | _ => o.readInput argument

def startsOption (argument : String) : Bool :=
  match argument.toList with
  | '-' :: _ :: _ => true
  | _ => false

def readInputs (o : Options) : List String → Request
  | [] => .run o
  | argument :: rest =>
    match o.setInput? argument with
    | some o => o.readInputs rest
    | none => .misuse

def readAll (o : Options) : Option Setting → List String → Request
  | none, [] => .run o
  | some _, [] => .misuse
  | some setting, argument :: rest =>
    if startsOption argument then .misuse
    else match o.set? argument setting with
      | some o => o.readAll none rest
      | none => .misuse
  | none, argument :: rest =>
    if argument = "--" then o.readInputs rest
    else match o.readArgument argument with
      | .proceed o pending => o.readAll pending rest
      | .print notice => .print notice
      | .misuse => .misuse

end Options

def Request.ofArguments (arguments : List String) : Request :=
  Options.initial.readAll none arguments

end AmmCompiler
