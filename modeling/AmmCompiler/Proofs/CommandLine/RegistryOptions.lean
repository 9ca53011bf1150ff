import AmmCompiler.CommandLine.Options
import AmmCompiler.Proofs.Text.Lines

namespace AmmCompiler

inductive RegistryOption
  | replace
  | opcode (value : String)
  | file (path : String)
  deriving DecidableEq

namespace RegistryOption

def name : RegistryOption → String
  | replace => "replace-async-opcodes"
  | opcode .. => "async-opcode"
  | file .. => "async-opcodes-file"

def value? : RegistryOption → Option String
  | replace => none
  | opcode value => some value
  | file path => some path

def spellings (r : RegistryOption) : List (List String) :=
  match r.value? with
  | none => [["--" ++ r.name]]
  | some value => [["--" ++ r.name, value], ["--" ++ r.name ++ "=" ++ value]]

end RegistryOption

def Setting.name : Setting → String
  | output => "output"
  | runtimeModule => "runtime-module"
  | asyncOpcode => "async-opcode"
  | asyncOpcodesFile => "async-opcodes-file"

namespace Options

inductive Chunk (o : Options) : List String → Options → Prop
  | single {argument : String} {o' : Options} : argument ≠ "--" → o.readArgument argument = .proceed o' none →
      Chunk o [argument] o'
  | double {argument value : String} {setting : Setting} {o₁ o' : Options} : argument ≠ "--" →
      o.readArgument argument = .proceed o₁ (some setting) → startsOption value = false →
      o₁.set? value setting = some o' → Chunk o [argument, value] o'

inductive Reads : Options → List String → Options → Prop
  | done {o : Options} : Reads o [] o
  | inputs {o o' : Options} {rest : List String} : o.readInputs rest = .run o' → Reads o ("--" :: rest) o'
  | chunk {o o₁ o' : Options} {given rest : List String} : o.Chunk given o₁ → Reads o₁ rest o' →
      Reads o (given ++ rest) o'

end Options

variable {o o' : Options} {r : RegistryOption} {name value argument : String} {setting : Setting}
  {arguments given rest : List String} {pending : Option Setting}

namespace Options

end Options

namespace Options

end Options

end AmmCompiler
