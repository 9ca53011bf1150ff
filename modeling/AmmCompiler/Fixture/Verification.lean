import AmmCompiler.CommandLine.Name
import AmmCompiler.Fixture
import AmmCompiler.Translation

/-! Fixtures put to the test: each run translates the source, and the outcome has to be as expected. -/

namespace AmmCompiler

open Text

inductive RunFailure
  | noRuns
  | unknownCommand (command : String)
  | missingValue (option : String)
  | unknownArgument (argument : String)
  | mismatch (mismatch : Mismatch) (output : String)
  | unmatchedError (pattern message : String)
  | unexpectedSuccess (output : String)
  | failed (error : TranslationError)
  deriving DecidableEq, Repr

def RunFailure.message : RunFailure → String
  | noRuns => "No RUN directive"
  | unknownCommand command => "Unknown RUN command: " ++ command
  | missingValue option => option ++ " needs a value"
  | unknownArgument argument => "Unknown RUN argument: " ++ argument
  | mismatch m output => m.message output
  | unmatchedError pattern message =>
    "ERROR: pattern '" ++ pattern ++ "' not found in '" ++ message ++ "'"
  | unexpectedSuccess output => "Expected failure but got output:\n" ++ output
  | failed error => "Translation failed: " ++ error.message

def Target.withRunArguments (target : Target) : List String → Except RunFailure Target
  | [] => .ok target
  | "--async-opcode" :: opcode :: rest => (target.suspend opcode).withRunArguments rest
  | "--runtime-module" :: runtimeModule :: rest =>
    (target.withRuntimeModule runtimeModule).withRunArguments rest
  | "--replace-async-opcodes" :: rest => target.suspendNone.withRunArguments rest
  | argument :: _ =>
    if argument = "--async-opcode" ∨ argument = "--runtime-module" then .error (.missingValue argument)
    else .error (.unknownArgument argument)

def Run.target (run : Run) : Except RunFailure Target :=
  if run.command = commandName then Target.alan.withRunArguments run.arguments
  else .error (.unknownCommand run.command)

structure Verification where
  sightings : List Sighting
  failure : Option RunFailure
  deriving DecidableEq, Repr

namespace Fixture

def verifyOutput (fixture : Fixture) (output : String) : Verification :=
  let inspection := inspect output fixture.checks
  ⟨inspection.sightings, inspection.mismatch.map fun m => .mismatch m output⟩

def verifyError (fixture : Fixture) (message : String) : Verification :=
  ⟨[], (fixture.errorPatterns.find? fun pattern => !contains message pattern).map fun pattern =>
    .unmatchedError pattern message⟩

def verifyRun (fixture : Fixture) (run : Run) : Verification :=
  match run.target with
  | .error failure => ⟨[], some failure⟩
  | .ok target =>
    match translateText target fixture.source, run.expectsFailure with
    | .ok output, false => fixture.verifyOutput output
    | .error error, true => fixture.verifyError error.message
    | .ok output, true => ⟨[], some (.unexpectedSuccess output)⟩
    | .error error, false => ⟨[], some (.failed error)⟩

def verifyRuns (fixture : Fixture) : List Run → Verification
  | [] => ⟨[], none⟩
  | run :: others =>
    let first := fixture.verifyRun run
    match first.failure with
    | some failure => ⟨first.sightings, some failure⟩
    | none =>
      let rest := fixture.verifyRuns others
      ⟨first.sightings ++ rest.sightings, rest.failure⟩

def verify (fixture : Fixture) : Verification :=
  if fixture.runs.isEmpty then ⟨[], some .noRuns⟩ else fixture.verifyRuns fixture.runs

end Fixture

end AmmCompiler
