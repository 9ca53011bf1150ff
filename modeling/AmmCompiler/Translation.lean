import AmmCompiler.Source.Item
import AmmCompiler.JavaScript.Script
import AmmCompiler.Host

/-! Translation of source texts and files, with every way in which it fails. -/

namespace AmmCompiler

inductive TranslationError
  | malformed (report : String)
  | unsupported (capability : UnsupportedCapability)
  | unreadable (path reason : String)
  | unwritable
  deriving DecidableEq, Repr

namespace TranslationError

def message : TranslationError → String
  | malformed report => report
  | unsupported capability =>
    "AVM Control Port unavailable in JS (handler for '" ++ capability.event ++ "')"
  | unreadable path reason => "Failed to read " ++ path ++ ": " ++ reason
  | unwritable => "Failed to write output: an error occurred when formatting an argument"

def isMalformed : TranslationError → Bool
  | malformed _ => true
  | _ => false

end TranslationError

def parseText (text : String) : Except TranslationError Program :=
  (Program.parse text).mapError fun e => .malformed e.report

namespace Program

def translateWithStatistics (target : Target) (program : Program) :
    Except TranslationError (String × Statistics) :=
  match (program.compile target).run .empty with
  | (.ok text, statistics) => .ok (text, statistics)
  | (.error capability, _) => .error (.unsupported capability)

def translate (target : Target) (program : Program) : Except TranslationError String :=
  (program.translateWithStatistics target).map Prod.fst

end Program

def translateText (target : Target) (text : String) : Except TranslationError String := do
  let program ← parseText text
  program.translate target

def Source.Item.record? : Source.Item → Option LogRecord
  | .constant c => some ⟨.trace, "ammtojs::amm::parser", "parsed global constant " ++ c.name⟩
  | .event _ => none
  | .handler h => some ⟨.trace, "ammtojs::amm::parser", "parsed handler for " ++ h.event⟩

def parseRecords (text : String) : List LogRecord :=
  (Source.itemsBefore text.toList).filterMap Source.Item.record?

def Constant.record (c : Constant) : LogRecord :=
  ⟨.trace, "ammtojs::js::program", "emitting global constant " ++ c.name⟩

def Handler.record (h : Handler) : LogRecord :=
  ⟨.debug, "ammtojs::js::program",
    "emitting handler for '" ++ h.event ++ "' (" ++ toString h.closure.body.length ++ " statements)"⟩

def Statistics.records (s : Statistics) : List LogRecord :=
  [⟨.debug, "ammtojs::js::program", "translated " ++ toString s.constants ++ " constants and " ++
      toString s.handlers ++ " handlers (" ++ toString s.totalCalls ++ " calls, " ++ toString s.suspendingCalls ++
      " awaited)"⟩,
    ⟨.debug, "ammtojs::translate", s.report⟩]

/-- What is logged while a program is translated, also of one that is refused. -/
def Program.records (target : Target) (p : Program) : List LogRecord :=
  p.constants.map Constant.record ++
    ((p.handlers.takeWhile fun h => h.event ≠ target.controlPortEvent).map Handler.record ++
      match p.translateWithStatistics target with
      | .ok (_, statistics) => statistics.records
      | .error _ => [])

def textRecords (target : Target) (text : String) : List LogRecord :=
  parseRecords text ++
    match parseText text with
    | .ok program => program.records target
    | .error _ => []

def translateFile {m : Type → Type} [Monad m] (host : Host m) (target : Target) (path : String) :
    m (Except TranslationError String) := do
  host.log ⟨.debug, "ammtojs::translate", "reading " ++ path⟩
  match ← host.readFile path with
  | .ok text =>
    host.logAll (textRecords target text)
    return translateText target text
  | .error e => return .error (.unreadable path e.message)

end AmmCompiler
