import AmmCompiler.Fixture.Check

/-! Fixtures: a source text with comment lines that say how to run it and what to expect. -/

namespace AmmCompiler

open Text

structure Run where
  command : String
  arguments : List String
  expectsFailure : Bool
  deriving DecidableEq, Repr

inductive FixtureLine
  | run (run : Run)
  | check (check : Check)
  | errorPattern (pattern : String)
  | source (line : String)
  deriving DecidableEq, Repr

structure EmptyRun where
  line : String
  deriving DecidableEq, Repr

def EmptyRun.message (e : EmptyRun) : String :=
  "Empty RUN directive: '" ++ e.line ++ "'"

def Run.ofText? (text : String) : Option Run :=
  let (expectsFailure, invocation) :=
    match textAfter? "not " (trimmed text) with
    | some invocation => (true, invocation)
    | none => (false, text)
  match wordsOf invocation with
  | [] => none
  | command :: arguments => some ⟨command, arguments, expectsFailure⟩

namespace FixtureLine

def checkOf? (line : String) : Option Check :=
  ((textAfter? "// CHECK-NEXT:" line).map fun rest => .next (trimmed rest)) <|>
  ((textAfter? "// CHECK-NOT:" line).map fun rest => .absent (trimmed rest)) <|>
  ((textAfter? "// CHECK-EMPTY" line).map fun _ => .blank) <|>
  ((textAfter? "// CHECK:" line).map fun rest => .present (trimmed rest)) <|>
  ((textAfter? "// COM:" line).map fun rest => .comment (trimmed rest))

def ofLine (line : String) : Except EmptyRun FixtureLine :=
  let content := trimmed line
  match textAfter? "// RUN:" content with
  | some rest =>
    match Run.ofText? rest with
    | some r => .ok (.run r)
    | none => .error ⟨content⟩
  | none =>
    match checkOf? content with
    | some c => .ok (.check c)
    | none =>
      match textAfter? "// ERROR:" content with
      | some rest => .ok (.errorPattern (trimmed rest))
      | none => .ok (.source line)

def run? : FixtureLine → Option Run
  | run r => some r
  | _ => none

def check? : FixtureLine → Option Check
  | check c => some c
  | _ => none

def errorPattern? : FixtureLine → Option String
  | errorPattern pattern => some pattern
  | _ => none

def source? : FixtureLine → Option String
  | source line => some line
  | _ => none

end FixtureLine

structure Fixture where
  runs : List Run
  checks : List Check
  errorPatterns : List String
  source : String
  deriving DecidableEq, Repr

namespace Fixture

def ofLines (lines : List FixtureLine) : Fixture where
  runs := lines.filterMap FixtureLine.run?
  checks := lines.filterMap FixtureLine.check?
  errorPatterns := lines.filterMap FixtureLine.errorPattern?
  source := "\n".intercalate (lines.filterMap FixtureLine.source?)

def parse (content : String) : Except EmptyRun Fixture :=
  ((linesOf content).mapM FixtureLine.ofLine).map ofLines

end Fixture

end AmmCompiler
