namespace AmmCompiler

inductive Fault
  | identifier
  | symbol (expected : Char)
  | functionKeyword (found : String)
  | itemKeyword (found : String)
  | continuation (name : String)
  | value
  | openString
  | digits
  deriving DecidableEq, Repr

namespace Fault

def describe : Option Char → String
  | some c => "'" ++ c.toString ++ "'"
  | none => "end of input"

def message (found : Option Char) : Fault → String
  | identifier => "Expected identifier but found " ++ describe found
  | symbol expected => "Expected '" ++ expected.toString ++ "' but found " ++ describe found
  | functionKeyword word => "Expected 'fn' but found '" ++ word ++ "'"
  | itemKeyword word => "Expected 'const', 'event' or 'on' but found '" ++ word ++ "'"
  | continuation name => "Expected '(' or '=' after '" ++ name ++ "' but found " ++ describe found
  | value => "Expected a value but found " ++ describe found
  | openString => "Unterminated string literal"
  | digits => "Expected digits in number literal"

end Fault

/-- Lines and columns count from one, columns in characters. -/
structure Position where
  line : Nat
  column : Nat
  deriving DecidableEq, Repr

def Position.after (text : List Char) : Position where
  line := text.count '\n' + 1
  column := (text.reverse.takeWhile (· ≠ '\n')).length + 1

structure SyntaxError where
  position : Position
  fault : Fault
  found : Option Char
  deriving DecidableEq, Repr

namespace SyntaxError

def message (e : SyntaxError) : String :=
  e.fault.message e.found

def report (e : SyntaxError) : String :=
  "line " ++ toString e.position.line ++ ", column " ++ toString e.position.column ++ ": " ++ e.message

end SyntaxError

end AmmCompiler
