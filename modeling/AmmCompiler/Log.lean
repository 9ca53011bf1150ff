namespace AmmCompiler

inductive LogLevel
  | warn
  | debug
  | trace
  deriving DecidableEq, Repr

namespace LogLevel

def rank : LogLevel → Nat
  | warn => 0
  | debug => 1
  | trace => 2

def label : LogLevel → String
  | warn => "WARN"
  | debug => "DEBUG"
  | trace => "TRACE"

def admits (limit level : LogLevel) : Bool :=
  level.rank ≤ limit.rank

def ofVerbosity : Nat → LogLevel
  | 0 => warn
  | 1 => debug
  | _ => trace

end LogLevel

structure LogRecord where
  level : LogLevel
  origin : String
  message : String
  deriving DecidableEq, Repr

def LogRecord.line (r : LogRecord) : String :=
  "[" ++ r.level.label ++ " " ++ r.origin ++ "] " ++ r.message ++ "\n"

end AmmCompiler
