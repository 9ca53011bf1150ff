import AmmCompiler.Statistics.Tally

/-! What a compilation produced, in numbers. -/

namespace AmmCompiler

structure Statistics where
  constants : Nat
  events : Nat
  handlers : Nat
  statements : Nat
  closures : Nat
  suspendingCalls : Nat
  plainCalls : Nat
  bigIntLiterals : Nat
  httpListener : Bool
  tcpListener : Bool
  opcodes : Tally
  deriving DecidableEq

namespace Statistics

def empty : Statistics where
  constants := 0
  events := 0
  handlers := 0
  statements := 0
  closures := 0
  suspendingCalls := 0
  plainCalls := 0
  bigIntLiterals := 0
  httpListener := false
  tcpListener := false
  opcodes := .empty

instance : Inhabited Statistics := ⟨empty⟩

def recordCall (s : Statistics) (opcode : String) (suspending : Bool) : Statistics :=
  if suspending then
    { s with suspendingCalls := s.suspendingCalls + 1, opcodes := s.opcodes.add opcode }
  else { s with plainCalls := s.plainCalls + 1, opcodes := s.opcodes.add opcode }

def recordConstant (s : Statistics) : Statistics :=
  { s with constants := s.constants + 1 }

def recordEvents (s : Statistics) (n : Nat) : Statistics :=
  { s with events := s.events + n }

def recordHandler (s : Statistics) : Statistics :=
  { s with handlers := s.handlers + 1 }

def recordStatement (s : Statistics) : Statistics :=
  { s with statements := s.statements + 1 }

def recordClosure (s : Statistics) : Statistics :=
  { s with closures := s.closures + 1 }

def recordBigInt (s : Statistics) : Statistics :=
  { s with bigIntLiterals := s.bigIntLiterals + 1 }

def recordListeners (s : Statistics) (http tcp : Bool) : Statistics :=
  { s with httpListener := http, tcpListener := tcp }

def totalCalls (s : Statistics) : Nat :=
  s.suspendingCalls + s.plainCalls

def listeners (s : Statistics) : List String :=
  (if s.httpListener then ["http"] else []) ++ (if s.tcpListener then ["tcp"] else [])

def listenerLines (s : Statistics) : List String :=
  if s.listeners.isEmpty then [] else ["  Listeners: " ++ ", ".intercalate s.listeners]

def opcodeLine (entry : String × Nat) : String :=
  "    " ++ entry.1 ++ ": " ++ toString entry.2

def opcodeLines (s : Statistics) : List String :=
  if s.opcodes.entries.isEmpty then []
  else "  Opcode breakdown:" :: s.opcodes.busiest.map opcodeLine

def reportLines (s : Statistics) : List String :=
  ["Translation Statistics:",
    "  Constants emitted: " ++ toString s.constants,
    "  Event declarations skipped: " ++ toString s.events,
    "  Handlers emitted: " ++ toString s.handlers,
    "  Statements emitted: " ++ toString s.statements,
    "  Closures emitted: " ++ toString s.closures,
    "  Calls: " ++ toString s.totalCalls ++ " (" ++ toString s.suspendingCalls ++ " awaited)",
    "  BigInt literals: " ++ toString s.bigIntLiterals] ++ s.listenerLines ++ s.opcodeLines

def report (s : Statistics) : String :=
  String.join (s.reportLines.map (· ++ "\n"))

end Statistics

end AmmCompiler
