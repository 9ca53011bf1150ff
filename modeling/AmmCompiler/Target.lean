import AmmCompiler.Target.OpcodeSet

/-! The runtime that compiled programs call: its module and handle, the events and labels it reserves, and
the opcodes that have to be awaited. -/

namespace AmmCompiler

structure Target where
  runtimeModule : String
  handle : String
  startEvent : String
  controlPortEvent : String
  connectionEvent : String
  tcpConnectionEvent : String
  httpListener : String
  tcpListener : String
  bigIntLabel : String
  bigIntSuffix : String
  suspending : OpcodeSet
  deriving DecidableEq

namespace Target

def asyncOpcodes : List String :=
  ["each", "eachl", "map", "mapl", "reducel", "filter", "filterl", "find", "findl", "every", "everyl",
    "some", "somel", "condfn", "seqeach", "seqwhile", "seqdo", "selfrec", "seqrec", "waitop", "execop",
    "dssetf", "dssetv", "dshas", "dsdel", "dsgetf", "dsgetv", "dsrrun", "dsmrun", "dsrwith", "dsmwith",
    "dsmonly", "dswonly", "dsrclos", "dsmclos", "httpreq", "httpget", "httppost", "httplsn", "httpsend",
    "tcpconn", "tcpAddC", "tcpReady", "tcpRead", "tcpWrite", "tcpTerm", "tcplsn", "tcptun"]

def alan : Target where
  runtimeModule := "alan-js-runtime"
  handle := "r"
  startEvent := "_start"
  controlPortEvent := "__ctrl"
  connectionEvent := "__conn"
  tcpConnectionEvent := "tcpConn"
  httpListener := "httplsn"
  tcpListener := "tcplsn"
  bigIntLabel := "int64"
  bigIntSuffix := "n"
  suspending := .ofList asyncOpcodes

instance : Inhabited Target := ⟨alan⟩

def suspends (target : Target) (opcode : String) : Bool :=
  decide (opcode ∈ target.suspending)

def withRuntimeModule (target : Target) (runtimeModule : String) : Target :=
  { target with runtimeModule }

def suspend (target : Target) (opcode : String) : Target :=
  { target with suspending := target.suspending.insert opcode }

def suspendAll (target : Target) (opcodes : List String) : Target :=
  { target with suspending := target.suspending.insertAll opcodes }

def suspendNone (target : Target) : Target :=
  { target with suspending := .empty }

end Target

end AmmCompiler
