import AmmCompiler.JavaScript.Script

/-! Sessions: pieces of programs compiled one after the other into one text, under one record. -/

namespace AmmCompiler

inductive Piece
  | call (call : Call)
  | value (value : Value) (typeLabel indent : String)
  | block (statements : List Statement) (indent : String)
  | program (program : Program)

def Piece.compile (target : Target) : Piece → FallibleEmission String
  | .call c => c.compile target
  | .value v typeLabel indent => v.compile target typeLabel indent
  | .block statements indent => compileBlock target indent statements
  | .program p => p.compile target

structure Session where
  output : String
  statistics : Statistics

namespace Session

def start : Session := ⟨"", .empty⟩

/-- A piece that fails adds nothing to the output, and what it recorded until then stays. -/
def extend (target : Target) (session : Session) (piece : Piece) :
    Except UnsupportedCapability String × Session :=
  let (result, statistics) := (piece.compile target).run session.statistics
  match result with
  | .ok text => (.ok text, ⟨session.output ++ text, statistics⟩)
  | .error failure => (.error failure, ⟨session.output, statistics⟩)

end Session

end AmmCompiler
