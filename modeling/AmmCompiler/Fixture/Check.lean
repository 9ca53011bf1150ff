import AmmCompiler.Text.Lines

namespace AmmCompiler

open Text

inductive Check
  | present (pattern : String)
  | next (pattern : String)
  | absent (pattern : String)
  | blank
  | comment (text : String)
  deriving DecidableEq, Repr

inductive Sighting
  | present (pattern : String) (line : Nat)
  | next (pattern : String) (line : Nat)
  deriving DecidableEq, Repr

def Sighting.message : Sighting → String
  | present pattern line => "CHECK: '" ++ pattern ++ "' found at line " ++ toString line
  | next pattern line => "CHECK-NEXT: '" ++ pattern ++ "' matches at line " ++ toString line

def logOf (sightings : List Sighting) : String :=
  String.join (sightings.map fun sighting => sighting.message ++ "\n")

inductive Mismatch
  | missing (pattern : String)
  | exhausted (pattern : String)
  | different (pattern line : String)
  | unwanted (pattern : String) (line : Nat)
  | notBlank (line : String)
  deriving DecidableEq, Repr

def Mismatch.message (output : String) : Mismatch → String
  | missing pattern => "CHECK: pattern '" ++ pattern ++ "' not found in output:\n" ++ output
  | exhausted pattern => "CHECK-NEXT: no more lines, expected '" ++ pattern ++ "'"
  | different pattern line => "CHECK-NEXT: expected '" ++ pattern ++ "' but got '" ++ line ++ "'"
  | unwanted pattern line => "CHECK-NOT: pattern '" ++ pattern ++ "' found at line " ++ toString line
  | notBlank line => "CHECK-EMPTY: expected empty line but got '" ++ line ++ "'"

def findFrom (lines : List String) (cursor : Nat) (pattern : String) : Option Nat :=
  ((lines.drop cursor).findIdx? fun line => contains line pattern).map (cursor + ·)

/-- Places a check at the cursor, and says where the cursor goes. -/
def Check.place (lines : List String) (cursor : Nat) :
    Check → Except Mismatch (Option Sighting × Nat)
  | present pattern =>
    match findFrom lines cursor pattern with
    | some line => .ok (some (.present pattern line), line + 1)
    | none => .error (.missing pattern)
  | next pattern =>
    match lines[cursor]? with
    | some line =>
      if contains line pattern then .ok (some (.next pattern cursor), cursor + 1)
      else .error (.different pattern line)
    | none => .error (.exhausted pattern)
  | absent pattern =>
    match findFrom lines cursor pattern with
    | some line => .error (.unwanted pattern line)
    | none => .ok (none, cursor)
  | blank =>
    match lines[cursor]? with
    | some line => if trimmed line = "" then .ok (none, cursor + 1) else .error (.notBlank line)
    | none => .ok (none, cursor)
  | comment _ => .ok (none, cursor)

structure Inspection where
  sightings : List Sighting
  mismatch : Option Mismatch
  deriving DecidableEq, Repr

def inspectFrom (lines : List String) : Nat → List Check → Inspection
  | _, [] => ⟨[], none⟩
  | cursor, check :: others =>
    match check.place lines cursor with
    | .error mismatch => ⟨[], some mismatch⟩
    | .ok (sighting, cursor) =>
      let rest := inspectFrom lines cursor others
      ⟨sighting.toList ++ rest.sightings, rest.mismatch⟩

def inspect (output : String) (checks : List Check) : Inspection :=
  inspectFrom (linesOf output) 0 checks

end AmmCompiler
