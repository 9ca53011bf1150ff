import AmmCompiler.SyntaxError

/-! A text under a cursor, which is a number of bytes. A slice of a text has to begin and end between two
characters: a scan that slices elsewhere panics. A scan whose loops need more rounds than they are given has no
outcome. -/

namespace AmmCompiler

def IsBoundary (text : String) (place : Nat) : Prop :=
  (⟨place⟩ : String.Pos.Raw).IsValid text

instance (text : String) (place : Nat) : Decidable (IsBoundary text place) :=
  inferInstanceAs (Decidable (String.Pos.Raw.IsValid text _))

def slice? (text : String) (start stop : Nat) : Option String :=
  if h : IsBoundary text start ∧ IsBoundary text stop ∧ start ≤ stop then
    some (text.extract (text.pos ⟨start⟩ h.1) (text.pos ⟨stop⟩ h.2.1))
  else none

inductive Access
  | moved (place : Nat)
  | returned (place : Nat)
  | sliced (whole : String) (start stop : Nat)
  | counted (number : Nat)
  | blamed (token : String) (place : Nat)
  deriving DecidableEq, Repr

/-- Safe in a scan that set out from `start`: it stays between the characters from there on, and a token
that is blamed has just been read. -/
def Access.Sound (text : String) (start : Nat) : Access → Prop
  | moved place | returned place => start ≤ place ∧ IsBoundary text place
  | sliced whole start stop => IsBoundary whole start ∧ IsBoundary whole stop ∧ start ≤ stop
  | counted number => number ≤ text.utf8ByteSize + 1
  | blamed token place =>
    ∃ front rest, text = front ++ token ++ rest ∧ (front ++ token).utf8ByteSize = place

structure Cursor where
  place : Nat
  accesses : List Access
  deriving DecidableEq, Repr

inductive Stop
  | failure (position : Position) (message : String)
  | panic
  deriving DecidableEq, Repr

def SyntaxError.stop (e : SyntaxError) : Stop :=
  .failure e.position e.message

structure Trial where
  text : String
  rounds : Nat
  deriving DecidableEq, Repr

abbrev Scanner (α : Type) :=
  ReaderT Trial (ExceptT Stop (StateT Cursor Option)) α

namespace Scanner

variable {α : Type}

def within (step : Scanner α → Scanner α) : Nat → Scanner α
  | 0 => fun _ _ => none
  | rounds + 1 => step (within step rounds)

def loop (step : Scanner α → Scanner α) : Scanner α := do
  within step (← read).rounds

def note (access : Access) : Scanner Unit :=
  modify fun c => { c with accesses := access :: c.accesses }

def here : Scanner Nat :=
  return (← get).place

def setPlace (place : Nat) : Scanner Unit :=
  modify fun c => { c with place }

def moveTo (place : Nat) : Scanner Unit := do
  note (.moved place)
  setPlace place

def returnTo (place : Nat) : Scanner Unit := do
  note (.returned place)
  setPlace place

def sliceOf (whole : String) (start stop : Nat) : Scanner String := do
  note (.sliced whole start stop)
  match slice? whole start stop with
  | some part => return part
  | none => throw .panic

def slice (start stop : Nat) : Scanner String := do
  sliceOf (← read).text start stop

def ahead : Scanner (List Char) := do
  let start ← here
  let rest ← slice start (← read).text.utf8ByteSize
  return rest.toList

def current : Scanner (Option Char) :=
  return (← ahead).head?

def peek (n : Nat) : Scanner (Option Char) :=
  return (← ahead)[n]?

def atEnd : Scanner Bool := do
  let place ← here
  return (← read).text.utf8ByteSize ≤ place

def advance : Scanner Unit := do
  match ← current with
  | some c =>
    let place ← here
    moveTo (place + c.utf8Size)
  | none => return ()

def lineStart (text : String) : Nat :=
  (String.ofList (text.toList.reverse.dropWhile (· ≠ '\n')).reverse).utf8ByteSize

def failAt (place : Nat) (message : String) : Scanner α := do
  let before ← slice 0 place
  note (.counted (lineStart before))
  let line ← sliceOf before (lineStart before) before.utf8ByteSize
  note (.counted (before.toList.count '\n' + 1))
  note (.counted (line.length + 1))
  throw (.failure ⟨before.toList.count '\n' + 1, line.length + 1⟩ message)

def fail (message : String) : Scanner α := do
  failAt (← here) message

def failBefore (token message : String) : Scanner α := do
  let place ← here
  note (.blamed token place)
  failAt (place - token.utf8ByteSize) message

end Scanner

end AmmCompiler
