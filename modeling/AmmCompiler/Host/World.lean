import AmmCompiler.Host
import AmmCompiler.Text.Lines

/-! A host in memory: files at absolute paths, the directories these imply, and the three streams. -/

namespace AmmCompiler

open Text

abbrev Path := List String

inductive Node
  | file (contents : ByteArray)
  | directory

structure Disk where
  workingDirectory : Path
  files : List (Path × ByteArray)

namespace Disk

def isDirectory (disk : Disk) (path : Path) : Bool :=
  path.isPrefixOf disk.workingDirectory || disk.files.any fun entry => path.isPrefixOf entry.1.dropLast

def node? (disk : Disk) (path : Path) : Option Node :=
  match disk.files.lookup path with
  | some contents => some (.file contents)
  | none => if disk.isDirectory path then some .directory else none

def longestName : Nat := 255

def longestPath : Nat := 4095

/-- A name is looked up, and found too long, only in a directory that exists. -/
def descendInto (disk : Disk) (here : Path) : List String → Except AccessError Path
  | [] => .ok here
  | name :: rest =>
    match disk.node? here with
    | some .directory =>
      if name = "." then disk.descendInto here rest
      else if name = ".." then disk.descendInto here.dropLast rest
      else if longestName < name.utf8ByteSize then .error .nameTooLong
      else disk.descendInto (here ++ [name]) rest
    | some (.file _) => .error .notDirectory
    | none => .error .missing

def namesIn (path : String) : List String :=
  ((fieldsBy (· == '/') path.toList).filter fun name => !name.isEmpty).map String.ofList

def origin (disk : Disk) (path : String) : Path :=
  if path.toList.head? = some '/' then [] else disk.workingDirectory

def resolveNames (disk : Disk) (path : String) (names : List String) : Except AccessError Path :=
  if longestPath < path.utf8ByteSize then .error .nameTooLong
  else disk.descendInto (disk.origin path) names

def resolve (disk : Disk) (path : String) : Except AccessError Path :=
  disk.resolveNames path (namesIn path)

def resolveParent (disk : Disk) (path : String) : Except AccessError Path :=
  disk.resolveNames path ((namesIn path).dropLast ++ ["."])

def namesDirectory (path : String) : Bool :=
  path.toList.getLast? == some '/'

def contentsAt (disk : Disk) (path : String) : Except AccessError ByteArray := do
  match disk.node? (← disk.resolve path) with
  | some (.file contents) => if namesDirectory path then throw .notDirectory else return contents
  | some .directory => throw .isDirectory
  | none => throw .missing

def readText (disk : Disk) (path : String) : Except AccessError String := do
  decodeText (← disk.contentsAt path)

def put (disk : Disk) (path : Path) (contents : ByteArray) : Disk :=
  { disk with files := (path, contents) :: disk.files.filter fun entry => entry.1 ≠ path }

def fileAt (disk : Disk) (path : String) : Except AccessError Path := do
  if namesDirectory path then
    let _ ← disk.resolveParent path
    throw .isDirectory
  let place ← disk.resolve path
  if disk.isDirectory place then throw .isDirectory
  return place

end Disk

structure World extends Disk where
  input : ByteArray
  output : String
  diagnostics : String
  outputError : Option AccessError := none
  logLevel : Option LogLevel := none

namespace World

def put (world : World) (path : Path) (contents : ByteArray) : World :=
  { world with toDisk := world.toDisk.put path contents }

def note (world : World) (record : LogRecord) : World :=
  if world.logLevel.any fun limit => limit.admits record.level then
    { world with diagnostics := world.diagnostics ++ record.line }
  else world

def writeText (world : World) (path text : String) : Except AccessError Unit × World :=
  match world.fileAt path with
  | .ok place => (.ok (), world.put place text.toUTF8)
  | .error e => (.error e, world)

def print (world : World) (text : String) : Except AccessError Unit × World :=
  match world.outputError with
  | some e => (.error e, world)
  | none => (.ok (), { world with output := world.output ++ text })

def host : Host (StateM World) where
  readFile path := return (← get).readText path
  readInput := return decodeText (← get).input
  writeFile path text := modifyGet fun world => world.writeText path text
  writeOutput text := modifyGet fun world => world.print text
  writeDiagnostics text := modify fun world => { world with diagnostics := world.diagnostics ++ text }
  startLog level := modify fun world => { world with logLevel := some level }
  log record := modify fun world => world.note record

end World

end AmmCompiler
