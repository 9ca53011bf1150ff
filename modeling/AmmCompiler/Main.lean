import AmmCompiler.CommandLine.Command

namespace AmmCompiler

def accessError : IO.Error → AccessError
  | .alreadyExists _ code details
  | .otherError code details
  | .resourceBusy code details
  | .resourceVanished code details
  | .unsupportedOperation code details
  | .hardwareFault code details
  | .unsatisfiedConstraints code details
  | .illegalOperation code details
  | .protocolError code details
  | .timeExpired code details
  | .interrupted _ code details
  | .noFileOrDirectory _ code details
  | .invalidArgument _ code details
  | .permissionDenied _ code details
  | .resourceExhausted _ code details
  | .inappropriateType _ code details
  | .noSuchThing _ code details => .system details code.toNat
  | .unexpectedEof => .system "unexpected end of file" 0
  | .userError details => .system details 0

def attempt {α : Type} (action : IO (Except AccessError α)) : IO (Except AccessError α) :=
  tryCatch action fun e => return .error (accessError e)

def systemHost (limit : IO.Ref LogLevel) : Host IO where
  readFile path := attempt do return decodeText (← IO.FS.withFile path .read IO.FS.Handle.readBinToEnd)
  readInput := attempt do return decodeText (← (← IO.getStdin).readBinToEnd)
  writeFile path text := attempt do
    IO.FS.writeFile path text
    return .ok ()
  writeOutput text := attempt do
    let output ← IO.getStdout
    output.putStr text
    output.flush
    return .ok ()
  writeDiagnostics text := do (← IO.getStderr).putStr text
  startLog level := limit.set level
  log record := do
    if (← limit.get).admits record.level then (← IO.getStderr).putStr record.line

end AmmCompiler

def main (arguments : List String) : IO UInt32 := do
  let limit ← IO.mkRef AmmCompiler.LogLevel.warn
  return (← AmmCompiler.runCommand (AmmCompiler.systemHost limit) arguments).toUInt32
