import AmmCompiler.Log

/-! Access to files and streams, kept apart from what is done with their contents. -/

namespace AmmCompiler

inductive AccessError
  | notText
  | system (description : String) (code : Nat)
  deriving DecidableEq, Repr

namespace AccessError

def missing : AccessError := system "No such file or directory" 2
def notDirectory : AccessError := system "Not a directory" 20
def isDirectory : AccessError := system "Is a directory" 21
def nameTooLong : AccessError := system "File name too long" 36

def message : AccessError → String
  | notText => "stream did not contain valid UTF-8"
  | system description code => description ++ " (os error " ++ toString code ++ ")"

end AccessError

structure Host (m : Type → Type) where
  readFile : String → m (Except AccessError String)
  readInput : m (Except AccessError String)
  writeFile : String → String → m (Except AccessError Unit)
  writeOutput : String → m (Except AccessError Unit)
  writeDiagnostics : String → m Unit
  startLog : LogLevel → m Unit
  log : LogRecord → m Unit

def Host.logAll {m : Type → Type} [Monad m] (host : Host m) (records : List LogRecord) : m Unit :=
  records.forM host.log

def decodeText (bytes : ByteArray) : Except AccessError String :=
  match String.fromUTF8? bytes with
  | some text => .ok text
  | none => .error .notText

theorem decodeText_toUTF8 (text : String) : decodeText text.toUTF8 = .ok text := by
  have hv : text.toUTF8.IsValidUTF8 := text.isValidUTF8
  rw [decodeText, String.fromUTF8?, dif_pos hv]
  rfl

end AmmCompiler
