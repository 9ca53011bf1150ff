namespace AmmCompiler

def commandName : String := "ammtojs"

def commandVersion : String := "0.1.0"

def versionNotice : String :=
  commandName ++ " " ++ commandVersion ++ "\n"

def helpNotice : String :=
  "Translate AMM into JavaScript for alan-js-runtime\n\n" ++
  "Usage: " ++ commandName ++ " [OPTIONS] [INPUT]\n\n" ++
  "Arguments:\n" ++
  "  [INPUT]  AMM file to translate; reads stdin when omitted or `-`\n\n" ++
  "Options:\n" ++
  "  -o, --output <OUTPUT>\n" ++
  "          Write the JavaScript here instead of stdout\n" ++
  "      --runtime-module <RUNTIME_MODULE>\n" ++
  "          Module the generated code requires as its runtime [default: alan-js-runtime]\n" ++
  "      --async-opcode <OPCODE>\n" ++
  "          Treat this opcode as suspending (repeatable)\n" ++
  "      --async-opcodes-file <FILE>\n" ++
  "          Read suspending opcodes from a file, one per line\n" ++
  "      --replace-async-opcodes\n" ++
  "          Start from an empty opcode registry instead of alan-js-runtime's\n" ++
  "      --stats\n" ++
  "          Print translation statistics to stderr\n" ++
  "  -v, --verbose...\n" ++
  "          Increase log verbosity (-v debug, -vv trace)\n" ++
  "  -h, --help\n" ++
  "          Print help\n" ++
  "  -V, --version\n" ++
  "          Print version\n"

end AmmCompiler
