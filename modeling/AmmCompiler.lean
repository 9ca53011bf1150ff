import AmmCompiler.Fixture.Verification
import AmmCompiler.Host.World
import AmmCompiler.JavaScript.Session
import AmmCompiler.Main
import AmmCompiler.Source.Unfolding
import AmmCompiler.Statistics.Count
import AmmCompiler.Proofs.Grammar.Soundness
import AmmCompiler.Proofs.JavaScript.Unambiguity
import AmmCompiler.Proofs.JavaScript.AsyncScope
import AmmCompiler.Proofs.JavaScript.Assembly
import AmmCompiler.Proofs.Grammar.Sight
import AmmCompiler.Proofs.Grammar.Steady
import AmmCompiler.Proofs.Grammar.Locality
import AmmCompiler.Proofs.Grammar.Breakage
import AmmCompiler.Proofs.Grammar.Message
import AmmCompiler.Proofs.Grammar.Concatenation
import AmmCompiler.Proofs.Grammar.KeptLines
import AmmCompiler.Proofs.Grammar.OneLine
import AmmCompiler.Proofs.Grammar.Completion
import AmmCompiler.Proofs.Grammar.Viability
import AmmCompiler.Proofs.Grammar.Rejection
import AmmCompiler.Proofs.JavaScript.Additivity
import AmmCompiler.Proofs.JavaScript.ControlPort
import AmmCompiler.Proofs.CommandLine.Outcome
import AmmCompiler.Proofs.Fixture.RunOptions
import AmmCompiler.Proofs.Fixture.Directives
import AmmCompiler.Proofs.Grammar.Respelling
import AmmCompiler.Proofs.Grammar.Commutation
import AmmCompiler.Proofs.Grammar.RespeltProgram
import AmmCompiler.Proofs.JavaScript.Spelling
import AmmCompiler.Proofs.JavaScript.Literals
import AmmCompiler.Proofs.JavaScript.Awaiting
import AmmCompiler.Proofs.JavaScript.Lines
import AmmCompiler.Proofs.JavaScript.Brackets
import AmmCompiler.Proofs.Translation.Comments
import AmmCompiler.Proofs.Translation.LineEnds
import AmmCompiler.Proofs.Fixture.Placement
import AmmCompiler.Proofs.Grammar.ParameterSlots
import AmmCompiler.Proofs.CommandLine.ModuleOption
import AmmCompiler.Proofs.JavaScript.RuntimeModule
import AmmCompiler.Proofs.JavaScript.Binders
import AmmCompiler.Proofs.Fixture.Passing
import AmmCompiler.Proofs.Statistics.Breakdown
import AmmCompiler.Proofs.CommandLine.AwaitedOpcodes
import AmmCompiler.Proofs.Target.OpcodeList
import AmmCompiler.Proofs.Scanning.Progress
