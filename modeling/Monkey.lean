import Monkey.Token
import Monkey.Token.Piece
import Monkey.Token.Cursor
import Monkey.Text.Decimal
import Monkey.Text.Quoted
import Monkey.Text.Blank
import Monkey.Syntax.Operator
import Monkey.Syntax
import Monkey.Syntax.Printer
import Monkey.Syntax.Outline
import Monkey.Syntax.Reply
import Monkey.Syntax.Parser
import Monkey.Value
import Monkey.Value.Text
import Monkey.RuntimeError
import Monkey.Store
import Monkey.Evaluation
import Monkey.Interpreter
import Monkey.Session
import Monkey.ReadLoop
import Monkey.Main
import Monkey.Proofs.Reads
import Monkey.Proofs.Grammar
import Monkey.Proofs.GrammarSoundness
import Monkey.Proofs.GrammarCompleteness
import Monkey.Proofs.GrammarExactness
import Monkey.Proofs.Words
import Monkey.Proofs.WordsDerive
import Monkey.Proofs.Lexes
import Monkey.Proofs.SourceWords
import Monkey.Proofs.Survivors
import Monkey.Proofs.TokenClasses
import Monkey.Proofs.Walks
import Monkey.Proofs.SourcePieces
import Monkey.Proofs.LongestMatch
import Monkey.Proofs.RoundTrip
import Monkey.Proofs.Lookahead
import Monkey.Proofs.Forms
import Monkey.Proofs.Braces
import Monkey.Proofs.Courses
import Monkey.Proofs.Completion
import Monkey.Proofs.BlockRecovery
import Monkey.Proofs.Extension
import Monkey.Proofs.StatementRecovery
import Monkey.Proofs.MistakeOrder
import Monkey.Proofs.StatementCount
import Monkey.Proofs.ScopeTree
import Monkey.Proofs.Equality
import Monkey.Proofs.HashLiterals
import Monkey.Proofs.NodeRules
import Monkey.Proofs.Arithmetic
import Monkey.Proofs.ArrayRecursion
import Monkey.Proofs.Growth
import Monkey.Proofs.OwnBindings
import Monkey.Proofs.Machine
import Monkey.Proofs.MachineRuns
import Monkey.Proofs.MachineSteps
import Monkey.Proofs.CallDepth
import Monkey.Proofs.HostFault
import Monkey.Proofs.HostLexer
import Monkey.Proofs.HostParser
import Monkey.Proofs.HostMachine
import Monkey.Proofs.Nesting
import Monkey.Proofs.Scopes
import Monkey.Proofs.LexicalScoping
import Monkey.Proofs.ErrorLines
import Monkey.Proofs.EvaluationContexts
import Monkey.Proofs.ReturnSignals
import Monkey.Proofs.DepthLimit
import Monkey.Proofs.Lines
import Monkey.Proofs.Likeness
import Monkey.Proofs.Parallel
import Monkey.Proofs.UpToLines
import Monkey.Proofs.Reachability
import Monkey.Proofs.Relocation
import Monkey.Proofs.Seam
import Monkey.Proofs.Layout
import Monkey.Proofs.Concatenation
import Monkey.Proofs.Soundness
import Monkey.Proofs.BoundValues
import Monkey.Proofs.Identities
import Monkey.Proofs.HeldValues
import Monkey.Proofs.ArraySequences
import Monkey.Proofs.SessionSoundness
import Monkey.Proofs.StoreEffects
import Monkey.Proofs.Confinement
import Monkey.Proofs.Hosting
import Monkey.Proofs.HostedSessions
import Monkey.Proofs.EnvironmentHeap
import Monkey.Proofs.OneLine
import Monkey.Proofs.Dialogue
