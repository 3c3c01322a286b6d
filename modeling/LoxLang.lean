import LoxLang.CommandLine.Basic
import LoxLang.Main
import LoxLang.Proofs.Grammar.Acceptance
import LoxLang.Proofs.Grammar.Calls
import LoxLang.Proofs.Grammar.Soundness
import LoxLang.Proofs.Grammar.Completeness
import LoxLang.Proofs.Grammar.NearestElse
import LoxLang.Proofs.Grammar.EndOfInput
import LoxLang.Proofs.Grammar.Spelling
import LoxLang.Proofs.Grammar.Recognition
import LoxLang.Proofs.Token.Lexicon
import LoxLang.Proofs.Token.Patterns
import LoxLang.Proofs.Token.Pieces
import LoxLang.Proofs.Token.Scanning
import LoxLang.Proofs.Scope.Keeping
import LoxLang.Proofs.Tree.Induction
import LoxLang.Proofs.Execution.Frame
import LoxLang.Proofs.Execution.ScopeCalls
import LoxLang.Proofs.Session.Scopes
import LoxLang.Proofs.Token.Lines
import LoxLang.Proofs.Tree.Lines
import LoxLang.Proofs.Execution.Lines
import LoxLang.Proofs.Session.Lines
import LoxLang.Proofs.Grammar.CallGraph
import LoxLang.Proofs.Grammar.Orderly
import LoxLang.Proofs.Grammar.OtherLines
import LoxLang.Proofs.Grammar.Progress
import LoxLang.Proofs.Grammar.Traces
import LoxLang.Proofs.Grammar.Leniency
import LoxLang.Proofs.Grammar.LenientReading
import LoxLang.Proofs.Grammar.Joining
import LoxLang.Proofs.Grammar.Breaking
import LoxLang.Proofs.Grammar.DroppedSemicolon
import LoxLang.Proofs.Grammar.Sequence
import LoxLang.Proofs.Scope.History
import LoxLang.Proofs.Tree.Declarations
import LoxLang.Proofs.Execution.Names
import LoxLang.Proofs.Grammar.Origin
import LoxLang.Proofs.Execution.Faults
import LoxLang.Proofs.Session.Faults
import LoxLang.Proofs.CommandLine.Prompt
import LoxLang.Proofs.Token.Contexts
import LoxLang.Proofs.Token.Spacing
import LoxLang.Proofs.Token.Calls
import LoxLang.Proofs.Token.Mending
import LoxLang.Proofs.Execution.Output
import LoxLang.Proofs.Text.Deletion
import LoxLang.Proofs.Session.Turns
import LoxLang.Proofs.CommandLine.Switches
import LoxLang.Proofs.Token.NextLine
import LoxLang.Proofs.Grammar.Segments
import LoxLang.Proofs.Tree.Mentions
import LoxLang.Proofs.Scope.Bindings
import LoxLang.Proofs.Execution.SideBySide
import LoxLang.Proofs.Execution.Echo
import LoxLang.Proofs.Execution.Footprint
import LoxLang.Proofs.Execution.Transparency
import LoxLang.Proofs.Tree.Changes
import LoxLang.Proofs.Execution.Layout
import LoxLang.Proofs.Scope.Renaming
import LoxLang.Proofs.Execution.Renaming
import LoxLang.Proofs.Execution.Limit
import LoxLang.Proofs.Token.Trimming
import LoxLang.Proofs.Decimal.ReadingBack
import LoxLang.Proofs.Decimal.Texts
import LoxLang.Proofs.Value.Display
import LoxLang.Proofs.Tree.Parts
import LoxLang.Proofs.Tree.Labels
import LoxLang.Proofs.Tree.Outline
import LoxLang.Proofs.Tree.Postfix
import LoxLang.Proofs.Grammar.Boundaries
