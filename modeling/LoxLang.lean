import LoxLang.Command
import LoxLang.Main
import LoxLang.Forest
import LoxLang.Proofs.Reading.Expression
import LoxLang.Proofs.Reading.Statement
import LoxLang.Proofs.Reading.Program
import LoxLang.Proofs.Reading.Text
import LoxLang.Proofs.Accepting.Basic
import LoxLang.Proofs.Grammar.Lookahead
import LoxLang.Proofs.Accepting.Expression
import LoxLang.Proofs.Accepting.Statement
import LoxLang.Proofs.Accepting.Program
import LoxLang.Proofs.InStep.Basic
import LoxLang.Proofs.InStep.Rules
import LoxLang.Proofs.InStep.Evaluate
import LoxLang.Proofs.Node.Printing
import LoxLang.Proofs.InStep.Solo
import LoxLang.Proofs.InStep.Sessions
import LoxLang.Proofs.Safety.Faults
import LoxLang.Proofs.Safety.Session
import LoxLang.Proofs.Safety.Texts
import LoxLang.Proofs.Safety.Breakdowns
import LoxLang.Proofs.Scoping.Stays
import LoxLang.Proofs.Scoping.InStep
import LoxLang.Proofs.Scoping.Forest
import LoxLang.Proofs.Scoping.WellScoped
import LoxLang.Proofs.Effects.Basic
import LoxLang.Proofs.Effects.Parametric
import LoxLang.Proofs.Effects.Session
import LoxLang.Proofs.Effects.Names
import LoxLang.Proofs.Scoping.Restored
import LoxLang.Proofs.Scoping.Region
import LoxLang.Proofs.Loop.Direct
import LoxLang.Proofs.Grammar.Relined
import LoxLang.Proofs.Token.Lines
import LoxLang.Proofs.Prompt.Batch
import LoxLang.Proofs.Scoping.Reachable
import LoxLang.Proofs.Decimal.Nearest
import LoxLang.Proofs.Decimal.Texts
import LoxLang.Proofs.Decimal.Whole
import LoxLang.Proofs.Natives.Arguments
import LoxLang.Proofs.Natives.Slices
import LoxLang.Proofs.Natives.Words
import LoxLang.Proofs.Natives.Fields
import LoxLang.Proofs.Form.Readable
import LoxLang.Proofs.Form.Reading
import LoxLang.Proofs.Form.Spelling
import LoxLang.Proofs.Form.RoundTrip
import LoxLang.Proofs.Form.Meaning
import LoxLang.Proofs.InStep.Traced
import LoxLang.Proofs.Reading.Congruent
import LoxLang.Proofs.Reading.Amid
import LoxLang.Proofs.Reading.Confined
import LoxLang.Proofs.Token.Lexeme
import LoxLang.Proofs.Token.Longest
import LoxLang.Proofs.Token.Places
import LoxLang.Proofs.Token.Joined
import LoxLang.Proofs.Token.Rescan
import LoxLang.Proofs.Reports.Flags
import LoxLang.Proofs.Reports.Exit
import LoxLang.Proofs.Overflow.Session
import LoxLang.Proofs.Reports.Positions
import LoxLang.Proofs.Moments.Session
import LoxLang.Proofs.Reading.Recovery
import LoxLang.Proofs.Accepting.Appended
import LoxLang.Proofs.Accepting.Objections
import LoxLang.Proofs.Accepting.Unended
import LoxLang.Proofs.Blame.Strict
import LoxLang.Proofs.Blame.Basic
import LoxLang.Proofs.Blame.Expression
import LoxLang.Proofs.Blame.Statement
import LoxLang.Proofs.Blame.Program
import LoxLang.Proofs.Decimal.Patterns
import LoxLang.Proofs.Form.Lexing
import LoxLang.Proofs.Form.Derived
import LoxLang.Proofs.Form.Composed
import LoxLang.Proofs.Form.Accepted
import LoxLang.Proofs.Form.Written
import LoxLang.Proofs.Form.Words
import LoxLang.Proofs.Form.Told
import LoxLang.Proofs.Calls.Brackets
import LoxLang.Proofs.Calls.Underway
import LoxLang.Proofs.Calls.Bracketed
import LoxLang.Proofs.Overflow.Nesting
import LoxLang.Proofs.Overflow.Program
import LoxLang.Proofs.Node.Nearest
import LoxLang.Proofs.Reading.Outline
import LoxLang.Proofs.Decimal.Shown
import LoxLang.Proofs.Overflow.Command
