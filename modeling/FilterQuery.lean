import FilterQuery.Main
import FilterQuery.Scripted.Stage
import FilterQuery.Value.Inspect
import FilterQuery.Proofs.Consumer.Success
import FilterQuery.Proofs.Consumer.Parallel
import FilterQuery.Proofs.Evaluation.Passes
import FilterQuery.Proofs.Runner.History
import FilterQuery.Proofs.Runner.Ledger
import FilterQuery.Proofs.Evaluation.Stability
import FilterQuery.Proofs.Evaluation.Phases
import FilterQuery.Proofs.Evaluation.Repetition
import FilterQuery.Proofs.Evaluation.Once
import FilterQuery.Proofs.Evaluation.Frames
import FilterQuery.Proofs.Evaluation.Arguments
import FilterQuery.Proofs.Fields
import FilterQuery.Proofs.Grammar.Derivation
import FilterQuery.Proofs.Grammar.Operand
import FilterQuery.Proofs.Grammar.Condition
import FilterQuery.Proofs.Grammar.Language
import FilterQuery.Proofs.Grammar.Nesting
import FilterQuery.Proofs.Grammar.Balance
import FilterQuery.Proofs.Grammar.Failure
import FilterQuery.Proofs.Grammar.Recovery
import FilterQuery.Proofs.Grammar.Mistakes
import FilterQuery.Proofs.Grammar.Blame
import FilterQuery.Proofs.Grammar.Descent
import FilterQuery.Proofs.Reader.Machine
import FilterQuery.Proofs.Reader.Steps
import FilterQuery.Proofs.Reader.Operand
import FilterQuery.Proofs.Reader.Condition
import FilterQuery.Proofs.Reader.Safety
import FilterQuery.Proofs.Grammar.Parallel
import FilterQuery.Proofs.Token.Lexeme
import FilterQuery.Proofs.Token.Layout
import FilterQuery.Proofs.Token.Munch
import FilterQuery.Proofs.Token.Respelling
import FilterQuery.Proofs.Json.Quote
import FilterQuery.Proofs.Grammar.Words
import FilterQuery.Proofs.Grammar.Render
import FilterQuery.Proofs.RoundTrip
import FilterQuery.Proofs.Spelling
import FilterQuery.Proofs.Expr.Keys
import FilterQuery.Proofs.Expr.Links
import FilterQuery.Proofs.Evaluation.Agreement
import FilterQuery.Proofs.Evaluation.Prompt
import FilterQuery.Proofs.Evaluation.Transparency
import FilterQuery.Proofs.Evaluation.LeftToRight
import FilterQuery.Proofs.Evaluation.Delays
import FilterQuery.Proofs.Evaluation.Calls
import FilterQuery.Proofs.Number.Mixed
import FilterQuery.Proofs.Value.Comparison
import FilterQuery.Proofs.Value.Data
import FilterQuery.Proofs.Number.Float
import FilterQuery.Proofs.Json.Text
import FilterQuery.Proofs.Json.Numeral
import FilterQuery.Proofs.Json.Document
import FilterQuery.Proofs.Json.Acceptance
import FilterQuery.Proofs.Json.Nesting
import FilterQuery.Proofs.Expr.Settled
import FilterQuery.Proofs.Grammar.Literal
import FilterQuery.Proofs.Contexts
import FilterQuery.Proofs.PlainContexts
import FilterQuery.Proofs.Scripted
