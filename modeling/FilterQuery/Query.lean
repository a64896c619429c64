import FilterQuery.Expr.Convergence
import FilterQuery.Grammar.Parser
import FilterQuery.Token.Lexer

/-!
# Query — query texts and their runs

A query is split into tokens once. Each run parses them and evaluates the expression with a runner
of its own: `runOnce` in a single pass, which must not meet a deferred value, and `run` in as many
passes as the deferred values take.
-/

namespace FilterQuery

/-- Why a query has no answer. -/
inductive QueryError where
  | lex (error : LexError)
  | parse (errors : List SyntaxError)
  /-- A single pass has met deferred values under these keys. -/
  | deferred (pending : List String)
  deriving DecidableEq, Inhabited

namespace QueryError

/-- The message of an error. -/
def message : QueryError → String
  | lex e => "Lex error: " ++ e.message
  | parse errors => "Parse error: " ++ SyntaxError.report errors
  | deferred pending =>
    "Deferred values are not supported by run_sync (pending: " ++ ", ".intercalate pending ++ ")"

/-- Whether the text of the query itself is at fault. -/
def isSyntax : QueryError → Bool
  | lex _ | parse _ => true
  | deferred _ => false

end QueryError

/-- A text and its tokens. -/
structure Query where
  source : String
  tokens : List Token
  ofText_source : Token.ofText source = .ok tokens

namespace Query

variable {σ : Type}

/-- The query of a text, if it splits into tokens. -/
def ofText (source : String) : Except QueryError Query :=
  match h : Token.ofText source with
  | .ok tokens => .ok ⟨source, tokens, h⟩
  | .error e => .error (.lex e)

/-- The expression of a query. -/
def parse (q : Query) : Except QueryError Expr :=
  (Expr.ofTokens q.tokens).mapError .parse

/-- An answer or the reason why there is none, the number of passes, and the runner at the end. -/
structure Run (σ : Type) where
  result : Except QueryError Bool
  passes : Nat
  runner : Runner σ

/-- Evaluates in a single pass. -/
def runOnce (w : World σ) (q : Query) (context : Option Value) (world : σ) : Run σ :=
  let r := Runner.start context world
  match q.parse with
  | .error e => ⟨.error e, 0, r⟩
  | .ok e =>
    let (answer, r) := e.holds w r
    if r.pending.isEmpty then ⟨.ok answer, 1, r⟩ else ⟨.error (.deferred r.pendingKeys), 1, r⟩

/-- Evaluates in passes until nothing is deferred any more. -/
def run (w : World σ) (q : Query) (context : Option Value) (world : σ) : Run σ :=
  let r := Runner.start context world
  match q.parse with
  | .error e => ⟨.error e, 0, r⟩
  | .ok e =>
    let last := e.converge w r
    ⟨.ok last.answer, last.passes, last.runner⟩

end Query

end FilterQuery
