import FilterQuery.Json.Error
import FilterQuery.Token

/-!
# Grammar/Error — what is wrong with a query, and where
-/

namespace FilterQuery

/-- How deep groups, literals, calls, path steps and alternating connectors may nest together. -/
def maxDepth : Nat := 32

/-- What the grammar asks for at a place. -/
inductive Expectation where
  | value
  | comparator
  | kind (k : Token.Kind)
  | commaOr (close : Punct)
  | connectorOrCloseParen
  | connectorOrEnd
  deriving DecidableEq, Inhabited

/-- The name of an expectation in an error message. -/
def Expectation.describe : Expectation → String
  | value => "a value"
  | comparator => "a comparison operator"
  | kind k => k.describe
  | commaOr close => "',' or " ++ (Token.Kind.punct close).describe
  | connectorOrCloseParen => "'AND', 'OR' or ')'"
  | connectorOrEnd => "'AND', 'OR' or end of input"

namespace SyntaxError

/-- The ways in which a query can break the grammar. -/
inductive Cause where
  /-- Something else stands where `what` is asked for: a lexeme, or the end of the input. -/
  | expected (what : Expectation) (found : Option String)
  | tooDeep
  /-- A call follows a call with nothing but a period between them. -/
  | calledTwice
  | invalidLiteral (lexeme : String) (error : Json.Error)
  | keyNotString
  /-- Any other wording. -/
  | other (message : String)
  deriving DecidableEq, Inhabited

/-- The wording of a cause. -/
def Cause.message : Cause → String
  | expected what found =>
    "expected " ++ what.describe ++ ", found " ++ found.elim "end of input" Token.Kind.quoted
  | tooDeep => "nesting exceeds " ++ toString maxDepth ++ " levels"
  | calledTwice => "a call must follow a path segment"
  | invalidLiteral lexeme error => "invalid literal " ++ lexeme ++ ": " ++ error.message
  | keyNotString => "object keys must be strings"
  | other message => message

end SyntaxError

/-- A violation of the grammar at a byte offset of the query. -/
structure SyntaxError where
  offset : Nat
  cause : SyntaxError.Cause
  deriving DecidableEq, Inhabited

namespace SyntaxError

/-- The wording of an error, without its place. -/
def message (e : SyntaxError) : String :=
  e.cause.message

/-- The message for all errors of a query. -/
def report (errors : List SyntaxError) : String :=
  toString errors.length ++ " syntax " ++ (if errors.length = 1 then "error" else "errors") ++
    String.join (errors.map fun e => "\n  at offset " ++ toString e.offset ++ ": " ++ e.message)

end SyntaxError

end FilterQuery
