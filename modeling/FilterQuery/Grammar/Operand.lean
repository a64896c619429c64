import FilterQuery.Consumer
import FilterQuery.Expr
import FilterQuery.Grammar.Error
import FilterQuery.Json.Document

/-!
# Grammar/Operand — the operands of a comparison

    value  := literal | object | array | path
    object := '{' [ string ':' value { ',' string ':' value } ] '}'
    array  := '[' [ value { ',' value } ] ']'
    path   := segment { '.' ( segment | args ) }
    segment := name [ args ]
    args   := '(' [ value { ',' value } ] ')'

Where `'.' args` may not follow `args`. An array, an object, a path, and every step of a path cost
one unit of the nesting budget that a value is read with, so reading is by recursion on the budget.
`finish` is the offset at which the input ends for a reader who has taken all of its tokens.
-/

namespace FilterQuery.Grammar

/-- Rules on tokens. -/
abbrev Rule := FilterQuery.Rule Token SyntaxError

/-- The token that stands after all others. -/
def endToken (finish : Nat) : Token :=
  ⟨.endOfInput, "", finish⟩

/-- The token at the front. -/
def front (finish : Nat) (tokens : List Token) : Token :=
  tokens.headD (endToken finish)

/-- The error that something else is expected than a token. -/
def unexpected (what : Expectation) (t : Token) : SyntaxError :=
  ⟨t.offset, .expected what (if t.kind = .endOfInput then none else some t.lexeme)⟩

/-- The error that nesting is too deep at a token. -/
def tooDeep (t : Token) : SyntaxError :=
  ⟨t.offset, .tooDeep⟩

variable (finish : Nat)

/-- The next token, which stays. -/
def current : Rule Token := do
  return front finish (← Rule.rest)

/-- Whether the next token is a mark. -/
def atPunct (p : Punct) : Rule Bool := do
  return (← current finish).kind = .punct p

/-- Takes a token of a kind. -/
def expect (kind : Token.Kind) : Rule Token := do
  let t ← current finish
  if t.kind = kind then
    Rule.skip
    return t
  else throw (unexpected (.kind kind) t)

/-- The value of a token's lexeme, read as JSON. -/
def decode (t : Token) : Except SyntaxError Value :=
  (Json.read t.lexeme).mapError fun e => ⟨t.offset, .invalidLiteral t.lexeme e⟩

/-- A literal that is one token. -/
def literal : Rule Expr := do
  let t ← current finish
  Rule.skip
  match decode t with
  | .ok v => return .literal v t.lexeme
  | .error e => throw e

/-- Items with commas between them, up to and including a closing mark. -/
def listUpTo {α : Type} (close : Punct) (item : Rule α) : Rule (List α) := do
  if ← atPunct finish close then
    Rule.skip
    return []
  else
    let items ← Rule.list (fun t => t.kind = .punct .comma) item
    let t ← current finish
    if t.kind = .punct close then
      Rule.skip
      return items
    else throw (unexpected (.commaOr close) t)

/-- A key of an object. -/
def key : Rule String := do
  let t ← expect finish (.literal .string)
  match decode t with
  | .ok (.str k) => return k
  | .ok _ => throw ⟨t.offset, .keyNotString⟩
  | .error e => throw e

variable (value : Rule Expr)

/-- An entry of an object. -/
def entry : Rule (String × Expr) := do
  let k ← key finish
  let _ ← expect finish (.punct .colon)
  return (k, ← value)

/-- An object; of two entries with one key the later counts, in the place of the earlier. -/
def object : Rule Expr := do
  Rule.skip
  return .object (Fields.ofList (← listUpTo finish .closeBrace (entry finish value)))

/-- An array. -/
def array : Rule Expr := do
  Rule.skip
  return .array (← listUpTo finish .closeBracket value)

/-- The call of `callee` with the arguments that follow. -/
def call (callee : Expr) : Rule Expr := do
  Rule.skip
  return .call callee (← listUpTo finish .closeParen value)

/-- A name, which is a member of `parent` or else of the context, and a call of it if arguments
follow. -/
def segment (parent : Option Expr) : Rule Expr := do
  let name := (← expect finish .segment).lexeme
  let path := parent.elim (Expr.root name) (Expr.step · name)
  if ← atPunct finish .openParen then call finish value path else return path

/-- The steps after `path`, `budget` of them at most. -/
def steps : (budget : Nat) → (path : Expr) → Rule Expr
  | 0, path => do
    if ← atPunct finish .period then
      Rule.skip
      throw (tooDeep (← current finish))
    else return path
  | budget + 1, path => do
    if ← atPunct finish .period then
      Rule.skip
      if ← atPunct finish .openParen then
        if path.isCall then throw ⟨(← current finish).offset, .calledTwice⟩
        else steps budget (← call finish value path)
      else steps budget (← segment finish value (some path))
    else return path

/-- A path with `budget` steps at most after its first name. -/
def path (budget : Nat) : Rule Expr := do
  steps finish value budget (← segment finish value none)

/-- A value within a nesting budget. -/
def operand : (budget : Nat) → Rule Expr
  | 0 => do
    let t ← current finish
    match t.kind with
    | .literal _ => literal finish
    | .punct .openBrace | .punct .openBracket | .segment => throw (tooDeep t)
    | _ => throw (unexpected .value t)
  | budget + 1 => do
    let t ← current finish
    match t.kind with
    | .literal _ => literal finish
    | .punct .openBrace => object finish (operand budget)
    | .punct .openBracket => array finish (operand budget)
    | .segment => path finish (operand budget) budget
    | _ => throw (unexpected .value t)

/-- Two values with a comparator between them. -/
def comparison : Rule Expr := do
  let left ← value
  let t ← current finish
  match t.kind with
  | .comparator op =>
    Rule.skip
    return .comparison left op (← value)
  | _ => throw (unexpected .comparator t)

end FilterQuery.Grammar
