import FilterQuery.Grammar.Condition

/-!
# Grammar/Parser — reading a sequence of tokens

A parser stands somewhere in its tokens and keeps the errors recorded so far. `parse` takes the
whole rest and hands the errors out; `parseExpression` takes one condition and leaves the errors
where they are.
-/

namespace FilterQuery

/-- A reader of tokens: where the input ends, the tokens not yet taken, and the errors recorded. -/
structure Parser where
  finish : Nat
  rest : List Token
  errors : List SyntaxError
  deriving DecidableEq, Inhabited

namespace Parser

/-- A parser at the start of some tokens, without errors. The input ends after the last token. -/
def ofTokens (tokens : List Token) : Parser where
  finish := tokens.getLast?.elim 0 Token.stop
  rest := tokens
  errors := []

/-- Takes one condition. There is no expression if and only if errors were recorded for it. -/
def parseExpression (p : Parser) : Option Expr × Parser :=
  let (reading, rest) := (Grammar.condition p.finish maxDepth).run p.rest
  (reading.expr, { p with rest, errors := p.errors ++ reading.errors })

/-- Takes one condition, which has to be all that is left. Errors recorded before count too, and
none stay behind. -/
def parse (p : Parser) : Except (List SyntaxError) Expr × Parser :=
  let (expr, p) := p.parseExpression
  let t := Grammar.front p.finish p.rest
  let errors :=
    if t.kind = .endOfInput then p.errors
    else p.errors ++ [Grammar.unexpected .connectorOrEnd t]
  let result := match expr, errors with
    | some e, [] => .ok e
    | _, _ => .error errors
  (result, { p with errors := [] })

end Parser

/-- The expression that tokens spell, or every mistake in them. -/
def Expr.ofTokens (tokens : List Token) : Except (List SyntaxError) Expr :=
  (Parser.ofTokens tokens).parse.1

end FilterQuery
