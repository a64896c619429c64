import FilterQuery.Expr
import FilterQuery.Json.Text

/-!
# Expr/Render — the canonical text of a query, and the keys of its paths

`render` writes one space around operators and after commas, literals as they were spelled and
object keys as JSON strings. `pathKey` is the dotted chain of names that leads to a value; calls and
their arguments leave no trace in it.
-/

namespace FilterQuery.Expr

mutual

/-- The canonical text. -/
def render : Expr → String
  | literal _ lexeme => lexeme
  | array items => "[" ++ ", ".intercalate (renderAll items) ++ "]"
  | object entries => "\x7b" ++ ", ".intercalate (renderEntries entries) ++ "\x7d"
  | root name => name
  | step parent name => parent.render ++ "." ++ name
  | call callee args => callee.render ++ "(" ++ ", ".intercalate (renderAll args) ++ ")"
  | comparison left op right => left.render ++ " " ++ op.symbol ++ " " ++ right.render
  | chain op operands => (" " ++ op.symbol ++ " ").intercalate (renderAll operands)
  | group inner => "(" ++ inner.render ++ ")"

/-- The canonical texts of expressions. -/
def renderAll : List Expr → List String
  | [] => []
  | e :: es => e.render :: renderAll es

/-- The canonical texts of object entries. -/
def renderEntries : List (String × Expr) → List String
  | [] => []
  | (key, e) :: entries => (Json.quote key ++ ": " ++ e.render) :: renderEntries entries

end

/-- The key under which the value of a path is kept. -/
def pathKey : Expr → String
  | root name => name
  | step parent name => parent.pathKey ++ "." ++ name
  | call callee _ => callee.pathKey
  | e => e.render

end FilterQuery.Expr
