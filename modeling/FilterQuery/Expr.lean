import FilterQuery.Operator

/-!
# Expr — queries as trees
-/

namespace FilterQuery

/-- A query, or a part of one. -/
inductive Expr where
  /-- A JSON scalar, with the spelling it had. -/
  | literal (value : Value) (lexeme : String)
  | array (items : List Expr)
  | object (entries : List (String × Expr))
  /-- A member of the context itself. -/
  | root (name : String)
  /-- A member of what `parent` gives. -/
  | step (parent : Expr) (name : String)
  /-- What `callee` gives when it is invoked. -/
  | call (callee : Expr) (args : List Expr)
  | comparison (left : Expr) (op : Comparator) (right : Expr)
  /-- Operands joined by one connector. -/
  | chain (op : Connector) (operands : List Expr)
  | group (inner : Expr)
  deriving Inhabited

namespace Expr

/-- Whether an expression is a call. -/
def isCall : Expr → Bool
  | call _ _ => true
  | _ => false

/-- **Appends an operand to a chain.** A chain takes operands under its own connector only; under
the other one it becomes the first operand of a new chain, so a mixed chain nests to the left. -/
def join (left : Expr) (op : Connector) (right : Expr) : Expr :=
  match left with
  | chain op' operands => if op' = op then chain op (operands ++ [right]) else chain op [left, right]
  | left => chain op [left, right]

mutual

/-- The comparisons of a condition from left to right, as they stand under connectors and groups. -/
def comparisons : Expr → List (Expr × Comparator × Expr)
  | comparison left op right => [(left, op, right)]
  | chain _ operands => comparisonsAll operands
  | group inner => inner.comparisons
  | _ => []

/-- The comparisons of conditions, one condition after the other. -/
def comparisonsAll : List Expr → List (Expr × Comparator × Expr)
  | [] => []
  | e :: es => e.comparisons ++ comparisonsAll es

end

end Expr

end FilterQuery
