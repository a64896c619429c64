import FilterQuery.Grammar.Brackets
import FilterQuery.Grammar.Operand

/-!
# Grammar/Condition — conditions, and going on after an error

    condition := atom { connector atom }
    atom      := '(' condition ')' | comparison

An atom that breaks the grammar is given up: its error is recorded, the reader skips to the end of
the atom and goes on, so one reading records every independent mistake. What was recorded and what
was read are kept side by side in a `Reading`. A group costs one unit of the nesting budget, and so
does every change of connector within a chain.
-/

namespace FilterQuery.Grammar

/-- What a condition came to: the expression, unless a part of it was given up, and the errors
recorded on the way. -/
structure Reading where
  expr : Option Expr
  errors : List SyntaxError
  deriving Inhabited

/-- What an atom came to before recovery: an error that has not been recorded yet, or what was read,
and the errors recorded on the way. -/
structure Attempt where
  result : Except SyntaxError (Option Expr)
  errors : List SyntaxError

variable (finish : Nat)

/-- A condition in parentheses. -/
def group (condition : Consumer Token Reading) : Consumer Token Attempt := do
  Consumer.skip
  let inner ← condition
  let t := front finish (← Consumer.rest)
  if t.kind = .punct .closeParen then
    Consumer.skip
    return ⟨.ok (inner.expr.map .group), inner.errors⟩
  else return ⟨.error (unexpected .connectorOrCloseParen t), inner.errors⟩

/-- A group, whose condition is read by `inner`, or a comparison. Without `inner` the nesting budget
is spent. -/
def atom (budget : Nat) (inner : Option (Consumer Token Reading)) : Consumer Token Attempt := do
  let t := front finish (← Consumer.rest)
  if t.kind = .punct .openParen then
    match inner with
    | none => return ⟨.error (tooDeep t), []⟩
    | some condition => group finish condition
  else
    let result ← (comparison finish (operand finish budget)).run
    return ⟨result.map some, []⟩

/-- Records the error of an atom that is given up and skips to the end of the atom. -/
def recovering (attempt : Consumer Token Attempt) : Consumer Token Reading := do
  let start ← Consumer.rest
  let a ← attempt
  match a.result with
  | .ok expr => return ⟨expr, a.errors⟩
  | .error e =>
    synchronize start
    return ⟨none, a.errors ++ [e]⟩

/-- A connector and where it stands. -/
structure Joint where
  op : Connector
  offset : Nat
  deriving DecidableEq, Inhabited

/-- The joint that a token is. -/
def joint? (t : Token) : Option Joint :=
  match t.kind with
  | .connector op => some ⟨op, t.offset⟩
  | _ => none

/-- Whether joining a chain under `op` changes its connector. -/
def changesConnector (chain : Option Expr) (op : Connector) : Bool :=
  match chain with
  | some (.chain op' _) => op' ≠ op
  | _ => false

/-- A chain so far, and how many times it may still change its connector. -/
structure Progress where
  reading : Reading
  changes : Nat
  deriving Inhabited

/-- Gives a chain up if it changes its connector once too often. -/
def Progress.charge (p : Progress) (joint : Joint) : Progress :=
  if changesConnector p.reading.expr joint.op then
    match p.changes with
    | 0 => ⟨⟨none, p.reading.errors ++ [⟨joint.offset, .tooDeep⟩]⟩, 0⟩
    | changes + 1 => ⟨p.reading, changes⟩
  else p

/-- Joins an operand to a chain, if both have been read. -/
def Progress.append (p : Progress) (op : Connector) (operand : Reading) : Progress :=
  let expr := match p.reading.expr, operand.expr with
    | some left, some right => some (left.join op right)
    | _, _ => none
  ⟨⟨expr, p.reading.errors ++ operand.errors⟩, p.changes⟩

/-- A chain with one more operand and the joint before it. -/
def Progress.step (p : Progress) (part : Joint × Reading) : Progress :=
  (p.charge part.1).append part.1.op part.2

/-- The chain of a first operand and others with their joints. -/
def assemble (budget : Nat) (first : Reading) (more : List (Joint × Reading)) : Reading :=
  (more.foldl Progress.step ⟨first, budget⟩).reading

/-- A condition, whose groups are read by `inner`. -/
def conditionWith (budget : Nat) (inner : Option (Consumer Token Reading)) :
    Consumer Token Reading := do
  let (first, more) ← Consumer.separatedBy joint? (recovering (atom finish budget inner))
  return assemble budget first more

/-- A condition within a nesting budget. -/
def condition : (budget : Nat) → Consumer Token Reading
  | 0 => conditionWith finish 0 none
  | budget + 1 => conditionWith finish (budget + 1) (some (condition budget))

end FilterQuery.Grammar
