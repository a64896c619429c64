import FilterQuery.Value.Order

/-!
# Operator — comparators and connectors
-/

namespace FilterQuery

/-- The six ways to compare two values. -/
inductive Comparator where
  | equal
  | notEqual
  | less
  | greater
  | lessEqual
  | greaterEqual
  deriving DecidableEq, Inhabited

namespace Comparator

/-- The canonical spelling. -/
def symbol : Comparator → String
  | equal => "="
  | notEqual => "!="
  | less => "<"
  | greater => ">"
  | lessEqual => "<="
  | greaterEqual => ">="

/-- All comparators. -/
def all : List Comparator :=
  [equal, notEqual, less, greater, lessEqual, greaterEqual]

/-- Whether the comparison holds of two values. The four ordering tests are false of values that are
not ordered. -/
def test (op : Comparator) (v w : Value) : Bool :=
  match op with
  | equal => v.looseEq w
  | notEqual => !v.looseEq w
  | less => v.compare? w == some .lt
  | greater => v.compare? w == some .gt
  | lessEqual => v.compare? w == some .lt || v.compare? w == some .eq
  | greaterEqual => v.compare? w == some .gt || v.compare? w == some .eq

end Comparator

/-- The two ways to join conditions. -/
inductive Connector where
  | and
  | or
  deriving DecidableEq, Inhabited

namespace Connector

/-- The spelling, in upper case only. -/
def symbol : Connector → String
  | and => "AND"
  | or => "OR"

/-- Whether a chain that stands at `value` keeps it whatever follows: false under `and`, true under
`or`. -/
def decides : Connector → Bool → Bool
  | and, value => !value
  | or, value => value

end Connector

end FilterQuery
