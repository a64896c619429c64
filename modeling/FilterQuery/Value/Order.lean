import FilterQuery.Value

/-!
# Value/Order — when two values are equal, and which of them is less

`same` keeps integers and floats apart; `looseEq`, the equality of queries, compares numbers by
their value. Both descend through arrays item by item and through objects key by key and differ at
the leaves only, so both are instances of `equalBy`.
-/

namespace FilterQuery

/-- The order of an integer and a double. The double is taken in its decimal form; one that has no
such form is NaN or beyond every integer, on the side of its sign. -/
def Binary64.compareInt? (n : Int) (x : Binary64) : Option Ordering :=
  match Decimal.ofBinary64? x with
  | some d => some (d.compareInt n)
  | none =>
    match x with
    | nan => none
    | infinite negative | finite negative _ _ => some (if negative then .gt else .lt)

namespace Value

/-- The order of `<`, `<=`, `>` and `>=`: numbers by value, strings by their characters, and `false`
before `true`. No other pairing is ordered. -/
def compare? : Value → Value → Option Ordering
  | int m, int n => some (compare m.toInt n.toInt)
  | float x, float y => (Binary64.ofFloat x).compare? (Binary64.ofFloat y)
  | int n, float x => Binary64.compareInt? n.toInt (Binary64.ofFloat x)
  | float x, int n => (Binary64.compareInt? n.toInt (Binary64.ofFloat x)).map Ordering.swap
  | str s, str t => some (compare s t)
  | bool a, bool b => some (compare a b)
  | _, _ => none

mutual

/-- Equality that compares arrays and objects by their parts and everything else by `leaf`. -/
def equalBy (leaf : Value → Value → Bool) : Value → Value → Bool
  | array xs, array ys => itemsEqualBy leaf xs ys
  | @object keys fs, @object keys' gs => keys.length == keys'.length && fieldsEqualBy leaf fs gs
  | v, w => leaf v w

/-- Item by item, and of the same length. -/
def itemsEqualBy (leaf : Value → Value → Bool) : List Value → List Value → Bool
  | [], [] => true
  | x :: xs, y :: ys => equalBy leaf x y && itemsEqualBy leaf xs ys
  | _, _ => false

/-- Every entry of the first table has an equal one under its key in the second. -/
def fieldsEqualBy (leaf : Value → Value → Bool) {keys keys' : List String} :
    Table Value keys → Table Value keys' → Bool
  | .nil, _ => true
  | .cons key x fs _, gs =>
    (match gs.get? key with
      | some y => equalBy leaf x y
      | none => false) && fieldsEqualBy leaf fs gs

end

/-- Leaves of one type with the same content. Floats are the same if they are numerically equal, so
NaN differs from itself. -/
def sameLeaf : Value → Value → Bool
  | null, null => true
  | bool a, bool b => a == b
  | int m, int n => m == n
  | float x, float y => (Binary64.ofFloat x).compare? (Binary64.ofFloat y) == some .eq
  | str s, str t => s == t
  | capability c, capability d => c == d
  | host g, host h => g == h
  | _, _ => false

/-- Numbers of equal value, and other leaves that are the same. -/
def looseLeaf (v w : Value) : Bool :=
  match v, w with
  | int _, int _ | int _, float _ | float _, int _ | float _, float _ => v.compare? w == some .eq
  | _, _ => sameLeaf v w

/-- Structural equality: an integer is never the same as a float. -/
def same : Value → Value → Bool :=
  equalBy sameLeaf

/-- The equality of `=` and `!=`. -/
def looseEq : Value → Value → Bool :=
  equalBy looseLeaf

end Value

end FilterQuery
