import FilterQuery.Expr.Render
import FilterQuery.Runner

/-!
# Expr/Evaluation — one pass over a query

`evaluate` resolves an expression from left to right. Its flag is off in an operand that a chain
skips because its value is decided: comparisons there are false without a look at their operands, so
nothing is invoked. Array and object literals resolve their parts even there.
-/

namespace FilterQuery.Expr

variable {σ : Type}

/-- The array of parts, once all of them are there. -/
def resolveArray (parts : List Resolved) : Resolved :=
  match Runner.gather parts with
  | some values => .value (.array values)
  | none => .pending

/-- The object of parts under keys, once all of them are there. -/
def resolveObject (keys : List String) (parts : List Resolved) : Resolved :=
  match Runner.gather parts with
  | some values => .value (.ofPairs (keys.zip values))
  | none => .pending

/-- Whether a comparison holds of two results, which have to be values. -/
def testResolved (op : Comparator) (left right : Resolved) : Bool :=
  match left, right with
  | .value v, .value w => op.test v w
  | _, _ => false

mutual

/-- What an expression comes to, and the runner afterwards. -/
def evaluate (w : World σ) : Expr → (flag : Bool) → Runner σ → Resolved × Runner σ
  | literal v _, _, r => (.value v, r)
  | array items, _, r =>
    let parts := evaluateAll w items true r
    (resolveArray parts.1, parts.2)
  | object entries, _, r =>
    let parts := evaluateEntries w entries r
    (resolveObject (Fields.keys entries) parts.1, parts.2)
  | root name, _, r =>
    let target := r.member w r.root name
    target.2.access w name target.1
  | step parent name, flag, r =>
    let base := parent.evaluate w flag r
    let target := base.2.member w base.1 name
    target.2.access w (step parent name).pathKey target.1
  | call (root name) args, flag, r =>
    let target := r.member w r.root name
    target.2.apply w name target.1 (evaluateAll w args flag)
  | call (step parent name) args, flag, r =>
    let base := parent.evaluate w flag r
    let target := base.2.member w base.1 name
    target.2.apply w (step parent name).pathKey target.1 (evaluateAll w args flag)
  | call _ _, _, r => (.absent, r)
  | comparison left op right, flag, r =>
    if flag then
      let lhs := left.evaluate w true r
      let rhs := right.evaluate w true lhs.2
      (.value (.bool (testResolved op lhs.1 rhs.1)), rhs.2)
    else (.value (.bool false), r)
  | chain _ [], _, r => (.value (.bool false), r)
  | chain op (first :: more), flag, r =>
    let head := first.evaluate w flag r
    let result := evaluateMore w op more flag head.1.isTruthy head.2
    (.value (.bool result.1), result.2)
  | group inner, flag, r => inner.evaluate w flag r

/-- What expressions come to, one after the other. -/
def evaluateAll (w : World σ) : List Expr → (flag : Bool) → Runner σ → List Resolved × Runner σ
  | [], _, r => ([], r)
  | e :: es, flag, r =>
    let head := e.evaluate w flag r
    let tail := evaluateAll w es flag head.2
    (head.1 :: tail.1, tail.2)

/-- What the values of an object literal come to, one after the other. -/
def evaluateEntries (w : World σ) :
    List (String × Expr) → Runner σ → List Resolved × Runner σ
  | [], r => ([], r)
  | (_, e) :: entries, r =>
    let head := e.evaluate w true r
    let tail := evaluateEntries w entries head.2
    (head.1 :: tail.1, tail.2)

/-- The value of a chain that stands at `value`, with more operands to come. Once the value is
decided the operands are passed over with the flag off. -/
def evaluateMore (w : World σ) (op : Connector) :
    List Expr → (flag : Bool) → (value : Bool) → Runner σ → Bool × Runner σ
  | [], _, value, r => (value, r)
  | e :: es, flag, value, r =>
    if op.decides value then
      let skipped := e.evaluate w false r
      evaluateMore w op es flag value skipped.2
    else
      let operand := e.evaluate w flag r
      evaluateMore w op es flag operand.1.isTruthy operand.2

end

/-- Whether the query holds, in one pass over it. -/
def holds (w : World σ) (e : Expr) (r : Runner σ) : Bool × Runner σ :=
  let result := e.evaluate w true r
  (result.1.isTruthy, result.2)

end FilterQuery.Expr
