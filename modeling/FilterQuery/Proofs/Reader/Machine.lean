import FilterQuery.Grammar.Parser

/-!
# Proofs/Reader/Machine — the parser, step by step

    tokens    a  =  (  1  AND  b  =  2  end of input
    stand     0:0 → 0:1 → 1:1 → 1:0 → 2:0          position : depth, a path and a comparator
              2:0 → 3:0 → … → 8:0                  no value, and its bracket stays open to the end

A **machine** is a parser that walks over its tokens by position and counts how deep it is in
nested rules, up and down again.  It calls its rules and repeats its loops for as long as it takes,
so it need not come to an end; nor does it if it leaves a rule that it has not entered, or asks for
tokens that are not there.  All stands that it has had are kept.  The rules read from left to right
what `Grammar` reads by recursion on a budget and on what is left, and **it is a theorem that they
come to the same end** (`Proofs/Reader/Safety`).
-/

namespace FilterQuery

open Grammar (endToken decode unexpected tooDeep Joint joint? changesConnector)

/-- How many tokens have been taken, and how many nested rules have been entered and not left. -/
structure Stand where
  position : Nat
  depth : Nat
  deriving DecidableEq, Inhabited

/-- A parser that counts: its tokens and where they end, where it stands, the stands it has had
before, the latest first, and the errors recorded. -/
structure Reader where
  tokens : List Token
  finish : Nat
  stand : Stand
  before : List Stand
  errors : List SyntaxError

namespace Reader

/-- A reader before the first of some tokens. -/
def ofTokens (tokens : List Token) : Reader where
  tokens
  finish := (Parser.ofTokens tokens).finish
  stand := ⟨0, 0⟩
  before := []
  errors := []

/-- All stands, the latest first. -/
def trail (r : Reader) : List Stand :=
  r.stand :: r.before

/-- The reader at another stand. -/
def goTo (r : Reader) (stand : Stand) : Reader :=
  { r with stand, before := r.trail }

end Reader

/-- A computation that need not come to an end. -/
abbrev Machine (α : Type) := StateT Reader Option α

namespace Machine

variable {α β : Type}

/-! ## Single steps -/

/-- How many tokens have been taken. -/
def position : Machine Nat := do
  return (← get).stand.position

/-- How many nested rules have been entered and not left. -/
def depth : Machine Nat := do
  return (← get).stand.depth

/-- The token at the position, which stays. -/
def current : Machine Token := do
  let r ← get
  return r.tokens[r.stand.position]?.getD (endToken r.finish)

/-- Takes the token at the position, if there is one. -/
def advance : Machine Token := do
  let t ← current
  let r ← get
  if r.stand.position < r.tokens.length then set (r.goTo ⟨r.stand.position + 1, r.stand.depth⟩)
  return t

/-- Enters a nested rule. -/
def enter : Machine Unit := do
  let r ← get
  set (r.goTo ⟨r.stand.position, r.stand.depth + 1⟩)

/-- Leaves a nested rule, which has to have been entered. -/
def leave : Machine Unit := do
  let r ← get
  match r.stand.depth with
  | 0 => failure
  | depth + 1 => set (r.goTo ⟨r.stand.position, depth⟩)

/-- Records an error. -/
def record (e : SyntaxError) : Machine Unit := do
  let r ← get
  set { r with errors := r.errors ++ [e] }

/-- Hands the recorded errors out. -/
def takeErrors : Machine (List SyntaxError) := do
  let r ← get
  set { r with errors := [] }
  return r.errors

/-- The tokens from `start` up to the position, which have to be there. -/
def taken (start : Nat) : Machine (List Token) := do
  let r ← get
  if start ≤ r.stand.position ∧ r.stand.position ≤ r.tokens.length then
    return (r.tokens.take r.stand.position).drop start
  else failure

/-! ## Rules in general -/

/-- Goes on with what a rule has read, and not if it has failed. -/
@[reducible] def andThen (rule : Machine (Except SyntaxError α))
    (next : α → Machine (Except SyntaxError β)) : Machine (Except SyntaxError β) := do
  match ← rule with
  | .ok a => next a
  | .error e => return .error e

/-- Runs a rule one level deeper, up to a limit, and comes back whether it fails or not. -/
@[reducible] def nested (limit : Nat) (rule : Machine (Except SyntaxError α)) :
    Machine (Except SyntaxError α) := do
  if limit ≤ (← depth) then return .error (tooDeep (← current))
  else
    enter
    let result ← rule
    leave
    return result

/-- Takes a token of a kind. -/
def expect (kind : Token.Kind) : Machine (Except SyntaxError Token) := do
  let t ← current
  if t.kind = kind then return .ok (← advance) else return .error (unexpected (.kind kind) t)

/-- Takes the closing mark of a list. -/
def close (p : Punct) : Machine (Except SyntaxError Unit) := do
  let t ← current
  if t.kind = .punct p then
    let _ ← advance
    return .ok ()
  else return .error (unexpected (.commaOr p) t)

/-- What `items` reads up to and including a closing mark, or `none` if that comes at once. -/
@[reducible] def listed (p : Punct) (none : α) (items : Machine (Except SyntaxError α)) :
    Machine (Except SyntaxError α) := do
  let t ← current
  andThen (if t.kind = .punct p then return .ok none else items) fun a =>
    andThen (close p) fun _ => return .ok a

/-! ## Rules that call no others -/

/-- A literal that is one token. -/
def literal : Machine (Except SyntaxError Expr) := do
  let t ← advance
  match decode t with
  | .ok v => return .ok (.literal v t.lexeme)
  | .error e => return .error e

/-- A key of an object. -/
def key : Machine (Except SyntaxError String) :=
  andThen (expect (.literal .string)) fun t => do
    match decode t with
    | .ok (.str k) => return .ok k
    | .ok _ => return .error ⟨t.offset, .keyNotString⟩
    | .error e => return .error e

/-- What has been joined and how often it changes its connector with one more joint. If that is more
often than the depth leaves room for, up to a limit, it is given up. -/
def charge (limit : Nat) (joined : Option Expr) (joint : Joint) (changes : Nat) :
    Machine (Option Expr × Nat) := do
  if changesConnector joined joint.op then
    if limit < (← depth) + (changes + 1) then
      record ⟨joint.offset, .tooDeep⟩
      return (none, changes + 1)
    else return (joined, changes + 1)
  else return (joined, changes)

end Machine

/-- Skips to where a condition with these brackets open ends. -/
def Brackets.skipFrom (opened : Brackets) : Machine Unit := do
  let t ← Machine.current
  if opened.stopsAt t.kind then return ()
  else
    let _ ← Machine.advance
    opened.track t.kind |>.skipFrom
partial_fixpoint

namespace Machine

/-- Skips to the end of the condition whose tokens are those from `start` on. -/
def synchronize (start : Nat) : Machine Unit := do
  let read ← taken start
  (Brackets.empty.trackAll read).skipFrom

/-- The rules that call one another, and how deep they may nest. -/
structure Rules where
  limit : Nat

namespace Rules

/-! ## Values -/

-- Rules call one another by `|>.`, which leaves no source positions in the terms as `.` would.

mutual

/-- A value. -/
def operand (rules : Rules) : Machine (Except SyntaxError Expr) := do
  let t ← current
  match t.kind with
  | .literal _ => literal
  | .punct .openBrace => nested rules.limit (rules |>.object)
  | .punct .openBracket => nested rules.limit (rules |>.array)
  | .segment => nested rules.limit (rules |>.path)
  | _ => return .error (unexpected .value t)
partial_fixpoint

/-- An object. -/
def object (rules : Rules) : Machine (Except SyntaxError Expr) := do
  let _ ← advance
  andThen (listed .closeBrace [] (rules |>.entries [])) fun fields => return .ok (.object fields)
partial_fixpoint

/-- An entry of an object. -/
def entry (rules : Rules) : Machine (Except SyntaxError (String × Expr)) :=
  andThen key fun k =>
    andThen (expect (.punct .colon)) fun _ =>
      andThen (rules |>.operand) fun v => return .ok (k, v)
partial_fixpoint

/-- The entries of an object after those in `fields`. -/
def entries (rules : Rules) (fields : Fields Expr) :
    Machine (Except SyntaxError (Fields Expr)) :=
  andThen (rules |>.entry) fun new => do
    let t ← current
    if t.kind = .punct .comma then
      let _ ← advance
      rules |>.entries (fields.insert new.1 new.2)
    else return .ok (fields.insert new.1 new.2)
partial_fixpoint

/-- An array. -/
def array (rules : Rules) : Machine (Except SyntaxError Expr) := do
  let _ ← advance
  andThen (listed .closeBracket [] (rules |>.items [])) fun values => return .ok (.array values)
partial_fixpoint

/-- The items of a list after `values`. -/
def items (rules : Rules) (values : List Expr) : Machine (Except SyntaxError (List Expr)) :=
  andThen (rules |>.operand) fun value => do
    let t ← current
    if t.kind = .punct .comma then
      let _ ← advance
      rules |>.items (values ++ [value])
    else return .ok (values ++ [value])
partial_fixpoint

/-- The call of `callee` with the arguments that follow. -/
def call (rules : Rules) (callee : Expr) : Machine (Except SyntaxError Expr) := do
  let _ ← advance
  andThen (listed .closeParen [] (rules |>.items [])) fun args => return .ok (.call callee args)
partial_fixpoint

/-- A name after `parent`, and a call of it if arguments follow. -/
def segment (rules : Rules) (parent : Option Expr) : Machine (Except SyntaxError Expr) :=
  andThen (expect .segment) fun name => do
    let t ← current
    if t.kind = .punct .openParen then
      rules |>.call (parent.elim (Expr.root name.lexeme) (Expr.step · name.lexeme))
    else return .ok (parent.elim (Expr.root name.lexeme) (Expr.step · name.lexeme))
partial_fixpoint

/-- The steps after `path`, which has had `count` of them. -/
def steps (rules : Rules) (path : Expr) (count : Nat) : Machine (Except SyntaxError Expr) := do
  let t ← current
  if t.kind = .punct .period then
    let _ ← advance
    let t ← current
    if rules.limit < (← depth) + (count + 1) then return .error (tooDeep t)
    else if t.kind = .punct .openParen then
      if path.isCall then return .error ⟨t.offset, .calledTwice⟩
      else andThen (rules |>.call path) fun next => rules |>.steps next (count + 1)
    else andThen (rules |>.segment (some path)) fun next => rules |>.steps next (count + 1)
  else return .ok path
partial_fixpoint

/-- A path. -/
def path (rules : Rules) : Machine (Except SyntaxError Expr) :=
  andThen (rules |>.segment none) fun first => rules |>.steps first 0
partial_fixpoint

end

/-! ## Conditions -/

/-- Two values with a comparator between them. -/
def comparison (rules : Rules) : Machine (Except SyntaxError Expr) :=
  andThen rules.operand fun left => do
    let t ← current
    match t.kind with
    | .comparator op =>
      let _ ← advance
      andThen rules.operand fun right => return .ok (.comparison left op right)
    | _ => return .error (unexpected .comparator t)

mutual

/-- A condition. -/
def condition (rules : Rules) : Machine (Option Expr) := do
  let first ← rules |>.recovering
  rules |>.chain first 0
partial_fixpoint

/-- The atoms after those joined so far, which change the connector `changes` times. -/
def chain (rules : Rules) (joined : Option Expr) (changes : Nat) : Machine (Option Expr) := do
  let t ← current
  match joint? t with
  | none => return joined
  | some joint =>
    let charged ← charge rules.limit joined joint changes
    let _ ← advance
    let operand ← rules |>.recovering
    rules |>.chain (charged.1.bind fun left => operand.map (left.join joint.op)) charged.2
partial_fixpoint

/-- An atom; one that fails is recorded and skipped. -/
def recovering (rules : Rules) : Machine (Option Expr) := do
  let start ← position
  match ← rules |>.atom with
  | .ok expr => return expr
  | .error e =>
    record e
    synchronize start
    return none
partial_fixpoint

/-- A group or a comparison. -/
def atom (rules : Rules) : Machine (Except SyntaxError (Option Expr)) := do
  let t ← current
  if t.kind = .punct .openParen then nested rules.limit (rules |>.group)
  else andThen rules.comparison fun e => return .ok (some e)
partial_fixpoint

/-- A condition in parentheses. -/
def group (rules : Rules) : Machine (Except SyntaxError (Option Expr)) := do
  let _ ← advance
  let inner ← rules |>.condition
  let t ← current
  if t.kind = .punct .closeParen then
    let _ ← advance
    return .ok (inner.map .group)
  else return .error (unexpected .connectorOrCloseParen t)
partial_fixpoint

end

/-- A condition that has to be all that is left. -/
def whole (rules : Rules) : Machine (Except (List SyntaxError) Expr) := do
  let expr ← rules.condition
  let t ← current
  if t.kind ≠ .endOfInput then record (unexpected .connectorOrEnd t)
  let errors ← takeErrors
  return match expr, errors with
    | some e, [] => .ok e
    | _, _ => .error errors

end Rules

/-- The rules with the limit that a parser has. -/
def rules : Rules where
  limit := maxDepth

@[simp] theorem rules_limit : rules.limit = maxDepth := rfl

end Machine

end FilterQuery
