import FilterQuery.Value

/-!
# Scripted/Blueprint — values described before they are built

A blueprint describes a value that may hold capabilities and hosts. A capability answers from a list
or computes its answer from the arguments and from how often it has been called; a host has a list
of members, which it keeps or makes anew for every lookup.
-/

namespace FilterQuery.Scripted

/-- When a capability answers: at once, later, or later exactly if its first argument counts as
true. -/
inductive Timing where
  | now
  | later
  | mixed
  deriving DecidableEq, Inhabited

/-- The functions that a capability can compute. -/
inductive Function where
  | args
  | first
  | nargs
  | count
  | sum
  | truthy
  deriving DecidableEq, Inhabited

/-- What a capability is called, when it answers, and for how many rounds a late answer stays
away. -/
structure Profile where
  id : String
  timing : Timing
  delay : Nat
  deriving DecidableEq, Inhabited

/-- The description of a value. -/
inductive Blueprint where
  | constant (v : Value)
  | array (items : List Blueprint)
  | object (entries : List (String × Blueprint))
  /-- The value that has been registered under a name. -/
  | reference (name : String)
  /-- A capability that answers with one value after the other, and with the last one for ever. -/
  | replies (profile : Profile) (values : List Blueprint)
  /-- A capability that computes its answers. -/
  | computes (profile : Profile) (f : Function)
  | host (id : String) (fresh : Bool) (members : List (String × Blueprint))
  deriving Inhabited

/-- The value of a function, for the arguments of a call and its number, counted from one. -/
def Function.value (f : Function) (args : List Value) (call : Nat) : Value :=
  match f with
  | .args => .array args
  | .first => args.head?.getD .null
  | .nargs => .int (Int64.ofNat args.length)
  | .count => .int (Int64.ofNat call)
  | .sum => .int ((args.filterMap Value.toInt?).foldl (· + ·) 0)
  | .truthy => .bool (args.all Value.isTruthy)

/-- Whether a call is answered later. -/
def Timing.isDeferred (timing : Timing) (args : List Value) : Bool :=
  match timing with
  | .now => false
  | .later => true
  | .mixed => args.head?.any Value.isTruthy

end FilterQuery.Scripted
