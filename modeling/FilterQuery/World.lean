import FilterQuery.Value

/-!
# World — what capabilities and hosts do

Values hold handles only. A world says what a capability does when it is called and which members a
host has; both may depend on a state of the world and change it, so a world can be as impure as it
likes. A capability answers at once or defers its answer.
-/

namespace FilterQuery

/-- A value that is not there yet: it stays away for `delay` rounds of asking and is then made by
`finish`. -/
structure Deferred (σ : Type) where
  delay : Nat
  finish : σ → Value × σ

/-- A value that is fixed when it is asked for, and of which nothing but the value arrives. -/
def Deferred.ofValue {σ : Type} (delay : Nat) (v : Value) : Deferred σ :=
  ⟨delay, fun s => (v, s)⟩

/-- The answer of a capability. -/
inductive Outcome (σ : Type) where
  | immediate (value : Value)
  | deferred (result : Deferred σ)

/-- The behaviour of capabilities and hosts, over a state. -/
structure World (σ : Type) where
  call : Capability → List Value → σ → Outcome σ × σ
  lookup : Host → String → σ → Option Value × σ

/-- What a query does to the world: it calls a capability under a key, asks a host for a member, or
receives a deferred value. -/
inductive Event where
  | call (key : String) (c : Capability) (args : List Value)
  | get (h : Host) (name : String)
  | done (key : String) (c : Capability) (value : Value)

end FilterQuery
