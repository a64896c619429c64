import FilterQuery.World

/-!
# Runner — the state of one evaluation

A runner remembers under every key what a capability called under it has answered, so no key has a
capability called twice (`Runner.invoke`). Deferred answers are queued; `Runner.settle` waits for
all of them, the one with the least delay first.
-/

namespace FilterQuery

/-- What a part of a query comes to. -/
inductive Resolved where
  /-- There is no such member, or no context. -/
  | absent
  /-- It waits for a deferred value. -/
  | pending
  | value (v : Value)
  deriving Inhabited

namespace Resolved

/-- Only values count as true. -/
def isTruthy : Resolved → Bool
  | value v => v.isTruthy
  | absent | pending => false

/-- What stands for the result among the parts of a larger value: null if it is absent, nothing yet
if it is pending. -/
def orNull? : Resolved → Option Value
  | absent => some .null
  | pending => none
  | value v => some v

/-- A value that may be missing. -/
def ofOption : Option Value → Resolved
  | some v => value v
  | none => absent

end Resolved

/-- What is known under a key. -/
inductive Slot where
  | ready (value : Value)
  | pending

/-- A deferred answer, the key it was asked for under, and the capability that gave it. -/
structure Deferral (σ : Type) where
  key : String
  capability : Capability
  result : Deferred σ

namespace Deferral

variable {σ : Type}

/-- Inserts a deferral before those with the same or a greater delay. -/
def insert (d : Deferral σ) : List (Deferral σ) → List (Deferral σ)
  | [] => [d]
  | e :: rest =>
    if d.result.delay ≤ e.result.delay then d :: e :: rest else e :: insert d rest

/-- The order in which deferrals complete: by delay, and as they are for equal delays. -/
def byDelay (ds : List (Deferral σ)) : List (Deferral σ) :=
  ds.foldr insert []

end Deferral

/-- The state of an evaluation: the context, the memo, the deferred answers that have not been
waited for, how many there have been, the state of the world, and all that has happened to it. -/
structure Runner (σ : Type) where
  context : Option Value
  memo : Fields Slot
  pending : List (Deferral σ)
  deferredTotal : Nat
  world : σ
  log : List Event

namespace Runner

variable {σ : Type}

/-- A runner that knows nothing yet. -/
def start (context : Option Value) (world : σ) : Runner σ :=
  ⟨context, [], [], 0, world, []⟩

/-- The context itself. -/
def root (r : Runner σ) : Resolved :=
  .ofOption r.context

/-- The keys that wait for deferred values, in the order in which they were called. -/
def pendingKeys (r : Runner σ) : List String :=
  r.pending.map Deferral.key

/-- Calls a capability under a key that is new, and queues the answer if it is deferred. -/
def call (w : World σ) (key : String) (c : Capability) (args : List Value) (r : Runner σ) :
    Resolved × Runner σ :=
  let answer := w.call c args r.world
  let called : Runner σ := { r with world := answer.2, log := r.log ++ [.call key c args] }
  match answer.1 with
  | .immediate v => (.value v, { called with memo := Fields.insert r.memo key (.ready v) })
  | .deferred result =>
    (.pending, { called with
      memo := Fields.insert r.memo key .pending
      pending := r.pending ++ [⟨key, c, result⟩]
      deferredTotal := r.deferredTotal + 1 })

/-- **Calls a capability unless its key is known,** whatever it was called with then. -/
def invoke (w : World σ) (key : String) (c : Capability) (args : List Value) (r : Runner σ) :
    Resolved × Runner σ :=
  match Fields.get? r.memo key with
  | some (.ready v) => (.value v, r)
  | some .pending => (.pending, r)
  | none => r.call w key c args

/-- Receives a deferred value and keeps it under its key. -/
def complete (r : Runner σ) (d : Deferral σ) : Runner σ :=
  let answer := d.result.finish r.world
  { r with
    world := answer.2
    memo := Fields.insert r.memo d.key (.ready answer.1)
    log := r.log ++ [.done d.key d.capability answer.1] }

/-- Waits for every deferred value. -/
def settle (r : Runner σ) : Runner σ :=
  (Deferral.byDelay r.pending).foldl complete { r with pending := [] }

/-- The member of a value. Objects have their fields, hosts are asked, and nothing else has any. -/
def lookup (w : World σ) (v : Value) (name : String) (r : Runner σ) : Option Value × Runner σ :=
  match v with
  | .object fields => (fields.get? name, r)
  | .host h =>
    let answer := w.lookup h name r.world
    (answer.1, { r with world := answer.2, log := r.log ++ [.get h name] })
  | _ => (none, r)

/-- The member of what a path has come to so far. -/
def member (w : World σ) (base : Resolved) (name : String) (r : Runner σ) :
    Resolved × Runner σ :=
  match base with
  | .value v =>
    let answer := r.lookup w v name
    (.ofOption answer.1, answer.2)
  | unresolved => (unresolved, r)

/-- The value of a path that ends at `target`: a capability is invoked without arguments. -/
def access (w : World σ) (key : String) (target : Resolved) (r : Runner σ) :
    Resolved × Runner σ :=
  match target with
  | .value (.capability c) => r.invoke w key c []
  | other => (other, r)

/-- The results that stand for parts of a value, unless one of them is pending. -/
def gather (parts : List Resolved) : Option (List Value) :=
  parts.mapM Resolved.orNull?

/-- The value of a call that ends at `target`. Only a capability can be called, and only once all of
its arguments, which are evaluated here, are there. -/
def apply (w : World σ) (key : String) (target : Resolved)
    (arguments : Runner σ → List Resolved × Runner σ) (r : Runner σ) : Resolved × Runner σ :=
  match target with
  | .value (.capability c) =>
    let args := arguments r
    match gather args.1 with
    | some values => args.2.invoke w key c values
    | none => (.pending, args.2)
  | .value _ => (.absent, r)
  | unresolved => (unresolved, r)

end Runner

end FilterQuery
