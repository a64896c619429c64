import FilterQuery.Binary64.Decimal
import FilterQuery.Fields

/-!
# Value — what flows through a query

The JSON types with integers kept apart from floats, and two opaque handles: a capability, which a
query invokes, and a host, which answers member lookups itself. A handle is known by its identity
only; what it does is told by a `World`.
-/

namespace FilterQuery

/-- Something that has to be invoked to obtain its value. Two capabilities are the same exactly if
their identities are. -/
structure Capability where
  id : Nat
  deriving DecidableEq, Inhabited

/-- An object that answers member lookups itself, known by its identity. -/
structure Host where
  id : Nat
  deriving DecidableEq, Inhabited

/-- A value of a context or of a query. -/
inductive Value where
  | null
  | bool (b : Bool)
  | int (n : Int64)
  | float (x : Float)
  | str (s : String)
  | array (items : List Value)
  | object {keys : List String} (fields : Table Value keys)
  | capability (c : Capability)
  | host (h : Host)
  deriving Inhabited

namespace Value

/-- The object made of the pairs in order; a later pair overwrites an earlier one of its key. -/
def ofPairs (pairs : List (String × Value)) : Value :=
  .object (Table.ofFields (Fields.ofList pairs) (Fields.nodup_keys_ofList pairs))

/-- Induction on what values are made of: the items of an array, the values of an object. -/
@[elab_as_elim, induction_eliminator]
theorem induction {motive : Value → Prop} (null : motive null) (bool : ∀ b, motive (bool b))
    (int : ∀ n, motive (int n)) (float : ∀ x, motive (float x)) (str : ∀ s, motive (str s))
    (array : ∀ items, (∀ v ∈ items, motive v) → motive (array items))
    (object : ∀ {keys} (fields : Table Value keys), (∀ entry ∈ fields.entries, motive entry.2) →
      motive (object fields))
    (capability : ∀ c, motive (capability c)) (host : ∀ h, motive (host h)) (v : Value) :
    motive v :=
  @Value.rec motive (fun items => ∀ v ∈ items, motive v)
    (fun _ fields => ∀ entry ∈ fields.entries, motive entry.2)
    null bool int float str array object capability host
    (List.forall_mem_nil _) (fun _ _ hv hvs => List.forall_mem_cons.2 ⟨hv, hvs⟩)
    (List.forall_mem_nil _) (fun _ _ _ _ hv hrest => List.forall_mem_cons.2 ⟨hv, hrest⟩) v

/-- Null, `false`, zero, NaN and the empty string do not count as true; everything else does. -/
def isTruthy : Value → Bool
  | null => false
  | bool b => b
  | int n => n != 0
  | float x =>
    match Binary64.ofFloat x with
    | .nan => false
    | parts => !parts.isZero
  | str s => !s.isEmpty
  | array _ | object _ | capability _ | host _ => true

/-- The integer nearest to `n` that an `int` can hold. -/
def clamp (n : Int) : Int64 :=
  Int64.ofInt (max Int64.minValue.toInt (min Int64.maxValue.toInt n))

/-- The value as an integer. Floats without a fraction count, at the bounds if they lie beyond. -/
def toInt? : Value → Option Int64
  | int n => some n
  | float x => (Binary64.ofFloat x).toInt?.map clamp
  | _ => none

end Value

end FilterQuery
