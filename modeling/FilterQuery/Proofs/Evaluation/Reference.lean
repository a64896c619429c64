import FilterQuery.Expr.Evaluation
import FilterQuery.Proofs.Expr.Keys

/-!
# Proofs/Evaluation/Reference — what a query means when nothing is remembered

A `Reference` is a context, the members of hosts and the answers of capabilities as functions.
`denote` folds a path from the root, calls every capability it meets afresh and waits for nothing.
**Under a key one call is made at most** (`Calls.unique`), given that the query is coherent: sites
with one key that both come to something come to the same.  So there is one answer under it
(`Reaches.unique`), and that makes a memo by keys harmless.
-/

namespace FilterQuery

/-- A context, and what hosts and capabilities answer. -/
structure Reference where
  context : Option Value
  member : Host → String → Option Value
  answer : Capability → List Value → Value

namespace Reference

variable (ref : Reference)

/-- The member of a value. -/
def lookup (v : Value) (name : String) : Option Value :=
  match v with
  | .object fields => fields.get? name
  | .host h => ref.member h name
  | _ => none

/-- The value of a path that ends at a target. -/
def access : Option Value → Option Value
  | some (.capability c) => some (ref.answer c [])
  | target => target

/-- The value of a call that ends at a target. -/
def apply (args : List Value) : Option Value → Option Value
  | some (.capability c) => some (ref.answer c args)
  | _ => none

/-- Whether a comparison holds of two results. -/
def test (op : Comparator) : Option Value → Option Value → Bool
  | some v, some w => op.test v w
  | _, _ => false

/-- Whether a result counts as true. -/
def truthy : Option Value → Bool
  | some v => v.isTruthy
  | none => false

mutual

/-- What a path stands at before a capability there is called. -/
def target : Expr → Option Value
  | .root name => ref.context.bind (ref.lookup · name)
  | .step parent name => (denote parent).bind (ref.lookup · name)
  | _ => none

/-- The value of an expression. -/
def denote : Expr → Option Value
  | .literal v _ => some v
  | .array items => some (.array (denoteAll items))
  | .object entries => some (.ofPairs ((Fields.keys entries).zip (denoteEntries entries)))
  | .root name => ref.access (ref.context.bind (ref.lookup · name))
  | .step parent name => ref.access ((denote parent).bind (ref.lookup · name))
  | .call callee args => ref.apply (denoteAll args) (target callee)
  | .comparison left op right => some (.bool (test op (denote left) (denote right)))
  | .chain _ [] => some (.bool false)
  | .chain op (first :: more) => some (.bool (denoteMore op more (truthy (denote first))))
  | .group inner => denote inner

/-- The values of parts, with null for those that have none. -/
def denoteAll : List Expr → List Value
  | [] => []
  | e :: es => (denote e).getD .null :: denoteAll es

/-- The values of object entries, with null for those that have none. -/
def denoteEntries : List (String × Expr) → List Value
  | [] => []
  | (_, e) :: entries => (denote e).getD .null :: denoteEntries entries

/-- The value of a chain that stands at `value`: what decides it ends it. -/
def denoteMore (op : Connector) : List Expr → (value : Bool) → Bool
  | [], value => value
  | e :: es, value =>
    if op.decides value then denoteMore op es value else denoteMore op es (truthy (denote e))

end

/-! ## Sites with one key -/

open FilterQuery.Expr

variable {ref : Reference}

/-- What a site stands at before its capability is called, whether it is called with arguments or
without. -/
def siteTarget (ref : Reference) : Expr → Option Value
  | .call callee _ => ref.target callee
  | e => ref.target e

/-- Two results agree if they are the same, once both are there. -/
def Agree (a b : Option Value) : Prop :=
  ∀ v ∈ a, ∀ w ∈ b, v = w

theorem Agree.bind {a b : Option Value} (h : Agree a b) (f : Value → Option Value) :
    Agree (a.bind f) (b.bind f) := by
  intro v hv w hw
  obtain ⟨x, hx, hxv⟩ := Option.bind_eq_some_iff.1 hv
  obtain ⟨y, hy, hyw⟩ := Option.bind_eq_some_iff.1 hw
  rw [h x hx y hy, hyw] at hxv
  exact (Option.some.inj hxv).symm

theorem denote_root (name : String) :
    ref.denote (.root name) = ref.access (ref.siteTarget (.root name)) := rfl

theorem denote_step (parent : Expr) (name : String) :
    ref.denote (.step parent name) = ref.access (ref.siteTarget (.step parent name)) := rfl

theorem denote_call (callee : Expr) (args : List Expr) :
    ref.denote (.call callee args) =
      ref.apply (ref.denoteAll args) (ref.siteTarget (.call callee args)) := rfl

/-- A site that stands at a capability comes to its answer. -/
theorem denote_of_capability {p : Expr} (hp : IsPath p) {c : Capability}
    (h : ref.siteTarget p = some (.capability c)) :
    ref.denote p = some (ref.answer c (ref.denoteAll p.arguments)) := by
  cases hp with
  | root =>
    rw [denote_root, h]
    rfl
  | step =>
    rw [denote_step, h]
    rfl
  | call =>
    rw [denote_call, h]
    rfl

/-- A site that stands at anything else comes to that, if to anything. -/
theorem denote_of_not_capability {p : Expr} (hp : IsPath p)
    (h : ∀ c, ref.siteTarget p ≠ some (.capability c)) {v : Value} (hv : v ∈ ref.denote p) :
    v ∈ ref.siteTarget p := by
  cases hp with
  | root =>
    rw [denote_root, access] at hv
    · exact hv
    · exact h
  | step =>
    rw [denote_step, access] at hv
    · exact hv
    · exact h
  | call =>
    rw [denote_call, apply] at hv
    · cases hv
    · exact h

/-- **If two sites with the same arguments stand at the same, they come to the same.** -/
theorem agree_denote {p q : Expr} (hp : IsPath p) (hq : IsPath q)
    (h : Agree (ref.siteTarget p) (ref.siteTarget q)) (hargs : p.arguments = q.arguments) :
    Agree (ref.denote p) (ref.denote q) := by
  intro v hv w hw
  by_cases hc : ∃ c, ref.siteTarget p = some (.capability c)
  · obtain ⟨c, hc⟩ := hc
    rw [denote_of_capability hp hc] at hv
    by_cases hd : ∃ d, ref.siteTarget q = some (.capability d)
    · obtain ⟨d, hd⟩ := hd
      rw [denote_of_capability hq hd] at hw
      obtain rfl : c = d := Value.capability.inj (h _ hc _ hd)
      rw [← Option.some.inj hv, ← Option.some.inj hw, hargs]
    · have hwq := denote_of_not_capability hq (not_exists.1 hd) hw
      exact absurd ⟨c, hwq.trans (congrArg some (h _ hc _ hwq).symm)⟩ hd
  · have hvp := denote_of_not_capability hp (not_exists.1 hc) hv
    by_cases hd : ∃ d, ref.siteTarget q = some (.capability d)
    · obtain ⟨d, hd⟩ := hd
      exact absurd ⟨d, hvp.trans (congrArg some (h _ hvp _ hd))⟩ hc
    · have hwq := denote_of_not_capability hq (not_exists.1 hd) hw
      exact h _ hvp _ hwq

/-- A site with one name stands at a member of the context, any other one at a member of what the
path before its last name comes to. -/
theorem siteTarget_cases {p : Expr} (hp : IsPath p) :
    (∃ name, p.names = [name] ∧ ref.siteTarget p = ref.context.bind (ref.lookup · name)) ∨
      ∃ parent name, IsPath parent ∧ parent ∈ p.sites ∧ p.names = parent.names ++ [name] ∧
        ref.siteTarget p = (ref.denote parent).bind (ref.lookup · name) := by
  cases hp with
  | @root name => exact Or.inl ⟨name, rfl, rfl⟩
  | @step parent name hparent =>
    exact Or.inr ⟨parent, name, hparent, sites_subset_step _ _ hparent.mem_sites, rfl, rfl⟩
  | call hcallee hcall =>
    cases hcallee with
    | @root name => exact Or.inl ⟨name, rfl, rfl⟩
    | @step parent name hparent =>
      exact Or.inr ⟨parent, name, hparent,
        sites_subset_call_step _ _ _ hparent.mem_sites, rfl, rfl⟩
    | call => cases hcall

theorem append_singleton_ne_singleton {α : Type} {xs : List α} {a b : α} (h : xs ≠ []) :
    xs ++ [a] ≠ [b] := by
  intro heq
  have hlength := congrArg List.length heq
  rw [List.length_append, List.length_singleton, List.length_singleton] at hlength
  exact h (List.length_eq_zero_iff.1 (by omega))

/-- Sites with one chain of names stand at the same, if the paths before their last names agree. -/
theorem agree_siteTarget {p q : Expr} (hp : IsPath p) (hq : IsPath q) (hnames : p.names = q.names)
    (hparents : ∀ parent ∈ p.sites, ∀ parent' ∈ q.sites, parent.names = parent'.names →
      parent.names.length < p.names.length → Agree (ref.denote parent) (ref.denote parent')) :
    Agree (ref.siteTarget p) (ref.siteTarget q) := by
  rcases siteTarget_cases hp with ⟨name, hnp, htp⟩ | ⟨parent, name, hparent, hmem, hnp, htp⟩
  · rcases siteTarget_cases hq with ⟨name', hnq, htq⟩ | ⟨parent', name', hparent', -, hnq, -⟩
    · rw [hnp, hnq] at hnames
      obtain rfl : name = name' := List.singleton_inj.1 hnames
      rw [htp, htq]
      intro v hv w hw
      exact Option.some.inj (hv.symm.trans hw)
    · rw [hnp, hnq] at hnames
      exact absurd hnames.symm (append_singleton_ne_singleton hparent'.names_ne_nil)
  · rcases siteTarget_cases hq with ⟨name', hnq, -⟩ | ⟨parent', name', -, hmem', hnq, htq⟩
    · rw [hnp, hnq] at hnames
      exact absurd hnames (append_singleton_ne_singleton hparent.names_ne_nil)
    · have hlength : parent.names.length < p.names.length := by simp [hnp]
      rw [hnp, hnq] at hnames
      obtain ⟨hparentNames, hname⟩ := List.append_inj' hnames rfl
      obtain rfl := List.singleton_inj.1 hname
      rw [htp, htq]
      exact (hparents parent hmem parent' hmem' hparentNames hlength).bind _

/-- **Sites with one chain of names agree,** in what they stand at and in what they come to. -/
theorem agree_of_names_eq {e : Expr} (he : IsCondition e) (hcoherent : e.Coherent) {p q : Expr}
    (hp : p ∈ e.sites) (hq : q ∈ e.sites) (hnames : p.names = q.names) :
    Agree (ref.siteTarget p) (ref.siteTarget q) ∧ Agree (ref.denote p) (ref.denote q) := by
  obtain ⟨hpathp, hsubp⟩ := he.of_mem_sites p hp
  obtain ⟨hpathq, hsubq⟩ := he.of_mem_sites q hq
  have htarget : Agree (ref.siteTarget p) (ref.siteTarget q) := by
    refine agree_siteTarget hpathp hpathq hnames ?_
    intro parent hparent parent' hparent' hparentNames hlength
    exact (agree_of_names_eq he hcoherent (hsubp hparent) (hsubq hparent') hparentNames).2
  have hargs := hcoherent p hp q hq ((hpathp.pathKey_eq_iff hpathq).2 hnames)
  exact ⟨htarget, agree_denote hpathp hpathq htarget hargs⟩
termination_by p.names.length

/-! ## Calls and their values -/

/-- One of the sites has the key and stands at the capability, and these are its arguments. -/
def Calls (ref : Reference) (sites : List Expr) (key : String) (c : Capability)
    (args : List Value) : Prop :=
  ∃ p ∈ sites, p.pathKey = key ∧ ref.siteTarget p = some (.capability c) ∧
    args = ref.denoteAll p.arguments

theorem Calls.mono {sites sites' : List Expr} (h : sites ⊆ sites') {key : String} {c : Capability}
    {args : List Value} : ref.Calls sites key c args → ref.Calls sites' key c args :=
  fun ⟨p, hp, hcall⟩ => ⟨p, h hp, hcall⟩

/-- **Under one key one capability is called, with one list of arguments.** -/
theorem Calls.unique {e : Expr} (he : IsCondition e) (hcoherent : e.Coherent) {key : String}
    {c c' : Capability} {args args' : List Value} (h : ref.Calls e.sites key c args)
    (h' : ref.Calls e.sites key c' args') : c = c' ∧ args = args' := by
  obtain ⟨p, hp, hkey, hc, rfl⟩ := h
  obtain ⟨q, hq, hkey', hc', rfl⟩ := h'
  have hkeys : p.pathKey = q.pathKey := hkey.trans hkey'.symm
  have hnames := ((he.of_mem_sites p hp).1.pathKey_eq_iff (he.of_mem_sites q hq).1).1 hkeys
  obtain ⟨htarget, -⟩ := agree_of_names_eq he hcoherent hp hq hnames
  exact ⟨Value.capability.inj (htarget _ hc _ hc'), by rw [hcoherent p hp q hq hkeys]⟩

/-- A site of the query with this key stands at a capability, and this is its answer. -/
def Reaches (ref : Reference) (e : Expr) (key : String) (v : Value) : Prop :=
  ∃ p ∈ e.sites, p.pathKey = key ∧ ∃ c, ref.siteTarget p = some (.capability c) ∧
    v = ref.answer c (ref.denoteAll p.arguments)

/-- **There is one answer under a key at most.** -/
theorem Reaches.unique {e : Expr} (he : IsCondition e) (hcoherent : e.Coherent) {key : String}
    {v w : Value} (hv : ref.Reaches e key v) (hw : ref.Reaches e key w) : v = w := by
  obtain ⟨p, hp, hkey, c, hc, rfl⟩ := hv
  obtain ⟨q, hq, hkey', d, hd, rfl⟩ := hw
  obtain ⟨rfl, hargs⟩ :=
    Calls.unique he hcoherent ⟨p, hp, hkey, hc, rfl⟩ ⟨q, hq, hkey', hd, rfl⟩
  rw [hargs]

end Reference

end FilterQuery
