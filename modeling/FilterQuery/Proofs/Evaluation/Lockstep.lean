import FilterQuery.Expr.Evaluation

/-!
# Proofs/Evaluation/Lockstep — two evaluations of one expression, step by step

    w     lookup ──▸ invoke ──▸ lookup ──▸ …
            │ P        │ P        │ P          steps that are paired, one after the other,
    w'    lookup ──▸ invoke ──▸ lookup ──▸ …   make evaluations that are paired

An evaluation is a sequence of lookups and invocations, and which of them comes next depends on what
the ones before have come to, and on nothing else.  So a relation between two such sequences that
holds of single steps, and that sequences inherit from their parts (`Lockstep`), **holds of the
evaluations of every expression** (`Lockstep.evaluate`), be it in two worlds or twice in one.
-/

namespace FilterQuery

variable {σ τ : Type} {w : World σ} {w' : World τ}
  {P : ∀ α : Type, (Runner σ → α × Runner σ) → (Runner τ → α × Runner τ) → Prop}

namespace Runner

/-- The relation holds of lookups and invocations in the two worlds, and so of sequences of them.
Whatever a sequence does after a part of it may depend on the result of this part. -/
structure Lockstep (w : World σ) (w' : World τ)
    (P : ∀ α : Type, (Runner σ → α × Runner σ) → (Runner τ → α × Runner τ) → Prop) : Prop where
  pure : ∀ {α : Type} (a : α), P α (fun r => (a, r)) fun r => (a, r)
  bind : ∀ {α β : Type} {f : Runner σ → α × Runner σ} {f' : Runner τ → α × Runner τ}
    {g : α → Runner σ → β × Runner σ} {g' : α → Runner τ → β × Runner τ},
    P α f f' → (∀ a, P β (g a) (g' a)) →
      P β (fun r => g (f r).1 (f r).2) fun r => g' (f' r).1 (f' r).2
  root : P Resolved (fun r => (r.root, r)) fun r => (r.root, r)
  lookup : ∀ v name, P _ (fun r => r.lookup w v name) fun r => r.lookup w' v name
  invoke : ∀ key c args, P _ (fun r => r.invoke w key c args) fun r => r.invoke w' key c args

namespace Lockstep

theorem map (h : Lockstep w w' P) {α β : Type} {f : Runner σ → α × Runner σ}
    {f' : Runner τ → α × Runner τ} (hf : P α f f') (g : α → β) :
    P β (fun r => (g (f r).1, (f r).2)) fun r => (g (f' r).1, (f' r).2) :=
  h.bind hf fun a => h.pure (g a)

/-! ## Steps along a path -/

theorem member (h : Lockstep w w' P) (base : Resolved) (name : String) :
    P _ (fun r => r.member w base name) fun r => r.member w' base name := by
  cases base with
  | absent => exact h.pure Resolved.absent
  | pending => exact h.pure Resolved.pending
  | value v => exact h.map (h.lookup v name) Resolved.ofOption

theorem access (h : Lockstep w w' P) (key : String) (target : Resolved) :
    P _ (fun r => r.access w key target) fun r => r.access w' key target := by
  unfold Runner.access
  split
  · exact h.invoke key _ []
  · exact h.pure _

theorem apply (h : Lockstep w w' P) (key : String) (target : Resolved)
    {f : Runner σ → List Resolved × Runner σ} {f' : Runner τ → List Resolved × Runner τ}
    (hargs : P _ f f') :
    P _ (fun r => r.apply w key target f) fun r => r.apply w' key target f' := by
  cases target with
  | absent => exact h.pure Resolved.absent
  | pending => exact h.pure Resolved.pending
  | value v =>
    cases v with
    | capability c =>
      -- what follows the arguments is the same call, with arguments that are there already
      have hthen : ∀ parts : List Resolved, P Resolved
          (fun r => r.apply w key (.value (.capability c)) fun s => (parts, s))
          fun r => r.apply w' key (.value (.capability c)) fun s => (parts, s) := fun parts => by
        rcases hparts : gather parts with _ | values
        · simp only [Runner.apply, hparts]
          exact h.pure Resolved.pending
        · simp only [Runner.apply, hparts]
          exact h.invoke key c values
      exact h.bind hargs hthen
    | _ => exact h.pure Resolved.absent

theorem memberOfRoot (h : Lockstep w w' P) (name : String) :
    P _ (fun r => r.member w r.root name) fun r => r.member w' r.root name :=
  h.bind h.root fun base => h.member base name

/-! ## Expressions -/

mutual

/-- **What is in step along lookups and invocations is in step along evaluations.** -/
theorem evaluate (h : Lockstep w w' P) : ∀ (e : Expr) (flag : Bool),
    P _ (e.evaluate w flag) (e.evaluate w' flag)
  | .literal v _, _ => h.pure (Resolved.value v)
  | .array items, _ => h.map (h.evaluateAll items true) Expr.resolveArray
  | .object entries, _ =>
    h.map (h.evaluateEntries entries) (Expr.resolveObject (Fields.keys entries))
  | .root name, _ => h.bind (h.memberOfRoot name) (h.access name)
  | .step parent name, flag =>
    h.bind (h.bind (h.evaluate parent flag) fun base => h.member base name) (h.access _)
  | .call (.root name) args, flag =>
    h.bind (h.memberOfRoot name) fun target => h.apply name target (h.evaluateAll args flag)
  | .call (.step parent name) args, flag =>
    h.bind (h.bind (h.evaluate parent flag) fun base => h.member base name) fun target =>
      h.apply _ target (h.evaluateAll args flag)
  | .call (.literal _ _) _, _ | .call (.array _) _, _ | .call (.object _) _, _
  | .call (.call _ _) _, _ | .call (.comparison _ _ _) _, _ | .call (.chain _ _) _, _
  | .call (.group _) _, _ => h.pure Resolved.absent
  | .comparison left op right, true =>
    h.bind (h.evaluate left true) fun l =>
      h.map (h.evaluate right true) fun r => Resolved.value (.bool (Expr.testResolved op l r))
  | .comparison _ _ _, false => h.pure (Resolved.value (.bool false))
  | .chain _ [], _ => h.pure (Resolved.value (.bool false))
  | .chain op (first :: more), flag =>
    h.map (h.bind (h.evaluate first flag) fun head => h.evaluateMore op more flag head.isTruthy)
      fun b => Resolved.value (.bool b)
  | .group inner, flag => h.evaluate inner flag

theorem evaluateAll (h : Lockstep w w' P) : ∀ (es : List Expr) (flag : Bool),
    P _ (Expr.evaluateAll w es flag) (Expr.evaluateAll w' es flag)
  | [], _ => h.pure []
  | e :: es, flag => h.bind (h.evaluate e flag) fun x => h.map (h.evaluateAll es flag) (x :: ·)

theorem evaluateEntries (h : Lockstep w w' P) : ∀ entries : List (String × Expr),
    P _ (Expr.evaluateEntries w entries) (Expr.evaluateEntries w' entries)
  | [] => h.pure []
  | (_, e) :: entries =>
    h.bind (h.evaluate e true) fun x => h.map (h.evaluateEntries entries) (x :: ·)

/-- The rest of a chain goes in step: both sides stop at the same operand. -/
theorem evaluateMore (h : Lockstep w w' P) (op : Connector) :
    ∀ (es : List Expr) (flag value : Bool),
      P _ (Expr.evaluateMore w op es flag value) (Expr.evaluateMore w' op es flag value)
  | [], _, value => h.pure value
  | e :: es, flag, value => by
    change P _ (fun r => Expr.evaluateMore w op (e :: es) flag value r)
      fun r => Expr.evaluateMore w' op (e :: es) flag value r
    simp only [Expr.evaluateMore]
    split
    · exact h.bind (h.evaluate e false) fun _ => h.evaluateMore op es flag value
    · exact h.bind (h.evaluate e flag) fun x => h.evaluateMore op es flag x.isTruthy

end

end Lockstep

end Runner

end FilterQuery
