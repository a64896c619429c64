import FilterQuery.Proofs.Expr.Shape

/-!
# Proofs/Evaluation/Suppressed — what a chain passes over does nothing

    chain AND [1 = 2, f = 1, (g = 1 OR h = 1)]
               false  ──flag off──▸  ──flag off──▸  false, and nothing has been asked

Connectors and groups hand the flag down to comparisons, and a comparison with the flag off is false
without a look at its operands.  So **a test that is passed over is false and leaves the runner as
it is** (`IsTest.evaluate_false`), whatever values it compares, and what stands in a chain after the
operand that decides it does not matter (`skipped_conditions_inert`).
-/

namespace FilterQuery.Expr

variable {σ : Type} {w : World σ}

/-- Comparisons of any expressions at all, and connectors and groups over them. -/
inductive IsTest : Expr → Prop
  | comparison (left : Expr) (op : Comparator) (right : Expr) : IsTest (.comparison left op right)
  | chain (op : Connector) {operands : List Expr} : (∀ e ∈ operands, IsTest e) →
      IsTest (.chain op operands)
  | group {inner : Expr} : IsTest inner → IsTest (.group inner)

theorem IsCondition.isTest {x : Expr} (h : IsCondition x) : IsTest x := by
  induction h with
  | comparison => exact .comparison _ _ _
  | chain _ _ ih => exact .chain _ ih
  | group _ ih => exact .group ih

theorem evaluateMore_false (op : Connector) {es : List Expr}
    (h : ∀ x ∈ es, ∀ r : Runner σ, x.evaluate w false r = (.value (.bool false), r))
    (r : Runner σ) : evaluateMore w op es false false r = (false, r) := by
  induction es generalizing r with
  | nil => rfl
  | cons x xs ih =>
    have hrest := ih (fun y hy => h y (List.mem_cons_of_mem x hy)) r
    rw [evaluateMore, h x List.mem_cons_self r]
    split <;> exact hrest

/-- **A test that is passed over is false and does nothing.** -/
theorem IsTest.evaluate_false {x : Expr} (hx : IsTest x) (r : Runner σ) :
    x.evaluate w false r = (.value (.bool false), r) := by
  induction hx generalizing r with
  | comparison => rfl
  | @chain op operands _ ih =>
    cases operands with
    | nil => rfl
    | cons first more =>
      have hfirst := ih first List.mem_cons_self r
      have hmore := evaluateMore_false op (fun x hx => ih x (List.mem_cons_of_mem first hx)) r
      rw [evaluate, hfirst]
      change (Resolved.value (.bool (evaluateMore w op more false false r).1),
        (evaluateMore w op more false false r).2) = _
      rw [hmore]
  | group _ ih => exact ih r

/-! ## Chains that are decided -/

/-- A chain is evaluated part by part. -/
theorem evaluateMore_append (op : Connector) (xs ys : List Expr) (flag value : Bool)
    (r : Runner σ) : evaluateMore w op (xs ++ ys) flag value r =
      evaluateMore w op ys flag (evaluateMore w op xs flag value r).1
        (evaluateMore w op xs flag value r).2 := by
  induction xs generalizing value r with
  | nil => rfl
  | cons x xs ih =>
    rw [List.cons_append, evaluateMore, evaluateMore]
    split <;> exact ih _ _

/-- A chain whose value is decided keeps it, and passes over the tests that follow. -/
theorem evaluateMore_of_decides {op : Connector} {value : Bool} (hdecided : op.decides value = true)
    {es : List Expr} (hes : ∀ x ∈ es, IsTest x) (flag : Bool) (r : Runner σ) :
    evaluateMore w op es flag value r = (value, r) := by
  induction es with
  | nil => rfl
  | cons x xs ih =>
    rw [evaluateMore, if_pos hdecided, (hes x List.mem_cons_self).evaluate_false r]
    exact ih fun y hy => hes y (List.mem_cons_of_mem x hy)

/-- A chain that is decided, where one that stands at no more than it is not, stands at true. -/
theorem eq_true_of_decides {op : Connector} {value value' : Bool}
    (hvalue : value = true → value' = true) (hundecided : ¬ op.decides value = true)
    (hdecided : op.decides value' = true) : value' = true := by
  cases op <;> cases value <;> cases value' <;> simp_all [Connector.decides]

/-- **A chain that is decided may end there.** -/
theorem evaluate_chain_append {op : Connector} {first : Expr} {before after : List Expr}
    (hafter : ∀ x ∈ after, IsTest x) {flag : Bool} {r : Runner σ}
    (hdecided : op.decides ((chain op (first :: before)).evaluate w flag r).1.isTruthy = true) :
    (chain op (first :: (before ++ after))).evaluate w flag r =
      (chain op (first :: before)).evaluate w flag r := by
  have hmore := (evaluateMore_append op before after flag (first.evaluate w flag r).1.isTruthy
    (first.evaluate w flag r).2).trans (evaluateMore_of_decides hdecided hafter flag _)
  exact congrArg (fun out : Bool × Runner σ => (Resolved.value (.bool out.1), out.2)) hmore

/-- **Conditions that are passed over do nothing.**  Any tree of comparisons, chains and groups,
whatever it compares, is false with the flag off, on every runner and in every world, and the runner
is left as it was, with its memo, its queue, its count and its log.  So once the operands up to some
point decide a chain, any conditions at all may follow them: the chain has the result that it has
without them, and does to the runner what it does without them. -/
theorem skipped_conditions_inert (w : World σ) :
    (∀ x, IsTest x → ∀ r : Runner σ, x.evaluate w false r = (.value (.bool false), r)) ∧
    ∀ (op : Connector) (first : Expr) (before after after' : List Expr) (flag : Bool)
      (r : Runner σ), (∀ x ∈ after, IsTest x) → (∀ x ∈ after', IsTest x) →
      let decided := (chain op (first :: before)).evaluate w flag r
      op.decides decided.1.isTruthy = true →
        (chain op (first :: (before ++ after))).evaluate w flag r = decided ∧
          (chain op (first :: (before ++ after'))).evaluate w flag r = decided := by
  refine ⟨fun _ hx r => hx.evaluate_false r, ?_⟩
  intro op first before after after' flag r hafter hafter' decided hdecided
  exact ⟨evaluate_chain_append hafter hdecided, evaluate_chain_append hafter' hdecided⟩

/-- A world that counts what it is asked.  A host has one capability under every name, and that one
answers later, with the count that is reached by then. -/
def tallyWorld : World Nat where
  call _ _ n := (.deferred ⟨0, fun m => (.int (.ofNat m), m + 1)⟩, n + 1)
  lookup _ _ n := (some (.capability ⟨0⟩), n + 1)

/-- The condition `1 = 1`. -/
def oneIsOne : Expr :=
  .comparison (.literal (.int 1) "1") .equal (.literal (.int 1) "1")

/-- The condition `f = g`. -/
def fIsG : Expr :=
  .comparison (.root "f") .equal (.root "g")

theorem oneIsOne_decides_or :
    let r := Runner.start (some (.host ⟨0⟩)) 0
    IsTest fIsG ∧ IsTest (.group (.chain .and [])) ∧
      (fIsG.evaluate tallyWorld true r).2.world = 4 ∧
      fIsG.evaluate tallyWorld false r = (.value (.bool false), r) ∧
      (chain .or [oneIsOne, fIsG, fIsG]).evaluate tallyWorld true r = (.value (.bool true), r) ∧
      (chain .or [oneIsOne, .group (.chain .and [])]).evaluate tallyWorld true r =
        (.value (.bool true), r) := by
  intro r
  have hf : IsTest fIsG := .comparison _ _ _
  have hgroup : IsTest (.group (.chain .and [])) := .group (.chain _ (by simp))
  obtain ⟨hskipped, hchains⟩ := skipped_conditions_inert tallyWorld
  obtain ⟨hboth, hnone⟩ := hchains .or oneIsOne [] [fIsG, fIsG] [.group (.chain .and [])] true r
    (by simp [hf]) (by simp [hgroup]) (by with_unfolding_all rfl)
  exact ⟨hf, hgroup, by with_unfolding_all rfl, hskipped fIsG hf r, hboth, hnone⟩

/-! ## Truth values -/

/-- A test comes to true or false. -/
theorem IsTest.exists_bool {x : Expr} (hx : IsTest x) (flag : Bool) (r : Runner σ) :
    ∃ b, (x.evaluate w flag r).1 = .value (.bool b) := by
  induction hx with
  | comparison => cases flag <;> exact ⟨_, rfl⟩
  | @chain _ operands _ _ => cases operands <;> exact ⟨_, rfl⟩
  | group _ ih => exact ih

end FilterQuery.Expr
