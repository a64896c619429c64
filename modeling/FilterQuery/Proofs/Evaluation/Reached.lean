import FilterQuery.Proofs.Evaluation.Reference

/-!
# Proofs/Evaluation/Reached — the sites that the meaning of a query rests on

    a.b = 1 AND f(c) = d       reached:  a, a.b  and, if a.b is 1,  c, f(c), d

To find what an expression denotes, sites are looked at from left to right: the path before a name,
the arguments of what can be called, the operands of a chain up to the one that decides it.  No
others are **reached**, and all that are reached are sites of the expression
(`reached_subset_sites`).
-/

namespace FilterQuery

namespace Reference

open FilterQuery.Expr

/-- Whether a target can be called. -/
def isCapability : Option Value → Bool
  | some (.capability _) => true
  | _ => false

variable (ref : Reference)

mutual

/-- The sites that an expression reaches, in order. -/
def reached : Expr → List Expr
  | .literal _ _ => []
  | .array items => reachedAll items
  | .object entries => reachedEntries entries
  | .root name => [.root name]
  | .step parent name => reached parent ++ [.step parent name]
  | .call (.root name) args =>
    (if isCapability (ref.target (.root name)) then reachedAll args else []) ++
      [.call (.root name) args]
  | .call (.step parent name) args =>
    reached parent ++
      ((if isCapability (ref.target (.step parent name)) then reachedAll args else []) ++
        [.call (.step parent name) args])
  | .call _ _ => []
  | .comparison left _ right => reached left ++ reached right
  | .chain _ [] => []
  | .chain op (first :: more) => reached first ++ reachedMore op more (truthy (ref.denote first))
  | .group inner => reached inner

/-- The sites that expressions reach, one after the other. -/
def reachedAll : List Expr → List Expr
  | [] => []
  | e :: es => reached e ++ reachedAll es

/-- The sites that the values of object entries reach. -/
def reachedEntries : List (String × Expr) → List Expr
  | [] => []
  | (_, e) :: entries => reached e ++ reachedEntries entries

/-- The sites that a chain reaches which stands at `value`, up to the operand that decides it. -/
def reachedMore (op : Connector) : List Expr → (value : Bool) → List Expr
  | [], _ => []
  | e :: es, value =>
    if op.decides value then [] else reached e ++ reachedMore op es (truthy (ref.denote e))

end

variable {ref : Reference}

theorem append_subset_append {α : Type} {xs xs' ys ys' : List α} (h : xs ⊆ xs') (h' : ys ⊆ ys') :
    xs ++ ys ⊆ xs' ++ ys' :=
  List.append_subset.2 ⟨List.Subset.trans h (List.subset_append_left _ _),
    List.Subset.trans h' (List.subset_append_right _ _)⟩

theorem ite_reached_subset {b : Bool} {xs ys : List Expr} (h : xs ⊆ ys) :
    (if b then xs else []) ⊆ ys := by
  split
  · exact h
  · exact List.nil_subset _

mutual

/-- **What is reached is a site.** -/
theorem reached_subset_sites : ∀ e : Expr, ref.reached e ⊆ e.sites
  | .literal _ _ => List.nil_subset _
  | .array items => reachedAll_subset_sites items
  | .object entries => reachedEntries_subset_sites entries
  | .root _ => List.Subset.refl _
  | .step parent _ => by
    have hparent := reached_subset_sites parent
    simp only [reached, sites]
    grind
  | .call (.root name) args => by
    have hargs := ite_reached_subset (b := isCapability (ref.target (.root name)))
      (reachedAll_subset_sites args)
    simp only [reached, sites]
    grind
  | .call (.step parent name) args => by
    have hparent := reached_subset_sites parent
    have hargs := ite_reached_subset (b := isCapability (ref.target (.step parent name)))
      (reachedAll_subset_sites args)
    simp only [reached, sites]
    grind
  | .call (.literal _ _) _ | .call (.array _) _ | .call (.object _) _ | .call (.call _ _) _
  | .call (.comparison _ _ _) _ | .call (.chain _ _) _ | .call (.group _) _ => List.nil_subset _
  | .comparison left _ right =>
    append_subset_append (reached_subset_sites left) (reached_subset_sites right)
  | .chain _ [] => List.nil_subset _
  | .chain op (first :: more) =>
    append_subset_append (reached_subset_sites first) (reachedMore_subset_sites op more _)
  | .group inner => reached_subset_sites inner

theorem reachedAll_subset_sites : ∀ es : List Expr, ref.reachedAll es ⊆ sitesAll es
  | [] => List.nil_subset _
  | e :: es => append_subset_append (reached_subset_sites e) (reachedAll_subset_sites es)

theorem reachedEntries_subset_sites : ∀ entries : List (String × Expr),
    ref.reachedEntries entries ⊆ sitesEntries entries
  | [] => List.nil_subset _
  | (_, e) :: entries =>
    append_subset_append (reached_subset_sites e) (reachedEntries_subset_sites entries)

theorem reachedMore_subset_sites (op : Connector) : ∀ (es : List Expr) (value : Bool),
    ref.reachedMore op es value ⊆ sitesAll es
  | [], _ => List.nil_subset _
  | e :: es, value => by
    unfold reachedMore
    split
    · exact List.nil_subset _
    · exact append_subset_append (reached_subset_sites e) (reachedMore_subset_sites op es _)

end

end Reference

end FilterQuery
