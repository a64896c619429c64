import FilterQuery.Proofs.Expr.Shape

/-!
# Proofs/Expr/Keys — the keys of paths, and where they occur

The key of a path is the chain of its names with periods between (`pathKey_eq_intercalate`), and
names have no periods, so **keys and chains of names determine each other** (`pathKey_eq_iff`).
The **sites** of a query are the paths and calls in it, each call together with what it calls; a
query is **coherent** if sites with one key have the same arguments.
-/

namespace FilterQuery.Expr

/-! ## Names -/

/-- The names along a path. -/
def names : Expr → List String
  | root name => [name]
  | step parent name => parent.names ++ [name]
  | call callee _ => callee.names
  | _ => []

/-- A path has a name, the one of its root at least. -/
theorem IsPath.names_ne_nil : ∀ {e : Expr}, IsPath e → e.names ≠ []
  | _, .root _ => by simp [names]
  | _, .step _ _ => by simp [names]
  | _, .call hcallee _ _ => hcallee.names_ne_nil

/-- No name has a period in it. -/
theorem period_notMem_name {name : String} (h : Word.IsLexeme (.segment, name)) :
    '.' ∉ name.toList :=
  fun hmem => absurd (Word.isAlphanum_of_mem_name h '.' hmem) (by decide)

/-- None of the names of a path has a period in it, so the periods of a key part the names. -/
theorem IsPath.period_notMem : ∀ {e : Expr}, IsPath e → ∀ name ∈ e.names, '.' ∉ name.toList
  | _, .root hname => fun _ hmem => List.mem_singleton.1 hmem ▸ period_notMem_name hname
  | _, .step hparent hname => fun name hmem => by
    rcases List.mem_append.1 hmem with hmem | hmem
    · exact hparent.period_notMem name hmem
    · exact List.mem_singleton.1 hmem ▸ period_notMem_name hname
  | _, .call hcallee _ _ => hcallee.period_notMem

/-- The key of a path is its names joined by periods. -/
theorem IsPath.pathKey_eq_intercalate : ∀ {e : Expr}, IsPath e →
    e.pathKey = ".".intercalate e.names
  | _, .root _ => by rw [pathKey, names, String.intercalate_singleton]
  | _, .step hparent _ => by
    rw [pathKey, names, String.intercalate_append_of_ne_nil hparent.names_ne_nil (by simp),
      String.intercalate_singleton, hparent.pathKey_eq_intercalate]
  | _, .call hcallee _ _ => hcallee.pathKey_eq_intercalate

/-- The names can be read off the key. -/
theorem IsPath.splitOn_pathKey {e : Expr} (h : IsPath e) :
    e.pathKey.toList.splitOn '.' = e.names.map String.toList := by
  have hperiod : ∀ cs ∈ e.names.map String.toList, '.' ∉ cs :=
    List.forall_mem_map.2 h.period_notMem
  have hne : e.names.map String.toList ≠ [] := by simpa using h.names_ne_nil
  rw [h.pathKey_eq_intercalate, String.toList_intercalate]
  exact List.splitOn_intercalate '.' hperiod hne

/-- **Two paths have one key exactly if they have one chain of names.** -/
theorem IsPath.pathKey_eq_iff {p q : Expr} (hp : IsPath p) (hq : IsPath q) :
    p.pathKey = q.pathKey ↔ p.names = q.names := by
  constructor
  · intro h
    have hmap : p.names.map String.toList = q.names.map String.toList := by
      rw [← hp.splitOn_pathKey, ← hq.splitOn_pathKey, h]
    exact List.map_inj_right (fun _ _ => String.toList_inj.1) |>.1 hmap
  · intro h
    rw [hp.pathKey_eq_intercalate, hq.pathKey_eq_intercalate, h]

/-! ## Sites -/

mutual

/-- The paths and calls of an expression, outermost first.  What a call calls is a part of the call
and no site of its own. -/
def sites : Expr → List Expr
  | literal _ _ => []
  | array items => sitesAll items
  | object entries => sitesEntries entries
  | root name => [root name]
  | step parent name => step parent name :: parent.sites
  | call (root name) args => call (root name) args :: sitesAll args
  | call (step parent name) args => call (step parent name) args :: (parent.sites ++ sitesAll args)
  | call callee args => call callee args :: (callee.sites ++ sitesAll args)
  | comparison left _ right => left.sites ++ right.sites
  | chain _ operands => sitesAll operands
  | group inner => inner.sites

/-- The sites of expressions. -/
def sitesAll : List Expr → List Expr
  | [] => []
  | e :: es => e.sites ++ sitesAll es

/-- The sites in the values of object entries. -/
def sitesEntries : List (String × Expr) → List Expr
  | [] => []
  | (_, e) :: entries => e.sites ++ sitesEntries entries

end

/-- The arguments of a site: a path without any is called with none. -/
def arguments : Expr → List Expr
  | call _ args => args
  | _ => []

/-- Sites with one key have the same arguments. -/
def Coherent (e : Expr) : Prop :=
  ∀ p ∈ e.sites, ∀ q ∈ e.sites, p.pathKey = q.pathKey → p.arguments = q.arguments

/-- A site of a list is one of a member. -/
theorem mem_sitesAll {p : Expr} {es : List Expr} : p ∈ sitesAll es ↔ ∃ e ∈ es, p ∈ e.sites := by
  induction es with
  | nil => simp [sitesAll]
  | cons e es ih => simp [sitesAll, ih]

/-- A site of an object's entries is one of a value. -/
theorem mem_sitesEntries {p : Expr} {entries : List (String × Expr)} :
    p ∈ sitesEntries entries ↔ ∃ entry ∈ entries, p ∈ entry.2.sites := by
  induction entries with
  | nil => simp [sitesEntries]
  | cons entry entries ih => simp [sitesEntries, ih]

/-- A member's sites are among those of the list. -/
theorem sites_subset_sitesAll {e : Expr} {es : List Expr} (h : e ∈ es) : e.sites ⊆ sitesAll es :=
  fun _ hp => mem_sitesAll.2 ⟨e, h, hp⟩

/-- A value's sites are among those of the entries. -/
theorem sites_subset_sitesEntries {entry : String × Expr} {entries : List (String × Expr)}
    (h : entry ∈ entries) : entry.2.sites ⊆ sitesEntries entries :=
  fun _ hp => mem_sitesEntries.2 ⟨entry, h, hp⟩

/-- The sites of a path stay when a name is added. -/
theorem sites_subset_step (parent : Expr) (name : String) :
    parent.sites ⊆ (step parent name).sites :=
  fun _ hp => List.mem_cons_of_mem _ hp

/-- The sites of a path stay when a name and a call on it are added. -/
theorem sites_subset_call_step (parent : Expr) (name : String) (args : List Expr) :
    parent.sites ⊆ (call (step parent name) args).sites :=
  fun _ hp => List.mem_cons_of_mem _ (List.mem_append_left _ hp)

/-- The sites of an argument are among those of the call. -/
theorem sites_subset_call {e callee : Expr} {args : List Expr} (hcallee : IsPath callee)
    (h : e ∈ args) : e.sites ⊆ (call callee args).sites := by
  intro p hp
  have hargs : p ∈ sitesAll args := sites_subset_sitesAll h hp
  cases hcallee with
  | root => exact List.mem_cons_of_mem _ hargs
  | step => exact List.mem_cons_of_mem _ (List.mem_append_right _ hargs)
  | call => exact List.mem_cons_of_mem _ (List.mem_append_right _ hargs)

/-- The sites of the left side are among those of the comparison. -/
theorem sites_subset_comparison_left (left right : Expr) (op : Comparator) :
    left.sites ⊆ (comparison left op right).sites :=
  List.subset_append_left _ _

/-- The sites of the right side are among those of the comparison. -/
theorem sites_subset_comparison_right (left right : Expr) (op : Comparator) :
    right.sites ⊆ (comparison left op right).sites :=
  List.subset_append_right _ _

/-- A path is a site of its own. -/
theorem IsPath.mem_sites {e : Expr} (h : IsPath e) : e ∈ e.sites := by
  cases h with
  | root => exact List.mem_cons_self
  | step => exact List.mem_cons_self
  | call hcallee => cases hcallee <;> exact List.mem_cons_self

mutual

/-- Every site of an operand is a path, and its own sites are among those of the operand. -/
theorem IsOperand.of_mem_sites : ∀ {e : Expr}, IsOperand e → ∀ p ∈ e.sites,
    IsPath p ∧ p.sites ⊆ e.sites
  | _, .literal _ _ => fun _ hp => absurd hp List.not_mem_nil
  | _, .array hitems => fun p hp => by
    obtain ⟨e, he, hpe⟩ := mem_sitesAll.1 hp
    obtain ⟨hpath, hsub⟩ := (hitems e he).of_mem_sites p hpe
    exact ⟨hpath, List.Subset.trans hsub (sites_subset_sitesAll he)⟩
  | _, .object _ hvalues => fun p hp => by
    obtain ⟨entry, hentry, hpe⟩ := mem_sitesEntries.1 hp
    obtain ⟨hpath, hsub⟩ := (hvalues entry hentry).of_mem_sites p hpe
    exact ⟨hpath, List.Subset.trans hsub (sites_subset_sitesEntries hentry)⟩
  | _, .path hpath => hpath.of_mem_sites

/-- Every site of a path is a path, and its own sites are among those of the path. -/
theorem IsPath.of_mem_sites : ∀ {e : Expr}, IsPath e → ∀ p ∈ e.sites,
    IsPath p ∧ p.sites ⊆ e.sites
  | _, .root hname => fun p hp => by
    obtain rfl := List.mem_singleton.1 hp
    exact ⟨.root hname, List.Subset.refl _⟩
  | _, .step hparent hname => fun p hp => by
    rcases List.mem_cons.1 hp with rfl | hp
    · exact ⟨.step hparent hname, List.Subset.refl _⟩
    · obtain ⟨hpath, hsub⟩ := hparent.of_mem_sites p hp
      exact ⟨hpath, List.Subset.trans hsub (sites_subset_step _ _)⟩
  | _, .call (.root hname) hcall hargs => fun p hp => by
    rcases List.mem_cons.1 hp with rfl | hp
    · exact ⟨.call (.root hname) hcall hargs, List.Subset.refl _⟩
    · obtain ⟨e, he, hpe⟩ := mem_sitesAll.1 hp
      obtain ⟨hpath, hsub⟩ := (hargs e he).of_mem_sites p hpe
      exact ⟨hpath, List.Subset.trans hsub (sites_subset_call (.root hname) he)⟩
  | _, .call (.step hparent hname) hcall hargs => fun p hp => by
    rcases List.mem_cons.1 hp with rfl | hp
    · exact ⟨.call (.step hparent hname) hcall hargs, List.Subset.refl _⟩
    · rcases List.mem_append.1 hp with hp | hp
      · obtain ⟨hpath, hsub⟩ := hparent.of_mem_sites p hp
        exact ⟨hpath, List.Subset.trans hsub (sites_subset_call_step _ _ _)⟩
      · obtain ⟨e, he, hpe⟩ := mem_sitesAll.1 hp
        obtain ⟨hpath, hsub⟩ := (hargs e he).of_mem_sites p hpe
        exact ⟨hpath, List.Subset.trans hsub (sites_subset_call (.step hparent hname) he)⟩

end

/-- **The sites of a condition are paths, and contain their own sites.** -/
theorem IsCondition.of_mem_sites {e : Expr} (h : IsCondition e) (p : Expr) (hp : p ∈ e.sites) :
    IsPath p ∧ p.sites ⊆ e.sites := by
  induction h with
  | comparison hleft hright =>
    rcases List.mem_append.1 hp with hp | hp
    · obtain ⟨hpath, hsub⟩ := hleft.of_mem_sites p hp
      exact ⟨hpath, List.Subset.trans hsub (sites_subset_comparison_left _ _ _)⟩
    · obtain ⟨hpath, hsub⟩ := hright.of_mem_sites p hp
      exact ⟨hpath, List.Subset.trans hsub (sites_subset_comparison_right _ _ _)⟩
  | chain _ _ ih =>
    obtain ⟨e, he, hpe⟩ := mem_sitesAll.1 hp
    obtain ⟨hpath, hsub⟩ := ih e he hpe
    exact ⟨hpath, List.Subset.trans hsub (sites_subset_sitesAll he)⟩
  | group _ ih => exact ih hp

end FilterQuery.Expr
