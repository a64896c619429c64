import FilterQuery.Expr.Evaluation

/-!
# Expr/Convergence — passes until nothing is deferred any more

A pass that meets a deferred value for the first time is followed by another one, with the value at
hand. **Such a pass makes a key of the query known** (`evaluate_learns`), and a query has finitely
many keys, so `converge` ends whatever the world does.
-/

namespace FilterQuery

namespace Expr

mutual

/-- The keys of the paths and calls in an expression. -/
def keys : Expr → List String
  | literal _ _ => []
  | array items => keysAll items
  | object entries => keysEntries entries
  | root name => [name]
  | step parent name => (step parent name).pathKey :: parent.keys
  | call callee args => callee.pathKey :: (callee.keys ++ keysAll args)
  | comparison left _ right => left.keys ++ right.keys
  | chain _ operands => keysAll operands
  | group inner => inner.keys

/-- The keys in expressions. -/
def keysAll : List Expr → List String
  | [] => []
  | e :: es => e.keys ++ keysAll es

/-- The keys in the values of object entries. -/
def keysEntries : List (String × Expr) → List String
  | [] => []
  | (_, e) :: entries => e.keys ++ keysEntries entries

end

end Expr

namespace Runner

variable {σ : Type}

/-- Whether something is known under a key. -/
def Knows (r : Runner σ) (key : String) : Prop :=
  (Fields.get? r.memo key).isSome

instance (r : Runner σ) (key : String) : Decidable (r.Knows key) :=
  inferInstanceAs (Decidable (_ = true))

/-- From one runner to a later one no key is forgotten, and if answers have been deferred in between
then one of `keys` has become known. -/
structure Learns (keys : List String) (r s : Runner σ) : Prop where
  knows : ∀ key, r.Knows key → s.Knows key
  total_le : r.deferredTotal ≤ s.deferredTotal
  fresh : r.deferredTotal < s.deferredTotal → ∃ key ∈ keys, ¬ r.Knows key ∧ s.Knows key

namespace Learns

theorem refl (keys : List String) (r : Runner σ) : Learns keys r r :=
  ⟨fun _ h => h, Nat.le_refl _, fun h => absurd h (Nat.lt_irrefl _)⟩

theorem mono {keys keys' : List String} {r s : Runner σ} (h : Learns keys r s)
    (hsub : keys ⊆ keys') : Learns keys' r s :=
  ⟨h.knows, h.total_le, fun hlt =>
    let ⟨key, hkey, hnew⟩ := h.fresh hlt
    ⟨key, hsub hkey, hnew⟩⟩

theorem trans {keys : List String} {r s t : Runner σ} (h : Learns keys r s)
    (h' : Learns keys s t) : Learns keys r t where
  knows key hr := h'.knows key (h.knows key hr)
  total_le := Nat.le_trans h.total_le h'.total_le
  fresh hlt := by
    by_cases hs : r.deferredTotal < s.deferredTotal
    · obtain ⟨key, hkey, hr, hs⟩ := h.fresh hs
      exact ⟨key, hkey, hr, h'.knows key hs⟩
    · obtain ⟨key, hkey, hs, ht⟩ := h'.fresh (by omega)
      exact ⟨key, hkey, fun hr => hs (h.knows key hr), ht⟩

end Learns

theorem knows_insert (r : Runner σ) (key : String) (slot : Slot) (name : String) :
    (Fields.get? (Fields.insert r.memo key slot) name).isSome ↔ name = key ∨ r.Knows name := by
  by_cases h : name = key <;> simp [Fields.get?_insert, Knows, h]

theorem learns_call (w : World σ) (key : String) (c : Capability) (args : List Value)
    (r : Runner σ) (hkey : ¬ r.Knows key) : Learns [key] r (r.call w key c args).2 := by
  unfold call
  dsimp only
  split
  · exact ⟨fun _ h => (knows_insert r _ _ _).2 (Or.inr h), Nat.le_refl _,
      fun h => absurd h (Nat.lt_irrefl _)⟩
  · exact ⟨fun _ h => (knows_insert r _ _ _).2 (Or.inr h), Nat.le_succ _,
      fun _ => ⟨key, List.mem_singleton.2 rfl, hkey, (knows_insert r _ _ _).2 (Or.inl rfl)⟩⟩

theorem learns_invoke (w : World σ) (key : String) (c : Capability) (args : List Value)
    (r : Runner σ) : Learns [key] r (r.invoke w key c args).2 := by
  unfold invoke
  split
  · exact .refl _ r
  · exact .refl _ r
  · next h => exact learns_call w key c args r (by simp [Knows, h])

theorem learns_lookup (w : World σ) (v : Value) (name : String) (r : Runner σ) :
    Learns [] r (r.lookup w v name).2 := by
  unfold lookup
  split
  · exact .refl _ r
  · exact ⟨fun _ h => h, Nat.le_refl _, fun h => absurd h (Nat.lt_irrefl _)⟩
  · exact .refl _ r

theorem learns_member (w : World σ) (base : Resolved) (name : String) (r : Runner σ) :
    Learns [] r (r.member w base name).2 := by
  unfold member
  split
  · exact learns_lookup w _ name r
  · exact .refl _ r

theorem learns_access (w : World σ) (key : String) (target : Resolved) (r : Runner σ) :
    Learns [key] r (r.access w key target).2 := by
  unfold access
  split
  · exact learns_invoke w key _ [] r
  · exact .refl _ r

theorem learns_apply (w : World σ) (key : String) (target : Resolved)
    (arguments : Runner σ → List Resolved × Runner σ) (keys : List String)
    (hargs : ∀ r, Learns keys r (arguments r).2) (r : Runner σ) :
    Learns (key :: keys) r (r.apply w key target arguments).2 := by
  unfold apply
  split
  · have hr := (hargs r).mono (List.subset_cons_self key keys)
    dsimp only
    split
    · exact hr.trans ((learns_invoke w key _ _ _).mono (by simp))
    · exact hr
  · exact .refl _ r
  · exact .refl _ r

theorem knows_complete (r : Runner σ) (d : Deferral σ) (key : String) (h : r.Knows key) :
    (r.complete d).Knows key :=
  (knows_insert r _ _ _).2 (Or.inr h)

/-- **Settling forgets no key.** -/
theorem knows_settle (r : Runner σ) (key : String) (h : r.Knows key) : r.settle.Knows key := by
  have aux : ∀ (ds : List (Deferral σ)) (r : Runner σ), r.Knows key →
      (ds.foldl complete r).Knows key := by
    intro ds
    induction ds with
    | nil => exact fun _ h => h
    | cons d ds ih => exact fun r h => ih _ (knows_complete r d key h)
  exact aux _ _ h

end Runner

namespace Expr

variable {σ : Type}

open Runner

mutual

/-- **Evaluation forgets no key, and what it defers it learns a key for.** -/
theorem evaluate_learns (w : World σ) : ∀ (e : Expr) (flag : Bool) (r : Runner σ),
    Learns e.keys r (e.evaluate w flag r).2
  | literal _ _, _, r => .refl _ r
  | array items, _, r => evaluateAll_learns w items true r
  | object entries, _, r => evaluateEntries_learns w entries r
  | root name, _, r =>
    ((learns_member w r.root name r).mono (List.nil_subset _)).trans (learns_access w name _ _)
  | step parent name, flag, r =>
    (((evaluate_learns w parent flag r).mono (List.subset_cons_self _ _)).trans
      ((learns_member w _ name _).mono (List.nil_subset _))).trans
      ((learns_access w _ _ _).mono (by simp))
  | call (root name) args, flag, r =>
    ((learns_member w r.root name r).mono (List.nil_subset _)).trans
      ((learns_apply w name _ _ _ (evaluateAll_learns w args flag) _).mono
        (by simp [keys, pathKey]))
  | call (step parent name) args, flag, r =>
    (((evaluate_learns w parent flag r).mono fun key h => by simp [keys, h]).trans
      ((learns_member w _ name _).mono (List.nil_subset _))).trans
      ((learns_apply w _ _ _ _ (evaluateAll_learns w args flag) _).mono
        (by simp only [keys, pathKey]; grind))
  | call (literal _ _) _, _, r => .refl _ r
  | call (array _) _, _, r => .refl _ r
  | call (object _) _, _, r => .refl _ r
  | call (call _ _) _, _, r => .refl _ r
  | call (comparison _ _ _) _, _, r => .refl _ r
  | call (chain _ _) _, _, r => .refl _ r
  | call (group _) _, _, r => .refl _ r
  | comparison left _ right, true, r =>
    ((evaluate_learns w left true r).mono (List.subset_append_left _ _)).trans
      ((evaluate_learns w right true _).mono (List.subset_append_right _ _))
  | comparison _ _ _, false, r => .refl _ r
  | chain _ [], _, r => .refl _ r
  | chain op (first :: more), flag, r =>
    ((evaluate_learns w first flag r).mono (List.subset_append_left _ _)).trans
      ((evaluateMore_learns w op more flag _ _).mono (List.subset_append_right _ _))
  | group inner, flag, r => evaluate_learns w inner flag r

theorem evaluateAll_learns (w : World σ) : ∀ (es : List Expr) (flag : Bool) (r : Runner σ),
    Learns (keysAll es) r (evaluateAll w es flag r).2
  | [], _, r => .refl _ r
  | e :: es, flag, r =>
    ((evaluate_learns w e flag r).mono (List.subset_append_left _ _)).trans
      ((evaluateAll_learns w es flag _).mono (List.subset_append_right _ _))

theorem evaluateEntries_learns (w : World σ) :
    ∀ (entries : List (String × Expr)) (r : Runner σ),
      Learns (keysEntries entries) r (evaluateEntries w entries r).2
  | [], r => .refl _ r
  | (_, e) :: entries, r =>
    ((evaluate_learns w e true r).mono (List.subset_append_left _ _)).trans
      ((evaluateEntries_learns w entries _).mono (List.subset_append_right _ _))

theorem evaluateMore_learns (w : World σ) (op : Connector) :
    ∀ (es : List Expr) (flag value : Bool) (r : Runner σ),
      Learns (keysAll es) r (evaluateMore w op es flag value r).2
  | [], _, _, r => .refl _ r
  | e :: es, flag, value, r => by
    unfold evaluateMore
    split
    · exact ((evaluate_learns w e false r).mono (List.subset_append_left _ _)).trans
        ((evaluateMore_learns w op es flag _ _).mono (List.subset_append_right _ _))
    · exact ((evaluate_learns w e flag r).mono (List.subset_append_left _ _)).trans
        ((evaluateMore_learns w op es flag _ _).mono (List.subset_append_right _ _))

end

/-- How many keys of an expression are not known yet. -/
def unknownKeys (e : Expr) (r : Runner σ) : Nat :=
  (e.keys.filter fun key => ¬ r.Knows key).length

theorem length_filter_lt {α : Type} {p q : α → Bool} {xs : List α} {a : α} (ha : a ∈ xs)
    (hpq : ∀ x, p x = true → q x = true) (hp : p a = false) (hq : q a = true) :
    (xs.filter p).length < (xs.filter q).length := by
  induction xs with
  | nil => cases ha
  | cons x xs ih =>
    have hle : (xs.filter p).length ≤ (xs.filter q).length := by
      simpa only [List.countP_eq_length_filter] using List.countP_mono_left fun y _ => hpq y
    rcases List.mem_cons.1 ha with rfl | ha
    · simp only [List.filter_cons, hp, hq, if_true, Bool.false_eq_true, if_false, List.length_cons]
      omega
    · have := ih ha
      by_cases hx : p x = true
      · simp [hx, hpq x hx, this]
      · by_cases hx' : q x = true <;> simp only [List.filter_cons, hx, hx', if_true, if_false,
          List.length_cons, Bool.false_eq_true] <;> omega

theorem unknownKeys_lt {e : Expr} {r s : Runner σ} (h : Learns e.keys r s)
    (hlt : r.deferredTotal < s.deferredTotal) : e.unknownKeys s < e.unknownKeys r := by
  obtain ⟨key, hkey, hr, hs⟩ := h.fresh hlt
  refine length_filter_lt hkey (fun k hk => ?_) (by simpa using hs) (by simpa using hr)
  simp only [decide_not, Bool.not_eq_eq_eq_not, Bool.not_true, decide_eq_false_iff_not] at hk ⊢
  exact fun hr => hk (h.knows k hr)

theorem unknownKeys_settle_le (e : Expr) (r : Runner σ) :
    e.unknownKeys r.settle ≤ e.unknownKeys r := by
  simp only [unknownKeys, ← List.countP_eq_length_filter]
  refine List.countP_mono_left fun k _ hk => ?_
  simp only [decide_not, Bool.not_eq_eq_eq_not, Bool.not_true, decide_eq_false_iff_not] at hk ⊢
  exact fun hr => hk (r.knows_settle k hr)

/-- The end of an evaluation: the answer of its last pass, the number of passes, and the runner. -/
structure Convergence (σ : Type) where
  answer : Bool
  passes : Nat
  runner : Runner σ

/-- One pass with every deferred value of earlier passes at hand. -/
def pass (w : World σ) (e : Expr) (r : Runner σ) : Bool × Runner σ :=
  e.holds w r.settle

/-- Whether a pass from `r` to `s` has met a deferred value for the first time. -/
def metDeferred (r s : Runner σ) : Prop :=
  r.settle.deferredTotal < s.deferredTotal

instance (r s : Runner σ) : Decidable (metDeferred r s) :=
  inferInstanceAs (Decidable (_ < _))

theorem unknownKeys_pass_lt (w : World σ) (e : Expr) (r : Runner σ)
    (h : metDeferred r (e.pass w r).2) : e.unknownKeys (e.pass w r).2 < e.unknownKeys r :=
  Nat.lt_of_lt_of_le (unknownKeys_lt (evaluate_learns w e true r.settle) h)
    (unknownKeys_settle_le e r)

/-- **Passes up to the first that meets no new deferred value.** -/
def converge (w : World σ) (e : Expr) (r : Runner σ) : Convergence σ :=
  let result := e.pass w r
  if h : metDeferred r result.2 then
    have : e.unknownKeys result.2 < e.unknownKeys r := unknownKeys_pass_lt w e r h
    let last := converge w e result.2
    { last with passes := last.passes + 1 }
  else ⟨result.1, 1, result.2⟩
termination_by e.unknownKeys r

end Expr

end FilterQuery
