import FilterQuery.Query

/-!
# Proofs/Evaluation/Passes — how many passes a run takes

    runner ──settle──▸ evaluate ──▸ runner ──settle──▸ evaluate ──▸ …   until nothing new waits

`stateAt` is the runner before each pass of the loop, without an end.  A pass that defers an answer
makes a key of the query known that was unknown before (`evaluate_learns`), and no key is ever
forgotten, so **the loop stops after at most one pass more than the query has distinct keys**,
whatever the world answers.
-/

namespace FilterQuery

variable {σ : Type}

namespace Expr

/-- The runner before pass number `n`, counted from zero, as if the passes went on for ever. -/
def stateAt (w : World σ) (e : Expr) (r : Runner σ) : Nat → Runner σ
  | 0 => r
  | n + 1 => (e.pass w (stateAt w e r n)).2

theorem stateAt_succ (w : World σ) (e : Expr) (r : Runner σ) (n : Nat) :
    stateAt w e r (n + 1) = stateAt w e (e.pass w r).2 n := by
  induction n with
  | zero => rfl
  | succ n ih =>
    rw [stateAt, ih]
    rfl

/-! ## Where the loop stops -/

/-- **The loop ends in the first pass that meets no new deferred value.** -/
theorem converge_eq_stateAt (w : World σ) (e : Expr) (r : Runner σ) :
    ∃ last, e.converge w r =
        ⟨(e.pass w (stateAt w e r last)).1, last + 1, stateAt w e r (last + 1)⟩ ∧
      (∀ i < last, metDeferred (stateAt w e r i) (stateAt w e r (i + 1))) ∧
      ¬ metDeferred (stateAt w e r last) (stateAt w e r (last + 1)) := by
  induction r using converge.induct w e with
  | case1 r result hmet hlt ih =>
    obtain ⟨last, heq, hbefore, hend⟩ := ih
    refine ⟨last + 1, ?_, ?_, ?_⟩
    · have hstep : e.converge w r =
          { e.converge w result.2 with passes := (e.converge w result.2).passes + 1 } := by
        rw [converge, dif_pos hmet]
      rw [hstep, heq, stateAt_succ w e r, stateAt_succ w e r]
    · intro i hi
      cases i with
      | zero => exact hmet
      | succ i =>
        rw [stateAt_succ w e r, stateAt_succ w e r]
        exact hbefore i (Nat.lt_of_succ_lt_succ hi)
    · rw [stateAt_succ w e r, stateAt_succ w e r]
      exact hend
  | case2 r result hmet =>
    refine ⟨0, ?_, fun i hi => absurd hi (Nat.not_lt_zero i), hmet⟩
    rw [converge, dif_neg hmet]
    rfl

/-! ## The measure -/

/-- The keys of an expression, each once, in the order in which they first occur. -/
def distinctKeys (e : Expr) : List String :=
  e.keys.eraseDups

/-- How many distinct keys of an expression are not known yet. -/
def unknownCount (e : Expr) (r : Runner σ) : Nat :=
  (e.distinctKeys.filter fun key => ¬ r.Knows key).length

theorem unknownCount_le (e : Expr) (r : Runner σ) : e.unknownCount r ≤ e.distinctKeys.length :=
  List.length_filter_le _ _

/-- **A pass that meets a new deferred value leaves fewer keys unknown.** -/
theorem unknownCount_pass_lt (w : World σ) (e : Expr) (r : Runner σ)
    (h : metDeferred r (e.pass w r).2) : e.unknownCount (e.pass w r).2 < e.unknownCount r := by
  have hlearns : Runner.Learns e.keys r.settle (e.pass w r).2 := evaluate_learns w e true r.settle
  have hknows : ∀ key, r.Knows key → (e.pass w r).2.Knows key := fun key hr =>
    hlearns.knows key (r.knows_settle key hr)
  obtain ⟨key, hkey, hnew, hknown⟩ := hlearns.fresh h
  have hold : ¬ r.Knows key := fun hr => hnew (r.knows_settle key hr)
  refine length_filter_lt (List.mem_eraseDups.2 hkey) ?_ (by simpa using hknown)
    (by simpa using hold)
  intro k hk
  simp only [decide_not, Bool.not_eq_eq_eq_not, Bool.not_true, decide_eq_false_iff_not] at hk ⊢
  exact fun hr => hk (hknows k hr)

/-- **As many passes as have met new deferred values, so many keys have become known.** -/
theorem unknownCount_stateAt_add_le (w : World σ) (e : Expr) (r : Runner σ) (n : Nat)
    (h : ∀ i < n, metDeferred (stateAt w e r i) (stateAt w e r (i + 1))) :
    e.unknownCount (stateAt w e r n) + n ≤ e.unknownCount r := by
  induction n with
  | zero => exact Nat.le_refl _
  | succ n ih =>
    have hrest := ih fun i hi => h i (Nat.lt_succ_of_lt hi)
    have hlast := unknownCount_pass_lt w e (stateAt w e r n) (h n (Nat.lt_succ_self n))
    have heq : stateAt w e r (n + 1) = (e.pass w (stateAt w e r n)).2 := rfl
    rw [heq]
    omega

/-- **No pass lowers the number of deferred values**, from any runner. -/
theorem deferredTotal_settle_le_pass (w : World σ) (e : Expr) (r : Runner σ) :
    r.settle.deferredTotal ≤ (e.pass w r).2.deferredTotal :=
  (evaluate_learns w e true r.settle).total_le

end Expr

namespace Query

open FilterQuery.Expr

/-- **The passes of a run are those of the endless loop `stateAt`,** up to the first one that meets
no new deferred value. -/
theorem run_eq_stateAt (w : World σ) (q : Query) (e : Expr) (h : q.parse = .ok e)
    (context : Option Value) (world : σ) :
    ∃ last,
      let state := stateAt w e (Runner.start context world)
      q.run w context world = ⟨.ok (e.pass w (state last)).1, last + 1, state (last + 1)⟩ ∧
      (∀ i < last, metDeferred (state i) (state (i + 1))) ∧
      ¬ metDeferred (state last) (state (last + 1)) := by
  obtain ⟨last, heq, hbefore, hend⟩ := converge_eq_stateAt w e (Runner.start context world)
  refine ⟨last, ?_, hbefore, hend⟩
  rw [run, h]
  dsimp only
  rw [heq]

/-- **A run of a query that parses has an answer, and it takes at most one pass more than the query
has distinct keys.**  The passes are those of the endless loop `stateAt` up to the first one that
meets no new deferred value, and the number of deferred values never falls within a pass. -/
theorem run_ends_within_distinctKeys (w : World σ) (q : Query) (e : Expr) (h : q.parse = .ok e)
    (context : Option Value) (world : σ) :
    ∃ last ≤ e.distinctKeys.length,
      let state := stateAt w e (Runner.start context world)
      q.run w context world = ⟨.ok (e.pass w (state last)).1, last + 1, state (last + 1)⟩ ∧
      (∀ i < last, metDeferred (state i) (state (i + 1))) ∧
      ¬ metDeferred (state last) (state (last + 1)) ∧
      ∀ i, (state i).settle.deferredTotal ≤ (state (i + 1)).deferredTotal := by
  obtain ⟨last, hrun, hbefore, hend⟩ := run_eq_stateAt w q e h context world
  have hcount := unknownCount_stateAt_add_le w e (Runner.start context world) last hbefore
  have hbound := unknownCount_le e (Runner.start context world)
  exact ⟨last, by omega, hrun, hbefore, hend, fun i => deferredTotal_settle_le_pass w e _⟩

/-- The query `a.b = 1`. -/
def memberQuery : Query where
  source := "a.b = 1"
  tokens := [⟨.segment, "a", 0⟩, ⟨.punct .period, ".", 1⟩, ⟨.segment, "b", 2⟩,
    ⟨.comparator .equal, "=", 4⟩, ⟨.literal .number, "1", 6⟩, ⟨.endOfInput, "", 7⟩]
  ofText_source := by with_unfolding_all rfl

/-- The tree of `memberQuery`. -/
def memberExpr : Expr :=
  .comparison (.step (.root "a") "b") .equal (.literal (.int 1) "1")

theorem parse_memberQuery : memberQuery.parse = .ok memberExpr := by
  with_unfolding_all rfl

/-- Two capabilities that defer: the first an object whose member `b` is the second, the second a
number. -/
def nestedWorld : World Unit where
  call c _ s :=
    if c.id = 0 then (.deferred (.ofValue 2 (.ofPairs [("b", .capability ⟨1⟩)])), s)
    else (.deferred (.ofValue 0 (.int 1)), s)
  lookup _ _ s := (none, s)

/-- The context of `nestedWorld`. -/
def nestedContext : Value :=
  .ofPairs [("a", .capability ⟨0⟩)]

theorem run_memberQuery_ends : memberQuery.parse = .ok memberExpr ∧
    (memberQuery.run nestedWorld nestedContext ()).passes ≤ 3 := by
  obtain ⟨last, hle, hrun, -⟩ := run_ends_within_distinctKeys nestedWorld memberQuery memberExpr
    parse_memberQuery nestedContext ()
  have hkeys : memberExpr.distinctKeys.length = 2 := by decide
  exact ⟨parse_memberQuery, by rw [hrun]; change last + 1 ≤ 3; omega⟩

end Query

end FilterQuery
