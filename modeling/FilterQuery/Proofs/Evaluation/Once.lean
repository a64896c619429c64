import FilterQuery.Proofs.Evaluation.Repetition

/-!
# Proofs/Evaluation/Once — a single pass refuses what it cannot wait for

    runOnce    start ──pass──▸ r     refused if r has a queue
    run        start ──pass──▸ r     over if the pass has counted no deferred answer
                     ──pass──▸ …

The single pass looks at the queue afterwards, and the loop at the count of deferred answers.  Both
hold exactly what the world has deferred in this pass (`pass_asks`), so **the single pass refuses
exactly the runs that take more than one**, and of every other run it is all
(`runOnce_refuses_deferred`).
-/

namespace FilterQuery.Query

open FilterQuery.Expr FilterQuery.Runner

variable {σ : Type} {w : World σ} {q : Query} {e : Expr}

/-- The first round of the loop is a single pass, for nothing has been deferred before it. -/
theorem pass_start (w : World σ) (e : Expr) (context : Option Value) (world : σ) :
    e.pass w (start context world) = e.holds w (start context world) := by
  rw [Expr.pass, settle_of_pending_eq_nil rfl]

theorem runOnce_of_pending_eq_nil (h : q.parse = .ok e) (context : Option Value) (world : σ)
    (hpending : (e.pass w (start context world)).2.pending = []) :
    q.runOnce w context world =
      ⟨.ok (e.pass w (start context world)).1, 1, (e.pass w (start context world)).2⟩ := by
  rw [pass_start] at hpending ⊢
  rw [runOnce, h]
  dsimp only
  rw [if_pos (List.isEmpty_iff.2 hpending)]

/-- One pass that leaves something pending is refused with the keys it waits for. -/
theorem runOnce_of_pending_ne_nil (h : q.parse = .ok e) (context : Option Value) (world : σ)
    (hpending : (e.pass w (start context world)).2.pending ≠ []) :
    q.runOnce w context world =
      ⟨.error (.deferred (e.pass w (start context world)).2.pendingKeys), 1,
        (e.pass w (start context world)).2⟩ := by
  rw [pass_start] at hpending ⊢
  rw [runOnce, h]
  dsimp only
  rw [if_neg fun hempty => hpending (List.isEmpty_iff.1 hempty)]

/-- **The loop stops after its first pass exactly if this pass meets no deferred value.** -/
theorem run_passes_eq_one_iff (h : q.parse = .ok e) (context : Option Value) (world : σ) :
    (q.run w context world).passes = 1 ↔
      ¬ metDeferred (start context world) (e.pass w (start context world)).2 := by
  obtain ⟨last, hrun, hbefore, hend⟩ := run_eq_stateAt w q e h context world
  rw [hrun]
  refine ⟨fun hone => ?_, fun hmet => ?_⟩
  · obtain rfl : last = 0 := Nat.succ.inj hone
    exact hend
  · have hlast : ¬ 0 < last := fun hpos => hmet (hbefore 0 hpos)
    exact congrArg (· + 1) (Nat.eq_zero_of_not_pos hlast)

theorem run_of_passes_eq_one (h : q.parse = .ok e) (context : Option Value) (world : σ)
    (hone : (q.run w context world).passes = 1) :
    q.run w context world =
      ⟨.ok (e.pass w (start context world)).1, 1, (e.pass w (start context world)).2⟩ := by
  obtain ⟨last, hrun, -⟩ := run_eq_stateAt w q e h context world
  rw [hrun] at hone
  obtain rfl : last = 0 := Nat.succ.inj hone
  exact hrun

/-- **A single pass refuses exactly the runs that meet a deferred value, and is all of the others.**
`ds` are the answers that the world has deferred on being asked what the log of the pass says, in
this order.  If there are any, on whatever part of the query, the pass is refused, with the keys
under which these capabilities have been called, and no key is listed twice.  If there are none, the
pass has an answer, and the run has the same one after one pass, with the same calls and lookups and
the same runner at the end.  No run takes one pass otherwise. -/
theorem runOnce_refuses_deferred (w : World σ) (q : Query) (e : Expr) (h : q.parse = .ok e)
    (context : Option Value) (world : σ) :
    let once := q.runOnce w context world
    let run := q.run w context world
    ∃ ds : List (Deferral σ), Asked w world once.runner.log ds once.runner.world ∧
      ((∃ keys, once.result = .error (.deferred keys)) ↔ ds ≠ []) ∧
      (ds ≠ [] → once.result = .error (.deferred (ds.map Deferral.key)) ∧
        (ds.map Deferral.key).Nodup) ∧
      (ds = [] → ∃ answer, once.result = .ok answer ∧ run.result = .ok answer ∧
        run.runner = once.runner) ∧
      (run.passes = 1 ↔ ds = []) := by
  intro once run
  obtain ⟨arrived, asked, ds, harrived, hasked, hlog, hpending, hmet⟩ :=
    pass_asks w e (start context world)
  -- nothing has been queued before the pass, so its log is what it has asked
  obtain rfl : arrived = [] := harrived.events_eq_nil
  have hone : run.passes = 1 ↔ ds = [] :=
    (run_passes_eq_one_iff h context world).trans (hmet.not.trans not_not)
  have hasked' : Asked w world (e.pass w (start context world)).2.log ds
      (e.pass w (start context world)).2.world := by
    rw [hlog]
    exact hasked
  by_cases hds : ds = []
  · have honce : once = _ := runOnce_of_pending_eq_nil h context world (hpending.trans hds)
    have hrun : run = _ := run_of_passes_eq_one h context world (hone.2 hds)
    refine ⟨ds, ?_, ?_, fun hne => absurd hds hne, fun _ => ?_, hone⟩
    · rw [honce]
      exact hasked'
    · rw [honce]
      simp [hds]
    · rw [honce, hrun]
      exact ⟨_, rfl, rfl, rfl⟩
  · have honce : once = _ := runOnce_of_pending_ne_nil h context world (hpending ▸ hds)
    have hconsistent : (e.pass w (start context world)).2.Consistent :=
      (evolves_stateAt w e _ 1 (consistent_start context world)).1
    have hresult : once.result = .error (.deferred (ds.map Deferral.key)) := by
      rw [honce, pendingKeys, hpending]
    refine ⟨ds, ?_, iff_of_true ⟨_, hresult⟩ hds, fun _ => ⟨hresult, ?_⟩,
      fun heq => absurd heq hds, hone⟩
    · rw [honce]
      exact hasked'
    · rw [← hpending]
      exact hconsistent.nodup_queue

/-- A world in which the capability `0` answers at once, and every other one later. -/
def tardyWorld : World Unit where
  call c _ s := (if c.id = 0 then .immediate (.int 1) else .deferred (.ofValue 0 (.int 1)), s)
  lookup _ _ s := (none, s)

theorem runOnce_memberQuery : memberQuery.parse = .ok memberExpr ∧
    let prompt := some (.ofPairs [("a", .ofPairs [("b", .capability ⟨0⟩)])])
    let tardy := some (.ofPairs [("a", .ofPairs [("b", .capability ⟨1⟩)])])
    ((∃ keys, (memberQuery.runOnce tardyWorld tardy ()).result = .error (.deferred keys)) ∧
      (memberQuery.run tardyWorld tardy ()).passes ≠ 1) ∧
    (memberQuery.run tardyWorld prompt ()).result = .ok true ∧
      (memberQuery.run tardyWorld prompt ()).runner =
        (memberQuery.runOnce tardyWorld prompt ()).runner := by
  refine ⟨parse_memberQuery, ?_⟩
  intro prompt tardy
  obtain ⟨ds, -, hrefused, -, -, hpasses⟩ :=
    runOnce_refuses_deferred tardyWorld memberQuery memberExpr parse_memberQuery tardy ()
  obtain ⟨ds', -, hrefused', -, hagree, -⟩ :=
    runOnce_refuses_deferred tardyWorld memberQuery memberExpr parse_memberQuery prompt ()
  have herror : (memberQuery.runOnce tardyWorld tardy ()).result = .error (.deferred ["a.b"]) := by
    with_unfolding_all rfl
  have hok : (memberQuery.runOnce tardyWorld prompt ()).result = .ok true := by
    with_unfolding_all rfl
  have hne : ds ≠ [] := hrefused.1 ⟨_, herror⟩
  have heq : ds' = [] := by
    refine not_not.1 fun hne' => ?_
    obtain ⟨keys, hkeys⟩ := hrefused'.2 hne'
    rw [hok] at hkeys
    cases hkeys
  obtain ⟨answer, honce, hrun, hrunner⟩ := hagree heq
  rw [hok] at honce
  exact ⟨⟨⟨_, herror⟩, hpasses.not.2 hne⟩, hrun.trans honce.symm, hrunner⟩

end FilterQuery.Query
