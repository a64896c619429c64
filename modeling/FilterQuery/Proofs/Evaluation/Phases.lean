import FilterQuery.Proofs.Evaluation.Stability
import FilterQuery.Proofs.Runner.Ledger

/-!
# Proofs/Evaluation/Phases — the log of a run is a sequence of phases

    asked    call f · get h a · call g        the calls and lookups of one pass
    arrived  done g · done f                  all that this pass has deferred, in some order
    asked    call f.b                         the next pass
    arrived  done f.b
    asked    …                                the last pass, which defers nothing

What a world is asked and what it delivers is described here without a runner: `Asked` gives the
answers that are deferred on the way, and `Delivered` is the arrival of deferred answers, each once.
**A run is a sequence of phases, as many as it takes passes** (`run_log_eq_phases`): between two
passes arrives all that the pass before has deferred and nothing else, and nothing is left at the
end.
-/

namespace FilterQuery

variable {σ : Type} {w : World σ}

/-- The world at `s` is asked what `events` say, defers the answers `ds` and ends at `t`. -/
inductive Asked (w : World σ) : σ → List Event → List (Deferral σ) → σ → Prop where
  | nil (s : σ) : Asked w s [] [] s
  | immediate {s t u : σ} {key : String} {c : Capability} {args : List Value} {v : Value}
      {events : List Event} {ds : List (Deferral σ)} :
      w.call c args s = (.immediate v, t) → Asked w t events ds u →
      Asked w s (.call key c args :: events) ds u
  | deferred {s t u : σ} {key : String} {c : Capability} {args : List Value} {result : Deferred σ}
      {events : List Event} {ds : List (Deferral σ)} :
      w.call c args s = (.deferred result, t) → Asked w t events ds u →
      Asked w s (.call key c args :: events) (⟨key, c, result⟩ :: ds) u
  | get {s t u : σ} {h : Host} {name : String} {found : Option Value} {events : List Event}
      {ds : List (Deferral σ)} :
      w.lookup h name s = (found, t) → Asked w t events ds u →
      Asked w s (.get h name :: events) ds u

/-- The deferred answers `ds` arrive one after the other, the world being at `s` before. -/
inductive Delivered : σ → List (Deferral σ) → List Event → σ → Prop where
  | nil (s : σ) : Delivered s [] [] s
  | cons {s t u : σ} {d : Deferral σ} {v : Value} {ds : List (Deferral σ)} {events : List Event} :
      d.result.finish s = (v, t) → Delivered t ds events u →
      Delivered s (d :: ds) (.done d.key d.capability v :: events) u

/-- What is asked in one pass, which answers are deferred, and what arrives before the next pass. -/
structure Phase (σ : Type) where
  asked : List Event
  deferrals : List (Deferral σ)
  arrived : List Event

namespace Phase

/-- The events of a phase. -/
def events (p : Phase σ) : List Event :=
  p.asked ++ p.arrived

/-- A phase that leads the world from `s` to `t`: exactly what it has deferred arrives, in some
order. -/
def Leads (w : World σ) (p : Phase σ) (s t : σ) : Prop :=
  ∃ between order, Asked w s p.asked p.deferrals between ∧ order.Perm p.deferrals ∧
    Delivered between order p.arrived t

end Phase

/-- Phases that lead the world from one state to another. -/
inductive Phased (w : World σ) : σ → List (Phase σ) → σ → Prop where
  | nil (s : σ) : Phased w s [] s
  | cons {s t u : σ} {p : Phase σ} {phases : List (Phase σ)} :
      p.Leads w s t → Phased w t phases u → Phased w s (p :: phases) u

/-! ## Keys -/

theorem Asked.append {s t u : σ} {xs ys : List Event} {ds es : List (Deferral σ)}
    (h : Asked w s xs ds t) (h' : Asked w t ys es u) : Asked w s (xs ++ ys) (ds ++ es) u := by
  induction h with
  | nil => exact h'
  | immediate hcall _ ih => exact .immediate hcall (ih h')
  | deferred hcall _ ih => exact .deferred hcall (ih h')
  | get hlookup _ ih => exact .get hlookup (ih h')

/-- Every deferred answer comes from a call of its own. -/
theorem Asked.keys_sublist {s t : σ} {events : List Event} {ds : List (Deferral σ)}
    (h : Asked w s events ds t) :
    (ds.map Deferral.key).Sublist (events.filterMap Event.calledKey?) := by
  induction h with
  | nil => exact .refl _
  | immediate _ _ ih => exact ih.cons _
  | deferred _ _ ih => exact ih.cons_cons _
  | get _ _ ih => exact ih

theorem Asked.arrivedKeys {s t : σ} {events : List Event} {ds : List (Deferral σ)}
    (h : Asked w s events ds t) : events.filterMap Event.arrivedKey? = [] := by
  induction h with
  | nil => rfl
  | immediate _ _ ih => exact ih
  | deferred _ _ ih => exact ih
  | get _ _ ih => exact ih

theorem Delivered.arrivedKeys {s t : σ} {ds : List (Deferral σ)} {events : List Event}
    (h : Delivered s ds events t) : events.filterMap Event.arrivedKey? = ds.map Deferral.key := by
  induction h with
  | nil => rfl
  | cons _ _ ih => exact congrArg (_ :: ·) ih

/-- Where nothing is queued nothing arrives. -/
theorem Delivered.events_eq_nil {s t : σ} {events : List Event} (h : Delivered s [] events t) :
    events = [] := by
  cases h
  rfl

theorem Delivered.calledKeys {s t : σ} {ds : List (Deferral σ)} {events : List Event}
    (h : Delivered s ds events t) : events.filterMap Event.calledKey? = [] := by
  induction h with
  | nil => rfl
  | cons _ _ ih => exact ih

namespace Phase.Leads

variable {s t : σ} {p : Phase σ}

/-- **In a phase arrives what it has deferred.** -/
theorem arrivedKeys_perm (h : p.Leads w s t) :
    (p.events.filterMap Event.arrivedKey?).Perm (p.deferrals.map Deferral.key) := by
  obtain ⟨between, order, hasked, hperm, harrived⟩ := h
  rw [Phase.events, List.filterMap_append, hasked.arrivedKeys, harrived.arrivedKeys]
  exact hperm.map Deferral.key

/-- Nothing arrives in a phase exactly if nothing is deferred in it. -/
theorem arrivedKeys_eq_nil_iff (h : p.Leads w s t) :
    p.events.filterMap Event.arrivedKey? = [] ↔ p.deferrals = [] := by
  rw [← List.map_eq_nil_iff (f := Deferral.key), ← List.length_eq_zero_iff,
    h.arrivedKeys_perm.length_eq, List.length_eq_zero_iff]

end Phase.Leads

namespace Phased

variable {s t : σ} {phases : List (Phase σ)}

/-- **What arrives is what was deferred.** -/
theorem arrivedKeys_perm (h : Phased w s phases t) :
    ((phases.flatMap Phase.events).filterMap Event.arrivedKey?).Perm
      ((phases.flatMap Phase.deferrals).map Deferral.key) := by
  induction h with
  | nil => exact .refl _
  | cons hp _ ih =>
    simp only [List.flatMap_cons, List.filterMap_append, List.map_append]
    exact hp.arrivedKeys_perm.append ih

/-- Every deferral belongs to a call, in the order of the calls. -/
theorem keys_sublist (h : Phased w s phases t) :
    ((phases.flatMap Phase.deferrals).map Deferral.key).Sublist
      ((phases.flatMap Phase.events).filterMap Event.calledKey?) := by
  induction h with
  | nil => exact .refl _
  | @cons s t u p phases hp _ ih =>
    obtain ⟨between, order, hasked, hperm, harrived⟩ := hp
    simp only [List.flatMap_cons, List.filterMap_append, List.map_append, Phase.events,
      harrived.calledKeys, List.append_nil]
    exact hasked.keys_sublist.append ih

end Phased

namespace Runner

/-! ## What a pass adds -/

/-- From `r` to `s` the world has been asked `events`, and the answers `ds` have been queued. -/
structure Asks (w : World σ) (events : List Event) (ds : List (Deferral σ)) (r s : Runner σ) :
    Prop where
  log : s.log = r.log ++ events
  asked : Asked w r.world events ds s.world
  pending : s.pending = r.pending ++ ds
  total : s.deferredTotal = r.deferredTotal + ds.length

theorem Asks.refl (r : Runner σ) : Asks w [] [] r r :=
  ⟨(List.append_nil _).symm, .nil _, (List.append_nil _).symm, rfl⟩

theorem Asks.trans {xs ys : List Event} {ds es : List (Deferral σ)} {r s t : Runner σ}
    (h : Asks w xs ds r s) (h' : Asks w ys es s t) : Asks w (xs ++ ys) (ds ++ es) r t where
  log := by rw [h'.log, h.log, List.append_assoc]
  asked := h.asked.append h'.asked
  pending := by rw [h'.pending, h.pending, List.append_assoc]
  total := by rw [h'.total, h.total, List.length_append, Nat.add_assoc]

theorem asks_call (key : String) (c : Capability) (args : List Value) (r : Runner σ) :
    ∃ events ds, Asks w events ds r (r.call w key c args).2 := by
  rcases hanswer : w.call c args r.world with ⟨v | result, after⟩
  · refine ⟨[.call key c args], [], ?_⟩
    rw [call, hanswer]
    exact ⟨rfl, .immediate hanswer (.nil _), (List.append_nil _).symm, rfl⟩
  · refine ⟨[.call key c args], [⟨key, c, result⟩], ?_⟩
    rw [call, hanswer]
    exact ⟨rfl, .deferred hanswer (.nil _), rfl, rfl⟩

theorem asks_lookup (v : Value) (name : String) (r : Runner σ) :
    ∃ events ds, Asks w events ds r (r.lookup w v name).2 := by
  cases v with
  | host h => exact ⟨[.get h name], [], rfl, .get rfl (.nil _), (List.append_nil _).symm, rfl⟩
  | _ => exact ⟨[], [], .refl r⟩

/-- **A pass asks the world, and queues all that is deferred.** -/
theorem closed_asks : Closed w fun r s : Runner σ => ∃ events ds, Asks w events ds r s where
  refl r := ⟨[], [], .refl r⟩
  trans := by
    rintro r s t ⟨xs, ds, h⟩ ⟨ys, es, h'⟩
    exact ⟨xs ++ ys, ds ++ es, h.trans h'⟩
  call key c args r _ := asks_call key c args r
  lookup := asks_lookup

theorem delivered_foldl_complete (ds : List (Deferral σ)) (r : Runner σ) :
    ∃ events, (ds.foldl complete r).log = r.log ++ events ∧
      Delivered r.world ds events (ds.foldl complete r).world := by
  induction ds generalizing r with
  | nil => exact ⟨[], (List.append_nil _).symm, .nil _⟩
  | cons d ds ih =>
    obtain ⟨events, hlog, hdelivered⟩ := ih (r.complete d)
    refine ⟨.done d.key d.capability (d.result.finish r.world).1 :: events, ?_, ?_⟩
    · rw [List.foldl_cons, hlog, complete, List.append_assoc]
      rfl
    · exact .cons rfl hdelivered

/-- **Settling lets all of the queue arrive and nothing else.** -/
theorem delivered_settle (r : Runner σ) :
    ∃ events, r.settle.log = r.log ++ events ∧
      Delivered r.world (Deferral.byDelay r.pending) events r.settle.world :=
  delivered_foldl_complete _ _

end Runner

namespace Expr

open Runner

/-! ## Passes as phases -/

/-- One round of the loop from `r`: what was queued arrives, then a pass asks `asked`, of which `ds`
are deferred.  These make up the queue, and there are none exactly if the loop stops. -/
theorem pass_asks (w : World σ) (e : Expr) (r : Runner σ) :
    ∃ arrived asked ds, Delivered r.world (Deferral.byDelay r.pending) arrived r.settle.world ∧
      Asked w r.settle.world asked ds (e.pass w r).2.world ∧
      (e.pass w r).2.log = r.log ++ arrived ++ asked ∧ (e.pass w r).2.pending = ds ∧
      (metDeferred r (e.pass w r).2 ↔ ds ≠ []) := by
  obtain ⟨arrived, hlog, hdelivered⟩ := delivered_settle r
  obtain ⟨asked, ds, hasks⟩ := closed_asks.evaluate (w := w) e true r.settle
  refine ⟨arrived, asked, ds, hdelivered, hasks.asked, hlog ▸ hasks.log, ?_, ?_⟩
  · exact hasks.pending.trans (by rw [pending_settle, List.nil_append])
  · rw [metDeferred, show (e.pass w r).2.deferredTotal = _ from hasks.total, ← List.length_pos_iff]
    omega

/-- The rounds of the loop from `r` up to round `last`, with the log and the world at their end, are
an arrival of what was queued and then `phases`, one for each round. -/
structure InPhases (w : World σ) (e : Expr) (r : Runner σ) (last : Nat) (arrived : List Event)
    (phases : List (Phase σ)) : Prop where
  delivered : Delivered r.world (Deferral.byDelay r.pending) arrived r.settle.world
  phased : Phased w r.settle.world phases (stateAt w e r (last + 1)).world
  length : phases.length = last + 1
  log : (stateAt w e r (last + 1)).log = r.log ++ arrived ++ phases.flatMap Phase.events
  pending : (stateAt w e r (last + 1)).pending = []
  pass : ∀ before p after, phases = before ++ p :: after →
    (stateAt w e r (before.length + 1)).log =
      r.log ++ arrived ++ (before.flatMap Phase.events ++ p.asked) ∧
    (p.deferrals = [] ↔ after = [])

/-- The last round, in which nothing is deferred. -/
theorem inPhases_zero (w : World σ) (e : Expr) (r : Runner σ)
    (hend : ¬ metDeferred r (e.pass w r).2) :
    ∃ arrived phases, InPhases w e r 0 arrived phases := by
  obtain ⟨arrived, asked, ds, hdelivered, hasked, hlog, hpending, hmet⟩ := pass_asks w e r
  have hnil : ds = [] := by simpa using hmet.not.1 hend
  subst hnil
  refine ⟨arrived, [⟨asked, [], []⟩], hdelivered, ?_, rfl, ?_, hpending, ?_⟩
  · exact .cons ⟨_, [], hasked, .refl _, .nil _⟩ (.nil _)
  · simpa [Phase.events, stateAt] using hlog
  · intro before p after hsplit
    obtain ⟨rfl, hp⟩ | ⟨more, -, hp⟩ := List.cons_eq_append_iff.1 hsplit
    · obtain ⟨rfl, rfl⟩ := List.cons.inj hp
      exact ⟨by simpa [stateAt] using hlog, by simp⟩
    · simp at hp

/-- A round that defers something makes a phase with the arrivals of the round after it. -/
theorem InPhases.cons {e : Expr} {r : Runner σ} {last : Nat} {arrived : List Event}
    {phases : List (Phase σ)} (h : InPhases w e (e.pass w r).2 last arrived phases)
    (hmet : metDeferred r (e.pass w r).2) :
    ∃ arrived phases, InPhases w e r (last + 1) arrived phases := by
  obtain ⟨arrived₀, asked, ds, hdelivered, hasked, hlog, hpending, hiff⟩ := pass_asks w e r
  have hqueue : (Deferral.byDelay (e.pass w r).2.pending).Perm ds :=
    hpending ▸ Deferral.byDelay_perm _
  have hlast : stateAt w e r (last + 1 + 1) = stateAt w e (e.pass w r).2 (last + 1) :=
    stateAt_succ w e r (last + 1)
  refine ⟨arrived₀, ⟨asked, ds, arrived⟩ :: phases, hdelivered, ?_, ?_, ?_, ?_, ?_⟩
  · rw [hlast]
    exact .cons ⟨_, _, hasked, hqueue, h.delivered⟩ h.phased
  · rw [List.length_cons, h.length]
  · rw [hlast, h.log, hlog]
    simp [Phase.events]
  · rw [hlast, h.pending]
  · intro before p after hsplit
    obtain ⟨rfl, hp⟩ | ⟨more, rfl, hp⟩ := List.cons_eq_append_iff.1 hsplit
    · have hne : phases ≠ [] := List.ne_nil_of_length_pos (by rw [h.length]; omega)
      obtain ⟨rfl, rfl⟩ := List.cons.inj hp
      exact ⟨by simpa [stateAt] using hlog, by simp [hiff.1 hmet, hne]⟩
    · obtain ⟨hstate, hends⟩ := h.pass more p after hp
      refine ⟨?_, hends⟩
      rw [List.length_cons, stateAt_succ, hstate, hlog]
      simp [Phase.events]

/-- **The rounds up to the first one that defers nothing are phases.** -/
theorem exists_inPhases (w : World σ) (e : Expr) (r : Runner σ) (last : Nat)
    (hbefore : ∀ i < last, metDeferred (stateAt w e r i) (stateAt w e r (i + 1)))
    (hend : ¬ metDeferred (stateAt w e r last) (stateAt w e r (last + 1))) :
    ∃ arrived phases, InPhases w e r last arrived phases := by
  induction last generalizing r with
  | zero => exact inPhases_zero w e r hend
  | succ last ih =>
    have hmet : metDeferred r (e.pass w r).2 := hbefore 0 (Nat.succ_pos last)
    obtain ⟨arrived, phases, h⟩ := ih (e.pass w r).2
      (fun i hi => by
        have hnext := hbefore (i + 1) (Nat.succ_lt_succ hi)
        rwa [stateAt_succ, stateAt_succ] at hnext)
      (by rwa [stateAt_succ, stateAt_succ] at hend)
    exact h.cons hmet

end Expr

namespace Query

open FilterQuery.Expr

/-- **The log of a run is a sequence of phases, one for each pass, and every deferred answer arrives
exactly once.**  The run of a query that parses has an answer; its log is made of phases, each of
them the calls and lookups of its pass, as the runner's log after that pass shows, and then the
arrivals of exactly the answers that the world has deferred on being asked these.  The last pass,
and no other one, defers nothing; nothing is queued at the end.  No two deferred answers have a key
in common, for no key is called twice, and the keys that have arrived are theirs, each once. -/
theorem run_log_eq_phases (w : World σ) (q : Query) (e : Expr) (h : q.parse = .ok e)
    (context : Option Value) (world : σ) :
    let run := q.run w context world
    let state := stateAt w e (Runner.start context world)
    ∃ phases : List (Phase σ),
      (∃ answer, run.result = .ok answer) ∧ phases ≠ [] ∧ run.passes = phases.length ∧
      run.runner.log = phases.flatMap Phase.events ∧ Phased w world phases run.runner.world ∧
      (∀ before p after, phases = before ++ p :: after →
        (state (before.length + 1)).log = before.flatMap Phase.events ++ p.asked ∧
        (p.deferrals = [] ↔ after = [])) ∧
      run.runner.pending = [] ∧ run.runner.calledKeys.Nodup ∧ run.runner.arrivedKeys.Nodup ∧
      run.runner.arrivedKeys.Perm ((phases.flatMap Phase.deferrals).map Deferral.key) := by
  intro run state
  obtain ⟨last, hrun, hbefore, hend⟩ := run_eq_stateAt w q e h context world
  obtain ⟨arrived, phases, hphases⟩ := exists_inPhases w e _ last hbefore hend
  obtain rfl : arrived = [] := hphases.delivered.events_eq_nil
  have hrunner : run.runner = state (last + 1) := congrArg Run.runner hrun
  have hlog : run.runner.log = phases.flatMap Phase.events := hrunner ▸ hphases.log
  have hphased : Phased w world phases run.runner.world := hrunner ▸ hphases.phased
  have hcalled : run.runner.calledKeys.Nodup := by
    have hconsistent := evolves_stateAt w e _ (last + 1) (Runner.consistent_start context world)
    exact hrunner ▸ hconsistent.1.nodup_called
  have hperm : run.runner.arrivedKeys.Perm ((phases.flatMap Phase.deferrals).map Deferral.key) := by
    rw [Runner.arrivedKeys, hlog]
    exact hphased.arrivedKeys_perm
  have hsublist : ((phases.flatMap Phase.deferrals).map Deferral.key).Sublist
      run.runner.calledKeys := by
    rw [Runner.calledKeys, hlog]
    exact hphased.keys_sublist
  have hne : phases ≠ [] := List.ne_nil_of_length_pos (by rw [hphases.length]; omega)
  exact ⟨phases, ⟨_, congrArg Run.result hrun⟩, hne,
    (congrArg Run.passes hrun).trans hphases.length.symm, hlog, hphased, hphases.pass,
    hrunner ▸ hphases.pending, hcalled, hperm.nodup_iff.2 (hsublist.nodup hcalled), hperm⟩

theorem run_memberQuery_eq_phases : memberQuery.parse = .ok memberExpr ∧
    let run := memberQuery.run nestedWorld nestedContext ()
    ∃ first second last : Phase Unit, run.passes = 3 ∧
      run.runner.log = first.events ++ (second.events ++ last.events) ∧
      first.events.filterMap Event.arrivedKey? = ["a"] ∧
      second.events.filterMap Event.arrivedKey? = ["a.b"] ∧
      last.events.filterMap Event.arrivedKey? = [] ∧ run.runner.pending = [] := by
  obtain ⟨phases, -, -, hpasses, hlog, hphased, hpass, hpending, -⟩ :=
    run_log_eq_phases nestedWorld memberQuery memberExpr parse_memberQuery nestedContext ()
  have hthree : (memberQuery.run nestedWorld nestedContext ()).passes = 3 := by
    with_unfolding_all rfl
  have hkeys :
      (memberQuery.run nestedWorld nestedContext ()).runner.arrivedKeys = ["a", "a.b"] := by
    with_unfolding_all rfl
  obtain ⟨first, second, last, rfl⟩ := List.length_eq_three.1 (hpasses.symm.trans hthree)
  obtain _ | ⟨hfirst, _ | ⟨hsecond, _ | ⟨hlast, -⟩⟩⟩ := hphased
  simp only [List.flatMap_cons, List.flatMap_nil, List.append_nil] at hlog
  rw [Runner.arrivedKeys, hlog, List.filterMap_append, List.filterMap_append] at hkeys
  -- the last phase defers nothing, and the two before it do
  have hnone : last.events.filterMap Event.arrivedKey? = [] :=
    hlast.arrivedKeys_eq_nil_iff.2 ((hpass [first, second] last [] rfl).2.2 rfl)
  have hsome : second.events.filterMap Event.arrivedKey? ≠ [] := fun h =>
    absurd ((hpass [first] second [last] rfl).2.1 (hsecond.arrivedKeys_eq_nil_iff.1 h)) (by simp)
  have hsome' : first.events.filterMap Event.arrivedKey? ≠ [] := fun h =>
    absurd ((hpass [] first [second, last] rfl).2.1 (hfirst.arrivedKeys_eq_nil_iff.1 h)) (by simp)
  rw [hnone, List.append_nil] at hkeys
  obtain ⟨ha, hb⟩ : first.events.filterMap Event.arrivedKey? = ["a"] ∧
      second.events.filterMap Event.arrivedKey? = ["a.b"] := by
    obtain ⟨x, xs, hxs⟩ := List.exists_cons_of_ne_nil hsome'
    obtain ⟨y, ys, hys⟩ := List.exists_cons_of_ne_nil hsome
    rw [hxs, hys] at hkeys ⊢
    cases xs <;> simp_all
  exact ⟨parse_memberQuery, first, second, last, hthree, hlog, ha, hb, hnone, hpending⟩

end Query

end FilterQuery
