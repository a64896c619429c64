import FilterQuery.Proofs.Evaluation.Lockstep
import FilterQuery.Proofs.Evaluation.Phases

/-!
# Proofs/Evaluation/Repetition — a second evaluation finds everything in the memo

    r ──evaluate e──▸ s ──evaluate e──▸ t       one result twice, and from s to t lookups only

While nothing is settled the memo only grows.  Each invocation of the first evaluation has left an
answer or a wait under its key, and on any later runner that remembers them it comes to the same at
once (`Repeats`).  So **the second of two evaluations in a row repeats the first** and calls
nothing, for every expression and on every runner; and the runner at the end of a run is a fixpoint
of its passes (`second_evaluation_repeats`).
-/

namespace FilterQuery

variable {σ : Type} {w : World σ}

/-- What an invocation comes to if this is known under its key. -/
def Slot.resolved : Slot → Resolved
  | .ready v => .value v
  | .pending => .pending

namespace Runner

/-! ## Remembering -/

/-- From one runner to a later one of the same pass: the context is the same, and so is everything
that is known under a key, waits included. -/
structure Remembers (r s : Runner σ) : Prop where
  context : s.context = r.context
  slot : ∀ key slot, Fields.get? r.memo key = some slot → Fields.get? s.memo key = some slot

theorem Remembers.refl (r : Runner σ) : Remembers r r :=
  ⟨rfl, fun _ _ h => h⟩

theorem Remembers.trans {r s t : Runner σ} (h : Remembers r s) (h' : Remembers s t) :
    Remembers r t :=
  ⟨h'.context.trans h.context, fun key slot hr => h'.slot key slot (h.slot key slot hr)⟩

/-- What is written under a key that is new makes nothing forgotten. -/
theorem remembers_insert {r s : Runner σ} {key : String} {slot : Slot}
    (hkey : Fields.get? r.memo key = none) (hcontext : s.context = r.context)
    (hmemo : s.memo = Fields.insert r.memo key slot) : Remembers r s where
  context := hcontext
  slot key' slot' h := by
    have hne : key' ≠ key := fun heq => by rw [heq, hkey] at h; cases h
    rw [hmemo, Fields.get?_insert, if_neg hne, h]

theorem invoke_of_slot {r : Runner σ} {key : String} {slot : Slot}
    (h : Fields.get? r.memo key = some slot) (c : Capability) (args : List Value) :
    r.invoke w key c args = (slot.resolved, r) := by
  rw [invoke, h]
  cases slot <;> rfl

/-- **An invocation forgets nothing, and what it comes to is known under its key afterwards.** -/
theorem invoke_remembers (w : World σ) (key : String) (c : Capability) (args : List Value)
    (r : Runner σ) : Remembers r (r.invoke w key c args).2 ∧
      ∃ slot, Fields.get? (r.invoke w key c args).2.memo key = some slot ∧
        (r.invoke w key c args).1 = slot.resolved := by
  rcases hkey : Fields.get? r.memo key with _ | slot
  · have hinvoke : r.invoke w key c args = r.call w key c args := by rw [invoke, hkey]
    rw [hinvoke, call]
    dsimp only
    split
    · exact ⟨remembers_insert hkey rfl rfl, _, by rw [Fields.get?_insert, if_pos rfl], rfl⟩
    · exact ⟨remembers_insert hkey rfl rfl, _, by rw [Fields.get?_insert, if_pos rfl], rfl⟩
  · rw [invoke_of_slot hkey]
    exact ⟨.refl r, slot, hkey, rfl⟩

/-! ## Looking only -/

/-- From `r` to `s` hosts have been asked for members, and nothing else has happened: no capability
has been called, and the memo, the queue and the count of deferred answers are as they were. -/
structure LooksOnly (r s : Runner σ) : Prop where
  context : s.context = r.context
  memo : s.memo = r.memo
  pending : s.pending = r.pending
  deferredTotal : s.deferredTotal = r.deferredTotal
  log : ∃ events, s.log = r.log ++ events ∧ ∀ event ∈ events, ∃ h name, event = .get h name

namespace LooksOnly

theorem refl (r : Runner σ) : LooksOnly r r :=
  ⟨rfl, rfl, rfl, rfl, [], (List.append_nil _).symm, by simp⟩

theorem trans {r s t : Runner σ} (h : LooksOnly r s) (h' : LooksOnly s t) : LooksOnly r t := by
  obtain ⟨xs, hxs, hgets⟩ := h.log
  obtain ⟨ys, hys, hgets'⟩ := h'.log
  exact ⟨h'.context.trans h.context, h'.memo.trans h.memo, h'.pending.trans h.pending,
    h'.deferredTotal.trans h.deferredTotal, xs ++ ys, by rw [hys, hxs, List.append_assoc],
    List.forall_mem_append.2 ⟨hgets, hgets'⟩⟩

theorem remembers {r s : Runner σ} (h : LooksOnly r s) : Remembers r s :=
  ⟨h.context, fun _ _ hslot => h.memo.symm ▸ hslot⟩

end LooksOnly

theorem lookup_looksOnly (w : World σ) (v : Value) (name : String) (r : Runner σ) :
    LooksOnly r (r.lookup w v name).2 := by
  cases v with
  | host h => exact ⟨rfl, rfl, rfl, rfl, [.get h name], rfl, by simp⟩
  | _ => exact .refl r

/-! ## Repeating -/

/-- What `f` comes to on a runner it comes to on every later one that remembers what is known then,
and it only looks members up there. -/
structure Repeats {α : Type} (f : Runner σ → α × Runner σ) : Prop where
  remembers : ∀ r, Remembers r (f r).2
  again : ∀ r s, Remembers (f r).2 s → (f s).1 = (f r).1 ∧ LooksOnly s (f s).2

theorem Repeats.bind {α β : Type} {f : Runner σ → α × Runner σ} {g : α → Runner σ → β × Runner σ}
    (hf : Repeats f) (hg : ∀ a, Repeats (g a)) : Repeats fun r => g (f r).1 (f r).2 where
  remembers r := (hf.remembers r).trans ((hg _).remembers _)
  again r s h := by
    obtain ⟨hsame, hlook⟩ := hf.again r s (((hg _).remembers _).trans h)
    obtain ⟨hsame', hlook'⟩ := (hg (f r).1).again (f r).2 (f s).2 (h.trans hlook.remembers)
    simp only [hsame]
    exact ⟨hsame', hlook.trans hlook'⟩

theorem repeats_lookup (hw : w.SteadyMembers) (v : Value) (name : String) :
    Repeats fun r => r.lookup w v name where
  remembers r := (lookup_looksOnly w v name r).remembers
  again r s _ := by
    refine ⟨?_, lookup_looksOnly w v name s⟩
    cases v with
    | host h => exact hw h name s.world r.world
    | _ => rfl

theorem repeats_invoke (key : String) (c : Capability) (args : List Value) :
    Repeats fun r => r.invoke w key c args where
  remembers r := (invoke_remembers w key c args r).1
  again r s h := by
    obtain ⟨-, slot, hslot, hresult⟩ := invoke_remembers w key c args r
    have hagain := invoke_of_slot (w := w) (h.slot key slot hslot) c args
    simp only [hagain]
    exact ⟨hresult.symm, .refl s⟩

/-- **Evaluations repeat, as lookups and invocations do.** -/
theorem lockstep_repeats (hw : w.SteadyMembers) : Lockstep w w fun _ f _ => Repeats f where
  pure _ := ⟨.refl, fun _ s _ => ⟨rfl, .refl s⟩⟩
  bind hf hg := hf.bind hg
  root := ⟨.refl, fun _ s h => ⟨congrArg Resolved.ofOption h.context, .refl s⟩⟩
  lookup := repeats_lookup hw
  invoke := repeats_invoke

/-- A runner with nothing queued is settled. -/
theorem settle_of_pending_eq_nil {r : Runner σ} (h : r.pending = []) : r.settle = r := by
  obtain ⟨context, memo, pending, total, world, log⟩ := r
  obtain rfl : pending = [] := h
  rfl

end Runner

/-! ## Passes -/

namespace Expr

open Runner

/-- A pass that meets no new deferred value leaves nothing queued. -/
theorem pending_eq_nil_of_not_metDeferred {e : Expr} {r : Runner σ}
    (h : ¬ metDeferred r (e.pass w r).2) : (e.pass w r).2.pending = [] := by
  obtain ⟨-, -, ds, -, -, -, hpending, hmet⟩ := pass_asks w e r
  rw [hpending]
  exact not_not.1 (hmet.not.1 h)

/-- **After a pass that meets no new deferred value, one more pass has its answer and calls
nothing.** -/
theorem pass_repeats (hw : w.SteadyMembers) {e : Expr} {r : Runner σ}
    (h : ¬ metDeferred r (e.pass w r).2) :
    (e.pass w (e.pass w r).2).1 = (e.pass w r).1 ∧
      LooksOnly (e.pass w r).2 (e.pass w (e.pass w r).2).2 := by
  have hsettled := settle_of_pending_eq_nil (pending_eq_nil_of_not_metDeferred h)
  obtain ⟨hsame, hlook⟩ := ((lockstep_repeats hw).evaluate e true).again r.settle _ (.refl _)
  have hpass : e.pass w (e.pass w r).2 = e.holds w (e.pass w r).2 := by rw [pass, hsettled]
  rw [hpass]
  exact ⟨congrArg Resolved.isTruthy hsame, hlook⟩

end Expr

namespace Query

open FilterQuery.Expr FilterQuery.Runner

/-- **Evaluating twice is evaluating once.**  Hosts keep their members, and capabilities answer what
they like, at once or later.  Whatever expression is evaluated on whatever runner, a second
evaluation right after the first one has the same result, and it calls no capability and changes
neither the memo nor the queue nor the count of deferred answers.  And a run ends in a fixpoint: one
more pass would have the answer of the run, with lookups only. -/
theorem second_evaluation_repeats (hw : w.SteadyMembers) :
    (∀ (e : Expr) (flag : Bool) (r : Runner σ),
      let out := e.evaluate w flag r
      let again := e.evaluate w flag out.2
      again.1 = out.1 ∧ LooksOnly out.2 again.2) ∧
    ∀ (q : Query) (e : Expr), q.parse = .ok e → ∀ (context : Option Value) (world : σ),
      let run := q.run w context world
      let more := e.pass w run.runner
      run.result = .ok more.1 ∧ LooksOnly run.runner more.2 := by
  refine ⟨fun e flag r => ?_, fun q e h context world => ?_⟩
  · exact ((lockstep_repeats hw).evaluate e flag).again r _ (.refl _)
  · obtain ⟨last, hrun, -, hend⟩ := run_eq_stateAt w q e h context world
    obtain ⟨hsame, hlook⟩ := pass_repeats hw hend
    rw [hrun]
    exact ⟨congrArg Except.ok hsame.symm, hlook⟩

theorem memberQuery_repeats :
    tallyWorld.SteadyMembers ∧ memberQuery.parse = .ok memberExpr ∧
      let out := memberExpr.evaluate tallyWorld true (start (some (.host ⟨0⟩)) 0)
      let again := memberExpr.evaluate tallyWorld true out.2
      let run := memberQuery.run tallyWorld (some (.host ⟨0⟩)) 0
      (out.2.pendingKeys = ["a"] ∧ again.1 = out.1 ∧ LooksOnly out.2 again.2) ∧
        run.passes = 2 ∧ run.result = .ok (memberExpr.pass tallyWorld run.runner).1 ∧
        LooksOnly run.runner (memberExpr.pass tallyWorld run.runner).2 := by
  have hsteady : tallyWorld.SteadyMembers := fun _ _ _ _ => rfl
  refine ⟨hsteady, parse_memberQuery, ?_⟩
  intro out again run
  obtain ⟨hevaluations, hruns⟩ := second_evaluation_repeats hsteady
  obtain ⟨hsame, hlook⟩ := hevaluations memberExpr true (start (some (.host ⟨0⟩)) 0)
  obtain ⟨hresult, hmore⟩ := hruns memberQuery memberExpr parse_memberQuery (some (.host ⟨0⟩)) 0
  exact ⟨⟨by with_unfolding_all rfl, hsame, hlook⟩, by with_unfolding_all rfl, hresult, hmore⟩

end Query

end FilterQuery
