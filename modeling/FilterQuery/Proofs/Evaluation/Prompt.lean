import FilterQuery.Proofs.Evaluation.Agreement
import FilterQuery.Proofs.Evaluation.Passes
import FilterQuery.Proofs.Runner.History

/-!
# Proofs/Evaluation/Prompt — deferring answers changes no result

A world is **steady** if its answers do not depend on its state.  It follows a reference then, and
so does the **prompt** world, in which everything that would be deferred is delivered at once.

    run        start ──settle──▸ pass ──settle──▸ pass ──▸ …   nothing waits after the last one
    runOnce    start ───────────▸ pass                         nothing ever waits

Settling keeps a runner sound and ends every wait (`Sound.settle`), so both come to what the
reference says, and **a run has the result of a single pass over the prompt world**.
-/

namespace FilterQuery

variable {σ : Type} {w : World σ} {ref : Reference} {e : Expr}

/-! ## Steady worlds -/

namespace World

/-- Hosts have the same members at any time, and what capabilities answer, at once or later, depends
on the capability and its arguments only. -/
structure Steady (w : World σ) : Prop where
  lookup : ∀ h name s t, (w.lookup h name s).1 = (w.lookup h name t).1
  call : ∀ c args s s' t t',
    ((w.call c args s).1.deliver s').1 = ((w.call c args t).1.deliver t').1

/-- The world that delivers at once what `w` defers. -/
def prompt (w : World σ) : World σ where
  call c args s :=
    let answer := w.call c args s
    let delivered := answer.1.deliver answer.2
    (.immediate delivered.1, delivered.2)
  lookup := w.lookup

/-- What a context has for members and capabilities in one state of the world. -/
def reference (w : World σ) (context : Option Value) (world : σ) : Reference where
  context := context
  member h name := (w.lookup h name world).1
  answer c args := ((w.call c args world).1.deliver world).1

variable (context : Option Value) (world : σ)

theorem Steady.follows (hw : w.Steady) : w.Follows (w.reference context world) where
  lookup h name s := hw.lookup h name s world
  call c args s t := hw.call c args s t world world

theorem Steady.follows_prompt (hw : w.Steady) : w.prompt.Follows (w.reference context world) where
  lookup h name s := hw.lookup h name s world
  call c args s _ := hw.call c args s _ world world

end World

/-! ## Settling -/

namespace Runner

theorem SoundWith.mono {ds ds' : List (Deferral σ)} {r : Runner σ} (h : r.SoundWith ref e ds)
    (hiff : ∀ d, d ∈ ds' ↔ d ∈ ds) : r.SoundWith ref e ds' where
  context := h.context
  ready := h.ready
  waiting key hkey :=
    let ⟨d, hd, heq⟩ := h.waiting key hkey
    ⟨d, (hiff d).2 hd, heq⟩
  deferral d hd := h.deferral d ((hiff d).1 hd)

/-- A value that arrives is the one that its deferral stands for, and one wait less is left. -/
theorem SoundWith.complete {d : Deferral σ} {ds : List (Deferral σ)} {r : Runner σ}
    (h : r.SoundWith ref e (d :: ds)) : (r.complete d).SoundWith ref e ds := by
  refine h.insert_ready (h.deferral d List.mem_cons_self r.world) rfl rfl
    (List.subset_cons_self d ds) ?_
  intro d' hd' hne
  rcases List.mem_cons.1 hd' with rfl | hd'
  · exact absurd rfl hne
  · exact hd'

theorem SoundWith.foldl_complete {ds : List (Deferral σ)} {r : Runner σ}
    (h : r.SoundWith ref e ds) : (ds.foldl Runner.complete r).SoundWith ref e [] := by
  induction ds generalizing r with
  | nil => exact h
  | cons d ds ih => exact ih h.complete

/-- **Settling ends every wait.** -/
theorem Sound.settle {r : Runner σ} (h : r.Sound ref e) : r.settle.SoundWith ref e [] := by
  have hqueue : Runner.SoundWith ref e (Deferral.byDelay r.pending) { r with pending := [] } :=
    SoundWith.mono ⟨h.context, h.ready, h.waiting, h.deferral⟩ fun _ =>
      (Deferral.byDelay_perm r.pending).mem_iff
  exact hqueue.foldl_complete

theorem Sound.not_waiting {r : Runner σ} (h : r.Sound ref e) (hpending : r.pending = []) :
    ¬ r.Waiting := by
  rw [Sound, hpending] at h
  exact SoundWith.not_waiting h

theorem Sound.sound_settle {r : Runner σ} (h : r.Sound ref e) : r.settle.Sound ref e := by
  rw [Sound, pending_settle]
  exact h.settle

end Runner

/-! ## Passes -/

namespace Expr

open Runner

/-- A pass that defers nothing ends with nothing to wait for. -/
theorem not_waiting_of_not_metDeferred {r : Runner σ} (hr : r.Sound ref e)
    (h : ¬ metDeferred r (e.pass w r).2) : ¬ (e.pass w r).2.Waiting := by
  intro hwait
  have hkeep : KeepsWaiting r.settle (e.pass w r).2 := closed_keepsWaiting.evaluate e true r.settle
  rcases hkeep.fresh hwait with hbefore | hlt
  · exact absurd hbefore hr.settle.not_waiting
  · exact absurd hlt h

section

variable (hw : w.Follows ref) (he : e.IsCondition) (hcoherent : e.Coherent)

include hw he hcoherent

/-- **Every pass leaves the runner sound.** -/
theorem sound_stateAt {r : Runner σ} (hr : r.Sound ref e) (n : Nat) :
    (stateAt w e r n).Sound ref e := by
  induction n with
  | zero => exact hr
  | succ n ih => exact (answers_holds hw he hcoherent ih.sound_settle).1

/-- **A pass that defers nothing has the right answer.** -/
theorem answer_of_not_metDeferred {r : Runner σ} (hr : r.Sound ref e)
    (h : ¬ metDeferred r (e.pass w r).2) : (e.pass w r).1 = Reference.truthy (ref.denote e) := by
  obtain ⟨-, hwait | hanswer⟩ := answers_holds (w := w) hw he hcoherent hr.sound_settle
  · exact absurd hwait (not_waiting_of_not_metDeferred hr h)
  · exact hanswer

/-- **The loop ends with the right answer.** -/
theorem answer_converge {r : Runner σ} (hr : r.Sound ref e) :
    (e.converge w r).answer = Reference.truthy (ref.denote e) := by
  obtain ⟨last, heq, -, hend⟩ := converge_eq_stateAt w e r
  rw [heq]
  exact answer_of_not_metDeferred hw he hcoherent (sound_stateAt hw he hcoherent hr last) hend

end

/-! ## One pass over the prompt world -/

theorem closed_prompt : Closed w.prompt fun r s => s.pending = r.pending where
  refl _ := rfl
  trans h h' := h'.trans h
  call _ _ _ _ _ := rfl
  lookup v _ _ := by cases v <;> rfl

/-- **A pass over the prompt world queues nothing, and has the right answer.** -/
theorem holds_prompt (hw : w.prompt.Follows ref) (he : e.IsCondition) (hcoherent : e.Coherent)
    {r : Runner σ} (hr : r.Sound ref e) (hpending : r.pending = []) :
    (e.holds w.prompt r).2.pending = [] ∧
      (e.holds w.prompt r).1 = Reference.truthy (ref.denote e) := by
  have hnone : (e.holds w.prompt r).2.pending = [] :=
    (closed_prompt.evaluate e true r).trans hpending
  obtain ⟨hsound, hwait | hanswer⟩ := answers_holds hw he hcoherent hr
  · exact absurd hwait (hsound.not_waiting hnone)
  · exact ⟨hnone, hanswer⟩

end Expr

namespace Query

open FilterQuery.Expr

/-- **A run has the result of a single pass in which nothing is deferred,** and it is an answer: for
every query that parses and calls what has one key with one list of arguments only, and for every
world that is steady, however long it defers its answers and whatever they contain. -/
theorem run_result_eq_runOnce_prompt (hw : w.Steady) (q : Query) (e : Expr) (h : q.parse = .ok e)
    (hcoherent : e.Coherent) (context : Option Value) (world : σ) :
    ∃ b, (q.run w context world).result = .ok b ∧
      (q.runOnce w.prompt context world).result = .ok b := by
  have he := q.isCondition h
  have hstart : (Runner.start context world).Sound (w.reference context world) e :=
    Runner.sound_start context world _ _
  have hrun := answer_converge (hw.follows context world) he hcoherent hstart
  obtain ⟨hnone, honce⟩ :=
    holds_prompt (hw.follows_prompt context world) he hcoherent hstart rfl
  refine ⟨Reference.truthy ((w.reference context world).denote e), ?_, ?_⟩
  · rw [run, h]
    exact congrArg Except.ok hrun
  · rw [runOnce, h]
    dsimp only
    rw [hnone]
    exact congrArg Except.ok honce

theorem steady_nestedWorld : nestedWorld.Steady where
  lookup _ _ _ _ := rfl
  call c _ _ _ _ _ := by
    by_cases hc : c.id = 0 <;> simp [nestedWorld, hc, Outcome.deliver]

theorem coherent_memberExpr : memberExpr.Coherent := by
  have hsites : memberExpr.sites = [.step (.root "a") "b", .root "a"] := rfl
  intro p hp q hq _
  rw [hsites] at hp hq
  simp only [List.mem_cons, List.not_mem_nil, or_false] at hp hq
  rcases hp with rfl | rfl <;> rcases hq with rfl | rfl <;> rfl

theorem run_memberQuery_result :
    nestedWorld.Steady ∧ memberQuery.parse = .ok memberExpr ∧ memberExpr.Coherent ∧
      (memberQuery.run nestedWorld nestedContext ()).result = .ok true := by
  obtain ⟨b, hrun, honce⟩ := run_result_eq_runOnce_prompt steady_nestedWorld memberQuery memberExpr
    parse_memberQuery coherent_memberExpr nestedContext ()
  have htrue : (memberQuery.runOnce nestedWorld.prompt nestedContext ()).result = .ok true := by
    with_unfolding_all rfl
  refine ⟨steady_nestedWorld, parse_memberQuery, coherent_memberExpr, ?_⟩
  rw [hrun, ← honce, htrue]

end Query

end FilterQuery
