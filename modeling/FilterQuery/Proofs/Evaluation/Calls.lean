import FilterQuery.Proofs.Evaluation.Stability
import FilterQuery.Proofs.Evaluation.Visits
import FilterQuery.Proofs.Runner.Ledger

/-!
# Proofs/Evaluation/Calls — without alternatives nothing is called in vain

    prompt   a  a.b  c  f(c)                        one pass, nothing waits
    run      a │ a.b  c │ f(c) │                    passes that wait cut the chain, and go on later

What waits counts as false, so a pass that waits may leave an `and` early, but it goes on behind an
`or` that it should have left.  Without any `or` **a pass makes calls only that the reference makes,
and all of them if nothing waits at its end** (`visits_condition`).  So a run over all its passes
calls what one pass in which nothing is deferred calls (`mem_run_log_iff_of_conjunctive`).
-/

namespace FilterQuery

variable {σ : Type} {w : World σ} {ref : Reference} {e : Expr}

theorem Runner.CallsOnly.settle {sites : List Expr} {r : Runner σ} (h : r.CallsOnly ref sites) :
    r.settle.CallsOnly ref sites :=
  fun key c args hmem => h key c args (mem_log_settle.1 hmem)

namespace Expr

open Runner Reference

/-! ## Conjunctive conditions -/

/-- All chains in the expression are joined by `and`. -/
def Conjunctive (e : Expr) : Prop :=
  ∀ op operands, e.HasPart (.chain op operands) → op = .and

theorem Conjunctive.child {x y : Expr} (h : x.Conjunctive) (hy : y ∈ x.children) :
    y.Conjunctive :=
  fun op operands hpart => h op operands (hpart.of_mem_children hy)

/-- What is no `or` and is made of such expressions only is one. -/
theorem conjunctive_of_children {x : Expr} (hx : ∀ operands, x ≠ .chain .or operands)
    (h : ∀ y ∈ x.children, y.Conjunctive) : x.Conjunctive := by
  intro op operands hpart
  rcases hpart.eq_or_of_child with rfl | ⟨y, hy, hpart⟩
  · cases op with
    | and => rfl
    | or => exact absurd rfl (hx operands)
  · exact h y hy op operands hpart

/-! ## Truths -/

/-- A chain whose value is decided keeps it. -/
theorem denoteMore_of_decides {op : Connector} {value : Bool} (hdecided : op.decides value = true)
    (es : List Expr) : ref.denoteMore op es value = value := by
  induction es with
  | nil => rfl
  | cons x xs ih => rw [denoteMore, if_pos hdecided, ih]

/-- If the rest of a chain is true in a pass it is true, also where the chain has come to true by
then while the pass waits. -/
theorem denoteMore_of_evaluateMore (op : Connector) {es : List Expr}
    (hes : ∀ x ∈ es, IsCondition x)
    (hsound : ∀ x ∈ es, ∀ r : Runner σ, r.Sound ref e → (x.evaluate w true r).2.Sound ref e)
    (h : ∀ x ∈ es, ∀ r : Runner σ, r.Sound ref e →
      (x.evaluate w true r).1.isTruthy = true → truthy (ref.denote x) = true)
    {value value' : Bool} (hvalue : value = true → value' = true) {r : Runner σ}
    (hr : r.Sound ref e) (htrue : (evaluateMore w op es true value r).1 = true) :
    ref.denoteMore op es value' = true := by
  induction es generalizing value value' r with
  | nil => exact hvalue htrue
  | cons x xs ih =>
    by_cases hdecided : op.decides value = true
    · rw [evaluateMore_of_decides hdecided fun y hy => (hes y hy).isTest] at htrue
      obtain rfl : value = true := htrue
      rw [hvalue rfl, denoteMore_of_decides hdecided]
    · by_cases hdecided' : op.decides value' = true
      · rw [denoteMore_of_decides hdecided']
        exact eq_true_of_decides hvalue hdecided hdecided'
      · obtain ⟨-, hxs⟩ := List.forall_mem_cons.1 hes
        obtain ⟨hsoundx, hsoundxs⟩ := List.forall_mem_cons.1 hsound
        obtain ⟨htruex, htruexs⟩ := List.forall_mem_cons.1 h
        rw [evaluateMore, if_neg hdecided] at htrue
        rw [denoteMore, if_neg hdecided']
        exact ih hxs hsoundxs htruexs (htruex r hr) (hsoundx r hr) htrue

section

variable (hw : w.Follows ref) (he : e.IsCondition) (hcoherent : e.Coherent)

include hw he hcoherent

/-- **What is true in a pass is true,** whatever is waited for. -/
theorem truthy_denote_of_isTruthy {x : Expr} (hx : IsCondition x) (hsub : x.sites ⊆ e.sites)
    (r : Runner σ) (hr : r.Sound ref e) (htrue : (x.evaluate w true r).1.isTruthy = true) :
    truthy (ref.denote x) = true := by
  induction hx generalizing r with
  | @comparison left right op hleft hright =>
    have hsubLeft := List.Subset.trans (sites_subset_comparison_left left right op) hsub
    have hsubRight := List.Subset.trans (sites_subset_comparison_right left right op) hsub
    have hl := hleft.resolves hw he hcoherent hsubLeft true r hr
    have hrt := hright.resolves hw he hcoherent hsubRight true _ hl.1
    obtain ⟨hnel, hner⟩ := ne_pending_of_testResolved htrue
    change testResolved op _ _ = true at htrue
    rw [hl.2.resolve_left fun h => hnel h.1, hrt.2.resolve_left fun h => hner h.1,
      testResolved_ofOption] at htrue
    exact htrue
  | @chain op operands hne hoperands ih =>
    obtain ⟨first, more, rfl⟩ := List.exists_cons_of_ne_nil hne
    have hsubs : ∀ x ∈ first :: more, x.sites ⊆ e.sites := fun x hx =>
      List.Subset.trans (sites_subset_sitesAll hx) hsub
    have hsound : ∀ x ∈ first :: more, ∀ r : Runner σ, r.Sound ref e →
        (x.evaluate w true r).2.Sound ref e := fun x hx r hr =>
      (decides_condition hw he hcoherent (hoperands x hx) (hsubs x hx) r hr).1
    have htruths := fun x hx => ih x hx (hsubs x hx)
    exact denoteMore_of_evaluateMore op (List.forall_mem_cons.1 hoperands).2
      (List.forall_mem_cons.1 hsound).2 (List.forall_mem_cons.1 htruths).2
      (htruths first List.mem_cons_self r hr) (hsound first List.mem_cons_self r hr) htrue
  | group _ ih => exact ih hsub r hr htrue

/-! ## What conditions visit -/

/-- The rest of an `and` chain visits what the reference reaches in it, if the chain stands where
the reference stands or at false for something that it waits for. -/
theorem visitsMore {es : List Expr} (hes : ∀ x ∈ es, IsCondition x)
    (hsub : sitesAll es ⊆ e.sites)
    (h : ∀ x ∈ es, ∀ r : Runner σ, r.Sound ref e →
      Visits ref (ref.reached x) r (x.evaluate w true r).2)
    {value value' : Bool} {r : Runner σ} (hr : r.Sound ref e)
    (htrue : value = true → value' = true) (hagree : r.Waiting ∨ value = value') :
    Visits ref (ref.reachedMore .and es value') r (evaluateMore w .and es true value r).2 := by
  induction es generalizing value value' r with
  | nil => exact .refl ref r
  | cons x xs ih =>
    cases value with
    | false =>
      rw [evaluateMore_of_decides rfl fun y hy => (hes y hy).isTest]
      rcases hagree with hwait | rfl
      · exact .of_waiting hwait _
      · exact .refl ref r
    | true =>
      obtain rfl := htrue rfl
      obtain ⟨hx, hxs⟩ := List.forall_mem_cons.1 hes
      obtain ⟨hsubx, hsubxs⟩ := List.append_subset.1 hsub
      obtain ⟨hvisitsx, hvisitsxs⟩ := List.forall_mem_cons.1 h
      obtain ⟨hsound, hanswer⟩ :=
        (decides_condition hw he hcoherent hx hsubx r hr).isTruthy
      exact (hvisitsx r hr).trans (ih hxs hsubxs hvisitsxs hsound
        (truthy_denote_of_isTruthy hw he hcoherent hx hsubx r hr) hanswer)

/-- **A condition without alternatives visits what the reference reaches,** and nothing else. -/
theorem visits_condition {x : Expr} (hx : IsCondition x) (hand : x.Conjunctive)
    (hsub : x.sites ⊆ e.sites) (r : Runner σ) (hr : r.Sound ref e) :
    Visits ref (ref.reached x) r (x.evaluate w true r).2 := by
  induction hx generalizing r with
  | @comparison left right op hleft hright =>
    have hsubLeft := List.Subset.trans (sites_subset_comparison_left left right op) hsub
    have hsubRight := List.Subset.trans (sites_subset_comparison_right left right op) hsub
    have hl := hleft.resolves hw he hcoherent hsubLeft true r hr
    exact (hleft.visits hw he hcoherent hsubLeft true r hr).trans
      (hright.visits hw he hcoherent hsubRight true _ hl.1)
  | @chain op operands hne hoperands ih =>
    obtain rfl := hand op operands .self
    obtain ⟨first, more, rfl⟩ := List.exists_cons_of_ne_nil hne
    obtain ⟨hfirst, hmore⟩ := List.forall_mem_cons.1 hoperands
    obtain ⟨hsubFirst, hsubMore⟩ := List.append_subset.1 hsub
    have hvisits : ∀ x ∈ first :: more, ∀ r : Runner σ, r.Sound ref e →
        Visits ref (ref.reached x) r (x.evaluate w true r).2 := fun x hx =>
      ih x hx (hand.child hx) (List.Subset.trans (sites_subset_sitesAll hx) hsub)
    obtain ⟨hsound, hanswer⟩ :=
      (decides_condition hw he hcoherent hfirst hsubFirst r hr).isTruthy
    exact (hvisits first List.mem_cons_self r hr).trans
      (visitsMore hw he hcoherent hmore hsubMore (List.forall_mem_cons.1 hvisits).2 hsound
        (truthy_denote_of_isTruthy hw he hcoherent hfirst hsubFirst r hr) hanswer)
  | group _ ih => exact ih (hand.child List.mem_cons_self) hsub r hr

/-! ## Passes -/

theorem visits_holds (hand : e.Conjunctive) {r : Runner σ} (hr : r.Sound ref e) :
    Visits ref (ref.reached e) r (e.holds w r).2 :=
  visits_condition hw he hcoherent he hand (List.Subset.refl _) r hr

/-- **A pass that ends with nothing to wait for has called all that the reference calls,** if what
was called before is part of it. -/
theorem mem_log_holds_iff (hand : e.Conjunctive) {r : Runner σ} (hr : r.Sound ref e)
    (hconsistent : r.Consistent) (hcalls : r.CallsOnly ref (ref.reached e))
    (hdone : ¬ (e.holds w r).2.Waiting) {key : String} {c : Capability} {args : List Value} :
    .call key c args ∈ (e.holds w r).2.log ↔ ref.Calls (ref.reached e) key c args := by
  have hvisits := visits_holds hw he hcoherent hand hr
  have honly := hvisits.callsOnly hcalls
  refine ⟨honly key c args, fun hcall => ?_⟩
  obtain ⟨p, hp, rfl, hc, -⟩ := id hcall
  obtain ⟨hafter, -⟩ := closed_evolves.evaluate (w := w) e true r hconsistent
  have hknows := hvisits.covers.resolve_left hdone p hp c hc
  obtain ⟨c', args', hmem⟩ := mem_calledKeys.1 ((hafter.mem_called_iff p.pathKey).2 hknows)
  -- something has been called under the key, and only one call under it is possible
  obtain ⟨rfl, rfl⟩ := Calls.unique he hcoherent (hcall.mono (reached_subset_sites e))
    ((honly _ _ _ hmem).mono (reached_subset_sites e))
  exact hmem

/-- **No pass of the loop calls anything but what the reference calls.** -/
theorem callsOnly_stateAt (hand : e.Conjunctive) {r : Runner σ} (hr : r.Sound ref e)
    (hcalls : r.CallsOnly ref (ref.reached e)) (n : Nat) :
    (stateAt w e r n).CallsOnly ref (ref.reached e) := by
  induction n with
  | zero => exact hcalls
  | succ n ih =>
    have hsound := sound_stateAt hw he hcoherent hr n
    exact (visits_holds hw he hcoherent hand hsound.sound_settle).callsOnly ih.settle

/-- **Once a pass defers nothing, the loop has called what the reference calls.** -/
theorem mem_log_stateAt_iff (hand : e.Conjunctive) {r : Runner σ} (hr : r.Sound ref e)
    (hconsistent : r.Consistent) (hcalls : r.CallsOnly ref (ref.reached e)) {last : Nat}
    (hend : ¬ metDeferred (stateAt w e r last) (stateAt w e r (last + 1))) {key : String}
    {c : Capability} {args : List Value} :
    .call key c args ∈ (stateAt w e r (last + 1)).log ↔
      ref.Calls (ref.reached e) key c args := by
  have hsound := sound_stateAt hw he hcoherent hr last
  have honly := callsOnly_stateAt hw he hcoherent hand hr hcalls last
  obtain ⟨hlast, -⟩ := evolves_stateAt w e r last hconsistent
  obtain ⟨hsettled, -⟩ := evolves_settle _ hlast
  exact mem_log_holds_iff hw he hcoherent hand hsound.sound_settle hsettled honly.settle
    (not_waiting_of_not_metDeferred hsound hend)

end

end Expr

namespace Query

open FilterQuery.Expr

/-- **Without alternatives deferring answers causes no call and saves none.**  A query that joins
conditions with `and` only, and calls what has one key with one list of arguments only, makes the
same calls over all passes of a run as in a single pass in which nothing is deferred, with the same
arguments and under the same keys: in every context, and in every world that is steady, however long
it defers its answers. -/
theorem mem_run_log_iff_of_conjunctive (hw : w.Steady) (q : Query) (e : Expr)
    (h : q.parse = .ok e) (hcoherent : e.Coherent) (hand : e.Conjunctive)
    (context : Option Value) (world : σ) (key : String) (c : Capability) (args : List Value) :
    .call key c args ∈ (q.run w context world).runner.log ↔
      .call key c args ∈ (q.runOnce w.prompt context world).runner.log := by
  have he := q.isCondition h
  have hstart : (Runner.start context world).Sound (w.reference context world) e :=
    Runner.sound_start context world _ _
  have hfresh := Runner.consistent_start context world
  have honly := Runner.callsOnly_start (w.reference context world)
    ((w.reference context world).reached e) context world
  have hprompt := hw.follows_prompt context world
  obtain ⟨hpending, -⟩ := holds_prompt hprompt he hcoherent hstart rfl
  have hdone := (answers_holds hprompt he hcoherent hstart).1.not_waiting hpending
  have honce : (q.runOnce w.prompt context world).runner =
      (e.holds w.prompt (Runner.start context world)).2 := by
    rw [runOnce, h]
    dsimp only
    split <;> rfl
  obtain ⟨last, hrun, -, hend⟩ := run_eq_stateAt w q e h context world
  rw [hrun, honce, mem_log_holds_iff hprompt he hcoherent hand hstart hfresh honly hdone]
  exact mem_log_stateAt_iff (hw.follows context world) he hcoherent hand hstart hfresh honly hend

/-- The query `a.b = 1 AND c = 1`. -/
def gateQuery : Query where
  source := "a.b = 1 AND c = 1"
  tokens := [⟨.segment, "a", 0⟩, ⟨.punct .period, ".", 1⟩, ⟨.segment, "b", 2⟩,
    ⟨.comparator .equal, "=", 4⟩, ⟨.literal .number, "1", 6⟩, ⟨.connector .and, "AND", 8⟩,
    ⟨.segment, "c", 12⟩, ⟨.comparator .equal, "=", 14⟩, ⟨.literal .number, "1", 16⟩,
    ⟨.endOfInput, "", 17⟩]
  ofText_source := by with_unfolding_all rfl

/-- The tree of `gateQuery`. -/
def gateExpr : Expr :=
  .chain .and [memberExpr, .comparison (.root "c") .equal (.literal (.int 1) "1")]

/-- The context of `gateQuery`: the two capabilities of `nestedWorld`. -/
def gateContext : Value :=
  .ofPairs [("a", .capability ⟨0⟩), ("c", .capability ⟨1⟩)]

theorem coherent_gateExpr : gateExpr.Coherent := by
  have hsites : gateExpr.sites = [.step (.root "a") "b", .root "a", .root "c"] := rfl
  intro p hp q hq _
  rw [hsites] at hp hq
  simp only [List.mem_cons, List.not_mem_nil, or_false] at hp hq
  rcases hp with rfl | rfl | rfl <;> rcases hq with rfl | rfl | rfl <;> rfl

theorem conjunctive_gateExpr : gateExpr.Conjunctive := by
  have hroot : ∀ name, (root name).Conjunctive := fun _ =>
    conjunctive_of_children (by simp) (by simp [children])
  have hone : (literal (.int 1) "1").Conjunctive :=
    conjunctive_of_children (by simp) (by simp [children])
  have hstep : (step (root "a") "b").Conjunctive :=
    conjunctive_of_children (by simp) (by simp [children, hroot])
  have hmember : memberExpr.Conjunctive :=
    conjunctive_of_children (by simp [memberExpr]) (by simp [memberExpr, children, hstep, hone])
  have hc : (comparison (root "c") .equal (literal (.int 1) "1")).Conjunctive :=
    conjunctive_of_children (by simp) (by simp [children, hroot, hone])
  exact conjunctive_of_children (by simp [gateExpr]) (by simp [gateExpr, children, hmember, hc])

theorem mem_run_gateQuery_log :
    let run := gateQuery.run nestedWorld gateContext ()
    nestedWorld.Steady ∧ gateQuery.parse = .ok gateExpr ∧ gateExpr.Coherent ∧
      gateExpr.Conjunctive ∧ run.passes = 4 ∧ .call "c" ⟨1⟩ [] ∈ run.runner.log := by
  have hparse : gateQuery.parse = .ok gateExpr := by with_unfolding_all rfl
  have hpasses : (gateQuery.run nestedWorld gateContext ()).passes = 4 := by
    with_unfolding_all rfl
  have hlog : (gateQuery.runOnce nestedWorld.prompt gateContext ()).runner.log =
      [.call "a" ⟨0⟩ [], .call "a.b" ⟨1⟩ [], .call "c" ⟨1⟩ []] := by with_unfolding_all rfl
  have hcalls := mem_run_log_iff_of_conjunctive steady_nestedWorld gateQuery gateExpr hparse
    coherent_gateExpr conjunctive_gateExpr gateContext () "c" ⟨1⟩ []
  exact ⟨steady_nestedWorld, hparse, coherent_gateExpr, conjunctive_gateExpr, hpasses,
    hcalls.2 (by simp [hlog])⟩

end Query

end FilterQuery
