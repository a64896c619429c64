import FilterQuery.Proofs.Evaluation.Agreement
import FilterQuery.Proofs.Evaluation.Passes
import FilterQuery.Proofs.Runner.History

/-!
# Proofs/Evaluation/Stability — what has come to something comes to it for ever

Answers under keys stay, so a value that does not wait is the same on every later runner, as long as
hosts keep their members (`IsOperand.persists`).  A condition may change from false to true when
something arrives that it has waited for, but **what is true stays true** (`IsCondition.staysTrue`):
a comparison is true of values that are there, and a chain that has met them again decides as before
or earlier.
-/

namespace FilterQuery

variable {σ : Type} {w : World σ}

/-- Hosts have the same members at any time; what capabilities answer is left open. -/
def World.SteadyMembers (w : World σ) : Prop :=
  ∀ h name s t, (w.lookup h name s).1 = (w.lookup h name t).1

namespace Runner

/-- What `f` comes to on a runner `g` comes to on every later one, unless `f` waits. -/
def Persists (f g : Runner σ → Resolved × Runner σ) : Prop :=
  ∀ r s, (f r).1 ≠ .pending → Keeps (f r).2 s → (g s).1 = (f r).1

/-- The same of evaluations in a row, if none of them waits. -/
def PersistsAll (f g : Runner σ → List Resolved × Runner σ) : Prop :=
  ∀ r s, gather (f r).1 ≠ none → Keeps (f r).2 s → (g s).1 = (f r).1

/-! ## Steps along a path -/

theorem member_congr (hw : w.SteadyMembers) (base : Resolved) (name : String) (r s : Runner σ) :
    (s.member w base name).1 = (r.member w base name).1 := by
  cases base with
  | absent => rfl
  | pending => rfl
  | value v =>
    cases v with
    | host h => exact congrArg Resolved.ofOption (hw h name s.world r.world)
    | _ => rfl

/-- An invocation that does not wait leaves its answer under the key. -/
theorem ready_of_invoke {key : String} {c : Capability} {args : List Value} {r : Runner σ}
    (h : (r.invoke w key c args).1 ≠ .pending) : ∃ v, (r.invoke w key c args).1 = .value v ∧
      Fields.get? (r.invoke w key c args).2.memo key = some (.ready v) := by
  unfold Runner.invoke at h ⊢
  split at h
  · next v hv => exact ⟨v, rfl, hv⟩
  · exact absurd rfl h
  · unfold Runner.call at h ⊢
    dsimp only at h ⊢
    split at h
    · next v _ => exact ⟨v, rfl, by rw [Fields.get?_insert, if_pos rfl]⟩
    · exact absurd rfl h

theorem invoke_persists {key : String} {c : Capability} {args : List Value} {r s : Runner σ}
    (h : (r.invoke w key c args).1 ≠ .pending) (hkeep : Keeps (r.invoke w key c args).2 s)
    (c' : Capability) (args' : List Value) :
    (s.invoke w key c' args').1 = (r.invoke w key c args).1 := by
  obtain ⟨v, hv, hready⟩ := ready_of_invoke h
  rw [hv, invoke_of_ready (hkeep.ready key v hready)]

theorem access_persists {key : String} {target : Resolved} {r s : Runner σ}
    (h : (r.access w key target).1 ≠ .pending) (hkeep : Keeps (r.access w key target).2 s) :
    (s.access w key target).1 = (r.access w key target).1 := by
  unfold Runner.access at h hkeep ⊢
  split at h
  · exact invoke_persists h hkeep _ _
  · rfl

/-- So does a call, whose arguments keep their values before it. -/
theorem apply_persists {key : String} {target : Resolved} {r s : Runner σ}
    {f g : Runner σ → List Resolved × Runner σ} (hargs : PersistsAll f g)
    (hg : ∀ s, Keeps s (g s).2) (h : (r.apply w key target f).1 ≠ .pending)
    (hkeep : Keeps (r.apply w key target f).2 s) :
    (s.apply w key target g).1 = (r.apply w key target f).1 := by
  unfold Runner.apply at h hkeep ⊢
  split at h
  · next c =>
    dsimp only at h hkeep ⊢
    split at h
    · next values hvalues =>
      simp only [hvalues] at hkeep ⊢
      have hafter : Keeps (f r).2 ((f r).2.invoke w key c values).2 :=
        closed_keeps.invoke key c values (f r).2
      rw [hargs r s (by simp [hvalues]) (hafter.trans hkeep), hvalues]
      exact invoke_persists h (hkeep.trans (hg s)) c values
    · exact absurd rfl h
  · rfl
  · rfl

/-- A member of what persists persists. -/
theorem Persists.member (hw : w.SteadyMembers) {f g : Runner σ → Resolved × Runner σ}
    (h : Persists f g) (name : String) :
    Persists (fun r => (f r).2.member w (f r).1 name) fun r => (g r).2.member w (g r).1 name := by
  intro r s hne hkeep
  have hbase : (f r).1 ≠ .pending := fun hpending => hne (by simp only [hpending]; rfl)
  have hafter : Keeps (f r).2 ((f r).2.member w (f r).1 name).2 :=
    closed_keeps.member _ name (f r).2
  have hsame := h r s hbase (hafter.trans hkeep)
  simp only [hsame]
  exact member_congr hw _ name _ _

/-- So does the value of a path that ends there. -/
theorem Persists.access {f g : Runner σ → Resolved × Runner σ} (h : Persists f g)
    (hg : ∀ s, Keeps s (g s).2) (key : String) :
    Persists (fun r => (f r).2.access w key (f r).1) fun r => (g r).2.access w key (g r).1 := by
  intro r s hne hkeep
  have htarget : (f r).1 ≠ .pending := fun hpending => hne (by simp only [hpending]; rfl)
  have hafter : Keeps (f r).2 ((f r).2.access w key (f r).1).2 :=
    closed_keeps.access key _ (f r).2
  have hsame := h r s htarget (hafter.trans hkeep)
  simp only [hsame]
  exact access_persists hne (hkeep.trans (hg s))

/-- And so does a call there, if its arguments do. -/
theorem Persists.apply {f g : Runner σ → Resolved × Runner σ}
    {f' g' : Runner σ → List Resolved × Runner σ} (h : Persists f g) (hargs : PersistsAll f' g')
    (hf' : ∀ s, Keeps s (f' s).2) (hg : ∀ s, Keeps s (g s).2) (hg' : ∀ s, Keeps s (g' s).2)
    (key : String) :
    Persists (fun r => (f r).2.apply w key (f r).1 f') fun r => (g r).2.apply w key (g r).1 g' := by
  intro r s hne hkeep
  have htarget : (f r).1 ≠ .pending := fun hpending => hne (by simp only [hpending]; rfl)
  have hafter : Keeps (f r).2 ((f r).2.apply w key (f r).1 f').2 :=
    closed_keeps.apply key _ hf' (f r).2
  have hsame := h r s htarget (hafter.trans hkeep)
  simp only [hsame]
  exact apply_persists hargs hg' hne (hkeep.trans (hg s))

/-- The context is the same on every later runner. -/
theorem persists_root : Persists (fun r : Runner σ => (r.root, r)) fun r => (r.root, r) :=
  fun _ _ _ hkeep => congrArg Resolved.ofOption hkeep.context

/-! ## Parts in a row -/

theorem gather_cons_ne_none {x : Resolved} {xs : List Resolved} (h : gather (x :: xs) ≠ none) :
    x ≠ .pending ∧ gather xs ≠ none := by
  rw [gather_cons] at h
  refine ⟨fun hx => h (by rw [hx]; rfl), fun hxs => h ?_⟩
  rw [hxs]
  cases x.orNull? <;> rfl

/-- A first part and others after it. -/
theorem Persists.cons {f g : Runner σ → Resolved × Runner σ}
    {f' g' : Runner σ → List Resolved × Runner σ} (h : Persists f g) (h' : PersistsAll f' g')
    (hf' : ∀ s, Keeps s (f' s).2) (hg : ∀ s, Keeps s (g s).2) :
    PersistsAll (fun r => ((f r).1 :: (f' (f r).2).1, (f' (f r).2).2))
      fun r => ((g r).1 :: (g' (g r).2).1, (g' (g r).2).2) := by
  intro r s hne hkeep
  obtain ⟨hhead, htail⟩ := gather_cons_ne_none hne
  have hsame := h r s hhead ((hf' _).trans hkeep)
  have hsame' := h' (f r).2 (g s).2 htail (hkeep.trans (hg s))
  simp only [hsame, hsame']

theorem PersistsAll.array {f g : Runner σ → List Resolved × Runner σ} (h : PersistsAll f g) :
    Persists (fun r => (Expr.resolveArray (f r).1, (f r).2))
      fun r => (Expr.resolveArray (g r).1, (g r).2) := by
  intro r s hne hkeep
  have hgather : gather (f r).1 ≠ none := fun hnone => hne (by simp only [Expr.resolveArray, hnone])
  simp only [h r s hgather hkeep]

theorem PersistsAll.object {f g : Runner σ → List Resolved × Runner σ} (h : PersistsAll f g)
    (keys : List String) : Persists (fun r => (Expr.resolveObject keys (f r).1, (f r).2))
      fun r => (Expr.resolveObject keys (g r).1, (g r).2) := by
  intro r s hne hkeep
  have hgather : gather (f r).1 ≠ none :=
    fun hnone => hne (by simp only [Expr.resolveObject, hnone])
  simp only [h r s hgather hkeep]

end Runner

namespace Expr

open Runner

/-! ## Values -/

theorem persistsAll {es : List Expr} {flag flag' : Bool}
    (h : ∀ x ∈ es, Persists (x.evaluate w flag) (x.evaluate w flag')) :
    PersistsAll (evaluateAll w es flag) (evaluateAll w es flag') := by
  induction es with
  | nil => exact fun _ _ _ _ => rfl
  | cons x xs ih =>
    have hxs := ih fun y hy => h y (List.mem_cons_of_mem x hy)
    exact (h x List.mem_cons_self).cons hxs (closed_keeps.evaluateAll xs flag)
      (closed_keeps.evaluate x flag')

theorem persistsAll_entries {entries : List (String × Expr)}
    (h : ∀ entry ∈ entries, Persists (entry.2.evaluate w true) (entry.2.evaluate w true)) :
    PersistsAll (evaluateEntries w entries) (evaluateEntries w entries) := by
  induction entries with
  | nil => exact fun _ _ _ _ => rfl
  | cons entry entries ih =>
    have hentries := ih fun y hy => h y (List.mem_cons_of_mem entry hy)
    exact (h entry List.mem_cons_self).cons hentries (closed_keeps.evaluateEntries entries)
      (closed_keeps.evaluate entry.2 true)

mutual

/-- **A value that does not wait is the same on every later runner,** with either flag. -/
theorem IsOperand.persists (hw : w.SteadyMembers) : ∀ {x : Expr}, IsOperand x →
    ∀ flag flag' : Bool, Persists (x.evaluate w flag) (x.evaluate w flag')
  | _, .literal _ _ => fun _ _ _ _ _ _ => rfl
  | _, .array hitems => fun _ _ =>
    (persistsAll fun x hx => (hitems x hx).persists hw true true).array
  | _, .object _ hvalues => fun _ _ =>
    (persistsAll_entries fun entry hentry => (hvalues entry hentry).persists hw true true).object _
  | _, .path hpath => hpath.persists hw

/-- A path that has come to a value keeps it as long as the runner keeps what it knows. -/
theorem IsPath.persists (hw : w.SteadyMembers) : ∀ {x : Expr}, IsPath x →
    ∀ flag flag' : Bool, Persists (x.evaluate w flag) (x.evaluate w flag')
  | _, @IsPath.root name _ => fun _ _ =>
    (persists_root.member hw name).access (fun s => closed_keeps.member s.root name s) name
  | _, @IsPath.step parent name hparent _ => fun flag flag' =>
    ((hparent.persists hw flag flag').member hw name).access
      (fun s => (closed_keeps.evaluate parent flag' s).trans (closed_keeps.member _ name _)) _
  | _, .call (@IsPath.root name _) _ hargs => fun flag flag' =>
    (persists_root.member hw name).apply
      (persistsAll fun y hy => (hargs y hy).persists hw flag flag')
      (closed_keeps.evaluateAll _ flag) (fun s => closed_keeps.member s.root name s)
      (closed_keeps.evaluateAll _ flag') name
  | _, .call (@IsPath.step parent name hparent _) _ hargs => fun flag flag' =>
    ((hparent.persists hw flag flag').member hw name).apply
      (persistsAll fun y hy => (hargs y hy).persists hw flag flag')
      (closed_keeps.evaluateAll _ flag)
      (fun s => (closed_keeps.evaluate parent flag' s).trans (closed_keeps.member _ name _))
      (closed_keeps.evaluateAll _ flag') _

end

/-! ## Conditions -/

/-- What is true on a runner is true on every later one. -/
def StaysTrue (f : Runner σ → Bool × Runner σ) : Prop :=
  ∀ r s, (f r).1 = true → Keeps (f r).2 s → (f s).1 = true

/-- Only values compare. -/
theorem ne_pending_of_testResolved {op : Comparator} {a b : Resolved}
    (h : testResolved op a b = true) : a ≠ .pending ∧ b ≠ .pending := by
  constructor <;> rintro rfl
  · cases h
  · cases a <;> cases h

/-- **The rest of a chain stays true,** also if the chain stands at true by now where it has stood
at false: a chain that `or` joins is true at once then, and one that `and` joins goes on. -/
theorem evaluateMore_staysTrue (op : Connector) {es : List Expr} {flag : Bool}
    (h : ∀ x ∈ es, StaysTrue fun r => ((x.evaluate w flag r).1.isTruthy, (x.evaluate w flag r).2))
    {value value' : Bool} (hvalue : value = true → value' = true) {r s : Runner σ}
    (htrue : (evaluateMore w op es flag value r).1 = true)
    (hkeep : Keeps (evaluateMore w op es flag value r).2 s) :
    (evaluateMore w op es flag value' s).1 = true := by
  induction es generalizing value value' r s with
  | nil => exact hvalue htrue
  | cons x xs ih =>
    have hes := fun y hy => h y (List.mem_cons_of_mem x hy)
    have hlater : ∀ value'' r', Keeps r' (evaluateMore w op xs flag value'' r').2 :=
      closed_keeps.evaluateMore op xs flag
    have hskip := closed_keeps.evaluate (w := w) x false s
    have hevaluate := closed_keeps.evaluate (w := w) x flag s
    rw [evaluateMore] at htrue hkeep ⊢
    by_cases hdecided : op.decides value = true
    · rw [if_pos hdecided] at htrue hkeep
      have hdecided' : value = true → op.decides value' = true := fun hv => by
        rw [hv] at hdecided
        rwa [hvalue hv]
      split
      · exact ih hes hvalue htrue (hkeep.trans hskip)
      · next hundecided =>
        exact ih hes (fun hv => absurd (hdecided' hv) hundecided) htrue (hkeep.trans hevaluate)
    · rw [if_neg hdecided] at htrue hkeep
      have hoperand : (x.evaluate w flag r).1.isTruthy = true →
          (x.evaluate w flag s).1.isTruthy = true := fun ht =>
        h x List.mem_cons_self r s ht ((hlater _ _).trans hkeep)
      split
      · next hdecided' =>
        -- the chain stands at true under `or` now, since it has stood undecided
        have hvalue' := eq_true_of_decides hvalue hdecided hdecided'
        exact ih hes (fun _ => hvalue') htrue (hkeep.trans hskip)
      · exact ih hes hoperand htrue (hkeep.trans hevaluate)

/-- **What is true stays true.** -/
theorem IsCondition.staysTrue (hw : w.SteadyMembers) {x : Expr} (hx : IsCondition x)
    (flag : Bool) :
    StaysTrue fun r => ((x.evaluate w flag r).1.isTruthy, (x.evaluate w flag r).2) := by
  induction hx with
  | @comparison left right op hleft hright =>
    intro r s htrue hkeep
    cases flag with
    | false => cases htrue
    | true =>
      obtain ⟨hl, hr⟩ := ne_pending_of_testResolved htrue
      have hright' := closed_keeps.evaluate (w := w) right true (left.evaluate w true r).2
      have hsameLeft := hleft.persists hw true true r s hl (hright'.trans hkeep)
      have hleft' := closed_keeps.evaluate (w := w) left true s
      have hsameRight := hright.persists hw true true _ _ hr (hkeep.trans hleft')
      change testResolved op _ _ = true
      rw [hsameLeft, hsameRight]
      exact htrue
  | @chain op operands hne _ ih =>
    obtain ⟨first, more, rfl⟩ := List.exists_cons_of_ne_nil hne
    intro r s htrue hkeep
    have hmore := fun y hy => ih y (List.mem_cons_of_mem first hy)
    have hlater := closed_keeps.evaluateMore (w := w) op more flag
      (first.evaluate w flag r).1.isTruthy (first.evaluate w flag r).2
    refine evaluateMore_staysTrue op hmore (fun ht => ?_) htrue
      (hkeep.trans (closed_keeps.evaluate first flag s))
    exact ih first List.mem_cons_self r s ht (hlater.trans hkeep)
  | group _ ih => exact ih

/-! ## Passes -/

/-- Passes add up. -/
theorem stateAt_add (w : World σ) (e : Expr) (r : Runner σ) (m n : Nat) :
    stateAt w e r (m + n) = stateAt w e (stateAt w e r m) n := by
  induction n with
  | zero => rfl
  | succ n ih => exact congrArg (fun s => (e.pass w s).2) ih

theorem evolves_stateAt (w : World σ) (e : Expr) (r : Runner σ) (n : Nat) :
    Evolves r (stateAt w e r n) := by
  induction n with
  | zero => exact closed_evolves.refl (w := w) r
  | succ n ih =>
    have hpass : Evolves (stateAt w e r n) (e.pass w (stateAt w e r n)).2 :=
      closed_evolves.trans (w := w) (evolves_settle _) (closed_evolves.evaluate e true _)
    exact closed_evolves.trans (w := w) ih hpass

/-- **Once a pass has the answer true, every later pass has it.** -/
theorem pass_staysTrue (hw : w.SteadyMembers) {e : Expr} (he : IsCondition e) {r : Runner σ}
    (hr : r.Consistent) {i j : Nat} (hij : i ≤ j) (h : (e.pass w (stateAt w e r i)).1 = true) :
    (e.pass w (stateAt w e r j)).1 = true := by
  rcases Nat.eq_or_lt_of_le hij with rfl | hlt
  · exact h
  · obtain ⟨k, rfl⟩ := Nat.exists_eq_add_of_le hlt
    obtain ⟨hnext, -⟩ := evolves_stateAt w e r (i + 1) hr
    obtain ⟨hlater, hkeep⟩ := evolves_stateAt w e (stateAt w e r (i + 1)) k hnext
    rw [← stateAt_add] at hlater hkeep
    obtain ⟨-, hsettle⟩ := evolves_settle _ hlater
    exact he.staysTrue hw true _ _ h (hkeep.trans hsettle)

end Expr

namespace Query

open FilterQuery.Expr FilterQuery.Runner

/-- **What has come to something comes to it for ever, and what is true stays true.**  Hosts keep
their members, and capabilities answer what they like.  A value in a query that has come to
something on a runner, or to nothing at all, comes to the same after any further operations, and a
condition in a query that has been true is true after them.  So once a pass of a run has the answer
true, all later passes have it, and the run has it in the end. -/
theorem resolutions_and_truths_stay (hw : w.SteadyMembers) (q : Query) (e : Expr)
    (h : q.parse = .ok e) (context : Option Value) (world : σ) :
    (∀ (before after : List Operation) (x : Expr), e.HasPart x → ∀ flag flag' : Bool,
      let out := x.evaluate w flag (performAll w before (start context world))
      let later := performAll w after out.2
      (x.isValue = true → out.1 ≠ .pending → (x.evaluate w flag' later).1 = out.1) ∧
      (x.isValue = false → out.1 = .value (.bool true) →
        (x.evaluate w flag later).1 = .value (.bool true))) ∧
    ∀ i < (q.run w context world).passes,
      (e.pass w (stateAt w e (start context world) i)).1 = true →
        (∀ j ≥ i, (e.pass w (stateAt w e (start context world) j)).1 = true) ∧
          (q.run w context world).result = .ok true := by
  have he := q.isCondition h
  refine ⟨fun before after x hx flag flag' => ?_, fun i hi htrue => ?_⟩
  · intro out later
    obtain ⟨hvalue, hcondition⟩ := he.of_hasPart hx
    have hbefore := consistent_performAll w before context world
    obtain ⟨hout, -⟩ := closed_evolves.evaluate (w := w) x flag _ hbefore
    obtain ⟨-, hkeep⟩ := evolves_performAll w after out.2 hout
    refine ⟨fun hv hne => (hvalue hv).persists hw flag flag' _ later hne hkeep, fun hc ht => ?_⟩
    have htruthy : out.1.isTruthy = true := by rw [ht]; rfl
    have hlater : (x.evaluate w flag later).1.isTruthy = true :=
      (hcondition hc).staysTrue hw flag _ later htruthy hkeep
    obtain ⟨b, hb⟩ := (hcondition hc).isTest.exists_bool (w := w) flag later
    rw [hb] at hlater ⊢
    exact congrArg (fun b => Resolved.value (.bool b)) hlater
  · have hstays : ∀ j ≥ i, (e.pass w (stateAt w e (start context world) j)).1 = true :=
      fun j hij => pass_staysTrue hw he (consistent_start context world) hij htrue
    obtain ⟨last, heq, -⟩ := converge_eq_stateAt w e (start context world)
    have hrun : q.run w context world = ⟨.ok (e.pass w (stateAt w e (start context world) last)).1,
        last + 1, stateAt w e (start context world) (last + 1)⟩ := by
      rw [run, h]
      dsimp only
      rw [heq]
    rw [hrun] at hi ⊢
    exact ⟨hstays, congrArg Except.ok (hstays last (Nat.lt_succ_iff.1 hi))⟩

/-- A world in which every answer is deferred and tells how much has happened until then. -/
def countingWorld : World Nat where
  call _ _ n := (.deferred ⟨0, fun n => (.int (.ofNat n), n + 1)⟩, n + 1)
  lookup _ _ n := (none, n)

theorem memberQuery_staysTrue :
    countingWorld.SteadyMembers ∧ memberQuery.parse = .ok memberExpr ∧
      let context := some (.ofPairs [("a", .ofPairs [("b", .capability ⟨0⟩)])])
      let out := (step (root "a") "b").evaluate countingWorld true
        (performAll countingWorld [.holds memberExpr, .settle] (start context 0))
      (memberExpr.HasPart (step (root "a") "b") ∧ out.1 ≠ .pending ∧
        ((step (root "a") "b").evaluate countingWorld false
          (performAll countingWorld [.invoke "a" ⟨3⟩ [], .settle] out.2)).1 = out.1) ∧
      (memberQuery.run countingWorld context 0).result = .ok true := by
  have hsteady : countingWorld.SteadyMembers := fun _ _ _ _ => rfl
  have hpart : memberExpr.HasPart (step (root "a") "b") := .child .self List.mem_cons_self
  refine ⟨hsteady, parse_memberQuery, ?_⟩
  intro context out
  have hvalue : out.1 = .value (.int 1) := by with_unfolding_all rfl
  have hne : out.1 ≠ .pending := by simp [hvalue]
  obtain ⟨hparts, hpasses⟩ := resolutions_and_truths_stay hsteady memberQuery memberExpr
    parse_memberQuery context 0
  obtain ⟨hresolved, -⟩ := hparts [.holds memberExpr, .settle] [.invoke "a" ⟨3⟩ [], .settle]
    (step (root "a") "b") hpart true false
  have hlong : 1 < (memberQuery.run countingWorld context 0).passes := by with_unfolding_all decide
  have htrue : (memberExpr.pass countingWorld
      (stateAt countingWorld memberExpr (start context 0) 1)).1 = true := by with_unfolding_all rfl
  exact ⟨⟨hpart, hne, hresolved rfl hne⟩, (hpasses 1 hlong htrue).2⟩

end Query

end FilterQuery
