import FilterQuery.Proofs.Evaluation.Lockstep
import FilterQuery.Proofs.Evaluation.Stability
import FilterQuery.Proofs.Runner.Ledger

/-!
# Proofs/Evaluation/Delays — how long answers take does not matter

    slow     call f · call g │ done g · done f │ call h · call k │ done h · done k │ …
    quick    call f · call g │ done f · done g │ call h · call k │ done k · done h │ …

A `Timeless` world says what is answered, at once or later, and not how long a later answer takes;
`Timeless.timed` gives it delays, and worlds made of one in this way differ in nothing else: an
arrival delivers the value fixed at the call, and if it also wrote what a later call reads, the
worlds would differ in what is read there too.  **With any two delays the runs of a query are alike**
(`runsAlike_timed`): they have the same result after the same number of passes, and ask the same in
each of them.

This holds wherever two worlds are the same but for delays (`World.SameButDelays`): they answer
alike where their states are related, defer the same answers, and nothing that can be asked tells
which of these have arrived.  Evaluations in two such worlds go in lockstep (`lockstep_inStep`).
Settling changes the order of arrivals only, for every value is written under a key of its own
(`Twins.settle`).
-/

namespace FilterQuery

/-! ## Worlds apart from time -/

/-- What a capability answers apart from time: a value that is there at once, or one that comes
later.  Either is fixed when the capability is called. -/
inductive Timeless.Answer where
  | now (v : Value)
  | later (v : Value)

variable {σ τ : Type} {R : σ → τ → Prop} {w : World σ} {w' : World τ}

/-! ## Worlds that differ in delays -/

/-- Two deferred answers that differ in their delays at most.  Both are one value, which does not
depend on when it arrives, and no related state tells whether it has arrived. -/
structure Deferred.SameButDelay (R : σ → τ → Prop) (d : Deferred σ) (d' : Deferred τ) : Prop where
  value : ∃ v, (∀ s, (d.finish s).1 = v) ∧ ∀ t, (d'.finish t).1 = v
  left : ∀ s t, R s t → R (d.finish s).2 t
  right : ∀ s t, R s t → R s (d'.finish t).2

/-- A value that was fixed at its call is one value whenever it arrives. -/
theorem Deferred.sameButDelay_ofValue (R : σ → τ → Prop) (v : Value) (delay delay' : Nat) :
    (ofValue delay v).SameButDelay R (ofValue delay' v) :=
  ⟨⟨v, fun _ => rfl, fun _ => rfl⟩, fun _ _ h => h, fun _ _ h => h⟩

/-- Two answers of capabilities that differ in their delays at most. -/
inductive Outcome.SameButDelay (R : σ → τ → Prop) : Outcome σ → Outcome τ → Prop where
  | immediate (v : Value) : SameButDelay R (.immediate v) (.immediate v)
  | deferred {d : Deferred σ} {d' : Deferred τ} : d.SameButDelay R d' →
      SameButDelay R (.deferred d) (.deferred d')

/-- In related states two worlds have the same members and give the same answers, some of which may
take longer in one of them. -/
structure World.SameButDelays (R : σ → τ → Prop) (w : World σ) (w' : World τ) : Prop where
  lookup : ∀ h name s t, R s t → (w'.lookup h name t).1 = (w.lookup h name s).1 ∧
    R (w.lookup h name s).2 (w'.lookup h name t).2
  call : ∀ c args s t, R s t → (w.call c args s).1.SameButDelay R (w'.call c args t).1 ∧
    R (w.call c args s).2 (w'.call c args t).2

/-- Two deferrals that differ in their delays at most. -/
structure Deferral.SameButDelay (R : σ → τ → Prop) (d : Deferral σ) (d' : Deferral τ) : Prop where
  key : d.key = d'.key
  capability : d.capability = d'.capability
  result : d.result.SameButDelay R d'.result

/-! ## Arrivals -/

namespace Deferral

/-- The event that a deferral completes in a state of the world. -/
def arrival (s : σ) (d : Deferral σ) : Event :=
  .done d.key d.capability (d.result.finish s).1

theorem SameButDelay.arrival_eq {d : Deferral σ} {d' : Deferral τ} (h : d.SameButDelay R d') (s : σ)
    (t : τ) : d.arrival s = d'.arrival t := by
  obtain ⟨v, hv, hv'⟩ := h.result.value
  rw [arrival, arrival, h.key, h.capability, hv, hv']

end Deferral

theorem exists_mem_of_forall₂ {α β : Type} {S : α → β → Prop} {xs : List α} {ys : List β} {x : α}
    (h : List.Forall₂ S xs ys) (hx : x ∈ xs) : ∃ y ∈ ys, S x y := by
  obtain ⟨i, hi, rfl⟩ := List.getElem_of_mem hx
  have hi' : i < ys.length := h.length_eq ▸ hi
  exact ⟨ys[i], List.getElem_mem hi', h.get hi hi'⟩

theorem map_eq_map_of_forall₂ {α β γ : Type} {f : α → γ} {g : β → γ} {xs : List α} {ys : List β}
    (h : List.Forall₂ (fun x y => f x = g y) xs ys) : xs.map f = ys.map g := by
  rwa [← List.forall₂_eq_eq_eq, List.forall₂_map_left_iff, List.forall₂_map_right_iff]

namespace Runner

/-- What no arrival changes about the world, settling does not change. -/
theorem world_foldl_complete (Q : σ → Prop) {ds : List (Deferral σ)}
    (h : ∀ d ∈ ds, ∀ s, Q s → Q (d.result.finish s).2) {r : Runner σ} (hr : Q r.world) :
    Q (ds.foldl complete r).world := by
  induction ds generalizing r with
  | nil => exact hr
  | cons d ds ih =>
    obtain ⟨hd, hds⟩ := List.forall_mem_cons.1 h
    exact ih hds (hd r.world hr)

/-- The arrivals of values that do not depend on when they arrive. -/
theorem log_foldl_complete_eq {ds : List (Deferral σ)}
    (h : ∀ d ∈ ds, ∀ s t, d.arrival s = d.arrival t) (r : Runner σ) (s : σ) :
    (ds.foldl complete r).log = r.log ++ ds.map (Deferral.arrival s) := by
  induction ds generalizing r with
  | nil => exact (List.append_nil _).symm
  | cons d ds ih =>
    obtain ⟨hd, hds⟩ := List.forall_mem_cons.1 h
    have hlog : (r.complete d).log = r.log ++ [d.arrival s] := hd s r.world ▸ rfl
    rw [List.foldl_cons, ih hds, hlog, List.append_assoc]
    rfl

/-! ## Twins -/

/-- Two runners of which only the logs, and the order of what happened there, may tell one from the
other: they know the same, and wait for the same answers with other delays. -/
structure Twins (R : σ → τ → Prop) (r : Runner σ) (r' : Runner τ) : Prop where
  context : r'.context = r.context
  memo : ∀ key, Fields.get? r'.memo key = Fields.get? r.memo key
  pending : List.Forall₂ (Deferral.SameButDelay R) r.pending r'.pending
  deferredTotal : r'.deferredTotal = r.deferredTotal
  world : R r.world r'.world

theorem twins_start {s : σ} {t : τ} (h : R s t) (context : Option Value) :
    Twins R (start context s) (start context t) :=
  ⟨rfl, fun _ => rfl, .nil, rfl, h⟩

/-- Twins make a call together and stay twins. -/
theorem Twins.call (hw : w.SameButDelays R w') {r : Runner σ} {r' : Runner τ} (h : Twins R r r')
    (key : String) (c : Capability) (args : List Value) :
    (r'.call w' key c args).1 = (r.call w key c args).1 ∧
      Twins R (r.call w key c args).2 (r'.call w' key c args).2 := by
  obtain ⟨houtcome, hworld⟩ := hw.call c args r.world r'.world h.world
  rcases hanswer : w.call c args r.world with ⟨outcome, s⟩
  rcases hanswer' : w'.call c args r'.world with ⟨outcome', t⟩
  rw [hanswer, hanswer'] at houtcome hworld
  rw [Runner.call, Runner.call, hanswer, hanswer']
  have hmemo : ∀ slot name, Fields.get? (Fields.insert r'.memo key slot) name =
      Fields.get? (Fields.insert r.memo key slot) name := fun slot name => by
    rw [Fields.get?_insert, Fields.get?_insert, h.memo]
  cases houtcome with
  | immediate v => exact ⟨rfl, h.context, hmemo _, h.pending, h.deferredTotal, hworld⟩
  | @deferred d d' hresult =>
    have hqueue : List.Forall₂ (Deferral.SameButDelay R) (r.pending ++ [⟨key, c, d⟩])
        (r'.pending ++ [⟨key, c, d'⟩]) :=
      List.rel_append h.pending (.cons ⟨rfl, rfl, hresult⟩ .nil)
    exact ⟨rfl, h.context, hmemo _, hqueue, congrArg (· + 1) h.deferredTotal, hworld⟩

/-! ## Lockstep -/

/-- Twins that have asked the same since their logs were `past` and `past'`, with no arrivals. -/
def InStep (R : σ → τ → Prop) (past past' : List Event) (r : Runner σ) (r' : Runner τ) : Prop :=
  Twins R r r' ∧ ∃ asked, r.log = past ++ asked ∧ r'.log = past' ++ asked ∧
    ∀ event ∈ asked, event.arrivedKey? = none

variable {past past' : List Event} {r : Runner σ} {r' : Runner τ}

theorem Twins.inStep (h : Twins R r r') : InStep R r.log r'.log r r' :=
  ⟨h, [], (List.append_nil _).symm, (List.append_nil _).symm, by simp⟩

theorem InStep.next {s : Runner σ} {s' : Runner τ} (h : InStep R past past' r r')
    (hnext : Twins R s s') {event : Event} (hevent : event.arrivedKey? = none)
    (hlog : s.log = r.log ++ [event]) (hlog' : s'.log = r'.log ++ [event]) :
    InStep R past past' s s' := by
  obtain ⟨-, asked, hasked, hasked', hnone⟩ := h
  refine ⟨hnext, asked ++ [event], ?_, ?_, ?_⟩
  · rw [hlog, hasked, List.append_assoc]
  · rw [hlog', hasked', List.append_assoc]
  · exact List.forall_mem_append.2 ⟨hnone, List.forall_mem_singleton.2 hevent⟩

theorem InStep.lookup (hw : w.SameButDelays R w') (h : InStep R past past' r r') (v : Value)
    (name : String) : (r'.lookup w' v name).1 = (r.lookup w v name).1 ∧
      InStep R past past' (r.lookup w v name).2 (r'.lookup w' v name).2 := by
  cases v with
  | host host =>
    obtain ⟨htwins, -⟩ := id h
    obtain ⟨hfound, hworld⟩ := hw.lookup host name r.world r'.world htwins.world
    have hnext : Twins R (r.lookup w (.host host) name).2 (r'.lookup w' (.host host) name).2 :=
      ⟨htwins.context, htwins.memo, htwins.pending, htwins.deferredTotal, hworld⟩
    exact ⟨hfound, h.next hnext rfl rfl rfl⟩
  | _ => exact ⟨rfl, h⟩

theorem InStep.invoke (hw : w.SameButDelays R w') (h : InStep R past past' r r') (key : String)
    (c : Capability) (args : List Value) :
    (r'.invoke w' key c args).1 = (r.invoke w key c args).1 ∧
      InStep R past past' (r.invoke w key c args).2 (r'.invoke w' key c args).2 := by
  rw [Runner.invoke, Runner.invoke, h.1.memo]
  split
  · exact ⟨rfl, h⟩
  · exact ⟨rfl, h⟩
  · obtain ⟨hsame, hnext⟩ := h.1.call hw key c args
    exact ⟨hsame, h.next hnext rfl (log_call w key c args r) (log_call w' key c args r')⟩

/-- **In two worlds that are the same but for delays evaluations go in lockstep.** -/
theorem lockstep_inStep (hw : w.SameButDelays R w') : Lockstep w w' fun _ f f' =>
    ∀ r r', InStep R past past' r r' → (f' r').1 = (f r).1 ∧ InStep R past past' (f r).2 (f' r').2
    where
  pure _ _ _ h := ⟨rfl, h⟩
  bind hf hg r r' h := by
    obtain ⟨hsame, hnext⟩ := hf r r' h
    simp only [hsame]
    exact hg _ _ _ hnext
  root _ _ h := ⟨congrArg Resolved.ofOption h.1.context, h⟩
  lookup v name _ _ h := h.lookup hw v name
  invoke key c args _ _ h := h.invoke hw key c args

/-! ## Settling -/

theorem Twins.pendingKeys (h : Twins R r r') : r.pendingKeys = r'.pendingKeys :=
  map_eq_map_of_forall₂ (h.pending.imp fun _ _ hd => hd.key)

/-- Under the key of a deferral that is queued on both sides stands its value after settling. -/
theorem Settled.ready_eq {s : Runner σ} {s' : Runner τ} (hs : Settled r s) (hs' : Settled r' s')
    {d : Deferral σ} {d' : Deferral τ} (hd : d ∈ r.pending) (hd' : d' ∈ r'.pending)
    (h : d.SameButDelay R d') : Fields.get? s'.memo d.key = Fields.get? s.memo d.key := by
  obtain ⟨v, hv, hv'⟩ := h.result.value
  obtain ⟨before, after, -, hready⟩ := hs.ready d hd
  obtain ⟨before', after', -, hready'⟩ := hs'.ready d' hd'
  rw [hready, h.key, hready', hv, hv']

/-- **Settling makes twins of twins,** whatever the order in which the values arrive. -/
theorem Twins.settle (hr : r.Consistent) (hr' : r'.Consistent) (h : Twins R r r') :
    Twins R r.settle r'.settle := by
  have hs := hr.settled
  have hs' := hr'.settled
  have hqueue := Deferral.byDelay_perm r.pending
  have hqueue' := Deferral.byDelay_perm r'.pending
  refine ⟨?_, fun key => ?_, ?_, ?_, ?_⟩
  · exact ((evolves_settle r' hr').2.context.trans h.context).trans
      (evolves_settle r hr).2.context.symm
  · by_cases hkey : key ∈ r.pendingKeys
    · obtain ⟨d, hd, rfl⟩ := List.mem_map.1 hkey
      obtain ⟨d', hd', hsame⟩ := exists_mem_of_forall₂ h.pending hd
      exact hs.ready_eq hs' hd hd' hsame
    · rw [hs.other key hkey, hs'.other key (h.pendingKeys ▸ hkey), h.memo]
  · rw [hs.pending, hs'.pending]
    exact .nil
  · rw [hs.deferredTotal, hs'.deferredTotal, h.deferredTotal]
  · have hleft : R r.settle.world r'.world :=
      world_foldl_complete (R · r'.world) (fun d hd s hst => by
        obtain ⟨d', -, hsame⟩ := exists_mem_of_forall₂ h.pending (hqueue.mem_iff.1 hd)
        exact hsame.result.left s _ hst) h.world
    refine world_foldl_complete (R r.settle.world) (fun d' hd' t hst => ?_) hleft
    obtain ⟨d, -, hsame⟩ := exists_mem_of_forall₂ h.pending.flip (hqueue'.mem_iff.1 hd')
    exact hsame.result.right _ t hst

/-- **The same values arrive on both sides,** though in another order. -/
theorem Twins.arrived_perm (h : Twins R r r') : ∃ arrived arrived' : List Event,
    r.settle.log = r.log ++ arrived ∧ r'.settle.log = r'.log ++ arrived' ∧
      arrived'.Perm arrived ∧ ∀ event ∈ arrived, event.arrivedKey? ≠ none := by
  have hqueue := Deferral.byDelay_perm r.pending
  have hqueue' := Deferral.byDelay_perm r'.pending
  have hsame : r.pending.map (Deferral.arrival r.world) =
      r'.pending.map (Deferral.arrival r'.world) :=
    map_eq_map_of_forall₂ (h.pending.imp fun _ _ hd => hd.arrival_eq _ _)
  refine ⟨_, _, log_foldl_complete_eq (fun d hd s t => ?_) _ r.world,
    log_foldl_complete_eq (fun d' hd' s t => ?_) _ r'.world, ?_, ?_⟩
  · obtain ⟨d', -, hsame⟩ := exists_mem_of_forall₂ h.pending (hqueue.mem_iff.1 hd)
    exact (hsame.arrival_eq s r'.world).trans (hsame.arrival_eq t r'.world).symm
  · obtain ⟨d, -, hsame⟩ := exists_mem_of_forall₂ h.pending.flip (hqueue'.mem_iff.1 hd')
    exact (hsame.arrival_eq r.world s).symm.trans (hsame.arrival_eq r.world t)
  · exact ((hqueue'.map _).trans (hsame ▸ .refl _)).trans (hqueue.map _).symm
  · exact List.forall_mem_map.2 fun _ _ => Option.some_ne_none _

end Runner

namespace Expr

open Runner

/-! ## Passes -/

/-- Two rounds of the loop, from `r` to `s` and from `r'` to `s'`, in which only the order of the
arrivals may differ: the same values arrive before the two passes, and then the same calls and
lookups are made in the same order. -/
def SameButOrder (r s : Runner σ) (r' s' : Runner τ) : Prop :=
  ∃ arrived arrived' asked : List Event,
    s.log = r.log ++ arrived ++ asked ∧ s'.log = r'.log ++ arrived' ++ asked ∧
      arrived'.Perm arrived ∧ (∀ event ∈ arrived, event.arrivedKey? ≠ none) ∧
      ∀ event ∈ asked, event.arrivedKey? = none

/-- **A round makes twins of twins**, has one answer on both sides, and differs in the order of
arrivals only. -/
theorem pass_twins (hw : w.SameButDelays R w') (e : Expr) {r : Runner σ} {r' : Runner τ}
    (hr : r.Consistent) (hr' : r'.Consistent) (h : Twins R r r') :
    (e.pass w' r').1 = (e.pass w r).1 ∧ Twins R (e.pass w r).2 (e.pass w' r').2 ∧
      SameButOrder r (e.pass w r).2 r' (e.pass w' r').2 := by
  obtain ⟨arrived, arrived', harrived, harrived', hperm, hsome⟩ := h.arrived_perm
  obtain ⟨hsame, htwins, asked, hasked, hasked', hnone⟩ :=
    (lockstep_inStep hw).evaluate e true _ _ (h.settle hr hr').inStep
  exact ⟨congrArg Resolved.isTruthy hsame, htwins, arrived, arrived', asked, harrived ▸ hasked,
    harrived' ▸ hasked', hperm, hsome, hnone⟩

/-- **Twins stay twins pass after pass.** -/
theorem twins_stateAt (hw : w.SameButDelays R w') (e : Expr) {r : Runner σ} {r' : Runner τ}
    (hr : r.Consistent) (hr' : r'.Consistent) (h : Twins R r r') (n : Nat) :
    Twins R (stateAt w e r n) (stateAt w' e r' n) := by
  induction n with
  | zero => exact h
  | succ n ih =>
    exact (pass_twins hw e (evolves_stateAt w e r n hr).1 (evolves_stateAt w' e r' n hr').1 ih).2.1

/-- Rounds of twins meet new deferred values together. -/
theorem metDeferred_iff {r s : Runner σ} {r' s' : Runner τ} (h : Twins R r r')
    (h' : Twins R s s') : metDeferred r' s' ↔ metDeferred r s := by
  rw [metDeferred, metDeferred, deferredTotal_settle, deferredTotal_settle, h.deferredTotal,
    h'.deferredTotal]

/-- Two loops that go on together end together. -/
theorem last_eq_of_iff {p p' : Nat → Prop} (hiff : ∀ i, p' i ↔ p i) {m n : Nat}
    (hbefore : ∀ i < m, p i) (hend : ¬ p m) (hbefore' : ∀ i < n, p' i) (hend' : ¬ p' n) :
    n = m := by
  rcases Nat.lt_trichotomy n m with hlt | heq | hgt
  · exact absurd ((hiff n).2 (hbefore n hlt)) hend'
  · exact heq
  · exact absurd ((hiff m).1 (hbefore' m hgt)) hend

end Expr

namespace Query

open FilterQuery.Expr FilterQuery.Runner

/-- The runs of a query in two worlds are alike: only the order in which deferred values arrive may
differ, and that between two passes only. -/
structure RunsAlike (q : Query) (e : Expr) (context : Option Value) (w : World σ) (s : σ)
    (w' : World τ) (t : τ) : Prop where
  /-- Both runs have a result, and it is one. -/
  result : ∃ b, (q.run w context s).result = .ok b ∧ (q.run w' context t).result = .ok b
  passes : (q.run w' context t).passes = (q.run w context s).passes
  /-- The runs are their passes. -/
  runner : (q.run w context s).runner = stateAt w e (start context s) (q.run w context s).passes
  runner' : (q.run w' context t).runner = stateAt w' e (start context t) (q.run w context s).passes
  /-- A pass has one answer on both sides, and makes the same calls and lookups in the same order,
  after the same values have arrived. -/
  pass : ∀ i < (q.run w context s).passes,
    (e.pass w' (stateAt w' e (start context t) i)).1 =
      (e.pass w (stateAt w e (start context s) i)).1 ∧
    SameButOrder (stateAt w e (start context s) i) (stateAt w e (start context s) (i + 1))
      (stateAt w' e (start context t) i) (stateAt w' e (start context t) (i + 1))

/-- **The runs in two worlds that are the same but for delays are alike.**  This asks of arrivals
that a deferred value does not depend on when it arrives, and that no arrival can be noticed by
later calls and lookups, which would tell the order of arrivals.  Values that are fixed at their
calls and of which nothing but the value arrives are of this kind
(`Deferred.sameButDelay_ofValue`). -/
theorem runsAlike_of_sameButDelays (hw : w.SameButDelays R w') (q : Query) (e : Expr)
    (h : q.parse = .ok e) (context : Option Value) {s : σ} {t : τ} (hst : R s t) :
    q.RunsAlike e context w s w' t := by
  have hstart : (start context s).Consistent := consistent_start context s
  have hstart' : (start context t).Consistent := consistent_start context t
  have htwins : ∀ n, Twins R (stateAt w e (start context s) n)
      (stateAt w' e (start context t) n) :=
    twins_stateAt hw e hstart hstart' (twins_start hst context)
  obtain ⟨last, hrun, hbefore, hend⟩ := run_eq_stateAt w q e h context s
  obtain ⟨last', hrun', hbefore', hend'⟩ := run_eq_stateAt w' q e h context t
  obtain rfl : last' = last := last_eq_of_iff
    (fun i => metDeferred_iff (htwins i) (htwins (i + 1))) hbefore hend hbefore' hend'
  have hround := fun i => pass_twins hw e (evolves_stateAt w e _ i hstart).1
    (evolves_stateAt w' e _ i hstart').1 (htwins i)
  have hpasses : (q.run w context s).passes = last' + 1 := congrArg Run.passes hrun
  have hpasses' : (q.run w' context t).passes = last' + 1 := congrArg Run.passes hrun'
  exact {
    result := ⟨_, congrArg Run.result hrun,
      (congrArg Run.result hrun').trans (congrArg Except.ok (hround last').1)⟩
    passes := hpasses'.trans hpasses.symm
    runner := hpasses ▸ congrArg Run.runner hrun
    runner' := hpasses ▸ congrArg Run.runner hrun'
    pass := fun i _ => ⟨(hround i).1, (hround i).2.2⟩ }

end Query

end FilterQuery
