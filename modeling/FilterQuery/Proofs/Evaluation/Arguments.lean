import FilterQuery.Proofs.Evaluation.Frames

/-!
# Proofs/Evaluation/Arguments — what is called is called with what its arguments are

    pass 1   f(g)   g waits            f is not called
    pass 2   f(g)   g has come to v    f is called with v
    end      f(g)   g comes to v       whatever has arrived since

A call hands its arguments over only once none of them waits, and what does not wait comes to the
same on every later runner (`persistsAll`).  So **the arguments of a call are what they are at the
end of the run** (`calls_take_finished_arguments`), in whatever pass it is made and however deep in
the query.
-/

namespace FilterQuery

open Runner

variable {σ : Type} {w : World σ}

namespace Runner

/-- Parts are gathered one by one, and absent ones become null. -/
theorem gather_eq_some_iff {parts : List Resolved} {values : List Value} :
    gather parts = some values ↔
      List.Forall₂ (fun part v => part.orNull? = some v) parts values := by
  induction parts generalizing values with
  | nil => cases values <;> simp [gather]
  | cons part parts ih =>
    cases values with
    | nil =>
      rw [gather_cons]
      cases part.orNull? <;> cases gather parts <;> simp
    | cons v values =>
      rw [gather_cons, List.forall₂_cons, ← ih]
      cases part.orNull? <;> cases gather parts <;> simp

/-- Nothing that waits is gathered. -/
theorem pending_notMem_of_gather {parts : List Resolved} {values : List Value}
    (h : gather parts = some values) : .pending ∉ parts := by
  have hparts := gather_eq_some_iff.1 h
  clear h
  induction hparts with
  | nil => exact List.not_mem_nil
  | cons hpart _ ih =>
    rw [List.mem_cons, not_or]
    refine ⟨?_, ih⟩
    rintro rfl
    cases hpart

end Runner

theorem Expr.length_evaluateAll (es : List Expr) (flag : Bool) (r : Runner σ) :
    (evaluateAll w es flag r).1.length = es.length := by
  induction es generalizing r with
  | nil => rfl
  | cons x xs ih => exact congrArg (· + 1) (ih _)

namespace Frame

open FilterQuery.Expr

/-- The frame of pass number `i` of the loop from `r`, counted from zero. -/
def ofPass (w : World σ) (e : Expr) (r : Runner σ) (i : Nat) : Frame σ :=
  ⟨e, true, (stateAt w e r i).settle⟩

/-- **What the passes have called is what the frames that they meet call.** -/
theorem mem_log_stateAt_iff_calls {e : Expr} {r : Runner σ} {n : Nat} {key : String}
    {c : Capability} {args : List Value} : .call key c args ∈ (stateAt w e r n).log ↔
      .call key c args ∈ r.log ∨
        ∃ i < n, ∃ f, (ofPass w e r i).Meets w f ∧ f.Calls w key c args := by
  induction n with
  | zero => simp [stateAt]
  | succ n ih =>
    have hpass : .call key c args ∈ (stateAt w e r (n + 1)).log ↔
        .call key c args ∈ (stateAt w e r n).settle.log ∨
          ∃ f, (ofPass w e r n).Meets w f ∧ f.Calls w key c args :=
      mem_log_result_iff (f := ofPass w e r n)
    rw [hpass, mem_log_settle, ih, or_assoc]
    refine or_congr_right ⟨?_, ?_⟩
    · rintro (⟨i, hi, hcalls⟩ | hcalls)
      · exact ⟨i, Nat.lt_succ_of_lt hi, hcalls⟩
      · exact ⟨n, Nat.lt_succ_self n, hcalls⟩
    · rintro ⟨i, hi, hcalls⟩
      rcases Nat.lt_succ_iff_lt_or_eq.1 hi with hi | rfl
      · exact Or.inl ⟨i, hi, hcalls⟩
      · exact Or.inr hcalls

/-- A frame that a pass meets begins on a consistent runner, and what is there when it ends is there
after all later passes. -/
theorem Meets.evolves {e : Expr} {r : Runner σ} {i n : Nat} {f : Frame σ}
    (h : (ofPass w e r i).Meets w f) (hr : r.Consistent) (hi : i < n) :
    f.runner.Consistent ∧ Evolves (f.result w).2 (stateAt w e r n) := by
  obtain ⟨hinto, hout⟩ := closed_evolves.meets h
  obtain ⟨hpass, -⟩ := evolves_settle _ (evolves_stateAt w e r i hr).1
  obtain ⟨k, rfl⟩ := Nat.exists_eq_add_of_le hi
  have hlater := evolves_stateAt w e (stateAt w e r (i + 1)) k
  rw [← stateAt_add] at hlater
  exact ⟨(hinto hpass).1, closed_evolves.trans (w := w) hout hlater⟩

/-- **The arguments of a call come to the same on every runner later than the call.** -/
theorem Invokes.gather_arguments (hw : w.SteadyMembers) {callee : Expr} {args : List Expr}
    (hargs : ∀ x ∈ args, IsOperand x) {flag : Bool} {r s t : Runner σ} {key : String}
    {c : Capability} {values : List Value}
    (h : Invokes w ⟨.call callee args, flag, r⟩ key c values s) (hr : r.Consistent)
    (hlater : Evolves ((Expr.call callee args).evaluate w flag r).2 t) (flag' : Bool) :
    gather (evaluateAll w args flag (callee.target w flag r).2).1 = some values ∧
      gather (evaluateAll w args flag' t).1 = some values := by
  cases h with
  | path htarget => cases htarget
  | call htarget hvalues =>
    -- the call comes after its arguments, so what they have come to is kept up to `t`
    have hclosed : Closed w Evolves := closed_evolves
    have hcall := hclosed.of_arguments callee.pathKey c (evaluateAll w args flag)
      (callee.target w flag r).2
    rw [← htarget, ← evaluate_call] at hcall
    have hafter := hclosed.trans hcall hlater
    have hbefore := hclosed.trans (hclosed.target callee flag r)
      (hclosed.evaluateAll args flag (callee.target w flag r).2)
    obtain ⟨-, hkeep⟩ := hafter (hbefore hr).1
    have hsame := persistsAll (fun x hx => (hargs x hx).persists hw flag flag')
      (callee.target w flag r).2 t (by simp [hvalues]) hkeep
    exact ⟨hvalues, hsame ▸ hvalues⟩

end Frame

namespace Query

open FilterQuery.Expr

/-- **No capability is called with unfinished arguments.**  Hosts keep their members, and
capabilities answer what they like, at once or later.  What a run calls is what the frames of its
passes call.  And if a call node in any of these frames invokes a capability, be it known under its
key already or not, it hands over one value for each argument; none of its arguments has been
waiting then; and on the runner at the end of the run the arguments, evaluated from left to right,
come to the very same values, null standing for what is absent. -/
theorem calls_take_finished_arguments (hw : w.SteadyMembers) (q : Query) (e : Expr)
    (h : q.parse = .ok e) (context : Option Value) (world : σ) :
    let run := q.run w context world
    let pass := Frame.ofPass w e (start context world)
    (∀ key c values, .call key c values ∈ run.runner.log ↔
      ∃ i < run.passes, ∃ f, (pass i).Meets w f ∧ f.Calls w key c values) ∧
    ∀ i < run.passes, ∀ callee args flag r, (pass i).Meets w ⟨.call callee args, flag, r⟩ →
      ∀ key c values s, Frame.Invokes w ⟨.call callee args, flag, r⟩ key c values s →
        values.length = args.length ∧
        .pending ∉ (evaluateAll w args flag (callee.target w flag r).2).1 ∧
        ∀ flag', gather (evaluateAll w args flag' run.runner).1 = some values := by
  intro run pass
  obtain ⟨last, hrun, -⟩ := run_eq_stateAt w q e h context world
  have hpasses : run.passes = last + 1 := congrArg Run.passes hrun
  have hrunner : run.runner = stateAt w e (start context world) (last + 1) :=
    congrArg Run.runner hrun
  rw [hpasses, hrunner]
  refine ⟨fun key c values => ?_, ?_⟩
  · rw [Frame.mem_log_stateAt_iff_calls]
    exact or_iff_right List.not_mem_nil
  · intro i hi callee args flag r hmeets key c values s hinvokes
    obtain ⟨hr, hlater⟩ := hmeets.evolves (consistent_start context world) hi
    have hargs : ∀ x ∈ args, IsOperand x := by
      have hcall := ((q.isCondition h).of_hasPart hmeets.hasPart).1 rfl
      exact fun x hx => hcall.isOperand_of_mem_children (List.mem_cons_of_mem callee hx)
    have hgather := hinvokes.gather_arguments hw hargs hr hlater
    obtain ⟨hthen, -⟩ := hgather flag
    have hlength := (gather_eq_some_iff.1 hthen).length_eq
    rw [length_evaluateAll] at hlength
    exact ⟨hlength.symm, pending_notMem_of_gather hthen, fun flag' => (hgather flag').2⟩

/-- The query `f(g) = 1`. -/
def callQuery : Query where
  source := "f(g) = 1"
  tokens := [⟨.segment, "f", 0⟩, ⟨.punct .openParen, "(", 1⟩, ⟨.segment, "g", 2⟩,
    ⟨.punct .closeParen, ")", 3⟩, ⟨.comparator .equal, "=", 5⟩, ⟨.literal .number, "1", 7⟩,
    ⟨.endOfInput, "", 8⟩]
  ofText_source := by with_unfolding_all rfl

/-- The tree of `callQuery`. -/
def callExpr : Expr :=
  .comparison (.call (.root "f") [.root "g"]) .equal (.literal (.int 1) "1")

/-- The context of `callQuery`: two capabilities. -/
def callContext : Value :=
  .ofPairs [("f", .capability ⟨0⟩), ("g", .capability ⟨1⟩)]

theorem callQuery_takes_finished_arguments :
    countingWorld.SteadyMembers ∧ callQuery.parse = .ok callExpr ∧
      let run := callQuery.run countingWorld callContext 0
      let second := Frame.ofPass countingWorld callExpr (start callContext 0) 1
      run.passes = 3 ∧ .call "f" ⟨0⟩ [.int 1] ∈ run.runner.log ∧
      second.Meets countingWorld ⟨.call (.root "f") [.root "g"], true, second.runner⟩ ∧
      gather (evaluateAll countingWorld [.root "g"] true run.runner).1 = some [.int 1] := by
  have hsteady : countingWorld.SteadyMembers := fun _ _ _ _ => rfl
  have hparse : callQuery.parse = .ok callExpr := by with_unfolding_all rfl
  have hpasses : (callQuery.run countingWorld callContext 0).passes = 3 := by
    with_unfolding_all rfl
  obtain ⟨hlog, hfinished⟩ := calls_take_finished_arguments hsteady callQuery callExpr hparse
    callContext 0
  have hmeets : (Frame.ofPass countingWorld callExpr (start callContext 0) 1).Meets countingWorld
      ⟨.call (.root "f") [.root "g"], true,
        (Frame.ofPass countingWorld callExpr (start callContext 0) 1).runner⟩ :=
    .single (.left _ _ _ _)
  have hinvokes : ∃ s, Frame.Invokes countingWorld ⟨.call (.root "f") [.root "g"], true,
      (Frame.ofPass countingWorld callExpr (start callContext 0) 1).runner⟩ "f" ⟨0⟩ [.int 1] s ∧
      ¬ s.Knows "f" := by
    refine ⟨_, Frame.Invokes.call ?_ ?_, ?_⟩
    · with_unfolding_all rfl
    · with_unfolding_all rfl
    · with_unfolding_all decide
  have hsecond : 1 < (callQuery.run countingWorld callContext 0).passes := by
    rw [hpasses]
    decide
  obtain ⟨s, hcall, hnew⟩ := hinvokes
  obtain ⟨-, -, hend⟩ := hfinished 1 hsecond _ _ _ _ hmeets _ _ _ s hcall
  exact ⟨hsteady, hparse, hpasses, (hlog _ _ _).2 ⟨1, hsecond, _, hmeets, s, hcall, hnew⟩, hmeets,
    hend true⟩

end Query

end FilterQuery
