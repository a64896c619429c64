import FilterQuery.Proofs.Grammar.Failure
import FilterQuery.Proofs.Grammar.Language

/-!
# Proofs/Grammar/Recovery — conditions with mistakes in them

Where the brackets match, what `Tidy` says of the rules for values holds of conditions too, mistakes
or not: their brackets match, their errors are where they have read, and only the next token counts.
An atom is tried (`Tries`) and, if it is given up, skipped to its end
(`exists_settles_of_error`); so every operand of a chain settles (`Settles`) with an expression or an
error to show for it, and in a group the whole chain does.  Groups are within the budget of the
condition around them, so the induction is on the budget (`atom_tries`).
-/

namespace FilterQuery

namespace Grammar

open FilterQuery.Balance (run step run_append_of_run run_append_base Within IsAround ends ofStack)

variable {finish : Nat} {ts us r s : List Token} {opened base : List Punct}

/-! ## Readings -/

/-- An expression is missing only if an error has been recorded. -/
def Reading.Accounted (reading : Reading) : Prop :=
  reading.expr = none → reading.errors ≠ []

variable (finish) in
/-- Conditions are read tidily: the brackets of the tokens `ts` that have been taken match, the
errors are at these tokens or at the next, and if nothing has been read there is an error. -/
structure Settles (read : List Token → Reading × List Token) (opened : List Punct)
    (ts r : List Token) (reading : Reading) : Prop where
  takes : Takes read ts r reading
  balanced : run opened ts = some opened
  accounted : reading.Accounted
  blames : ∀ e ∈ reading.errors, e.offset ∈ span finish ts r

variable (finish) in
/-- What comes of an atom before recovery. -/
inductive Tries (read : List Token → Attempt × List Token) (s : List Token) : Prop
  | ok {ts r : List Token} {expr : Option Expr} {errors : List SyntaxError} : s = ts ++ r →
      Takes read ts r ⟨.ok expr, errors⟩ → run [] ts = some [] →
      Reading.Accounted ⟨expr, errors⟩ → (∀ e ∈ errors, e.offset ∈ span finish ts r) → Tries read s
  | error {ts r : List Token} {e : SyntaxError} {errors : List SyntaxError}
      {opened : List Punct} : s = ts ++ r → Takes read ts r ⟨.error e, errors⟩ →
      run [] ts = some opened → (∀ e' ∈ errors ++ [e], e'.offset ∈ span finish ts r) → Tries read s

/-! ## After an error -/

theorem recovering_run_of_error {x : Consumer Token Attempt} {err : SyntaxError}
    {errors : List SyntaxError} (h : x.run s = (⟨.error err, errors⟩, r)) :
    (recovering x).run s = (⟨none, errors ++ [err]⟩,
      (Brackets.empty.trackAll (s.take (s.length - r.length))).skip r) := by
  have hrest : Consumer.rest.run s = (s, s) := rfl
  rw [recovering, Consumer.run_bind, Consumer.run_bind, hrest, h]
  rfl

theorem settles_of_ok {x : Consumer Token Attempt} {expr : Option Expr}
    {errors : List SyntaxError} (htakes : Takes x.run ts r ⟨.ok expr, errors⟩)
    (hrun : run [] ts = some []) (haccounted : Reading.Accounted ⟨expr, errors⟩)
    (hspan : ∀ e ∈ errors, e.offset ∈ span finish ts r) :
    Settles finish (recovering x).run [] ts r ⟨expr, errors⟩ where
  takes r' hr' := recovering_run_of_ok (htakes r' hr')
  balanced := hrun
  accounted := haccounted
  blames := hspan

/-- **An atom that is given up is skipped to its end.** -/
theorem exists_settles_of_error {x : Consumer Token Attempt} {err : SyntaxError}
    {errors : List SyntaxError} {stop : Token} {after : List Token} (hbase : IsAround base)
    (hstop : ends stop.kind = true) (hwithin : Within base (ts ++ r) (stop :: after))
    (htakes : Takes x.run ts r ⟨.error err, errors⟩) (hrun : run [] ts = some opened)
    (hspan : ∀ e ∈ errors ++ [err], e.offset ∈ span finish ts r) :
    ∃ us r', r = us ++ r' ∧ (base = [] → r' = stop :: after) ∧
      Settles finish (recovering x).run [] (ts ++ us) r' ⟨none, errors ++ [err]⟩ := by
  have hr : Within (opened ++ base) r (stop :: after) :=
    hwithin.advance hstop (run_append_base hrun base)
  obtain ⟨us, t, r, rfl, hus, hskip, hend⟩ := Balance.exists_skip_of_within hbase hstop hr
  refine ⟨us, t :: r, rfl, hend, ?_, ?_, ?_, ?_⟩
  · intro r' hr'
    obtain ⟨r', rfl⟩ := List.head?_eq_some_iff.1 hr'
    have hread := htakes (us ++ t :: r') (head?_append_congr us hr')
    rw [List.append_assoc, recovering_run_of_error hread]
    have htaken : (ts ++ (us ++ t :: r')).take
        ((ts ++ (us ++ t :: r')).length - (us ++ t :: r').length) = ts := by
      rw [List.length_append, Nat.add_sub_cancel, List.take_left]
    have htrack : Brackets.empty.trackAll ts = ofStack opened :=
      Balance.trackAll_ofStack_of_run hrun
    rw [htaken, htrack, hskip]
  · exact (run_append_of_run hrun us).trans hus
  · exact fun _ => by simp
  · exact fun e he => span_subset_append_right finish ts us (t :: r) (hspan e he)

/-! ## Chains in a group -/

/-- A change of the connector leaves the reading of a chain as it is, or gives the chain up. -/
theorem Progress.reading_charge (p : Progress) (j : Joint) : (p.charge j).reading = p.reading ∨
    (p.charge j).reading = ⟨none, p.reading.errors ++ [⟨j.offset, .tooDeep⟩]⟩ := by
  unfold Progress.charge
  split
  · split
    · exact .inr rfl
    · exact .inl rfl
  · exact .inl rfl

theorem Progress.mem_errors_charge {p : Progress} {j : Joint} {e : SyntaxError}
    (h : e ∈ (p.charge j).reading.errors) : e ∈ p.reading.errors ∨ e.offset = j.offset := by
  rcases p.reading_charge j with hcharge | hcharge <;> rw [hcharge] at h
  · exact .inl h
  · exact (List.mem_append.1 h).imp_right fun he => by rw [List.mem_singleton.1 he]

theorem Progress.mem_errors_step {p : Progress} {j : Joint} {operand : Reading} {e : SyntaxError}
    (h : e ∈ (p.step (j, operand)).reading.errors) :
    e ∈ p.reading.errors ∨ e.offset = j.offset ∨ e ∈ operand.errors := by
  rcases List.mem_append.1 h with h | h
  · exact (Progress.mem_errors_charge h).imp_right .inl
  · exact .inr (.inr h)

theorem Progress.accounted_charge {p : Progress} (hp : p.reading.Accounted) (j : Joint) :
    (p.charge j).reading.Accounted := by
  rcases p.reading_charge j with hcharge | hcharge <;> rw [hcharge]
  · exact hp
  · exact fun _ => by simp

/-- **A chain without an expression has an error to show for it,** for a part of it has. -/
theorem Progress.accounted_step {p : Progress} (hp : p.reading.Accounted) {operand : Reading}
    (hoperand : operand.Accounted) (j : Joint) : (p.step (j, operand)).reading.Accounted := by
  intro hnone hnil
  obtain ⟨hcharge, hoperand'⟩ := List.append_eq_nil_iff.1 hnil
  obtain ⟨left, hleft⟩ := Option.ne_none_iff_exists'.1 fun h =>
    Progress.accounted_charge hp j h hcharge
  obtain ⟨right, hright⟩ := Option.ne_none_iff_exists'.1 fun h => hoperand h hoperand'
  simp [Progress.step, Progress.append, hleft, hright] at hnone

/-- **In a group a chain is read tidily,** if its operands are. -/
theorem exists_takes_goOn {item : Consumer Token Reading} {outer : List Punct} {stop : Token}
    {after : List Token} (hstop : ends stop.kind = true)
    (hitem : ∀ s, Within (.openParen :: outer) s (stop :: after) →
      ∃ ts r reading, s = ts ++ r ∧ Settles finish item.run [] ts r reading)
    {s : List Token} (h : Within (.openParen :: outer) s (stop :: after)) {p : Progress}
    (hp : p.reading.Accounted) :
    ∃ ts r reading, s = ts ++ r ∧ Takes (goOn item p) ts r reading ∧
      run [.openParen] ts = some [.openParen] ∧ reading.Accounted ∧
      ∀ e ∈ reading.errors, e ∈ p.reading.errors ∨ e.offset ∈ span finish ts r := by
  induction hlength : s.length using Nat.strongRecOn generalizing s p with
  | ind n ih =>
    subst hlength
    by_cases hjoint : ∃ t s' j, s = t :: s' ∧ joint? t = some j
    · obtain ⟨t, s, j, rfl, hj⟩ := hjoint
      obtain ⟨hkind, hoffset⟩ := joint?_eq_some_iff.1 hj
      have hconnector : ∀ us, run [.openParen] (t :: us) = run [.openParen] us := fun us => by
        rw [run, hkind]
        rfl
      have hs : Within (.openParen :: outer) s (stop :: after) :=
        h.advance_cons hstop (by rw [hkind]; rfl)
      obtain ⟨us, r, operand, rfl, hsettles⟩ := hitem s hs
      have hus : run [.openParen] us = some [.openParen] :=
        run_append_base hsettles.balanced [.openParen]
      have hlt : r.length < (t :: (us ++ r)).length := by
        rw [List.length_cons, List.length_append]
        omega
      obtain ⟨vs, r, reading, rfl, htakes, hvs, haccounted, hspan⟩ :=
        ih r.length hlt (hs.advance hstop (run_append_base hus outer))
          (Progress.accounted_step hp hsettles.accounted j) rfl
      refine ⟨t :: (us ++ vs), r, reading, by simp, ?_, ?_, haccounted, fun e he => ?_⟩
      · intro r' hr'
        rw [List.cons_append, List.append_assoc, goOn_of_joint item p hj,
          hsettles.takes _ (head?_append_congr vs hr'), htakes r' hr']
      · exact (hconnector _).trans ((run_append_of_run hus vs).trans hvs)
      · -- an error of the whole is one of the chain so far, the connector, the operand or the rest
        have hsub := span_subset_append_left finish [t] (us ++ vs) r
        rcases hspan e he with he | he
        · rcases Progress.mem_errors_step he with he | he | he
          · exact .inl he
          · exact .inr (he.trans hoffset ▸ mem_span finish List.mem_cons_self r)
          · exact .inr (hsub (span_subset_append_right finish us vs r (hsettles.blames e he)))
        · exact .inr (hsub (span_subset_append_left finish us vs r he))
    · refine ⟨[], s, p.reading, rfl, fun r' hr' => goOn_of_stop item p ?_, rfl, hp,
        fun e he => .inl he⟩
      rintro t us rfl
      obtain ⟨s', rfl⟩ := List.head?_eq_some_iff.1 hr'.symm
      exact Option.eq_none_iff_forall_ne_some.2 fun j hj => hjoint ⟨t, s', j, rfl, hj⟩

/-! ## Atoms, operands and conditions -/

theorem comparison_tries (budget : Nat) (h : (front finish s).kind ≠ .punct .openParen) :
    Tries finish (atom finish budget (inner finish budget)).run s := by
  have hrun : ∀ ts r r' (x : Except SyntaxError Expr), s = ts ++ r → r'.head? = r.head? →
      (comparison finish (operand finish budget)).apply (ts ++ r') = (x, r') →
      (atom finish budget (inner finish budget)).run (ts ++ r') = (⟨x.map some, []⟩, r') := by
    rintro ts r r' x rfl hr' hx
    rw [← front_congr finish (head?_append_congr ts hr')] at h
    rw [atom_run_of_not_openParen finish budget h, hx]
  have htidy : Tidy finish (comparison finish (operand finish budget)) [] [] s :=
    comparison_tidy budget [] s
  cases htidy with
  | @ok ts r e hs htakes hbalanced =>
    exact .ok hs (fun r' hr' => hrun ts r r' _ hs hr' (htakes r' hr')) hbalanced
      (fun hnone => by cases hnone) (by simp)
  | @error ts r e opened hs htakes hbalanced hspan =>
    exact .error hs (fun r' hr' => hrun ts r r' _ hs hr' (htakes r' hr')) hbalanced (by simpa)

theorem atom_run_openParen_cons {t : Token} (ht : t.kind = .punct .openParen) (budget : Nat)
    (s : List Token) : (atom finish (budget + 1) (inner finish (budget + 1))).run (t :: s) =
      (group finish (condition finish budget)).run (t :: s) :=
  atom_run_of_openParen finish budget ht

theorem takes_group_of_closeParen {budget : Nat} {t c : Token} (ht : t.kind = .punct .openParen)
    (hc : c.kind = .punct .closeParen) {reading : Reading}
    (h : Takes (condition finish budget).run ts (c :: r) reading) :
    Takes (atom finish (budget + 1) (inner finish (budget + 1))).run (t :: (ts ++ [c])) r
      ⟨.ok (reading.expr.map .group), reading.errors⟩ := by
  intro r' _
  have hread : (condition finish budget).run (t :: (ts ++ c :: r')).tail = (reading, c :: r') :=
    h (c :: r') rfl
  rw [List.cons_append, List.append_assoc, List.singleton_append,
    atom_run_openParen_cons ht, group_run_of_closeParen finish, hread]
  · rfl
  · rw [hread]
    exact hc

theorem takes_group_of_not_closeParen {budget : Nat} {t : Token} (ht : t.kind = .punct .openParen)
    (hr : (front finish r).kind ≠ .punct .closeParen) {reading : Reading}
    (h : Takes (condition finish budget).run ts r reading) :
    Takes (atom finish (budget + 1) (inner finish (budget + 1))).run (t :: ts) r
      ⟨.error (unexpected .connectorOrCloseParen (front finish r)), reading.errors⟩ := by
  intro r' hr'
  have hread : (condition finish budget).run (t :: (ts ++ r')).tail = (reading, r') := h r' hr'
  rw [← front_congr finish hr'] at hr ⊢
  rw [List.cons_append, atom_run_openParen_cons ht, group_run_of_not_closeParen finish, hread]
  rw [hread]
  exact hr

/-- **A group is read tidily if its condition is,** and fails where a parenthesis should close
it. -/
theorem group_tries {budget : Nat} {t : Token} (ht : t.kind = .punct .openParen)
    {reading : Reading}
    (h : Settles finish (condition finish budget).run [.openParen] ts r reading) :
    Tries finish (atom finish (budget + 1) (inner finish (budget + 1))).run (t :: (ts ++ r)) := by
  have hopen : ∀ us, run [] (t :: us) = run [.openParen] us := fun us => by
    rw [run, ht]
    rfl
  by_cases hclose : (front finish r).kind = .punct .closeParen
  · obtain ⟨c, r, rfl⟩ : ∃ c r', r = c :: r' :=
      ⟨_, _, eq_front_cons_of_kind finish hclose (by simp)⟩
    replace hclose : c.kind = .punct .closeParen := hclose
    refine .ok (by simp) (takes_group_of_closeParen ht hclose h.takes) ?_
      (fun hnone => h.accounted (Option.map_eq_none_iff.1 hnone)) fun e he => ?_
    · rw [hopen, run_append_of_run h.balanced, run, hclose]
      rfl
    · refine span_subset_append_left finish [t] (ts ++ [c]) r ?_
      exact span_subset_append_right finish ts [c] r (h.blames e he)
  · refine .error rfl (takes_group_of_not_closeParen ht hclose h.takes)
      ((hopen ts).trans h.balanced) fun e he => ?_
    rcases List.mem_append.1 he with he | he
    · exact span_subset_append_left finish [t] ts r (h.blames e he)
    · rw [List.mem_singleton.1 he]
      exact front_mem_span finish (t :: ts) r

/-- With the budget spent, a group is not entered. -/
theorem group_tries_zero (h : (front finish s).kind = .punct .openParen) :
    Tries finish (atom finish 0 (inner finish 0)).run s := by
  have htakes : Takes (atom finish 0 (inner finish 0)).run [] s
      ⟨.error (tooDeep (front finish s)), []⟩ := by
    intro r' hr'
    rw [← front_congr finish hr'] at h ⊢
    exact atom_run_of_openParen_zero finish h
  refine .error rfl htakes rfl fun e he => ?_
  rw [List.mem_singleton.1 he]
  exact front_mem_span finish [] s

section Within

variable {stop : Token} {after : List Token} (hstop : ends stop.kind = true)
include hstop

/-- **An operand of a chain is read tidily,** whatever has to be skipped. -/
theorem exists_settles_operandOf {budget : Nat} (hbase : IsAround base)
    (hatom : ∀ s, Within base s (stop :: after) →
      Tries finish (atom finish budget (inner finish budget)).run s)
    (h : Within base s (stop :: after)) :
    ∃ ts r reading, s = ts ++ r ∧ Settles finish (operandOf finish budget).run [] ts r reading := by
  cases hatom s h with
  | @ok ts r expr errors hs htakes hrun haccounted hspan =>
    exact ⟨ts, r, _, hs, settles_of_ok htakes hrun haccounted hspan⟩
  | @error ts r e errors opened hs htakes hrun hspan =>
    subst hs
    obtain ⟨us, r, rfl, -, hsettles⟩ :=
      exists_settles_of_error hbase hstop h htakes hrun hspan
    exact ⟨ts ++ us, r, _, (List.append_assoc ..).symm, hsettles⟩

theorem exists_settles_conditionWith {budget : Nat} {outer : List Punct}
    (hatom : ∀ s, Within (.openParen :: outer) s (stop :: after) →
      Tries finish (atom finish budget (inner finish budget)).run s)
    (h : Within (.openParen :: outer) s (stop :: after)) :
    ∃ ts r reading, s = ts ++ r ∧
      Settles finish (condition finish budget).run [.openParen] ts r reading := by
  have hitem : ∀ s, Within (.openParen :: outer) s (stop :: after) → ∃ ts r reading,
      s = ts ++ r ∧ Settles finish (operandOf finish budget).run [] ts r reading := fun s hs =>
    exists_settles_operandOf hstop (.inr ⟨outer, rfl⟩) hatom hs
  obtain ⟨ts, r, first, rfl, hfirst⟩ := hitem s h
  have hts : run [.openParen] ts = some [.openParen] :=
    run_append_base hfirst.balanced [.openParen]
  obtain ⟨us, r, reading, rfl, htakes, hus, haccounted, hspan⟩ :=
    exists_takes_goOn hstop hitem (h.advance hstop (run_append_base hts outer))
      (p := ⟨first, budget⟩) hfirst.accounted
  refine ⟨ts ++ us, r, reading, (List.append_assoc ..).symm, fun r' hr' => ?_,
    (run_append_of_run hts us).trans hus, haccounted, fun e he => ?_⟩
  · rw [condition_eq, conditionWith_run, List.append_assoc,
      hfirst.takes _ (head?_append_congr us hr'), htakes r' hr']
  · rcases hspan e he with he | he
    · exact span_subset_append_right finish ts us r (hfirst.blames e he)
    · exact span_subset_append_left finish ts us r he

/-- **An atom is tried tidily,** in a group or not, where the brackets up to the end of the operand
match. -/
theorem atom_tries (budget : Nat) : ∀ {base s}, IsAround base → Within base s (stop :: after) →
    Tries finish (atom finish budget (inner finish budget)).run s := by
  induction budget with
  | zero =>
    intro base s _ _
    by_cases hparen : (front finish s).kind = .punct .openParen
    · exact group_tries_zero hparen
    · exact comparison_tries 0 hparen
  | succ budget ih =>
    intro base s _ hs
    by_cases hparen : (front finish s).kind = .punct .openParen
    · obtain ⟨t, s, rfl⟩ : ∃ t s', s = t :: s' :=
        ⟨_, _, eq_front_cons_of_kind finish hparen (by simp)⟩
      have hopen : step base t.kind = some (.openParen :: base) := by
        rw [show t.kind = _ from hparen]
        rfl
      obtain ⟨ts, r, reading, rfl, hsettles⟩ := exists_settles_conditionWith hstop
        (fun s => ih (.inr ⟨base, rfl⟩)) (hs.advance_cons hstop hopen)
      exact group_tries hparen hsettles
    · exact comparison_tries (budget + 1) hparen

end Within

end Grammar

end FilterQuery
