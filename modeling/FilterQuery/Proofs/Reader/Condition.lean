import FilterQuery.Proofs.Grammar.Recovery
import FilterQuery.Proofs.Reader.Operand

/-!
# Proofs/Reader/Condition — the machine reads conditions as the parser does

A machine **leads to a reading** if it comes to an end with the expression of the reading, at the
tokens that the parser leaves, and has put the errors of the reading after its own
(`LeadsToReading`, and `LeadsToAttempt` before recovery).  An atom that breaks off is skipped from
where it has broken off, and the tokens taken of it are there to see which brackets are open
(`synchronize_leads`).  A chain counts how often it has changed its connector, where the parser
counts how often it may still do so; the two counts add up to the budget as long as there is an
expression (`chain_leads`).  **Conditions are read alike by induction on the budget**
(`condition_leads`), and so is all that is left (`parse_leads`).
-/

namespace FilterQuery.Machine

open Grammar (front Joint joint? Progress Reading Attempt goOn operandOf)

variable {tokens s r : List Token} {finish budget : Nat} {errors : List SyntaxError}

/-- At `s` the machine comes to the end that a reading comes to. -/
def LeadsToReading (tokens : List Token) (finish budget : Nat) (x : Machine (Option Expr))
    (s : List Token) (out : Reading × List Token) : Prop :=
  ∀ errors, Leads tokens budget x ⟨finish, s, errors⟩ out.1.expr
    ⟨finish, out.2, errors ++ out.1.errors⟩

/-- At `s` the machine comes to the end that an attempt at an atom comes to. -/
def LeadsToAttempt (tokens : List Token) (finish budget : Nat)
    (x : Machine (Except SyntaxError (Option Expr))) (s : List Token)
    (out : Attempt × List Token) : Prop :=
  ∀ errors, Leads tokens budget x ⟨finish, s, errors⟩ out.1.result
    ⟨finish, out.2, errors ++ out.1.errors⟩

/-! ## After an error -/

/-- **Skipping comes to an end:** it stops at the end of the tokens if it has not stopped before. -/
theorem skipFrom_leads (opened : Brackets) (s : List Token) :
    Leads tokens budget opened.skipFrom ⟨finish, s, errors⟩ ()
      ⟨finish, opened.skip s, errors⟩ := by
  induction s generalizing opened with
  | nil =>
    rw [Brackets.skipFrom]
    exact (current_leads _).bind (.of_pure _ _)
  | cons t s ih =>
    rw [Brackets.skipFrom, Brackets.skip]
    refine (current_leads _).bind ?_
    rw [Grammar.front_cons]
    by_cases hstop : opened.stopsAt t.kind = true
    · rw [if_pos hstop, if_pos hstop]
      exact .of_pure _ _
    · rw [if_neg hstop, if_neg hstop]
      exact (advance_leads _).bind (ih _)

theorem synchronize_leads {start : List Token} (hstart : start <:+ tokens) (hr : r <:+ start) :
    Leads tokens budget (synchronize (tokens.length - start.length)) ⟨finish, r, errors⟩ ()
      ⟨finish, ((FilterQuery.synchronize start).run r).2, errors⟩ := by
  rw [synchronize]
  exact (taken_leads hstart hr).bind (skipFrom_leads _ r)

/-- **An atom that breaks off is recorded and skipped.** -/
theorem recovering_leads {x : Consumer Token Attempt}
    (h : LeadsToAttempt tokens finish budget rules.atom s (x.run s)) :
    LeadsToReading tokens finish budget rules.recovering s ((Grammar.recovering x).run s) := by
  refine fun errors => .of_suffix fun hs => ?_
  have hatom := h errors
  have hsuffix := x.suffix s
  rw [Rules.recovering]
  refine (position_leads _).bind ?_
  rcases hx : x.run s with ⟨⟨e | expr, new⟩, r⟩
  · rw [hx] at hatom hsuffix
    rw [Grammar.recovering_run_of_error hx]
    rw [← List.append_assoc]
    exact hatom.bind ((record_leads e _).bind
      ((synchronize_leads hs hsuffix).bind (.of_pure none _)))
  · rw [hx] at hatom
    rw [Grammar.recovering_run_of_ok hx]
    exact hatom.bind (.of_pure _ _)

/-! ## Atoms -/

theorem comparison_follows (s : List Token) :
    Follows tokens finish budget rules.comparison
      (Grammar.comparison finish (Grammar.operand finish budget)) s := by
  refine (operand_follows budget s).andThen fun left r => .current_bind ?_
  rcases (front finish r).kind with _ | _ | _ | op | _ | _
  case comparator =>
    exact .advance_bind ((operand_follows budget _).andThen fun right r => .of_ok _ r)
  all_goals exact .of_error _ r

theorem group_leads {x : Consumer Token Reading}
    (h : LeadsToReading tokens finish budget rules.condition s.tail (x.run s.tail)) :
    LeadsToAttempt tokens finish budget rules.group s ((Grammar.group finish x).run s) := by
  intro errors
  rw [Rules.group]
  refine (advance_leads _).bind ((h errors).bind ((current_leads _).bind ?_))
  by_cases hclose : (front finish (x.run s.tail).2).kind = .punct .closeParen
  · rw [Grammar.group_run_of_closeParen finish x hclose, if_pos hclose]
    exact (advance_leads _).bind (.of_pure _ _)
  · rw [Grammar.group_run_of_not_closeParen finish x hclose, if_neg hclose]
    exact .of_pure _ _

/-- **An atom is read alike,** if a condition in it is. -/
theorem atom_leads (hinner : ∀ b, budget = b + 1 → ∀ s,
      LeadsToReading tokens finish b rules.condition s ((Grammar.condition finish b).run s))
    (s : List Token) :
    LeadsToAttempt tokens finish budget rules.atom s
      ((Grammar.atom finish budget (Grammar.inner finish budget)).run s) := by
  intro errors
  rw [Rules.atom]
  refine (current_leads _).bind ?_
  by_cases hparen : (front finish s).kind = .punct .openParen
  · rw [if_pos hparen]
    cases budget with
    | zero =>
      rw [Grammar.atom_run_of_openParen_zero finish hparen, List.append_nil]
      exact nested_leads_zero rules.group _
    | succ budget =>
      rw [Grammar.atom_run_of_openParen finish budget hparen]
      exact (group_leads (hinner budget rfl s.tail) errors).nested
  · rw [if_neg hparen, Grammar.atom_run_of_not_openParen finish budget hparen, List.append_nil]
    have hfollows : Follows tokens finish budget rules.comparison _ s := comparison_follows s
    have hcomparison := hfollows errors
    generalize (Grammar.comparison finish (Grammar.operand finish budget)).apply s = out
      at hcomparison ⊢
    rcases out with ⟨_ | _, r⟩ <;> exact hcomparison.bind (.of_pure _ _)

/-! ## Chains -/

/-- **A chain is given up for the same change of its connector,** whether its changes are counted up
or down. -/
theorem charge_leads {p : Progress} {changes : Nat}
    (h : p.reading.expr ≠ none → changes + p.changes = budget) (j : Joint) :
    ∃ changes', ((p.charge j).reading.expr ≠ none → changes' + (p.charge j).changes = budget) ∧
      ∀ errors, Leads tokens budget (charge maxDepth p.reading.expr j changes)
        ⟨finish, s, errors ++ p.reading.errors⟩ ((p.charge j).reading.expr, changes')
        ⟨finish, s, errors ++ (p.charge j).reading.errors⟩ := by
  by_cases hchange : Grammar.changesConnector p.reading.expr j.op = true
  · have hsum : changes + p.changes = budget := h fun hnone => by
      rw [hnone] at hchange
      cases hchange
    rw [charge, Progress.charge, if_pos hchange, if_pos hchange]
    rcases hleft : p.changes with _ | left
    · refine ⟨changes + 1, fun hne => absurd rfl hne, fun errors => (depth_leads _).bind ?_⟩
      rw [if_pos (by omega), ← List.append_assoc]
      exact (record_leads _ _).bind (.of_pure _ _)
    · have hcount : changes + 1 + left = budget := by omega
      refine ⟨changes + 1, fun _ => hcount, fun errors => .of_budget_le fun hle => ?_⟩
      refine (depth_leads _).bind ?_
      rw [if_neg (by omega)]
      exact .of_pure _ _
  · rw [charge, Progress.charge, if_neg hchange, if_neg hchange]
    exact ⟨changes, h, fun errors => .of_pure _ _⟩

/-- **The atoms after those that have been joined are read alike.** -/
theorem chain_leads {item : Consumer Token Reading}
    (hitem : ∀ s, LeadsToReading tokens finish budget rules.recovering s (item.run s))
    (p : Progress) {changes : Nat} (h : p.reading.expr ≠ none → changes + p.changes = budget)
    (s : List Token) (errors : List SyntaxError) :
    Leads tokens budget (rules.chain p.reading.expr changes)
      ⟨finish, s, errors ++ p.reading.errors⟩ (goOn item p s).1.expr
      ⟨finish, (goOn item p s).2, errors ++ (goOn item p s).1.errors⟩ := by
  induction s using Consumer.separatedTail.induct joint? item generalizing p changes with
  | case1 =>
    rw [Grammar.goOn_of_stop item p (by simp), Rules.chain]
    exact (current_leads _).bind (.of_pure _ _)
  | case2 t s ht =>
    rw [Grammar.goOn_of_stop item p (by simpa using ht), Rules.chain]
    refine (current_leads _).bind ?_
    rw [Grammar.front_cons, ht]
    exact .of_pure _ _
  | case3 t s j ht ih =>
    obtain ⟨changes', hcount, hcharge⟩ := charge_leads h j
    have hjoin : ((p.charge j).reading.expr.bind fun left =>
        (item.run s).1.expr.map (left.join j.op)) = (p.step (j, (item.run s).1)).reading.expr := by
      rw [Progress.step, Progress.append]
      cases (p.charge j).reading.expr <;> cases (item.run s).1.expr <;> rfl
    have hstep : (p.step (j, (item.run s).1)).reading.expr ≠ none →
        changes' + (p.step (j, (item.run s).1)).changes = budget := fun hne =>
      hcount fun hnone => hne (by rw [← hjoin, hnone]; rfl)
    rw [Grammar.goOn_of_joint item p ht, Rules.chain]
    refine (current_leads _).bind ?_
    rw [Grammar.front_cons, ht]
    refine (hcharge errors).bind ((advance_leads _).bind ((hitem s _).bind ?_))
    rw [hjoin, List.append_assoc]
    exact ih _ hstep

/-- **Any condition is read alike.** -/
theorem condition_leads (budget : Nat) (s : List Token) :
    LeadsToReading tokens finish budget rules.condition s
      ((Grammar.condition finish budget).run s) := by
  induction budget using Nat.strongRecOn generalizing s with
  | ind budget ih =>
    intro errors
    have hitem : ∀ s, LeadsToReading tokens finish budget rules.recovering s
        ((operandOf finish budget).run s) := fun s =>
      recovering_leads (atom_leads (fun b hb => ih b (by omega)) s)
    have hchain := chain_leads hitem ⟨((operandOf finish budget).run s).1, budget⟩
      (fun _ => Nat.zero_add budget) ((operandOf finish budget).run s).2 errors
    rw [Grammar.condition_eq, Grammar.conditionWith_run, Rules.condition]
    exact (hitem s errors).bind hchain

/-! ## A whole parser -/

/-- A condition is taken as `Parser.parseExpression` takes it. -/
theorem parseExpression_leads (p : Parser) :
    Leads tokens maxDepth rules.condition p p.parseExpression.1 p.parseExpression.2 :=
  condition_leads maxDepth p.rest p.errors

/-- All that is left is taken as `Parser.parse` takes it. -/
theorem parse_leads (p : Parser) :
    Leads tokens maxDepth rules.whole p p.parse.1 p.parse.2 := by
  rw [Rules.whole, Parser.parse]
  refine (parseExpression_leads p).bind ((current_leads _).bind ?_)
  by_cases hend : (front p.parseExpression.2.finish p.parseExpression.2.rest).kind = .endOfInput
  · rw [if_neg (not_not_intro hend)]
    simp only [if_pos hend]
    exact (takeErrors_leads _).bind (.of_pure _ _)
  · rw [if_pos hend]
    simp only [if_neg hend]
    exact (record_leads _ _).bind ((takeErrors_leads _).bind (.of_pure _ _))

end FilterQuery.Machine
