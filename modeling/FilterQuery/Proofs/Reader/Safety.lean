import FilterQuery.Proofs.Grammar.Descent
import FilterQuery.Proofs.Reader.Condition

/-!
# Proofs/Reader/Safety — whatever a parser is asked for, and however often

    tokens    a  =  1  )  AND  b                       a bracket too many, and no end of input
    calls     expression                               whole     expression
    stand     0:0 → 0:1 → 1:1 → 1:0 → 2:0 → 3:0        3:0       3:0

One parser may be called time and again, on tokens of any kind, and goes on where the call before it
has stopped.  As a machine leads where the parser goes, **every call comes to an end, within the
tokens, and out of every nested rule** (`calls_are_safe`).  What it returns has a derivation, so
nobody who walks down from its root has to go deeper than a constant.
-/

namespace FilterQuery

namespace Parser

/-- What a parser can be called for. -/
inductive Call where
  | expression
  | whole

/-- What a call returns. -/
inductive Answer where
  | expression (expr : Option Expr)
  | whole (result : Except (List SyntaxError) Expr)

/-- The expression that is returned, if there is one. -/
def Answer.expr? : Answer → Option Expr
  | expression expr => expr
  | whole result => result.toOption

/-- Answers a call. -/
def answer (c : Call) : StateM Parser Answer :=
  match c with
  | .expression => fun p => (.expression p.parseExpression.1, p.parseExpression.2)
  | .whole => fun p => (.whole p.parse.1, p.parse.2)

/-- What is returned has been read as a condition, from the tokens that were left. -/
theorem exists_condition_of_answer {c : Call} {p : Parser} {e : Expr}
    (h : ((answer c).run p).1.expr? = some e) :
    ∃ ts, ts <+: p.rest ∧ Grammar.Condition maxDepth 0 ts e := by
  have hread : p.parseExpression.1 = some e := by
    cases c with
    | expression => exact h
    | whole =>
      have hoption : p.parse.1.toOption = some e := h
      cases hparse : p.parse.1 <;> rw [hparse] at hoption <;> cases hoption
      obtain ⟨-, rest, hrun, -⟩ := parse_eq_ok_iff.1 hparse
      exact congrArg (fun r => r.1.expr) hrun
  obtain ⟨ts, hts, hcondition⟩ :=
    Grammar.condition_reads _ maxDepth 0 (Nat.zero_add _) p.rest e hread
  exact ⟨ts, ⟨_, hts.symm⟩, hcondition⟩

theorem rest_answer_suffix (c : Call) (p : Parser) : ((answer c).run p).2.rest <:+ p.rest := by
  have hcondition := (Grammar.condition p.finish maxDepth).suffix p.rest
  cases c with
  | expression => exact hcondition
  | whole => exact hcondition

/-- **Every expression that is returned is derived by some of the tokens,** whatever has been called
for before. -/
theorem exists_condition_of_mem_answers (calls : List Call) (p : Parser) :
    ∀ a ∈ ((calls.mapM answer).run p).1, ∀ e, a.expr? = some e →
      ∃ ts, ts <:+: p.rest ∧ Grammar.Condition maxDepth 0 ts e := by
  induction calls generalizing p with
  | nil => exact fun _ ha => nomatch ha
  | cons c calls ih =>
    rw [List.mapM_cons]
    refine List.forall_mem_cons.2 ⟨fun e he => ?_, fun a ha e he => ?_⟩
    · obtain ⟨ts, hts, hcondition⟩ := exists_condition_of_answer he
      exact ⟨ts, hts.isInfix, hcondition⟩
    · obtain ⟨ts, hts, hcondition⟩ := ih _ a ha e he
      exact ⟨ts, hts.trans (rest_answer_suffix c p).isInfix, hcondition⟩

/-- No expression that is returned is deep. -/
theorem noDeeper_of_mem_answers (calls : List Call) (p : Parser) :
    ∀ a ∈ ((calls.mapM answer).run p).1, ∀ e, a.expr? = some e →
      e.NoDeeper ((maxDepth + 1) * (maxDepth + 1)) := by
  intro a ha e he
  obtain ⟨ts, -, hcondition⟩ := exists_condition_of_mem_answers calls p a ha e he
  exact Expr.noDeeper_of_condition hcondition

end Parser

namespace Machine

variable {tokens : List Token}

/-- Answers a call. -/
def answer : Parser.Call → Machine Parser.Answer
  | .expression => do return .expression (← rules.condition)
  | .whole => do return .whole (← rules.whole)

theorem answer_leads (c : Parser.Call) (p : Parser) :
    Leads tokens maxDepth (answer c) p ((Parser.answer c).run p).1 ((Parser.answer c).run p).2 := by
  cases c with
  | expression => exact (parseExpression_leads p).bind (.of_pure _ _)
  | whole => exact (parse_leads p).bind (.of_pure _ _)

/-- **Each call goes on where the one before it has stopped.** -/
theorem answers_leads (calls : List Parser.Call) (p : Parser) :
    Leads tokens maxDepth (calls.mapM answer) p ((calls.mapM Parser.answer).run p).1
      ((calls.mapM Parser.answer).run p).2 := by
  induction calls generalizing p with
  | nil => exact .of_pure [] p
  | cons c calls ih =>
    rw [List.mapM_cons, List.mapM_cons]
    exact (answer_leads c p).bind ((ih _).bind (.of_pure _ _))

/-- A machine and a parser stand alike before the first token. -/
theorem at_ofTokens (tokens : List Token) :
    At tokens maxDepth (Parser.ofTokens tokens) (Reader.ofTokens tokens) where
  tokens_eq := rfl
  finish_eq := rfl
  rest_eq := rfl
  depth_eq := Nat.zero_add maxDepth
  errors_eq := rfl
  forward := List.pairwise_singleton _ _
  within := List.forall_mem_singleton.2 ⟨Nat.zero_le _, Nat.zero_le _⟩

/-- **Any calls, one after the other, on any tokens, are safe.**  A machine that need not come to an
end does so after every one of them, with what the parser returns, and with the tokens and errors
that are left to the parser; so it has never left a rule that it has not entered, nor asked for
tokens that are not there to see which brackets are open.  It is out of all nested rules then.  On
the way its position has never gone back or past the last token, and its depth has never exceeded
`maxDepth`.  And the expressions that come back have no more than `(maxDepth + 1) * (maxDepth + 1)`
nodes from their root down to any leaf. -/
theorem calls_are_safe (tokens : List Token) (calls : List Parser.Call) : ∃ answers p r,
    (calls.mapM Parser.answer).run (Parser.ofTokens tokens) = (answers, p) ∧
      (calls.mapM answer).run (Reader.ofTokens tokens) = some (answers, r) ∧
      tokens.drop r.stand.position = p.rest ∧ r.errors = p.errors ∧ r.stand.depth = 0 ∧
      r.trail.Pairwise (fun later earlier => earlier.position ≤ later.position) ∧
      (∀ x ∈ r.trail, x.position ≤ tokens.length ∧ x.depth ≤ maxDepth) ∧
      ∀ a ∈ answers, ∀ e, a.expr? = some e → e.NoDeeper ((maxDepth + 1) * (maxDepth + 1)) := by
  obtain ⟨r, hrun, hr⟩ := answers_leads calls _ _ (at_ofTokens tokens)
  have hdepth : r.stand.depth = 0 := Nat.add_eq_right.1 hr.depth_eq
  exact ⟨_, _, r, rfl, hrun, hr.rest_eq, hr.errors_eq, hdepth, hr.forward, hr.within,
    Parser.noDeeper_of_mem_answers calls _⟩

end Machine

end FilterQuery
