import FilterQuery.Proofs.Grammar.Mistakes

/-!
# Proofs/Grammar/Blame — errors are what is missing, in the order of the tokens

    a =  AND  ( b = "\q"  OR  c = 1 d )  OR  = 2
         ▲          ▲              ▲         ▲

Whatever the tokens, a condition comes without an expression exactly if errors have been recorded
for it (`Reading.Reports.exact`).  Each of them stands at a token, and none at a token before the
one where an earlier error stands (`Blames`): an error may point back at a literal that has been
taken, but never behind what has been blamed by then.  Both go together through groups, chains and
recovery, by induction on the budget (`condition_reports`).  The tokens of a text stand one behind
the other, so there the offsets of the errors never decrease.  **All of this, for the whole parser,
is `failures_are_the_recorded_errors`.**
-/

namespace FilterQuery

namespace Grammar

variable {finish : Nat} {s u r : List Token} {errors errors' : List SyntaxError} {e : SyntaxError}

/-! ## Errors along the tokens -/

/-- On the way from `s` to `r` these errors are met: each is at the first token of some rest of `s`
which has `r` at its end, and is a part of the rest where the error before it is. -/
inductive Blames (finish : Nat) : List Token → List SyntaxError → List Token → Prop
  | done {s r : List Token} : r <:+ s → Blames finish s [] r
  | error {s u r : List Token} {e : SyntaxError} {errors : List SyntaxError} : u <:+ s →
      e.offset = (front finish u).offset → Blames finish u errors r →
      Blames finish s (e :: errors) r

namespace Blames

theorem of_suffix (h : Blames finish u errors r) (hu : u <:+ s) : Blames finish s errors r := by
  cases h with
  | done hr => exact .done (hr.trans hu)
  | error hv he hrest => exact .error (hv.trans hu) he hrest

theorem trans (h : Blames finish s errors u) (h' : Blames finish u errors' r) :
    Blames finish s (errors ++ errors') r := by
  induction h with
  | done hu => exact h'.of_suffix hu
  | error hv he _ ih => exact .error hv he (ih h')

theorem advance (h : Blames finish s errors u) (hr : r <:+ u) : Blames finish s errors r := by
  have hall := h.trans (.done hr)
  rwa [List.append_nil] at hall

theorem concat (h : Blames finish s errors r) (he : e.offset = (front finish r).offset) :
    Blames finish s (errors ++ [e]) r :=
  h.trans (.error List.suffix_rfl he (.done List.suffix_rfl))

end Blames

theorem exists_suffix_of_mem_span {ts : List Token} {n : Nat} (h : n ∈ span finish ts r) :
    ∃ u, u <:+ ts ++ r ∧ r <:+ u ∧ n = (front finish u).offset := by
  obtain ⟨t, ht, rfl⟩ := List.mem_map.1 h
  rcases List.mem_append.1 ht with ht | ht
  · obtain ⟨before, after, rfl⟩ := List.append_of_mem ht
    refine ⟨t :: after ++ r, ⟨before, ?_⟩, List.suffix_append (t :: after) r, rfl⟩
    rw [List.append_assoc]
  · exact ⟨r, List.suffix_append ts r, List.suffix_rfl, by rw [List.mem_singleton.1 ht]⟩

/-- A rule for values that fails meets one error, however far it gets. -/
theorem Tidy.blames {α : Type} {x : Rule α} {opened opened' : List Punct}
    (h : Tidy finish x opened opened' s) (he : (x.apply s).1 = .error e) :
    Blames finish s [e] (x.apply s).2 := by
  cases h with
  | ok hs htakes hrun =>
    rw [hs, htakes _ rfl] at he
    cases he
  | @error ts r e' _ hs htakes hrun hspan =>
    subst hs
    rw [htakes _ rfl] at he ⊢
    obtain rfl := Except.error.inj he
    obtain ⟨u, hu, hr, hoffset⟩ := exists_suffix_of_mem_span hspan
    exact .error hu hoffset (.done hr)

/-! ## Readings of any tokens -/

/-- What is recorded between `s` and `r` for a reading: errors in order, and some exactly if the
expression is missing. -/
structure Reading.Reports (finish : Nat) (s : List Token) (reading : Reading) (r : List Token) :
    Prop where
  exact : reading.expr = none ↔ reading.errors ≠ []
  blames : Blames finish s reading.errors r

/-- The same of an atom before recovery, whose own error comes after those within it. -/
inductive Attempt.Reports (finish : Nat) (s : List Token) : Attempt → List Token → Prop
  | ok {r : List Token} {expr : Option Expr} {errors : List SyntaxError} :
      Reading.Reports finish s ⟨expr, errors⟩ r → Reports finish s ⟨.ok expr, errors⟩ r
  | error {r : List Token} {e : SyntaxError} {errors : List SyntaxError} :
      Blames finish s (errors ++ [e]) r → Reports finish s ⟨.error e, errors⟩ r

/-- **An atom that is given up leaves its error and nothing else.** -/
theorem recovering_reports {x : Consumer Token Attempt}
    (h : Attempt.Reports finish s (x.run s).1 (x.run s).2) :
    Reading.Reports finish s ((recovering x).run s).1 ((recovering x).run s).2 := by
  rcases hx : x.run s with ⟨⟨result, errors⟩, r⟩
  rw [hx] at h
  cases h with
  | ok hreports => rwa [recovering_run_of_ok hx]
  | error hblames =>
    rw [recovering_run_of_error hx]
    exact ⟨by simp, hblames.advance (Brackets.skip_suffix _ r)⟩

theorem comparison_reports (budget : Nat) (h : (front finish s).kind ≠ .punct .openParen) :
    Attempt.Reports finish s ((atom finish budget (inner finish budget)).run s).1
      ((atom finish budget (inner finish budget)).run s).2 := by
  rw [atom_run_of_not_openParen finish budget h]
  have htidy : Tidy finish (comparison finish (operand finish budget)) [] [] s :=
    comparison_tidy budget [] s
  cases hresult : ((comparison finish (operand finish budget)).apply s).1 with
  | ok expr => exact .ok ⟨by simp, .done (Rule.suffix _ s)⟩
  | error e => exact .error (htidy.blames hresult)

theorem group_reports {x : Consumer Token Reading}
    (h : Reading.Reports finish s.tail (x.run s.tail).1 (x.run s.tail).2) :
    Attempt.Reports finish s ((group finish x).run s).1 ((group finish x).run s).2 := by
  have hblames := h.blames.of_suffix (List.tail_suffix s)
  by_cases hclose : (front finish (x.run s.tail).2).kind = .punct .closeParen
  · rw [group_run_of_closeParen finish x hclose]
    exact .ok ⟨Option.map_eq_none_iff.trans h.exact, hblames.advance (List.tail_suffix _)⟩
  · rw [group_run_of_not_closeParen finish x hclose]
    exact .error (hblames.concat rfl)

/-- **The errors of an atom are in order,** if those of a condition in it are. -/
theorem atom_reports {budget : Nat} (hinner : ∀ b, budget = b + 1 → ∀ s,
      Reading.Reports finish s ((condition finish b).run s).1 ((condition finish b).run s).2)
    (s : List Token) :
    Attempt.Reports finish s ((atom finish budget (inner finish budget)).run s).1
      ((atom finish budget (inner finish budget)).run s).2 := by
  by_cases hparen : (front finish s).kind = .punct .openParen
  · cases budget with
    | zero =>
      rw [atom_run_of_openParen_zero finish hparen]
      exact .error (.concat (.done List.suffix_rfl) rfl)
    | succ budget =>
      rw [atom_run_of_openParen finish budget hparen]
      exact group_reports (hinner budget rfl s.tail)
  · exact comparison_reports budget hparen

/-! ## Chains -/

/-- A chain that is given up for a change of its connector has an error at that connector. -/
theorem Progress.charge_reports {p : Progress} {t : Token} {j : Joint} {s r : List Token}
    (h : Reading.Reports finish s p.reading (t :: r)) (hj : joint? t = some j) :
    Reading.Reports finish s (p.charge j).reading (t :: r) := by
  rcases p.reading_charge j with hcharge | hcharge <;> rw [hcharge]
  · exact h
  · exact ⟨by simp, h.blames.concat (joint?_eq_some_iff.1 hj).2⟩

/-- A chain is missing exactly if what has been joined so far is, or the operand. -/
theorem Progress.append_reports {p : Progress} {operand : Reading} (op : Connector)
    (h : Reading.Reports finish s p.reading u) (hoperand : Reading.Reports finish u operand r) :
    Reading.Reports finish s (p.append op operand).reading r := by
  refine ⟨?_, h.blames.trans hoperand.blames⟩
  have hnone : (p.append op operand).reading.expr = none ↔
      p.reading.expr = none ∨ operand.expr = none := by
    rw [Progress.append]
    cases p.reading.expr <;> cases operand.expr <;> simp
  have herrors : (p.append op operand).reading.errors = p.reading.errors ++ operand.errors := rfl
  rw [hnone, h.exact, hoperand.exact, herrors, ← not_and_or, ← List.append_eq_nil_iff]

/-- The mistakes of a condition are those of its operands, in the order of their tokens. -/
theorem goOn_reports {item : Consumer Token Reading}
    (hitem : ∀ s, Reading.Reports finish s (item.run s).1 (item.run s).2) {p : Progress}
    (h : Reading.Reports finish s p.reading r) :
    Reading.Reports finish s (goOn item p r).1 (goOn item p r).2 := by
  induction r using Consumer.separatedTail.induct joint? item generalizing p with
  | case1 =>
    rw [goOn_of_stop item p (by simp)]
    exact h
  | case2 t r ht =>
    rw [goOn_of_stop item p (by simpa using ht)]
    exact h
  | case3 t r j ht ih =>
    rw [goOn_of_joint item p ht]
    have hcharge := Progress.charge_reports h ht
    have hnext : Reading.Reports finish s (p.charge j).reading r :=
      ⟨hcharge.exact, hcharge.blames.advance (List.suffix_cons t r)⟩
    exact ih (Progress.append_reports j.op hnext (hitem r))

/-- **Any tokens are read with their errors in order, and without an expression exactly if there are
some.** -/
theorem condition_reports (budget : Nat) (s : List Token) :
    Reading.Reports finish s ((condition finish budget).run s).1
      ((condition finish budget).run s).2 := by
  induction budget using Nat.strongRecOn generalizing s with
  | ind budget ih =>
    have hitem : ∀ s, Reading.Reports finish s ((operandOf finish budget).run s).1
        ((operandOf finish budget).run s).2 := fun s =>
      recovering_reports (atom_reports (fun b hb => ih b (by omega)) s)
    rw [condition_eq, conditionWith_run]
    exact goOn_reports hitem (hitem s)

/-! ## Tokens one behind the other -/

theorem front_mem (finish : Nat) (s : List Token) : front finish s ∈ s ++ [endToken finish] := by
  cases s <;> simp [front]

/-- A rest of the tokens does not start before them. -/
theorem offset_front_le (h : (s ++ [endToken finish]).Pairwise (·.offset ≤ ·.offset))
    (hu : u <:+ s) : (front finish s).offset ≤ (front finish u).offset := by
  obtain ⟨before, rfl⟩ := hu
  cases before with
  | nil => exact Nat.le_refl _
  | cons t before =>
    rw [List.append_assoc, List.cons_append] at h
    exact (List.pairwise_cons.1 h).1 _ (List.mem_append_right _ (front_mem finish u))

/-- **Errors that are met on the way are at tokens, and where tokens stand one behind the other so
do the errors.** -/
theorem Blames.ordered (h : Blames finish s errors r)
    (hs : (s ++ [endToken finish]).Pairwise (·.offset ≤ ·.offset)) :
    errors.Pairwise (·.offset ≤ ·.offset) ∧ ∀ e ∈ errors,
      (front finish s).offset ≤ e.offset ∧ ∃ t ∈ s ++ [endToken finish], t.offset = e.offset := by
  induction h with
  | done => exact ⟨.nil, fun _ he => nomatch he⟩
  | @error s u r e errors hu he _ ih =>
    have hkept : u ++ [endToken finish] <:+ s ++ [endToken finish] := by
      obtain ⟨before, rfl⟩ := hu
      exact ⟨before, (List.append_assoc ..).symm⟩
    obtain ⟨hsorted, hat⟩ := ih (hs.sublist hkept.sublist)
    have hfirst := offset_front_le hs hu
    refine ⟨.cons (fun e' he' => he ▸ (hat e' he').1) hsorted, List.forall_mem_cons.2 ⟨?_, ?_⟩⟩
    · exact ⟨he ▸ hfirst, _, hkept.subset (front_mem finish u), he.symm⟩
    · intro e' he'
      obtain ⟨hle, t, ht, hoffset⟩ := hat e' he'
      exact ⟨hfirst.trans hle, t, hkept.subset ht, hoffset⟩

end Grammar

open Grammar

/-! ## The whole parser -/

namespace Query

/-- **The tokens of a text stand one behind the other.** -/
theorem tokens_pairwise_offset_le (q : Query) : q.tokens.Pairwise (·.offset ≤ ·.offset) := by
  obtain ⟨us, htokens, -, hlaid⟩ := Cursor.laid_of_tokens _ q.ofText_source
  rw [htokens]
  refine List.pairwise_append.2 ⟨hlaid.pairwise_stop_le.imp fun hle => ?_,
    List.pairwise_singleton _ _, fun t ht u hu => ?_⟩
  · exact (Nat.le_add_right ..).trans hle
  · obtain ⟨pre, post, hsource, hoffset⟩ := hlaid.stands t ht
    rw [List.mem_singleton.1 hu, hsource, ← hoffset, List.append_assoc, Text.byteLength_append]
    exact Nat.add_le_add_left (Nat.le_add_right ..) _

theorem finish_eq (q : Query) : q.finish = q.source.utf8ByteSize := by
  rw [finish, tokens_eq_body, finish_ofTokens]

theorem endToken_mem_tokens (q : Query) : endToken q.finish ∈ q.tokens := by
  rw [finish_eq, tokens_eq_body]
  exact List.mem_append_right _ List.mem_cons_self

/-- One more end of input changes nothing. -/
theorem tokens_concat_pairwise_offset_le (q : Query) :
    (q.tokens ++ [endToken q.finish]).Pairwise (·.offset ≤ ·.offset) := by
  have hsorted := q.tokens_pairwise_offset_le
  refine List.pairwise_append.2 ⟨hsorted, List.pairwise_singleton _ _, fun t ht u hu => ?_⟩
  rw [List.mem_singleton.1 hu, finish_eq]
  rw [tokens_eq_body] at hsorted ht
  rcases List.mem_append.1 ht with ht | ht
  · exact (List.pairwise_append.1 hsorted).2.2 t ht _ List.mem_cons_self
  · exact (List.mem_singleton.1 ht) ▸ Nat.le_refl _

end Query

namespace Parser

/-- The errors of a parser that has taken a whole text, the one at its end included. -/
theorem blames_of_parse_eq_error {p : Parser} {errors : List SyntaxError} (hp : p.errors = [])
    (h : p.parse.1 = .error errors) : errors ≠ [] ∧ ∃ r, Blames p.finish p.rest errors r := by
  rcases hrun : (condition p.finish maxDepth).run p.rest with ⟨reading, r⟩
  have hreports : Reading.Reports p.finish p.rest reading r := by
    have hall : Reading.Reports p.finish p.rest _ _ := condition_reports maxDepth p.rest
    rwa [hrun] at hall
  simp only [parse, parseExpression, hrun, hp, List.nil_append] at h
  split at h
  · cases h
  · next hnone =>
    obtain rfl := Except.error.inj h
    split
    · next hend =>
      refine ⟨fun hnil => ?_, r, hreports.blames⟩
      -- without errors there is an expression, and then there would be no failure
      obtain ⟨expr, hexpr⟩ := Option.ne_none_iff_exists'.1 fun hexpr => hreports.exact.1 hexpr hnil
      exact hnone expr hexpr ((if_pos hend).trans hnil)
    · exact ⟨by simp, r, hreports.blames.concat rfl⟩

/-- **A failure is a matter of recorded errors, and they come in the order of the text.**  Taking a
condition from any tokens, wherever in them, after whatever errors and at whatever nesting, gives no
expression exactly if it records an error or more.  The errors of a text that splits into tokens are
not none; their offsets never decrease, and each is that of a token, which may be the end of input.
And no errors stay behind with a parser that has taken a whole text. -/
theorem failures_are_the_recorded_errors :
    (∀ finish budget tokens, ((condition finish budget).run tokens).1.expr = none ↔
        ((condition finish budget).run tokens).1.errors ≠ []) ∧
      (∀ p : Parser, ∃ new, p.parseExpression.2.errors = p.errors ++ new ∧
        (p.parseExpression.1 = none ↔ new ≠ [])) ∧
      (∀ (q : Query) errors, Expr.ofTokens q.tokens = .error errors → errors ≠ [] ∧
        errors.Pairwise (·.offset ≤ ·.offset) ∧ ∀ e ∈ errors, ∃ t ∈ q.tokens, t.offset = e.offset) ∧
      ∀ p : Parser, p.parse.2.errors = [] := by
  refine ⟨fun _ budget tokens => (condition_reports budget tokens).exact, fun p => ?_,
    fun q errors h => ?_, fun p => rfl⟩
  · exact ⟨_, rfl, (condition_reports maxDepth p.rest).exact⟩
  · obtain ⟨hne, r, hblames⟩ := blames_of_parse_eq_error rfl h
    obtain ⟨hsorted, hat⟩ := hblames.ordered q.tokens_concat_pairwise_offset_le
    refine ⟨hne, hsorted, fun e he => ?_⟩
    obtain ⟨-, t, ht, hoffset⟩ := hat e he
    rcases List.mem_append.1 ht with ht | ht
    · exact ⟨t, ht, hoffset⟩
    · rw [List.mem_singleton.1 ht] at hoffset
      exact ⟨_, q.endToken_mem_tokens, hoffset⟩

/-- A chain with a mistake in every operand, one of them in a literal that has been taken. -/
def blamedQuery : Query where
  source := "a = AND (b = \"\\q\" OR c = 1 d) OR = 2"
  tokens := [⟨.segment, "a", 0⟩, ⟨.comparator .equal, "=", 2⟩, ⟨.connector .and, "AND", 4⟩,
    ⟨.punct .openParen, "(", 8⟩, ⟨.segment, "b", 9⟩, ⟨.comparator .equal, "=", 11⟩,
    ⟨.literal .string, "\"\\q\"", 13⟩, ⟨.connector .or, "OR", 18⟩, ⟨.segment, "c", 21⟩,
    ⟨.comparator .equal, "=", 23⟩, ⟨.literal .number, "1", 25⟩, ⟨.segment, "d", 27⟩,
    ⟨.punct .closeParen, ")", 28⟩, ⟨.connector .or, "OR", 30⟩, ⟨.comparator .equal, "=", 33⟩,
    ⟨.literal .number, "2", 35⟩, ⟨.endOfInput, "", 36⟩]
  ofText_source := by with_unfolding_all rfl

theorem blamedQuery_errors_in_order : ∃ errors, Expr.ofTokens blamedQuery.tokens = .error errors ∧
    errors.map SyntaxError.offset = [4, 13, 27, 33] ∧ errors ≠ [] ∧
    errors.Pairwise (·.offset ≤ ·.offset) ∧
    ∀ e ∈ errors, ∃ t ∈ blamedQuery.tokens, t.offset = e.offset := by
  have herror : Expr.ofTokens blamedQuery.tokens = .error
      [⟨4, .expected .value (some "AND")⟩, ⟨13, .invalidLiteral "\"\\q\"" ⟨.invalidEscape, 1, 3⟩⟩,
        ⟨27, .expected .connectorOrCloseParen (some "d")⟩, ⟨33, .expected .value (some "=")⟩] := by
    with_unfolding_all rfl
  exact ⟨_, herror, rfl, failures_are_the_recorded_errors.2.2.1 blamedQuery _ herror⟩

end Parser

end FilterQuery
