import FilterQuery.Grammar.Parser
import FilterQuery.Proofs.Grammar.Condition
import FilterQuery.Proofs.Token.Layout
import FilterQuery.Query

/-!
# Proofs/Grammar/Language — the texts that are queries, and their trees

A query is accepted exactly if its tokens up to the end of input are a `Condition` within the
nesting budget, and its tree is the tree of that derivation (`parse_eq_ok_iff`).  Tokens have one
tree at most, whatever the budget: more room makes no new trees (`Condition.mono`), and reading with
room enough finds the one there is.
-/

namespace FilterQuery

namespace Grammar

variable {limit limit' : Nat}

/-! ## The last token -/

theorem Enclosed.exists_concat {opener closer : Punct} {inner ts : List Token}
    (h : Enclosed opener closer inner ts) : ∃ us t, ts = us ++ [t] ∧ t.kind ≠ .endOfInput := by
  obtain ⟨o, c, -, hc, rfl⟩ := h
  exact ⟨o :: inner, c, rfl, by simp [hc]⟩

/-- What ends well does so after other tokens too. -/
theorem exists_concat_append (pre : List Token) {ts : List Token}
    (h : ∃ us t, ts = us ++ [t] ∧ t.kind ≠ .endOfInput) :
    ∃ us t, pre ++ ts = us ++ [t] ∧ t.kind ≠ .endOfInput := by
  obtain ⟨us, t, rfl, ht⟩ := h
  exact ⟨pre ++ us, t, (List.append_assoc pre us [t]).symm, ht⟩

theorem exists_concat_append_cons (pre : List Token) (t : Token) {ts : List Token}
    (h : ∃ us t, ts = us ++ [t] ∧ t.kind ≠ .endOfInput) :
    ∃ us t', pre ++ t :: ts = us ++ [t'] ∧ t'.kind ≠ .endOfInput :=
  exists_concat_append pre (exists_concat_append [t] h)

theorem Path.exists_concat {depth steps : Nat} {ts : List Token} {e : Expr}
    (h : Path limit depth ts steps e) : ∃ us t, ts = us ++ [t] ∧ t.kind ≠ .endOfInput := by
  cases h with
  | @name _ t ht => exact ⟨[], t, rfl, by simp [ht]⟩
  | @step _ _ ts _ period t _ _ ht =>
    exact exists_concat_append_cons ts period ⟨[], t, rfl, by simp [ht]⟩
  | @call _ _ ts _ _ _ _ _ _ _ _ henc => exact exists_concat_append ts henc.exists_concat
  | @periodCall _ _ ts _ _ _ period _ _ _ _ _ _ henc =>
    exact exists_concat_append_cons ts period henc.exists_concat

theorem Operand.exists_concat {depth : Nat} {ts : List Token} {e : Expr}
    (h : Operand limit depth ts e) : ∃ us t, ts = us ++ [t] ∧ t.kind ≠ .endOfInput := by
  cases h with
  | @literal _ t _ _ ht => exact ⟨[], t, rfl, by simp [ht]⟩
  | array _ _ _ henc => exact henc.exists_concat
  | object _ _ _ _ henc => exact henc.exists_concat
  | path _ hpath => exact hpath.exists_concat

theorem Atom.exists_concat {depth : Nat} {ts : List Token} {e : Expr} (h : Atom limit depth ts e) :
    ∃ us t, ts = us ++ [t] ∧ t.kind ≠ .endOfInput := by
  cases h with
  | @comparison _ ts _ t _ _ _ _ _ hright =>
    exact exists_concat_append_cons ts t hright.exists_concat
  | group _ _ henc => exact henc.exists_concat

/-- **The last token of a condition is not the end of input.** -/
theorem Condition.exists_concat {depth : Nat} {ts : List Token} {e : Expr}
    (h : Condition limit depth ts e) : ∃ us t, ts = us ++ [t] ∧ t.kind ≠ .endOfInput := by
  cases h with
  | atom hatom => exact hatom.exists_concat
  | chain hchain =>
    cases hchain with
    | @pair _ ts _ t _ _ _ _ _ hright | @same _ _ ts _ t _ _ _ _ _ hright
    | @change _ _ ts _ t _ _ _ _ _ _ _ hright =>
      exact exists_concat_append_cons ts t hright.exists_concat

/-! ## Room for nesting -/

mutual

/-- A higher limit takes every operand that a lower one takes. -/
theorem Operand.mono (h : limit ≤ limit') {depth : Nat} : ∀ {ts : List Token} {e : Expr},
    Operand limit depth ts e → Operand limit' depth ts e
  | _, _, .literal ht hread => .literal ht hread
  | _, _, .array hdepth hparts hsep henc =>
    .array (by omega) (fun p hp => (hparts p hp).mono h) hsep henc
  | _, _, .object hdepth hkeyed hvalues hsep henc hmerges =>
    .object (by omega) hkeyed (fun w hw => (hvalues w hw).mono h) hsep henc hmerges
  | _, _, .path hdepth hpath hsteps => .path (by omega) (hpath.mono h) (by omega)

theorem Path.mono (h : limit ≤ limit') {depth : Nat} : ∀ {steps : Nat} {ts : List Token} {e : Expr},
    Path limit depth ts steps e → Path limit' depth ts steps e
  | _, _, _, .name ht => .name ht
  | _, _, _, .step hparent hperiod ht => .step (hparent.mono h) hperiod ht
  | _, _, _, .call hcallee hcall hparts hsep henc =>
    .call (hcallee.mono h) hcall (fun p hp => (hparts p hp).mono h) hsep henc
  | _, _, _, .periodCall hcallee hcall hperiod hparts hsep henc =>
    .periodCall (hcallee.mono h) hcall hperiod (fun p hp => (hparts p hp).mono h) hsep henc

end

mutual

theorem Atom.mono (h : limit ≤ limit') {depth : Nat} {ts : List Token} {e : Expr} :
    Atom limit depth ts e → Atom limit' depth ts e
  | .comparison hleft ht hright => .comparison (hleft.mono h) ht (hright.mono h)
  | .group hdepth hcondition henc => .group (by omega) (hcondition.mono h) henc

theorem Chain.mono (h : limit ≤ limit') {depth : Nat} {ts : List Token} {changes : Nat}
    {op : Connector} {operands : List Expr} :
    Chain limit depth ts changes op operands → Chain limit' depth ts changes op operands
  | .pair hleft ht hright => .pair (hleft.mono h) ht (hright.mono h)
  | .same hchain ht hright => .same (hchain.mono h) ht (hright.mono h)
  | .change hchain hop ht hright => .change (hchain.mono h) hop ht (hright.mono h)

/-- **A larger limit loses no derivation.** -/
theorem Condition.mono (h : limit ≤ limit') {depth : Nat} {ts : List Token} {e : Expr} :
    Condition limit depth ts e → Condition limit' depth ts e
  | .atom hatom => .atom (hatom.mono h)
  | .chain hchain hchanges => .chain (hchain.mono h) (by omega)

end

/-! ## One tree -/

/-- **Tokens have one tree at most,** whatever the limits under which they are derived. -/
theorem Condition.unique {ts : List Token} {e e' : Expr} (h : Condition limit 0 ts e)
    (h' : Condition limit' 0 ts e') : e = e' := by
  have hend : ConditionFollow 0 [] := ⟨⟨by decide, by decide⟩, by simp⟩
  have hread := (h.mono (Nat.le_max_left limit limit')).apply 0 (Nat.zero_add _) [] hend
  have hread' := (h'.mono (Nat.le_max_right limit limit')).apply 0 (Nat.zero_add _) [] hend
  exact Option.some.inj (congrArg (fun r => r.1.expr) (hread.symm.trans hread'))

end Grammar

open Grammar

/-! ## Whole texts -/

/-- A parser has an expression to return if it has met no errors and stands at the end. -/
theorem Parser.parse_eq_ok_iff {p : Parser} {e : Expr} :
    p.parse.1 = .ok e ↔ p.errors = [] ∧ ∃ rest,
      (condition p.finish maxDepth).run p.rest = (⟨some e, []⟩, rest) ∧
      (front p.finish rest).kind = .endOfInput := by
  rcases hrun : (condition p.finish maxDepth).run p.rest with ⟨⟨expr, errors⟩, rest⟩
  simp only [parse, parseExpression, hrun, Prod.mk.injEq, Reading.mk.injEq]
  constructor
  · intro h
    split at h
    · next e' herrors =>
      split at herrors
      · next hend =>
        obtain ⟨hp, rfl⟩ := List.append_eq_nil_iff.1 herrors
        exact ⟨hp, rest, ⟨⟨congrArg some (Except.ok.inj h), rfl⟩, rfl⟩, hend⟩
      · exact absurd herrors (by simp)
    · cases h
  · rintro ⟨hp, _, ⟨⟨rfl, rfl⟩, rfl⟩, hend⟩
    simp [hp, hend]

/-- **Tokens up to the end of input are accepted exactly if they are a condition.** -/
theorem Expr.ofTokens_eq_ok_iff {us : List Token} {eof : Token} (heof : eof.kind = .endOfInput)
    (hus : ∀ t ∈ us, t.kind ≠ .endOfInput) {e : Expr} :
    Expr.ofTokens (us ++ [eof]) = .ok e ↔ Condition maxDepth 0 us e := by
  rw [Expr.ofTokens, Parser.parse_eq_ok_iff]
  constructor
  · rintro ⟨-, rest, hrun, hend⟩
    obtain ⟨ts, hts, hcondition⟩ :=
      condition_reads _ maxDepth 0 (Nat.zero_add _) _ e (congrArg (fun r => r.1.expr) hrun)
    rw [hrun] at hts
    change us ++ [eof] = ts ++ rest at hts
    -- what is left starts with the end of input, of which there is one
    obtain rfl : ts = us := by
      rcases List.append_eq_append_iff.1 hts with ⟨vs, rfl, hvs⟩ | ⟨vs, rfl, hvs⟩
      · cases vs with
        | nil => simp
        | cons v vs =>
          obtain ⟨rfl, hnil⟩ := List.cons_eq_cons.1 hvs
          obtain ⟨rfl, -⟩ := List.append_eq_nil_iff.1 hnil.symm
          obtain ⟨ws, t, hws, ht⟩ := hcondition.exists_concat
          obtain ⟨-, hlast⟩ := List.append_inj' hws rfl
          exact absurd heof (List.singleton_inj.1 hlast ▸ ht)
      · cases vs with
        | nil => simp
        | cons v vs =>
          rw [hvs] at hend
          exact absurd hend (hus v (by simp))
    exact hcondition
  · intro hcondition
    have hfollow : ConditionFollow (Parser.ofTokens (us ++ [eof])).finish [eof] :=
      conditionFollow_of_kind _ heof (by simp) (by simp) (by simp) []
    exact ⟨rfl, [eof], hcondition.apply _ (Nat.zero_add _) _ hfollow, heof⟩

theorem finish_ofTokens (us : List Token) (n : Nat) :
    (Parser.ofTokens (us ++ [endToken n])).finish = n := by
  rw [Parser.ofTokens, List.getLast?_append]
  rfl

namespace Query

/-- The tokens of a query before the end of input. -/
def body (q : Query) : List Token :=
  q.tokens.dropLast

/-- The tokens of a query, with the end of input at the end of its text. -/
theorem tokens_eq_body (q : Query) :
    q.tokens = q.body ++ [endToken q.source.utf8ByteSize] := by
  obtain ⟨us, htokens, -, -⟩ := Cursor.laid_of_tokens _ q.ofText_source
  rw [Cursor.start, Text.byteLength_toList, Nat.zero_add] at htokens
  rw [body, htokens, List.dropLast_concat]
  rfl

/-- The tokens of a query are the lexemes of its source and one end of input after them. -/
theorem exists_tokens_eq (q : Query) : ∃ eof, q.tokens = q.body ++ [eof] ∧ eof.kind = .endOfInput ∧
    (∀ t ∈ q.body, t.kind ≠ .endOfInput) ∧ Lexes q.source.toList (q.body.map Token.word) [] := by
  obtain ⟨us, eof, htokens, heof, hus, hlexes⟩ := Token.ofText_eq_ok q.ofText_source
  have hbody : q.body = us := by rw [body, htokens, List.dropLast_concat]
  rw [hbody]
  exact ⟨eof, htokens, heof, hus, hlexes⟩

/-- The tokens of a query are accepted exactly if its body is a condition. -/
theorem ofTokens_tokens_eq_ok_iff (q : Query) {e : Expr} :
    Expr.ofTokens q.tokens = .ok e ↔ Condition maxDepth 0 q.body e := by
  obtain ⟨eof, htokens, heof, hus, -⟩ := q.exists_tokens_eq
  rw [htokens]
  exact Expr.ofTokens_eq_ok_iff heof hus

/-- The tree of a query is the tree of its body as a condition. -/
theorem parse_eq_ok_iff (q : Query) {e : Expr} :
    q.parse = .ok e ↔ Condition maxDepth 0 q.body e := by
  rw [← ofTokens_tokens_eq_ok_iff, parse, Rule.mapError_eq_ok_iff]

/-- **The parser accepts the language of the grammar and nothing else.**  For the tokens of any text
at all, it returns `e` exactly if the tokens before the end of input derive `e` as a condition with
nesting up to `maxDepth`; and then they derive no other tree, with that limit or any other. -/
theorem ofTokens_eq_ok_iff_condition (q : Query) (e : Expr) :
    (Expr.ofTokens q.tokens = .ok e ↔ Condition maxDepth 0 q.body e) ∧
      (Expr.ofTokens q.tokens = .ok e → ∀ limit e', Condition limit 0 q.body e' → e' = e) := by
  refine ⟨q.ofTokens_tokens_eq_ok_iff, fun h limit e' h' => ?_⟩
  exact h'.unique (q.ofTokens_tokens_eq_ok_iff.1 h)

end Query

end FilterQuery
