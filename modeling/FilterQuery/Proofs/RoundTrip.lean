import FilterQuery.Check
import FilterQuery.Proofs.Grammar.Language
import FilterQuery.Proofs.Grammar.Render
import FilterQuery.Proofs.Grammar.Words

/-!
# Proofs/RoundTrip — the canonical text of a query is a query with the same tree

The canonical text spells tokens that derive the tree (`Condition.exists_spells`), so it has tokens
with the same words, and those derive the tree too (`Condition.of_words`).  Hence `explain` returns
a canonical text for one, and two queries have one canonical text exactly if they have one tree.
-/

namespace FilterQuery.Query

open Grammar

/-- The query of a text is the one with that text as its source. -/
theorem ofText_source_eq (q : Query) : ofText q.source = .ok q := by
  obtain ⟨source, tokens, h⟩ := q
  rw [ofText]
  split
  · next tokens' h' =>
    obtain rfl : tokens' = tokens := Except.ok.inj (h'.symm.trans h)
    rfl
  · next e h' =>
    rw [h] at h'
    cases h'

theorem eq_of_source_eq {q q' : Query} (h : q.source = q'.source) : q = q' := by
  have hq := q.ofText_source_eq
  rw [h, q'.ofText_source_eq] at hq
  exact (Except.ok.inj hq).symm

/-- A text that spells tokens has tokens with the same words. -/
theorem exists_tokens_of_spells {text : String} {ts : List Token} (h : SpellsValue text ts) :
    ∃ us eof, Token.ofText text = .ok (us ++ [eof]) ∧ eof.kind = .endOfInput ∧ SameWords us ts := by
  have htext : Lexes text.toList (ts.map Token.word) [] := by
    have := h [] (by simp)
    rwa [List.append_nil] at this
  exact Cursor.tokens_of_lexes htext rfl 0

/-- **A text that spells a condition is a query with its tree.** -/
theorem exists_source_eq_of_spells {text : String} {ts : List Token} {e : Expr}
    (hspells : SpellsValue text ts) (hcondition : Condition maxDepth 0 ts e) :
    ∃ q : Query, q.source = text ∧ q.parse = .ok e := by
  obtain ⟨us, eof, htokens, -, hwords⟩ := exists_tokens_of_spells hspells
  have hbody : (us ++ [eof]).dropLast = us := List.dropLast_concat
  refine ⟨⟨text, us ++ [eof], htokens⟩, rfl, ?_⟩
  rw [parse_eq_ok_iff, body, hbody]
  exact hcondition.of_words hwords

/-- **The canonical text of a query is a query, and its tree is the same.** -/
theorem exists_source_eq_render (q : Query) {e : Expr} (h : q.parse = .ok e) :
    ∃ q' : Query, q'.source = e.render ∧ q'.parse = .ok e := by
  obtain ⟨-, -, -, -, hlexes⟩ := q.exists_tokens_eq
  have hlexemes : ∀ t ∈ q.body, t.word.IsLexeme := fun t ht =>
    hlexes.isLexeme t.word (List.mem_map_of_mem ht)
  obtain ⟨ts, hcondition, hspells⟩ := (q.parse_eq_ok_iff.1 h).exists_spells hlexemes
  exact exists_source_eq_of_spells hspells hcondition

/-- A query that parses is explained by the text of its tree. -/
theorem explain_source (q : Query) {e : Expr} (h : q.parse = .ok e) :
    Check.explain q.source = .ok e.render := by
  rw [Check.explain, ofText_source_eq]
  change (q.parse.mapError Check.Error.query >>= fun e => pure e.render) = _
  rw [h]
  rfl

/-- **Rendering round-trips.**  The canonical text of a query splits into tokens and parses to the
very tree it was made from.  So `explain` leaves canonical texts alone, and two queries that parse
are explained in the same way exactly if they have the same tree. -/
theorem render_roundtrips (q : Query) (e : Expr) (h : q.parse = .ok e) :
    (∃ q', ofText e.render = .ok q' ∧ q'.parse = .ok e) ∧
      Check.explain q.source = .ok e.render ∧ Check.explain e.render = .ok e.render ∧
      ∀ (q₂ : Query) (e₂ : Expr), q₂.parse = .ok e₂ →
        (Check.explain q₂.source = Check.explain q.source ↔ e₂ = e) := by
  obtain ⟨q', hsource, hparse⟩ := q.exists_source_eq_render h
  refine ⟨⟨q', hsource ▸ q'.ofText_source_eq, hparse⟩, q.explain_source h,
    hsource ▸ q'.explain_source hparse, ?_⟩
  intro q₂ e₂ h₂
  rw [q.explain_source h, q₂.explain_source h₂, Except.ok.injEq]
  constructor
  · intro hrender
    obtain ⟨q₂', hsource₂, hparse₂⟩ := q₂.exists_source_eq_render h₂
    obtain rfl : q₂' = q' := eq_of_source_eq (by rw [hsource, hsource₂, hrender])
    exact Except.ok.inj (hparse₂.symm.trans hparse)
  · rintro rfl
    rfl

/-- A query with a period before arguments and a key given twice. -/
def spreadQuery : Query where
  source := "a.(1) == \x7b\"k\": 1, \"k\": [true]\x7d"
  tokens := [⟨.segment, "a", 0⟩, ⟨.punct .period, ".", 1⟩, ⟨.punct .openParen, "(", 2⟩,
    ⟨.literal .number, "1", 3⟩, ⟨.punct .closeParen, ")", 4⟩, ⟨.comparator .equal, "==", 6⟩,
    ⟨.punct .openBrace, "\x7b", 9⟩, ⟨.literal .string, "\"k\"", 10⟩, ⟨.punct .colon, ":", 13⟩,
    ⟨.literal .number, "1", 15⟩, ⟨.punct .comma, ",", 16⟩, ⟨.literal .string, "\"k\"", 18⟩,
    ⟨.punct .colon, ":", 21⟩, ⟨.punct .openBracket, "[", 23⟩, ⟨.literal .true, "true", 24⟩,
    ⟨.punct .closeBracket, "]", 28⟩, ⟨.punct .closeBrace, "\x7d", 29⟩, ⟨.endOfInput, "", 30⟩]
  ofText_source := by with_unfolding_all rfl

/-- The tree of `spreadQuery`. -/
def spreadExpr : Expr :=
  .comparison (.call (.root "a") [.literal (.int 1) "1"]) .equal
    (.object [("k", .array [.literal (.bool true) "true"])])

theorem parse_spreadQuery : spreadQuery.parse = .ok spreadExpr := by
  with_unfolding_all rfl

theorem spreadQuery_roundtrips : spreadQuery.parse = .ok spreadExpr ∧
    spreadExpr.render = "a(1) = \x7b\"k\": [true]\x7d" ∧
    ∃ q', ofText spreadExpr.render = .ok q' ∧ q'.parse = .ok spreadExpr :=
  ⟨parse_spreadQuery, by decide +kernel,
    (render_roundtrips spreadQuery spreadExpr parse_spreadQuery).1⟩

end FilterQuery.Query
