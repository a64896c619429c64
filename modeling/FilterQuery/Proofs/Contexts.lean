import FilterQuery.Check
import FilterQuery.Proofs.Grammar.Literal
import FilterQuery.Proofs.Number.Float
import FilterQuery.Proofs.RoundTrip

/-!
# Proofs/Contexts — a JSON text means one thing, in a query and as a context

    text ──operand──▸ tree ──evaluate──▸ v          x = text
    text ───────────────read───────────▸ v          { "x": text }

A JSON text is a literal of queries that settles on the value read (`exists_operand_of_read`), and
that value is data, which is equal to itself (`isData_of_read`).  So a query that compares a member
with a text holds in the context in which the text is that member.  The other way round not every
string token is JSON, but every number token is (`exists_numberText_of_next`).
-/

namespace FilterQuery

open Grammar

/-! ## What is read is data -/

namespace Json

theorem Written.isData {depth : Nat} {cs : List Char} {v : Value} (h : Written depth cs v) :
    v.IsData := by
  induction h with
  | null => exact .null
  | true => exact .bool .true
  | false => exact .bool .false
  | number _ hv => exact Numeral.isData_of_value? hv
  | string => exact .str _
  | array _ _ _ _ ih => exact .array (List.forall_mem_map.2 ih)
  | object _ _ _ _ ih => exact Value.isData_ofPairs (List.forall_mem_map.2 ih)

theorem isData_of_read {text : String} {v : Value} (h : read text = .ok v) : v.IsData := by
  obtain ⟨p, -, -, -, hwritten⟩ := read_eq_ok_iff.1 h
  exact hwritten.isData

/-- **A text is read as a member of an object too,** where there is room for one level more. -/
theorem read_member {text : String} {v : Value} {depth : Nat} (h : read text = .ok v)
    (hnesting : nesting text ≤ depth) (hdepth : depth < maxDepth) :
    read ("\x7b\"x\": " ++ text ++ "\x7d") = .ok (.ofPairs [("x", v)]) := by
  obtain ⟨p, hspaced, rfl, hwhole, hwritten⟩ := written_of_read h hnesting
  let member : Member := ⟨[], ['x', '"'], [], ['x'], ⟨' ' :: p.before, p.text, p.after, p.value⟩⟩
  have hkeyed : member.Keyed := by
    refine ⟨spaces_nil, ?_, spaces_nil, ?_, hspaced.after⟩
    · exact .character (by decide) (by decide) (by decide) .close
    · exact List.forall_mem_cons.2 ⟨rfl, hspaced.before⟩
  have hobject : Written (depth + 1) _ (.ofPairs [member.entry]) :=
    .object spaces_nil (List.forall_mem_singleton.2 hkeyed) (List.forall_mem_singleton.2 hwritten)
      (.single member.whole)
  have hread := hobject.read_eq hdepth
  have htext : String.ofList ('\x7b' :: ([] ++ (member.whole ++ ['\x7d']))) =
      "\x7b\"x\": " ++ text ++ "\x7d" := by
    apply String.toList_injective
    simp [member, Member.whole, Piece.whole, ← hwhole]
  rw [htext] at hread
  exact hread

end Json

/-! ## Comparing a member with a literal -/

theorem Runner.access_of_isData {σ : Type} (w : World σ) (key : String) {v : Value} (h : v.IsData)
    (r : Runner σ) : r.access w key (.value v) = (.value v, r) := by
  cases h <;> rfl

/-- Of the values given for a key of an object the last one is its member. -/
theorem Runner.lookup_ofPairs {σ : Type} (w : World σ) (pairs : List (String × Value))
    (name : String) (r : Runner σ) :
    r.lookup w (.ofPairs pairs) name = (pairs.reverse.lookup name, r) := by
  rw [← (Fields.merges_ofList pairs).get?, Value.ofPairs, lookup, Table.get?,
    Table.entries_ofFields]

/-- A comparison of the only member of a context with what settles on its value holds. -/
theorem Query.runOnce_member_equal {q : Query} {name : String} {e : Expr} {v : Value}
    (hparse : q.parse = .ok (.comparison (.root name) .equal e)) (he : e.Settles v)
    (hv : v.IsData) {σ : Type} (w : World σ) (world : σ) :
    (q.runOnce w (some (.ofPairs [(name, v)])) world).result = .ok true := by
  let r := Runner.start (some (.ofPairs [(name, v)])) world
  have hmember : r.member w r.root name = (.value v, r) := by
    have hlookup : r.lookup w (.ofPairs [(name, v)]) name = (some v, r) := by
      rw [r.lookup_ofPairs, List.reverse_singleton, List.lookup_cons_self]
    have hcontext : r.root = .value (.ofPairs [(name, v)]) := rfl
    rw [hcontext, Runner.member, hlookup]
    rfl
  have hroot : (Expr.root name).evaluate w true r = (.value v, r) := by
    rw [Expr.evaluate, hmember]
    exact r.access_of_isData w name hv
  have hholds : (Expr.comparison (.root name) .equal e).holds w r = (true, r) := by
    have htest : Expr.testResolved .equal (.value v) (.value v) = true := Value.looseEq_self hv
    rw [Expr.holds, Expr.evaluate, if_pos rfl, hroot]
    dsimp only
    rw [he]
    dsimp only
    rw [htest]
    rfl
  rw [runOnce, hparse]
  dsimp only
  rw [hholds]
  rfl

/-- The query that compares a member with a text. -/
theorem Query.exists_source_eq_member_equal {text : String} {ts : List Token} {e : Expr}
    (hspells : SpellsValue text ts) (hoperand : Operand maxDepth 0 ts e) :
    ∃ q : Query, q.source = "x = " ++ text ∧
      q.parse = .ok (.comparison (.root "x") .equal e) := by
  have hname : SpellsValue "x" [⟨.segment, "x", 0⟩] :=
    (spells_token (t := ⟨.segment, "x", 0⟩) rfl).mono endsBefore_segment_of_number
  have hleft : Operand maxDepth 0 [⟨.segment, "x", 0⟩] (.root "x") :=
    .path (by decide) (.name rfl) (by decide)
  exact exists_source_eq_of_spells (hname.comparator hspells .equal)
    (.atom (.comparison hleft rfl hoperand))

theorem Json.mapM_read_some {text : String} {v : Value} (h : read text = .ok v) :
    (some text).mapM read = .ok (some v) := by
  rw [Option.mapM_some, h]
  rfl

/-- A check splits the query, reads the input, and evaluates once. -/
theorem Check.perform_eq (query : String) (input : Option String) :
    perform ⟨query, input, false⟩ = (do
      let q ← (Query.ofText query).mapError .query
      let context ← (input.mapM Json.read).mapError .json
      let answer ← (q.runOnce World.inert context ()).result.mapError .query
      return .matched answer) := by
  rcases hquery : Query.ofText query with e | q
  · rw [perform, hquery]
    rfl
  · rw [perform, hquery]
    cases input with
    | none => rfl
    | some text =>
      simp only [Option.mapM_some]
      cases Json.read text <;> rfl

/-- A check comes to what its query comes to in its context. -/
theorem Check.perform_of_ok {query : String} {input : Option String} {q : Query}
    {context : Option Value} (hquery : Query.ofText query = .ok q)
    (hinput : input.mapM Json.read = .ok context) : perform ⟨query, input, false⟩ =
      ((q.runOnce World.inert context ()).result.mapError .query).map .matched := by
  rw [perform_eq, hquery, hinput]
  change ((q.runOnce World.inert context ()).result.mapError Error.query >>= fun answer =>
    pure (Result.matched answer)) = _
  cases (q.runOnce World.inert context ()).result <;> rfl

theorem Query.perform_eq_matched {q : Query} {text input : String} {context : Value} {answer : Bool}
    (hsource : q.source = text) (hcontext : Json.read input = .ok context)
    (hanswer : (q.runOnce World.inert (some context) ()).result = .ok answer) :
    Check.perform ⟨text, some input, false⟩ = .ok (.matched answer) := by
  rw [Check.perform_of_ok (hsource ▸ ofText_source_eq q) (Json.mapM_read_some hcontext), hanswer]
  rfl

/-! ## Number tokens -/

theorem Lexer.numberLength?_of_scan {cs : List Char} {n : Nat}
    (h : scan cs = some (.literal .number, n)) : numberLength? cs = some n := by
  cases cs with
  | nil => cases h
  | cons c cs =>
    obtain ⟨p, hkind⟩ | ⟨op, hkind, -⟩ | ⟨-, hlength⟩ | hkind | ⟨-, word, hkind⟩ := kind_of_scan h
    · cases hkind
    · cases hkind
    · exact hlength
    · cases hkind
    · unfold wordKind at hkind
      repeat' split at hkind
      all_goals cases hkind

/-- **A number token is a number.** -/
theorem exists_numberText_of_next {c d : Cursor} {t : Token} (h : c.next = (.ok t, d))
    (ht : t.kind = .literal .number) : ∃ numeral, Json.NumberText t.lexeme.toList numeral := by
  rcases Cursor.next_eq_ok h with ⟨hkind, -⟩ | ⟨kind, n, hscan, -, hword⟩
  · rw [ht] at hkind
    cases hkind
  · obtain ⟨hkind, hlexeme⟩ := Prod.mk.inj hword
    obtain rfl : kind = .literal .number := hkind.symm.trans ht
    have hlength := List.length_take_of_le (Lexer.scan_le hscan)
    rw [hlexeme, String.toList_ofList]
    refine Json.exists_numberText ?_
    rw [hlength]
    exact Lexer.numberLength?_of_scan (Lexer.scan_take hscan)

/-- What is wrong with a number token is its range. -/
theorem cause_of_decode {t : Token} {numeral : Json.Numeral}
    (h : Json.NumberText t.lexeme.toList numeral) {e : SyntaxError} (he : decode t = .error e) :
    ∃ e' : Json.Error, e = ⟨t.offset, .invalidLiteral t.lexeme e'⟩ ∧
      e'.cause = .numberOutOfRange := by
  rw [decode] at he
  rcases hread : Json.read t.lexeme with e' | v
  · rw [hread] at he
    cases he
    refine ⟨e', rfl, h.cause_eq ?_⟩
    rwa [String.ofList_toList]
  · rw [hread] at he
    cases he

/-! ## The two readers -/

/-- **Query literals and JSON contexts agree.**  A text that JSON reads as `v`, and that nests no
deeper than queries may, splits into tokens of one operand; its tree comes to `v` in every world and
for every runner, which stays as it is; and a query that compares `x` with the text holds in the
context with the text under `x`.  Conversely every number token is a JSON number, and if it has no
value then only because it is out of range. -/
theorem Query.literals_agree_with_contexts :
    (∀ (text : String) (v : Value), Json.read text = .ok v → Json.nesting text ≤ maxDepth →
      (∃ ts eof e, Token.ofText text = .ok (ts ++ [eof]) ∧ eof.kind = .endOfInput ∧
        (∀ finish, (operand finish maxDepth).apply (ts ++ [eof]) = (.ok e, [eof])) ∧
        ∀ (σ : Type) (w : World σ) (flag : Bool) (r : Runner σ),
          e.evaluate w flag r = (.value v, r)) ∧
      Check.perform ⟨"x = " ++ text, some ("\x7b\"x\": " ++ text ++ "\x7d"), false⟩ =
        .ok (.matched true)) ∧
    ∀ (c d : Cursor) (t : Token), c.next = (.ok t, d) → t.kind = .literal .number →
      (∃ numeral, Json.NumberText t.lexeme.toList numeral ∧
        Json.Numeral.rule.apply t.lexeme.toList = (.ok numeral, [])) ∧
      ∀ e, decode t = .error e → ∃ e' : Json.Error,
        e = ⟨t.offset, .invalidLiteral t.lexeme e'⟩ ∧ e'.cause = .numberOutOfRange := by
  refine ⟨fun text v hread hnesting => ?_, fun c d t hnext ht => ?_⟩
  · obtain ⟨ts, e, hspells, hoperand, hsettles⟩ := exists_operand_of_read hread hnesting
    refine ⟨?_, ?_⟩
    · obtain ⟨us, eof, htokens, heof, hwords⟩ := exists_tokens_of_spells hspells
      refine ⟨us, eof, e, htokens, heof, fun finish => ?_, hsettles⟩
      exact (hoperand.of_words hwords).apply finish (Nat.zero_add maxDepth) [eof]
        (follow_of_kind finish heof (by simp) (by simp) [])
    · obtain ⟨q, hsource, hparse⟩ := exists_source_eq_member_equal hspells hoperand
      have hcontext := Json.read_member hread hnesting (by decide)
      have hanswer := runOnce_member_equal hparse hsettles (Json.isData_of_read hread)
        World.inert ()
      exact perform_eq_matched hsource hcontext hanswer
  · obtain ⟨numeral, hnumber⟩ := exists_numberText_of_next hnext ht
    have hrule := hnumber.apply Json.endsNumber_nil
    rw [List.append_nil] at hrule
    exact ⟨⟨numeral, hnumber, hrule⟩, fun e he => cause_of_decode hnumber he⟩

/-- A text with a key given twice, in two spellings. -/
def layeredText : String :=
  " [7, \x7b\"k\": 1, \"\\u006b\": [null]\x7d]"

/-- What `layeredText` stands for. -/
def layeredValue : Value :=
  .array [.int 7, .ofPairs [("k", .array [.null])]]

theorem read_layeredText : Json.read layeredText = .ok layeredValue := by
  with_unfolding_all rfl

/-- A number beyond every exponent. -/
def hugeToken : Token :=
  ⟨.literal .number, "1e99999999999", 2⟩

theorem next_hugeToken : (Cursor.start "  1e99999999999").next = (.ok hugeToken, ⟨15, []⟩) := by
  with_unfolding_all rfl

theorem Query.layeredText_agrees :
    (Json.nesting layeredText = 3 ∧
      Check.perform ⟨"x = " ++ layeredText, some ("\x7b\"x\": " ++ layeredText ++ "\x7d"), false⟩ =
        .ok (.matched true)) ∧
    ∃ e : Json.Error, decode hugeToken = .error ⟨2, .invalidLiteral "1e99999999999" e⟩ ∧
      e.cause = .numberOutOfRange := by
  have hnesting : Json.nesting layeredText ≤ maxDepth := by decide
  have hagree := literals_agree_with_contexts.1 layeredText layeredValue read_layeredText hnesting
  refine ⟨⟨by decide, hagree.2⟩, ?_⟩
  rcases hdecode : decode hugeToken with e | v
  · have hnumber := literals_agree_with_contexts.2 _ _ hugeToken next_hugeToken rfl
    obtain ⟨e', rfl, hcause⟩ := hnumber.2 e hdecode
    exact ⟨e', rfl, hcause⟩
  · have hfail : (decode hugeToken).toBool = false := by with_unfolding_all rfl
    rw [hdecode] at hfail
    cases hfail

end FilterQuery
