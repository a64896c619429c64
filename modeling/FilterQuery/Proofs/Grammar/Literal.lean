import FilterQuery.Proofs.Expr.Settled
import FilterQuery.Proofs.Grammar.Render
import FilterQuery.Proofs.Json.Nesting
import FilterQuery.Proofs.Token.Respelling

/-!
# Proofs/Grammar/Literal — JSON texts are values of queries

    text ──lex──▸ tokens ──derive──▸ tree ──evaluate──▸ value
      └───────────────────read─────────────────────────▸ value

The grammar of JSON and that of queries split a text in the same places, only that the one looks at
characters and the other at tokens.  By induction on how a JSON value is written (`isLiteral`) its
characters spell tokens of an operand, with no more nesting, whose tree settles on the value.
-/

namespace FilterQuery.Grammar

open FilterQuery.Rule (Separated)
open Json (Spaces Piece Member Written)

/-- The characters spell tokens that derive a tree, and that comes to the value everywhere. -/
structure IsLiteral (limit depth : Nat) (cs : List Char) (v : Value) (ts : List Token)
    (e : Expr) : Prop where
  spells : SpellsValue (String.ofList cs) ts
  operand : Operand limit depth ts e
  settles : e.Settles v

variable {limit depth : Nat}

/-! ## White space -/

theorem isBlank_of_isSpace {c : Char} (h : Json.isSpace c = true) : Text.isBlank c = true := by
  simp only [Json.isSpace, Bool.or_eq_true, decide_eq_true_eq] at h
  rcases h with ((rfl | rfl) | rfl) | rfl <;> decide

/-- White space spells nothing. -/
theorem spells_spaces {cs : List Char} (h : Spaces cs) (k : Token.Kind) :
    Spells k (String.ofList cs) [] := by
  intro rest _
  rw [String.toList_ofList]
  exact Lexes.of_blanks (fun c hc => isBlank_of_isSpace (h c hc)) .done

theorem Spells.after_spaces {k : Token.Kind} {cs ds : List Char} {ts : List Token}
    (h : Spells k (String.ofList ds) ts) (hcs : Spaces cs) :
    Spells k (String.ofList (cs ++ ds)) ts := by
  rw [String.ofList_append]
  exact (spells_spaces hcs (.literal .string)).append h fun _ _ _ _ => rfl

/-- **White space around a value changes nothing.** -/
theorem spells_piece {p : Piece} (hspaced : p.Spaced) {ts : List Token}
    (h : SpellsValue (String.ofList p.text) ts) : SpellsValue (String.ofList p.whole) ts := by
  refine Spells.after_spaces ?_ hspaced.before
  have hafter : SpellsValue (String.ofList p.text ++ String.ofList p.after) (ts ++ []) := by
    refine h.append (spells_spaces hspaced.after (.literal .number)) fun rest hrest c hc => ?_
    rw [String.toList_ofList] at hc
    cases hp : p.after with
    | nil =>
      rw [hp] at hc
      exact hrest c hc
    | cons d after =>
      rw [hp] at hc
      obtain rfl : d = c := Option.some.inj hc
      have hspace := hspaced.after d (hp ▸ List.mem_cons_self)
      exact Token.Kind.endsBefore_of_isBlank _ (isBlank_of_isSpace hspace)
  rwa [List.append_nil, ← String.ofList_append] at hafter

/-! ## Lists -/

/-- **Texts with commas between spell their tokens with commas between.** -/
theorem exists_spells_separated {α : Type} {text : α → List Char} {tokens : α → List Token}
    {items : List α} (h : ∀ a ∈ items, SpellsValue (String.ofList (text a)) (tokens a))
    {cs : List Char} (hsep : Separated Json.isComma (items.map text) cs) :
    ∃ inner, Separated isComma (items.map tokens) inner ∧ SpellsValue (String.ofList cs) inner := by
  induction items generalizing cs with
  | nil =>
    cases hsep
    exact ⟨[], .nil, spells_empty⟩
  | cons a items ih =>
    obtain ⟨ha, hitems⟩ := List.forall_mem_cons.1 h
    rw [List.map_cons] at hsep
    generalize hmap : items.map text = others at hsep
    cases hsep with
    | single =>
      obtain rfl : items = [] := List.map_eq_nil_iff.1 hmap
      exact ⟨tokens a, .single (tokens a), ha⟩
    | @cons _ _ ds t ht hothers hsep =>
      subst hmap
      obtain rfl : t = ',' := by simpa [Json.isComma] using ht
      obtain ⟨inner, hinner, hspells⟩ := ih hitems hsep
      have hne : items.map tokens ≠ [] := by simpa using hothers
      refine ⟨tokens a ++ mark .comma :: inner, .cons rfl hne hinner, ?_⟩
      have hcomma : SpellsValue ("," ++ String.ofList ds) (mark .comma :: inner) :=
        (spells_mark .comma).append_of_punct hspells
      have htext : String.ofList (text a ++ ',' :: ds) =
          String.ofList (text a) ++ ("," ++ String.ofList ds) := by
        rw [String.ofList_append, String.ofList_cons]
        rfl
      rw [htext]
      exact ha.append_of_head hcomma (toList_append_of_toList rfl) rfl

/-- Brackets around a text spell marks around its tokens. -/
theorem spells_enclosed {cs : List Char} {inner : List Token}
    (h : SpellsValue (String.ofList cs) inner) (opener : Punct) {closer : Punct}
    (hcloser : closer ∈ [Punct.closeParen, .closeBracket, .closeBrace]) :
    SpellsValue (String.ofList (opener.char :: (cs ++ [closer.char])))
      (mark opener :: (inner ++ [mark closer])) := by
  have htext : String.ofList (opener.char :: (cs ++ [closer.char])) =
      opener.char.toString ++ String.ofList cs ++ closer.char.toString := by
    apply String.toList_injective
    simp
  rw [htext]
  exact (h.enclosed opener hcloser).mono fun _ _ => rfl

/-! ## Values -/

/-- The token of characters. -/
def literalToken (l : Literal) (cs : List Char) : Token :=
  ⟨.literal l, String.ofList cs, 0⟩

/-- A value that is one token. -/
theorem isLiteral_token {l : Literal} {cs : List Char} {v : Value}
    (hscan : Lexer.scan cs = some (.literal l, cs.length)) (hwritten : Written 0 cs v) :
    IsLiteral limit depth cs v [literalToken l cs] (.literal v (String.ofList cs)) where
  spells := by
    have hlexeme : (literalToken l cs).word.IsLexeme := by
      change Lexer.scan (String.ofList cs).toList = some (_, (String.ofList cs).toList.length)
      rw [String.toList_ofList]
      exact hscan
    exact (spells_token hlexeme).mono (endsBefore_of_number l)
  operand := .literal rfl (hwritten.read_eq (Nat.zero_le _))
  settles := Expr.settles_literal v _

theorem scan_of_numberText {cs : List Char} {numeral : Json.Numeral}
    (h : Json.NumberText cs numeral) : Lexer.scan cs = some (.literal .number, cs.length) := by
  obtain ⟨c, cs', rfl, hc⟩ := h.exists_cons
  rw [Lexer.scan_number hc, h.numberLength?_eq]
  rfl

theorem scan_of_stringText {cs name : List Char} (h : Json.StringText cs name) :
    Lexer.scan ('"' :: cs) = some (.literal .string, ('"' :: cs).length) := by
  rw [Lexer.scan_string, h.quoted.stringTailLength?_eq, List.length_cons, Nat.add_comm]
  rfl

/-- The entry of a query that a member of a JSON object is. -/
def memberEntry (m : Member) (ts : List Token) (e : Expr) : WrittenEntry :=
  ⟨literalToken .string ('"' :: m.key), mark .colon, ts, String.ofList m.name, e⟩

theorem keyed_memberEntry {m : Member} (h : m.Keyed) (ts : List Token) (e : Expr) :
    (memberEntry m ts e).Keyed where
  key := rfl
  name := (Written.string h.key : Written 0 _ _).read_eq (Nat.zero_le _)
  colon := rfl

theorem spells_member {m : Member} (h : m.Keyed) {ts : List Token} (e : Expr)
    (hvalue : SpellsValue (String.ofList m.piece.text) ts) :
    SpellsValue (String.ofList m.whole) (memberEntry m ts e).tokens := by
  have hkey : Spells (.literal .string) (String.ofList ('"' :: m.key))
      [literalToken .string ('"' :: m.key)] := by
    refine spells_token (t := literalToken .string ('"' :: m.key)) ?_
    change Lexer.scan (String.ofList _).toList = some (_, (String.ofList _).toList.length)
    rw [String.toList_ofList]
    exact scan_of_stringText h.key
  have hcolon : SpellsValue (":" ++ String.ofList m.piece.whole) (mark .colon :: ts) :=
    (spells_mark .colon).append_of_punct (spells_piece h.piece hvalue)
  have htext : ":" ++ String.ofList m.piece.whole = String.ofList (':' :: m.piece.whole) := by
    rw [String.ofList_cons]
    rfl
  rw [htext] at hcolon
  have hrest := hkey.append (hcolon.after_spaces h.gap) fun _ _ _ _ => rfl
  rw [← String.ofList_append] at hrest
  exact Spells.after_spaces hrest h.before

section Parts

variable {blanks cs : List Char}

/-- **An array of literals is a literal.** -/
theorem exists_isLiteral_array {pieces : List Piece} (hlimit : depth < limit)
    (hblanks : Spaces blanks) (hspaced : ∀ p ∈ pieces, p.Spaced)
    (h : ∀ p ∈ pieces, ∃ ts e, IsLiteral limit (depth + 1) p.text p.value ts e)
    (hsep : Separated Json.isComma (pieces.map Piece.whole) cs) :
    ∃ ts e, IsLiteral limit depth ('[' :: (blanks ++ (cs ++ [']'])))
      (.array (pieces.map Piece.value)) ts e := by
  have hpieces : ∀ p ∈ pieces, ∃ y : Piece × List Token × Expr,
      (y.1.Spaced ∧ IsLiteral limit (depth + 1) y.1.text y.1.value y.2.1 y.2.2) ∧ y.1 = p := by
    intro p hp
    obtain ⟨ts, e, hliteral⟩ := h p hp
    exact ⟨(p, ts, e), ⟨hspaced p hp, hliteral⟩, rfl⟩
  obtain ⟨items, hitems, rfl⟩ := Rule.exists_map_eq hpieces
  rw [List.map_map] at hsep
  obtain ⟨inner, hinner, hspells⟩ := exists_spells_separated
    (fun y hy => spells_piece (hitems y hy).1 (hitems y hy).2.spells) hsep
  have hall : ∀ p ∈ items.map Prod.snd, Operand limit (depth + 1) p.1 p.2 :=
    List.forall_mem_map.2 fun y hy => (hitems y hy).2.operand
  have hparts : (items.map Prod.snd).map Prod.fst = items.map fun y => y.2.1 := List.map_map
  have htrees : (items.map Prod.snd).map Prod.snd = items.map fun y => y.2.2 := List.map_map
  have hvalues : (items.map Prod.fst).map Piece.value = items.map fun y => y.1.value :=
    List.map_map
  have hsettles := Expr.settles_array fun y hy => (hitems y hy).2.settles
  have hwhole := spells_enclosed (hspells.after_spaces hblanks) .openBracket
    (by simp : Punct.closeBracket ∈ _)
  rw [List.append_assoc] at hwhole
  rw [← htrees, ← hvalues] at hsettles
  exact ⟨_, _, hwhole, .array hlimit hall (hparts ▸ hinner) (enclosed_mark _ _ inner), hsettles⟩

/-- **An object of literals is a literal,** with a key given again or not. -/
theorem exists_isLiteral_object {members : List Member} (hlimit : depth < limit)
    (hblanks : Spaces blanks) (hkeyed : ∀ m ∈ members, m.Keyed)
    (h : ∀ m ∈ members, ∃ ts e, IsLiteral limit (depth + 1) m.piece.text m.piece.value ts e)
    (hsep : Separated Json.isComma (members.map Member.whole) cs) :
    ∃ ts e, IsLiteral limit depth ('\x7b' :: (blanks ++ (cs ++ ['\x7d'])))
      (.ofPairs (members.map Member.entry)) ts e := by
  have hmembers : ∀ m ∈ members, ∃ y : Member × List Token × Expr,
      (y.1.Keyed ∧ IsLiteral limit (depth + 1) y.1.piece.text y.1.piece.value y.2.1 y.2.2) ∧
        y.1 = m := by
    intro m hm
    obtain ⟨ts, e, hliteral⟩ := h m hm
    exact ⟨(m, ts, e), ⟨hkeyed m hm, hliteral⟩, rfl⟩
  obtain ⟨items, hitems, rfl⟩ := Rule.exists_map_eq hmembers
  rw [List.map_map] at hsep
  obtain ⟨inner, hinner, hspells⟩ := exists_spells_separated
    (fun y hy => spells_member (hitems y hy).1 y.2.2 (hitems y hy).2.spells) hsep
  let write (y : Member × List Token × Expr) : WrittenEntry := memberEntry y.1 y.2.1 y.2.2
  have hwritten : ∀ w ∈ items.map write, w.Keyed :=
    List.forall_mem_map.2 fun y hy => keyed_memberEntry (hitems y hy).1 _ _
  have hoperands : ∀ w ∈ items.map write, Operand limit (depth + 1) w.value w.expr :=
    List.forall_mem_map.2 fun y hy => (hitems y hy).2.operand
  have htokens : (items.map write).map WrittenEntry.tokens =
      items.map fun y => (memberEntry y.1 y.2.1 y.2.2).tokens := List.map_map
  -- The entries of the query and of the value are the two halves of one list.
  let both : List (String × (Expr × Value)) :=
    items.map fun y => (String.ofList y.1.name, y.2.2, y.1.piece.value)
  have htrees : Fields.mapValues Prod.fst both = (items.map write).map WrittenEntry.entry := by
    simp only [both, Fields.mapValues, List.map_map]
    rfl
  have hvalues : Fields.mapValues Prod.snd both = (items.map Prod.fst).map Member.entry := by
    simp only [both, Fields.mapValues, List.map_map]
    rfl
  have hsettles : (Expr.object (Fields.ofList (Fields.mapValues Prod.fst both))).Settles
      (.ofPairs (Fields.mapValues Prod.snd both)) :=
    Expr.settles_ofList (List.forall_mem_map.2 fun y hy => (hitems y hy).2.settles)
  have hwhole := spells_enclosed (hspells.after_spaces hblanks) .openBrace
    (by simp : Punct.closeBrace ∈ _)
  rw [List.append_assoc] at hwhole
  rw [htrees, hvalues] at hsettles
  exact ⟨_, _, hwhole, .object hlimit hwritten hoperands (htokens ▸ hinner)
    (enclosed_mark _ _ inner) (Fields.merges_ofList _), hsettles⟩

end Parts

/-- **A JSON value is a literal of queries,** where the nesting leaves room for its depth. -/
theorem exists_isLiteral {d : Nat} {cs : List Char} {v : Value} (h : Written d cs v)
    (hdepth : depth + d ≤ limit) : ∃ ts e, IsLiteral limit depth cs v ts e := by
  induction h generalizing depth with
  | null => exact ⟨_, _, isLiteral_token (l := .null) rfl .null⟩
  | true => exact ⟨_, _, isLiteral_token (l := .true) rfl .true⟩
  | false => exact ⟨_, _, isLiteral_token (l := .false) rfl .false⟩
  | number hnumber hv =>
    exact ⟨_, _, isLiteral_token (scan_of_numberText hnumber) (.number hnumber hv)⟩
  | string htext => exact ⟨_, _, isLiteral_token (scan_of_stringText htext) (.string htext)⟩
  | array hblanks hspaced _ hsep ih =>
    exact exists_isLiteral_array (by omega) hblanks hspaced (fun p hp => ih p hp (by omega)) hsep
  | object hblanks hkeyed _ hsep ih =>
    exact exists_isLiteral_object (by omega) hblanks hkeyed (fun m hm => ih m hm (by omega)) hsep

/-- **A JSON text is a literal of queries,** if it nests no deeper than they may. -/
theorem exists_operand_of_read {text : String} {v : Value} (h : Json.read text = .ok v)
    (hnesting : Json.nesting text ≤ limit) :
    ∃ ts e, SpellsValue text ts ∧ Operand limit 0 ts e ∧ e.Settles v := by
  obtain ⟨p, hspaced, rfl, hwhole, hwritten⟩ := Json.written_of_read h hnesting
  obtain ⟨ts, e, hliteral⟩ := exists_isLiteral hwritten (Nat.le_of_eq (Nat.zero_add limit))
  have hspells := spells_piece hspaced hliteral.spells
  rw [hwhole, String.ofList_toList] at hspells
  exact ⟨ts, e, hspells, hliteral.operand, hliteral.settles⟩

end FilterQuery.Grammar
