import FilterQuery.Expr.Render
import FilterQuery.Proofs.Grammar.Derivation
import FilterQuery.Proofs.Json.Quote

/-!
# Proofs/Grammar/Render — the canonical text of a tree spells the tree

`Spells kind text ts` says that a text is read as the words of `ts`, wherever a lexeme of the kind
could end.  For a tree that has been derived from lexemes there are tokens that its canonical text
spells and that derive it again (`Condition.exists_spells`): not the ones it came from, for keys are
quoted anew, entries with repeated keys are gone and no period stands before arguments.  None of
that takes more nesting than before.
-/

namespace FilterQuery.Grammar

open FilterQuery.Rule (Separated)

variable {limit : Nat} {k k' : Token.Kind} {text text' : String} {ts ts' : List Token}

/-! ## Texts and the tokens they spell -/

/-- The text is read as the words of the tokens, where a lexeme of the kind could end. -/
def Spells (k : Token.Kind) (text : String) (ts : List Token) : Prop :=
  ∀ rest : List Char, (∀ c ∈ rest.head?, k.endsBefore c = true) →
    Lexes (text.toList ++ rest) (ts.map Token.word) rest

/-- Where a lexeme may end before fewer characters, less has to be spelled. -/
theorem Spells.mono (h : Spells k text ts)
    (hk : ∀ c, k'.endsBefore c = true → k.endsBefore c = true) : Spells k' text ts :=
  fun rest hrest => h rest fun c hc => hk c (hrest c hc)

/-- **Texts spell one behind the other,** if what follows the first would not go on with its last
lexeme. -/
theorem Spells.append (h : Spells k text ts) (h' : Spells k' text' ts')
    (hjoin : ∀ rest : List Char, (∀ c ∈ rest.head?, k'.endsBefore c = true) →
      ∀ c ∈ (text'.toList ++ rest).head?, k.endsBefore c = true) :
    Spells k' (text ++ text') (ts ++ ts') := by
  intro rest hrest
  rw [String.toList_append, List.append_assoc, List.map_append]
  exact (h _ (hjoin rest hrest)).append (h' rest hrest)

/-- After a mark anything may follow. -/
theorem Spells.append_of_punct {p : Punct} (h : Spells (.punct p) text ts)
    (h' : Spells k text' ts') : Spells k (text ++ text') (ts ++ ts') :=
  h.append h' fun _ _ _ _ => rfl

/-- After anything a text may follow whose first character would not go on with it. -/
theorem Spells.append_of_head (h : Spells k text ts) (h' : Spells k' text' ts') {c : Char}
    {cs : List Char} (htext : text'.toList = c :: cs) (hc : k.endsBefore c = true) :
    Spells k' (text ++ text') (ts ++ ts') := by
  refine h.append h' fun rest _ d hd => ?_
  rw [htext] at hd
  cases hd
  exact hc

/-- A blank in front changes nothing. -/
theorem Spells.blank (h : Spells k text ts) : Spells k (" " ++ text) ts := by
  intro rest hrest
  rw [String.toList_append, List.append_assoc]
  exact .blank (by decide) (h rest hrest)

/-- No text spells no tokens. -/
theorem spells_empty : Spells k "" [] :=
  fun _ _ => .done

/-- **A lexeme spells its token.** -/
theorem spells_token {t : Token} (h : t.word.IsLexeme) : Spells t.kind t.lexeme [t] :=
  fun _ hrest => Lexes.lexeme h hrest

/-! ## Tokens with one spelling -/

/-- The token of a mark. -/
def mark (p : Punct) : Token :=
  ⟨.punct p, p.char.toString, 0⟩

/-- The token of a connector. -/
def connectorToken (op : Connector) : Token :=
  ⟨.connector op, op.symbol, 0⟩

/-- The token of a comparator in its canonical spelling. -/
def comparatorToken (op : Comparator) : Token :=
  ⟨.comparator op, op.symbol, 0⟩

theorem toList_char (p : Punct) : p.char.toString.toList = [p.char] :=
  String.toList_singleton p.char

/-- A mark spells itself. -/
theorem spells_mark (p : Punct) : Spells (.punct p) p.char.toString [mark p] := by
  refine spells_token (t := mark p) ?_
  cases p <;> rfl

/-- A connector spells itself. -/
theorem spells_connector (op : Connector) :
    Spells (.connector op) op.symbol [connectorToken op] := by
  refine spells_token (t := connectorToken op) ?_
  cases op <;> rfl

/-- A comparator spells itself. -/
theorem spells_comparator (op : Comparator) :
    Spells (.comparator op) op.symbol [comparatorToken op] := by
  refine spells_token (t := comparatorToken op) ?_
  cases op <;> rfl

/-! ## What values end like -/

/-- What ends every literal ends a number. -/
theorem endsBefore_of_number (l : Literal) (c : Char)
    (h : Token.Kind.endsBefore (.literal .number) c = true) :
    Token.Kind.endsBefore (.literal l) c = true := by
  cases l <;> simp_all [Token.Kind.endsBefore]

/-- A name may end where a number may. -/
theorem endsBefore_segment_of_number (c : Char)
    (h : Token.Kind.endsBefore (.literal .number) c = true) :
    Token.Kind.endsBefore .segment c = true := by
  simp_all [Token.Kind.endsBefore]

/-- The text spells a value: it ends where a number would end, if not before. -/
abbrev SpellsValue : String → List Token → Prop :=
  Spells (.literal .number)

/-- A text in brackets spells the tokens in brackets. -/
theorem SpellsValue.enclosed {inner : List Token} (h : SpellsValue text inner) (opener : Punct)
    {closer : Punct} (hcloser : closer ∈ [Punct.closeParen, .closeBracket, .closeBrace]) :
    Spells (.punct closer) (opener.char.toString ++ text ++ closer.char.toString)
      (mark opener :: (inner ++ [mark closer])) := by
  have hend : Token.Kind.endsBefore (.literal .number) closer.char = true := by
    revert closer
    decide
  have hclose := h.append_of_head (spells_mark closer) (toList_char closer) hend
  rw [String.append_assoc]
  exact (spells_mark opener).append_of_punct hclose

/-- Between two marks tokens are enclosed. -/
theorem enclosed_mark (opener closer : Punct) (inner : List Token) :
    Enclosed opener closer inner (mark opener :: (inner ++ [mark closer])) :=
  ⟨_, _, rfl, rfl, rfl⟩

theorem toList_append_of_toList {s t : String} {c : Char} {cs : List Char}
    (h : s.toList = c :: cs) : (s ++ t).toList = c :: (cs ++ t.toList) := by
  rw [String.toList_append, h, List.cons_append]

/-- Two values with an operator and blanks between. -/
theorem SpellsValue.operator {t : Token} (h : SpellsValue text ts) (h' : SpellsValue text' ts')
    (ht : Spells t.kind t.lexeme [t]) (hblank : t.kind.endsBefore ' ' = true) :
    SpellsValue (text ++ (" " ++ t.lexeme ++ " ") ++ text') (ts ++ t :: ts') := by
  have hright : SpellsValue (t.lexeme ++ (" " ++ text')) (t :: ts') :=
    ht.append_of_head h'.blank (toList_append_of_toList rfl) hblank
  have hall := h.append_of_head hright.blank (toList_append_of_toList rfl) rfl
  simpa only [String.append_assoc] using hall

/-- Texts with a connector between them spell their tokens with it between them. -/
theorem SpellsValue.connector (h : SpellsValue text ts) (h' : SpellsValue text' ts')
    (op : Connector) :
    SpellsValue (text ++ (" " ++ op.symbol ++ " ") ++ text') (ts ++ connectorToken op :: ts') :=
  h.operator (t := connectorToken op) h' (spells_connector op) rfl

/-- Texts with a comparator between them spell their tokens with it between them. -/
theorem SpellsValue.comparator (h : SpellsValue text ts) (h' : SpellsValue text' ts')
    (op : Comparator) :
    SpellsValue (text ++ (" " ++ op.symbol ++ " ") ++ text') (ts ++ comparatorToken op :: ts') :=
  h.operator (t := comparatorToken op) h' (spells_comparator op) rfl

/-! ## Lists -/

/-- Items are rendered one by one. -/
theorem renderAll_eq_map (es : List Expr) : Expr.renderAll es = es.map Expr.render := by
  induction es with
  | nil => rfl
  | cons e es ih => rw [Expr.renderAll, ih, List.map_cons]

/-- The canonical text of an entry. -/
def entryText (entry : String × Expr) : String :=
  Json.quote entry.1 ++ ": " ++ entry.2.render

/-- Entries are rendered one by one. -/
theorem renderEntries_eq_map (entries : List (String × Expr)) :
    Expr.renderEntries entries = entries.map entryText := by
  induction entries with
  | nil => rfl
  | cons entry entries ih => rw [Expr.renderEntries, ih, List.map_cons, entryText]

/-- A mark and a blank before a text. -/
theorem Spells.markBlank (h : Spells k text ts) {p : Punct} {s : String}
    (hs : s = p.char.toString ++ " ") : Spells k (s ++ text) (mark p :: ts) := by
  rw [hs, String.append_assoc]
  exact (spells_mark p).append_of_punct h.blank

/-- **Texts of values with commas between spell the values with commas between.** -/
theorem exists_spells_list {α : Type} {write : α → String} {parts : List (List Token × α)}
    (h : ∀ p ∈ parts, SpellsValue (write p.2) p.1) :
    ∃ inner, Separated isComma (parts.map Prod.fst) inner ∧
      SpellsValue (", ".intercalate ((parts.map Prod.snd).map write)) inner := by
  induction parts with
  | nil => exact ⟨[], .nil, spells_empty⟩
  | cons p parts ih =>
    obtain ⟨hp, hparts⟩ := List.forall_mem_cons.1 h
    cases parts with
    | nil => exact ⟨p.1, .single p.1, hp⟩
    | cons q parts =>
      obtain ⟨inner, hsep, hinner⟩ := ih hparts
      refine ⟨p.1 ++ mark .comma :: inner, .cons rfl (by simp) hsep, ?_⟩
      have hcomma : SpellsValue (", " ++ ", ".intercalate (((q :: parts).map Prod.snd).map write))
          (mark .comma :: inner) := hinner.markBlank rfl
      simp only [List.map_cons] at hcomma ⊢
      rw [String.intercalate_cons_cons, String.append_assoc]
      exact hp.append_of_head hcomma (toList_append_of_toList rfl) rfl

/-- Values that are each spelled somehow are spelled as a list. -/
theorem exists_spells_values {depth : Nat} {es : List Expr}
    (h : ∀ e ∈ es, ∃ ts, Operand limit depth ts e ∧ SpellsValue e.render ts) :
    ∃ (parts : List (List Token × Expr)) (inner : List Token), parts.map Prod.snd = es ∧
      (∀ p ∈ parts, Operand limit depth p.1 p.2) ∧
      Separated isComma (parts.map Prod.fst) inner ∧
      SpellsValue (", ".intercalate (Expr.renderAll es)) inner := by
  have hparts : ∀ e ∈ es, ∃ p : List Token × Expr,
      (Operand limit depth p.1 p.2 ∧ SpellsValue p.2.render p.1) ∧ p.2 = e := by
    intro e he
    obtain ⟨ts, hts⟩ := h e he
    exact ⟨(ts, e), hts, rfl⟩
  obtain ⟨parts, hall, rfl⟩ := Rule.exists_map_eq hparts
  obtain ⟨inner, hsep, hinner⟩ := exists_spells_list fun p hp => (hall p hp).2
  rw [renderAll_eq_map]
  exact ⟨parts, inner, rfl, fun p hp => (hall p hp).1, hsep, hinner⟩

/-- An entry with its key quoted and its value spelled by some tokens. -/
def writeEntry (entry : String × Expr) (ts : List Token) : WrittenEntry :=
  ⟨⟨.literal .string, Json.quote entry.1, 0⟩, mark .colon, ts, entry.1, entry.2⟩

/-- An entry is written anew with its own key, quoted. -/
theorem keyed_writeEntry (entry : String × Expr) (ts : List Token) : (writeEntry entry ts).Keyed :=
  ⟨rfl, Json.read_quote entry.1, rfl⟩

/-- An entry spells what it is written as, if its value does. -/
theorem spells_writeEntry {entry : String × Expr} {ts : List Token}
    (h : SpellsValue entry.2.render ts) :
    SpellsValue (entryText entry) (writeEntry entry ts).tokens := by
  have hkey : Spells (.literal .string) (Json.quote entry.1) [(writeEntry entry ts).key] :=
    spells_token (t := (writeEntry entry ts).key) (Json.isLexeme_quote entry.1)
  have hcolon : SpellsValue (": " ++ entry.2.render) (mark .colon :: ts) := h.markBlank rfl
  rw [entryText, String.append_assoc]
  exact hkey.append hcolon fun _ _ _ _ => rfl

/-- Entries whose values are each spelled somehow are spelled as a list. -/
theorem exists_spells_entries {depth : Nat} {fields : List (String × Expr)}
    (h : ∀ entry ∈ fields, ∃ ts, Operand limit depth ts entry.2 ∧ SpellsValue entry.2.render ts) :
    ∃ (written : List WrittenEntry) (inner : List Token),
      written.map WrittenEntry.entry = fields ∧ (∀ w ∈ written, w.Keyed) ∧
      (∀ w ∈ written, Operand limit depth w.value w.expr) ∧
      Separated isComma (written.map WrittenEntry.tokens) inner ∧
      SpellsValue (", ".intercalate (Expr.renderEntries fields)) inner := by
  have hparts : ∀ entry ∈ fields, ∃ w : WrittenEntry,
      (w.Keyed ∧ Operand limit depth w.value w.expr ∧
        SpellsValue (entryText w.entry) w.tokens) ∧ w.entry = entry := by
    intro entry hentry
    obtain ⟨ts, hts, hspells⟩ := h entry hentry
    exact ⟨writeEntry entry ts, ⟨keyed_writeEntry entry ts, hts, spells_writeEntry hspells⟩, rfl⟩
  obtain ⟨written, hall, rfl⟩ := Rule.exists_map_eq hparts
  have hwritten : ∀ p ∈ written.map WrittenEntry.part, SpellsValue (entryText p.2) p.1 :=
    List.forall_mem_map.2 fun w hw => (hall w hw).2.2
  obtain ⟨inner, hsep, hinner⟩ := exists_spells_list hwritten
  have hfst : (written.map WrittenEntry.part).map Prod.fst = written.map WrittenEntry.tokens :=
    List.map_map
  have hsnd : (written.map WrittenEntry.part).map Prod.snd = written.map WrittenEntry.entry :=
    List.map_map
  rw [renderEntries_eq_map]
  exact ⟨written, inner, rfl, fun w hw => (hall w hw).1, fun w hw => (hall w hw).2.1, hfst ▸ hsep,
    hsnd ▸ hinner⟩

/-! ## Trees -/

/-- The parts of a list are in it. -/
theorem subset_of_separated {parts : List (List Token)} {part inner : List Token}
    (h : Separated isComma parts inner) (hpart : part ∈ parts) : part ⊆ inner := by
  induction h with
  | nil => cases hpart
  | single =>
    obtain rfl := List.mem_singleton.1 hpart
    exact List.Subset.refl _
  | cons _ _ _ ih =>
    rcases List.mem_cons.1 hpart with rfl | hpart
    · exact List.subset_append_left _ _
    · exact fun t ht => List.mem_append_right _ (List.mem_cons_of_mem _ (ih hpart ht))

/-- What is enclosed is in the tokens with the brackets. -/
theorem Enclosed.subset {opener closer : Punct} {inner ts : List Token}
    (h : Enclosed opener closer inner ts) : inner ⊆ ts := by
  obtain ⟨o, c, -, -, rfl⟩ := h
  exact fun t ht => List.mem_cons_of_mem o (List.mem_append_left _ ht)

/-- A call is spelled by its path and its arguments in parentheses, without a period. -/
theorem Path.exists_spells_call {depth steps : Nat} {us : List Token} {callee : Expr}
    {args : List Expr} (hcallee : Path limit depth us steps callee)
    (hspells : Spells .segment callee.render us) (hcall : callee.isCall = false)
    (hargs : ∀ e ∈ args, ∃ ts, Operand limit depth ts e ∧ SpellsValue e.render ts) :
    ∃ vs, Path limit depth vs steps (.call callee args) ∧
      Spells .segment (Expr.call callee args).render vs := by
  obtain ⟨parts, inner, rfl, hall, hsep, hinner⟩ := exists_spells_values hargs
  have henclosed := hinner.enclosed .openParen (by simp : Punct.closeParen ∈ _)
  refine ⟨_, .call hcallee hcall hall hsep (enclosed_mark _ _ inner), ?_⟩
  have htext : ∀ x : String, callee.render ++ "(" ++ x ++ ")" =
      callee.render ++ (Punct.openParen.char.toString ++ x ++ Punct.closeParen.char.toString) := by
    intro x
    rw [String.append_assoc, String.append_assoc, String.append_assoc]
    rfl
  rw [Expr.render, htext, String.append_assoc]
  rw [String.append_assoc] at henclosed
  have hwhole := hspells.append_of_head henclosed (toList_append_of_toList (toList_char _)) rfl
  exact hwhole.mono fun _ _ => rfl

mutual

/-- **The canonical text of a value spells the value,** if the value was made of lexemes. -/
theorem Operand.exists_spells {depth : Nat} : ∀ {ts : List Token} {e : Expr},
    Operand limit depth ts e → (∀ t ∈ ts, t.word.IsLexeme) →
      ∃ us, Operand limit depth us e ∧ SpellsValue e.render us
  | _, _, @Operand.literal _ _ t l _ ht hread, hlex => by
    refine ⟨[t], .literal ht hread, ?_⟩
    refine (spells_token (hlex t List.mem_cons_self)).mono fun c hc => ?_
    rw [ht]
    exact endsBefore_of_number l c hc
  | _, _, .array hdepth hparts hsep henc, hlex => by
    obtain ⟨parts, inner, hsnd, hall, hsep', hinner⟩ := exists_spells_values
      (List.forall_mem_map.2 fun p hp => (hparts p hp).exists_spells fun t ht =>
        hlex t (henc.subset (subset_of_separated hsep (List.mem_map_of_mem hp) ht)))
    rw [← hsnd] at hinner ⊢
    have hspells : Spells (.punct .closeBracket) (Expr.array (parts.map Prod.snd)).render _ :=
      hinner.enclosed .openBracket (by simp)
    exact ⟨_, .array hdepth hall hsep' (enclosed_mark _ _ inner), hspells.mono fun _ _ => rfl⟩
  | _, _, .object hdepth hkeyed hvalues hsep henc hmerges, hlex => by
    obtain ⟨others, inner, hentries, hkeyed', hvalues', hsep', hinner⟩ :=
      exists_spells_entries fun entry hentry => by
        obtain ⟨w, hw, rfl⟩ := List.mem_map.1 (hmerges.subset hentry)
        exact (hvalues w hw).exists_spells fun t ht => hlex t (henc.subset
          (subset_of_separated hsep (List.mem_map_of_mem hw)
            (List.mem_cons_of_mem _ (List.mem_cons_of_mem _ ht))))
    have hself := Fields.merges_self hmerges.nodup_keys
    have hspells : Spells (.punct .closeBrace) (Expr.object _).render _ :=
      hinner.enclosed .openBrace (by simp)
    exact ⟨_, .object hdepth hkeyed' hvalues' hsep' (enclosed_mark _ _ inner)
      (hentries.symm ▸ hself), hspells.mono fun _ _ => rfl⟩
  | _, _, .path hdepth hpath hsteps, hlex => by
    obtain ⟨us, steps', hle, hpath', hspells⟩ := hpath.exists_spells hlex
    exact ⟨us, .path hdepth hpath' (by omega), hspells.mono endsBefore_segment_of_number⟩

/-- **The canonical text of a path spells the path,** with no more periods than it had. -/
theorem Path.exists_spells {depth : Nat} : ∀ {steps : Nat} {ts : List Token} {e : Expr},
    Path limit depth ts steps e → (∀ t ∈ ts, t.word.IsLexeme) →
      ∃ us steps', steps' ≤ steps ∧ Path limit depth us steps' e ∧ Spells .segment e.render us
  | _, _, _, @Path.name _ _ t ht, hlex => by
    refine ⟨[t], 0, Nat.le_refl 0, .name ht, ?_⟩
    exact ht ▸ spells_token (hlex t List.mem_cons_self)
  | _, _, _, @Path.step _ _ _ ts parent period t hparent hperiod ht, hlex => by
    obtain ⟨us, steps', hle, hparent', hspells⟩ :=
      hparent.exists_spells fun t ht => hlex t (List.mem_append_left _ ht)
    have hname : Spells .segment t.lexeme [t] := ht ▸ spells_token (hlex t (by simp))
    have hperiodName : Spells .segment ("." ++ t.lexeme) [mark .period, t] :=
      (spells_mark .period).append_of_punct hname
    refine ⟨us ++ [mark .period, t], steps' + 1, by omega, .step hparent' rfl ht, ?_⟩
    rw [Expr.render, String.append_assoc]
    exact hspells.append_of_head hperiodName (toList_append_of_toList rfl) rfl
  | _, _, _, .call hcallee hcall hparts hsep henc, hlex => by
    obtain ⟨us, steps', hle, hcallee', hspells⟩ :=
      hcallee.exists_spells fun t ht => hlex t (List.mem_append_left _ ht)
    obtain ⟨vs, hpath, hcallSpells⟩ := hcallee'.exists_spells_call hspells hcall
      (List.forall_mem_map.2 fun p hp => (hparts p hp).exists_spells fun t ht =>
        hlex t (List.mem_append_right _
          (henc.subset (subset_of_separated hsep (List.mem_map_of_mem hp) ht))))
    exact ⟨vs, steps', hle, hpath, hcallSpells⟩
  | _, _, _, .periodCall hcallee hcall hperiod hparts hsep henc, hlex => by
    obtain ⟨us, steps', hle, hcallee', hspells⟩ :=
      hcallee.exists_spells fun t ht => hlex t (List.mem_append_left _ ht)
    obtain ⟨vs, hpath, hcallSpells⟩ := hcallee'.exists_spells_call hspells hcall
      (List.forall_mem_map.2 fun p hp => (hparts p hp).exists_spells fun t ht =>
        hlex t (List.mem_append_right _ (List.mem_cons_of_mem _
          (henc.subset (subset_of_separated hsep (List.mem_map_of_mem hp) ht)))))
    exact ⟨vs, steps', by omega, hpath, hcallSpells⟩

end

/-- A comparison is rendered as its two sides, with the symbol and blanks between them. -/
theorem render_comparison (left : Expr) (op : Comparator) (right : Expr) :
    (Expr.comparison left op right).render =
      left.render ++ (" " ++ op.symbol ++ " ") ++ right.render := by
  simp only [Expr.render, String.append_assoc]

/-- A chain of two operands is rendered as these, with the connector and blanks between them. -/
theorem render_pair (op : Connector) (left right : Expr) :
    (Expr.chain op [left, right]).render =
      left.render ++ (" " ++ op.symbol ++ " ") ++ right.render := by
  simp only [Expr.render, Expr.renderAll, String.intercalate_cons_cons,
    String.intercalate_singleton]

/-- A chain with one more operand is rendered with that behind the connector. -/
theorem render_concat (op : Connector) {operands : List Expr} (h : operands ≠ []) (right : Expr) :
    (Expr.chain op (operands ++ [right])).render =
      (Expr.chain op operands).render ++ (" " ++ op.symbol ++ " ") ++ right.render := by
  have hne : operands.map Expr.render ≠ [] := by simpa using h
  simp only [Expr.render, renderAll_eq_map, List.map_append]
  rw [String.intercalate_append_of_ne_nil hne (by simp)]
  simp only [List.map_cons, List.map_nil, String.intercalate_singleton]

/-- A chain has operands. -/
theorem Chain.operands_ne_nil {depth changes : Nat} {op : Connector} {operands : List Expr}
    (h : Chain limit depth ts changes op operands) : operands ≠ [] := by
  cases h <;> simp

mutual

/-- **A comparison or group is spelled by its canonical text.** -/
theorem Atom.exists_spells {depth : Nat} : ∀ {ts : List Token} {e : Expr},
    Atom limit depth ts e → (∀ t ∈ ts, t.word.IsLexeme) →
      ∃ us, Atom limit depth us e ∧ SpellsValue e.render us
  | _, _, @Atom.comparison _ _ ts us t op left right hleft ht hright, hlex => by
    obtain ⟨vs, hleft', hvs⟩ := hleft.exists_spells fun t ht => hlex t (List.mem_append_left _ ht)
    obtain ⟨ws, hright', hws⟩ := hright.exists_spells fun t ht =>
      hlex t (List.mem_append_right _ (List.mem_cons_of_mem _ ht))
    rw [render_comparison]
    exact ⟨_, .comparison hleft' rfl hright', hvs.comparator hws op⟩
  | _, _, .group hdepth hcondition henc, hlex => by
    obtain ⟨us, hcondition', hus⟩ := hcondition.exists_spells fun t ht => hlex t (henc.subset ht)
    have hspells : Spells (.punct .closeParen) (Expr.group _).render _ :=
      hus.enclosed .openParen (by simp)
    exact ⟨_, .group hdepth hcondition' (enclosed_mark _ _ us), hspells.mono fun _ _ => rfl⟩

/-- **A chain is spelled by its canonical text.** -/
theorem Chain.exists_spells {depth : Nat} : ∀ {ts : List Token} {changes : Nat} {op : Connector}
    {operands : List Expr}, Chain limit depth ts changes op operands →
      (∀ t ∈ ts, t.word.IsLexeme) → ∃ us, Chain limit depth us changes op operands ∧
        SpellsValue (Expr.chain op operands).render us
  | _, _, op, _, .pair hleft ht hright, hlex => by
    obtain ⟨vs, hleft', hvs⟩ := hleft.exists_spells fun t ht => hlex t (List.mem_append_left _ ht)
    obtain ⟨ws, hright', hws⟩ := hright.exists_spells fun t ht =>
      hlex t (List.mem_append_right _ (List.mem_cons_of_mem _ ht))
    rw [render_pair]
    exact ⟨_, .pair hleft' rfl hright', hvs.connector hws op⟩
  | _, _, op, _, .same hchain ht hright, hlex => by
    obtain ⟨vs, hchain', hvs⟩ := hchain.exists_spells fun t ht => hlex t (List.mem_append_left _ ht)
    obtain ⟨ws, hright', hws⟩ := hright.exists_spells fun t ht =>
      hlex t (List.mem_append_right _ (List.mem_cons_of_mem _ ht))
    rw [render_concat op hchain.operands_ne_nil]
    exact ⟨_, .same hchain' rfl hright', hvs.connector hws op⟩
  | _, _, op, _, .change hchain hop ht hright, hlex => by
    obtain ⟨vs, hchain', hvs⟩ := hchain.exists_spells fun t ht => hlex t (List.mem_append_left _ ht)
    obtain ⟨ws, hright', hws⟩ := hright.exists_spells fun t ht =>
      hlex t (List.mem_append_right _ (List.mem_cons_of_mem _ ht))
    rw [render_pair]
    exact ⟨_, .change hchain' hop rfl hright', hvs.connector hws op⟩

/-- **The canonical text of a condition spells the condition,** if it was made of lexemes. -/
theorem Condition.exists_spells {depth : Nat} : ∀ {ts : List Token} {e : Expr},
    Condition limit depth ts e → (∀ t ∈ ts, t.word.IsLexeme) →
      ∃ us, Condition limit depth us e ∧ SpellsValue e.render us
  | _, _, .atom hatom, hlex => by
    obtain ⟨us, hatom', hus⟩ := hatom.exists_spells hlex
    exact ⟨us, .atom hatom', hus⟩
  | _, _, .chain hchain hchanges, hlex => by
    obtain ⟨us, hchain', hus⟩ := hchain.exists_spells hlex
    exact ⟨us, .chain hchain' hchanges, hus⟩

end

end FilterQuery.Grammar
