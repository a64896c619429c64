import FilterQuery.Proofs.Evaluation.Passes
import FilterQuery.Proofs.Grammar.Language
import FilterQuery.Proofs.Grammar.Parallel
import FilterQuery.Proofs.RoundTrip
import FilterQuery.Proofs.Token.Respelling
import Mathlib.Data.List.Chain
import Mathlib.Logic.Relation

/-!
# Proofs/Spelling — layout and synonyms make no difference

The parser sees of its tokens what `Alike` says, so a text with other white space between the same
lexemes has the same tree, or the same errors at the same tokens (`Query.exists_spread`).  And it
does not see how a comparator is spelled (`Query.exists_respelled`): in a condition no comparator
comes right after another one (`Condition.isChain`), so none can run together with the next.
-/

namespace FilterQuery

open List (Forall₂)

/-! ## The same words elsewhere -/

/-- The same cause, at the tokens of one place in two lists. -/
def Moved (ts us : List Token) (x y : SyntaxError) : Prop :=
  y.cause = x.cause ∧ ∃ (i : Nat) (t u : Token), ts[i]? = some t ∧ us[i]? = some u ∧
    x.offset = t.offset ∧ y.offset = u.offset

/-- The tokens of one place in two lists. -/
def Opposite (ts us : List Token) (t u : Token) : Prop :=
  ∃ i : Nat, ts[i]? = some t ∧ us[i]? = some u

/-- Streams of one length pair their tokens position by position. -/
theorem forall₂_opposite {ts us : List Token} (h : ts.length = us.length) :
    Forall₂ (Opposite ts us) ts us :=
  List.forall₂_iff_get.2 ⟨h, fun i hi hi' =>
    ⟨i, List.getElem?_eq_getElem hi, List.getElem?_eq_getElem hi'⟩⟩

/-- Opposite tokens of two streams with the same words say the same word. -/
theorem Opposite.word {ts us : List Token} (hwords : us.map Token.word = ts.map Token.word)
    {t u : Token} (h : Opposite ts us t u) : u.word = t.word := by
  obtain ⟨i, ht, hu⟩ := h
  have hi := congrArg (fun ws => ws[i]?) hwords
  simp only [List.getElem?_map, ht, hu, Option.map_some] at hi
  exact Option.some.inj hi

/-- A cause found at a token moves with the token to the opposite one. -/
theorem moved_of_opposite {ts us : List Token} {t u : Token} (h : Opposite ts us t u)
    (cause : SyntaxError.Cause) : Moved ts us ⟨t.offset, cause⟩ ⟨u.offset, cause⟩ := by
  obtain ⟨i, ht, hu⟩ := h
  exact ⟨rfl, i, t, u, ht, hu, rfl, rfl⟩

/-- **Tokens with the same words are alike,** each and the one of its place. -/
theorem alike_of_words {ts us : List Token} {m n : Nat}
    (h : us.map Token.word = ts.map Token.word) :
    Grammar.Alike (Opposite (ts ++ [Grammar.endToken m]) (us ++ [Grammar.endToken n]))
      (Moved (ts ++ [Grammar.endToken m]) (us ++ [Grammar.endToken n])) m n := by
  have hlength : us.length = ts.length := by simpa using congrArg List.length h
  have hwords : (us ++ [Grammar.endToken n]).map Token.word =
      (ts ++ [Grammar.endToken m]).map Token.word := by
    rw [List.map_append, List.map_append, h]
    rfl
  exact
    { kind := fun ht => (congrArg Prod.fst (ht.word hwords)).symm
      lexeme := fun ht _ => (congrArg Prod.snd (ht.word hwords)).symm
      endToken := by
        refine ⟨ts.length, List.getElem?_concat_length, ?_⟩
        rw [← hlength]
        exact List.getElem?_concat_length
      unexpected := fun {t u} what ht => by
        have hkind : u.kind = t.kind := congrArg Prod.fst (ht.word hwords)
        have hlexeme : u.lexeme = t.lexeme := congrArg Prod.snd (ht.word hwords)
        rw [Grammar.unexpected, Grammar.unexpected, hkind, hlexeme]
        exact moved_of_opposite ht _
      error := fun cause ht => moved_of_opposite ht cause }

/-- **The words decide the reading.** Streams that say the same words give the same tree, or the
same causes, each moved to the opposite token. -/
theorem ofTokens_of_words {ts us : List Token} {m n : Nat}
    (h : us.map Token.word = ts.map Token.word) :
    Agrees (Forall₂ (Moved (ts ++ [Grammar.endToken m]) (us ++ [Grammar.endToken n]))) Eq
      (Expr.ofTokens (ts ++ [Grammar.endToken m]))
      (Expr.ofTokens (us ++ [Grammar.endToken n])) := by
  refine Grammar.parse_parallel (T := Opposite _ _) ?_ (forall₂_opposite ?_) .nil
  · rw [finish_ofTokens, finish_ofTokens]
    exact alike_of_words h
  · have hlength : us.length = ts.length := by simpa using congrArg List.length h
    simp [Parser.ofTokens, hlength]

namespace Query

/-- A query is refused with the mistakes that its tokens are refused with. -/
theorem parse_eq_error_iff (q : Query) {errors : List SyntaxError} :
    q.parse = .error (.parse errors) ↔ Expr.ofTokens q.tokens = .error errors := by
  rw [parse]
  cases Expr.ofTokens q.tokens with
  | ok e => simp [Except.mapError]
  | error es => simp [Except.mapError]

/-- **Other white space between the lexemes makes no difference.** -/
theorem exists_spread (q : Query) {pieces : List (List Char × String)} {trail : List Char}
    (hspaced : Spaced pieces trail) (hpieces : pieces.map Prod.snd = q.body.map Token.lexeme) :
    ∃ q' : Query, q'.source = String.ofList (weave pieces trail) ∧
      q'.tokens.map Token.word = q.tokens.map Token.word ∧
      Agrees (Forall₂ (Moved q.tokens q'.tokens)) Eq (Expr.ofTokens q.tokens)
        (Expr.ofTokens q'.tokens) := by
  obtain ⟨-, -, -, -, hlexes⟩ := q.exists_tokens_eq
  have hpieces' : pieces.map Prod.snd = (q.body.map Token.word).map Prod.snd := by
    rw [hpieces, List.map_map]
    rfl
  have hwoven := Lexes.of_woven hlexes.isLexeme hspaced hpieces'
  obtain ⟨us, eof, htokens, -, hwords⟩ := Cursor.tokens_of_lexes hwoven rfl 0
  have htext : Token.ofText (String.ofList (weave pieces trail)) = .ok (us ++ [eof]) := by
    rw [Token.ofText, Cursor.start, String.toList_ofList, htokens]
  let q' : Query := ⟨String.ofList (weave pieces trail), us ++ [eof], htext⟩
  have hbody : q'.body = us := List.dropLast_concat
  refine ⟨q', rfl, ?_, ?_⟩
  · rw [tokens_eq_body q', tokens_eq_body q, List.map_append, List.map_append, hbody, hwords]
    rfl
  · rw [tokens_eq_body q', tokens_eq_body q]
    exact ofTokens_of_words (hbody ▸ hwords)

end Query

/-! ## Comparators stand alone -/

namespace Grammar

open FilterQuery.Rule (Separated)

variable {limit : Nat} {P : Token → Prop}

/-- What holds of the commas and of every part holds of the whole separated list. -/
theorem forall_mem_separated {parts : List (List Token)} {inner : List Token}
    (h : Separated isComma parts inner) (hcomma : ∀ t, isComma t = true → P t)
    (hparts : ∀ part ∈ parts, ∀ t ∈ part, P t) : ∀ t ∈ inner, P t := by
  induction h with
  | nil => simp
  | single part => exact hparts part List.mem_cons_self
  | cons hsep _ _ ih =>
    obtain ⟨hpart, hrest⟩ := List.forall_mem_cons.1 hparts
    exact List.forall_mem_append.2 ⟨hpart, List.forall_mem_cons.2 ⟨hcomma _ hsep, ih hrest⟩⟩

/-- What holds of punctuation and of the tokens inside holds of everything between the brackets and
of the brackets. -/
theorem Enclosed.forall_mem {opener closer : Punct} {inner ts : List Token}
    (h : Enclosed opener closer inner ts) (hpunct : ∀ t p, t.kind = .punct p → P t)
    (hinner : ∀ t ∈ inner, P t) : ∀ t ∈ ts, P t := by
  obtain ⟨o, c, ho, hc, rfl⟩ := h
  exact List.forall_mem_cons.2 ⟨hpunct o _ ho, List.forall_mem_append.2
    ⟨hinner, List.forall_mem_singleton.2 (hpunct c _ hc)⟩⟩

/-- The token is no comparator. -/
def NotComparator (t : Token) : Prop :=
  ∀ op, t.kind ≠ .comparator op

/-- A token of another kind is no comparator. -/
theorem notComparator_of_kind {t : Token} {k : Token.Kind} (h : t.kind = k)
    (hk : ∀ op, k ≠ .comparator op) : NotComparator t :=
  fun op => h ▸ hk op

theorem notComparator_punct (t : Token) (p : Punct) (h : t.kind = .punct p) : NotComparator t :=
  notComparator_of_kind h (by simp)

theorem notComparator_comma (t : Token) (h : isComma t = true) : NotComparator t :=
  notComparator_punct t .comma (of_decide_eq_true h)

mutual

/-- **No comparator stands in an operand**, whatever literals, links and arguments it is made of. -/
theorem Operand.notComparator {depth : Nat} : ∀ {ts : List Token} {e : Expr},
    Operand limit depth ts e → ∀ t ∈ ts, NotComparator t
  | _, _, .literal ht _ =>
    List.forall_mem_singleton.2 (notComparator_of_kind ht (by simp))
  | _, _, .array _ hparts hsep henc =>
    henc.forall_mem notComparator_punct (forall_mem_separated hsep notComparator_comma
      (List.forall_mem_map.2 fun p hp => (hparts p hp).notComparator))
  | _, _, .object _ hkeyed hvalues hsep henc _ =>
    henc.forall_mem notComparator_punct (forall_mem_separated hsep notComparator_comma
      (List.forall_mem_map.2 fun w hw => List.forall_mem_cons.2
        ⟨notComparator_of_kind (hkeyed w hw).key (by simp), List.forall_mem_cons.2
          ⟨notComparator_punct _ _ (hkeyed w hw).colon, (hvalues w hw).notComparator⟩⟩))
  | _, _, .path _ hpath _ => hpath.notComparator

/-- No comparator stands in a path either. -/
theorem Path.notComparator {depth : Nat} : ∀ {steps : Nat} {ts : List Token} {e : Expr},
    Path limit depth ts steps e → ∀ t ∈ ts, NotComparator t
  | _, _, _, .name ht => List.forall_mem_singleton.2 (notComparator_of_kind ht (by simp))
  | _, _, _, .step hparent hperiod ht => List.forall_mem_append.2
    ⟨hparent.notComparator, List.forall_mem_cons.2 ⟨notComparator_punct _ _ hperiod,
      List.forall_mem_singleton.2 (notComparator_of_kind ht (by simp))⟩⟩
  | _, _, _, .call hcallee _ hparts hsep henc => List.forall_mem_append.2
    ⟨hcallee.notComparator, henc.forall_mem notComparator_punct
      (forall_mem_separated hsep notComparator_comma
        (List.forall_mem_map.2 fun p hp => (hparts p hp).notComparator))⟩
  | _, _, _, .periodCall hcallee _ hperiod hparts hsep henc => List.forall_mem_append.2
    ⟨hcallee.notComparator, List.forall_mem_cons.2 ⟨notComparator_punct _ _ hperiod,
      henc.forall_mem notComparator_punct (forall_mem_separated hsep notComparator_comma
        (List.forall_mem_map.2 fun p hp => (hparts p hp).notComparator))⟩⟩

end

/-- Not both of the tokens are comparators. -/
def Apart (t u : Token) : Prop :=
  NotComparator t ∨ NotComparator u

/-- Where no token is a comparator, no two neighbours are. -/
theorem isChain_of_notComparator {ts : List Token} (h : ∀ t ∈ ts, NotComparator t) :
    ts.IsChain Apart := by
  induction ts with
  | nil => exact .nil
  | cons t ts ih =>
    obtain ⟨ht, hts⟩ := List.forall_mem_cons.1 h
    exact List.isChain_cons.2 ⟨fun _ _ => Or.inl ht, ih hts⟩

/-- Around a token that is no comparator, or between tokens that are none, chains join. -/
theorem isChain_append_cons {ts us : List Token} {t : Token} (hts : ts.IsChain Apart)
    (hus : us.IsChain Apart) (hlast : ∀ x ∈ ts.getLast?, Apart x t)
    (hhead : ∀ y ∈ us.head?, Apart t y) : (ts ++ t :: us).IsChain Apart := by
  refine List.isChain_append.2 ⟨hts, List.isChain_cons.2 ⟨hhead, hus⟩, fun x hx y hy => ?_⟩
  obtain rfl : t = y := Option.some.inj hy
  exact hlast x hx

/-- A connector keeps the two sides apart, so the joined stream has no neighbouring comparators. -/
theorem isChain_append_connector {ts us : List Token} {t : Token} {op : Connector}
    (hts : ts.IsChain Apart) (ht : t.kind = .connector op) (hus : us.IsChain Apart) :
    (ts ++ t :: us).IsChain Apart :=
  have hnot : NotComparator t := notComparator_of_kind ht (by simp)
  isChain_append_cons hts hus (fun _ _ => Or.inr hnot) fun _ _ => Or.inl hnot

mutual

/-- In a comparison or a group no two comparators stand side by side. -/
theorem Atom.isChain {depth : Nat} : ∀ {ts : List Token} {e : Expr},
    Atom limit depth ts e → ts.IsChain Apart
  | _, _, .comparison hleft _ hright =>
    isChain_append_cons (isChain_of_notComparator hleft.notComparator)
      (isChain_of_notComparator hright.notComparator)
      (fun x hx => Or.inl (hleft.notComparator x (List.mem_of_mem_getLast? hx)))
      fun y hy => Or.inr (hright.notComparator y (List.mem_of_mem_head? hy))
  | _, _, .group _ hinner henc => by
    obtain ⟨o, c, ho, hc, rfl⟩ := henc
    have hopen := notComparator_punct o _ ho
    have hclose := notComparator_punct c _ hc
    exact List.isChain_cons.2 ⟨fun _ _ => Or.inl hopen,
      isChain_append_cons hinner.isChain .nil (fun _ _ => Or.inr hclose) (by simp)⟩

/-- A chain joins such atoms by connectors, so the same holds of it. -/
theorem Chain.isChain {depth : Nat} : ∀ {ts : List Token} {changes : Nat} {op : Connector}
    {operands : List Expr}, Chain limit depth ts changes op operands → ts.IsChain Apart
  | _, _, _, _, .pair hleft ht hright => isChain_append_connector hleft.isChain ht hright.isChain
  | _, _, _, _, .same hchain ht hright => isChain_append_connector hchain.isChain ht hright.isChain
  | _, _, _, _, .change hchain _ ht hright =>
    isChain_append_connector hchain.isChain ht hright.isChain

/-- **In a condition no comparator comes right after another one.** -/
theorem Condition.isChain {depth : Nat} : ∀ {ts : List Token} {e : Expr},
    Condition limit depth ts e → ts.IsChain Apart
  | _, _, .atom hatom => hatom.isChain
  | _, _, .chain hchain _ => hchain.isChain

end

end Grammar

/-! ## Synonyms -/

/-- The synonyms among the spellings of a comparator.  The comparators of order have none. -/
def Comparator.synonyms : Comparator → List String
  | equal => ["=", "==", "==="]
  | notEqual => ["!=", "!=="]
  | less | greater | lessEqual | greaterEqual => []

/-- One comparator of a text that splits into tokens is spelled in another way. -/
inductive Respelled (text : String) : String → Prop where
  | intro {ts : List Token} {t : Token} {op : Comparator} {lexeme : String}
      (pre post : List Char) : Token.ofText text = .ok ts → t ∈ ts →
      t.kind = .comparator op → lexeme ∈ op.synonyms →
      text.toList = pre ++ t.lexeme.toList ++ post → Text.byteLength pre = t.offset →
      Respelled text (String.ofList (pre ++ lexeme.toList ++ post))

namespace Lexer

/-- A word is never read as a comparator. -/
theorem wordKind_ne_comparator (word : List Char) (op : Comparator) :
    wordKind word ≠ .comparator op := by
  unfold wordKind
  repeat' split
  all_goals simp

/-- **The first character of a comparator is that of its canonical spelling.** -/
theorem head?_symbol_of_scan {x : Char} {xs : List Char} {op : Comparator} {n : Nat}
    (h : scan (x :: xs) = some (.comparator op, n)) : op.symbol.toList.head? = some x := by
  obtain ⟨p, hkind⟩ | ⟨op', hkind, hhead⟩ | ⟨hkind, -⟩ | hkind | ⟨-, word, hkind⟩ := kind_of_scan h
  · cases hkind
  · cases hkind
    exact hhead
  · cases hkind
  · cases hkind
  · exact absurd hkind.symm (wordKind_ne_comparator word op)

/-- A scanned comparator begins with the first character of its own symbol. -/
theorem exists_eq_cons_of_scan {lexeme rest : List Char} {op : Comparator} {c : Char}
    (h : scan (lexeme ++ rest) = some (.comparator op, lexeme.length))
    (hc : op.symbol.toList.head? = some c) : ∃ xs, lexeme = c :: xs := by
  cases lexeme with
  | nil => exact absurd (scan_pos h) (Nat.lt_irrefl 0)
  | cons x xs =>
    rw [head?_symbol_of_scan h] at hc
    exact ⟨xs, by rw [Option.some.inj hc]⟩

end Lexer

/-- **A synonym is a lexeme,** and it starts as the canonical spelling does. -/
theorem Comparator.synonym {op : Comparator} {lexeme : String} (h : lexeme ∈ op.synonyms) :
    Word.IsLexeme (.comparator op, lexeme) ∧ ∃ c cs, (c = '=' ∨ c = '!') ∧
      lexeme.toList = c :: cs ∧ op.symbol.toList.head? = some c := by
  cases op with
  | equal =>
    simp only [synonyms, List.mem_cons, List.not_mem_nil, or_false] at h
    rcases h with rfl | rfl | rfl <;> exact ⟨rfl, '=', _, Or.inl rfl, rfl, rfl⟩
  | notEqual =>
    simp only [synonyms, List.mem_cons, List.not_mem_nil, or_false] at h
    rcases h with rfl | rfl <;> exact ⟨rfl, '!', _, Or.inr rfl, rfl, rfl⟩
  | _ => exact absurd h List.not_mem_nil

namespace Cursor

/-- The tokens of a text up to one of them, and from there on. -/
theorem exists_emits_of_mem {c : Cursor} {ts : List Token} (h : c.tokens = .ok ts) {t : Token}
    (ht : t ∈ ts) (hkind : t.kind ≠ .endOfInput) : ∃ us vs d e, ts = us ++ t :: vs ∧
      Emits c us d ∧ d.next = (.ok t, e) ∧ e.tokens = .ok vs := by
  fun_induction tokens c generalizing ts with
  | case1 c e _ hnext => cases h
  | case2 c u d hnext hu =>
    cases h
    obtain rfl := List.mem_singleton.1 ht
    exact absurd hu hkind
  | case3 c u d hnext hu _ ih =>
    rcases hmore : d.tokens with e | more
    · rw [hmore] at h
      cases h
    · rw [hmore] at h
      cases h
      rcases List.mem_cons.1 ht with rfl | ht
      · exact ⟨[], more, c, d, rfl, .nil c, hnext, hmore⟩
      · obtain ⟨us, vs, e, e', rfl, hemits, hlast, hrest⟩ := ih hmore ht
        exact ⟨u :: us, vs, e, e', rfl, .cons hnext hu hemits, hlast, hrest⟩

end Cursor

/-- A text is cut at a byte in one way only. -/
theorem byteLength_inj {pre pre' post post' : List Char} (h : pre ++ post = pre' ++ post')
    (hbytes : Text.byteLength pre = Text.byteLength pre') : pre = pre' ∧ post = post' := by
  rcases List.append_eq_append_iff.1 h with ⟨more, rfl, rfl⟩ | ⟨more, rfl, rfl⟩
  · rw [Text.byteLength_append] at hbytes
    obtain rfl := (Text.byteLength_eq_zero_iff more).1 (by omega)
    simp
  · rw [Text.byteLength_append] at hbytes
    obtain rfl := (Text.byteLength_eq_zero_iff more).1 (by omega)
    simp

/-- The tokens have the same kind, and the same lexeme if they are names or literals. -/
def SameReading (t u : Token) : Prop :=
  t.kind = u.kind ∧ (t.kind = .segment ∨ (∃ l, t.kind = .literal l) → t.lexeme = u.lexeme)

/-- Tokens that say the same word are read alike. -/
theorem sameReading_of_word {t u : Token} (h : u.word = t.word) : SameReading t u :=
  ⟨(congrArg Prod.fst h).symm, fun _ => (congrArg Prod.snd h).symm⟩

/-- Streams with the same words are read alike position by position. -/
theorem forall₂_sameReading {ts us : List Token} (h : us.map Token.word = ts.map Token.word) :
    Forall₂ SameReading ts us := by
  have hlength : ts.length = us.length := by simpa using congrArg List.length h.symm
  exact (forall₂_opposite hlength).imp fun t u ht => sameReading_of_word (ht.word h)

/-- **How its comparators are spelled makes no difference to the tree.** -/
theorem ofTokens_of_sameReading {ts us : List Token} (h : Forall₂ SameReading ts us) {e : Expr}
    (he : Expr.ofTokens ts = .ok e) : Expr.ofTokens us = .ok e := by
  have halike : Grammar.Alike SameReading (fun _ _ => True) (Parser.ofTokens ts).finish
      (Parser.ofTokens us).finish :=
    ⟨fun ht => ht.1, fun ht => ht.2, ⟨rfl, fun _ => rfl⟩, fun _ _ => trivial, fun _ _ => trivial⟩
  have hagrees := Grammar.parse_parallel (p := .ofTokens ts) (q := .ofTokens us) halike h .nil
  rw [Expr.ofTokens] at he ⊢
  rw [he] at hagrees
  generalize (Parser.ofTokens us).parse.1 = x at hagrees
  cases hagrees with
  | ok heq => rw [heq]

/-- The same words come off a text wherever it stands. -/
theorem Cursor.tokens_shift {m : Nat} {cs : List Char} {ts : List Token}
    (h : (Cursor.mk m cs).tokens = .ok ts) (n : Nat) :
    ∃ us, (Cursor.mk n cs).tokens = .ok us ∧ us.map Token.word = ts.map Token.word := by
  obtain ⟨vs, eof, rfl, -, hlexes⟩ := tokens_eq_ok _ h
  obtain ⟨us, eof', htokens, -, hwords⟩ := tokens_of_lexes hlexes rfl n
  obtain ⟨_, hvs, -, -⟩ := laid_of_tokens _ h
  obtain ⟨_, hus, -, -⟩ := laid_of_tokens _ htokens
  obtain ⟨-, heof⟩ := List.append_inj' hvs rfl
  obtain ⟨-, heof'⟩ := List.append_inj' hus rfl
  refine ⟨us ++ [eof'], htokens, ?_⟩
  rw [List.map_append, List.map_append, hwords, heof, heof']
  rfl

/-- A text with a comparator spelled in another way has the same tokens but for this one, unless the
comparator runs together with what follows it. -/
theorem Token.ofText_respelled {text lexeme : String} {us vs : List Token} {place after : Cursor}
    {t : Token} {op : Comparator} (hemits : Cursor.Emits (.start text) us place)
    (hnext : place.next = (.ok t, after)) (hkind : t.kind = .comparator op)
    (hafter : after.tokens = .ok vs) (hsynonym : lexeme ∈ op.synonyms)
    (hfollow : ∀ d ∈ after.rest.head?, d ≠ '=') :
    ∃ pre post, text.toList = pre ++ (t.lexeme.toList ++ post) ∧ Text.byteLength pre = t.offset ∧
      ∃ t' vs', ofText (String.ofList (pre ++ (lexeme.toList ++ post))) = .ok (us ++ t' :: vs') ∧
        t'.kind = t.kind ∧ vs'.map Token.word = vs.map Token.word := by
  obtain ⟨blanks, hblank, -, hoffset, -, hrest, hscan⟩ :=
    Cursor.next_stands hnext (by simp [hkind])
  obtain ⟨hlexeme, c, cs, hc, hchars, hhead⟩ := Comparator.synonym hsynonym
  obtain ⟨xs, hxs⟩ : ∃ xs, t.lexeme.toList = c :: xs :=
    Lexer.exists_eq_cons_of_scan (hkind ▸ hscan) hhead
  obtain ⟨pre, hpre, hplace, hemits'⟩ := hemits.replace
    (blanks ++ (lexeme.toList ++ after.rest)) fun front kind n hfront hn => by
      rw [hrest, hxs, List.cons_append, ← List.append_assoc] at hfront
      rw [hchars, List.cons_append, ← List.append_assoc]
      exact Lexer.scan_congr hc hfront (by rw [List.length_append]; omega) _
  have hscan' : Lexer.scan (lexeme.toList ++ after.rest) =
      some (.comparator op, lexeme.toList.length) :=
    Lexer.scan_append hlexeme fun d hd => by simpa [Token.Kind.endsBefore] using hfollow d hd
  have hnext' := Cursor.next_of_stands place.offset hblank hscan'
  obtain ⟨vs', hvs', hwords⟩ := Cursor.tokens_shift hafter
    (place.offset + Text.byteLength blanks + Text.byteLength lexeme.toList)
  refine ⟨pre ++ blanks, after.rest, ?_, ?_,
    ⟨.comparator op, lexeme, place.offset + Text.byteLength blanks⟩, vs', ?_, hkind.symm, hwords⟩
  · have htext : text.toList = pre ++ place.rest := hpre
    rw [htext, hrest, List.append_assoc]
  · rw [Text.byteLength_append, hoffset, hplace, Cursor.start, Nat.zero_add]
  · rw [ofText, Cursor.start, String.toList_ofList, List.append_assoc]
    exact hemits'.tokens_eq ((Cursor.tokens_of_next hnext' (by simp)).trans (by rw [hvs']; rfl))

/-- What comes right after a comparator in a query does not go on with it. -/
theorem Cursor.head?_ne_equal {c : Cursor} {vs : List Token} (h : c.tokens = .ok vs)
    (hvs : ∀ v us, vs = v :: us → Grammar.NotComparator v) : ∀ d ∈ c.rest.head?, d ≠ '=' := by
  rintro d hd rfl
  obtain ⟨m, cs⟩ := c
  cases cs with
  | nil => cases hd
  | cons x cs =>
    obtain rfl : x = '=' := Option.some.inj hd
    have hscan := Lexer.scan_equal cs
    have hskip := skipBlanks_of_scan m hscan
    have hnext := next_of_scan (c := ⟨m, '=' :: cs⟩) (by rw [hskip]; exact hscan)
    rw [tokens_of_next hnext (by simp)] at h
    generalize (Cursor.drop _ _).tokens = rest at h
    cases rest with
    | error e => cases h
    | ok us => exact hvs _ us (Except.ok.inj h).symm .equal rfl

namespace Query

/-- No two comparators come one right after the other in a query that parses. -/
theorem apart_of_parse (q : Query) {e : Expr} (h : q.parse = .ok e) {us vs : List Token}
    {t u : Token} (htokens : q.tokens = us ++ t :: u :: vs) : Grammar.Apart t u := by
  have heof : Grammar.NotComparator (Grammar.endToken q.source.utf8ByteSize) :=
    Grammar.notComparator_of_kind (k := .endOfInput) rfl (by simp)
  have hchain := Grammar.isChain_append_cons (q.parse_eq_ok_iff.1 h).isChain .nil
    (fun _ _ => Or.inr heof) (by simp)
  rw [← tokens_eq_body, htokens] at hchain
  exact (List.isChain_append_cons_cons.1 hchain).2.1

/-- **A synonym for one comparator makes no difference.** -/
theorem exists_respelled (q : Query) {e : Expr} (h : q.parse = .ok e) {text : String}
    (htext : Respelled q.source text) : ∃ q' : Query, q'.source = text ∧ q'.parse = .ok e := by
  obtain @⟨ts, t, op, lexeme, pre, post, hts, ht, hkind, hsynonym, hsource, hpre⟩ := htext
  obtain rfl : q.tokens = ts := Except.ok.inj (q.ofText_source.symm.trans hts)
  obtain ⟨us, vs, place, after, htokens, hemits, hnext, hafter⟩ :=
    Cursor.exists_emits_of_mem q.ofText_source ht (by simp [hkind])
  have hfollow := Cursor.head?_ne_equal hafter fun v more hv =>
    (q.apart_of_parse h (hv ▸ htokens)).resolve_left fun hnot => hnot op hkind
  obtain ⟨pre', post', hsource', hpre', t', vs', htext', hkind', hwords⟩ :=
    Token.ofText_respelled hemits hnext hkind hafter hsynonym hfollow
  -- the offset tells where the comparator stands
  rw [List.append_assoc, hsource'] at hsource
  obtain ⟨rfl, hrest⟩ := byteLength_inj hsource (hpre'.trans hpre.symm)
  obtain rfl := List.append_cancel_left hrest
  rw [List.append_assoc]
  refine ⟨⟨_, us ++ t' :: vs', htext'⟩, rfl, ?_⟩
  have hsame : Forall₂ SameReading q.tokens (us ++ t' :: vs') := by
    rw [htokens]
    refine List.rel_append (forall₂_sameReading rfl) (.cons ⟨hkind'.symm, ?_⟩
      (forall₂_sameReading hwords))
    rw [hkind]
    simp
  rw [parse, Rule.mapError_eq_ok_iff] at h ⊢
  exact ofTokens_of_sameReading hsame h

/-- **Layout and spelling are insignificant.**  Take any text that splits into tokens, as a query
has.  The lexemes of the tokens in order, with some white space between any two of them and any
white space around them, are a text with the same words; it has the same tree, or fails with errors
for the same causes, each at the token that corresponds to the one blamed before.  And if the text
has a tree, every text that comes of it by replacing spellings of equality and of inequality with
synonyms, one after the other, has the same tree. -/
theorem layout_and_synonyms_insignificant (q : Query) :
    (∀ pieces trail, Spaced pieces trail → pieces.map Prod.snd = q.body.map Token.lexeme →
      ∃ q', ofText (String.ofList (weave pieces trail)) = .ok q' ∧
        q'.tokens.map Token.word = q.tokens.map Token.word ∧
        (∀ e, q.parse = .ok e → q'.parse = .ok e) ∧
        ∀ errors, q.parse = .error (.parse errors) → ∃ errors',
          q'.parse = .error (.parse errors') ∧
          Forall₂ (Moved q.tokens q'.tokens) errors errors') ∧
    ∀ e, q.parse = .ok e → ∀ text, Relation.ReflTransGen Respelled q.source text →
      ∃ q', ofText text = .ok q' ∧ q'.parse = .ok e := by
  constructor
  · intro pieces trail hspaced hpieces
    obtain ⟨q', hsource, hwords, hagrees⟩ := q.exists_spread hspaced hpieces
    refine ⟨q', hsource ▸ q'.ofText_source_eq, hwords, fun e he => ?_, fun errors herrors => ?_⟩
    · rw [parse, Rule.mapError_eq_ok_iff] at he ⊢
      rw [he] at hagrees
      generalize Expr.ofTokens q'.tokens = x at hagrees
      cases hagrees with
      | ok heq => rw [heq]
    · rw [parse_eq_error_iff] at herrors
      rw [herrors] at hagrees
      rcases hq' : Expr.ofTokens q'.tokens with errors' | e
      · rw [hq'] at hagrees
        cases hagrees with
        | error hmoved => exact ⟨errors', q'.parse_eq_error_iff.2 hq', hmoved⟩
      · rw [hq'] at hagrees
        cases hagrees
  · intro e he text htext
    suffices ∃ q' : Query, q'.source = text ∧ q'.parse = .ok e by
      obtain ⟨q', rfl, hparse⟩ := this
      exact ⟨q', q'.ofText_source_eq, hparse⟩
    induction htext with
    | refl => exact ⟨q, rfl, he⟩
    | tail _ hstep ih =>
      obtain ⟨q', rfl, hparse⟩ := ih
      exact q'.exists_respelled hparse hstep

/-- The lexemes of `memberQuery` with a line feed and spaces between them. -/
def memberPieces : List (List Char × String) :=
  [([], "a"), (['\n'], "."), ([' '], "b"), ([' ', ' '], "="), (['\t'], "1")]

theorem respelled_memberQuery : Respelled memberQuery.source "a.b === 1" := by
  have hmem : ⟨.comparator .equal, "=", 4⟩ ∈ memberQuery.tokens := by simp [memberQuery]
  have hsynonym : "===" ∈ Comparator.equal.synonyms := by simp [Comparator.synonyms]
  exact .intro "a.b ".toList " 1".toList memberQuery.ofText_source hmem rfl hsynonym rfl rfl

theorem spaced_memberPieces : Spaced memberPieces [' '] := by
  have hspace : Text.isBlank ' ' = true := by decide
  have hfeed : Text.isBlank '\n' = true := by decide
  have htab : Text.isBlank '\t' = true := by decide
  constructor <;> simp [memberPieces, hspace, hfeed, htab]

theorem memberQuery_spread_and_respelled :
    (∃ q', ofText "a\n. b  =\t1 " = .ok q' ∧ q'.parse = .ok memberExpr) ∧
      ∃ q', ofText "a.b === 1" = .ok q' ∧ q'.parse = .ok memberExpr := by
  obtain ⟨hspread, hrespelled⟩ := layout_and_synonyms_insignificant memberQuery
  obtain ⟨q', htext, -, hparse, -⟩ := hspread memberPieces [' '] spaced_memberPieces rfl
  exact ⟨⟨q', htext, hparse memberExpr parse_memberQuery⟩,
    hrespelled memberExpr parse_memberQuery _ (.single respelled_memberQuery)⟩

end Query

end FilterQuery
