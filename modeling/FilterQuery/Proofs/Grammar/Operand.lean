import FilterQuery.Proofs.Grammar.Derivation

/-!
# Proofs/Grammar/Operand — the reader of values reads what the grammar derives

`operand finish budget` and `Operand limit depth` meet where `depth + budget = limit`.  What is read
has a derivation (`operand_yields`), by induction on the budget; what has a derivation is read
(`Operand.apply`), by induction on the derivation, as long as no period and no argument list follows
that would be taken for a part of the value.
-/

namespace FilterQuery.Grammar

open FilterQuery.Rule (Separated Yields apply_bind_of_ok apply_bind_eq_ok_iff apply_pure_eq_ok_iff
  apply_throw_ne_ok)

variable {α : Type} (finish : Nat)

/-! ## Looking at the next token -/

/-- Looking at the token in front takes nothing. -/
theorem apply_current_bind {α : Type} (f : Token → Rule α) (s : List Token) :
    (current finish >>= f).apply s = (f (front finish s)).apply s := rfl

/-- Asking for a mark takes nothing. -/
theorem apply_atPunct_bind {α : Type} (p : Punct) (f : Bool → Rule α) (s : List Token) :
    (atPunct finish p >>= f).apply s = (f ((front finish s).kind = .punct p)).apply s := rfl

/-- Skipping takes one token. -/
theorem apply_skip_bind {α : Type} (f : Unit → Rule α) (s : List Token) :
    ((Rule.skip : Rule Unit) >>= f).apply s = (f ()).apply s.tail := rfl

theorem front_cons (t : Token) (s : List Token) : front finish (t :: s) = t := rfl

/-- A token that is not the end of input has been there. -/
theorem eq_front_cons {s : List Token} (h : (front finish s).kind ≠ .endOfInput) :
    s = front finish s :: s.tail := by
  cases s with
  | nil => exact absurd rfl h
  | cons t s => rfl

/-- Tokens whose first one is not the end of input are there. -/
theorem eq_front_cons_of_kind {s : List Token} {k : Token.Kind} (h : (front finish s).kind = k)
    (hk : k ≠ .endOfInput) : s = front finish s :: s.tail :=
  eq_front_cons finish (h ▸ hk)

/-- A token of the expected kind is taken. -/
theorem apply_expect_of_kind {kind : Token.Kind} {t : Token} (h : t.kind = kind) (s : List Token) :
    (expect finish kind).apply (t :: s) = (.ok t, s) := by
  rw [expect, apply_current_bind, front_cons, if_pos h]
  rfl

/-- What is enclosed starts with its opening bracket. -/
theorem front_append_of_enclosed {opener closer : Punct} {inner ts : List Token}
    (h : Enclosed opener closer inner ts) (rest : List Token) :
    (front finish (ts ++ rest)).kind = .punct opener := by
  obtain ⟨o, c, ho, -, rfl⟩ := h
  exact ho

/-- What was expected and taken is one token of the kind. -/
theorem expect_yields {kind : Token.Kind} (hkind : kind ≠ .endOfInput) :
    (expect finish kind).Yields fun ts t => ts = [t] ∧ t.kind = kind := by
  intro s t r h
  rw [expect, apply_current_bind] at h
  by_cases hk : (front finish s).kind = kind
  · rw [if_pos hk] at h
    obtain ⟨rfl, rfl⟩ := apply_pure_eq_ok_iff.1 h
    exact ⟨_, eq_front_cons_of_kind finish hk hkind, rfl, hk⟩
  · rw [if_neg hk] at h
    exact absurd h apply_throw_ne_ok

/-- A literal has a value exactly if its lexeme is a JSON text. -/
theorem decode_eq_ok_iff {t : Token} {v : Value} :
    decode t = .ok v ↔ Json.read t.lexeme = .ok v := by
  rw [decode, Rule.mapError_eq_ok_iff]

/-! ## Lists between brackets -/

/-- The tokens of items of which each is a `P`, with commas between and marks around them. -/
def Listed (P : List Token → α → Prop) (opener closer : Punct) (ts : List Token) (as : List α) :
    Prop :=
  ∃ (parts : List (List Token × α)) (inner : List Token), (∀ p ∈ parts, P p.1 p.2) ∧
    Separated isComma (parts.map Prod.fst) inner ∧ Enclosed opener closer inner ts ∧
    as = parts.map Prod.snd

/-- A list is closed at once, or has items with commas between them up to the closing bracket. -/
theorem listUpTo_eq (close : Punct) (item : Rule α) :
    listUpTo finish close item = (do
      if ← atPunct finish close then
        Rule.skip
        return []
      else
        let items ← Rule.list isComma item
        let t ← current finish
        if t.kind = .punct close then
          Rule.skip
          return items
        else throw (unexpected (.commaOr close) t)) := rfl

/-- **What is read as a list are items,** with commas between them and the closing bracket behind.
-/
theorem listUpTo_eq_ok {close : Punct} {item : Rule α} {P : List Token → α → Prop}
    (hitem : item.Yields P) {s r : List Token} {as : List α}
    (h : (listUpTo finish close item).apply s = (.ok as, r)) :
    ∃ (parts : List (List Token × α)) (inner : List Token) (c : Token), s = inner ++ c :: r ∧
      c.kind = .punct close ∧ (∀ p ∈ parts, P p.1 p.2) ∧
      Separated isComma (parts.map Prod.fst) inner ∧ as = parts.map Prod.snd := by
  rw [listUpTo_eq, apply_atPunct_bind] at h
  by_cases hclose : (front finish s).kind = .punct close
  · rw [if_pos (decide_eq_true hclose), apply_skip_bind] at h
    obtain ⟨rfl, rfl⟩ := apply_pure_eq_ok_iff.1 h
    exact ⟨[], [], front finish s, eq_front_cons_of_kind finish hclose (by simp), hclose, by simp,
      .nil, rfl⟩
  · rw [if_neg (by simpa using hclose)] at h
    obtain ⟨items, t, hitems, hrest⟩ := apply_bind_eq_ok_iff.1 h
    obtain ⟨inner, hs, parts, -, has, hparts, hsep⟩ := hitem.list _ _ _ hitems
    rw [apply_current_bind] at hrest
    by_cases hend : (front finish t).kind = .punct close
    · rw [if_pos hend, apply_skip_bind] at hrest
      obtain ⟨rfl, rfl⟩ := apply_pure_eq_ok_iff.1 hrest
      refine ⟨parts, inner, front finish t, ?_, hend, hparts, hsep, has⟩
      rw [hs, ← eq_front_cons_of_kind finish hend (by simp)]
    · rw [if_neg hend] at hrest
      exact absurd hrest apply_throw_ne_ok

/-- **What is read between brackets is a list of what the items are.** -/
theorem listed_of_apply {opener closer : Punct} {item : Rule α} {P : List Token → α → Prop}
    (hitem : item.Yields P) {s r : List Token} {as : List α}
    (hopener : (front finish s).kind = .punct opener)
    (h : (listUpTo finish closer item).apply s.tail = (.ok as, r)) :
    ∃ ts, s = ts ++ r ∧ Listed P opener closer ts as := by
  obtain ⟨parts, inner, c, hs, hc, hparts, hsep, has⟩ := listUpTo_eq_ok finish hitem h
  refine ⟨front finish s :: (inner ++ [c]), ?_, parts, inner, hparts, hsep,
    ⟨front finish s, c, hopener, hc, rfl⟩, has⟩
  rw [eq_front_cons_of_kind finish hopener (by simp), hs]
  simp [front_cons]

/-- What may follow a value: neither a period nor an argument list, which would go on with it. -/
def Follow (rest : List Token) : Prop :=
  (front finish rest).kind ≠ .punct .period ∧ (front finish rest).kind ≠ .punct .openParen

/-- Behind a path may come any token that would not go on with it. -/
theorem follow_of_kind {t : Token} {k : Token.Kind} (h : t.kind = k) (hperiod : k ≠ .punct .period)
    (hparen : k ≠ .punct .openParen) (rest : List Token) : Follow finish (t :: rest) := by
  subst h
  exact ⟨hperiod, hparen⟩

/-- Behind an item may come a comma. -/
theorem follow_of_isComma {t : Token} (h : isComma t = true) (rest : List Token) :
    Follow finish (t :: rest) :=
  follow_of_kind finish (of_decide_eq_true h) (by simp) (by simp) rest

/-- **A list between brackets is read,** if each item is and none starts with the closing mark. -/
theorem apply_listUpTo {closer : Punct} (hperiod : closer ≠ .period) (hparen : closer ≠ .openParen)
    (hcomma : closer ≠ .comma) {item : Rule α} {parts : List (List Token × α)}
    (hparts : ∀ p ∈ parts, ∀ rest, Follow finish rest →
      item.apply (p.1 ++ rest) = (.ok p.2, rest))
    (hstart : ∀ p ∈ parts, ∃ t us, p.1 = t :: us ∧ t.kind ≠ .punct closer)
    {inner : List Token} (hsep : Separated isComma (parts.map Prod.fst) inner) {c : Token}
    (hc : c.kind = .punct closer) (rest : List Token) :
    (listUpTo finish closer item).apply (inner ++ c :: rest) =
      (.ok (parts.map Prod.snd), rest) := by
  rw [listUpTo_eq, apply_atPunct_bind]
  cases parts with
  | nil =>
    cases hsep
    rw [List.nil_append, front_cons, if_pos (decide_eq_true hc)]
    rfl
  | cons p parts =>
    have hfollow : Follow finish (c :: rest) :=
      follow_of_kind finish hc (by simpa using hperiod) (by simpa using hparen) rest
    have hstop : ∀ t us, c :: rest = t :: us → isComma t = false := by
      rintro t us ⟨⟩
      exact decide_eq_false (by rw [hc]; simpa using hcomma)
    have hlist : (Rule.list isComma item : Rule (List α)).apply (inner ++ c :: rest) =
        (.ok ((p :: parts).map Prod.snd), c :: rest) :=
      Rule.apply_list (fun t us ht => follow_of_isComma finish ht us) (by simp) hparts hsep hfollow
        hstop
    obtain ⟨t, us, hp, ht⟩ := hstart p List.mem_cons_self
    have hfront : front finish (inner ++ c :: rest) = t := by
      rw [List.map_cons, hp] at hsep
      generalize parts.map Prod.fst = others at hsep
      cases hsep <;> rfl
    rw [hfront, if_neg (by simpa using ht), apply_bind_of_ok hlist, apply_current_bind, front_cons,
      if_pos hc]
    rfl

/-! ## What is read has a derivation -/

variable {limit : Nat}

/-- What is read as a literal is an operand. -/
theorem literal_eq_ok {s r : List Token} {e : Expr} {l : Literal} {depth : Nat}
    (hl : (front finish s).kind = .literal l) (h : (literal finish).apply s = (.ok e, r)) :
    ∃ ts, s = ts ++ r ∧ Operand limit depth ts e := by
  rw [literal, apply_current_bind, apply_skip_bind] at h
  split at h
  · next v hv =>
    obtain ⟨rfl, rfl⟩ := apply_pure_eq_ok_iff.1 h
    exact ⟨[front finish s], eq_front_cons_of_kind finish hl (by simp),
      .literal hl (decode_eq_ok_iff.1 hv)⟩
  · exact absurd h apply_throw_ne_ok

/-- **What is read as an array is an operand,** one level above its items. -/
theorem array_eq_ok {value : Rule Expr} {depth : Nat} (hdepth : depth < limit)
    (hvalue : value.Yields (Operand limit (depth + 1))) {s r : List Token} {e : Expr}
    (hs : (front finish s).kind = .punct .openBracket)
    (h : (array finish value).apply s = (.ok e, r)) :
    ∃ ts, s = ts ++ r ∧ Operand limit depth ts e := by
  rw [array, apply_skip_bind] at h
  obtain ⟨items, t, hitems, h⟩ := apply_bind_eq_ok_iff.1 h
  obtain ⟨rfl, rfl⟩ := apply_pure_eq_ok_iff.1 h
  obtain ⟨ts, hts, parts, inner, hparts, hsep, henc, rfl⟩ :=
    listed_of_apply finish hvalue hs hitems
  exact ⟨ts, hts, .array hdepth hparts hsep henc⟩

/-- A key is a string token with the text that it stands for. -/
theorem key_yields : (key finish).Yields fun ts k =>
    ∃ t : Token, ts = [t] ∧ t.kind = .literal .string ∧ Json.read t.lexeme = .ok (.str k) := by
  intro s k r h
  rw [key] at h
  obtain ⟨t, u, ht, h⟩ := apply_bind_eq_ok_iff.1 h
  obtain ⟨ts, hts, rfl, hkind⟩ := expect_yields finish (by simp) _ _ _ ht
  split at h
  · next k' hk =>
    obtain ⟨rfl, rfl⟩ := apply_pure_eq_ok_iff.1 h
    exact ⟨[t], hts, t, rfl, hkind, decode_eq_ok_iff.1 hk⟩
  · exact absurd h apply_throw_ne_ok
  · exact absurd h apply_throw_ne_ok

/-- The tokens of an entry whose value is an `Operand`. -/
def IsEntry (limit depth : Nat) (ts : List Token) (entry : String × Expr) : Prop :=
  ∃ w : WrittenEntry, (w.Keyed ∧ Operand limit depth w.value w.expr) ∧ w.part = (ts, entry)

/-- An entry is a key, a colon and a value. -/
theorem entry_yields {value : Rule Expr} {depth : Nat}
    (hvalue : value.Yields (Operand limit depth)) :
    (entry finish value).Yields (IsEntry limit depth) := by
  intro s e r h
  rw [entry] at h
  obtain ⟨k, t, hk, h⟩ := apply_bind_eq_ok_iff.1 h
  obtain ⟨c, u, hc, h⟩ := apply_bind_eq_ok_iff.1 h
  obtain ⟨v, w, hv, h⟩ := apply_bind_eq_ok_iff.1 h
  obtain ⟨rfl, rfl⟩ := apply_pure_eq_ok_iff.1 h
  obtain ⟨-, rfl, kt, rfl, hkind, hread⟩ := key_yields finish _ _ _ hk
  obtain ⟨-, rfl, rfl, hcolon⟩ := expect_yields finish (by simp) _ _ _ hc
  obtain ⟨vs, rfl, hop⟩ := hvalue _ _ _ hv
  exact ⟨kt :: c :: vs, rfl, ⟨kt, c, vs, k, v⟩, ⟨⟨hkind, hread, hcolon⟩, hop⟩, rfl⟩

/-- **What is read as an object is an operand,** one level above its values. -/
theorem object_eq_ok {value : Rule Expr} {depth : Nat} (hdepth : depth < limit)
    (hvalue : value.Yields (Operand limit (depth + 1))) {s r : List Token} {e : Expr}
    (hs : (front finish s).kind = .punct .openBrace)
    (h : (object finish value).apply s = (.ok e, r)) :
    ∃ ts, s = ts ++ r ∧ Operand limit depth ts e := by
  rw [object, apply_skip_bind] at h
  obtain ⟨entries, t, hentries, h⟩ := apply_bind_eq_ok_iff.1 h
  obtain ⟨rfl, rfl⟩ := apply_pure_eq_ok_iff.1 h
  obtain ⟨ts, hts, parts, inner, hparts, hsep, henc, rfl⟩ :=
    listed_of_apply finish (entry_yields finish hvalue) hs hentries
  obtain ⟨written, hwritten, rfl⟩ := Rule.exists_map_eq hparts
  rw [List.map_map] at hsep ⊢
  exact ⟨ts, hts, .object hdepth (fun w hw => (hwritten w hw).1) (fun w hw => (hwritten w hw).2)
    hsep henc (Fields.merges_ofList (written.map WrittenEntry.entry))⟩

/-- What is read as a call is the path before it and a list in parentheses. -/
theorem call_eq_ok {value : Rule Expr} {depth : Nat} (hvalue : value.Yields (Operand limit depth))
    {callee : Expr} {s r : List Token} {e : Expr}
    (hs : (front finish s).kind = .punct .openParen)
    (h : (call finish value callee).apply s = (.ok e, r)) :
    ∃ us args, s = us ++ r ∧ Listed (Operand limit depth) .openParen .closeParen us args ∧
      e = .call callee args := by
  rw [call, apply_skip_bind] at h
  obtain ⟨args, t, hargs, h⟩ := apply_bind_eq_ok_iff.1 h
  obtain ⟨rfl, rfl⟩ := apply_pure_eq_ok_iff.1 h
  obtain ⟨us, hus, hlisted⟩ := listed_of_apply finish hvalue hs hargs
  exact ⟨us, args, hus, hlisted, rfl⟩

/-- Arguments behind a path that is no call make a path of as many steps. -/
theorem Path.call_of_listed {depth steps : Nat} {ts us : List Token} {callee : Expr}
    {args : List Expr} (h : Path limit depth ts steps callee) (hcallee : callee.isCall = false)
    (hargs : Listed (Operand limit depth) .openParen .closeParen us args) :
    Path limit depth (ts ++ us) steps (.call callee args) := by
  obtain ⟨parts, inner, hparts, hsep, henc, rfl⟩ := hargs
  exact .call h hcallee hparts hsep henc

/-- A period before the arguments makes a step, and changes the tree in nothing. -/
theorem Path.periodCall_of_listed {depth steps : Nat} {ts us : List Token} {callee : Expr}
    {args : List Expr} {period : Token} (h : Path limit depth ts steps callee)
    (hcallee : callee.isCall = false) (hperiod : period.kind = .punct .period)
    (hargs : Listed (Operand limit depth) .openParen .closeParen us args) :
    Path limit depth (ts ++ period :: us) (steps + 1) (.call callee args) := by
  obtain ⟨parts, inner, hparts, hsep, henc, rfl⟩ := hargs
  exact .periodCall h hcallee hperiod hparts hsep henc

/-- A segment is a name, and a call of it if arguments follow. -/
theorem segment_eq_ok {value : Rule Expr} {depth : Nat}
    (hvalue : value.Yields (Operand limit depth)) {parent : Option Expr} {s r : List Token} {e : Expr}
    (h : (segment finish value parent).apply s = (.ok e, r)) :
    ∃ t us, s = t :: us ++ r ∧ t.kind = .segment ∧
      ∀ pre steps, Path limit depth pre steps
        (parent.elim (Expr.root t.lexeme) (Expr.step · t.lexeme)) →
        Path limit depth (pre ++ us) steps e := by
  rw [segment] at h
  obtain ⟨t, u, ht, hrest⟩ := apply_bind_eq_ok_iff.1 h
  obtain ⟨-, rfl, rfl, hkind⟩ := expect_yields finish (by simp) _ _ _ ht
  rw [apply_atPunct_bind] at hrest
  by_cases hparen : (front finish u).kind = .punct .openParen
  · rw [if_pos (decide_eq_true hparen)] at hrest
    obtain ⟨us, args, rfl, hargs, rfl⟩ := call_eq_ok finish hvalue hparen hrest
    refine ⟨t, us, by simp, hkind, fun pre steps hpath => hpath.call_of_listed ?_ hargs⟩
    cases parent <;> rfl
  · rw [if_neg (by simpa using hparen)] at hrest
    obtain ⟨rfl, rfl⟩ := apply_pure_eq_ok_iff.1 hrest
    exact ⟨t, [], by simp, hkind, fun pre steps hpath => by rwa [List.append_nil]⟩

/-- **The steps read after a path go on with it,** and there are no more than the budget allows. -/
theorem steps_eq_ok {value : Rule Expr} {depth : Nat} (hvalue : value.Yields (Operand limit depth))
    {budget : Nat} {path : Expr} {s r : List Token} {e : Expr}
    (h : (steps finish value budget path).apply s = (.ok e, r)) {pre : List Token} {n : Nat}
    (hpath : Path limit depth pre n path) :
    ∃ ts n', s = ts ++ r ∧ Path limit depth (pre ++ ts) n' e ∧ n' ≤ n + budget := by
  induction budget generalizing path s pre n with
  | zero =>
    rw [steps, apply_atPunct_bind] at h
    by_cases hperiod : (front finish s).kind = .punct .period
    · rw [if_pos (decide_eq_true hperiod), apply_skip_bind, apply_current_bind] at h
      exact absurd h apply_throw_ne_ok
    · rw [if_neg (by simpa using hperiod)] at h
      obtain ⟨rfl, rfl⟩ := apply_pure_eq_ok_iff.1 h
      exact ⟨[], n, rfl, by rwa [List.append_nil], Nat.le_refl _⟩
  | succ budget ih =>
    rw [steps, apply_atPunct_bind] at h
    by_cases hperiod : (front finish s).kind = .punct .period
    · have hs := eq_front_cons_of_kind finish hperiod (by simp)
      rw [if_pos (decide_eq_true hperiod), apply_skip_bind, apply_atPunct_bind] at h
      by_cases hparen : (front finish s.tail).kind = .punct .openParen
      · rw [if_pos (decide_eq_true hparen)] at h
        by_cases hcall : path.isCall = true
        · rw [if_pos hcall, apply_current_bind] at h
          exact absurd h apply_throw_ne_ok
        · rw [if_neg hcall] at h
          obtain ⟨callee, t, hc, h⟩ := apply_bind_eq_ok_iff.1 h
          obtain ⟨us, args, hus, hargs, rfl⟩ := call_eq_ok finish hvalue hparen hc
          obtain ⟨ts, n', rfl, hts, hn⟩ :=
            ih h (hpath.periodCall_of_listed (by simpa using hcall) hperiod hargs)
          refine ⟨front finish s :: us ++ ts, n', ?_, by simpa using hts, by omega⟩
          rw [hs, hus]
          simp [front_cons]
      · rw [if_neg (by simpa using hparen)] at h
        obtain ⟨next, t, hnext, h⟩ := apply_bind_eq_ok_iff.1 h
        obtain ⟨name, us, hus, hname, hseg⟩ := segment_eq_ok finish hvalue hnext
        obtain ⟨ts, n', rfl, hts, hn⟩ := ih h (hseg _ _ (hpath.step hperiod hname))
        refine ⟨front finish s :: name :: us ++ ts, n', ?_, by simpa using hts, by omega⟩
        rw [hs, hus]
        simp [front_cons]
    · rw [if_neg (by simpa using hperiod)] at h
      obtain ⟨rfl, rfl⟩ := apply_pure_eq_ok_iff.1 h
      exact ⟨[], n, rfl, by rwa [List.append_nil], Nat.le_add_right _ _⟩

/-- **What is read as a path is one,** of no more steps than there is room for. -/
theorem path_eq_ok {value : Rule Expr} {depth : Nat} (hvalue : value.Yields (Operand limit depth))
    {budget : Nat} {s r : List Token} {e : Expr}
    (h : (path finish value budget).apply s = (.ok e, r)) :
    ∃ ts n, s = ts ++ r ∧ Path limit depth ts n e ∧ n ≤ budget := by
  rw [path] at h
  obtain ⟨first, t, hfirst, h⟩ := apply_bind_eq_ok_iff.1 h
  obtain ⟨name, us, hus, hname, hseg⟩ := segment_eq_ok finish hvalue hfirst
  obtain ⟨ts, n, rfl, hts, hn⟩ := steps_eq_ok finish hvalue h (hseg _ _ (.name hname))
  exact ⟨name :: us ++ ts, n, by rw [hus]; simp, by simpa using hts, by omega⟩

/-- **What is read as a value is a value.** -/
theorem operand_yields : ∀ (budget depth : Nat), depth + budget = limit →
    (operand finish budget).Yields (Operand limit depth) := by
  intro budget
  induction budget with
  | zero =>
    intro depth hlimit s e r h
    rw [operand, apply_current_bind] at h
    split at h
    · next hl => exact literal_eq_ok finish hl h
    all_goals exact absurd h apply_throw_ne_ok
  | succ budget ih =>
    intro depth hlimit s e r h
    have hinner := ih (depth + 1) (by omega)
    rw [operand, apply_current_bind] at h
    split at h
    · next hl => exact literal_eq_ok finish hl h
    · next hs => exact object_eq_ok finish (by omega) hinner hs h
    · next hs => exact array_eq_ok finish (by omega) hinner hs h
    · obtain ⟨ts, n, hs, hpath, hn⟩ := path_eq_ok finish hinner h
      exact ⟨ts, hs, .path (by omega) hpath (by omega)⟩
    · exact absurd h apply_throw_ne_ok

/-! ## What has a derivation is read -/

/-- The call of a path that has just been read, if the path is a name and arguments follow. -/
def callIfArguments (value : Rule Expr) (path : Expr) : Rule Expr := do
  if path.isCall then return path
  else if ← atPunct finish .openParen then call finish value path else return path

/-- A call is not called again. -/
theorem callIfArguments_of_isCall {value : Rule Expr} {path : Expr} (h : path.isCall = true)
    (s : List Token) : (callIfArguments finish value path).apply s = (.ok path, s) := by
  rw [callIfArguments, if_pos h]
  rfl

/-- Without a parenthesis there is no call. -/
theorem callIfArguments_of_not_openParen {value : Rule Expr} (path : Expr) {s : List Token}
    (h : (front finish s).kind ≠ .punct .openParen) :
    (callIfArguments finish value path).apply s = (.ok path, s) := by
  rw [callIfArguments]
  split
  · rfl
  · rw [apply_atPunct_bind, if_neg (by simpa using h)]
    rfl

/-- At a parenthesis a path that is no call is called. -/
theorem callIfArguments_of_openParen {value : Rule Expr} {path : Expr} (hpath : path.isCall = false)
    {s : List Token} (h : (front finish s).kind = .punct .openParen) :
    (callIfArguments finish value path).apply s = (call finish value path).apply s := by
  rw [callIfArguments, if_neg (by simp [hpath]), apply_atPunct_bind, if_pos (decide_eq_true h)]

/-- A name is the root or a step, and may be called at once. -/
theorem segment_apply_cons {value : Rule Expr} {t : Token} (ht : t.kind = .segment)
    (parent : Option Expr) (s : List Token) :
    (segment finish value parent).apply (t :: s) =
      (callIfArguments finish value
        (parent.elim (Expr.root t.lexeme) (Expr.step · t.lexeme))).apply s := by
  rw [segment, apply_bind_of_ok (apply_expect_of_kind finish ht s), callIfArguments,
    if_neg (by cases parent <;> simp [Expr.isCall])]

/-- Without a period a path ends. -/
theorem steps_apply_of_not_period {value : Rule Expr} (budget : Nat) (path : Expr) {s : List Token}
    (h : (front finish s).kind ≠ .punct .period) :
    (steps finish value budget path).apply s = (.ok path, s) := by
  cases budget with
  | zero =>
    rw [steps, apply_atPunct_bind, if_neg (by simpa using h)]
    rfl
  | succ budget =>
    rw [steps, apply_atPunct_bind, if_neg (by simpa using h)]
    rfl

/-- A period and a name cost one step of the budget. -/
theorem steps_apply_segment {value : Rule Expr} (budget : Nat) (path : Expr) {period t : Token}
    (hperiod : period.kind = .punct .period) (ht : t.kind = .segment) (s : List Token) :
    (steps finish value (budget + 1) path).apply (period :: t :: s) =
      (callIfArguments finish value (.step path t.lexeme) >>=
        steps finish value budget).apply s := by
  have hname : (front finish (t :: s)).kind ≠ .punct .openParen := by
    rw [front_cons, ht]
    simp
  rw [steps, apply_atPunct_bind, front_cons, if_pos (decide_eq_true hperiod), apply_skip_bind,
    List.tail_cons, apply_atPunct_bind, if_neg (by simpa using hname), Rule.apply_bind,
    segment_apply_cons finish ht, ← Rule.apply_bind]
  rfl

/-- A period before a parenthesis costs one step of the budget too. -/
theorem steps_apply_call {value : Rule Expr} (budget : Nat) {path : Expr}
    (hpath : path.isCall = false) {period : Token} (hperiod : period.kind = .punct .period)
    {s : List Token} (hparen : (front finish s).kind = .punct .openParen) :
    (steps finish value (budget + 1) path).apply (period :: s) =
      (call finish value path >>= steps finish value budget).apply s := by
  rw [steps, apply_atPunct_bind, front_cons, if_pos (decide_eq_true hperiod), apply_skip_bind,
    List.tail_cons, apply_atPunct_bind, if_pos (decide_eq_true hparen),
    if_neg (by simp [hpath])]

/-- Items of which each is a value do not start with a closing mark. -/
theorem Operand.ne_punct {depth : Nat} {ts : List Token} {e : Expr} (h : Operand limit depth ts e)
    {closer : Punct} (hcloser : startsOperand (.punct closer) = false) :
    ∃ t us, ts = t :: us ∧ t.kind ≠ .punct closer := by
  obtain ⟨t, us, hts, ht⟩ := h.exists_cons
  refine ⟨t, us, hts, fun hk => ?_⟩
  rw [hk, hcloser] at ht
  exact Bool.false_ne_true ht

/-- **Arguments are read back,** if each of them is wherever an operand may end. -/
theorem call_apply {value : Rule Expr} {depth : Nat} {parts : List (List Token × Expr)}
    (hvalue : ∀ p ∈ parts, ∀ rest, Follow finish rest →
      value.apply (p.1 ++ rest) = (.ok p.2, rest))
    (hparts : ∀ p ∈ parts, Operand limit depth p.1 p.2) {inner us : List Token}
    (hsep : Separated isComma (parts.map Prod.fst) inner)
    (henc : Enclosed .openParen .closeParen inner us) (callee : Expr) (rest : List Token) :
    (call finish value callee).apply (us ++ rest) =
      (.ok (.call callee (parts.map Prod.snd)), rest) := by
  obtain ⟨o, c, -, hc, rfl⟩ := henc
  have hlist := apply_listUpTo finish (by simp) (by simp) (by simp) hvalue
    (fun p hp => (hparts p hp).ne_punct rfl) hsep hc rest
  rw [call, apply_skip_bind, List.cons_append, List.tail_cons, List.append_assoc,
    List.singleton_append, apply_bind_of_ok hlist]
  rfl

/-- **An array is read back,** if each of its items is wherever an operand may end. -/
theorem array_apply {value : Rule Expr} {depth : Nat} {parts : List (List Token × Expr)}
    (hvalue : ∀ p ∈ parts, ∀ rest, Follow finish rest →
      value.apply (p.1 ++ rest) = (.ok p.2, rest))
    (hparts : ∀ p ∈ parts, Operand limit depth p.1 p.2) {inner us : List Token}
    (hsep : Separated isComma (parts.map Prod.fst) inner)
    (henc : Enclosed .openBracket .closeBracket inner us) (rest : List Token) :
    (array finish value).apply (us ++ rest) = (.ok (.array (parts.map Prod.snd)), rest) := by
  obtain ⟨o, c, -, hc, rfl⟩ := henc
  have hlist := apply_listUpTo finish (by simp) (by simp) (by simp) hvalue
    (fun p hp => (hparts p hp).ne_punct rfl) hsep hc rest
  rw [array, apply_skip_bind, List.cons_append, List.tail_cons, List.append_assoc,
    List.singleton_append, apply_bind_of_ok hlist]
  rfl

/-- An entry is read back if its value is. -/
theorem entry_apply {value : Rule Expr} {w : WrittenEntry} (hkeyed : w.Keyed) {rest : List Token}
    (hvalue : value.apply (w.value ++ rest) = (.ok w.expr, rest)) :
    (entry finish value).apply (w.tokens ++ rest) = (.ok w.entry, rest) := by
  have hkey : (key finish).apply (w.tokens ++ rest) =
      (.ok w.name, w.colon :: (w.value ++ rest)) := by
    rw [key, WrittenEntry.tokens, List.cons_append,
      apply_bind_of_ok (apply_expect_of_kind finish hkeyed.key _),
      decode_eq_ok_iff.2 hkeyed.name]
    rfl
  rw [entry, apply_bind_of_ok hkey, apply_bind_of_ok (apply_expect_of_kind finish hkeyed.colon _),
    apply_bind_of_ok hvalue]
  rfl

/-- **An object is read back,** if each of its values is wherever an operand may end; a key given
again is merged. -/
theorem object_apply {value : Rule Expr} {written : List WrittenEntry}
    (hkeyed : ∀ w ∈ written, w.Keyed)
    (hvalue : ∀ w ∈ written, ∀ rest, Follow finish rest →
      value.apply (w.value ++ rest) = (.ok w.expr, rest)) {inner us : List Token}
    (hsep : Separated isComma (written.map WrittenEntry.tokens) inner)
    (henc : Enclosed .openBrace .closeBrace inner us) (rest : List Token) :
    (object finish value).apply (us ++ rest) =
      (.ok (.object (Fields.ofList (written.map WrittenEntry.entry))), rest) := by
  obtain ⟨o, c, -, hc, rfl⟩ := henc
  have hfst : (written.map WrittenEntry.part).map Prod.fst = written.map WrittenEntry.tokens :=
    List.map_map
  have hsnd : (written.map WrittenEntry.part).map Prod.snd = written.map WrittenEntry.entry :=
    List.map_map
  have hentry : ∀ p ∈ written.map WrittenEntry.part, ∀ rest, Follow finish rest →
      (entry finish value).apply (p.1 ++ rest) = (.ok p.2, rest) :=
    List.forall_mem_map.2 fun w hw rest hrest =>
      entry_apply finish (hkeyed w hw) (hvalue w hw rest hrest)
  have hstart : ∀ p ∈ written.map WrittenEntry.part,
      ∃ t us, p.1 = t :: us ∧ t.kind ≠ .punct .closeBrace :=
    List.forall_mem_map.2 fun w hw => ⟨w.key, _, rfl, by rw [(hkeyed w hw).key]; simp⟩
  have hlist := apply_listUpTo finish (by simp) (by simp) (by simp) hentry hstart
    (hfst ▸ hsep) hc rest
  rw [object, apply_skip_bind, List.cons_append, List.tail_cons, List.append_assoc,
    List.singleton_append, apply_bind_of_ok hlist, hsnd]
  rfl

/-- A literal is read back, at any depth. -/
theorem operand_apply_literal (budget : Nat) {t : Token} {l : Literal} (ht : t.kind = .literal l)
    {v : Value} (hread : Json.read t.lexeme = .ok v) (rest : List Token) :
    (operand finish budget).apply ([t] ++ rest) = (.ok (.literal v t.lexeme), rest) := by
  have hliteral : (literal finish).apply ([t] ++ rest) = (.ok (.literal v t.lexeme), rest) := by
    rw [literal, apply_current_bind, apply_skip_bind, List.singleton_append, front_cons,
      decode_eq_ok_iff.2 hread]
    rfl
  cases budget with
  | zero =>
    rw [operand, apply_current_bind, List.singleton_append, front_cons, ht]
    exact hliteral
  | succ budget =>
    rw [operand, apply_current_bind, List.singleton_append, front_cons, ht]
    exact hliteral

mutual

/-- **A value is read as its tree,** whatever follows that does not go on with it. -/
theorem Operand.apply {depth budget : Nat} (hlimit : depth + budget = limit) :
    ∀ {ts : List Token} {e : Expr}, Operand limit depth ts e →
      ∀ rest, Follow finish rest → (operand finish budget).apply (ts ++ rest) = (.ok e, rest)
  | _, _, .literal ht hread, rest, _ => operand_apply_literal finish budget ht hread rest
  | _, _, .array hdepth hparts hsep henc, rest, _ => by
    obtain ⟨budget, rfl⟩ : ∃ n, budget = n + 1 := ⟨budget - 1, by omega⟩
    have hinner : depth + 1 + budget = limit := by omega
    have hread := array_apply finish (fun p hp => (hparts p hp).apply hinner) hparts hsep henc rest
    rw [operand, apply_current_bind, front_append_of_enclosed finish henc]
    exact hread
  | _, _, .object hdepth hkeyed hvalues hsep henc hmerge, rest, _ => by
    obtain ⟨budget, rfl⟩ : ∃ n, budget = n + 1 := ⟨budget - 1, by omega⟩
    have hread := object_apply finish hkeyed
      (fun w hw => (hvalues w hw).apply (by omega : depth + 1 + budget = limit)) hsep henc rest
    rw [hmerge.eq_ofList]
    rw [operand, apply_current_bind, front_append_of_enclosed finish henc]
    exact hread
  | _, _, .path hdepth hpath hsteps, rest, hrest => by
    obtain ⟨budget, rfl⟩ : ∃ n, budget = n + 1 := ⟨budget - 1, by omega⟩
    have hread := hpath.apply (by omega : depth + 1 + budget = limit) (by omega) rest
    rw [apply_bind_of_ok (callIfArguments_of_not_openParen finish _ hrest.2),
      steps_apply_of_not_period finish _ _ hrest.1] at hread
    obtain ⟨t, us, rfl, ht⟩ := hpath.exists_cons
    rw [operand, apply_current_bind, List.cons_append, front_cons, ht]
    exact hread

/-- **A path is read up to its last name or its last arguments,** and reading goes on from there
with as many steps as are left. -/
theorem Path.apply {depth budget : Nat} (hlimit : depth + budget = limit) :
    ∀ {steps : Nat} {ts : List Token} {e : Expr}, Path limit depth ts steps e → steps ≤ budget →
      ∀ rest, (path finish (operand finish budget) budget).apply (ts ++ rest) =
        (callIfArguments finish (operand finish budget) e >>=
          Grammar.steps finish (operand finish budget) (budget - steps)).apply rest
  | _, _, _, .name ht, _, rest => by
    rw [path, Rule.apply_bind, List.singleton_append, segment_apply_cons finish ht,
      ← Rule.apply_bind]
    rfl
  | _, _, _, @Path.step _ _ n _ _ period t hpath hperiod ht, hsteps, rest => by
    have hbudget : budget - n = budget - (n + 1) + 1 := by omega
    have hfront : (front finish (period :: t :: rest)).kind ≠ .punct .openParen := by
      rw [front_cons, hperiod]
      simp
    rw [List.append_assoc, hpath.apply hlimit (by omega), List.cons_append, List.cons_append,
      List.nil_append, apply_bind_of_ok (callIfArguments_of_not_openParen finish _ hfront), hbudget]
    exact steps_apply_segment finish _ _ hperiod ht rest
  | _, _, _, @Path.call _ _ _ _ _ us callee _ hpath hcallee hparts hsep henc, hsteps, rest => by
    have hcall := call_apply finish (fun p hp => (hparts p hp).apply hlimit) hparts hsep henc callee
      rest
    have hparen := front_append_of_enclosed finish henc rest
    rw [List.append_assoc, hpath.apply hlimit hsteps,
      apply_bind_of_ok ((callIfArguments_of_openParen finish hcallee hparen).trans hcall),
      apply_bind_of_ok (callIfArguments_of_isCall finish rfl rest)]
  | _, _, _, @Path.periodCall _ _ n _ _ us callee period _ hpath hcallee hperiod hparts hsep henc,
      hsteps, rest => by
    have hcall := call_apply finish (fun p hp => (hparts p hp).apply hlimit) hparts hsep henc callee
      rest
    have hbudget : budget - n = budget - (n + 1) + 1 := by omega
    have hparen := front_append_of_enclosed finish henc rest
    have hfront : (front finish (period :: (us ++ rest))).kind ≠ .punct .openParen := by
      rw [front_cons, hperiod]
      simp
    rw [List.append_assoc, List.cons_append, hpath.apply hlimit (by omega),
      apply_bind_of_ok (callIfArguments_of_not_openParen finish _ hfront), hbudget,
      steps_apply_call finish _ hcallee hperiod hparen, apply_bind_of_ok hcall,
      apply_bind_of_ok (callIfArguments_of_isCall finish rfl rest)]

end

end FilterQuery.Grammar
