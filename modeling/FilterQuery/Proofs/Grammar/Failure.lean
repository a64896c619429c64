import FilterQuery.Proofs.Grammar.Balance
import FilterQuery.Proofs.Grammar.Operand

/-!
# Proofs/Grammar/Failure — how far rules get, and where they fail

Three things hold of every rule for values, whatever it reads and whether it succeeds or fails.  The
brackets of the tokens that it has taken match, and if it succeeds all are closed; if it fails it
blames one of these tokens or the next; and of what is left only the next token counts.  `Tidy` says
all three of a rule at a place, and goes through sequences of rules (`Tidy.bind`).
-/

namespace FilterQuery.Grammar

open FilterQuery.Balance (run step run_append_of_run run_cons_eq_some)

variable {α β : Type} (finish : Nat)

/-! ## What is taken, and what is blamed -/

/-- From any tokens that start with `ts` and go on as `r` does, `read` takes `ts` and comes to
`a`. -/
def Takes (read : List Token → α × List Token) (ts r : List Token) (a : α) : Prop :=
  ∀ r', r'.head? = r.head? → read (ts ++ r') = (a, r')

variable {ts us r r' s : List Token}

/-- What starts alike does so behind the same tokens. -/
theorem head?_append_congr (us : List Token) (h : r'.head? = r.head?) :
    (us ++ r').head? = (us ++ r).head? := by
  rw [List.head?_append, List.head?_append, h]

/-- The token in front is told by how the tokens start. -/
theorem front_congr (h : r'.head? = r.head?) : front finish r' = front finish r := by
  rw [front, front, List.headD_eq_head?_getD, List.headD_eq_head?_getD, h]

/-- What a rule takes and what the next takes are taken in a sequence of both. -/
theorem Takes.bind_ok {x : Rule α} {f : α → Rule β} {a : α} {b : Except SyntaxError β}
    (h : Takes x.apply ts (us ++ r) (.ok a)) (h' : Takes (f a).apply us r b) :
    Takes (x >>= f).apply (ts ++ us) r b := by
  intro r' hr'
  rw [List.append_assoc]
  exact (Rule.apply_bind_of_ok (h _ (head?_append_congr us hr')) f).trans (h' r' hr')

/-- Where a rule fails the sequence fails. -/
theorem Takes.bind_error {x : Rule α} {e : SyntaxError} (h : Takes x.apply ts r (.error e))
    (f : α → Rule β) : Takes (x >>= f).apply ts r (.error e) := by
  intro r' hr'
  rw [Rule.apply_bind, h r' hr']

/-- Where something can be wrong when `ts` have been taken and `r` is left: at one of these tokens
or at the next. -/
def span (ts r : List Token) : List Nat :=
  (ts ++ [front finish r]).map Token.offset

/-- A token that has been taken may be wrong. -/
theorem mem_span {t : Token} (h : t ∈ ts) (r : List Token) : t.offset ∈ span finish ts r :=
  List.mem_map.2 ⟨t, List.mem_append_left _ h, rfl⟩

/-- The next token may be wrong. -/
theorem front_mem_span (ts r : List Token) : (front finish r).offset ∈ span finish ts r :=
  List.mem_map.2 ⟨_, List.mem_append_right _ List.mem_cons_self, rfl⟩

/-- What is wrong after a part is wrong in the whole. -/
theorem span_subset_append_left (ts us r : List Token) :
    span finish us r ⊆ span finish (ts ++ us) r := by
  intro n hn
  rw [span, List.append_assoc, List.map_append]
  exact List.mem_append_right _ hn

/-- What is wrong before a part is wrong in the whole. -/
theorem span_subset_append_right (ts us r : List Token) :
    span finish ts (us ++ r) ⊆ span finish (ts ++ us) r := by
  intro n hn
  obtain ⟨t, ht, rfl⟩ := List.mem_map.1 hn
  rcases List.mem_append.1 ht with ht | ht
  · exact mem_span finish (List.mem_append_left _ ht) r
  · rw [List.mem_singleton.1 ht]
    cases us with
    | nil => exact front_mem_span finish _ r
    | cons u us => exact mem_span finish (List.mem_append_right _ List.mem_cons_self) r

/-! ## Tidy rules -/

/-- From `s`, with the brackets `opened` open, a rule takes tokens whose brackets match.  If it
succeeds, `opened'` are open after them; if it fails, it does so at one of them or at the next. -/
inductive Tidy (x : Rule α) (opened opened' : List Punct) (s : List Token) : Prop
  | ok {ts r : List Token} {a : α} : s = ts ++ r → Takes x.apply ts r (.ok a) →
      run opened ts = some opened' → Tidy x opened opened' s
  | error {ts r : List Token} {e : SyntaxError} {now : List Punct} : s = ts ++ r →
      Takes x.apply ts r (.error e) → run opened ts = some now →
      e.offset ∈ span finish ts r → Tidy x opened opened' s

variable {finish} {opened mid opened' : List Punct}

/-- To take nothing is tidy. -/
theorem Tidy.of_pure (a : α) (opened : List Punct) (s : List Token) :
    Tidy finish (pure a : Rule α) opened opened s :=
  .ok (show s = [] ++ s from rfl) (fun _ _ => rfl) rfl

/-- To blame the next token is tidy. -/
theorem Tidy.of_throw {e : SyntaxError} (h : e.offset = (front finish s).offset)
    (opened opened' : List Punct) : Tidy finish (throw e : Rule α) opened opened' s :=
  .error (show s = [] ++ s from rfl) (fun _ _ => rfl) rfl (h ▸ front_mem_span finish [] s)

/-- Rules that do the same before all tokens that start as `s` does are tidy together. -/
theorem Tidy.congr {x y : Rule α} (hxy : ∀ s', s'.head? = s.head? → x.apply s' = y.apply s')
    (h : Tidy finish y opened opened' s) : Tidy finish x opened opened' s := by
  cases h with
  | ok hs htakes hrun =>
    subst hs
    exact .ok rfl (fun r' hr' => (hxy _ (head?_append_congr _ hr')).trans (htakes r' hr')) hrun
  | error hs htakes hrun hspan =>
    subst hs
    exact .error rfl (fun r' hr' => (hxy _ (head?_append_congr _ hr')).trans (htakes r' hr')) hrun
      hspan

/-- **A sequence of tidy rules is tidy.** -/
theorem Tidy.bind {x : Rule α} {f : α → Rule β} (h : Tidy finish x opened mid s)
    (hf : ∀ a r, Tidy finish (f a) mid opened' r) : Tidy finish (x >>= f) opened opened' s := by
  cases h with
  | error hs htakes hrun hspan => exact .error hs (htakes.bind_error f) hrun hspan
  | @ok ts r a hs htakes hrun =>
    subst hs
    cases hf a r with
    | @ok us r _ hr htakes' hrun' =>
      subst hr
      exact .ok (List.append_assoc ..).symm (htakes.bind_ok htakes')
        ((run_append_of_run hrun us).trans hrun')
    | @error us r _ _ hr htakes' hrun' hspan =>
      subst hr
      exact .error (List.append_assoc ..).symm (htakes.bind_ok htakes')
        ((run_append_of_run hrun us).trans hrun') (span_subset_append_left finish ts us r hspan)

/-- Looking at the next token is tidy. -/
theorem Tidy.current_bind {f : Token → Rule α}
    (h : Tidy finish (f (front finish s)) opened opened' s) :
    Tidy finish (current finish >>= f) opened opened' s := by
  refine h.congr fun s' hs' => ?_
  rw [apply_current_bind, front_congr finish hs']

/-- Asking for a mark is tidy. -/
theorem Tidy.atPunct_bind {p : Punct} {f : Bool → Rule α}
    (h : Tidy finish (f ((front finish s).kind = .punct p)) opened opened' s) :
    Tidy finish (atPunct finish p >>= f) opened opened' s := by
  refine h.congr fun s' hs' => ?_
  rw [apply_atPunct_bind, front_congr finish hs']

/-- Taking the next token is tidy if the brackets go on to match. -/
theorem Tidy.skip_bind {f : Unit → Rule α} {k : Token.Kind} (hk : (front finish s).kind = k)
    (hstep : step opened k = some mid) (h : Tidy finish (f ()) mid opened' s.tail) :
    Tidy finish (Rule.skip >>= f) opened opened' s := by
  obtain ⟨t, s, rfl⟩ : ∃ t s', s = t :: s' :=
    ⟨_, _, eq_front_cons_of_kind finish hk fun hend => by rw [hend] at hstep; cases hstep⟩
  subst hk
  cases h with
  | @ok ts r a hs htakes hrun =>
    obtain rfl : s = ts ++ r := hs
    exact .ok (show t :: (ts ++ r) = t :: ts ++ r from rfl) htakes
      (run_cons_eq_some.2 ⟨mid, hstep, hrun⟩)
  | @error ts r e now hs htakes hrun hspan =>
    obtain rfl : s = ts ++ r := hs
    exact .error (show t :: (ts ++ r) = t :: ts ++ r from rfl) htakes
      (run_cons_eq_some.2 ⟨mid, hstep, hrun⟩) (span_subset_append_left finish [t] ts r hspan)

/-- A rule may also blame the token that it has just taken. -/
theorem Tidy.skip_throw {k : Token.Kind} {e : SyntaxError} (hk : (front finish s).kind = k)
    (hstep : step opened k = some mid) (he : e.offset = (front finish s).offset)
    (opened' : List Punct) :
    Tidy finish (Rule.skip >>= fun _ => throw e : Rule α) opened opened' s := by
  obtain ⟨t, s, rfl⟩ : ∃ t s', s = t :: s' :=
    ⟨_, _, eq_front_cons_of_kind finish hk fun hend => by rw [hend] at hstep; cases hstep⟩
  subst hk
  exact .error (show t :: s = [t] ++ s from rfl) (fun _ _ => rfl)
    (run_cons_eq_some.2 ⟨mid, hstep, rfl⟩) (he ▸ mem_span finish List.mem_cons_self s)

/-- Taking a token of a kind and going on is tidy if that is so where there is such a token. -/
theorem Tidy.expect_bind {kind : Token.Kind} {f : Token → Rule α}
    (h : (front finish s).kind = kind →
      Tidy finish (Rule.skip >>= fun _ => f (front finish s)) opened opened' s) :
    Tidy finish (expect finish kind >>= f) opened opened' s := by
  by_cases hkind : (front finish s).kind = kind
  · refine (h hkind).congr fun s' hs' => ?_
    rw [Rule.apply_bind, expect, apply_current_bind, front_congr finish hs', if_pos hkind]
    rfl
  · refine (Tidy.of_throw (e := unexpected (.kind kind) (front finish s)) rfl opened opened').congr
      fun s' hs' => ?_
    rw [Rule.apply_bind, expect, apply_current_bind, front_congr finish hs', if_neg hkind]
    rfl

/-! ## The rules for values -/

/-- A literal without a value is blamed itself. -/
theorem offset_of_decode_eq_error {t : Token} {e : SyntaxError} (h : decode t = .error e) :
    e.offset = t.offset := by
  rw [decode] at h
  cases hread : Json.read t.lexeme with
  | ok v =>
    rw [hread] at h
    cases h
  | error err =>
    rw [hread] at h
    cases h
    rfl

/-- Reading a literal is tidy. -/
theorem literal_tidy {l : Literal} (hl : (front finish s).kind = .literal l)
    (opened : List Punct) : Tidy finish (literal finish) opened opened s := by
  refine Tidy.current_bind ?_
  cases hdecode : decode (front finish s) with
  | ok v => exact .skip_bind hl rfl (.of_pure _ opened _)
  | error e => exact .skip_throw hl rfl (offset_of_decode_eq_error hdecode) opened

/-- Reading a key is tidy. -/
theorem key_tidy (opened : List Punct) (s : List Token) :
    Tidy finish (key finish) opened opened s := by
  refine Tidy.expect_bind fun hkind => ?_
  cases hdecode : decode (front finish s) with
  | error e => exact .skip_throw hkind rfl (offset_of_decode_eq_error hdecode) opened
  | ok v =>
    cases v with
    | str k => exact .skip_bind hkind rfl (.of_pure k opened _)
    | _ =>
      let e : SyntaxError := ⟨(front finish s).offset, .keyNotString⟩
      exact .skip_throw (e := e) hkind rfl rfl opened

/-- A list ends where no comma follows the item. -/
theorem Takes.list_single {item : Rule α} {a : α} (h : Takes item.apply ts r (.ok a))
    (hr : ∀ t us, r = t :: us → isComma t = false) :
    Takes (Rule.list isComma item).apply ts r (.ok [a]) := by
  intro r' hr'
  refine Rule.listFrom_of_stop (h r' hr') ?_
  rintro t us rfl
  obtain ⟨r, rfl⟩ := List.head?_eq_some_iff.1 hr'.symm
  exact hr t r rfl

/-- A list goes on behind a comma. -/
theorem Takes.list_cons {item : Rule α} {a : α} {t : Token} {x : Except SyntaxError (List α)}
    (h : Takes item.apply ts (t :: (us ++ r)) (.ok a)) (ht : isComma t = true)
    (hx : Takes (Rule.list isComma item).apply us r x) :
    Takes (Rule.list isComma item).apply (ts ++ t :: us) r (x.map (a :: ·)) := by
  intro r' hr'
  have hrest : Rule.listFrom isComma item (us ++ r') = (x, r') := hx r' hr'
  rw [List.append_assoc, List.cons_append]
  refine (Rule.listFrom_of_separator (h (t :: (us ++ r')) rfl) ht).trans ?_
  rw [hrest]

/-- Reading items and commas is tidy if reading items is. -/
theorem list_tidy {item : Rule α} (hitem : ∀ s, Tidy finish item opened opened s)
    (s : List Token) : Tidy finish (Rule.list isComma item) opened opened s := by
  induction hlength : s.length using Nat.strongRecOn generalizing s with
  | ind n ih =>
    subst hlength
    cases hitem s with
    | error hs htakes hrun hspan =>
      exact .error hs (fun r' hr' => Rule.listFrom_of_error (htakes r' hr')) hrun hspan
    | @ok ts r a hs htakes hrun =>
      subst hs
      by_cases hcomma : ∃ t r', r = t :: r' ∧ isComma t = true
      · obtain ⟨t, r, rfl, ht⟩ := hcomma
        have hrun' : ∀ us, run opened (ts ++ t :: us) = run opened us := fun us => by
          rw [run_append_of_run hrun, run, show t.kind = _ from of_decide_eq_true ht]
          rfl
        have hlt : r.length < (ts ++ t :: r).length := by
          rw [List.length_append, List.length_cons]
          omega
        -- the list goes on with what is left after the comma
        cases ih r.length hlt r rfl with
        | @ok us r b hr hmore hus =>
          subst hr
          exact .ok (by simp) (htakes.list_cons ht hmore) ((hrun' us).trans hus)
        | @error us r e now hr hmore hus hspan =>
          subst hr
          refine .error (by simp) (htakes.list_cons ht hmore) ((hrun' us).trans hus) ?_
          rw [List.append_cons]
          exact span_subset_append_left finish (ts ++ [t]) us r hspan
      · have hstop : ∀ t us, r = t :: us → isComma t = false := fun t us hr =>
          Bool.eq_false_iff.2 fun ht => hcomma ⟨t, us, hr, ht⟩
        exact .ok rfl (htakes.list_single hstop) hrun

/-- **Reading a list is tidy,** and closes its bracket. -/
theorem listUpTo_tidy {close : Punct} (hclose : step opened (.punct close) = some opened')
    {item : Rule α} (hitem : ∀ s, Tidy finish item opened opened s) (s : List Token) :
    Tidy finish (listUpTo finish close item) opened opened' s := by
  rw [listUpTo_eq]
  refine Tidy.atPunct_bind ?_
  split
  · next hend => exact .skip_bind (of_decide_eq_true hend) hclose (.of_pure [] opened' _)
  · refine (list_tidy hitem s).bind fun items r => Tidy.current_bind ?_
    split
    · next hend => exact .skip_bind hend hclose (.of_pure items opened' _)
    · exact .of_throw rfl opened opened'

/-- Reading an entry is tidy if reading values is. -/
theorem entry_tidy {value : Rule Expr} (hvalue : ∀ s, Tidy finish value opened opened s)
    (s : List Token) : Tidy finish (entry finish value) opened opened s :=
  (key_tidy opened s).bind fun k _ => Tidy.expect_bind fun hcolon =>
    .skip_bind hcolon rfl ((hvalue _).bind fun v _ => .of_pure (k, v) opened _)

variable {value : Rule Expr} (hvalue : ∀ opened s, Tidy finish value opened opened s)
include hvalue

/-- Reading an object is tidy: it closes the brace that it opens. -/
theorem object_tidy (hs : (front finish s).kind = .punct .openBrace) (opened : List Punct) :
    Tidy finish (object finish value) opened opened s :=
  .skip_bind hs rfl (.bind (listUpTo_tidy rfl (entry_tidy (hvalue _)) _) fun _ _ =>
    .of_pure _ opened _)

/-- Reading an array is tidy: it closes the bracket that it opens. -/
theorem array_tidy (hs : (front finish s).kind = .punct .openBracket) (opened : List Punct) :
    Tidy finish (array finish value) opened opened s :=
  .skip_bind hs rfl (.bind (listUpTo_tidy rfl (hvalue _) _) fun _ _ => .of_pure _ opened _)

/-- Reading arguments is tidy: it closes the parenthesis that it opens. -/
theorem call_tidy (callee : Expr) (hs : (front finish s).kind = .punct .openParen)
    (opened : List Punct) : Tidy finish (call finish value callee) opened opened s :=
  .skip_bind hs rfl (.bind (listUpTo_tidy rfl (hvalue _) _) fun _ _ => .of_pure _ opened _)

/-- Reading a name, called or not, is tidy. -/
theorem segment_tidy (parent : Option Expr) (opened : List Punct) (s : List Token) :
    Tidy finish (segment finish value parent) opened opened s := by
  refine Tidy.expect_bind fun hsegment => .skip_bind hsegment rfl (Tidy.atPunct_bind ?_)
  split
  · next hparen => exact call_tidy hvalue _ (of_decide_eq_true hparen) opened
  · exact .of_pure _ opened _

/-- Reading the steps of a path is tidy. -/
theorem steps_tidy (budget : Nat) (path : Expr) (opened : List Punct) (s : List Token) :
    Tidy finish (steps finish value budget path) opened opened s := by
  induction budget generalizing path s with
  | zero =>
    refine Tidy.atPunct_bind ?_
    split
    · next hperiod =>
      exact .skip_bind (of_decide_eq_true hperiod) rfl (.current_bind (.of_throw rfl opened opened))
    · exact .of_pure path opened s
  | succ budget ih =>
    refine Tidy.atPunct_bind ?_
    split
    · next hperiod =>
      refine .skip_bind (of_decide_eq_true hperiod) rfl (Tidy.atPunct_bind ?_)
      split
      · next hparen =>
        split
        · exact .current_bind (.of_throw rfl opened opened)
        · exact (call_tidy hvalue path (of_decide_eq_true hparen) opened).bind fun callee r =>
            ih callee r
      · exact (segment_tidy hvalue (some path) opened _).bind fun next r => ih next r
    · exact .of_pure path opened s

/-- Reading a path is tidy. -/
theorem path_tidy (budget : Nat) (opened : List Punct) (s : List Token) :
    Tidy finish (path finish value budget) opened opened s :=
  (segment_tidy hvalue none opened s).bind fun first r => steps_tidy hvalue budget first opened r

omit hvalue

/-- **A value is read tidily,** whatever there is in its place. -/
theorem operand_tidy (budget : Nat) (opened : List Punct) (s : List Token) :
    Tidy finish (operand finish budget) opened opened s := by
  induction budget generalizing opened s with
  | zero =>
    refine Tidy.current_bind ?_
    split
    · next hl => exact literal_tidy hl opened
    all_goals exact .of_throw rfl opened opened
  | succ budget ih =>
    refine Tidy.current_bind ?_
    split
    · next hl => exact literal_tidy hl opened
    · next hs => exact object_tidy ih hs opened
    · next hs => exact array_tidy ih hs opened
    · exact path_tidy ih budget opened s
    · exact .of_throw rfl opened opened

/-- **A comparison is read tidily.** -/
theorem comparison_tidy (budget : Nat) (opened : List Punct) (s : List Token) :
    Tidy finish (comparison finish (operand finish budget)) opened opened s := by
  refine (operand_tidy budget opened s).bind fun left r => Tidy.current_bind ?_
  split
  · next op hop =>
    exact .skip_bind hop rfl ((operand_tidy budget opened _).bind fun right r =>
      .of_pure _ opened r)
  · exact .of_throw rfl opened opened

end FilterQuery.Grammar
