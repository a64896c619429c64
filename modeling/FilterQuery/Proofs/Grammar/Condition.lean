import FilterQuery.Grammar.Condition
import FilterQuery.Proofs.Grammar.Operand

/-!
# Proofs/Grammar/Condition — the reader of conditions reads what the grammar derives

A condition that has an expression has not been recovered anywhere, for an operand that is given up
takes the whole chain with it (`Progress.foldl_step_of_none`).  So what is left is the reading
without mistakes: the atoms are read one by one, and what has been joined so far is an atom or a
`Chain` (`Joined`), with a record of how often its connector has changed.
-/

namespace FilterQuery.Grammar

open FilterQuery.Rule (Yields apply_bind_of_ok apply_bind_eq_ok_iff apply_pure_eq_ok_iff
  apply_throw_ne_ok)

variable (finish : Nat) {limit : Nat}

/-! ## Comparisons -/

/-- What the comparison rule takes is an atom: two operands with a comparator between them. -/
theorem comparison_yields {value : Rule Expr} {depth : Nat}
    (hvalue : value.Yields (Operand limit depth)) :
    (comparison finish value).Yields (Atom limit depth) := by
  intro s e r h
  rw [comparison] at h
  obtain ⟨left, u, hleft, hop⟩ := apply_bind_eq_ok_iff.1 h
  obtain ⟨ts, rfl, hts⟩ := hvalue _ _ _ hleft
  rw [apply_current_bind] at hop
  split at hop
  · next op hkind =>
    rw [apply_skip_bind] at hop
    obtain ⟨right, v, hright, hend⟩ := apply_bind_eq_ok_iff.1 hop
    obtain ⟨rfl, rfl⟩ := apply_pure_eq_ok_iff.1 hend
    obtain ⟨us, hus, husop⟩ := hvalue _ _ _ hright
    refine ⟨ts ++ front finish u :: us, ?_, .comparison hts hkind husop⟩
    rw [List.append_assoc, List.cons_append, ← hus, ← eq_front_cons_of_kind finish hkind (by simp)]
  · exact absurd hop apply_throw_ne_ok

/-- On the tokens of a comparison the rule takes exactly these, once the operand rule takes each
side. -/
theorem comparison_apply {value : Rule Expr} {left right : Expr} {ts us : List Token} {t : Token}
    {op : Comparator} (ht : t.kind = .comparator op)
    (hleft : ∀ rest, Follow finish rest → value.apply (ts ++ rest) = (.ok left, rest))
    (hright : ∀ rest, Follow finish rest → value.apply (us ++ rest) = (.ok right, rest))
    (rest : List Token) (hrest : Follow finish rest) :
    (comparison finish value).apply (ts ++ t :: us ++ rest) =
      (.ok (.comparison left op right), rest) := by
  have hfollow : Follow finish (t :: (us ++ rest)) :=
    follow_of_kind finish ht (by simp) (by simp) _
  rw [comparison, List.append_assoc, List.cons_append, apply_bind_of_ok (hleft _ hfollow),
    apply_current_bind, front_cons, ht]
  change (Rule.skip >>= fun _ => value >>= _).apply (t :: (us ++ rest)) = _
  rw [apply_skip_bind, List.tail_cons, apply_bind_of_ok (hright rest hrest)]
  rfl

/-! ## Atoms -/

/-- Whenever `x` comes to an expression, it has taken tokens that `P` relates to it. -/
def Reads (x : Consumer Token Reading) (P : List Token → Expr → Prop) : Prop :=
  ∀ s e, (x.run s).1.expr = some e → ∃ ts, s = ts ++ (x.run s).2 ∧ P ts e

/-- The reader of groups within a nesting budget. -/
def inner : (budget : Nat) → Option (Consumer Token Reading)
  | 0 => none
  | budget + 1 => some (condition finish budget)

theorem condition_eq (budget : Nat) :
    condition finish budget = conditionWith finish budget (inner finish budget) := by
  cases budget <;> rfl

/-- The reader of one atom, which skips an atom that breaks the grammar. -/
abbrev operandOf (budget : Nat) : Consumer Token Reading :=
  recovering (atom finish budget (inner finish budget))

/-- Away from a parenthesis an atom is one comparison, with no mistakes of its own recorded. -/
theorem atom_run_of_not_openParen (budget : Nat) {s : List Token}
    (h : (front finish s).kind ≠ .punct .openParen) :
    (atom finish budget (inner finish budget)).run s =
      (⟨((comparison finish (operand finish budget)).apply s).1.map some, []⟩,
        ((comparison finish (operand finish budget)).apply s).2) :=
  congrArg (Consumer.run · s) (if_neg h)

/-- At a parenthesis with a level left an atom is a group around the condition inside. -/
theorem atom_run_of_openParen (budget : Nat) {s : List Token}
    (h : (front finish s).kind = .punct .openParen) :
    (atom finish (budget + 1) (inner finish (budget + 1))).run s =
      (group finish (condition finish budget)).run s := by
  have hrun : (atom finish (budget + 1) (inner finish (budget + 1))).run s =
      (ite ((front finish s).kind = .punct .openParen) (group finish (condition finish budget))
        _ : Consumer Token Attempt).run s := rfl
  rw [hrun, if_pos h]

/-- At a parenthesis with no level left the atom fails as too deep, in place. -/
theorem atom_run_of_openParen_zero {s : List Token}
    (h : (front finish s).kind = .punct .openParen) :
    (atom finish 0 (inner finish 0)).run s = (⟨.error (tooDeep (front finish s)), []⟩, s) :=
  congrArg (Consumer.run · s) (if_pos h)

/-- A group that meets its closing parenthesis hands on what was read inside, mistakes included. -/
theorem group_run_of_closeParen (x : Consumer Token Reading) {s : List Token}
    (h : (front finish (x.run s.tail).2).kind = .punct .closeParen) :
    (group finish x).run s =
      (⟨.ok ((x.run s.tail).1.expr.map .group), (x.run s.tail).1.errors⟩, (x.run s.tail).2.tail) :=
  congrArg (Consumer.run · (x.run s.tail).2) (if_pos h)

/-- A group that does not meet its closing parenthesis fails where it expected one. -/
theorem group_run_of_not_closeParen (x : Consumer Token Reading) {s : List Token}
    (h : (front finish (x.run s.tail).2).kind ≠ .punct .closeParen) :
    (group finish x).run s =
      (⟨.error (unexpected .connectorOrCloseParen (front finish (x.run s.tail).2)),
        (x.run s.tail).1.errors⟩, (x.run s.tail).2) :=
  congrArg (Consumer.run · (x.run s.tail).2) (if_neg h)

/-- What needs no recovery is left as it is. -/
theorem recovering_run_of_ok {x : Consumer Token Attempt} {s r : List Token} {expr : Option Expr}
    {errors : List SyntaxError} (h : x.run s = (⟨.ok expr, errors⟩, r)) :
    (recovering x).run s = (⟨expr, errors⟩, r) := by
  have hrest : Consumer.rest.run s = (s, s) := rfl
  rw [recovering, Consumer.run_bind, Consumer.run_bind, hrest, h]
  rfl

/-- An atom that fails leaves no tree behind, whatever is skipped afterwards. -/
theorem expr_recovering_run_of_error {x : Consumer Token Attempt} {s r : List Token}
    {err : SyntaxError} {errors : List SyntaxError} (h : x.run s = (⟨.error err, errors⟩, r)) :
    ((recovering x).run s).1.expr = none := by
  have hrest : Consumer.rest.run s = (s, s) := rfl
  rw [recovering, Consumer.run_bind, Consumer.run_bind, hrest, h]
  rfl

/-- What comes out of recovery as a tree has needed none. -/
theorem recovering_run_eq_some {x : Consumer Token Attempt} {s : List Token} {e : Expr}
    (h : ((recovering x).run s).1.expr = some e) :
    (x.run s).1.result = .ok (some e) ∧ ((recovering x).run s).2 = (x.run s).2 := by
  rcases hx : x.run s with ⟨⟨err | expr, errors⟩, r⟩
  · rw [expr_recovering_run_of_error hx] at h
    cases h
  · rw [recovering_run_of_ok hx] at h ⊢
    obtain rfl : expr = some e := h
    exact ⟨rfl, rfl⟩

/-- **What is read as an atom is an atom,** if what is read as a condition in it is a condition. -/
theorem operandOf_reads {budget depth : Nat} (hlimit : depth + budget = limit)
    (hcondition : ∀ b, budget = b + 1 → Reads (condition finish b) (Condition limit (depth + 1))) :
    Reads (operandOf finish budget) (Atom limit depth) := by
  intro s e h
  obtain ⟨hres, hrest⟩ := recovering_run_eq_some h
  rw [hrest]
  by_cases hparen : (front finish s).kind = .punct .openParen
  · cases budget with
    | zero =>
      rw [atom_run_of_openParen_zero finish hparen] at hres
      cases hres
    | succ budget =>
      rw [atom_run_of_openParen finish budget hparen] at hres ⊢
      by_cases hclose : (front finish ((condition finish budget).run s.tail).2).kind =
          .punct .closeParen
      · rw [group_run_of_closeParen finish _ hclose] at hres ⊢
        obtain ⟨e', he', rfl⟩ := Option.map_eq_some_iff.1 (Except.ok.inj hres)
        obtain ⟨ts, hts, hcond⟩ := hcondition budget rfl _ _ he'
        refine ⟨front finish s ::
          (ts ++ [front finish ((condition finish budget).run s.tail).2]), ?_,
          .group (by omega) hcond ⟨_, _, hparen, hclose, rfl⟩⟩
        rw [List.cons_append, List.append_assoc, List.singleton_append,
          ← eq_front_cons_of_kind finish hclose (by simp), ← hts]
        exact eq_front_cons_of_kind finish hparen (by simp)
      · rw [group_run_of_not_closeParen finish _ hclose] at hres
        cases hres
  · rw [atom_run_of_not_openParen finish budget hparen] at hres ⊢
    rcases happly : (comparison finish (operand finish budget)).apply s with ⟨err | e', r⟩
    · rw [happly] at hres
      cases hres
    · rw [happly] at hres
      cases hres
      exact comparison_yields finish (operand_yields finish budget depth hlimit) s e r happly

/-! ## Chains -/

/-- A joint is a connector seen with its offset. -/
theorem joint?_eq_some_iff {t : Token} {j : Joint} :
    joint? t = some j ↔ t.kind = .connector j.op ∧ j.offset = t.offset := by
  rw [joint?]
  split
  · next op hop =>
    rw [hop]
    constructor
    · rintro ⟨⟩
      exact ⟨rfl, rfl⟩
    · rintro ⟨hkind, hoffset⟩
      cases hkind
      rw [← hoffset]
  · next hne => simpa using fun h _ => hne _ h

/-- What reading comes to when `p` has been read and joined, and `s` is left. -/
def goOn (item : Consumer Token Reading) (p : Progress) (s : List Token) : Reading × List Token :=
  let more := Consumer.separatedTail joint? item s
  ((more.1.foldl Progress.step p).reading, more.2)

/-- A condition is its first operand, and then the loop over the joints. -/
theorem conditionWith_run (budget : Nat) (s : List Token) :
    (conditionWith finish budget (inner finish budget)).run s =
      goOn (operandOf finish budget) ⟨((operandOf finish budget).run s).1, budget⟩
        ((operandOf finish budget).run s).2 := rfl

/-- Where no joint follows the loop ends with what it has. -/
theorem goOn_of_stop (item : Consumer Token Reading) (p : Progress) {s : List Token}
    (h : ∀ t us, s = t :: us → joint? t = none) : goOn item p s = (p.reading, s) := by
  cases s with
  | nil => rw [goOn, Consumer.separatedTail, List.foldl_nil]
  | cons t s => rw [goOn, Consumer.separatedTail, h t s rfl, List.foldl_nil]

/-- At a joint the loop takes one more operand and goes on from the progress it makes. -/
theorem goOn_of_joint (item : Consumer Token Reading) (p : Progress) {t : Token} {j : Joint}
    (h : joint? t = some j) (s : List Token) :
    goOn item p (t :: s) = goOn item (p.step (j, (item.run s).1)) (item.run s).2 := by
  rw [goOn, Consumer.separatedTail, h]
  rfl

/-- What has been joined so far, and how often it has changed its connector. -/
inductive Joined (limit depth : Nat) : List Token → Nat → Expr → Prop
  | atom {ts : List Token} {e : Expr} : Atom limit depth ts e → Joined limit depth ts 0 e
  | chain {ts : List Token} {changes : Nat} {op : Connector} {operands : List Expr} :
      Chain limit depth ts changes op operands → Joined limit depth ts changes (.chain op operands)

theorem Joined.condition {depth changes : Nat} {ts : List Token} {e : Expr}
    (h : Joined limit depth ts changes e) (hchanges : depth + changes ≤ limit) :
    Condition limit depth ts e := by
  cases h with
  | atom hatom => exact .atom hatom
  | chain hchain => exact .chain hchain hchanges

/-- An atom is no chain, so joining to it changes no connector. -/
theorem Atom.join {depth : Nat} {ts : List Token} {e : Expr} (h : Atom limit depth ts e)
    (op : Connector) (right : Expr) :
    changesConnector (some e) op = false ∧ e.join op right = .chain op [e, right] := by
  cases h <;> exact ⟨rfl, rfl⟩

/-- A joint that does not change the connector costs nothing. -/
theorem Progress.charge_of_not_changes {p : Progress} {j : Joint}
    (h : changesConnector p.reading.expr j.op = false) : p.charge j = p := by
  rw [Progress.charge, if_neg (by simp [h])]

/-- A chain that has been given up stays so. -/
theorem Progress.step_of_none {p : Progress} (h : p.reading.expr = none) (part : Joint × Reading) :
    (p.step part).reading.expr = none := by
  rw [Progress.step, Progress.charge_of_not_changes (by rw [h]; rfl), Progress.append, h]

/-- A condition that has lost an operand never gets its tree back. -/
theorem Progress.foldl_step_of_none (parts : List (Joint × Reading)) {p : Progress}
    (h : p.reading.expr = none) : (parts.foldl Progress.step p).reading.expr = none := by
  induction parts generalizing p with
  | nil => exact h
  | cons part parts ih => exact ih (Progress.step_of_none h part)

/-- **One more operand keeps what has been joined a derivation,** and a change of the connector is
paid for. -/
theorem Joined.step {depth changes : Nat} {ts us : List Token} {t : Token} {j : Joint}
    {e right e' : Expr} (h : Joined limit depth ts changes e) (hj : joint? t = some j)
    (hright : Atom limit depth us right) {p : Progress} (hp : p.reading.expr = some e)
    {part : Reading} (hpart : part.expr = some right)
    (he' : (p.step (j, part)).reading.expr = some e') :
    ∃ changes', Joined limit depth (ts ++ t :: us) changes' e' ∧
      changes' + (p.step (j, part)).changes = changes + p.changes := by
  obtain ⟨hkind, -⟩ := joint?_eq_some_iff.1 hj
  cases h with
  | atom hatom =>
    obtain ⟨hchange, hjoin⟩ := hatom.join j.op right
    rw [Progress.step, Progress.charge_of_not_changes (hp ▸ hchange)] at he' ⊢
    simp only [Progress.append, hp, hpart, hjoin, Option.some.injEq] at he' ⊢
    exact ⟨0, he' ▸ .chain (.pair hatom hkind hright), rfl⟩
  | @chain _ op' operands hchain =>
    by_cases hop : op' = j.op
    · have hchange : changesConnector (some (.chain op' operands)) j.op = false := by
        simp [changesConnector, hop]
      rw [Progress.step, Progress.charge_of_not_changes (hp ▸ hchange)] at he' ⊢
      simp only [Progress.append, hp, hpart, Expr.join, if_pos hop, Option.some.injEq] at he' ⊢
      exact ⟨changes, he' ▸ .chain (.same (hop ▸ hchain) hkind hright), rfl⟩
    · have hchange : changesConnector p.reading.expr j.op = true := by
        simp [hp, changesConnector, hop]
      rw [Progress.step, Progress.charge, if_pos hchange] at he' ⊢
      split at he'
      · cases he'
      · next n hn =>
        simp only [Progress.append, hp, hpart, Expr.join, if_neg hop, Option.some.injEq] at he'
        refine ⟨changes + 1, he' ▸ .chain (.change hchain hop hkind hright), ?_⟩
        rw [hn]
        simp only [Progress.append]
        omega

/-- **What the loop adds** to a joined condition is again one, over the tokens it took and with at
most as many changes of connector as it was charged. -/
theorem goOn_reads {item : Consumer Token Reading} {depth : Nat}
    (hitem : Reads item (Atom limit depth)) {s ts : List Token} {changes : Nat} {e e' : Expr}
    {p : Progress} (h : Joined limit depth ts changes e) (hp : p.reading.expr = some e)
    (he' : (goOn item p s).1.expr = some e') :
    ∃ us changes', s = us ++ (goOn item p s).2 ∧ Joined limit depth (ts ++ us) changes' e' ∧
      changes' ≤ changes + p.changes := by
  induction s using Consumer.separatedTail.induct joint? item generalizing ts changes e p with
  | case1 =>
    rw [goOn_of_stop item p (by simp)] at he' ⊢
    obtain rfl : e = e' := Option.some.inj (hp.symm.trans he')
    exact ⟨[], changes, rfl, by rwa [List.append_nil], Nat.le_add_right _ _⟩
  | case2 t s ht =>
    rw [goOn_of_stop item p (by simpa using ht)] at he' ⊢
    obtain rfl : e = e' := Option.some.inj (hp.symm.trans he')
    exact ⟨[], changes, rfl, by rwa [List.append_nil], Nat.le_add_right _ _⟩
  | case3 t s j ht ih =>
    rw [goOn_of_joint item p ht] at he' ⊢
    -- neither the operand nor the joined chain has been given up, for the whole would be
    obtain ⟨e'', hstep⟩ : ∃ e'', (p.step (j, (item.run s).1)).reading.expr = some e'' := by
      refine Option.ne_none_iff_exists'.1 fun hnone => ?_
      rw [goOn, Progress.foldl_step_of_none _ hnone] at he'
      cases he'
    obtain ⟨right, hright⟩ : ∃ right, (item.run s).1.expr = some right := by
      refine Option.ne_none_iff_exists'.1 fun hnone => ?_
      rw [Progress.step, Progress.append, hnone] at hstep
      cases hcharge : (p.charge j).reading.expr <;> simp [hcharge] at hstep
    obtain ⟨us, hs, hatom⟩ := hitem s right hright
    obtain ⟨changes', hjoined, hcount⟩ := h.step ht hatom hp hright hstep
    obtain ⟨vs, changes'', hrest, hjoined', hle⟩ := ih hjoined hstep he'
    refine ⟨t :: (us ++ vs), changes'', ?_, by simpa using hjoined', by omega⟩
    rw [List.cons_append, List.append_assoc, ← hrest, ← hs]

/-- A condition rule reads conditions of its own depth when the rule one level down does. -/
theorem conditionWith_reads {budget depth : Nat} (hlimit : depth + budget = limit)
    (hinner : ∀ b, budget = b + 1 → Reads (condition finish b) (Condition limit (depth + 1))) :
    Reads (condition finish budget) (Condition limit depth) := by
  have hitem := operandOf_reads finish hlimit hinner
  intro s e h
  rw [condition_eq, conditionWith_run] at h ⊢
  obtain ⟨first, hfirst⟩ : ∃ e, ((operandOf finish budget).run s).1.expr = some e := by
    refine Option.ne_none_iff_exists'.1 fun hnone => ?_
    rw [goOn, Progress.foldl_step_of_none _ hnone] at h
    cases h
  obtain ⟨ts, hs, hatom⟩ := hitem s first hfirst
  obtain ⟨us, changes, hrest, hjoined, hle⟩ := goOn_reads hitem (.atom hatom) hfirst h
  have hle : changes ≤ 0 + budget := hle
  refine ⟨ts ++ us, ?_, hjoined.condition (by omega)⟩
  rw [List.append_assoc, ← hrest, ← hs]

/-- **What is read as a condition is a condition.** -/
theorem condition_reads : ∀ (budget depth : Nat), depth + budget = limit →
    Reads (condition finish budget) (Condition limit depth) := by
  intro budget
  induction budget with
  | zero =>
    intro depth hlimit
    exact conditionWith_reads finish hlimit fun b hb => by cases hb
  | succ budget ih =>
    intro depth hlimit
    refine conditionWith_reads finish hlimit fun b hb => ?_
    cases hb
    exact ih (depth + 1) (by omega)

/-! ## What has a derivation is read -/

/-- What may follow a condition: nothing that would go on with its last value, and no connector. -/
def ConditionFollow (rest : List Token) : Prop :=
  Follow finish rest ∧ ∀ t us, rest = t :: us → joint? t = none

theorem conditionFollow_of_kind {t : Token} {k : Token.Kind} (h : t.kind = k)
    (hperiod : k ≠ .punct .period) (hparen : k ≠ .punct .openParen)
    (hconnector : ∀ op, k ≠ .connector op) (rest : List Token) :
    ConditionFollow finish (t :: rest) := by
  refine ⟨follow_of_kind finish h hperiod hparen rest, ?_⟩
  rintro _ _ ⟨⟩
  rw [joint?]
  split
  · next op hop => exact absurd (h.symm.trans hop) (hconnector op)
  · rfl

/-- An operand never begins with a parenthesis, so a group is told from it by the first token. -/
theorem Operand.front_ne_openParen {depth : Nat} {ts : List Token} {e : Expr}
    (h : Operand limit depth ts e) (rest : List Token) :
    (front finish (ts ++ rest)).kind ≠ .punct .openParen := by
  obtain ⟨t, us, rfl, ht⟩ := h.ne_punct (rfl : startsOperand (.punct .openParen) = false)
  exact ht

/-- The second operand of a condition starts a chain with the first. -/
theorem Progress.step_of_atom {depth : Nat} {ts : List Token} {e : Expr} (h : Atom limit depth ts e)
    (j : Joint) (right : Expr) (changes : Nat) :
    Progress.step ⟨⟨some e, []⟩, changes⟩ (j, ⟨some right, []⟩) =
      ⟨⟨some (.chain j.op [e, right]), []⟩, changes⟩ := by
  obtain ⟨hchange, hjoin⟩ := h.join j.op right
  rw [Progress.step, Progress.charge_of_not_changes hchange, Progress.append]
  simp [hjoin]

/-- An operand after the connector of the chain joins the chain. -/
theorem Progress.step_of_same {j : Joint} (operands : List Expr) (right : Expr) (changes : Nat) :
    Progress.step ⟨⟨some (.chain j.op operands), []⟩, changes⟩ (j, ⟨some right, []⟩) =
      ⟨⟨some (.chain j.op (operands ++ [right])), []⟩, changes⟩ := by
  have hchange : changesConnector (some (.chain j.op operands)) j.op = false := by
    simp [changesConnector]
  rw [Progress.step, Progress.charge_of_not_changes hchange, Progress.append]
  simp [Expr.join]

/-- An operand after the other connector puts the chain so far under a new one. -/
theorem Progress.step_of_change {op : Connector} {j : Joint} (hop : op ≠ j.op)
    (operands : List Expr) (right : Expr) (changes : Nat) :
    Progress.step ⟨⟨some (.chain op operands), []⟩, changes + 1⟩ (j, ⟨some right, []⟩) =
      ⟨⟨some (.chain j.op [.chain op operands, right]), []⟩, changes⟩ := by
  have hchange : changesConnector (some (.chain op operands)) j.op = true := by
    simp [changesConnector, hop]
  rw [Progress.step, Progress.charge, if_pos hchange, Progress.append]
  simp [Expr.join, hop]

/-- Reading an operand after a connector is one step of what has been joined. -/
theorem goOn_apply {budget : Nat} {t : Token} {op : Connector} {right : Expr} {us rest : List Token}
    (ht : t.kind = .connector op)
    (hright : (operandOf finish budget).run (us ++ rest) = (⟨some right, []⟩, rest))
    (p : Progress) :
    goOn (operandOf finish budget) p (t :: (us ++ rest)) =
      goOn (operandOf finish budget) (p.step (⟨op, t.offset⟩, ⟨some right, []⟩)) rest := by
  have hj : joint? t = some ⟨op, t.offset⟩ := joint?_eq_some_iff.2 ⟨ht, rfl⟩
  rw [goOn_of_joint _ p hj, hright]

mutual

/-- **An atom is read as its tree,** with nothing to recover. -/
theorem Atom.apply {depth budget : Nat} (hlimit : depth + budget = limit) {ts : List Token}
    {e : Expr} : Atom limit depth ts e → ∀ rest, Follow finish rest →
      (operandOf finish budget).run (ts ++ rest) = (⟨some e, []⟩, rest)
  | @Atom.comparison _ _ ts us t op left right hleft ht hright, rest, hrest => by
    refine recovering_run_of_ok ?_
    have hparen := hleft.front_ne_openParen finish (t :: us ++ rest)
    rw [← List.append_assoc] at hparen
    have happly := comparison_apply finish ht (hleft.apply finish hlimit)
      (hright.apply finish hlimit) rest hrest
    rw [atom_run_of_not_openParen finish budget hparen, happly]
    rfl
  | @Atom.group _ _ inner _ e hdepth hcondition henc, rest, hrest => by
    obtain ⟨budget, rfl⟩ : ∃ n, budget = n + 1 := ⟨budget - 1, by omega⟩
    obtain ⟨o, c, ho, hc, rfl⟩ := henc
    have hfollow : ConditionFollow finish (c :: rest) :=
      conditionFollow_of_kind finish hc (by simp) (by simp) (by simp) rest
    have hread := hcondition.apply (by omega : depth + 1 + budget = limit) (c :: rest) hfollow
    have htail : (o :: (inner ++ [c]) ++ rest).tail = inner ++ c :: rest := by simp
    refine recovering_run_of_ok ?_
    rw [atom_run_of_openParen finish budget (by exact ho), group_run_of_closeParen, htail, hread]
    · rfl
    · rw [htail, hread]
      exact hc

/-- **A chain is read up to its last operand,** and reading goes on from there with as many changes
of the connector as are left. -/
theorem Chain.apply {depth budget : Nat} (hlimit : depth + budget = limit) {ts : List Token}
    {changes : Nat} {op : Connector} {operands : List Expr} :
    Chain limit depth ts changes op operands → changes ≤ budget → ∀ rest, Follow finish rest →
      (condition finish budget).run (ts ++ rest) =
        goOn (operandOf finish budget)
          ⟨⟨some (.chain op operands), []⟩, budget - changes⟩ rest
  | @Chain.pair _ _ ts us t op left right hleft ht hright, _, rest, hrest => by
    have hfollow : Follow finish (t :: (us ++ rest)) :=
      follow_of_kind finish ht (by simp) (by simp) _
    rw [condition_eq, conditionWith_run, List.append_assoc, List.cons_append,
      hleft.apply hlimit _ hfollow, goOn_apply finish ht (hright.apply hlimit rest hrest),
      Progress.step_of_atom hleft]
    rfl
  | @Chain.same _ _ changes ts us t op operands right hchain ht hright, hchanges, rest, hrest => by
    have hfollow : Follow finish (t :: (us ++ rest)) :=
      follow_of_kind finish ht (by simp) (by simp) _
    rw [List.append_assoc, List.cons_append, hchain.apply hlimit hchanges _ hfollow,
      goOn_apply finish ht (hright.apply hlimit rest hrest)]
    exact congrArg (goOn _ · rest) (Progress.step_of_same (j := ⟨op, t.offset⟩) operands right _)
  | @Chain.change _ _ changes ts us t op op' operands right hchain hop ht hright, hchanges, rest,
      hrest => by
    have hfollow : Follow finish (t :: (us ++ rest)) :=
      follow_of_kind finish ht (by simp) (by simp) _
    have hbudget : budget - changes = budget - (changes + 1) + 1 := by omega
    rw [List.append_assoc, List.cons_append, hchain.apply hlimit (by omega) _ hfollow, hbudget,
      goOn_apply finish ht (hright.apply hlimit rest hrest)]
    have hstep := Progress.step_of_change (j := ⟨op, t.offset⟩) hop operands right
    exact congrArg (goOn _ · rest) (hstep _)

/-- **A condition is read as its tree,** without errors. -/
theorem Condition.apply {depth budget : Nat} (hlimit : depth + budget = limit) {ts : List Token}
    {e : Expr} : Condition limit depth ts e → ∀ rest, ConditionFollow finish rest →
      (condition finish budget).run (ts ++ rest) = (⟨some e, []⟩, rest)
  | .atom hatom, rest, hrest => by
    rw [condition_eq, conditionWith_run, hatom.apply hlimit rest hrest.1]
    exact goOn_of_stop _ _ hrest.2
  | .chain hchain hchanges, rest, hrest => by
    rw [hchain.apply hlimit (by omega) rest hrest.1]
    exact goOn_of_stop _ _ hrest.2

end

end FilterQuery.Grammar
