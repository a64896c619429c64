import FilterQuery.Proofs.Reader.Steps

/-!
# Proofs/Reader/Operand — the machine reads values as the parser does

A machine **follows** a rule at some tokens if it comes to the end that the rule comes to, whether
that is a value or an error, and takes the same tokens (`Follows`).  Sequences of rules are followed
one by one (`Follows.andThen`).  A loop that puts one item after the other into what it has follows
the list of all of them (`Follows.loop`), by induction on the tokens left, and a value is followed
by induction on the budget (`operand_follows`).
-/

namespace FilterQuery

variable {α β γ : Type}

/-- A rule with its result changed. -/
theorem Rule.apply_map {τ ε : Type} (f : α → β) (x : Rule τ ε α) (s : List τ) :
    (f <$> x).apply s = ((x.apply s).1.map f, (x.apply s).2) := by
  rw [← bind_pure_comp, Rule.apply_bind]
  rcases x.apply s with ⟨_ | _, _⟩ <;> rfl

namespace Machine

open Grammar (front unexpected tooDeep isComma decode)

variable {tokens s : List Token} {finish budget : Nat}

/-- At `s` the machine comes to the end that the rule comes to. -/
def Follows (tokens : List Token) (finish budget : Nat) (x : Machine (Except SyntaxError α))
    (y : Grammar.Rule α) (s : List Token) : Prop :=
  ∀ errors, Leads tokens budget x ⟨finish, s, errors⟩ (y.apply s).1 ⟨finish, (y.apply s).2, errors⟩

namespace Follows

variable {x : Machine (Except SyntaxError α)} {y y' : Grammar.Rule α}

/-- A machine that returns a tree at once follows the rule that does. -/
theorem of_ok (a : α) (s : List Token) :
    Follows tokens finish budget (pure (.ok a)) (pure a : Grammar.Rule α) s :=
  fun _ => .of_pure _ _

/-- A machine that fails at once follows the rule that does. -/
theorem of_error (e : SyntaxError) (s : List Token) :
    Follows tokens finish budget (pure (.error e)) (throw e : Grammar.Rule α) s :=
  fun _ => .of_pure _ _

/-- Following a rule is about what the rule does here only. -/
theorem congr (h : Follows tokens finish budget x y s) (hy : y.apply s = y'.apply s) :
    Follows tokens finish budget x y' s := by
  intro errors
  rw [← hy]
  exact h errors

/-- **A sequence of rules is followed one by one.** -/
theorem andThen {f : α → Machine (Except SyntaxError β)} {g : α → Grammar.Rule β}
    (h : Follows tokens finish budget x y s)
    (hf : ∀ a r, Follows tokens finish budget (f a) (g a) r) :
    Follows tokens finish budget (andThen x f) (y >>= g) s := by
  intro errors
  have hx := h errors
  rw [Rule.apply_bind]
  rcases hy : y.apply s with ⟨e | a, r⟩
  · rw [hy] at hx
    exact hx.bind (.of_pure _ _)
  · rw [hy] at hx
    exact hx.bind (hf a r errors)

/-- What a rule has read is changed on the way. -/
theorem andThen_map {x : Machine (Except SyntaxError β)} {f : α → β}
    {g : β → Machine (Except SyntaxError γ)} {k : β → Grammar.Rule γ}
    (h : Follows tokens finish budget x (f <$> y) s)
    (hg : ∀ b r, Follows tokens finish budget (g b) (k b) r) :
    Follows tokens finish budget (Machine.andThen x g) (y >>= fun a => k (f a)) s :=
  bind_map_left f y k ▸ h.andThen hg

/-- A choice is made alike. -/
theorem ite {c : Prop} [Decidable c] {x' : Machine (Except SyntaxError α)}
    (h : c → Follows tokens finish budget x y s) (h' : ¬ c → Follows tokens finish budget x' y' s) :
    Follows tokens finish budget (if c then x else x') (if decide c = true then y else y') s := by
  by_cases hc : c
  · rw [if_pos hc, if_pos (decide_eq_true hc)]
    exact h hc
  · rw [if_neg hc, if_neg (by simpa using hc)]
    exact h' hc

/-- Both look at the front token and go on with it. -/
theorem current_bind {f : Token → Machine (Except SyntaxError α)} {g : Token → Grammar.Rule α}
    (h : Follows tokens finish budget (f (front finish s)) (g (front finish s)) s) :
    Follows tokens finish budget (current >>= f) (Grammar.current finish >>= g) s :=
  fun errors => (current_leads _).bind (h errors)

/-- A test of the front token for a punctuation mark is made alike. -/
theorem atPunct_bind {p : Punct} {f : Token → Machine (Except SyntaxError α)}
    {g : Bool → Grammar.Rule α} (h : Follows tokens finish budget (f (front finish s))
      (g ((front finish s).kind = .punct p)) s) :
    Follows tokens finish budget (current >>= f) (Grammar.atPunct finish p >>= g) s :=
  fun errors => (current_leads _).bind (h errors)

/-- Both go one token on. -/
theorem advance_bind {f : Token → Machine (Except SyntaxError α)} {g : Unit → Grammar.Rule α}
    (h : Follows tokens finish budget (f (front finish s)) (g ()) s.tail) :
    Follows tokens finish budget (advance >>= f) (Rule.skip >>= g) s :=
  fun errors => (advance_leads _).bind (h errors)

/-- A look at the next token that the rule has had already. -/
theorem peek {f : Token → Machine (Except SyntaxError α)}
    (h : Follows tokens finish budget (f (front finish s)) y s) :
    Follows tokens finish budget (current >>= f) y s :=
  fun errors => (current_leads _).bind (h errors)

/-- A look at the depth, which is what the budget has come down by. -/
theorem depth_bind {f : Nat → Machine (Except SyntaxError α)}
    (h : budget ≤ maxDepth → Follows tokens finish budget (f (maxDepth - budget)) y s) :
    Follows tokens finish budget (depth >>= f) y s :=
  fun errors => .of_budget_le fun hle => (depth_leads _).bind (h hle errors)

/-- A level down the machine has one level of its budget more to spend. -/
theorem nested (h : Follows tokens finish budget x y s) :
    Follows tokens finish (budget + 1) (nested maxDepth x) y s :=
  fun errors => (h errors).nested

/-- With no level left the machine fails as too deep, as the rule does. -/
theorem nested_zero (x : Machine (Except SyntaxError α)) (s : List Token) :
    Follows tokens finish 0 (Machine.nested maxDepth x) (throw (tooDeep (front finish s))) s :=
  fun _ => nested_leads_zero x _

end Follows

/-! ## Tokens and lists -/

/-- An expected token is taken alike, or missed with the same mistake. -/
theorem expect_follows (kind : Token.Kind) (s : List Token) :
    Follows tokens finish budget (expect kind) (Grammar.expect finish kind) s := by
  refine .current_bind ?_
  split
  · exact .advance_bind (.of_ok _ _)
  · exact .of_error _ s

/-- At the closing mark `close` takes it and records nothing. -/
theorem close_leads_of_kind {p : Punct} (h : (front finish s).kind = .punct p)
    (errors : List SyntaxError) :
    Leads tokens budget (close p) ⟨finish, s, errors⟩ (.ok ()) ⟨finish, s.tail, errors⟩ := by
  refine (current_leads _).bind ?_
  rw [if_pos h]
  exact (advance_leads _).bind (.of_pure _ _)

/-- The end of a list, after what has been read of it. -/
theorem close_follows (c : γ) (p : Punct) (s : List Token) :
    Follows tokens finish budget (andThen (close p) fun _ => pure (.ok c))
      (Grammar.current finish >>= fun t =>
        if t.kind = .punct p then Rule.skip >>= fun _ => pure c
        else throw (unexpected (.commaOr p) t)) s := by
  intro errors
  by_cases hkind : (front finish s).kind = .punct p
  · rw [Grammar.apply_current_bind, if_pos hkind]
    exact (close_leads_of_kind hkind errors).bind (.of_pure _ _)
  · rw [Grammar.apply_current_bind, if_neg hkind]
    refine Leads.bind (a := .error (unexpected (.commaOr p) (front finish s))) ?_ (.of_pure _ _)
    refine (current_leads _).bind ?_
    rw [if_neg hkind]
    exact .of_pure _ _

/-- **What a loop makes of the items one by one is what is made of the list of them.** -/
theorem Follows.loop {x : Machine (Except SyntaxError α)} {item : Grammar.Rule α}
    {loop : γ → Machine (Except SyntaxError γ)} (add : γ → α → γ)
    (hitem : ∀ s, Follows tokens finish budget x item s)
    (hloop : ∀ c, loop c = Machine.andThen x fun a => do
      let t ← current
      if t.kind = .punct .comma then
        let _ ← advance
        loop (add c a)
      else return .ok (add c a)) (c : γ) (s : List Token) :
    Follows tokens finish budget (loop c) ((fun as => as.foldl add c) <$> Rule.list isComma item)
      s := by
  induction hlength : s.length using Nat.strongRecOn generalizing c s with
  | ind n ih =>
    subst hlength
    intro errors
    have hx := hitem s errors
    have hlist : (Rule.list isComma item).apply s = Rule.listFrom isComma item s := rfl
    rw [hloop, Rule.apply_map, hlist]
    rcases hitem' : item.apply s with ⟨e | a, r⟩
    · rw [hitem'] at hx
      rw [Rule.listFrom_of_error hitem']
      exact hx.bind (.of_pure _ _)
    rw [hitem'] at hx
    refine hx.bind ((current_leads _).bind ?_)
    by_cases hkind : (front finish r).kind = .punct .comma
    · -- the list goes on with what is left after the comma
      have hlt : r.tail.length < s.length := by
        have hle := (Rule.suffix_of_apply_eq hitem').length_le
        rw [Grammar.eq_front_cons_of_kind finish hkind (by simp)] at hle
        exact hle
      rw [Grammar.eq_front_cons_of_kind finish hkind (by simp)] at hitem'
      rw [if_pos hkind, Rule.listFrom_of_separator hitem' (decide_eq_true hkind)]
      have hmore := ih _ hlt (add c a) r.tail rfl errors
      have hmap : ∀ more : Except SyntaxError (List α),
          (more.map (a :: ·)).map (fun as => as.foldl add c) =
            more.map fun as => as.foldl add (add c a) := by
        rintro (_ | _) <;> rfl
      rw [Rule.apply_map] at hmore
      rw [hmap]
      exact (advance_leads _).bind hmore
    · have hstop : ∀ t us, r = t :: us → isComma t = false := by
        rintro t us rfl
        exact decide_eq_false hkind
      rw [if_neg hkind, Rule.listFrom_of_stop hitem' hstop]
      exact .of_pure _ _

/-- **A list is read with its closing mark.** -/
theorem listed_follows {items : Machine (Except SyntaxError γ)} {item : Grammar.Rule α}
    {f : List α → γ} (p : Punct)
    (h : ∀ s, Follows tokens finish budget items (f <$> Rule.list isComma item) s)
    (s : List Token) :
    Follows tokens finish budget (listed p (f []) items) (f <$> Grammar.listUpTo finish p item)
      s := by
  rw [Grammar.listUpTo_eq]
  by_cases hkind : (front finish s).kind = .punct p
  · intro errors
    rw [Rule.apply_map, Grammar.apply_atPunct_bind, if_pos (decide_eq_true hkind)]
    refine (current_leads _).bind ?_
    rw [if_pos hkind]
    exact Leads.bind (.of_pure _ _) ((close_leads_of_kind hkind errors).bind (.of_pure _ _))
  · refine .peek (Follows.congr (y := (f <$> Rule.list isComma item) >>= fun c =>
      Grammar.current finish >>= fun t => if t.kind = .punct p then Rule.skip >>= fun _ => pure c
        else throw (unexpected (.commaOr p) t)) ?_ ?_)
    · rw [if_neg hkind]
      exact (h s).andThen fun c r => close_follows c p r
    · rw [Rule.apply_map, Grammar.apply_atPunct_bind, if_neg (by simpa using hkind),
        Rule.apply_bind, Rule.apply_bind, Rule.apply_map]
      rcases (Rule.list isComma item).apply s with ⟨e | as, r⟩
      · rfl
      · simp only [Except.map, Grammar.apply_current_bind]
        split <;> rfl

/-! ## Values -/

/-- Literals are read alike. -/
theorem literal_follows (s : List Token) :
    Follows tokens finish budget literal (Grammar.literal finish) s := by
  refine fun errors => (advance_leads _).bind ?_
  rw [Grammar.literal, Grammar.apply_current_bind, Grammar.apply_skip_bind]
  cases decode (front finish s) <;> exact .of_pure _ _

/-- Keys of an object are read alike. -/
theorem key_follows (s : List Token) :
    Follows tokens finish budget key (Grammar.key finish) s := by
  refine (expect_follows _ s).andThen fun t r => ?_
  rcases decode t with e | (_ | _ | _ | _ | _ | _)
  all_goals first | exact .of_error _ r | exact .of_ok _ r

variable {value : Grammar.Rule Expr}
  (hvalue : ∀ s, Follows tokens finish budget rules.operand value s)
include hvalue

/-- Entries of an object are read alike, once values are. -/
theorem entry_follows (s : List Token) :
    Follows tokens finish budget rules.entry (Grammar.entry finish value) s := by
  rw [Rules.entry]
  exact (key_follows s).andThen fun _ r => (expect_follows _ r).andThen fun _ r =>
    (hvalue r).andThen fun _ r => .of_ok _ r

/-- Objects are read alike, once values are. -/
theorem object_follows (s : List Token) :
    Follows tokens finish budget rules.object (Grammar.object finish value) s := by
  have hentries : ∀ fields s, Follows tokens finish budget (rules.entries fields) _ s :=
    Follows.loop (fun fields new => fields.insert new.1 new.2) (entry_follows hvalue)
      (Rules.entries.eq_1 rules)
  rw [Rules.object]
  exact .advance_bind ((listed_follows .closeBrace (hentries []) _).andThen_map fun _ r =>
    .of_ok _ r)

/-- Lists up to a closing mark are read alike, once values are. -/
theorem values_follows (p : Punct) (s : List Token) :
    Follows tokens finish budget (listed p [] (rules.items []))
      (Grammar.listUpTo finish p value) s := by
  have hitems : ∀ s, Follows tokens finish budget (rules.items [])
      ((fun values => values) <$> Rule.list isComma value) s := by
    intro s
    have hall := Follows.loop (fun values value => values ++ [value]) hvalue
      (Rules.items.eq_1 rules) [] s
    simpa only [List.foldl_append_eq_append, List.nil_append, ← List.flatMap_def,
      List.flatMap_singleton'] using hall
  have hlisted := listed_follows p hitems s
  rwa [id_map'] at hlisted

/-- Arrays are read alike, once values are. -/
theorem array_follows (s : List Token) :
    Follows tokens finish budget rules.array (Grammar.array finish value) s := by
  rw [Rules.array]
  exact .advance_bind ((values_follows hvalue _ _).andThen fun _ r => .of_ok _ r)

/-- The arguments of a call are read alike, once values are. -/
theorem call_follows (callee : Expr) (s : List Token) :
    Follows tokens finish budget (rules.call callee) (Grammar.call finish value callee) s := by
  rw [Rules.call]
  exact .advance_bind ((values_follows hvalue _ _).andThen fun _ r => .of_ok _ r)

/-- One name of a path, with the call on it, is read alike. -/
theorem segment_follows (parent : Option Expr) (s : List Token) :
    Follows tokens finish budget (rules.segment parent)
      (Grammar.segment finish value parent) s := by
  rw [Rules.segment]
  refine (expect_follows _ s).andThen fun name r => .atPunct_bind (.ite (fun _ => ?_) fun _ => ?_)
  · exact call_follows hvalue _ r
  · exact .of_ok _ r

/-- Steps are counted up to the depth that there may be, or down from the budget. -/
theorem steps_follows {room count : Nat} (hcount : count + room = budget) (path : Expr)
    (s : List Token) :
    Follows tokens finish budget (rules.steps path count)
      (Grammar.steps finish value room path) s := by
  induction room generalizing count path s with
  | zero =>
    rw [Rules.steps, rules_limit]
    refine .atPunct_bind (.ite (fun _ => ?_) fun _ => .of_ok path s)
    refine .advance_bind (.current_bind (.depth_bind fun _ => ?_))
    rw [if_pos (by omega)]
    exact .of_error _ _
  | succ room ih =>
    have hnext : ∀ next r, Follows tokens finish budget (rules.steps next (count + 1))
        (Grammar.steps finish value room next) r := fun next r => ih (by omega) next r
    rw [Rules.steps, rules_limit]
    refine .atPunct_bind (.ite (fun _ => ?_) fun _ => .of_ok path s)
    refine .advance_bind (.atPunct_bind (.depth_bind fun _ => ?_))
    rw [if_neg (by omega)]
    refine .ite (fun _ => ?_) fun _ => (segment_follows hvalue (some path) _).andThen hnext
    split
    · exact .of_error _ _
    · exact (call_follows hvalue path _).andThen hnext

/-- Whole paths are read alike, within the levels their steps spend. -/
theorem path_follows (s : List Token) :
    Follows tokens finish budget rules.path (Grammar.path finish value budget) s := by
  rw [Rules.path]
  exact (segment_follows hvalue none s).andThen fun first r =>
    steps_follows hvalue (Nat.zero_add budget) first r

omit hvalue

/-- **A value is read as by recursion on the budget.** -/
theorem operand_follows (budget : Nat) (s : List Token) :
    Follows tokens finish budget rules.operand (Grammar.operand finish budget) s := by
  induction budget generalizing s with
  | zero =>
    rw [Rules.operand]
    refine .current_bind ?_
    rcases (front finish s).kind with _ | _ | _ | _ | p | _
    case literal => exact literal_follows s
    case segment => exact .nested_zero rules.path s
    case punct =>
      cases p
      case openBrace => exact .nested_zero rules.object s
      case openBracket => exact .nested_zero rules.array s
      all_goals exact .of_error _ s
    all_goals exact .of_error _ s
  | succ budget ih =>
    rw [Rules.operand]
    refine .current_bind ?_
    rcases (front finish s).kind with _ | _ | _ | _ | p | _
    case literal => exact literal_follows s
    case segment => exact .nested (path_follows ih s)
    case punct =>
      cases p
      case openBrace => exact .nested (object_follows ih s)
      case openBracket => exact .nested (array_follows ih s)
      all_goals exact .of_error _ s
    all_goals exact .of_error _ s

end Machine

end FilterQuery
