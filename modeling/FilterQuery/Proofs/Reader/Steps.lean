import FilterQuery.Proofs.Grammar.Operand
import FilterQuery.Proofs.Reader.Machine

/-!
# Proofs/Reader/Steps — a machine keeps up with a parser

    parser     what is left    the budget left         the errors recorded
    machine    the position    the depth, up to the    the errors recorded
                               most there may be

`At tokens budget p r` says that the machine `r` stands where the parser `p` does, and that its
trail is in order: it has never gone back or past its tokens, nor deeper than `maxDepth`.  **A
machine leads from a parser to another one** (`Leads`) if it comes to an end there from every such
stand.  That is so of every single step, and of every sequence of computations of which each starts
where the one before it ends (`Leads.bind`); a nested rule leads where it does without a unit of the
budget (`Leads.nested`).
-/

namespace FilterQuery.Machine

open Grammar (front endToken tooDeep)

variable {α β : Type} {tokens : List Token} {budget : Nat} {p p' p'' : Parser}

/-- The machine stands where the parser `p` does in `tokens`, with `budget` rules to enter yet, and
its trail is in order. -/
structure At (tokens : List Token) (budget : Nat) (p : Parser) (r : Reader) : Prop where
  tokens_eq : r.tokens = tokens
  finish_eq : r.finish = p.finish
  rest_eq : tokens.drop r.stand.position = p.rest
  depth_eq : r.stand.depth + budget = maxDepth
  errors_eq : r.errors = p.errors
  forward : r.trail.Pairwise fun later earlier => earlier.position ≤ later.position
  within : ∀ x ∈ r.trail, x.position ≤ tokens.length ∧ x.depth ≤ maxDepth

namespace At

variable {r : Reader}

theorem position_le (h : At tokens budget p r) : r.stand.position ≤ tokens.length :=
  (h.within _ List.mem_cons_self).1

theorem position_eq (h : At tokens budget p r) :
    r.stand.position = tokens.length - p.rest.length := by
  have hle := h.position_le
  rw [← h.rest_eq, List.length_drop]
  omega

theorem rest_suffix (h : At tokens budget p r) : p.rest <:+ tokens :=
  h.rest_eq ▸ List.drop_suffix _ tokens

/-- The token at the position is the first of what is left. -/
theorem current_eq (h : At tokens budget p r) :
    r.tokens[r.stand.position]?.getD (endToken r.finish) = front p.finish p.rest := by
  rw [h.tokens_eq, h.finish_eq, front, List.headD_eq_head?_getD, ← h.rest_eq, List.head?_drop]

/-- Moving to a stand that is in order leaves the trail in order. -/
theorem goTo {stand : Stand} {budget' : Nat} {rest : List Token} (h : At tokens budget p r)
    (hforward : r.stand.position ≤ stand.position) (hle : stand.position ≤ tokens.length)
    (hrest : tokens.drop stand.position = rest) (hdepth : stand.depth + budget' = maxDepth) :
    At tokens budget' { p with rest } (r.goTo stand) where
  tokens_eq := h.tokens_eq
  finish_eq := h.finish_eq
  rest_eq := hrest
  depth_eq := hdepth
  errors_eq := h.errors_eq
  forward := by
    refine .cons (List.forall_mem_cons.2 ⟨hforward, fun x hx => ?_⟩) h.forward
    exact Nat.le_trans ((List.pairwise_cons.1 h.forward).1 x hx) hforward
  within := List.forall_mem_cons.2 ⟨⟨hle, hdepth ▸ Nat.le_add_right ..⟩, h.within⟩

/-- Going deeper or coming back leaves the reader where it is. -/
theorem goTo_depth {depth budget' : Nat} (h : At tokens budget p r)
    (hdepth : depth + budget' = maxDepth) :
    At tokens budget' p (r.goTo ⟨r.stand.position, depth⟩) :=
  h.goTo (Nat.le_refl _) h.position_le h.rest_eq hdepth

/-- What errors have been recorded has no part in where the reader stands. -/
theorem withErrors (h : At tokens budget p r) (errors : List SyntaxError) :
    At tokens budget { p with errors } { r with errors } where
  tokens_eq := h.tokens_eq
  finish_eq := h.finish_eq
  rest_eq := h.rest_eq
  depth_eq := h.depth_eq
  errors_eq := rfl
  forward := h.forward
  within := h.within

end At

/-- From where `p` stands the machine comes to an end where `p'` stands, with `a`. -/
def Leads (tokens : List Token) (budget : Nat) (x : Machine α) (p : Parser) (a : α) (p' : Parser) :
    Prop :=
  ∀ r, At tokens budget p r → ∃ r', x.run r = some (a, r') ∧ At tokens budget p' r'

namespace Leads

theorem of_pure (a : α) (p : Parser) : Leads tokens budget (pure a) p a p :=
  fun r h => ⟨r, rfl, h⟩

/-- **Computations lead on from where the one before has led.** -/
theorem bind {x : Machine α} {f : α → Machine β} {a : α} {b : β}
    (h : Leads tokens budget x p a p') (hf : Leads tokens budget (f a) p' b p'') :
    Leads tokens budget (x >>= f) p b p'' := by
  intro r hr
  obtain ⟨r', hrun, hr'⟩ := h r hr
  obtain ⟨r'', hrun', hr''⟩ := hf r' hr'
  refine ⟨r'', ?_, hr''⟩
  rw [StateT.run_bind, hrun]
  exact hrun'

/-- The tokens that are left are the last ones. -/
theorem of_suffix {x : Machine α} {a : α}
    (h : p.rest <:+ tokens → Leads tokens budget x p a p') : Leads tokens budget x p a p' :=
  fun r hr => h hr.rest_suffix r hr

/-- There are never more rules to enter yet than there may be at all. -/
theorem of_budget_le {x : Machine α} {a : α}
    (h : budget ≤ maxDepth → Leads tokens budget x p a p') : Leads tokens budget x p a p' :=
  fun r hr => h (hr.depth_eq ▸ Nat.le_add_left ..) r hr

end Leads

/-! ## Single steps -/

theorem position_leads (p : Parser) :
    Leads tokens budget position p (tokens.length - p.rest.length) p :=
  fun r h => ⟨r, by rw [← h.position_eq]; rfl, h⟩

theorem depth_leads (p : Parser) : Leads tokens budget depth p (maxDepth - budget) p := by
  intro r h
  have hdepth : maxDepth - budget = r.stand.depth := by
    have := h.depth_eq
    omega
  exact ⟨r, by rw [hdepth]; rfl, h⟩

theorem current_leads (p : Parser) :
    Leads tokens budget current p (front p.finish p.rest) p :=
  fun r h => ⟨r, by rw [← h.current_eq]; rfl, h⟩

/-- Advancing gives the token in front, and moves on unless the end is reached. -/
theorem advance_run (r : Reader) : advance.run r =
    some (r.tokens[r.stand.position]?.getD (endToken r.finish),
      if r.stand.position < r.tokens.length then r.goTo ⟨r.stand.position + 1, r.stand.depth⟩
      else r) := by
  have hrun : advance.run r = StateT.run (do
      if r.stand.position < r.tokens.length then
        set (r.goTo ⟨r.stand.position + 1, r.stand.depth⟩)
      return r.tokens[r.stand.position]?.getD (endToken r.finish) : Machine Token) r := rfl
  rw [hrun]
  split <;> rfl

/-- **The position moves on by a token, and not past the last one.** -/
theorem advance_leads (p : Parser) :
    Leads tokens budget advance p (front p.finish p.rest) { p with rest := p.rest.tail } := by
  intro r h
  refine ⟨_, by rw [advance_run, h.current_eq], ?_⟩
  have htail : tokens.drop (r.stand.position + 1) = p.rest.tail := by
    rw [← List.tail_drop, h.rest_eq]
  split
  · next hlt =>
    rw [h.tokens_eq] at hlt
    exact h.goTo (Nat.le_succ _) hlt htail h.depth_eq
  · next hlt =>
    -- there is no token left to take
    rw [h.tokens_eq] at hlt
    have hnil : p.rest = [] := by rw [← h.rest_eq, List.drop_eq_nil_of_le (Nat.le_of_not_lt hlt)]
    rwa [hnil, List.tail_nil, ← hnil]

theorem record_leads (e : SyntaxError) (p : Parser) :
    Leads tokens budget (record e) p () { p with errors := p.errors ++ [e] } :=
  fun r h => ⟨_, rfl, h.errors_eq ▸ h.withErrors (r.errors ++ [e])⟩

theorem takeErrors_leads (p : Parser) :
    Leads tokens budget takeErrors p p.errors { p with errors := [] } :=
  fun r h => ⟨_, by rw [← h.errors_eq]; rfl, h.withErrors []⟩

/-- **What has been taken since an earlier stand is there.** -/
theorem taken_leads {start : List Token} (hstart : start <:+ tokens) (hrest : p.rest <:+ start) :
    Leads tokens budget (taken (tokens.length - start.length)) p
      (start.take (start.length - p.rest.length)) p := by
  intro r h
  obtain ⟨before, rfl⟩ := hstart
  obtain ⟨read, rfl⟩ := hrest
  have hposition := h.position_eq
  simp only [List.length_append] at hposition
  refine ⟨r, ?_, h⟩
  have hrun : (taken before.length).run r = StateT.run (if before.length ≤ r.stand.position ∧
      r.stand.position ≤ r.tokens.length then
        return (r.tokens.take r.stand.position).drop before.length
      else failure : Machine (List Token)) r := rfl
  have hslice : before.length ≤ r.stand.position ∧ r.stand.position ≤ r.tokens.length :=
    ⟨by omega, h.tokens_eq ▸ h.position_le⟩
  rw [List.length_append, Nat.add_sub_cancel, hrun, if_pos hslice, h.tokens_eq,
    (by omega : r.stand.position = before.length + read.length), ← List.append_assoc,
    ← List.length_append, List.take_left, List.drop_left, List.length_append, Nat.add_sub_cancel,
    List.take_left]
  rfl

/-! ## Nested rules -/

theorem leave_run {r : Reader} {depth : Nat} (h : r.stand.depth = depth + 1) :
    leave.run r = some ((), r.goTo ⟨r.stand.position, depth⟩) := by
  obtain ⟨tokens, finish, ⟨position, depth'⟩, before, errors⟩ := r
  obtain rfl : depth' = depth + 1 := h
  rfl

/-- **A nested rule leads where it does without a unit of the budget,** whether it fails or not. -/
theorem Leads.nested {x : Machine (Except SyntaxError α)} {a : Except SyntaxError α}
    (h : Leads tokens budget x p a p') : Leads tokens (budget + 1) (nested maxDepth x) p a p' := by
  refine (depth_leads p).bind ?_
  rw [if_neg (by have : maxDepth = 32 := rfl; omega)]
  intro r hr
  have hdepth := hr.depth_eq
  obtain ⟨r', hrun, hr'⟩ := h _ (hr.goTo_depth (by omega : r.stand.depth + 1 + budget = maxDepth))
  have hdepth' := hr'.depth_eq
  have hleave := leave_run (by omega : r'.stand.depth = r.stand.depth + 1)
  have henter : enter.run r = some ((), r.goTo ⟨r.stand.position, r.stand.depth + 1⟩) := rfl
  refine ⟨_, ?_, hr'.goTo_depth hdepth⟩
  simp only [StateT.run_bind, henter, hrun, hleave, Option.bind_eq_bind, Option.bind_some]
  rfl

/-- Without a budget a nested rule is refused where it stands. -/
theorem nested_leads_zero (x : Machine (Except SyntaxError α)) (p : Parser) :
    Leads tokens 0 (nested maxDepth x) p (.error (tooDeep (front p.finish p.rest))) p := by
  refine (depth_leads p).bind ?_
  rw [if_pos (Nat.le_of_eq (Nat.sub_zero _).symm)]
  exact (current_leads p).bind (.of_pure _ p)

end FilterQuery.Machine
