import FilterQuery.Proofs.Grammar.Language
import FilterQuery.Proofs.Grammar.Render

/-!
# Proofs/Expr/Shape — the trees of queries

Not every `Expr` is the tree of a text.  `IsOperand`, `IsPath` and `IsCondition` say which are, as
far as evaluation is concerned: where values stand and where conditions, what may be called, and
that names and literals are lexemes.  Depth is left out; a limit plays no part in what a query
means.
-/

namespace FilterQuery

namespace Expr

mutual

/-- The trees of values. -/
inductive IsOperand : Expr → Prop
  | literal {value : Value} {lexeme : String} {l : Literal} :
      Word.IsLexeme (.literal l, lexeme) → Json.read lexeme = .ok value →
      IsOperand (.literal value lexeme)
  | array {items : List Expr} : (∀ e ∈ items, IsOperand e) → IsOperand (.array items)
  | object {fields : List (String × Expr)} : (Fields.keys fields).Nodup →
      (∀ entry ∈ fields, IsOperand entry.2) → IsOperand (.object fields)
  | path {e : Expr} : IsPath e → IsOperand e

/-- The trees of paths.  What is called is a path that ends with a name. -/
inductive IsPath : Expr → Prop
  | root {name : String} : Word.IsLexeme (.segment, name) → IsPath (.root name)
  | step {parent : Expr} {name : String} : IsPath parent → Word.IsLexeme (.segment, name) →
      IsPath (.step parent name)
  | call {callee : Expr} {args : List Expr} : IsPath callee → callee.isCall = false →
      (∀ e ∈ args, IsOperand e) → IsPath (.call callee args)

end

/-- The trees of conditions. -/
inductive IsCondition : Expr → Prop
  | comparison {left right : Expr} {op : Comparator} : IsOperand left → IsOperand right →
      IsCondition (.comparison left op right)
  | chain {op : Connector} {operands : List Expr} : operands ≠ [] →
      (∀ e ∈ operands, IsCondition e) → IsCondition (.chain op operands)
  | group {inner : Expr} : IsCondition inner → IsCondition (.group inner)

/-! ## Parts -/

/-- The expressions that an expression is made of. -/
def children : Expr → List Expr
  | literal _ _ | root _ => []
  | array items => items
  | object entries => entries.map Prod.snd
  | step parent _ => [parent]
  | call callee args => callee :: args
  | comparison left _ right => [left, right]
  | chain _ operands => operands
  | group inner => [inner]

/-- An expression has itself as a part, and what its parts are made of. -/
inductive HasPart (e : Expr) : Expr → Prop
  | self : HasPart e e
  | child {x y : Expr} : HasPart e x → y ∈ x.children → HasPart e y

/-- The parts of what an expression is made of are parts of it. -/
theorem HasPart.of_mem_children {x y z : Expr} (h : y.HasPart z) (hy : y ∈ x.children) :
    x.HasPart z := by
  induction h with
  | self => exact .child .self hy
  | child _ hz ih => exact .child ih hz

/-- A part is the expression itself or a part of what it is made of. -/
theorem HasPart.eq_or_of_child {x z : Expr} (h : x.HasPart z) :
    z = x ∨ ∃ y ∈ x.children, y.HasPart z := by
  induction h with
  | self => exact Or.inl rfl
  | @child y z _ hz ih =>
    rcases ih with rfl | ⟨y', hy', hpart⟩
    · exact Or.inr ⟨z, hz, .self⟩
    · exact Or.inr ⟨y', hy', .child hpart hz⟩

theorem HasPart.trans {x y z : Expr} (h : x.HasPart y) (h' : y.HasPart z) : x.HasPart z := by
  induction h' with
  | self => exact h
  | child _ hz ih => exact .child ih hz

/-- Children are smaller, so inductions over parts end. -/
theorem sizeOf_lt_of_mem_children {x y : Expr} (h : y ∈ x.children) : sizeOf y < sizeOf x := by
  cases x with
  | literal | root => cases h
  | array items =>
    have hitems : sizeOf y < sizeOf items := List.sizeOf_lt_of_mem h
    simp only [array.sizeOf_spec]
    omega
  | object entries =>
    obtain ⟨entry, hentry, rfl⟩ := List.mem_map.1 h
    have hentries := List.sizeOf_lt_of_mem hentry
    obtain ⟨key, value⟩ := entry
    simp only [object.sizeOf_spec, Prod.mk.sizeOf_spec] at hentries ⊢
    omega
  | step parent name =>
    obtain rfl := List.mem_singleton.1 h
    simp only [step.sizeOf_spec]
    omega
  | call callee args =>
    simp only [call.sizeOf_spec]
    rcases List.mem_cons.1 h with rfl | h
    · omega
    · have hargs := List.sizeOf_lt_of_mem h
      omega
  | comparison left op right =>
    simp only [comparison.sizeOf_spec]
    rcases List.mem_cons.1 h with rfl | h
    · omega
    · obtain rfl := List.mem_singleton.1 h
      omega
  | chain op operands =>
    have hoperands : sizeOf y < sizeOf operands := List.sizeOf_lt_of_mem h
    simp only [chain.sizeOf_spec]
    omega
  | group inner =>
    obtain rfl := List.mem_singleton.1 h
    simp only [group.sizeOf_spec]
    omega

theorem HasPart.sizeOf_le {x y : Expr} (h : x.HasPart y) : sizeOf y ≤ sizeOf x := by
  induction h with
  | self => exact Nat.le_refl _
  | child _ hz ih => exact Nat.le_trans (Nat.le_of_lt (sizeOf_lt_of_mem_children hz)) ih

/-- Whether an expression is a literal, an array, an object, a path or a call, and no condition. -/
def isValue : Expr → Bool
  | comparison _ _ _ | chain _ _ | group _ => false
  | _ => true

theorem IsPath.isValue_eq_true {x : Expr} (h : IsPath x) : x.isValue = true := by
  cases h <;> rfl

theorem IsOperand.isValue_eq_true {x : Expr} (h : IsOperand x) : x.isValue = true := by
  cases h with
  | path hpath => exact hpath.isValue_eq_true
  | _ => rfl

theorem IsCondition.isValue_eq_false {x : Expr} (h : IsCondition x) : x.isValue = false := by
  cases h <;> rfl

theorem IsPath.isOperand_of_mem_children {x y : Expr} (h : IsPath x) (hy : y ∈ x.children) :
    IsOperand y := by
  cases h with
  | root => cases hy
  | step hparent _ =>
    obtain rfl := List.mem_singleton.1 hy
    exact .path hparent
  | call hcallee _ hargs =>
    rcases List.mem_cons.1 hy with rfl | hy
    · exact .path hcallee
    · exact hargs y hy

theorem IsOperand.isOperand_of_mem_children {x y : Expr} (h : IsOperand x)
    (hy : y ∈ x.children) : IsOperand y := by
  cases h with
  | literal => cases hy
  | array hitems => exact hitems y hy
  | object _ hvalues =>
    obtain ⟨entry, hentry, rfl⟩ := List.mem_map.1 hy
    exact hvalues entry hentry
  | path hpath => exact hpath.isOperand_of_mem_children hy

theorem IsCondition.of_mem_children {x y : Expr} (h : IsCondition x) (hy : y ∈ x.children) :
    IsOperand y ∨ IsCondition y := by
  cases h with
  | comparison hleft hright =>
    rcases List.mem_cons.1 hy with rfl | hy
    · exact Or.inl hleft
    · obtain rfl := List.mem_singleton.1 hy
      exact Or.inl hright
  | chain _ hoperands => exact Or.inr (hoperands y hy)
  | group hinner =>
    obtain rfl := List.mem_singleton.1 hy
    exact Or.inr hinner

/-- **The parts of a condition are values and conditions.** -/
theorem IsCondition.of_hasPart {e x : Expr} (he : IsCondition e) (hx : e.HasPart x) :
    (x.isValue = true → IsOperand x) ∧ (x.isValue = false → IsCondition x) := by
  have hcases : IsOperand x ∨ IsCondition x := by
    induction hx with
    | self => exact Or.inr he
    | child _ hy ih =>
      rcases ih with hoperand | hcondition
      · exact Or.inl (hoperand.isOperand_of_mem_children hy)
      · exact hcondition.of_mem_children hy
  rcases hcases with hoperand | hcondition
  · exact ⟨fun _ => hoperand, fun hfalse => by simp [hoperand.isValue_eq_true] at hfalse⟩
  · exact ⟨fun htrue => by simp [hcondition.isValue_eq_false] at htrue, fun _ => hcondition⟩

end Expr

/-! ## Derivations give such trees -/

namespace Grammar

open FilterQuery.Expr

variable {limit : Nat}

mutual

/-- **What the grammar reads as an operand is one**, when the tokens are lexemes. -/
theorem Operand.isOperand {depth : Nat} : ∀ {ts : List Token} {e : Expr},
    Operand limit depth ts e → (∀ t ∈ ts, t.word.IsLexeme) → IsOperand e
  | _, _, @Operand.literal _ _ t l _ ht hread, hlex => by
    have hword : t.word.IsLexeme := hlex t List.mem_cons_self
    rw [Token.word, ht] at hword
    exact .literal hword hread
  | _, _, .array _ hparts hsep henc, hlex =>
    .array <| List.forall_mem_map.2 fun _ hp => (hparts _ hp).isOperand fun t ht =>
      hlex t (henc.subset (subset_of_separated hsep (List.mem_map_of_mem hp) ht))
  | _, _, .object _ _ hvalues hsep henc hmerges, hlex => by
    refine .object hmerges.nodup_keys fun entry hentry => ?_
    obtain ⟨w, hw, rfl⟩ := List.mem_map.1 (hmerges.subset hentry)
    exact (hvalues w hw).isOperand fun t ht => hlex t (henc.subset
      (subset_of_separated hsep (List.mem_map_of_mem hw)
        (List.mem_cons_of_mem _ (List.mem_cons_of_mem _ ht))))
  | _, _, .path _ hpath _, hlex => .path (hpath.isPath hlex)

/-- What the grammar reads as a path is one. -/
theorem Path.isPath {depth : Nat} : ∀ {steps : Nat} {ts : List Token} {e : Expr},
    Path limit depth ts steps e → (∀ t ∈ ts, t.word.IsLexeme) → IsPath e
  | _, _, _, @Path.name _ _ t ht, hlex => by
    have hword : t.word.IsLexeme := hlex t List.mem_cons_self
    rw [Token.word, ht] at hword
    exact .root hword
  | _, _, _, @Path.step _ _ _ ts _ period t hparent _ ht, hlex => by
    have hword : t.word.IsLexeme := hlex t (by simp)
    rw [Token.word, ht] at hword
    exact .step (hparent.isPath fun t ht => hlex t (List.mem_append_left _ ht)) hword
  | _, _, _, .call hcallee hcall hparts hsep henc, hlex =>
    .call (hcallee.isPath fun t ht => hlex t (List.mem_append_left _ ht)) hcall <|
      List.forall_mem_map.2 fun _ hp => (hparts _ hp).isOperand fun t ht =>
        hlex t (List.mem_append_right _
          (henc.subset (subset_of_separated hsep (List.mem_map_of_mem hp) ht)))
  | _, _, _, .periodCall hcallee hcall _ hparts hsep henc, hlex =>
    .call (hcallee.isPath fun t ht => hlex t (List.mem_append_left _ ht)) hcall <|
      List.forall_mem_map.2 fun _ hp => (hparts _ hp).isOperand fun t ht =>
        hlex t (List.mem_append_right _ (List.mem_cons_of_mem _
          (henc.subset (subset_of_separated hsep (List.mem_map_of_mem hp) ht))))

end

mutual

/-- What the grammar reads as a comparison or a group is a condition. -/
theorem Atom.isCondition {depth : Nat} : ∀ {ts : List Token} {e : Expr},
    Atom limit depth ts e → (∀ t ∈ ts, t.word.IsLexeme) → IsCondition e
  | _, _, .comparison hleft _ hright, hlex =>
    .comparison (hleft.isOperand fun t ht => hlex t (List.mem_append_left _ ht))
      (hright.isOperand fun t ht => hlex t (List.mem_append_right _ (List.mem_cons_of_mem _ ht)))
  | _, _, .group _ hcondition henc, hlex =>
    .group (hcondition.isCondition fun t ht => hlex t (henc.subset ht))

theorem Chain.isCondition_operands {depth : Nat} : ∀ {ts : List Token} {changes : Nat}
    {op : Connector} {operands : List Expr}, Chain limit depth ts changes op operands →
      (∀ t ∈ ts, t.word.IsLexeme) → ∀ e ∈ operands, IsCondition e
  | _, _, _, _, .pair hleft _ hright, hlex => by
    have hl := hleft.isCondition fun t ht => hlex t (List.mem_append_left _ ht)
    have hr := hright.isCondition fun t ht =>
      hlex t (List.mem_append_right _ (List.mem_cons_of_mem _ ht))
    simpa using ⟨hl, hr⟩
  | _, _, _, _, .same hchain _ hright, hlex => by
    have hl := hchain.isCondition_operands fun t ht => hlex t (List.mem_append_left _ ht)
    have hr := hright.isCondition fun t ht =>
      hlex t (List.mem_append_right _ (List.mem_cons_of_mem _ ht))
    intro e he
    rcases List.mem_append.1 he with he | he
    · exact hl e he
    · exact List.mem_singleton.1 he ▸ hr
  | _, _, _, _, @Chain.change _ _ _ _ _ _ _ op' _ _ hchain _ _ hright, hlex => by
    have hl := hchain.isCondition_operands fun t ht => hlex t (List.mem_append_left _ ht)
    have hr := hright.isCondition fun t ht =>
      hlex t (List.mem_append_right _ (List.mem_cons_of_mem _ ht))
    have hinner : IsCondition (.chain op' _) := .chain hchain.operands_ne_nil hl
    simpa using ⟨hinner, hr⟩

/-- **What a condition of lexemes derives is the tree of a condition.** -/
theorem Condition.isCondition {depth : Nat} : ∀ {ts : List Token} {e : Expr},
    Condition limit depth ts e → (∀ t ∈ ts, t.word.IsLexeme) → IsCondition e
  | _, _, .atom hatom, hlex => hatom.isCondition hlex
  | _, _, .chain hchain _, hlex => .chain hchain.operands_ne_nil (hchain.isCondition_operands hlex)

end

end Grammar

/-- **The tree of a query is the tree of a condition.** -/
theorem Query.isCondition (q : Query) {e : Expr} (h : q.parse = .ok e) : e.IsCondition := by
  obtain ⟨-, -, -, -, hlexes⟩ := q.exists_tokens_eq
  refine (q.parse_eq_ok_iff.1 h).isCondition fun t ht => ?_
  exact hlexes.isLexeme t.word (List.mem_map_of_mem ht)

end FilterQuery
