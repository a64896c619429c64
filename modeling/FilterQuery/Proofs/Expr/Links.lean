import FilterQuery.Proofs.Expr.Keys
import FilterQuery.Proofs.Reader.Safety

/-!
# Proofs/Expr/Links — what a key keeps of a path

    path     limits.for("eu").max                       limits.for.max
    links    limits ▸ .for ▸ ("eu") ▸ .max              limits ▸ .for ▸ .max
    names    limits   for   max                         limits   for   max
    key      limits.for.max                             limits.for.max

The **links** of a path are what it is made of on the way from its first name to its end.  A key
drops the calls among them, and each call takes two parentheses with it at least
(`length_pathKey_add_calls_le`): a key is the canonical text of the path exactly if there was no
call to drop (`pathKey_eq_render_iff`).  The names stay, so in the trees of texts **keys identify
chains of names** (`Query.keys_identify_names`).
-/

namespace FilterQuery

namespace Expr

/-! ## Links -/

/-- The paths and calls on the way to a path, from its first name to the path itself. -/
def links : Expr → List Expr
  | root name => [root name]
  | step parent name => parent.links ++ [step parent name]
  | call callee args => callee.links ++ [call callee args]
  | _ => []

/-- Whether an expression is a path or a call, whose value is kept under its key. -/
def isKeyed : Expr → Bool
  | root _ | step _ _ | call _ _ => true
  | _ => false

theorem isValue_of_isKeyed {e : Expr} (h : e.isKeyed = true) : e.isValue = true := by
  cases e with
  | root | step | call => rfl
  | _ => cases h

theorem IsOperand.isPath {e : Expr} (h : IsOperand e) (hkeyed : e.isKeyed = true) : IsPath e := by
  cases h with
  | path hpath => exact hpath
  | _ => cases hkeyed

/-- The paths and calls among the parts of a condition are trees of paths. -/
theorem IsCondition.isPath_of_hasPart {e p : Expr} (he : IsCondition e) (hp : e.HasPart p)
    (hkeyed : p.isKeyed = true) : IsPath p :=
  ((he.of_hasPart hp).1 (isValue_of_isKeyed hkeyed)).isPath hkeyed

/-! ## Keys and canonical texts -/

/-- **Every call leaves at least its parentheses out of the key.** -/
theorem length_pathKey_add_calls_le : ∀ e : Expr,
    e.pathKey.length + 2 * e.links.countP isCall ≤ e.render.length
  | root _ => Nat.le_refl _
  | step parent name => by
    have ih := length_pathKey_add_calls_le parent
    have hcalls : (step parent name).links.countP isCall = parent.links.countP isCall := by
      simp [links, isCall]
    rw [pathKey, render, hcalls]
    simp only [String.length_append]
    omega
  | call callee args => by
    have ih := length_pathKey_add_calls_le callee
    have hcalls : (call callee args).links.countP isCall = callee.links.countP isCall + 1 := by
      simp [links, isCall]
    have hopen : "(".length = 1 := rfl
    have hclose : ")".length = 1 := rfl
    rw [pathKey, render, hcalls]
    simp only [String.length_append, hopen, hclose]
    omega
  | literal _ _ | array _ | object _ | comparison _ _ _ | chain _ _ | group _ => Nat.le_refl _

theorem pathKey_eq_render : ∀ {e : Expr}, (∀ x ∈ e.links, x.isCall = false) →
    e.pathKey = e.render
  | root _, _ => rfl
  | step parent name, h => by
    have hparent := pathKey_eq_render fun x hx => h x (List.mem_append_left _ hx)
    rw [pathKey, render, hparent]
  | call callee args, h => by
    have hlast : (call callee args).isCall = false := h _ List.mem_concat_self
    cases hlast
  | literal _ _, _ | array _, _ | object _, _ | comparison _ _ _, _ | chain _ _, _ | group _, _ =>
    rfl

/-- **A key is the canonical text exactly if nothing on the way to the path is a call.** -/
theorem pathKey_eq_render_iff (e : Expr) :
    e.pathKey = e.render ↔ ∀ x ∈ e.links, x.isCall = false := by
  refine ⟨fun h => ?_, pathKey_eq_render⟩
  have hle := length_pathKey_add_calls_le e
  rw [h] at hle
  have hcalls : e.links.countP isCall = 0 := by omega
  exact fun x hx => Bool.eq_false_iff.2 (List.countP_eq_zero.1 hcalls x hx)

end Expr

/-! ## Paths in the trees of texts -/

namespace Query

open FilterQuery.Expr

/-- The trees that a parser makes of the tokens of a query, whatever it is called for. -/
def Gives (q : Query) (e : Expr) : Prop :=
  ∃ calls : List Parser.Call,
    ∃ a ∈ ((calls.mapM Parser.answer).run (Parser.ofTokens q.tokens)).1, a.expr? = some e

/-- The tree of a query is one of them. -/
theorem gives_of_parse {q : Query} {e : Expr} (h : q.parse = .ok e) : q.Gives e := by
  rw [parse, Rule.mapError_eq_ok_iff] at h
  exact ⟨[.whole], _, List.mem_singleton_self _, congrArg Except.toOption h⟩

/-- Tokens in a row that stop short of the end of input are in the body of a query. -/
theorem subset_body_of_concat {q : Query} {us : List Token} {t : Token}
    (h : us ++ [t] <:+: q.tokens) (ht : t.kind ≠ .endOfInput) : us ++ [t] ⊆ q.body := by
  obtain ⟨eof, htokens, heof, -⟩ := q.exists_tokens_eq
  rw [htokens] at h
  rcases List.infix_concat_iff.1 h with hsuffix | hbody
  · rcases List.suffix_concat_iff.1 hsuffix with hnil | ⟨ws, hws, -⟩
    · exact absurd hnil (by simp)
    · obtain ⟨-, hlast⟩ := List.append_inj' hws rfl
      exact absurd (List.singleton_inj.1 hlast ▸ heof) ht
  · exact hbody.subset

/-- **Every tree that is made of a text is the tree of a condition,** also if the text goes on. -/
theorem Gives.isCondition {q : Query} {e : Expr} (h : q.Gives e) : e.IsCondition := by
  obtain ⟨calls, a, ha, he⟩ := h
  obtain ⟨ts, hts, hcondition⟩ := Parser.exists_condition_of_mem_answers calls _ a ha e he
  obtain ⟨-, -, -, -, hlexes⟩ := q.exists_tokens_eq
  obtain ⟨us, t, rfl, ht⟩ := hcondition.exists_concat
  exact hcondition.isCondition fun u hu =>
    hlexes.isLexeme u.word (List.mem_map_of_mem (subset_body_of_concat hts ht hu))

/-- **Keys identify chains of names.**  Take a path or a call anywhere in a tree that is made of a
text, and another one in the same tree, in another tree or in one of another text.  They have the
same key exactly if the same names lead to them in the same order, whatever is called on the way and
with whatever arguments.  And the key is the canonical text exactly if nothing is called. -/
theorem keys_identify_names {q q' : Query} {e e' p p' : Expr} (he : q.Gives e) (he' : q'.Gives e')
    (hp : e.HasPart p) (hp' : e'.HasPart p') (hkeyed : p.isKeyed = true)
    (hkeyed' : p'.isKeyed = true) :
    (p.pathKey = p'.pathKey ↔ p.names = p'.names) ∧
      (p.pathKey = p.render ↔ ∀ x ∈ p.links, x.isCall = false) := by
  have hpath := he.isCondition.isPath_of_hasPart hp hkeyed
  have hpath' := he'.isCondition.isPath_of_hasPart hp' hkeyed'
  exact ⟨hpath.pathKey_eq_iff hpath', p.pathKey_eq_render_iff⟩

/-- A query for one chain of names twice, with a call in it and without. -/
def limitsQuery : Query where
  source := "limits.for(\"eu\").max = limits.for.max"
  tokens := [⟨.segment, "limits", 0⟩, ⟨.punct .period, ".", 6⟩, ⟨.segment, "for", 7⟩,
    ⟨.punct .openParen, "(", 10⟩, ⟨.literal .string, "\"eu\"", 11⟩, ⟨.punct .closeParen, ")", 15⟩,
    ⟨.punct .period, ".", 16⟩, ⟨.segment, "max", 17⟩, ⟨.comparator .equal, "=", 21⟩,
    ⟨.segment, "limits", 23⟩, ⟨.punct .period, ".", 29⟩, ⟨.segment, "for", 30⟩,
    ⟨.punct .period, ".", 33⟩, ⟨.segment, "max", 34⟩, ⟨.endOfInput, "", 37⟩]
  ofText_source := by with_unfolding_all rfl

/-- The side of `limitsQuery` with the call. -/
def calledMax : Expr :=
  .step (.call (.step (.root "limits") "for") [.literal (.str "eu") "\"eu\""]) "max"

/-- The side of `limitsQuery` without it. -/
def plainMax : Expr :=
  .step (.step (.root "limits") "for") "max"

/-- The tree of `limitsQuery`. -/
def limitsExpr : Expr :=
  .comparison calledMax .equal plainMax

theorem limitsQuery_keys : limitsQuery.Gives limitsExpr ∧ limitsExpr.HasPart calledMax ∧
    limitsExpr.HasPart plainMax ∧ calledMax.isKeyed = true ∧ plainMax.isKeyed = true ∧
    calledMax.pathKey = plainMax.pathKey ∧ calledMax.pathKey ≠ calledMax.render ∧
    plainMax.pathKey = plainMax.render := by
  have hparse : limitsQuery.parse = .ok limitsExpr := by with_unfolding_all rfl
  have hgives : limitsQuery.Gives limitsExpr := gives_of_parse hparse
  have hcalled : limitsExpr.HasPart calledMax := .child .self List.mem_cons_self
  have hplain : limitsExpr.HasPart plainMax :=
    .child .self (List.mem_cons_of_mem _ List.mem_cons_self)
  obtain ⟨hkeys, hrender⟩ := keys_identify_names hgives hgives hcalled hplain rfl rfl
  obtain ⟨-, hrender'⟩ := keys_identify_names hgives hgives hplain hcalled rfl rfl
  refine ⟨hgives, hcalled, hplain, rfl, rfl, hkeys.2 rfl, fun h => ?_, hrender'.2 ?_⟩
  · have hcall : (call (step (root "limits") "for") [literal (.str "eu") "\"eu\""]) ∈
        calledMax.links := by simp [calledMax, links]
    cases hrender.1 h _ hcall
  · simp [plainMax, links, isCall]

end Query

end FilterQuery
