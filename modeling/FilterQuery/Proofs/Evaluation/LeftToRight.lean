import FilterQuery.Proofs.Evaluation.Suppressed
import FilterQuery.Proofs.Runner.History

/-!
# Proofs/Evaluation/LeftToRight — a chain is a fold over its conditions

    c₁ AND c₂ AND c₃ OR c₄        ──read──▸  chain OR [chain AND [c₁, c₂, c₃], c₄]
    fold: v := c₁; v AND c₂; …    ◂──same answer, same runner──  evaluate

A condition is written flat, as atoms with connectors between (`Sequence`), and read as a tree that
nests where the connector changes (`joinAll`).  Joining an operand to a tree is one step of the fold
for its value (`evaluate_join`), so **the tree and the flat sequence have the same answer, call the
same capabilities and ask the same hosts**, in the same order.
-/

namespace FilterQuery

variable {σ : Type} {w : World σ}

/-! ## Conditions as they are written -/

namespace Grammar

open FilterQuery.Expr

variable {limit depth : Nat}

/-- The tokens of a condition, its first atom, and the others after their connectors. -/
inductive Sequence (limit depth : Nat) :
    List Token → (first : Expr) → (more : List (Connector × Expr)) → Prop
  | one {ts : List Token} {first : Expr} : Atom limit depth ts first →
      Sequence limit depth ts first []
  | next {ts us : List Token} {t : Token} {op : Connector} {first right : Expr}
      {more : List (Connector × Expr)} : Sequence limit depth ts first more →
      t.kind = .connector op → Atom limit depth us right →
      Sequence limit depth (ts ++ t :: us) first (more ++ [(op, right)])

/-- The tree of a sequence. -/
def joinAll (first : Expr) (more : List (Connector × Expr)) : Expr :=
  more.foldl (fun left next => left.join next.1 next.2) first

theorem joinAll_concat (first : Expr) (more : List (Connector × Expr)) (op : Connector)
    (right : Expr) : joinAll first (more ++ [(op, right)]) = (joinAll first more).join op right :=
  List.foldl_append

/-- The tokens are a sequence, and the tree is the one of it. -/
def Written (limit depth : Nat) (ts : List Token) (e : Expr) : Prop :=
  ∃ first more, Sequence limit depth ts first more ∧ joinAll first more = e

theorem Atom.written {ts : List Token} {e : Expr} (h : Atom limit depth ts e) :
    Written limit depth ts e :=
  ⟨e, [], .one h, rfl⟩

/-- One more connector and atom are written after a condition so far. -/
theorem Written.next {ts us : List Token} {e right : Expr} (h : Written limit depth ts e)
    {t : Token} {op : Connector} (ht : t.kind = .connector op) (hright : Atom limit depth us right) :
    Written limit depth (ts ++ t :: us) (e.join op right) := by
  obtain ⟨first, more, hsequence, rfl⟩ := h
  exact ⟨first, more ++ [(op, right)], hsequence.next ht hright, joinAll_concat first more op right⟩

theorem Chain.written {ts : List Token} {changes : Nat} {op : Connector} {operands : List Expr}
    (h : Chain limit depth ts changes op operands) :
    Written limit depth ts (.chain op operands) := by
  -- by the number of tokens, as chains are one of several kinds of derivation that need each other
  induction hn : ts.length using Nat.strongRecOn generalizing ts changes op operands with
  | ind n ih =>
    subst hn
    cases h with
    | pair hleft ht hright =>
      simpa only [(hleft.join _ _).2] using hleft.written.next ht hright
    | same hchain ht hright =>
      have hleft := ih _ (by simp) hchain rfl
      simpa only [join, if_pos] using hleft.next ht hright
    | change hchain hop ht hright =>
      have hleft := ih _ (by simp) hchain rfl
      simpa only [join, if_neg hop] using hleft.next ht hright

/-- Every condition is written as a sequence. -/
theorem Condition.written {ts : List Token} {e : Expr} (h : Condition limit depth ts e) :
    Written limit depth ts e := by
  cases h with
  | atom hatom => exact hatom.written
  | chain hchain _ => exact hchain.written

/-- One more operand makes one more change of the connector at most. -/
theorem Joined.join {ts us : List Token} {changes : Nat} {e right : Expr} {t : Token}
    {op : Connector} (h : Joined limit depth ts changes e) (ht : t.kind = .connector op)
    (hright : Atom limit depth us right) :
    ∃ changes', Joined limit depth (ts ++ t :: us) changes' (e.join op right) := by
  cases h with
  | atom hatom =>
    rw [(hatom.join op right).2]
    exact ⟨0, .chain (.pair hatom ht hright)⟩
  | @chain _ op' operands hchain =>
    by_cases hop : op' = op
    · subst hop
      rw [Expr.join, if_pos rfl]
      exact ⟨changes, .chain (.same hchain ht hright)⟩
    · rw [Expr.join, if_neg hop]
      exact ⟨changes + 1, .chain (.change hchain hop ht hright)⟩

theorem Sequence.exists_joined {ts : List Token} {first : Expr} {more : List (Connector × Expr)}
    (h : Sequence limit depth ts first more) :
    ∃ changes, Joined limit depth ts changes (joinAll first more) := by
  induction h with
  | one hatom => exact ⟨0, .atom hatom⟩
  | next _ ht hright ih =>
    obtain ⟨changes, hjoined⟩ := ih
    rw [joinAll_concat]
    exact hjoined.join ht hright

theorem Joined.mono {limit' changes : Nat} (h : limit ≤ limit') {ts : List Token} {e : Expr}
    (hjoined : Joined limit depth ts changes e) : Joined limit' depth ts changes e := by
  cases hjoined with
  | atom hatom => exact .atom (hatom.mono h)
  | chain hchain => exact .chain (hchain.mono h)

/-- **The tree of a condition is that of any sequence as which it is written.** -/
theorem Sequence.joinAll_eq {limit' : Nat} {ts : List Token} {first e : Expr}
    {more : List (Connector × Expr)} (h : Sequence limit' 0 ts first more)
    (he : Condition limit 0 ts e) : joinAll first more = e := by
  obtain ⟨changes, hjoined⟩ := h.exists_joined
  have hroom := hjoined.mono (Nat.le_max_left limit' changes)
  have hcondition := hroom.condition (by omega)
  exact hcondition.unique he

theorem Joined.ne_chain_nil {ts : List Token} {changes : Nat} {e : Expr}
    (h : Joined limit depth ts changes e) (op : Connector) : e ≠ .chain op [] := by
  cases h with
  | atom hatom => cases hatom <;> simp
  | chain hchain => simp [hchain.operands_ne_nil]

mutual

theorem Atom.isTest {depth : Nat} : ∀ {ts : List Token} {e : Expr}, Atom limit depth ts e → IsTest e
  | _, _, .comparison _ _ _ => .comparison _ _ _
  | _, _, .group _ hcondition _ => .group hcondition.isTest

theorem Chain.isTest_operands {depth : Nat} : ∀ {ts : List Token} {changes : Nat} {op : Connector}
    {operands : List Expr}, Chain limit depth ts changes op operands → ∀ e ∈ operands, IsTest e
  | _, _, _, _, .pair hleft _ hright => by simpa using ⟨hleft.isTest, hright.isTest⟩
  | _, _, _, _, .same hchain _ hright => by
    intro e he
    rcases List.mem_append.1 he with he | he
    · exact hchain.isTest_operands e he
    · exact List.mem_singleton.1 he ▸ hright.isTest
  | _, _, _, _, .change hchain _ _ hright => by
    simpa using ⟨.chain _ hchain.isTest_operands, hright.isTest⟩

theorem Condition.isTest {depth : Nat} : ∀ {ts : List Token} {e : Expr},
    Condition limit depth ts e → IsTest e
  | _, _, .atom hatom => hatom.isTest
  | _, _, .chain hchain _ => .chain _ hchain.isTest_operands

end

end Grammar

/-! ## The fold -/

namespace Expr

/-- Whether an expression comes to something true, and the runner afterwards. -/
def truth (w : World σ) (flag : Bool) (e : Expr) (r : Runner σ) : Bool × Runner σ :=
  ((e.evaluate w flag r).1.isTruthy, (e.evaluate w flag r).2)

/-- One more condition: what stands decides, or the condition is evaluated. -/
def foldStep (w : World σ) (flag : Bool) (out : Bool × Runner σ) (next : Connector × Expr) :
    Bool × Runner σ :=
  if next.1.decides out.1 then out else truth w flag next.2 out.2

/-- The value of conditions from left to right, without a tree. -/
def foldConditions (w : World σ) (flag : Bool) (first : Expr) (more : List (Connector × Expr))
    (r : Runner σ) : Bool × Runner σ :=
  more.foldl (foldStep w flag) (truth w flag first r)

/-- The last operand of a chain is one more step of the fold. -/
theorem evaluateMore_concat (op : Connector) (es : List Expr) {right : Expr} (hright : IsTest right)
    (flag value : Bool) (r : Runner σ) : evaluateMore w op (es ++ [right]) flag value r =
      foldStep w flag (evaluateMore w op es flag value r) (op, right) := by
  induction es generalizing value r with
  | nil =>
    simp only [List.nil_append, evaluateMore, foldStep, hright.evaluate_false]
    rfl
  | cons e es ih =>
    rw [List.cons_append, evaluateMore, evaluateMore]
    split <;> exact ih _ _

/-- **Joining an operand is one step of the fold.** -/
theorem evaluate_join {left right : Expr}
    (hleft : ∀ op, left ≠ .chain op []) (hright : IsTest right)
    (op : Connector) (flag : Bool) (r : Runner σ) :
    (left.join op right).evaluate w flag r =
      (.value (.bool (foldStep w flag (truth w flag left r) (op, right)).1),
        (foldStep w flag (truth w flag left r) (op, right)).2) := by
  have hpair : ∀ left : Expr, (Expr.chain op [left, right]).evaluate w flag r =
      (.value (.bool (foldStep w flag (truth w flag left r) (op, right)).1),
        (foldStep w flag (truth w flag left r) (op, right)).2) := fun left => by
    have hmore := evaluateMore_concat (w := w) op [] hright flag (truth w flag left r).1
      (truth w flag left r).2
    exact congrArg (fun out : Bool × Runner σ => (Resolved.value (.bool out.1), out.2)) hmore
  cases left with
  | chain op' operands =>
    by_cases hop : op' = op
    · subst hop
      have hne : operands ≠ [] := fun hnil => hleft op' (by rw [hnil])
      obtain ⟨first, more, rfl⟩ := List.exists_cons_of_ne_nil hne
      rw [join, if_pos rfl]
      have hmore := evaluateMore_concat (w := w) op' more hright flag (truth w flag first r).1
        (truth w flag first r).2
      exact congrArg (fun out : Bool × Runner σ => (Resolved.value (.bool out.1), out.2)) hmore
    · rw [join, if_neg hop]
      exact hpair _
  | _ => exact hpair _

end Expr

namespace Grammar

open FilterQuery.Expr

/-- **A sequence is evaluated from left to right.** -/
theorem Sequence.evaluate_joinAll {limit depth : Nat} {ts : List Token} {first : Expr}
    {more : List (Connector × Expr)} (h : Sequence limit depth ts first more) (flag : Bool)
    (r : Runner σ) : (joinAll first more).evaluate w flag r =
      (.value (.bool (foldConditions w flag first more r).1),
        (foldConditions w flag first more r).2) := by
  induction h with
  | one hatom =>
    obtain ⟨b, hb⟩ := hatom.isTest.exists_bool (w := w) flag r
    refine Prod.ext ?_ rfl
    change (_ : Resolved) = .value (.bool (Resolved.isTruthy _))
    rw [joinAll, List.foldl_nil, hb]
    rfl
  | @next ts us t op first right more hsequence _ hright ih =>
    obtain ⟨changes, hjoined⟩ := hsequence.exists_joined
    have htruth : truth w flag (joinAll first more) r = foldConditions w flag first more r := by
      rw [truth, ih]
      rfl
    have hfold : foldConditions w flag first (more ++ [(op, right)]) r =
        foldStep w flag (foldConditions w flag first more r) (op, right) :=
      List.foldl_append
    rw [joinAll_concat, evaluate_join hjoined.ne_chain_nil hright.isTest, htruth, hfold]

/-- **A condition has the answer of its flat sequence, and does to the runner what that does.**
Whatever is read as a condition, at the top or in parentheses, is written as a sequence of atoms
with connectors between them; and for any such sequence, any runner and any world, the tree
evaluates to the value of the fold over it and leaves the same runner, with the same calls and
lookups in its log. -/
theorem condition_evaluate_eq_foldConditions (finish budget : Nat) {s rest : List Token} {e : Expr}
    {errors : List SyntaxError} (h : (condition finish budget).run s = (⟨some e, errors⟩, rest)) :
    ∃ ts, s = ts ++ rest ∧ (∃ first more, Sequence budget 0 ts first more) ∧
      ∀ limit first more, Sequence limit 0 ts first more →
        ∀ (w : World σ) (flag : Bool) (r : Runner σ), e.evaluate w flag r =
          (.value (.bool (foldConditions w flag first more r).1),
            (foldConditions w flag first more r).2) := by
  have hexpr : ((condition finish budget).run s).1.expr = some e := by rw [h]
  obtain ⟨ts, hs, hcondition⟩ := condition_reads finish budget 0 (Nat.zero_add budget) s e hexpr
  rw [h] at hs
  obtain ⟨first, more, hsequence, -⟩ := hcondition.written
  refine ⟨ts, hs, ⟨first, more, hsequence⟩, ?_⟩
  intro limit first' more' hsequence' w flag r
  rw [← hsequence'.joinAll_eq hcondition]
  exact hsequence'.evaluate_joinAll flag r

/-- The tokens of a comparison of a member with one. -/
def isOneTokens (name : String) (offset : Nat) : List Token :=
  [⟨.segment, name, offset⟩] ++ ⟨.comparator .equal, "=", offset + 2⟩ ::
    [⟨.literal .number, "1", offset + 4⟩]

/-- The tree of `isOneTokens`. -/
def isOne (name : String) : Expr :=
  .comparison (.root name) .equal (.literal (.int 1) "1")

/-- The tokens of `e = 1 OR f = 1 AND (g = 1)`. -/
def mixedTokens : List Token :=
  (isOneTokens "e" 0 ++ ⟨.connector .or, "OR", 6⟩ :: isOneTokens "f" 9) ++
    ⟨.connector .and, "AND", 15⟩ ::
      ⟨.punct .openParen, "(", 19⟩ :: (isOneTokens "g" 20 ++ [⟨.punct .closeParen, ")", 25⟩])

/-- The tree of `mixedTokens`. -/
def mixedTree : Expr :=
  .chain .and [.chain .or [isOne "e", isOne "f"], .group (isOne "g")]

theorem atom_isOne {limit depth : Nat} (h : depth < limit) (name : String) (offset : Nat) :
    Atom limit depth (isOneTokens name offset) (isOne name) := by
  have hpath : Operand limit depth [⟨.segment, name, offset⟩] (.root name) :=
    .path h (.name (t := ⟨.segment, name, offset⟩) rfl) h
  have hread : Json.read "1" = .ok (.int 1) := by with_unfolding_all rfl
  have hone : Operand limit depth [⟨.literal .number, "1", offset + 4⟩] (.literal (.int 1) "1") :=
    .literal (t := ⟨.literal .number, "1", offset + 4⟩) rfl hread
  exact .comparison hpath rfl hone

theorem evaluate_mixedTree :
    (condition 26 4).run mixedTokens = (⟨some mixedTree, []⟩, []) ∧
      Sequence 4 0 mixedTokens (isOne "e") [(.or, isOne "f"), (.and, .group (isOne "g"))] ∧
      let r := Runner.start (some (.host ⟨0⟩)) 0
      let out := foldConditions Runner.restlessWorld true (isOne "e")
        [(.or, isOne "f"), (.and, .group (isOne "g"))] r
      mixedTree.evaluate Runner.restlessWorld true r = (.value (.bool out.1), out.2) ∧
        out.2.calledKeys = ["e", "g"] := by
  have he := atom_isOne (by decide : 0 < 4) "e" 0
  have hf := atom_isOne (by decide : 0 < 4) "f" 9
  have hg : Atom 4 0 (⟨.punct .openParen, "(", 19⟩ ::
      (isOneTokens "g" 20 ++ [⟨.punct .closeParen, ")", 25⟩])) (.group (isOne "g")) :=
    .group (by decide) (.atom (atom_isOne (by decide) "g" 20)) ⟨_, _, rfl, rfl, rfl⟩
  have hsequence : Sequence 4 0 mixedTokens (isOne "e")
      [(.or, isOne "f"), (.and, .group (isOne "g"))] := .next (.next (.one he) rfl hf) rfl hg
  have hcondition : Condition 4 0 mixedTokens mixedTree :=
    .chain (.change (.pair he rfl hf) (by decide) rfl hg) (by decide)
  have hread : (condition 26 4).run mixedTokens = (⟨some mixedTree, []⟩, []) := by
    have hend : ConditionFollow 26 [] := ⟨⟨by decide, by decide⟩, by simp⟩
    have happly := hcondition.apply 26 (rfl : 0 + 4 = 4) [] hend
    rwa [List.append_nil] at happly
  refine ⟨hread, hsequence, ?_, by with_unfolding_all rfl⟩
  obtain ⟨ts, hts, -, hfold⟩ := condition_evaluate_eq_foldConditions (σ := Nat) 26 4 hread
  rw [List.append_nil] at hts
  subst hts
  exact hfold 4 _ _ hsequence _ _ _

end Grammar

end FilterQuery
