import FilterQuery.Grammar.Operand
import FilterQuery.Proofs.Consumer.Success
import FilterQuery.Proofs.Fields

/-!
# Proofs/Grammar/Derivation — the grammar, and the tree of each derivation

    condition := atom { connector atom }      value  := literal | object | array | path
    atom      := '(' condition ')' | value comparator value
    path      := name [ args ] { '.' ( name [ args ] | args ) }     -- no args after args

`Operand limit depth ts e` says that the tokens `ts` spell a value whose tree is `e`, with `depth`
groups, arrays, objects and paths around it; `Atom` and `Condition` say the same of conditions.
The rules carry the side conditions of the language: literals and keys are JSON, and nesting stays
within `limit`.  Nothing here reads tokens from left to right: a derivation splits a whole list of
tokens into parts.
-/

namespace FilterQuery.Grammar

open FilterQuery.Rule (Separated)

/-! ## The rules -/

/-- Whether a token is a comma. -/
def isComma (t : Token) : Bool :=
  t.kind = .punct .comma

/-- `ts` are the tokens `inner` with an opening and a closing mark around them. -/
def Enclosed (opener closer : Punct) (inner ts : List Token) : Prop :=
  ∃ o c : Token, o.kind = .punct opener ∧ c.kind = .punct closer ∧ ts = o :: (inner ++ [c])

/-- An entry of an object as it is written, and what its key and its value come to. -/
structure WrittenEntry where
  key : Token
  colon : Token
  value : List Token
  name : String
  expr : Expr

namespace WrittenEntry

/-- The tokens of an entry. -/
def tokens (w : WrittenEntry) : List Token :=
  w.key :: w.colon :: w.value

/-- The key and the expression under it. -/
def entry (w : WrittenEntry) : String × Expr :=
  (w.name, w.expr)

/-- The tokens, and what they come to. -/
def part (w : WrittenEntry) : List Token × (String × Expr) :=
  (w.tokens, w.entry)

/-- The key is a string whose JSON value is the name, and a colon follows. -/
structure Keyed (w : WrittenEntry) : Prop where
  key : w.key.kind = .literal .string
  name : Json.read w.key.lexeme = .ok (.str w.name)
  colon : w.colon.kind = .punct .colon

end WrittenEntry

variable (limit : Nat)

mutual

/-- Values.  An array, an object and a path may be entered with fewer than `limit` of their like
around them, and a path takes as many steps as are left then. -/
inductive Operand : Nat → List Token → Expr → Prop
  | literal {depth : Nat} {t : Token} {l : Literal} {v : Value} : t.kind = .literal l →
      Json.read t.lexeme = .ok v → Operand depth [t] (.literal v t.lexeme)
  | array {depth : Nat} {inner ts : List Token} {parts : List (List Token × Expr)} :
      depth < limit → (∀ p ∈ parts, Operand (depth + 1) p.1 p.2) →
      Separated isComma (parts.map Prod.fst) inner → Enclosed .openBracket .closeBracket inner ts →
      Operand depth ts (.array (parts.map Prod.snd))
  | object {depth : Nat} {inner ts : List Token} {written : List WrittenEntry}
      {fields : List (String × Expr)} : depth < limit → (∀ w ∈ written, w.Keyed) →
      (∀ w ∈ written, Operand (depth + 1) w.value w.expr) →
      Separated isComma (written.map WrittenEntry.tokens) inner →
      Enclosed .openBrace .closeBrace inner ts →
      Fields.Merges (written.map WrittenEntry.entry) fields → Operand depth ts (.object fields)
  | path {depth steps : Nat} {ts : List Token} {e : Expr} : depth < limit →
      Path (depth + 1) ts steps e → depth + 1 + steps ≤ limit → Operand depth ts e

/-- Paths with a number of periods in them.  Arguments follow a name, with or without a period
between, and never arguments. -/
inductive Path : Nat → List Token → Nat → Expr → Prop
  | name {depth : Nat} {t : Token} : t.kind = .segment → Path depth [t] 0 (.root t.lexeme)
  | step {depth steps : Nat} {ts : List Token} {parent : Expr} {period t : Token} :
      Path depth ts steps parent → period.kind = .punct .period → t.kind = .segment →
      Path depth (ts ++ [period, t]) (steps + 1) (.step parent t.lexeme)
  | call {depth steps : Nat} {ts inner us : List Token} {callee : Expr}
      {parts : List (List Token × Expr)} : Path depth ts steps callee → callee.isCall = false →
      (∀ p ∈ parts, Operand depth p.1 p.2) → Separated isComma (parts.map Prod.fst) inner →
      Enclosed .openParen .closeParen inner us →
      Path depth (ts ++ us) steps (.call callee (parts.map Prod.snd))
  | periodCall {depth steps : Nat} {ts inner us : List Token} {callee : Expr} {period : Token}
      {parts : List (List Token × Expr)} : Path depth ts steps callee → callee.isCall = false →
      period.kind = .punct .period → (∀ p ∈ parts, Operand depth p.1 p.2) →
      Separated isComma (parts.map Prod.fst) inner → Enclosed .openParen .closeParen inner us →
      Path depth (ts ++ period :: us) (steps + 1) (.call callee (parts.map Prod.snd))

end

mutual

/-- A comparison, or a condition in parentheses. -/
inductive Atom : Nat → List Token → Expr → Prop
  | comparison {depth : Nat} {ts us : List Token} {t : Token} {op : Comparator}
      {left right : Expr} : Operand limit depth ts left → t.kind = .comparator op →
      Operand limit depth us right → Atom depth (ts ++ t :: us) (.comparison left op right)
  | group {depth : Nat} {inner ts : List Token} {e : Expr} : depth < limit →
      Condition (depth + 1) inner e → Enclosed .openParen .closeParen inner ts →
      Atom depth ts (.group e)

/-- Two atoms or more with connectors between, how often the connector changes, and the operands
under the last connector.  Where it changes, all that comes before is one operand. -/
inductive Chain : Nat → List Token → Nat → Connector → List Expr → Prop
  | pair {depth : Nat} {ts us : List Token} {t : Token} {op : Connector} {left right : Expr} :
      Atom depth ts left → t.kind = .connector op → Atom depth us right →
      Chain depth (ts ++ t :: us) 0 op [left, right]
  | same {depth changes : Nat} {ts us : List Token} {t : Token} {op : Connector}
      {operands : List Expr} {right : Expr} : Chain depth ts changes op operands →
      t.kind = .connector op → Atom depth us right →
      Chain depth (ts ++ t :: us) changes op (operands ++ [right])
  | change {depth changes : Nat} {ts us : List Token} {t : Token} {op op' : Connector}
      {operands : List Expr} {right : Expr} : Chain depth ts changes op' operands → op' ≠ op →
      t.kind = .connector op → Atom depth us right →
      Chain depth (ts ++ t :: us) (changes + 1) op [.chain op' operands, right]

/-- One atom, or a chain that changes its connector as often as the nesting leaves room for. -/
inductive Condition : Nat → List Token → Expr → Prop
  | atom {depth : Nat} {ts : List Token} {e : Expr} : Atom depth ts e → Condition depth ts e
  | chain {depth changes : Nat} {ts : List Token} {op : Connector} {operands : List Expr} :
      Chain depth ts changes op operands → depth + changes ≤ limit →
      Condition depth ts (.chain op operands)

end

/-! ## The first token -/

variable {limit : Nat}

theorem Path.exists_cons {depth : Nat} : ∀ {steps : Nat} {ts : List Token} {e : Expr},
    Path limit depth ts steps e → ∃ t us, ts = t :: us ∧ t.kind = .segment
  | _, _, _, .name ht => ⟨_, _, rfl, ht⟩
  | _, _, _, .step h _ _ | _, _, _, .call h _ _ _ _ | _, _, _, .periodCall h _ _ _ _ _ => by
    obtain ⟨t, us, rfl, ht⟩ := h.exists_cons
    exact ⟨t, _, rfl, ht⟩

/-- Whether a value can start with a token of a kind. -/
def startsOperand : Token.Kind → Bool
  | .literal _ | .segment | .punct .openBrace | .punct .openBracket => true
  | _ => false

/-- **The first token of a value tells what it is.** -/
theorem Operand.exists_cons {depth : Nat} {ts : List Token} {e : Expr}
    (h : Operand limit depth ts e) : ∃ t us, ts = t :: us ∧ startsOperand t.kind = true := by
  cases h with
  | literal ht => exact ⟨_, _, rfl, by rw [ht]; rfl⟩
  | array _ _ _ henc =>
    obtain ⟨o, c, ho, -, rfl⟩ := henc
    exact ⟨o, _, rfl, by rw [ho]; rfl⟩
  | object _ _ _ _ henc =>
    obtain ⟨o, c, ho, -, rfl⟩ := henc
    exact ⟨o, _, rfl, by rw [ho]; rfl⟩
  | path _ hpath =>
    obtain ⟨t, us, rfl, ht⟩ := hpath.exists_cons
    exact ⟨t, us, rfl, by rw [ht]; rfl⟩

end FilterQuery.Grammar
