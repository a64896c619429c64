import FilterQuery.Grammar.Parser
import FilterQuery.Proofs.Consumer.Parallel
import FilterQuery.Proofs.Grammar.Operand

/-!
# Proofs/Grammar/Parallel — what the parser sees of its tokens

The parser asks for the kind of a token, for the lexeme of a name or a literal, and for the offset
and the lexeme of a token that it blames.  So on two lists whose tokens correspond in these respects
(`Alike`) it comes to the same: every rule runs in parallel with itself, recovery after an error
included, and **the whole parser returns the same tree or errors that correspond**
(`parse_parallel`).
-/

namespace FilterQuery.Grammar

open List (Forall₂)

variable {T : Token → Token → Prop} {E : SyntaxError → SyntaxError → Prop} {finish finish' : Nat}
  {s s' : List Token} {α β : Type}

/-- What corresponds token by token does so behind the first ones. -/
theorem forall₂_tail (hs : Forall₂ T s s') : Forall₂ T s.tail s'.tail := by
  cases hs with
  | nil => exact .nil
  | cons _ hs => exact hs

/-- What corresponding tokens have in common, and which errors correspond: those at corresponding
tokens, for the same cause. -/
structure Alike (T : Token → Token → Prop) (E : SyntaxError → SyntaxError → Prop)
    (finish finish' : Nat) : Prop where
  kind : ∀ {t t'}, T t t' → t.kind = t'.kind
  lexeme : ∀ {t t'}, T t t' → t.kind = .segment ∨ (∃ l, t.kind = .literal l) → t.lexeme = t'.lexeme
  endToken : T (endToken finish) (endToken finish')
  unexpected : ∀ {t t'} what, T t t' → E (unexpected what t) (unexpected what t')
  error : ∀ {t t'} cause, T t t' → E ⟨t.offset, cause⟩ ⟨t'.offset, cause⟩

namespace Alike

variable (h : Alike T E finish finish')
include h

/-- The tokens in front correspond, at the end of input too. -/
theorem front (hs : Forall₂ T s s') : T (front finish s) (Grammar.front finish' s') := by
  cases hs with
  | nil => exact h.endToken
  | cons ht _ => exact ht

/-- The tokens in front have one kind, so both sides take the same branch. -/
theorem front_kind (hs : Forall₂ T s s') :
    (Grammar.front finish s).kind = (Grammar.front finish' s').kind :=
  h.kind (h.front hs)

/-! ## Single tokens -/

omit h in
/-- Looking at the tokens in front, both sides go on in parallel if the rules for these do. -/
theorem current_bind {R : α → β → Prop} {f : Token → Rule α} {g : Token → Rule β}
    (hfg : Rule.Parallel T E R (f (Grammar.front finish s)) (g (Grammar.front finish' s')) s s') :
    Rule.Parallel T E R (current finish >>= f) (current finish' >>= g) s s' :=
  ⟨hfg.result, hfg.rest⟩

/-- Asking for a mark has one answer on both sides. -/
theorem atPunct_bind {R : α → β → Prop} {p : Punct} {f : Bool → Rule α} {g : Bool → Rule β}
    (hs : Forall₂ T s s')
    (hfg : Rule.Parallel T E R (f ((Grammar.front finish s).kind = .punct p))
      (g ((Grammar.front finish s).kind = .punct p)) s s') :
    Rule.Parallel T E R (atPunct finish p >>= f) (atPunct finish' p >>= g) s s' := by
  have hfg' : Rule.Parallel T E R (f ((Grammar.front finish s).kind = .punct p))
      (g ((Grammar.front finish' s').kind = .punct p)) s s' := by
    rw [← h.front_kind hs]
    exact hfg
  exact ⟨hfg'.result, hfg'.rest⟩

/-- Both sides take a token of the kind, or both blame corresponding ones. -/
theorem expect (kind : Token.Kind) (hs : Forall₂ T s s') :
    Rule.Parallel T E (fun t t' => T t t' ∧ t.kind = kind) (expect finish kind)
      (Grammar.expect finish' kind) s s' := by
  refine current_bind ?_
  rw [← h.front_kind hs]
  split
  · next hkind => exact .skip_bind (.of_pure ⟨h.front hs, hkind⟩ (forall₂_tail hs))
  · exact .of_throw (h.unexpected _ (h.front hs)) hs

/-- Literals that correspond have one lexeme, so they have one value, or errors for one cause. -/
theorem decode {t t' : Token} {l : Literal} (ht : T t t') (hl : t.kind = .literal l) :
    Agrees E Eq (decode t) (Grammar.decode t') := by
  have hlexeme : t.lexeme = t'.lexeme := h.lexeme ht (Or.inr ⟨l, hl⟩)
  rw [Grammar.decode, Grammar.decode, hlexeme]
  cases Json.read t'.lexeme with
  | ok v => exact .ok rfl
  | error e => exact .error (h.error _ ht)

/-- Literals are read in parallel. -/
theorem literal {l : Literal} (hs : Forall₂ T s s')
    (hl : (Grammar.front finish s).kind = .literal l) :
    Rule.Parallel T E Eq (literal finish) (Grammar.literal finish') s s' := by
  have hlexeme := h.lexeme (h.front hs) (Or.inr ⟨l, hl⟩)
  have hdecode := h.decode (h.front hs) hl
  refine current_bind (.skip_bind ?_)
  rw [← hlexeme]
  generalize Grammar.decode (Grammar.front finish s) = x at hdecode ⊢
  generalize Grammar.decode (Grammar.front finish' s') = y at hdecode ⊢
  cases hdecode with
  | ok hv => exact .of_pure (by rw [hv]) (forall₂_tail hs)
  | error he => exact .of_throw he (forall₂_tail hs)

/-- Keys are read in parallel. -/
theorem key (hs : Forall₂ T s s') :
    Rule.Parallel T E Eq (key finish) (Grammar.key finish') s s' := by
  refine (h.expect _ hs).bind fun t t' r r' ht hr => ?_
  have hdecode := h.decode ht.1 ht.2
  generalize Grammar.decode t = x at hdecode ⊢
  generalize Grammar.decode t' = y at hdecode ⊢
  cases hdecode with
  | error he => exact .of_throw he hr
  | @ok v w hv =>
    subst hv
    cases v with
    | str k => exact .of_pure rfl hr
    | _ => exact .of_throw (h.error _ ht.1) hr

/-! ## Values -/

/-- Lists are read in parallel if their items are. -/
theorem listUpTo (close : Punct) {x y : Rule α}
    (hitem : ∀ s s', Forall₂ T s s' → Rule.Parallel T E Eq x y s s') (hs : Forall₂ T s s') :
    Rule.Parallel T E Eq (listUpTo finish close x) (Grammar.listUpTo finish' close y) s s' := by
  refine h.atPunct_bind hs ?_
  split
  · exact .skip_bind (.of_pure rfl (forall₂_tail hs))
  · refine (Rule.Parallel.list (fun t t' ht => by rw [h.kind ht]) hitem hs).bind
      fun items items' r r' hitems hr => current_bind ?_
    have heq : items = items' := by rwa [List.forall₂_eq_eq_eq] at hitems
    rw [← h.front_kind hr]
    split
    · exact .skip_bind (.of_pure heq (forall₂_tail hr))
    · exact .of_throw (h.unexpected _ (h.front hr)) hr

variable {value value' : Rule Expr}
  (hvalue : ∀ s s', Forall₂ T s s' → Rule.Parallel T E Eq value value' s s')
include hvalue

/-- Entries are read in parallel if their values are. -/
theorem entry (hs : Forall₂ T s s') :
    Rule.Parallel T E Eq (entry finish value) (Grammar.entry finish' value') s s' :=
  (h.key hs).bind fun _ _ _ _ hk hr => (h.expect _ hr).bind fun _ _ _ _ _ hr =>
    (hvalue _ _ hr).bind fun _ _ _ _ hv hr => .of_pure (by rw [hk, hv]) hr

/-- Objects are read in parallel if their values are. -/
theorem object (hs : Forall₂ T s s') :
    Rule.Parallel T E Eq (object finish value) (Grammar.object finish' value') s s' :=
  .skip_bind ((h.listUpTo .closeBrace (fun _ _ => h.entry hvalue) (forall₂_tail hs)).bind
    fun _ _ _ _ hentries hr => .of_pure (by rw [hentries]) hr)

/-- Arrays are read in parallel if their items are. -/
theorem array (hs : Forall₂ T s s') :
    Rule.Parallel T E Eq (array finish value) (Grammar.array finish' value') s s' :=
  .skip_bind ((h.listUpTo .closeBracket hvalue (forall₂_tail hs)).bind
    fun _ _ _ _ hitems hr => .of_pure (by rw [hitems]) hr)

/-- Calls are read in parallel if their arguments are. -/
theorem call (callee : Expr) (hs : Forall₂ T s s') :
    Rule.Parallel T E Eq (call finish value callee) (Grammar.call finish' value' callee) s s' :=
  .skip_bind ((h.listUpTo .closeParen hvalue (forall₂_tail hs)).bind
    fun _ _ _ _ hargs hr => .of_pure (by rw [hargs]) hr)

/-- Names, called or not, are read in parallel. -/
theorem segment (parent : Option Expr) (hs : Forall₂ T s s') :
    Rule.Parallel T E Eq (segment finish value parent) (Grammar.segment finish' value' parent)
      s s' := by
  refine (h.expect _ hs).bind fun t t' r r' ht hr => h.atPunct_bind hr ?_
  rw [h.lexeme ht.1 (Or.inl ht.2)]
  split
  · exact h.call hvalue _ hr
  · exact .of_pure rfl hr

/-- The steps of a path are read in parallel. -/
theorem steps (budget : Nat) (path : Expr) (hs : Forall₂ T s s') :
    Rule.Parallel T E Eq (steps finish value budget path)
      (Grammar.steps finish' value' budget path) s s' := by
  induction budget generalizing path s s' with
  | zero =>
    refine h.atPunct_bind hs ?_
    split
    · have hr := forall₂_tail hs
      exact .skip_bind (current_bind (.of_throw (h.error _ (h.front hr)) hr))
    · exact .of_pure rfl hs
  | succ budget ih =>
    refine h.atPunct_bind hs ?_
    split
    · have hr := forall₂_tail hs
      refine .skip_bind (h.atPunct_bind hr ?_)
      split
      · split
        · exact current_bind (.of_throw (h.error _ (h.front hr)) hr)
        · refine (h.call hvalue path hr).bind fun _ _ _ _ hcall hr => ?_
          rw [hcall]
          exact ih _ hr
      · refine (h.segment hvalue (some path) hr).bind fun _ _ _ _ hsegment hr => ?_
        rw [hsegment]
        exact ih _ hr
    · exact .of_pure rfl hs

/-- Paths are read in parallel. -/
theorem path (budget : Nat) (hs : Forall₂ T s s') :
    Rule.Parallel T E Eq (path finish value budget) (Grammar.path finish' value' budget) s s' := by
  refine (h.segment hvalue none hs).bind fun _ _ _ _ hsegment hr => ?_
  rw [hsegment]
  exact h.steps hvalue budget _ hr

omit hvalue

/-- **Operands are read in parallel,** at any depth. -/
theorem operand (budget : Nat) (hs : Forall₂ T s s') :
    Rule.Parallel T E Eq (operand finish budget) (Grammar.operand finish' budget) s s' := by
  induction budget generalizing s s' with
  | zero =>
    refine current_bind ?_
    rw [← h.front_kind hs]
    split
    · next l hl => exact h.literal hs hl
    · exact .of_throw (h.error _ (h.front hs)) hs
    · exact .of_throw (h.error _ (h.front hs)) hs
    · exact .of_throw (h.error _ (h.front hs)) hs
    · exact .of_throw (h.unexpected _ (h.front hs)) hs
  | succ budget ih =>
    refine current_bind ?_
    rw [← h.front_kind hs]
    split
    · next l hl => exact h.literal hs hl
    · exact h.object (fun _ _ => ih) hs
    · exact h.array (fun _ _ => ih) hs
    · exact h.path (fun _ _ => ih) budget hs
    · exact .of_throw (h.unexpected _ (h.front hs)) hs

/-- Comparisons are read in parallel. -/
theorem comparison (budget : Nat) (hs : Forall₂ T s s') :
    Rule.Parallel T E Eq (comparison finish (Grammar.operand finish budget))
      (Grammar.comparison finish' (Grammar.operand finish' budget)) s s' := by
  refine (h.operand budget hs).bind fun left left' r r' hleft hr => current_bind ?_
  rw [← h.front_kind hr, hleft]
  split
  · exact .skip_bind ((h.operand budget (forall₂_tail hr)).bind fun _ _ _ _ hright hr =>
      .of_pure (by rw [hright]) hr)
  · exact .of_throw (h.unexpected _ (h.front hr)) hr

end Alike

/-! ## Conditions -/

/-- The same expression, and errors that correspond. -/
structure Reading.Alike (E : SyntaxError → SyntaxError → Prop) (a b : Reading) : Prop where
  expr : a.expr = b.expr
  errors : Forall₂ E a.errors b.errors

/-- The same result or errors that correspond, and recorded errors that do. -/
structure Attempt.Alike (E : SyntaxError → SyntaxError → Prop) (a b : Attempt) : Prop where
  result : Agrees E Eq a.result b.result
  errors : Forall₂ E a.errors b.errors

/-- The same connector, at places where errors correspond. -/
structure Joint.Alike (E : SyntaxError → SyntaxError → Prop) (a b : Joint) : Prop where
  op : a.op = b.op
  error : ∀ cause, E ⟨a.offset, cause⟩ ⟨b.offset, cause⟩

/-- Readings that are alike, and the same room for changes of the connector. -/
structure Progress.Alike (E : SyntaxError → SyntaxError → Prop) (a b : Progress) : Prop where
  reading : Reading.Alike E a.reading b.reading
  changes : a.changes = b.changes

namespace Progress.Alike

variable {p q : Progress} {i j : Joint} {a b : Reading}

/-- What a switch of connectors costs is the same on both sides, and what it is blamed for
corresponds. -/
theorem charge (h : Alike E p q) (hij : Joint.Alike E i j) : Alike E (p.charge i) (q.charge j) := by
  rw [Progress.charge, Progress.charge, ← h.reading.expr, ← h.changes, ← hij.op]
  split
  · split
    · exact ⟨⟨rfl, List.rel_append h.reading.errors (.cons (hij.error _) .nil)⟩, rfl⟩
    · exact ⟨h.reading, rfl⟩
  · exact h

/-- Chains that correspond do so with one more operand. -/
theorem append (h : Alike E p q) (op : Connector) (hab : Reading.Alike E a b) :
    Alike E (p.append op a) (q.append op b) := by
  refine ⟨⟨?_, List.rel_append h.reading.errors hab.errors⟩, h.changes⟩
  rw [Progress.append, Progress.append, h.reading.expr, hab.expr]

/-- Chains that correspond do so after one more connector and what is read behind it. -/
theorem step (h : Alike E p q) (hij : Joint.Alike E i j) (hab : Reading.Alike E a b) :
    Alike E (p.step (i, a)) (q.step (j, b)) := by
  rw [Progress.step, Progress.step, hij.op]
  exact (h.charge hij).append j.op hab

end Progress.Alike

/-- **Readings that correspond one by one make chains that do.** -/
theorem assemble_alike {first first' : Reading} {more more' : List (Joint × Reading)} (budget : Nat)
    (hfirst : Reading.Alike E first first')
    (hmore : Forall₂ (fun a b => Joint.Alike E a.1 b.1 ∧ Reading.Alike E a.2 b.2) more more') :
    Reading.Alike E (assemble budget first more) (assemble budget first' more') := by
  suffices ∀ p q, Progress.Alike E p q →
      Progress.Alike E (more.foldl Progress.step p) (more'.foldl Progress.step q) from
    (this ⟨first, budget⟩ ⟨first', budget⟩ ⟨hfirst, rfl⟩).reading
  induction hmore with
  | nil => exact fun _ _ h => h
  | cons hpart _ ih => exact fun p q h => ih _ _ (h.step hpart.1 hpart.2)

/-- Brackets are tracked by kinds only. -/
theorem track_all_eq (hkind : ∀ {t t'}, T t t' → t.kind = t'.kind) (b : Brackets)
    (hs : Forall₂ T s s') : b.trackAll s = b.trackAll s' := by
  induction hs generalizing b with
  | nil => rfl
  | cons ht _ ih =>
    rw [Brackets.trackAll, Brackets.trackAll, List.foldl_cons, List.foldl_cons, hkind ht]
    exact ih _

/-- Both sides skip the same number of tokens. -/
theorem forall₂_skip (hkind : ∀ {t t'}, T t t' → t.kind = t'.kind) (b : Brackets)
    (hs : Forall₂ T s s') : Forall₂ T (b.skip s) (b.skip s') := by
  induction hs generalizing b with
  | nil => exact .nil
  | cons ht hs ih =>
    rw [Brackets.skip, Brackets.skip, hkind ht]
    split
    · exact .cons ht hs
    · exact ih _

namespace Alike

variable (h : Alike T E finish finish')
include h

/-- **Both sides recover at corresponding tokens.** -/
theorem synchronize {start start' : List Token} (hstart : Forall₂ T start start')
    (hs : Forall₂ T s s') :
    Consumer.Parallel T Eq (synchronize start) (FilterQuery.synchronize start') s s' := by
  refine ⟨rfl, ?_⟩
  have hread := track_all_eq h.kind .empty (List.forall₂_take (start.length - s.length) hstart)
  rw [hs.length_eq, hstart.length_eq] at hread
  change Forall₂ T ((Brackets.empty.trackAll _).skip s) ((Brackets.empty.trackAll _).skip s')
  rw [hs.length_eq, hstart.length_eq, hread]
  exact forall₂_skip h.kind _ hs

/-- What fails on one side fails on the other, and both go on behind the broken condition. -/
theorem recovering {x y : Consumer Token Attempt}
    (hxy : Consumer.Parallel T (Attempt.Alike E) x y s s') (hs : Forall₂ T s s') :
    Consumer.Parallel T (Reading.Alike E) (recovering x) (Grammar.recovering y) s s' := by
  refine .rest_bind (hxy.bind fun a b r r' hab hr => ?_)
  obtain ⟨result, errors⟩ := a
  obtain ⟨result', errors'⟩ := b
  obtain ⟨hresult, herrors⟩ := hab
  cases hresult with
  | ok hexpr => exact .of_pure ⟨hexpr, herrors⟩ hr
  | error he =>
    exact (h.synchronize hs hr).bind fun _ _ _ _ _ hr =>
      .of_pure ⟨rfl, List.rel_append herrors (.cons he .nil)⟩ hr

/-- Groups are read in parallel if what is in them is. -/
theorem group {x y : Consumer Token Reading}
    (hxy : ∀ s s', Forall₂ T s s' → Consumer.Parallel T (Reading.Alike E) x y s s')
    (hs : Forall₂ T s s') :
    Consumer.Parallel T (Attempt.Alike E) (group finish x) (Grammar.group finish' y) s s' := by
  refine .skip_bind ((hxy _ _ (forall₂_tail hs)).bind fun a b r r' hab hr => .rest_bind ?_)
  dsimp only
  rw [← h.front_kind hr]
  split
  · exact .skip_bind (.of_pure ⟨.ok (by rw [hab.expr]), hab.errors⟩ (forall₂_tail hr))
  · exact .of_pure ⟨.error (h.unexpected _ (h.front hr)), hab.errors⟩ hr

/-- How the conditions of groups are read, if there is room for any. -/
inductive Inner (T : Token → Token → Prop) (E : SyntaxError → SyntaxError → Prop) :
    Option (Consumer Token Reading) → Option (Consumer Token Reading) → Prop where
  | none : Inner T E none none
  | some {x y : Consumer Token Reading} :
      (∀ s s', Forall₂ T s s' → Consumer.Parallel T (Reading.Alike E) x y s s') →
      Inner T E (some x) (some y)

/-- Comparisons and groups are read in parallel. -/
theorem atom {inner inner' : Option (Consumer Token Reading)} (budget : Nat)
    (hinner : Inner T E inner inner') (hs : Forall₂ T s s') :
    Consumer.Parallel T (Attempt.Alike E) (atom finish budget inner)
      (Grammar.atom finish' budget inner') s s' := by
  refine .rest_bind ?_
  dsimp only
  rw [← h.front_kind hs]
  split
  · cases hinner with
    | none => exact .of_pure ⟨.error (h.error _ (h.front hs)), .nil⟩ hs
    | some hxy => exact h.group hxy hs
  · refine Consumer.Parallel.bind (h.comparison budget hs) fun a b r r' hab hr =>
      .of_pure ⟨?_, .nil⟩ hr
    cases hab with
    | ok he => exact .ok (by rw [he])
    | error he => exact .error he

/-- A connector is one on both sides, for the same chain. -/
theorem joint? (t t' : Token) (ht : T t t') :
    Option.Rel (Joint.Alike E) (joint? t) (Grammar.joint? t') := by
  rw [Grammar.joint?, Grammar.joint?, ← h.kind ht]
  split
  · exact .some ⟨rfl, fun cause => h.error cause ht⟩
  · exact .none

/-- Chains are read in parallel if the groups in them are. -/
theorem conditionWith {inner inner' : Option (Consumer Token Reading)} (budget : Nat)
    (hinner : Inner T E inner inner') (hs : Forall₂ T s s') :
    Consumer.Parallel T (Reading.Alike E) (conditionWith finish budget inner)
      (Grammar.conditionWith finish' budget inner') s s' :=
  (Consumer.Parallel.separatedBy h.joint?
    (fun _ _ hs => h.recovering (h.atom budget hinner hs) hs) hs).bind
    fun _ _ _ _ hparts hr => .of_pure (assemble_alike budget hparts.1 hparts.2) hr

/-- **Conditions are read in parallel,** at any depth. -/
theorem condition (budget : Nat) (hs : Forall₂ T s s') :
    Consumer.Parallel T (Reading.Alike E) (condition finish budget)
      (Grammar.condition finish' budget) s s' := by
  induction budget generalizing s s' with
  | zero => exact h.conditionWith 0 .none hs
  | succ budget ih => exact h.conditionWith (budget + 1) (.some fun _ _ => ih) hs

end Alike

/-- A tree counts if there are no errors beside it. -/
theorem agrees_of_errors (expr : Option Expr) {es es' : List SyntaxError} :
    Forall₂ E es es' → Agrees (Forall₂ E) Eq
      (match expr, es with
        | some e, [] => Except.ok e
        | _, _ => .error es)
      (match expr, es' with
        | some e, [] => Except.ok e
        | _, _ => .error es') := by
  intro h
  cases h with
  | nil =>
    cases expr with
    | none => exact .error .nil
    | some e => exact .ok rfl
  | cons he hes =>
    cases expr with
    | none => exact .error (.cons he hes)
    | some e => exact .error (.cons he hes)

/-- **The parser sees nothing of its tokens but what corresponding tokens have in common.**  It
returns the same tree, or errors that correspond one by one. -/
theorem parse_parallel {p q : Parser} (h : Alike T E p.finish q.finish)
    (hrest : Forall₂ T p.rest q.rest) (herrors : Forall₂ E p.errors q.errors) :
    Agrees (Forall₂ E) Eq p.parse.1 q.parse.1 := by
  obtain ⟨hreading, hleft⟩ := h.condition maxDepth hrest
  rcases hp : (condition p.finish maxDepth).run p.rest with ⟨a, r⟩
  rcases hq : (condition q.finish maxDepth).run q.rest with ⟨b, r'⟩
  rw [hp, hq] at hreading hleft
  have hall : Forall₂ E (p.errors ++ a.errors) (q.errors ++ b.errors) :=
    List.rel_append herrors hreading.errors
  simp only [Parser.parse, Parser.parseExpression, hp, hq]
  rw [← h.front_kind hleft, ← hreading.expr]
  apply agrees_of_errors
  split
  · exact hall
  · exact List.rel_append hall (.cons (h.unexpected _ (h.front hleft)) .nil)

end FilterQuery.Grammar
