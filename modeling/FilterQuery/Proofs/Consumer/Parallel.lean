import FilterQuery.Proofs.Consumer.Success
import Mathlib.Data.List.Forall2

/-!
# Proofs/Consumer/Parallel — consumers on two lists that correspond

    list     a₁  a₂ │ a₃  a₄              x reads ──▸ result
             :   :  │ :   :                             :
    list'    b₁  b₂ │ b₃  b₄              y reads ──▸ result'

Two lists correspond if they are of one length and a relation `T` holds item by item.  Two
consumers run in **parallel** on them if their results correspond too, in a sense `R`, and so do the
lists that they leave: then each of them has taken as many items as the other one.  Whatever is put
together from such consumers by the same steps runs in parallel again.
-/

namespace FilterQuery

open List (Forall₂)

variable {τ ε σ α β γ δ : Type}

/-- Both succeed, with results that `R` relates, or both fail, with errors that `E` relates. -/
inductive Agrees (E : ε → ε → Prop) (R : α → β → Prop) : Except ε α → Except ε β → Prop where
  | ok {a : α} {b : β} : R a b → Agrees E R (.ok a) (.ok b)
  | error {e e' : ε} : E e e' → Agrees E R (.error e) (.error e')

namespace Consumer

/-- From `s` and `s'` two consumers come to results that `R` relates and leave lists that
correspond. -/
structure Parallel (T : τ → τ → Prop) (R : α → β → Prop) (x : Consumer τ α) (y : Consumer τ β)
    (s s' : List τ) : Prop where
  result : R (x.run s).1 (y.run s').1
  rest : Forall₂ T (x.run s).2 (y.run s').2

namespace Parallel

variable {T : τ → τ → Prop} {R : α → β → Prop} {S : γ → δ → Prop} {s s' : List τ}

theorem of_pure {a : α} {b : β} (h : R a b) (hs : Forall₂ T s s') :
    Parallel T R (pure a) (pure b) s s' :=
  ⟨h, hs⟩

/-- **Sequences run in parallel if their parts do,** each from where the one before it stopped. -/
theorem bind {x : Consumer τ α} {y : Consumer τ β} {f : α → Consumer τ γ} {g : β → Consumer τ δ}
    (h : Parallel T R x y s s')
    (hf : ∀ a b r r', R a b → Forall₂ T r r' → Parallel T S (f a) (g b) r r') :
    Parallel T S (x >>= f) (y >>= g) s s' :=
  let rest := hf _ _ _ _ h.result h.rest
  ⟨rest.result, rest.rest⟩

theorem rest_bind {f : List τ → Consumer τ γ} {g : List τ → Consumer τ δ}
    (h : Parallel T S (f s) (g s') s s') :
    Parallel T S (Consumer.rest >>= f) (Consumer.rest >>= g) s s' :=
  ⟨h.result, h.rest⟩

theorem skip_bind {f : Unit → Consumer τ γ} {g : Unit → Consumer τ δ}
    (h : Parallel T S (f ()) (g ()) s.tail s'.tail) :
    Parallel T S (Consumer.skip >>= f) (Consumer.skip >>= g) s s' :=
  ⟨h.result, h.rest⟩

/-- Consumers that go on with items between separators, as many on either side. -/
theorem separatedTail {J : σ → σ → Prop} {separator : τ → Option σ} {x : Consumer τ α}
    {y : Consumer τ β} (hsep : ∀ t t', T t t' → Option.Rel J (separator t) (separator t'))
    (hitem : ∀ s s', Forall₂ T s s' → Parallel T R x y s s') (hs : Forall₂ T s s') :
    Forall₂ (fun p q => J p.1 q.1 ∧ R p.2 q.2) (Consumer.separatedTail separator x s).1
        (Consumer.separatedTail separator y s').1 ∧
      Forall₂ T (Consumer.separatedTail separator x s).2
        (Consumer.separatedTail separator y s').2 := by
  fun_induction Consumer.separatedTail separator x s generalizing s' with
  | case1 =>
    cases hs
    rw [Consumer.separatedTail]
    exact ⟨.nil, .nil⟩
  | case2 t s hnone =>
    cases hs with
    | @cons _ t' _ s' ht hs =>
      have hrel := hsep t t' ht
      rw [hnone] at hrel
      rw [Consumer.separatedTail]
      rcases hsome : separator t' with _ | o
      · exact ⟨.nil, .cons ht hs⟩
      · rw [hsome] at hrel
        cases hrel
  | case3 t s o ho more =>
    rename_i ih
    cases hs with
    | @cons _ t' _ s' ht hs =>
      have hrel := hsep t t' ht
      rw [ho] at hrel
      rw [Consumer.separatedTail]
      rcases hsome : separator t' with _ | o'
      · rw [hsome] at hrel
        cases hrel
      · rw [hsome] at hrel
        cases hrel with
        | some hj =>
          have hread := hitem s s' hs
          obtain ⟨hitems, hrest⟩ := ih hread.rest
          exact ⟨.cons ⟨hj, hread.result⟩ hitems, hrest⟩

theorem separatedBy {J : σ → σ → Prop} {separator : τ → Option σ} {x : Consumer τ α}
    {y : Consumer τ β} (hsep : ∀ t t', T t t' → Option.Rel J (separator t) (separator t'))
    (hitem : ∀ s s', Forall₂ T s s' → Parallel T R x y s s') (hs : Forall₂ T s s') :
    Parallel T
      (fun p q => R p.1 q.1 ∧ Forall₂ (fun a b => J a.1 b.1 ∧ R a.2 b.2) p.2 q.2)
      (Consumer.separatedBy separator x) (Consumer.separatedBy separator y) s s' :=
  let first := hitem s s' hs
  let more := separatedTail hsep hitem first.rest
  ⟨⟨first.result, more.1⟩, more.2⟩

end Parallel

end Consumer

namespace Rule

variable {T : τ → τ → Prop} {E : ε → ε → Prop} {R : α → β → Prop} {S : γ → δ → Prop}
  {s s' : List τ}

/-- Two rules run in parallel if they do as consumers, and their errors correspond. -/
abbrev Parallel (T : τ → τ → Prop) (E : ε → ε → Prop) (R : α → β → Prop) (x : Rule τ ε α)
    (y : Rule τ ε β) (s s' : List τ) : Prop :=
  Consumer.Parallel T (Agrees E R) (ExceptT.run x) (ExceptT.run y) s s'

namespace Parallel

theorem of_pure {a : α} {b : β} (h : R a b) (hs : Forall₂ T s s') :
    Parallel T E R (pure a : Rule τ ε α) (pure b) s s' :=
  ⟨.ok h, hs⟩

theorem of_throw {e e' : ε} (h : E e e') (hs : Forall₂ T s s') :
    Parallel T E R (throw e : Rule τ ε α) (throw e' : Rule τ ε β) s s' :=
  ⟨.error h, hs⟩

theorem bind {x : Rule τ ε α} {y : Rule τ ε β} {f : α → Rule τ ε γ} {g : β → Rule τ ε δ}
    (h : Parallel T E R x y s s')
    (hf : ∀ a b r r', R a b → Forall₂ T r r' → Parallel T E S (f a) (g b) r r') :
    Parallel T E S (x >>= f) (y >>= g) s s' := by
  refine Consumer.Parallel.bind h fun a b r r' hab hr => ?_
  cases hab with
  | ok hab => exact hf _ _ r r' hab hr
  | error he => exact ⟨.error he, hr⟩

theorem skip_bind {f : Unit → Rule τ ε γ} {g : Unit → Rule τ ε δ}
    (h : Parallel T E S (f ()) (g ()) s.tail s'.tail) :
    Parallel T E S (Rule.skip >>= f) (Rule.skip >>= g) s s' :=
  ⟨h.result, h.rest⟩

/-- What two rules come to from corresponding lists, case by case. -/
theorem cases_apply {x : Rule τ ε α} {y : Rule τ ε β} (h : Parallel T E R x y s s') :
    (∃ e e' r r', x.apply s = (.error e, r) ∧ y.apply s' = (.error e', r') ∧ E e e' ∧
      Forall₂ T r r') ∨
    ∃ a b r r', x.apply s = (.ok a, r) ∧ y.apply s' = (.ok b, r') ∧ R a b ∧ Forall₂ T r r' := by
  have hresult : Agrees E R (x.apply s).1 (y.apply s').1 := h.result
  have hrest : Forall₂ T (x.apply s).2 (y.apply s').2 := h.rest
  rcases hx : x.apply s with ⟨a, r⟩
  rcases hy : y.apply s' with ⟨b, r'⟩
  rw [hx, hy] at hresult hrest
  cases hresult with
  | ok hab => exact Or.inr ⟨_, _, r, r', rfl, rfl, hab, hrest⟩
  | error he => exact Or.inl ⟨_, _, r, r', rfl, rfl, he, hrest⟩

theorem agrees_map_cons {a : α} {b : β} {x : Except ε (List α)} {y : Except ε (List β)}
    (hab : R a b) (h : Agrees E (Forall₂ R) x y) :
    Agrees E (Forall₂ R) (x.map (a :: ·)) (y.map (b :: ·)) := by
  cases h with
  | ok h => exact .ok (.cons hab h)
  | error he => exact .error he

theorem listFrom_parallel {separator : τ → Bool} {x : Rule τ ε α} {y : Rule τ ε β}
    (hsep : ∀ t t', T t t' → separator t = separator t')
    (hitem : ∀ s s', Forall₂ T s s' → Parallel T E R x y s s') (hs : Forall₂ T s s') :
    Agrees E (Forall₂ R) (listFrom separator x s).1 (listFrom separator y s').1 ∧
      Forall₂ T (listFrom separator x s).2 (listFrom separator y s').2 := by
  fun_induction listFrom separator x s generalizing s' with
  | case1 s e r hx =>
    obtain ⟨e₁, e', r₁, r', hx', hy, he, hr⟩ | ⟨a, b, r₁, r', hx', -⟩ :=
      cases_apply (hitem s s' hs)
    · cases hx.symm.trans hx'
      rw [listFrom_of_error hy]
      exact ⟨.error he, hr⟩
    · cases hx.symm.trans hx'
  | case2 s a hx =>
    obtain ⟨e₁, e', r₁, r', hx', -⟩ | ⟨a, b, r₁, r', hx', hy, hab, hr⟩ :=
      cases_apply (hitem s s' hs)
    · cases hx.symm.trans hx'
    · cases hx.symm.trans hx'
      cases hr
      rw [listFrom_of_stop hy (by simp)]
      exact ⟨.ok (.cons hab .nil), .nil⟩
  | case3 s a t r hx ht hlt more =>
    rename_i ih
    obtain ⟨e₁, e', r₁, r', hx', -⟩ | ⟨a, b, r₁, r', hx', hy, hab, hr⟩ :=
      cases_apply (hitem s s' hs)
    · cases hx.symm.trans hx'
    · cases hx.symm.trans hx'
      cases hr with
      | @cons _ t' _ r' htt hr =>
        rw [listFrom_of_separator hy (hsep t t' htt ▸ ht)]
        obtain ⟨hmore, hrest⟩ := ih hr
        exact ⟨agrees_map_cons hab hmore, hrest⟩
  | case4 s a t r hx ht =>
    obtain ⟨e₁, e', r₁, r', hx', -⟩ | ⟨a, b, r₁, r', hx', hy, hab, hr⟩ :=
      cases_apply (hitem s s' hs)
    · cases hx.symm.trans hx'
    · cases hx.symm.trans hx'
      cases hr with
      | @cons _ t' _ r' htt hr =>
        have hstop : separator t' = false := by rw [← hsep t t' htt]; simpa using ht
        rw [listFrom_of_stop hy (by rintro _ _ ⟨rfl, rfl⟩; exact hstop)]
        exact ⟨.ok (.cons hab .nil), .cons htt hr⟩

/-- **Lists run in parallel if their items do** and separators correspond to separators. -/
theorem list {separator : τ → Bool} {x : Rule τ ε α} {y : Rule τ ε β}
    (hsep : ∀ t t', T t t' → separator t = separator t')
    (hitem : ∀ s s', Forall₂ T s s' → Parallel T E R x y s s') (hs : Forall₂ T s s') :
    Parallel T E (Forall₂ R) (Rule.list separator x) (Rule.list separator y) s s' :=
  let read := listFrom_parallel hsep hitem hs
  ⟨read.1, read.2⟩

end Parallel

end Rule

end FilterQuery
