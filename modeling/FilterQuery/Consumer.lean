/-!
# Consumer — computations that read a list from the front

A consumer takes items off the front of a list and puts none back: what it leaves is a suffix of
what it found (`Consumer.suffix`). That one fact makes every loop over consumers end, by the length
of the list. A `Rule` is a consumer that may fail; it fails where it stands.
-/

namespace FilterQuery

variable {τ ε σ α β : Type}

/-- A computation that reads a list from the front and leaves a suffix of it. -/
structure Consumer (τ α : Type) where
  /-- The result, and what is left of the list. -/
  run : List τ → α × List τ
  suffix : ∀ s, (run s).2 <:+ s

namespace Consumer

theorem length_run_le (x : Consumer τ α) (s : List τ) : (x.run s).2.length ≤ s.length :=
  (x.suffix s).length_le

instance : Monad (Consumer τ) where
  pure a := ⟨fun s => (a, s), fun _ => List.suffix_rfl⟩
  bind x f := ⟨fun s => (f (x.run s).1).run (x.run s).2,
    fun s => ((f (x.run s).1).suffix _).trans (x.suffix s)⟩

@[simp] theorem run_pure (a : α) (s : List τ) : (pure a : Consumer τ α).run s = (a, s) := rfl

@[simp] theorem run_bind (x : Consumer τ α) (f : α → Consumer τ β) (s : List τ) :
    (x >>= f).run s = (f (x.run s).1).run (x.run s).2 := rfl

instance : LawfulMonad (Consumer τ) :=
  LawfulMonad.mk' (Consumer τ) (fun _ => rfl) (fun _ _ => rfl) (fun _ _ _ => rfl)

/-- All that is left, which stays. -/
def rest : Consumer τ (List τ) :=
  ⟨fun s => (s, s), fun _ => List.suffix_rfl⟩

/-- The next item, which stays. -/
def peek : Consumer τ (Option τ) :=
  ⟨fun s => (s.head?, s), fun _ => List.suffix_rfl⟩

/-- Drops the next item, if there is one. -/
def skip : Consumer τ Unit :=
  ⟨fun s => ((), s.tail), List.tail_suffix⟩

/-- Drops the items at the front that satisfy `p`. -/
def skipWhile (p : τ → Bool) : Consumer τ Unit :=
  ⟨fun s => ((), s.dropWhile p), fun _ => List.dropWhile_suffix p⟩

/-- Takes the items at the front that satisfy `p`. -/
def takeWhile (p : τ → Bool) : Consumer τ (List τ) :=
  ⟨fun s => (s.takeWhile p, s.dropWhile p), fun _ => List.dropWhile_suffix p⟩

/-- What `separatedFrom` reads after a first item. -/
def separatedTail (separator : τ → Option σ) (item : Consumer τ α) :
    List τ → List (σ × α) × List τ
  | [] => ([], [])
  | t :: s =>
    match separator t with
    | none => ([], t :: s)
    | some o =>
      let more := separatedTail separator item (item.run s).2
      ((o, (item.run s).1) :: more.1, more.2)
termination_by s => s.length
decreasing_by exact Nat.lt_succ_of_le (item.length_run_le s)

theorem separatedTail_suffix (separator : τ → Option σ) (item : Consumer τ α) (s : List τ) :
    (separatedTail separator item s).2 <:+ s := by
  fun_induction separatedTail separator item s with
  | case1 => exact List.suffix_rfl
  | case2 => exact List.suffix_rfl
  | case3 t s o _ _ ih => exact (ih.trans (item.suffix s)).trans (List.suffix_cons t s)

/-- One item, and as many more as separators follow, each with the separator before it. -/
def separatedBy (separator : τ → Option σ) (item : Consumer τ α) : Consumer τ (α × List (σ × α)) :=
  ⟨fun s =>
    let first := item.run s
    let more := separatedTail separator item first.2
    ((first.1, more.1), more.2),
    fun s => (separatedTail_suffix separator item _).trans (item.suffix s)⟩

end Consumer

/-- A consumer that may fail with an `ε`. -/
abbrev Rule (τ ε : Type) := ExceptT ε (Consumer τ)

namespace Rule

/-- The result of a rule, and what is left of the list. -/
abbrev apply (x : Rule τ ε α) (s : List τ) : Except ε α × List τ :=
  (ExceptT.run x).run s

theorem suffix (x : Rule τ ε α) (s : List τ) : (x.apply s).2 <:+ s :=
  (ExceptT.run x).suffix s

theorem suffix_of_apply_eq {x : Rule τ ε α} {s r : List τ} {a : Except ε α}
    (h : x.apply s = (a, r)) : r <:+ s := by
  have := x.suffix s
  rwa [h] at this

theorem length_apply_le (x : Rule τ ε α) (s : List τ) : (x.apply s).2.length ≤ s.length :=
  (x.suffix s).length_le

/-- The rule that does what `run` says. -/
def ofFun (run : List τ → Except ε α × List τ) (suffix : ∀ s, (run s).2 <:+ s) : Rule τ ε α :=
  ExceptT.mk ⟨run, suffix⟩

/-- The rule that does what a consumer does and never fails. -/
def always (x : Consumer τ α) : Rule τ ε α :=
  ExceptT.lift x

/-- All that is left, which stays. -/
def rest : Rule τ ε (List τ) :=
  always Consumer.rest

/-- The next item, which stays. -/
def peek : Rule τ ε (Option τ) :=
  always Consumer.peek

/-- Drops the next item, if there is one. -/
def skip : Rule τ ε Unit :=
  always Consumer.skip

/-- Drops the items at the front that satisfy `p`. -/
def skipWhile (p : τ → Bool) : Rule τ ε Unit :=
  always (Consumer.skipWhile p)

/-- Takes the items at the front that satisfy `p`. -/
def takeWhile (p : τ → Bool) : Rule τ ε (List τ) :=
  always (Consumer.takeWhile p)

@[simp] theorem apply_pure (a : α) (s : List τ) :
    (pure a : Rule τ ε α).apply s = (.ok a, s) := rfl

@[simp] theorem apply_throw (e : ε) (s : List τ) :
    (throw e : Rule τ ε α).apply s = (.error e, s) := rfl

@[simp] theorem apply_always (x : Consumer τ α) (s : List τ) :
    (always x : Rule τ ε α).apply s = (.ok (x.run s).1, (x.run s).2) := rfl

@[simp] theorem apply_rest (s : List τ) : (rest : Rule τ ε (List τ)).apply s = (.ok s, s) := rfl

@[simp] theorem apply_peek (s : List τ) :
    (peek : Rule τ ε (Option τ)).apply s = (.ok s.head?, s) := rfl

@[simp] theorem apply_skip (s : List τ) : (skip : Rule τ ε Unit).apply s = (.ok (), s.tail) := rfl

/-- **A sequence of rules goes on where the first one stopped,** and ends there if it failed. -/
theorem apply_bind (x : Rule τ ε α) (f : α → Rule τ ε β) (s : List τ) :
    (x >>= f).apply s =
      match x.apply s with
      | (.ok a, r) => (f a).apply r
      | (.error e, r) => (.error e, r) := by
  have h : (x >>= f).apply s =
      Consumer.run (ExceptT.bindCont f (x.apply s).1) (x.apply s).2 := rfl
  rw [h]
  rcases x.apply s with ⟨_ | _, _⟩ <;> rfl

/-- What `list` reads. -/
def listFrom (separator : τ → Bool) (item : Rule τ ε α) (s : List τ) :
    Except ε (List α) × List τ :=
  match h : item.apply s with
  | (.error e, r) => (.error e, r)
  | (.ok a, []) => (.ok [a], [])
  | (.ok a, t :: r) =>
    if separator t then
      have : r.length < s.length := (suffix_of_apply_eq h).length_le
      let more := listFrom separator item r
      (more.1.map (a :: ·), more.2)
    else (.ok [a], t :: r)
termination_by s.length

theorem listFrom_suffix (separator : τ → Bool) (item : Rule τ ε α) (s : List τ) :
    (listFrom separator item s).2 <:+ s := by
  fun_induction listFrom separator item s with
  | case1 s e r h => exact suffix_of_apply_eq h
  | case2 s a h => exact List.nil_suffix
  | case3 s a t r h _ _ _ ih =>
    exact (ih.trans (List.suffix_cons t r)).trans (suffix_of_apply_eq h)
  | case4 s a t r h => exact suffix_of_apply_eq h

/-- One item, and one more for every separator that follows. -/
def list (separator : τ → Bool) (item : Rule τ ε α) : Rule τ ε (List α) :=
  ofFun (listFrom separator item) (listFrom_suffix separator item)

end Rule

end FilterQuery
