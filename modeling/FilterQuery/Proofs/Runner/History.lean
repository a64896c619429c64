import FilterQuery.Proofs.Evaluation.Closure
import Mathlib.Data.List.Nodup

/-!
# Proofs/Runner/History — what a runner keeps, whatever is done with it

    start ──▸ holds · evaluate · invoke · settle ──▸ … in any order, with any expression

A runner can be evaluated on, invoked on and settled, and nothing else.  What it knows, what it
waits for and what it has called fit together at the start and after every operation
(`Consistent`): the keys that wait are those of the queue, each once, and the keys that are known
are those under which a capability has been called, each once.  So settling writes on keys that wait
and on no other, and **an answer that is there stays** (`evolves_performAll`).
-/

namespace FilterQuery

variable {σ : Type} {w : World σ}

/-- The key under which an event calls a capability, if it does. -/
def Event.calledKey? : Event → Option String
  | .call key _ _ => some key
  | .get _ _ | .done _ _ _ => none

/-- What can be done with a runner: to ask whether a query holds, to evaluate an expression with
either flag, to invoke a capability under a key, and to wait for what is deferred. -/
inductive Operation where
  | holds (e : Expr)
  | evaluate (e : Expr) (flag : Bool)
  | invoke (key : String) (c : Capability) (args : List Value)
  | settle

namespace Runner

/-- The runner after an operation. -/
def perform (w : World σ) (r : Runner σ) : Operation → Runner σ
  | .holds e => (e.holds w r).2
  | .evaluate e flag => (e.evaluate w flag r).2
  | .invoke key c args => (r.invoke w key c args).2
  | .settle => r.settle

/-- The runner after operations, one after the other. -/
def performAll (w : World σ) (operations : List Operation) (r : Runner σ) : Runner σ :=
  operations.foldl (perform w) r

/-- The keys under which capabilities have been called, one for each call, in order. -/
def calledKeys (r : Runner σ) : List String :=
  r.log.filterMap Event.calledKey?

/-- The called keys are those of the calls in the log. -/
theorem mem_calledKeys {r : Runner σ} {key : String} :
    key ∈ r.calledKeys ↔ ∃ c args, .call key c args ∈ r.log := by
  rw [calledKeys, List.mem_filterMap]
  constructor
  · rintro ⟨event, hevent, hkey⟩
    cases event with
    | call key' c args =>
      obtain rfl : key' = key := Option.some.inj hkey
      exact ⟨c, args, hevent⟩
    | _ => cases hkey
  · rintro ⟨c, args, hevent⟩
    exact ⟨_, hevent, rfl⟩

/-- A call writes one entry of the log. -/
theorem log_call (w : World σ) (key : String) (c : Capability) (args : List Value) (r : Runner σ) :
    (r.call w key c args).2.log = r.log ++ [.call key c args] := by
  unfold Runner.call
  dsimp only
  split <;> rfl

/-! ## Answers that stay -/

/-- From one runner to a later one: the context is the same, and so is every answer that was there.
-/
structure Keeps (r s : Runner σ) : Prop where
  context : s.context = r.context
  ready : ∀ key v, Fields.get? r.memo key = some (.ready v) →
    Fields.get? s.memo key = some (.ready v)

namespace Keeps

/-- A runner keeps what it knows. -/
theorem refl (r : Runner σ) : Keeps r r :=
  ⟨rfl, fun _ _ h => h⟩

/-- What is kept twice is kept. -/
theorem trans {r s t : Runner σ} (h : Keeps r s) (h' : Keeps s t) : Keeps r t :=
  ⟨h'.context.trans h.context, fun key v hv => h'.ready key v (h.ready key v hv)⟩

/-- Writing under a key that has no answer yet touches no answer. -/
theorem of_insert {r s : Runner σ} {key : String} {slot : Slot} (hcontext : s.context = r.context)
    (hmemo : s.memo = Fields.insert r.memo key slot)
    (hkey : ∀ v, Fields.get? r.memo key ≠ some (.ready v)) : Keeps r s where
  context := hcontext
  ready key' v hv := by
    have hne : key' ≠ key := fun h => hkey v (h ▸ hv)
    rw [hmemo, Fields.get?_insert, if_neg hne, hv]

end Keeps

/-- What is not known has no answer in the cache. -/
theorem get?_eq_none_of_not_knows {r : Runner σ} {key : String} (h : ¬ r.Knows key) :
    Fields.get? r.memo key = none := by
  simpa [Knows] using h

/-- A key that is not known is called. -/
theorem invoke_of_not_knows {r : Runner σ} {key : String} (h : ¬ r.Knows key) (c : Capability)
    (args : List Value) : r.invoke w key c args = r.call w key c args := by
  rw [Runner.invoke, get?_eq_none_of_not_knows h]

/-- A key that is known changes nothing. -/
theorem invoke_of_knows {r : Runner σ} {key : String} (h : r.Knows key) (c : Capability)
    (args : List Value) : (r.invoke w key c args).2 = r := by
  unfold Runner.invoke
  split
  · rfl
  · rfl
  · next hkey => simp [Knows, hkey] at h

/-- **An invocation calls what it is told to, if the key is new,** and nothing else. -/
theorem mem_log_invoke_iff {key key' : String} {c c' : Capability} {args args' : List Value}
    {r : Runner σ} : .call key' c' args' ∈ (r.invoke w key c args).2.log ↔
      .call key' c' args' ∈ r.log ∨ ¬ r.Knows key ∧ key' = key ∧ c' = c ∧ args' = args := by
  by_cases hkey : r.Knows key
  · simp [invoke_of_knows hkey, hkey]
  · simp [invoke_of_not_knows hkey, log_call, hkey]

/-- **Evaluation changes no answer.** -/
theorem closed_keeps : Closed w Keeps where
  refl := .refl
  trans := .trans
  call key c args r hkey := by
    have hnone := get?_eq_none_of_not_knows hkey
    unfold Runner.call
    dsimp only
    split <;> exact .of_insert rfl rfl fun v => by simp [hnone]
  lookup v name r := by
    unfold Runner.lookup
    split <;> exact ⟨rfl, fun _ _ h => h⟩

/-! ## Consistency -/

/-- The queue `ds`, the memo and the log of a runner fit together. -/
structure ConsistentWith (ds : List (Deferral σ)) (r : Runner σ) : Prop where
  nodup_queue : (ds.map Deferral.key).Nodup
  mem_queue_iff : ∀ key, key ∈ ds.map Deferral.key ↔ Fields.get? r.memo key = some .pending
  nodup_called : r.calledKeys.Nodup
  mem_called_iff : ∀ key, key ∈ r.calledKeys ↔ r.Knows key

/-- What a runner knows, waits for and has called fits together. -/
def Consistent (r : Runner σ) : Prop :=
  r.ConsistentWith r.pending

/-- A fresh runner has called nothing and knows nothing. -/
theorem consistent_start (context : Option Value) (world : σ) :
    (start context world).Consistent where
  nodup_queue := List.nodup_nil
  mem_queue_iff key := by simp [start]
  nodup_called := List.nodup_nil
  mem_called_iff key := by simp [start, calledKeys, Knows]

/-- A call under a new key makes it known, and keeps it waiting if the answer is deferred. -/
theorem ConsistentWith.insert {ds ds' : List (Deferral σ)} {r s : Runner σ} {key : String}
    {slot : Slot} (h : r.ConsistentWith ds) (hkey : ¬ r.Knows key)
    (hmemo : s.memo = Fields.insert r.memo key slot)
    (hcalled : s.calledKeys = r.calledKeys ++ [key]) (hnodup : (ds'.map Deferral.key).Nodup)
    (hqueue : ∀ key', key' ∈ ds'.map Deferral.key ↔
      key' ∈ ds.map Deferral.key ∨ (key' = key ∧ slot = .pending)) : s.ConsistentWith ds' where
  nodup_queue := hnodup
  mem_queue_iff key' := by
    rw [hqueue, h.mem_queue_iff, hmemo, Fields.get?_insert]
    split
    · next heq =>
      rw [heq, get?_eq_none_of_not_knows hkey]
      simp
    · next hne => simp [hne]
  nodup_called := by
    have hnew : key ∉ r.calledKeys := fun hmem => hkey ((h.mem_called_iff key).1 hmem)
    rw [hcalled, ← List.concat_eq_append]
    exact h.nodup_called.concat hnew
  mem_called_iff key' := by
    have hknows : s.Knows key' ↔ key' = key ∨ r.Knows key' := by
      rw [Knows, hmemo]
      exact knows_insert r key slot key'
    rw [hcalled, List.mem_append, List.mem_singleton, h.mem_called_iff, hknows, or_comm]

/-- A call under a new key keeps the books. -/
theorem Consistent.call {r : Runner σ} (h : r.Consistent) {key : String} (c : Capability)
    (args : List Value) (hkey : ¬ r.Knows key) : (r.call w key c args).2.Consistent := by
  have hcalled : (r.log ++ [Event.call key c args]).filterMap Event.calledKey? =
      r.calledKeys ++ [key] := List.filterMap_append
  unfold Runner.call
  dsimp only
  split
  · exact ConsistentWith.insert h hkey rfl hcalled h.nodup_queue fun key' => by simp
  · next result _ =>
    have hnew : key ∉ r.pending.map Deferral.key := fun hmem =>
      hkey (by simp [Knows, (h.mem_queue_iff key).1 hmem])
    have hmap : (r.pending ++ [(⟨key, c, result⟩ : Deferral σ)]).map Deferral.key =
        r.pending.map Deferral.key ++ [key] := List.map_append
    refine ConsistentWith.insert h hkey rfl hcalled ?_ fun key' => ?_
    · rw [hmap, ← List.concat_eq_append]
      exact h.nodup_queue.concat hnew
    · rw [hmap]
      simp

/-- Consistency is about the memo and the calls only, and the order of the queue does not matter. -/
theorem ConsistentWith.congr {ds ds' : List (Deferral σ)} {r s : Runner σ}
    (h : r.ConsistentWith ds) (hqueue : ds'.Perm ds) (hmemo : s.memo = r.memo)
    (hcalled : s.calledKeys = r.calledKeys) : s.ConsistentWith ds' where
  nodup_queue := (hqueue.map Deferral.key).nodup_iff.2 h.nodup_queue
  mem_queue_iff key := by
    rw [(hqueue.map Deferral.key).mem_iff, h.mem_queue_iff, hmemo]
  nodup_called := by
    rw [hcalled]
    exact h.nodup_called
  mem_called_iff key := by
    rw [hcalled, h.mem_called_iff, Knows, Knows, hmemo]

/-- A lookup keeps the books. -/
theorem Consistent.lookup {r : Runner σ} (h : r.Consistent) (v : Value) (name : String) :
    (r.lookup w v name).2.Consistent := by
  unfold Runner.lookup
  split
  · exact h
  · exact ConsistentWith.congr h (.refl _) rfl
      (List.filterMap_append.trans (List.append_nil _))
  · exact h

/-! ## Settling -/

end Runner

namespace Deferral

/-- The queue holds a new deferral beside the old ones, wherever it is put. -/
theorem insert_perm (d : Deferral σ) (ds : List (Deferral σ)) : (insert d ds).Perm (d :: ds) := by
  induction ds with
  | nil => exact .refl _
  | cons e es ih =>
    rw [insert]
    split
    · exact .refl _
    · exact (ih.cons e).trans (.swap d e es)

/-- **Deferrals complete in another order than they were queued in, but all of them do, once.** -/
theorem byDelay_perm (ds : List (Deferral σ)) : (byDelay ds).Perm ds := by
  induction ds with
  | nil => exact .refl _
  | cons d ds ih => exact (insert_perm d _).trans (ih.cons d)

end Deferral

namespace Runner

/-- A value that arrives is written under a key that waits for it, and no other key waits less. -/
theorem ConsistentWith.complete {d : Deferral σ} {ds : List (Deferral σ)} {r : Runner σ}
    (h : r.ConsistentWith (d :: ds)) :
    (r.complete d).ConsistentWith ds ∧ Keeps r (r.complete d) := by
  obtain ⟨hd, hnodup⟩ := List.nodup_cons.1 h.nodup_queue
  have hwait : Fields.get? r.memo d.key = some .pending :=
    (h.mem_queue_iff d.key).1 List.mem_cons_self
  have hcalled : (r.complete d).calledKeys = r.calledKeys :=
    List.filterMap_append.trans (List.append_nil _)
  refine ⟨⟨hnodup, fun key => ?_, hcalled.symm ▸ h.nodup_called, fun key => ?_⟩,
    .of_insert rfl rfl fun v => by simp [hwait]⟩
  · have hmem := h.mem_queue_iff key
    rw [Runner.complete, Fields.get?_insert]
    split
    · next heq => simpa [heq] using hd
    · next hne => simpa [hne] using hmem
  · have hknows : (r.complete d).Knows key ↔ key = d.key ∨ r.Knows key := knows_insert r _ _ key
    rw [hcalled, h.mem_called_iff, hknows]
    exact ⟨Or.inr, fun hkey => hkey.elim (fun heq => heq ▸ by simp [Knows, hwait]) id⟩

/-- Completing the deferrals one by one leaves none open, and every answer already known stays. -/
theorem ConsistentWith.foldl_complete {ds : List (Deferral σ)} {r : Runner σ}
    (h : r.ConsistentWith ds) :
    (ds.foldl Runner.complete r).ConsistentWith [] ∧ Keeps r (ds.foldl Runner.complete r) := by
  induction ds generalizing r with
  | nil => exact ⟨h, .refl r⟩
  | cons d ds ih =>
    obtain ⟨hnext, hkeep⟩ := h.complete
    obtain ⟨hlast, hkeeps⟩ := ih hnext
    exact ⟨hlast, hkeep.trans hkeeps⟩

/-- Completing deferrals queues none. -/
theorem pending_foldl_complete (ds : List (Deferral σ)) (r : Runner σ) :
    (ds.foldl complete r).pending = r.pending := by
  induction ds generalizing r with
  | nil => rfl
  | cons d ds ih => exact ih (r.complete d)

/-- After settling nothing is queued. -/
theorem pending_settle (r : Runner σ) : r.settle.pending = [] :=
  pending_foldl_complete _ _

/-! ## Whole histories -/

/-- What is consistent stays so, and the answers that are there stay. -/
def Evolves (r s : Runner σ) : Prop :=
  r.Consistent → s.Consistent ∧ Keeps r s

/-- Every step of an evaluation lets the runner evolve. -/
theorem closed_evolves : Closed w Evolves where
  refl r h := ⟨h, .refl r⟩
  trans h h' hr :=
    let ⟨hs, hkeep⟩ := h hr
    let ⟨ht, hkeep'⟩ := h' hs
    ⟨ht, hkeep.trans hkeep'⟩
  call key c args r hkey h := ⟨h.call c args hkey, closed_keeps.call key c args r hkey⟩
  lookup v name r h := ⟨h.lookup v name, closed_keeps.lookup v name r⟩

/-- **Settling overwrites no answer,** for what it writes on waits. -/
theorem evolves_settle (r : Runner σ) : Evolves r r.settle := by
  intro h
  have hqueue : ConsistentWith (Deferral.byDelay r.pending) { r with pending := [] } :=
    h.congr (Deferral.byDelay_perm r.pending) rfl rfl
  obtain ⟨hsettled, hkeep⟩ := hqueue.foldl_complete
  refine ⟨?_, hkeep.context, hkeep.ready⟩
  rw [Consistent, pending_settle]
  exact hsettled

/-- **What holds over evaluation and over settling holds over any operations.** -/
theorem Closed.performAll {R : Runner σ → Runner σ → Prop} (h : Closed w R)
    (hsettle : ∀ r, R r r.settle) (operations : List Operation) (r : Runner σ) :
    R r (performAll w operations r) := by
  induction operations generalizing r with
  | nil => exact h.refl r
  | cons operation operations ih =>
    refine h.trans ?_ (ih (r.perform w operation))
    cases operation with
    | holds e => exact h.evaluate e true r
    | evaluate e flag => exact h.evaluate e flag r
    | invoke key c args => exact h.invoke key c args r
    | settle => exact hsettle r

/-- **Operations keep a runner consistent, and change no answer that is there.** -/
theorem evolves_performAll (w : World σ) (operations : List Operation) (r : Runner σ) :
    Evolves r (performAll w operations r) :=
  closed_evolves.performAll evolves_settle operations r

/-- **The books agree after any operations.** -/
theorem consistent_performAll (w : World σ) (operations : List Operation) (context : Option Value)
    (world : σ) : (performAll w operations (start context world)).Consistent :=
  (evolves_performAll w operations _ (consistent_start context world)).1

/-- A ready answer is handed out, and the runner stays as it is. -/
theorem invoke_of_ready {r : Runner σ} {key : String} {v : Value}
    (h : Fields.get? r.memo key = some (.ready v)) (c : Capability) (args : List Value) :
    r.invoke w key c args = (.value v, r) := by
  rw [Runner.invoke, h]

/-- **Under no key is a capability called twice, and an answer never changes.**  Whatever has been
done with a runner, with any expressions and in any world, each key occurs at most once among the
calls; and if a key has an answer, it has the same one after whatever is done next, and an
invocation under it, of any capability with any arguments, gives this answer and does nothing. -/
theorem called_once_and_answers_stay (w : World σ) (context : Option Value) (world : σ)
    (before after : List Operation) :
    let r := performAll w before (start context world)
    let s := performAll w after r
    s.calledKeys.Nodup ∧ ∀ key v, Fields.get? r.memo key = some (.ready v) →
      Fields.get? s.memo key = some (.ready v) ∧
        ∀ c args, s.invoke w key c args = (.value v, s) := by
  intro r s
  have hr : r.Consistent := consistent_performAll w before context world
  obtain ⟨hs, hkeep⟩ := evolves_performAll w after r hr
  refine ⟨hs.nodup_called, fun key v hv => ?_⟩
  have hstays : Fields.get? s.memo key = some (.ready v) := hkeep.ready key v hv
  exact ⟨hstays, invoke_of_ready hstays⟩

/-- A world in which nothing is twice the same: a host has a new capability at each lookup, and a
capability answers with the number of things that have happened, later if it has arguments. -/
def restlessWorld : World Nat where
  call _ args n :=
    if args.isEmpty then (.immediate (.int (.ofNat n)), n + 1)
    else (.deferred ⟨1, fun n => (.int (.ofNat n), n + 1)⟩, n + 1)
  lookup _ _ n := (some (.capability ⟨n⟩), n + 1)

/-- The condition `f(f) = g(f)`, whose first argument makes the key known that it is about. -/
def selfCall : Expr :=
  .comparison (.call (.root "f") [.root "f"]) .equal (.call (.root "g") [.root "f"])

theorem restlessWorld_answers_stay :
    let r := performAll restlessWorld [.holds selfCall] (start (some (.host ⟨0⟩)) 0)
    let s := performAll restlessWorld [.settle, .holds selfCall, .evaluate (.root "h") false] r
    Fields.get? r.memo "f" = some (.ready (.int 2)) ∧ s.calledKeys.Nodup ∧
      Fields.get? s.memo "f" = some (.ready (.int 2)) ∧
      s.invoke restlessWorld "f" ⟨7⟩ [.null] = (.value (.int 2), s) := by
  intro r s
  have hready : Fields.get? r.memo "f" = some (.ready (.int 2)) := by with_unfolding_all rfl
  obtain ⟨hcalled, hstays⟩ := called_once_and_answers_stay restlessWorld (some (.host ⟨0⟩)) 0
    [.holds selfCall] [.settle, .holds selfCall, .evaluate (.root "h") false]
  obtain ⟨hanswer, hinvoke⟩ := hstays "f" (.int 2) hready
  exact ⟨hready, hcalled, hanswer, hinvoke ⟨7⟩ [.null]⟩

end Runner

end FilterQuery
