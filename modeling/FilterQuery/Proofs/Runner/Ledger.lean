import FilterQuery.Proofs.Runner.History

/-!
# Proofs/Runner/Ledger — the queue, the memo and the count of deferred answers

    log      call f · get h a · call g · done f · call k · …
    replay   the world asked again, event by event ──▸ all deferred answers so far

A runner keeps the same facts in three places: the queue of deferrals, the slots of its memo that
wait, and a count that it never lowers.  The log says independently what they should be, for the
world can be asked again what it has been asked (`Replay.ofLog`).  **The books agree with the log
after whatever has been done** (`books_agree`): every deferred answer is either in the queue or has
arrived, and settling moves all that are in the queue, writes each under its own key and touches
nothing else (`Settled`).
-/

namespace FilterQuery

variable {σ : Type} {w : World σ}

/-- The key under which an event delivers a deferred value, if it does. -/
def Event.arrivedKey? : Event → Option String
  | .done key _ _ => some key
  | .call _ _ _ | .get _ _ => none

/-- What comes of asking a world again: its state, and every deferred answer that it gave. -/
structure Replay (σ : Type) where
  world : σ
  deferrals : List (Deferral σ)

namespace Replay

/-- What one more event makes of it.  A value that arrives is made by the deferral of its key. -/
def next (w : World σ) (past : Replay σ) : Event → Replay σ
  | .call key c args =>
    let answer := w.call c args past.world
    match answer.1 with
    | .immediate _ => ⟨answer.2, past.deferrals⟩
    | .deferred result => ⟨answer.2, past.deferrals ++ [⟨key, c, result⟩]⟩
  | .get h name => ⟨(w.lookup h name past.world).2, past.deferrals⟩
  | .done key _ _ =>
    match past.deferrals.find? fun d => d.key = key with
    | some d => ⟨(d.result.finish past.world).2, past.deferrals⟩
    | none => past

/-- The replay of a log from a state of the world. -/
def ofLog (w : World σ) (world : σ) (log : List Event) : Replay σ :=
  log.foldl (next w) ⟨world, []⟩

theorem ofLog_concat (w : World σ) (world : σ) (log : List Event) (event : Event) :
    ofLog w world (log ++ [event]) = (ofLog w world log).next w event := by
  rw [ofLog, List.foldl_append]
  rfl

end Replay

namespace Runner

/-- The keys whose deferred values have arrived, in order. -/
def arrivedKeys (r : Runner σ) : List String :=
  r.log.filterMap Event.arrivedKey?

/-! ## The books -/

/-- The books of a runner whose queue is `ds` agree with the replay of its log from `world`. -/
structure AgreesWith (w : World σ) (world : σ) (ds : List (Deferral σ)) (r : Runner σ) :
    Prop where
  consistent : r.ConsistentWith ds
  world_eq : (Replay.ofLog w world r.log).world = r.world
  total_eq : r.deferredTotal = (Replay.ofLog w world r.log).deferrals.length
  queue_subset : ds ⊆ (Replay.ofLog w world r.log).deferrals
  keys_perm : ((Replay.ofLog w world r.log).deferrals.map Deferral.key).Perm
    (r.arrivedKeys ++ ds.map Deferral.key)
  keys_sublist : ((Replay.ofLog w world r.log).deferrals.map Deferral.key).Sublist r.calledKeys

variable {world : σ} {ds : List (Deferral σ)}

theorem agreesWith_start (w : World σ) (context : Option Value) (world : σ) :
    (start context world).AgreesWith w world [] where
  consistent := consistent_start context world
  world_eq := rfl
  total_eq := rfl
  queue_subset := List.nil_subset _
  keys_perm := .refl _
  keys_sublist := .refl _

/-- The books agree after a step that has queued the deferrals `more`, called under the keys
`called` and received values under the keys `arrived`. -/
theorem AgreesWith.step {r s : Runner σ} {ds ds' : List (Deferral σ)}
    (h : r.AgreesWith w world ds) (more : List (Deferral σ)) (called arrived : List String)
    (hconsistent : s.ConsistentWith ds')
    (hreplay : Replay.ofLog w world s.log =
      ⟨s.world, (Replay.ofLog w world r.log).deferrals ++ more⟩)
    (htotal : s.deferredTotal = r.deferredTotal + more.length)
    (hcalled : s.calledKeys = r.calledKeys ++ called)
    (harrived : s.arrivedKeys = r.arrivedKeys ++ arrived) (hsubset : ds' ⊆ ds ++ more)
    (hsublist : (more.map Deferral.key).Sublist called)
    (hperm : ((ds ++ more).map Deferral.key).Perm (arrived ++ ds'.map Deferral.key)) :
    s.AgreesWith w world ds' where
  consistent := hconsistent
  world_eq := by rw [hreplay]
  total_eq := by rw [hreplay, htotal, h.total_eq, List.length_append]
  queue_subset := by
    rw [hreplay]
    refine List.Subset.trans hsubset (List.append_subset.2 ⟨?_, List.subset_append_right _ _⟩)
    exact List.Subset.trans h.queue_subset (List.subset_append_left _ _)
  keys_perm := by
    rw [hreplay, harrived, List.map_append, List.append_assoc]
    refine (h.keys_perm.append_right _).trans ?_
    rw [List.append_assoc, ← List.map_append]
    exact hperm.append_left _
  keys_sublist := by
    rw [hreplay, hcalled, List.map_append]
    exact h.keys_sublist.append hsublist

/-- A call under a new key is booked in the ledger as it is on the runner. -/
theorem AgreesWith.call {r : Runner σ} (h : r.AgreesWith w world r.pending) (key : String)
    (c : Capability) (args : List Value) (hkey : ¬ r.Knows key) :
    (r.call w key c args).2.AgreesWith w world (r.call w key c args).2.pending := by
  have hconsistent := Consistent.call (w := w) h.consistent c args hkey
  have hcalled : (r.log ++ [Event.call key c args]).filterMap Event.calledKey? =
      r.calledKeys ++ [key] := List.filterMap_append
  have harrived : (r.log ++ [Event.call key c args]).filterMap Event.arrivedKey? =
      r.arrivedKeys ++ [] := List.filterMap_append
  rcases hanswer : w.call c args r.world with ⟨v | result, after⟩
  · have hcall : (r.call w key c args).2 = { r with
        world := after, log := r.log ++ [.call key c args]
        memo := Fields.insert r.memo key (.ready v) } := by
      rw [Runner.call, hanswer]
    rw [hcall] at hconsistent ⊢
    refine h.step [] [key] [] hconsistent ?_ rfl hcalled harrived (by simp) (by simp) (by simp)
    rw [Replay.ofLog_concat, Replay.next, h.world_eq, hanswer, List.append_nil]
  · have hcall : (r.call w key c args).2 = { r with
        world := after, log := r.log ++ [.call key c args]
        memo := Fields.insert r.memo key .pending, pending := r.pending ++ [⟨key, c, result⟩]
        deferredTotal := r.deferredTotal + 1 } := by
      rw [Runner.call, hanswer]
    rw [hcall] at hconsistent ⊢
    refine h.step [⟨key, c, result⟩] [key] [] hconsistent ?_ rfl hcalled harrived
      (List.Subset.refl _) (.refl _) (.refl _)
    rw [Replay.ofLog_concat, Replay.next, h.world_eq, hanswer]

theorem AgreesWith.lookup {r : Runner σ} (h : r.AgreesWith w world r.pending) (v : Value)
    (name : String) :
    (r.lookup w v name).2.AgreesWith w world (r.lookup w v name).2.pending := by
  have hconsistent := Consistent.lookup (w := w) h.consistent v name
  cases v with
  | host host =>
    refine h.step [] [] [] hconsistent ?_ rfl List.filterMap_append List.filterMap_append
      (by simp [Runner.lookup]) (by simp) (by simp [Runner.lookup])
    rw [Runner.lookup, Replay.ofLog_concat, Replay.next, h.world_eq, List.append_nil]
  | _ => exact h

theorem find?_key_eq_some {ds : List (Deferral σ)} {d : Deferral σ}
    (hnodup : (ds.map Deferral.key).Nodup) (hd : d ∈ ds) :
    ds.find? (fun e => e.key = d.key) = some d := by
  induction ds with
  | nil => cases hd
  | cons e es ih =>
    obtain ⟨he, hes⟩ := List.nodup_cons.1 hnodup
    rcases List.mem_cons.1 hd with rfl | hd
    · exact List.find?_cons_of_pos (by simp)
    · have hne : e.key ≠ d.key := fun heq => he (heq ▸ List.mem_map_of_mem hd)
      rw [List.find?_cons_of_neg (by simpa using hne)]
      exact ih hes hd

/-- **A value that arrives comes from the deferral that was queued under its key.** -/
theorem AgreesWith.complete {d : Deferral σ} {r : Runner σ} (h : r.AgreesWith w world (d :: ds)) :
    (r.complete d).AgreesWith w world ds := by
  have hfind := find?_key_eq_some (h.keys_sublist.nodup h.consistent.nodup_called)
    (h.queue_subset List.mem_cons_self)
  refine h.step [] [] [d.key] h.consistent.complete.1 ?_ rfl List.filterMap_append
    List.filterMap_append (by simp) (by simp) (by simp)
  rw [Runner.complete, Replay.ofLog_concat, Replay.next, hfind, h.world_eq, List.append_nil]

theorem AgreesWith.foldl_complete {r : Runner σ} (h : r.AgreesWith w world ds) :
    (ds.foldl Runner.complete r).AgreesWith w world [] := by
  induction ds generalizing r with
  | nil => exact h
  | cons d ds ih => exact ih h.complete

/-- Settling books every open deferral as arrived. -/
theorem AgreesWith.settle {r : Runner σ} (h : r.AgreesWith w world r.pending) :
    r.settle.AgreesWith w world r.settle.pending := by
  have hqueue := Deferral.byDelay_perm r.pending
  have hstart : AgreesWith w world (Deferral.byDelay r.pending) { r with pending := [] } :=
    ⟨h.consistent.congr hqueue rfl rfl, h.world_eq, h.total_eq,
      List.Subset.trans hqueue.subset h.queue_subset,
      h.keys_perm.trans ((hqueue.map Deferral.key).symm.append_left _), h.keys_sublist⟩
  rw [pending_settle]
  exact hstart.foldl_complete

/-- **Operations keep the books in agreement with the log.** -/
theorem agreesWith_performAll (w : World σ) (context : Option Value) (world : σ)
    (operations : List Operation) :
    let r := performAll w operations (start context world)
    r.AgreesWith w world r.pending := by
  have hclosed : Closed w fun r s : Runner σ =>
      r.AgreesWith w world r.pending → s.AgreesWith w world s.pending :=
    { refl := fun _ h => h
      trans := fun h h' hr => h' (h hr)
      call := fun key c args _ hkey h => h.call key c args hkey
      lookup := fun v name _ h => h.lookup v name }
  exact hclosed.performAll (fun _ h => h.settle) operations _ (agreesWith_start w context world)

/-! ## Settling -/

/-- What settling does to a runner: every deferral in the queue completes when its turn comes, its
value is written under its key, and nothing else changes; no capability is called and no host is
asked. -/
structure Settled (r s : Runner σ) : Prop where
  pending : s.pending = []
  deferredTotal : s.deferredTotal = r.deferredTotal
  log : ∃ events, s.log = r.log ++ events ∧
    events.map Event.arrivedKey? = (Deferral.byDelay r.pending).map fun d => some d.key
  ready : ∀ d ∈ r.pending, ∃ before after, Deferral.byDelay r.pending = before ++ d :: after ∧
    Fields.get? s.memo d.key = some
      (.ready (d.result.finish (before.foldl complete { r with pending := [] }).world).1)
  other : ∀ key, key ∉ r.pendingKeys → Fields.get? s.memo key = Fields.get? r.memo key

theorem deferredTotal_foldl_complete (ds : List (Deferral σ)) (r : Runner σ) :
    (ds.foldl complete r).deferredTotal = r.deferredTotal := by
  induction ds generalizing r with
  | nil => rfl
  | cons d ds ih => exact ih (r.complete d)

theorem deferredTotal_settle (r : Runner σ) : r.settle.deferredTotal = r.deferredTotal :=
  deferredTotal_foldl_complete _ _

theorem log_foldl_complete (ds : List (Deferral σ)) (r : Runner σ) :
    ∃ events, (ds.foldl complete r).log = r.log ++ events ∧
      events.map Event.arrivedKey? = ds.map fun d => some d.key := by
  induction ds generalizing r with
  | nil => exact ⟨[], (List.append_nil _).symm, rfl⟩
  | cons d ds ih =>
    obtain ⟨events, hlog, hkeys⟩ := ih (r.complete d)
    refine ⟨.done d.key d.capability (d.result.finish r.world).1 :: events, ?_, ?_⟩
    · rw [List.foldl_cons, hlog, Runner.complete, List.append_assoc]
      rfl
    · rw [List.map_cons, List.map_cons, hkeys]
      rfl

/-- Settling calls nothing. -/
theorem mem_log_settle {r : Runner σ} {key : String} {c : Capability} {args : List Value} :
    .call key c args ∈ r.settle.log ↔ .call key c args ∈ r.log := by
  obtain ⟨events, hlog, hkeys⟩ := log_foldl_complete (Deferral.byDelay r.pending)
    { r with pending := [] }
  have hnone : .call key c args ∉ events := by
    intro hmem
    have hkey : none ∈ (Deferral.byDelay r.pending).map fun d => some d.key :=
      hkeys ▸ List.mem_map_of_mem (f := Event.arrivedKey?) hmem
    simp at hkey
  rw [Runner.settle, hlog, List.mem_append, or_iff_left hnone]

theorem get?_foldl_complete_of_notMem {ds : List (Deferral σ)} {key : String}
    (h : key ∉ ds.map Deferral.key) (r : Runner σ) :
    Fields.get? (ds.foldl complete r).memo key = Fields.get? r.memo key := by
  induction ds generalizing r with
  | nil => rfl
  | cons d ds ih =>
    obtain ⟨hne, hnot⟩ := not_or.1 (fun hor => h (List.mem_cons.2 hor))
    rw [List.foldl_cons, ih hnot, Runner.complete, Fields.get?_insert, if_neg hne]

/-- The value under a key stays after the deferral of the key has completed. -/
theorem get?_foldl_complete {before after : List (Deferral σ)} {d : Deferral σ}
    (h : ((before ++ d :: after).map Deferral.key).Nodup) (r : Runner σ) :
    Fields.get? ((before ++ d :: after).foldl complete r).memo d.key =
      some (.ready (d.result.finish (before.foldl complete r).world).1) := by
  have hafter : d.key ∉ after.map Deferral.key := by
    rw [List.map_append, List.map_cons] at h
    exact (List.nodup_cons.1 (List.nodup_append.1 h).2.1).1
  rw [List.foldl_append, List.foldl_cons, get?_foldl_complete_of_notMem hafter, Runner.complete,
    Fields.get?_insert, if_pos rfl]

/-- **Settling changes the open slots and nothing else**, and each to the answer deferred for it. -/
theorem Consistent.settled {r : Runner σ} (h : r.Consistent) : Settled r r.settle where
  pending := pending_settle r
  deferredTotal := deferredTotal_settle r
  log := log_foldl_complete _ _
  ready d hd := by
    have hqueue := Deferral.byDelay_perm r.pending
    have hnodup := (hqueue.map Deferral.key).nodup_iff.2 h.nodup_queue
    obtain ⟨before, after, hsplit⟩ := List.append_of_mem (hqueue.mem_iff.2 hd)
    refine ⟨before, after, hsplit, ?_⟩
    rw [Runner.settle, hsplit]
    exact get?_foldl_complete (hsplit ▸ hnodup) _
  other key hkey := by
    have hnot : key ∉ (Deferral.byDelay r.pending).map Deferral.key := fun hmem =>
      hkey (((Deferral.byDelay_perm r.pending).map Deferral.key).mem_iff.1 hmem)
    exact get?_foldl_complete_of_notMem hnot _

theorem deferredTotal_le_performAll (w : World σ) (operations : List Operation) (r : Runner σ) :
    r.deferredTotal ≤ (performAll w operations r).deferredTotal := by
  have hclosed : Closed w fun r s : Runner σ => r.deferredTotal ≤ s.deferredTotal :=
    { refl := fun _ => Nat.le_refl _
      trans := Nat.le_trans
      call := fun key c args r hkey => (learns_call w key c args r hkey).total_le
      lookup := fun v name r => (learns_lookup w v name r).total_le }
  exact hclosed.performAll (fun r => Nat.le_of_eq (deferredTotal_settle r).symm) operations r

/-- **The queue, the memo and the count of deferred answers always agree.**  Whatever has been done
with a runner, with any expressions and in any world: the keys in the queue are distinct, and they
are the keys whose slots wait; the count is that of the deferred answers that the world has given,
as asking it again along the log shows, and each of them is in the queue or has arrived, so the
count never falls.  And settling does what `Settled` says. -/
theorem books_agree (w : World σ) (context : Option Value) (world : σ)
    (operations : List Operation) :
    let r := performAll w operations (start context world)
    let replay := Replay.ofLog w world r.log
    (r.pendingKeys.Nodup ∧
      ∀ key, key ∈ r.pendingKeys ↔ Fields.get? r.memo key = some .pending) ∧
    (replay.world = r.world ∧ r.deferredTotal = replay.deferrals.length ∧
      r.deferredTotal = r.pending.length + r.arrivedKeys.length ∧
      ∀ more, r.deferredTotal ≤ (performAll w more r).deferredTotal) ∧
    Settled r r.settle := by
  intro r replay
  have h : r.AgreesWith w world r.pending := agreesWith_performAll w context world operations
  have hlength : replay.deferrals.length = r.pending.length + r.arrivedKeys.length := by
    have hperm := h.keys_perm.length_eq
    rw [List.length_map, List.length_append, List.length_map, Nat.add_comm] at hperm
    exact hperm
  exact ⟨⟨h.consistent.nodup_queue, h.consistent.mem_queue_iff⟩,
    ⟨h.world_eq, h.total_eq, h.total_eq.trans hlength, fun more =>
      deferredTotal_le_performAll w more r⟩, Consistent.settled h.consistent⟩

end Runner

end FilterQuery
