import FilterQuery.Proofs.Evaluation.Closure
import FilterQuery.Proofs.Evaluation.Reference
import FilterQuery.Proofs.Evaluation.Suppressed

/-!
# Proofs/Evaluation/Agreement — a pass gives the answers of the reference, or waits

A world **follows** a reference if its hosts and capabilities answer like the reference, at once or
later.  Then a runner stays **sound**: what is known under a key, or will be, is the answer that the
reference gives there.  A value that is evaluated on a sound runner is what the reference says or
still waits for something (`IsOperand.resolves`).  A condition always has an answer, and it may be
wrong, but **only while something is waited for** (`decides_condition`).
-/

namespace FilterQuery

variable {σ : Type}

/-- Waits until the value is there. -/
def Outcome.deliver : Outcome σ → σ → Value × σ
  | .immediate v, s => (v, s)
  | .deferred d, s => d.finish s

/-- Hosts and capabilities answer like the reference, whatever state the world is in. -/
structure World.Follows (w : World σ) (ref : Reference) : Prop where
  lookup : ∀ h name s, (w.lookup h name s).1 = ref.member h name
  call : ∀ c args s t, ((w.call c args s).1.deliver t).1 = ref.answer c args

/-! ## Sound runners -/

/-- What the runner knows is what the reference says, and so will be what it waits for, all of which
is in `ds`. -/
structure Runner.SoundWith (ref : Reference) (e : Expr) (ds : List (Deferral σ)) (r : Runner σ) :
    Prop where
  context : r.context = ref.context
  ready : ∀ key v, Fields.get? r.memo key = some (.ready v) → ref.Reaches e key v
  waiting : ∀ key, Fields.get? r.memo key = some .pending → ∃ d ∈ ds, d.key = key
  deferral : ∀ d ∈ ds, ∀ s, ref.Reaches e d.key (d.result.finish s).1

/-- A runner that is sound with the deferrals that it has queued itself. -/
def Runner.Sound (ref : Reference) (e : Expr) (r : Runner σ) : Prop :=
  r.SoundWith ref e r.pending

variable {w : World σ} {ref : Reference} {e : Expr}

namespace Runner

/-- A fresh runner knows nothing, so it knows nothing wrong. -/
theorem sound_start (context : Option Value) (world : σ) (member : Host → String → Option Value)
    (answer : Capability → List Value → Value) :
    (start context world).Sound ⟨context, member, answer⟩ e where
  context := rfl
  ready _ _ h := by cases h
  waiting _ h := by cases h
  deferral _ h := by cases h

/-- A sound runner with nothing queued waits for nothing. -/
theorem SoundWith.not_waiting {r : Runner σ} (hr : r.SoundWith ref e []) : ¬ r.Waiting := by
  rintro ⟨key, hkey⟩
  obtain ⟨d, hd, -⟩ := hr.waiting key hkey
  cases hd

/-! ## Lookups and calls -/

/-- A world that follows the reference looks names up as the reference does. -/
theorem lookup_eq (hw : w.Follows ref) (v : Value) (name : String) (r : Runner σ) :
    (r.lookup w v name).1 = ref.lookup v name := by
  cases v <;> first | rfl | exact hw.lookup _ name r.world

/-- A lookup leaves the runner sound. -/
theorem Sound.lookup {r : Runner σ} (hr : r.Sound ref e) (v : Value) (name : String) :
    (r.lookup w v name).2.Sound ref e := by
  cases v <;> exact ⟨hr.context, hr.ready, hr.waiting, hr.deferral⟩

/-- What an evaluation came to is what the reference says, unless it waits. -/
def Resolves (ref : Reference) (e : Expr) (a : Option Value) (out : Resolved × Runner σ) : Prop :=
  out.2.Sound ref e ∧ ((out.1 = .pending ∧ out.2.Waiting) ∨ out.1 = .ofOption a)

/-- An answer that is written down under a key ends the waits for it, so its deferrals may go. -/
theorem SoundWith.insert_ready {ds ds' : List (Deferral σ)} {r s : Runner σ} {key : String}
    {v : Value} (hr : r.SoundWith ref e ds) (hreach : ref.Reaches e key v)
    (hcontext : s.context = r.context) (hmemo : s.memo = Fields.insert r.memo key (.ready v))
    (hsub : ds' ⊆ ds) (hkeep : ∀ d ∈ ds, d.key ≠ key → d ∈ ds') : s.SoundWith ref e ds' where
  context := hcontext.trans hr.context
  ready key' v' h := by
    rw [hmemo, Fields.get?_insert] at h
    split at h
    · next hkey =>
      cases h
      exact hkey ▸ hreach
    · exact hr.ready key' v' h
  waiting key' h := by
    rw [hmemo, Fields.get?_insert] at h
    split at h
    · cases h
    · next hne =>
      obtain ⟨d, hd, rfl⟩ := hr.waiting key' h
      exact ⟨d, hkeep d hd hne, rfl⟩
  deferral d hd := hr.deferral d (hsub hd)

/-- A wait that begins is backed by a deferral that will deliver the right answer. -/
theorem SoundWith.insert_pending {ds : List (Deferral σ)} {r s : Runner σ} {d : Deferral σ}
    (hr : r.SoundWith ref e ds) (hreach : ∀ t, ref.Reaches e d.key (d.result.finish t).1)
    (hcontext : s.context = r.context) (hmemo : s.memo = Fields.insert r.memo d.key .pending) :
    s.SoundWith ref e (ds ++ [d]) where
  context := hcontext.trans hr.context
  ready key' v' h := by
    rw [hmemo, Fields.get?_insert] at h
    split at h
    · cases h
    · exact hr.ready key' v' h
  waiting key' h := by
    rw [hmemo, Fields.get?_insert] at h
    split at h
    · next hkey => exact ⟨d, List.mem_append_right _ List.mem_cons_self, hkey.symm⟩
    · obtain ⟨d', hd', hkey⟩ := hr.waiting key' h
      exact ⟨d', List.mem_append_left _ hd', hkey⟩
  deferral d' hd' t := by
    rcases List.mem_append.1 hd' with hd' | hd'
    · exact hr.deferral d' hd' t
    · obtain rfl := List.mem_singleton.1 hd'
      exact hreach t

/-- **One call agrees.** A prompt call of the reference's capability with its arguments resolves to
the reference's answer, cached or not. -/
theorem Sound.call (hw : w.Follows ref) {r : Runner σ} (hr : r.Sound ref e) {key : String}
    {c : Capability} {args : List Value} (hreach : ref.Reaches e key (ref.answer c args)) :
    Resolves ref e (some (ref.answer c args)) (r.call w key c args) := by
  have hanswer := hw.call c args r.world
  unfold Runner.call
  dsimp only
  split
  · next v hv =>
    rw [hv] at hanswer
    obtain rfl : v = ref.answer c args := hanswer r.world
    refine ⟨?_, Or.inr rfl⟩
    exact SoundWith.insert_ready hr hreach rfl rfl (List.Subset.refl _) fun _ hd _ => hd
  · next result hresult =>
    rw [hresult] at hanswer
    have hdeliver : ∀ t, ref.Reaches e key (result.finish t).1 := by
      intro t
      have hvalue : (result.finish t).1 = ref.answer c args := hanswer t
      rwa [hvalue]
    refine ⟨?_, Or.inl ⟨rfl, key, by rw [Fields.get?_insert, if_pos rfl]⟩⟩
    exact SoundWith.insert_pending (d := ⟨key, c, result⟩) hr hdeliver rfl rfl

/-- **An invocation resolves to the answer of the reference**, even if the key was known before: the
query is coherent, so whatever was invoked under the key then has the same answer. -/
theorem Sound.invoke (hw : w.Follows ref) (he : e.IsCondition) (hcoherent : e.Coherent)
    {r : Runner σ} (hr : r.Sound ref e) {key : String} {c : Capability} {args : List Value}
    (hreach : ref.Reaches e key (ref.answer c args)) :
    Resolves ref e (some (ref.answer c args)) (r.invoke w key c args) := by
  unfold Runner.invoke
  split
  · next v hv =>
    have heq := (hr.ready key v hv).unique he hcoherent hreach
    exact ⟨hr, Or.inr (congrArg Resolved.value heq)⟩
  · next hkey => exact ⟨hr, Or.inl ⟨rfl, key, hkey⟩⟩
  · exact hr.call hw hreach

/-! ## Steps along a path -/

/-- Resolving goes on through a member. -/
theorem Resolves.member (hw : w.Follows ref) {a : Option Value} {out : Resolved × Runner σ}
    (h : Resolves ref e a out) (name : String) :
    Resolves ref e (a.bind (ref.lookup · name)) (out.2.member w out.1 name) := by
  obtain ⟨base, r⟩ := out
  obtain ⟨hr, ⟨rfl, hwait⟩ | rfl⟩ := h
  · exact ⟨hr, Or.inl ⟨rfl, hwait⟩⟩
  · cases a with
    | none => exact ⟨hr, Or.inr rfl⟩
    | some v =>
      have hmember := congrArg Resolved.ofOption (lookup_eq hw v name r)
      exact ⟨hr.lookup v name, Or.inr hmember⟩

/-- Resolving goes on through the value of a path, which may be a capability without arguments. -/
theorem Resolves.access (hw : w.Follows ref) (he : e.IsCondition) (hcoherent : e.Coherent)
    {target : Option Value} {out : Resolved × Runner σ} (h : Resolves ref e target out)
    {key : String}
    (hreach : ∀ c, target = some (.capability c) → ref.Reaches e key (ref.answer c [])) :
    Resolves ref e (ref.access target) (out.2.access w key out.1) := by
  obtain ⟨found, r⟩ := out
  obtain ⟨hr, ⟨rfl, hwait⟩ | rfl⟩ := h
  · exact ⟨hr, Or.inl ⟨rfl, hwait⟩⟩
  · rcases target with _ | v
    · exact ⟨hr, Or.inr rfl⟩
    · cases v with
      | capability c => exact hr.invoke hw he hcoherent (hreach c rfl)
      | _ => exact ⟨hr, Or.inr rfl⟩

/-- What evaluations in a row came to is what the reference says, unless one of them waits. -/
def ResolvesAll (ref : Reference) (e : Expr) (values : List Value)
    (out : List Resolved × Runner σ) : Prop :=
  out.2.Sound ref e ∧ ((gather out.1 = none ∧ out.2.Waiting) ∨ gather out.1 = some values)

/-- Resolving goes on through a call, once the arguments resolve. -/
theorem Resolves.apply (hw : w.Follows ref) (he : e.IsCondition) (hcoherent : e.Coherent)
    {target : Option Value} {out : Resolved × Runner σ} (h : Resolves ref e target out)
    {key : String} {values : List Value} {arguments : Runner σ → List Resolved × Runner σ}
    (hargs : ∀ r, r.Sound ref e → ResolvesAll ref e values (arguments r))
    (hreach : ∀ c, target = some (.capability c) → ref.Reaches e key (ref.answer c values)) :
    Resolves ref e (ref.apply values target) (out.2.apply w key out.1 arguments) := by
  obtain ⟨found, r⟩ := out
  obtain ⟨hr, ⟨rfl, hwait⟩ | rfl⟩ := h
  · exact ⟨hr, Or.inl ⟨rfl, hwait⟩⟩
  · rcases target with _ | v
    · exact ⟨hr, Or.inr rfl⟩
    · cases v with
      | capability c =>
        change Resolves ref e (some (ref.answer c values))
          (r.apply w key (.value (.capability c)) arguments)
        obtain ⟨hr', ⟨hgather, hwait⟩ | hgather⟩ := hargs r hr
        · simp only [Runner.apply, hgather]
          exact ⟨hr', Or.inl ⟨rfl, hwait⟩⟩
        · simp only [Runner.apply, hgather]
          exact hr'.invoke hw he hcoherent (hreach c rfl)
      | _ => exact ⟨hr, Or.inr rfl⟩

/-! ## Parts in a row -/

/-- Values are gathered one by one, an absent one as null. -/
theorem gather_cons (x : Resolved) (xs : List Resolved) :
    gather (x :: xs) = x.orNull?.bind fun v => (gather xs).map (v :: ·) := by
  rw [gather, List.mapM_cons]
  cases x.orNull? with
  | none => rfl
  | some v => cases h : gather xs <;> simp_all [gather]

/-- A finished value is never pending. -/
theorem orNull?_ofOption (a : Option Value) :
    (Resolved.ofOption a).orNull? = some (a.getD .null) := by
  cases a <;> rfl

/-- The values of a list are resolved by resolving the first and then the others. -/
theorem Resolves.cons {a : Option Value} {values : List Value} {head : Resolved × Runner σ}
    {tail : List Resolved × Runner σ} (hhead : Resolves ref e a head)
    (htail : ResolvesAll ref e values tail) (hkeep : KeepsWaiting head.2 tail.2) :
    ResolvesAll ref e (a.getD .null :: values) (head.1 :: tail.1, tail.2) := by
  refine ⟨htail.1, ?_⟩
  rw [gather_cons]
  obtain ⟨-, ⟨hpending, hwait⟩ | hvalue⟩ := hhead
  · exact Or.inl ⟨by rw [hpending]; rfl, hkeep.waiting hwait⟩
  · rw [hvalue, orNull?_ofOption]
    obtain ⟨-, ⟨hgather, hwait⟩ | hgather⟩ := htail
    · exact Or.inl ⟨by rw [hgather]; rfl, hwait⟩
    · exact Or.inr (by rw [hgather]; rfl)

/-- The resolved items make the resolved array. -/
theorem ResolvesAll.array {values : List Value} {out : List Resolved × Runner σ}
    (h : ResolvesAll ref e values out) :
    Resolves ref e (some (.array values)) (Expr.resolveArray out.1, out.2) := by
  refine ⟨h.1, ?_⟩
  obtain ⟨-, ⟨hgather, hwait⟩ | hgather⟩ := h
  · exact Or.inl ⟨by rw [Expr.resolveArray, hgather], hwait⟩
  · exact Or.inr (by rw [Expr.resolveArray, hgather]; rfl)

/-- The resolved fields make the resolved object. -/
theorem ResolvesAll.object {values : List Value} {out : List Resolved × Runner σ}
    (h : ResolvesAll ref e values out) (keys : List String) :
    Resolves ref e (some (.ofPairs (keys.zip values))) (Expr.resolveObject keys out.1, out.2) := by
  refine ⟨h.1, ?_⟩
  obtain ⟨-, ⟨hgather, hwait⟩ | hgather⟩ := h
  · exact Or.inl ⟨by rw [Expr.resolveObject, hgather], hwait⟩
  · exact Or.inr (by rw [Expr.resolveObject, hgather]; rfl)

end Runner

namespace Expr

open Runner

/-! ## Values -/

/-- A list of expressions is resolved when each of its members is. -/
theorem resolvesAll {es : List Expr} {flag : Bool}
    (h : ∀ x ∈ es, ∀ r : Runner σ, r.Sound ref e →
      Resolves ref e (ref.denote x) (x.evaluate w flag r))
    {r : Runner σ} (hr : r.Sound ref e) :
    ResolvesAll ref e (ref.denoteAll es) (evaluateAll w es flag r) := by
  induction es generalizing r with
  | nil => exact ⟨hr, Or.inr rfl⟩
  | cons x xs ih =>
    have hhead := h x List.mem_cons_self r hr
    have htail := ih (fun y hy => h y (List.mem_cons_of_mem x hy)) hhead.1
    exact hhead.cons htail (closed_keepsWaiting.evaluateAll xs flag _)

/-- The entries of an object are resolved when each of their values is. -/
theorem resolvesAll_entries {entries : List (String × Expr)}
    (h : ∀ entry ∈ entries, ∀ r : Runner σ, r.Sound ref e →
      Resolves ref e (ref.denote entry.2) (entry.2.evaluate w true r))
    {r : Runner σ} (hr : r.Sound ref e) :
    ResolvesAll ref e (ref.denoteEntries entries) (evaluateEntries w entries r) := by
  induction entries generalizing r with
  | nil => exact ⟨hr, Or.inr rfl⟩
  | cons entry entries ih =>
    have hhead := h entry List.mem_cons_self r hr
    have htail := ih (fun y hy => h y (List.mem_cons_of_mem entry hy)) hhead.1
    exact hhead.cons htail (closed_keepsWaiting.evaluateEntries entries _)

/-- A root name resolves to the value the context has for it. -/
theorem resolves_root (hw : w.Follows ref) {r : Runner σ} (hr : r.Sound ref e) (name : String) :
    Resolves ref e (ref.context.bind (ref.lookup · name)) (r.member w r.root name) := by
  have hroot : Resolves ref e ref.context (r.root, r) :=
    ⟨hr, Or.inr (congrArg Resolved.ofOption hr.context)⟩
  exact hroot.member hw name

section

variable (hw : w.Follows ref) (he : e.IsCondition) (hcoherent : e.Coherent)

include hw he hcoherent

/-- A site with no arguments has the value of its target. -/
theorem resolves_access {x : Expr} (hsites : x ∈ e.sites) (harguments : x.arguments = [])
    {out : Resolved × Runner σ} (h : Resolves ref e (ref.siteTarget x) out) :
    Resolves ref e (ref.access (ref.siteTarget x)) (out.2.access w x.pathKey out.1) :=
  h.access hw he hcoherent fun c hc => ⟨x, hsites, rfl, c, hc, by rw [harguments]; rfl⟩

/-- A call has the value of its target under its arguments. -/
theorem resolves_apply {x : Expr} (hsites : x ∈ e.sites) {out : Resolved × Runner σ}
    (h : Resolves ref e (ref.siteTarget x) out) {flag : Bool}
    (hargs : ∀ y ∈ x.arguments, ∀ r : Runner σ, r.Sound ref e →
      Resolves ref e (ref.denote y) (y.evaluate w flag r)) :
    Resolves ref e (ref.apply (ref.denoteAll x.arguments) (ref.siteTarget x))
      (out.2.apply w x.pathKey out.1 (evaluateAll w x.arguments flag)) :=
  h.apply hw he hcoherent (fun _ hr => resolvesAll hargs hr) fun c hc =>
    ⟨x, hsites, rfl, c, hc, rfl⟩

end

mutual

/-- **A value resolves to what the reference says.** -/
theorem IsOperand.resolves (hw : w.Follows ref) (he : e.IsCondition) (hcoherent : e.Coherent) :
    ∀ {x : Expr}, IsOperand x → x.sites ⊆ e.sites → ∀ (flag : Bool) (r : Runner σ),
      r.Sound ref e → Resolves ref e (ref.denote x) (x.evaluate w flag r)
  | _, .literal _ _ => fun _ _ _ hr => ⟨hr, Or.inr rfl⟩
  | _, .array hitems => fun hsub _ _ hr =>
    (resolvesAll (fun x hx => (hitems x hx).resolves hw he hcoherent
      (List.Subset.trans (sites_subset_sitesAll hx) hsub) true) hr).array
  | _, .object _ hvalues => fun hsub _ _ hr =>
    (resolvesAll_entries (fun entry hentry => (hvalues entry hentry).resolves hw he hcoherent
      (List.Subset.trans (sites_subset_sitesEntries hentry) hsub) true) hr).object _
  | _, .path hpath => hpath.resolves hw he hcoherent

/-- **Paths resolve as the reference reads them.** The sites of the path are among those of the
query, so coherence gives every key on it one meaning. -/
theorem IsPath.resolves (hw : w.Follows ref) (he : e.IsCondition) (hcoherent : e.Coherent) :
    ∀ {x : Expr}, IsPath x → x.sites ⊆ e.sites → ∀ (flag : Bool) (r : Runner σ),
      r.Sound ref e → Resolves ref e (ref.denote x) (x.evaluate w flag r)
  | _, @IsPath.root name _ => fun hsub _ _ hr => by
    have htarget := resolves_root hw hr name
    exact resolves_access hw he hcoherent (hsub List.mem_cons_self) rfl htarget
  | _, @IsPath.step parent name hparent _ => fun hsub flag r hr => by
    have hsubParent := List.Subset.trans (sites_subset_step parent name) hsub
    have htarget := (hparent.resolves hw he hcoherent hsubParent flag r hr).member hw name
    exact resolves_access hw he hcoherent (hsub List.mem_cons_self) rfl htarget
  | _, .call (@IsPath.root name hname) _ hargs => fun hsub flag r hr => by
    have htarget := resolves_root hw hr name
    refine resolves_apply hw he hcoherent (hsub List.mem_cons_self) htarget fun y hy => ?_
    have hsubArg := List.Subset.trans (sites_subset_call (.root hname) hy) hsub
    exact (hargs y hy).resolves hw he hcoherent hsubArg flag
  | _, .call (@IsPath.step parent name hparent hname) _ hargs => fun hsub flag r hr => by
    have hsubParent := List.Subset.trans (sites_subset_call_step parent name _) hsub
    have htarget := (hparent.resolves hw he hcoherent hsubParent flag r hr).member hw name
    refine resolves_apply hw he hcoherent (hsub List.mem_cons_self) htarget fun y hy => ?_
    have hsubArg := List.Subset.trans (sites_subset_call (.step hparent hname) hy) hsub
    exact (hargs y hy).resolves hw he hcoherent hsubArg flag

end

/-! ## Conditions -/

/-- What a condition came to is what the reference says, unless something is waited for. -/
def Decides (ref : Reference) (e : Expr) (a : Option Value) (out : Resolved × Runner σ) : Prop :=
  out.2.Sound ref e ∧ (out.2.Waiting ∨ out.1 = .ofOption a)

/-- The answer is the right one, unless something is waited for. -/
def Answers (ref : Reference) (e : Expr) (b : Bool) (out : Bool × Runner σ) : Prop :=
  out.2.Sound ref e ∧ (out.2.Waiting ∨ out.1 = b)

/-- A finished value is truthy as the reference has it. -/
theorem isTruthy_ofOption (a : Option Value) :
    (Resolved.ofOption a).isTruthy = Reference.truthy a := by
  cases a <;> rfl

/-- Finished values are compared as the reference compares them. -/
theorem testResolved_ofOption (op : Comparator) (a b : Option Value) :
    testResolved op (.ofOption a) (.ofOption b) = Reference.test op a b := by
  cases a <;> cases b <;> rfl

/-- A condition that is decided answers by the truth of its value. -/
theorem Decides.isTruthy {a : Option Value} {out : Resolved × Runner σ} (h : Decides ref e a out) :
    Answers ref e (Reference.truthy a) (out.1.isTruthy, out.2) :=
  ⟨h.1, h.2.imp_right fun hvalue => by rw [hvalue, isTruthy_ofOption]⟩

/-- An answer is the boolean value a condition is decided to. -/
theorem Answers.value {b : Bool} {out : Bool × Runner σ} (h : Answers ref e b out) :
    Decides ref e (some (.bool b)) (.value (.bool out.1), out.2) :=
  ⟨h.1, h.2.imp_right fun hvalue => by rw [hvalue]; rfl⟩

/-- A comparison is answered when both of its sides resolve and the right one keeps what the left
one waits for. -/
theorem answers_test {a b : Option Value} {left right : Resolved × Runner σ} (op : Comparator)
    (hleft : Resolves ref e a left) (hright : Resolves ref e b right)
    (hkeep : KeepsWaiting left.2 right.2) :
    Answers ref e (Reference.test op a b) (testResolved op left.1 right.1, right.2) := by
  refine ⟨hright.1, ?_⟩
  obtain ⟨-, ⟨-, hwait⟩ | hl⟩ := hleft
  · exact Or.inl (hkeep.waiting hwait)
  · refine hright.2.imp And.right fun hr => ?_
    rw [hl, hr, testResolved_ofOption]

/-- The rest of a chain after an operand, given what the rest does at either value. -/
theorem Decides.more {op : Connector} {es : List Expr} {a : Option Value}
    {head : Resolved × Runner σ} (hhead : Decides ref e a head)
    (hmore : ∀ value (r : Runner σ), r.Sound ref e →
      Answers ref e (ref.denoteMore op es value) (evaluateMore w op es true value r)) :
    Answers ref e (ref.denoteMore op es (Reference.truthy a))
      (evaluateMore w op es true head.1.isTruthy head.2) := by
  obtain ⟨hsound, hwait | hvalue⟩ := hhead.isTruthy
  · have hkeep : KeepsWaiting head.2 (evaluateMore w op es true head.1.isTruthy head.2).2 :=
      closed_keepsWaiting.evaluateMore op es true head.1.isTruthy head.2
    exact ⟨(hmore _ head.2 hsound).1, Or.inl (hkeep.waiting hwait)⟩
  · rw [← hvalue]
    exact hmore _ head.2 hsound

/-- The operands that follow in a chain are answered as the reference folds them. -/
theorem answers_more (op : Connector) {es : List Expr} (hes : ∀ x ∈ es, IsCondition x)
    (h : ∀ x ∈ es, ∀ r : Runner σ, r.Sound ref e →
      Decides ref e (ref.denote x) (x.evaluate w true r))
    (value : Bool) (r : Runner σ) (hr : r.Sound ref e) :
    Answers ref e (ref.denoteMore op es value) (evaluateMore w op es true value r) := by
  induction es generalizing value r with
  | nil => exact ⟨hr, Or.inr rfl⟩
  | cons x xs ih =>
    have hrest := ih (fun y hy => hes y (List.mem_cons_of_mem x hy)) fun y hy =>
      h y (List.mem_cons_of_mem x hy)
    rw [evaluateMore, Reference.denoteMore]
    split
    · rw [(hes x List.mem_cons_self).isTest.evaluate_false]
      exact hrest value r hr
    · exact (h x List.mem_cons_self r hr).more hrest

/-- **A condition comes to what the reference says, unless something is waited for.** -/
theorem decides_condition (hw : w.Follows ref) (he : e.IsCondition) (hcoherent : e.Coherent)
    {x : Expr} (hx : IsCondition x) (hsub : x.sites ⊆ e.sites) (r : Runner σ)
    (hr : r.Sound ref e) : Decides ref e (ref.denote x) (x.evaluate w true r) := by
  induction hx generalizing r with
  | @comparison left right op hleft hright =>
    have hsubLeft := List.Subset.trans (sites_subset_comparison_left left right op) hsub
    have hsubRight := List.Subset.trans (sites_subset_comparison_right left right op) hsub
    have hl := hleft.resolves hw he hcoherent hsubLeft true r hr
    have hrt := hright.resolves hw he hcoherent hsubRight true _ hl.1
    exact (answers_test op hl hrt (closed_keepsWaiting.evaluate right true _)).value
  | @chain op operands hne hoperands ih =>
    obtain ⟨first, more, rfl⟩ := List.exists_cons_of_ne_nil hne
    have hdecides := fun x hx => ih x hx (List.Subset.trans (sites_subset_sitesAll hx) hsub)
    have hmore := answers_more op (fun x hx => hoperands x (List.mem_cons_of_mem first hx))
      fun x hx => hdecides x (List.mem_cons_of_mem first hx)
    exact ((hdecides first List.mem_cons_self r hr).more hmore).value
  | group _ ih => exact ih hsub r hr

/-- **So does a whole query, in a pass.** -/
theorem answers_holds (hw : w.Follows ref) (he : e.IsCondition) (hcoherent : e.Coherent)
    {r : Runner σ} (hr : r.Sound ref e) :
    Answers ref e (Reference.truthy (ref.denote e)) (e.holds w r) :=
  (decides_condition hw he hcoherent he (List.Subset.refl _) r hr).isTruthy

end Expr

end FilterQuery
