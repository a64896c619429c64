import FilterQuery.Proofs.Evaluation.Prompt
import FilterQuery.Proofs.Evaluation.Reached

/-!
# Proofs/Evaluation/Visits — evaluation goes where the reference goes

    reached   a   a.b   c   f(c)
    r ────────▸ ───▸ ───▸ ───▸ s       each site is called, known already, or nothing to call,
                                       and what is left out is left out for something that waits

An evaluation **visits** sites: what it calls the reference calls at one of them, and where nothing
is waited for afterwards, everything that can be called there is known.  Visits follow one another
like the lists of what they visit (`Visits.trans`), and so **a value visits the sites that it
reaches** (`IsOperand.visits`).
-/

namespace FilterQuery

variable {σ : Type} {w : World σ} {ref : Reference} {e : Expr}

namespace Runner

/-! ## Visits -/

/-- From `r` to `s` the sites are evaluated: no key is forgotten and no wait ends, what is called
the reference calls there, and it is all of that unless something is waited for. -/
structure Visits (ref : Reference) (sites : List Expr) (r s : Runner σ) : Prop where
  knows : ∀ key, r.Knows key → s.Knows key
  waiting : r.Waiting → s.Waiting
  calls : ∀ key c args, .call key c args ∈ s.log →
    .call key c args ∈ r.log ∨ ref.Calls sites key c args
  covers : s.Waiting ∨
    ∀ p ∈ sites, ∀ c, ref.siteTarget p = some (.capability c) → s.Knows p.pathKey

namespace Visits

theorem refl (ref : Reference) (r : Runner σ) : Visits ref [] r r :=
  ⟨fun _ h => h, id, fun _ _ _ h => Or.inl h, Or.inr fun _ hp => absurd hp List.not_mem_nil⟩

theorem trans {sites sites' : List Expr} {r s t : Runner σ} (h : Visits ref sites r s)
    (h' : Visits ref sites' s t) : Visits ref (sites ++ sites') r t where
  knows key hr := h'.knows key (h.knows key hr)
  waiting hr := h'.waiting (h.waiting hr)
  calls key c args ht := by
    rcases h'.calls key c args ht with hs | hcall
    · exact (h.calls key c args hs).imp_right (.mono (List.subset_append_left _ _))
    · exact Or.inr (hcall.mono (List.subset_append_right _ _))
  covers := by
    rcases h'.covers with hwait | hcovers'
    · exact Or.inl hwait
    · refine h.covers.imp h'.waiting fun hcovers => List.forall_mem_append.2 ⟨?_, hcovers'⟩
      exact fun p hp c hc => h'.knows _ (hcovers p hp c hc)

/-- A step that calls nothing and keeps the memo. -/
theorem of_log {r s : Runner σ} (events : List Event) (hmemo : s.memo = r.memo)
    (hlog : s.log = r.log ++ events) (hevents : ∀ key c args, .call key c args ∉ events) :
    Visits ref [] r s where
  knows key h := by rwa [Knows, hmemo]
  waiting h := by rwa [Waiting, hmemo]
  calls key c args h := by
    rw [hlog] at h
    exact Or.inl ((List.mem_append.1 h).resolve_right (hevents key c args))
  covers := Or.inr fun _ hp => absurd hp List.not_mem_nil

/-- Where something is waited for, any sites may be left out. -/
theorem of_waiting {r : Runner σ} (h : r.Waiting) (sites : List Expr) : Visits ref sites r r :=
  ⟨fun _ h => h, id, fun _ _ _ h => Or.inl h, Or.inl h⟩

/-- Nothing is called at a site that stands at nothing that can be called. -/
theorem of_not_capability {p : Expr} (h : ∀ c, ref.siteTarget p ≠ some (.capability c))
    (r : Runner σ) : Visits ref [p] r r where
  knows _ hr := hr
  waiting := id
  calls _ _ _ hr := Or.inl hr
  covers := Or.inr <| List.forall_mem_singleton.2 fun c hc => absurd hc (h c)

end Visits

/-- What the runner has called the reference calls at the sites. -/
def CallsOnly (ref : Reference) (sites : List Expr) (r : Runner σ) : Prop :=
  ∀ key c args, .call key c args ∈ r.log → ref.Calls sites key c args

theorem callsOnly_start (ref : Reference) (sites : List Expr) (context : Option Value) (world : σ) :
    (start context world).CallsOnly ref sites :=
  fun _ _ _ h => absurd h List.not_mem_nil

theorem Visits.callsOnly {sites : List Expr} {r s : Runner σ} (h : Visits ref sites r s)
    (hr : r.CallsOnly ref sites) : s.CallsOnly ref sites :=
  fun key c args hmem => (h.calls key c args hmem).elim (hr key c args) id

theorem visits_member (base : Resolved) (name : String) (r : Runner σ) :
    Visits ref [] r (r.member w base name).2 := by
  cases base with
  | value v =>
    cases v with
    | host h => exact .of_log [.get h name] rfl rfl (by simp)
    | _ => exact .refl ref r
  | _ => exact .refl ref r

/-- A lookup visits nothing further. -/
theorem Visits.member {sites : List Expr} {r : Runner σ} {out : Resolved × Runner σ}
    (h : Visits ref sites r out.2) (name : String) :
    Visits ref sites r (out.2.member w out.1 name).2 := by
  have hmember := h.trans (visits_member (w := w) out.1 name out.2)
  rwa [List.append_nil] at hmember

theorem knows_invoke (key : String) (c : Capability) (args : List Value) (r : Runner σ) :
    (r.invoke w key c args).2.Knows key := by
  unfold Runner.invoke
  split
  · next hkey => simp [Knows, hkey]
  · next hkey => simp [Knows, hkey]
  · unfold Runner.call
    dsimp only
    split <;> exact (knows_insert r _ _ _).2 (Or.inl rfl)

theorem visits_invoke {p : Expr} {c : Capability} (hc : ref.siteTarget p = some (.capability c))
    (r : Runner σ) :
    Visits ref [p] r (r.invoke w p.pathKey c (ref.denoteAll p.arguments)).2 where
  knows := (learns_invoke w _ c _ r).knows
  waiting := (closed_keepsWaiting.invoke _ c _ r).waiting
  calls key c' args h := by
    rcases mem_log_invoke_iff.1 h with hr | ⟨-, rfl, rfl, rfl⟩
    · exact Or.inl hr
    · exact Or.inr ⟨p, List.mem_singleton.2 rfl, rfl, hc, rfl⟩
  covers := Or.inr <| List.forall_mem_singleton.2 fun _ _ => knows_invoke _ c _ r

/-- The end of a path, which has come to what the reference says or waits. -/
theorem visits_access {p : Expr} (hargs : p.arguments = []) {out : Resolved × Runner σ}
    (h : Resolves ref e (ref.siteTarget p) out) :
    Visits ref [p] out.2 (out.2.access w p.pathKey out.1).2 := by
  obtain ⟨found, r⟩ := out
  obtain ⟨-, ⟨rfl, hwait⟩ | rfl⟩ := h
  · exact .of_waiting hwait _
  · rcases htarget : ref.siteTarget p with _ | v
    · exact .of_not_capability (by simp [htarget]) r
    · cases v with
      | capability c =>
        have hinvoke := visits_invoke (w := w) htarget r
        rw [hargs] at hinvoke
        exact hinvoke
      | _ => exact .of_not_capability (by simp [htarget]) r

/-- A call of such a path, with its arguments. -/
theorem visits_apply {p : Expr} {out : Resolved × Runner σ}
    (h : Resolves ref e (ref.siteTarget p) out) {sites : List Expr}
    {arguments : Runner σ → List Resolved × Runner σ}
    (hargs : ∀ r, r.Sound ref e → ResolvesAll ref e (ref.denoteAll p.arguments) (arguments r) ∧
      Visits ref sites r (arguments r).2) :
    Visits ref ((if Reference.isCapability (ref.siteTarget p) then sites else []) ++ [p]) out.2
      (out.2.apply w p.pathKey out.1 arguments).2 := by
  obtain ⟨found, r⟩ := out
  obtain ⟨hr, ⟨rfl, hwait⟩ | rfl⟩ := h
  · exact .of_waiting hwait _
  · rcases htarget : ref.siteTarget p with _ | v
    · exact .of_not_capability (by simp [htarget]) r
    · cases v with
      | capability c =>
        change Visits ref (sites ++ [p]) r
          (r.apply w p.pathKey (.value (.capability c)) arguments).2
        obtain ⟨⟨-, hgather⟩, hvisits⟩ := hargs r hr
        refine hvisits.trans ?_
        obtain ⟨hgather, hwait⟩ | hgather := hgather
        · simp only [Runner.apply, hgather]
          exact .of_waiting hwait _
        · simp only [Runner.apply, hgather]
          exact visits_invoke htarget _
      | _ => exact .of_not_capability (by simp [htarget]) r

end Runner

namespace Expr

open Runner Reference

/-! ## Values -/

section

variable (hw : w.Follows ref) (he : e.IsCondition) (hcoherent : e.Coherent)

include hw he hcoherent

/-- Values in a row come to what the reference says, and visit what they reach. -/
theorem visitsAll {es : List Expr} (hes : ∀ x ∈ es, IsOperand x)
    (hsub : ∀ x ∈ es, x.sites ⊆ e.sites) {flag : Bool}
    (h : ∀ x ∈ es, ∀ r : Runner σ, r.Sound ref e →
      Visits ref (ref.reached x) r (x.evaluate w flag r).2)
    (r : Runner σ) (hr : r.Sound ref e) :
    ResolvesAll ref e (ref.denoteAll es) (evaluateAll w es flag r) ∧
      Visits ref (ref.reachedAll es) r (evaluateAll w es flag r).2 := by
  refine ⟨resolvesAll (fun x hx => (hes x hx).resolves hw he hcoherent (hsub x hx) flag) hr, ?_⟩
  induction es generalizing r with
  | nil => exact .refl ref r
  | cons x xs ih =>
    obtain ⟨hx, hxs⟩ := List.forall_mem_cons.1 hes
    obtain ⟨hsubx, hsubxs⟩ := List.forall_mem_cons.1 hsub
    obtain ⟨hvisits, hvisitss⟩ := List.forall_mem_cons.1 h
    have hsound := (hx.resolves hw he hcoherent hsubx flag r hr).1
    exact (hvisits r hr).trans (ih hxs hsubxs hvisitss _ hsound)

theorem visitsEntries {entries : List (String × Expr)}
    (hentries : ∀ entry ∈ entries, IsOperand entry.2)
    (hsub : ∀ entry ∈ entries, entry.2.sites ⊆ e.sites)
    (h : ∀ entry ∈ entries, ∀ r : Runner σ, r.Sound ref e →
      Visits ref (ref.reached entry.2) r (entry.2.evaluate w true r).2)
    (r : Runner σ) (hr : r.Sound ref e) :
    Visits ref (ref.reachedEntries entries) r (evaluateEntries w entries r).2 := by
  induction entries generalizing r with
  | nil => exact .refl ref r
  | cons entry entries ih =>
    obtain ⟨hx, hxs⟩ := List.forall_mem_cons.1 hentries
    obtain ⟨hsubx, hsubxs⟩ := List.forall_mem_cons.1 hsub
    obtain ⟨hvisits, hvisitss⟩ := List.forall_mem_cons.1 h
    have hsound := (hx.resolves hw he hcoherent hsubx true r hr).1
    exact (hvisits r hr).trans (ih hxs hsubxs hvisitss _ hsound)

end

mutual

/-- **A value visits the sites that it reaches.** -/
theorem IsOperand.visits (hw : w.Follows ref) (he : e.IsCondition) (hcoherent : e.Coherent) :
    ∀ {x : Expr}, IsOperand x → x.sites ⊆ e.sites → ∀ (flag : Bool) (r : Runner σ),
      r.Sound ref e → Visits ref (ref.reached x) r (x.evaluate w flag r).2
  | _, .literal _ _ => fun _ _ r _ => .refl ref r
  | _, @IsOperand.array items hitems => fun hsub _ r hr => by
    have hsubs : ∀ x ∈ items, x.sites ⊆ e.sites := fun x hx =>
      List.Subset.trans (sites_subset_sitesAll hx) hsub
    exact (visitsAll hw he hcoherent hitems hsubs
      (fun x hx => (hitems x hx).visits hw he hcoherent (hsubs x hx) true) r hr).2
  | _, @IsOperand.object entries _ hvalues => fun hsub _ r hr => by
    have hsubs : ∀ entry ∈ entries, entry.2.sites ⊆ e.sites := fun entry hentry =>
      List.Subset.trans (sites_subset_sitesEntries hentry) hsub
    exact visitsEntries hw he hcoherent hvalues hsubs
      (fun entry hentry => (hvalues entry hentry).visits hw he hcoherent (hsubs entry hentry) true)
      r hr
  | _, .path hpath => hpath.visits hw he hcoherent

theorem IsPath.visits (hw : w.Follows ref) (he : e.IsCondition) (hcoherent : e.Coherent) :
    ∀ {x : Expr}, IsPath x → x.sites ⊆ e.sites → ∀ (flag : Bool) (r : Runner σ),
      r.Sound ref e → Visits ref (ref.reached x) r (x.evaluate w flag r).2
  | _, @IsPath.root name _ => fun _ _ r hr =>
    (visits_member r.root name r).trans
      (visits_access (p := .root name) rfl (resolves_root hw hr name))
  | _, @IsPath.step parent name hparent _ => fun hsub flag r hr => by
    have hsubParent := List.Subset.trans (sites_subset_step parent name) hsub
    have hbase := hparent.resolves hw he hcoherent hsubParent flag r hr
    have hvisits := hparent.visits hw he hcoherent hsubParent flag r hr
    exact (hvisits.member name).trans
      (visits_access (p := .step parent name) rfl (hbase.member hw name))
  | _, @IsPath.call _ args (@IsPath.root name hname) _ hargs => fun hsub flag r hr => by
    have hsubArgs : ∀ y ∈ args, y.sites ⊆ e.sites := fun y hy =>
      List.Subset.trans (sites_subset_call (.root hname) hy) hsub
    have hall := visitsAll hw he hcoherent hargs hsubArgs fun y hy =>
      (hargs y hy).visits hw he hcoherent (hsubArgs y hy) flag
    exact (visits_member r.root name r).trans
      (visits_apply (p := .call (.root name) args) (resolves_root hw hr name) hall)
  | _, @IsPath.call _ args (@IsPath.step parent name hparent hname) _ hargs =>
    fun hsub flag r hr => by
    have hsubParent := List.Subset.trans (sites_subset_call_step parent name args) hsub
    have hsubArgs : ∀ y ∈ args, y.sites ⊆ e.sites := fun y hy =>
      List.Subset.trans (sites_subset_call (.step hparent hname) hy) hsub
    have hbase := hparent.resolves hw he hcoherent hsubParent flag r hr
    have hvisits := hparent.visits hw he hcoherent hsubParent flag r hr
    have hall := visitsAll hw he hcoherent hargs hsubArgs fun y hy =>
      (hargs y hy).visits hw he hcoherent (hsubArgs y hy) flag
    exact (hvisits.member name).trans
      (visits_apply (p := .call (.step parent name) args) (hbase.member hw name) hall)

end

end Expr

end FilterQuery
