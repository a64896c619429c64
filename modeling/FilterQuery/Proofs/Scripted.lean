import FilterQuery.Proofs.Evaluation.Delays
import FilterQuery.Scripted.Stage

/-!
# Proofs/Scripted — stages that differ in delays

    blueprint ──build──▸ stage ──call, lookup──▸ stage
        │                  │                       │
    undelayed          undelayed               undelayed
        ▾                  ▾                       ▾
    blueprint ──build──▸ stage ──call, lookup──▸ stage

The delays of a stage stand in the profiles of its capabilities and in the blueprints of what its
hosts make anew.  Without them a blueprint builds the same value on the same stage
(`build_undelayed`), and a stage gives the same members and answers.  So stages that are the same
without their delays make worlds that are the same but for delays (`sameButDelays_world`), and **the
runs of a query in contexts whose blueprints differ in delays only are alike**
(`runsAlike_build`).
-/

namespace FilterQuery.Scripted

/-! ## Without delays -/

/-- A profile whose late answers stay away for no round. -/
def Profile.undelayed (p : Profile) : Profile :=
  { p with delay := 0 }

mutual

/-- A blueprint without the delays in it. -/
def Blueprint.undelayed : Blueprint → Blueprint
  | .constant v => .constant v
  | .array items => .array (undelayedAll items)
  | .object entries => .object (undelayedEntries entries)
  | .reference name => .reference name
  | .replies profile values => .replies profile.undelayed (undelayedAll values)
  | .computes profile f => .computes profile.undelayed f
  | .host id fresh members => .host id fresh (undelayedEntries members)

/-- Blueprints without the delays in them. -/
def undelayedAll : List Blueprint → List Blueprint
  | [] => []
  | b :: bs => b.undelayed :: undelayedAll bs

/-- Entries without the delays in their blueprints. -/
def undelayedEntries : List (String × Blueprint) → List (String × Blueprint)
  | [] => []
  | (key, b) :: entries => (key, b.undelayed) :: undelayedEntries entries

end

/-- A capability that answers without delay. -/
def CapabilityEntry.undelayed (entry : CapabilityEntry) : CapabilityEntry :=
  { entry with profile := entry.profile.undelayed }

/-- Members without the delays in them. -/
def Members.undelayed : Members → Members
  | .kept members => .kept members
  | .fresh members => .fresh (undelayedEntries members)

/-- A host without the delays in its members. -/
def HostEntry.undelayed (entry : HostEntry) : HostEntry :=
  { entry with members := entry.members.undelayed }

/-- A stage without its delays. -/
def Stage.undelayed (s : Stage) : Stage :=
  ⟨s.capabilities.map CapabilityEntry.undelayed, s.hosts.map HostEntry.undelayed, s.names⟩

/-! ## Building -/

theorem Stage.addCapability_undelayed (s : Stage) (registering : Bool) (profile : Profile)
    (answers : Answers) : s.undelayed.addCapability registering profile.undelayed answers =
      ((s.addCapability registering profile answers).1,
        (s.addCapability registering profile answers).2.undelayed) := by
  cases registering <;>
    simp [addCapability, undelayed, register, CapabilityEntry.undelayed, Profile.undelayed]

theorem Stage.addHost_undelayed (s : Stage) (registering : Bool) (id : String) (members : Members) :
    s.undelayed.addHost registering id members.undelayed =
      ((s.addHost registering id members).1, (s.addHost registering id members).2.undelayed) := by
  cases registering <;> simp [addHost, undelayed, register, HostEntry.undelayed]

mutual

/-- **Without delays a blueprint builds the same value,** on the same stage without delays. -/
theorem build_undelayed (registering : Bool) : ∀ (b : Blueprint) (s : Stage),
    build registering b.undelayed s.undelayed =
      ((build registering b s).1, (build registering b s).2.undelayed)
  | .constant v, s => rfl
  | .array items, s => by
    rw [Blueprint.undelayed, build, buildAll_undelayed registering items s]
    rfl
  | .object entries, s => by
    rw [Blueprint.undelayed, build, buildEntries_undelayed registering entries s]
    rfl
  | .reference name, s => rfl
  | .replies profile values, s => by
    rw [Blueprint.undelayed, build, buildAll_undelayed registering values s]
    exact Stage.addCapability_undelayed _ _ _ _
  | .computes profile f, s => Stage.addCapability_undelayed _ _ _ _
  | .host id true members, s => Stage.addHost_undelayed s registering id (.fresh members)
  | .host id false members, s => by
    rw [Blueprint.undelayed, build, buildEntries_undelayed registering members s]
    exact Stage.addHost_undelayed _ _ _ (.kept _)

theorem buildAll_undelayed (registering : Bool) : ∀ (bs : List Blueprint) (s : Stage),
    buildAll registering (undelayedAll bs) s.undelayed =
      ((buildAll registering bs s).1, (buildAll registering bs s).2.undelayed)
  | [], s => rfl
  | b :: bs, s => by
    rw [undelayedAll, buildAll, build_undelayed registering b s]
    simp only [buildAll_undelayed registering bs]
    rfl

theorem buildEntries_undelayed (registering : Bool) :
    ∀ (entries : List (String × Blueprint)) (s : Stage),
      buildEntries registering (undelayedEntries entries) s.undelayed =
        ((buildEntries registering entries s).1, (buildEntries registering entries s).2.undelayed)
  | [], s => rfl
  | (key, b) :: entries, s => by
    rw [undelayedEntries, buildEntries, build_undelayed registering b s]
    simp only [buildEntries_undelayed registering entries]
    rfl

end

/-- Blueprints that differ in delays only build one value, on stages that differ in these only. -/
theorem build_eq_of_undelayed {b b' : Blueprint} {s t : Stage} (hb : b.undelayed = b'.undelayed)
    (hs : s.undelayed = t.undelayed) (registering : Bool) :
    (build registering b s).1 = (build registering b' t).1 ∧
      (build registering b s).2.undelayed = (build registering b' t).2.undelayed := by
  have hbuild := build_undelayed registering b s
  rw [hb, hs, build_undelayed registering b' t] at hbuild
  obtain ⟨hvalue, hstage⟩ := Prod.mk.inj hbuild
  exact ⟨hvalue.symm, hstage.symm⟩

/-! ## Worlds -/

theorem lookup_undelayedEntries (entries : List (String × Blueprint)) (name : String) :
    (undelayedEntries entries).lookup name = (entries.lookup name).map Blueprint.undelayed := by
  induction entries with
  | nil => rfl
  | cons entry entries ih =>
    obtain ⟨key, b⟩ := entry
    rw [undelayedEntries, List.lookup_cons, List.lookup_cons, ih]
    split <;> rfl

namespace Stage

/-- Without delays a lookup finds the same member, and leaves the same stage without delays. -/
theorem lookup_undelayed (h : Host) (name : String) (s : Stage) :
    lookup h name s.undelayed = ((lookup h name s).1, (lookup h name s).2.undelayed) := by
  have hhost : s.undelayed.hosts[h.id]? = (s.hosts[h.id]?).map HostEntry.undelayed :=
    List.getElem?_map
  rw [lookup, lookup, hhost]
  rcases s.hosts[h.id]? with _ | ⟨id, members | members⟩
  · rfl
  · rfl
  · simp only [Option.map_some, HostEntry.undelayed, Members.undelayed, lookup_undelayedEntries]
    rcases members.lookup name with _ | b
    · rfl
    · simp only [Option.map_some, build_undelayed]

variable {s t : Stage}

/-- Stages that differ in delays only find the same members. -/
theorem lookup_eq_of_undelayed (hst : s.undelayed = t.undelayed) (h : Host) (name : String) :
    (lookup h name t).1 = (lookup h name s).1 ∧
      (lookup h name s).2.undelayed = (lookup h name t).2.undelayed := by
  have hlookup := lookup_undelayed h name s
  rw [hst, lookup_undelayed h name t] at hlookup
  obtain ⟨hfound, hstage⟩ := Prod.mk.inj hlookup
  exact ⟨hfound, hstage.symm⟩

/-- Stages that differ in delays only have the same capabilities, up to these. -/
theorem capability_eq_of_undelayed (hst : s.undelayed = t.undelayed) (i : Nat) :
    (s.capabilities[i]?).map CapabilityEntry.undelayed =
      (t.capabilities[i]?).map CapabilityEntry.undelayed := by
  rw [← List.getElem?_map, ← List.getElem?_map]
  exact congrArg (fun stage : Stage => stage.capabilities[i]?) hst

/-- A call changes nothing but how often its capability has been called. -/
theorem undelayed_set (s : Stage) (i : Nat) (entry : CapabilityEntry) :
    undelayed { s with capabilities := s.capabilities.set i entry } =
      { s.undelayed with
        capabilities := s.undelayed.capabilities.set i entry.undelayed } := by
  simp [undelayed, List.map_set]

/-- **Stages that differ in delays only answer alike, up to these.** -/
theorem call_sameButDelay (R : Stage → Stage → Prop) (hst : s.undelayed = t.undelayed)
    (c : Capability) (args : List Value) :
    (call c args s).1.SameButDelay R (call c args t).1 ∧
      (call c args s).2.undelayed = (call c args t).2.undelayed := by
  have hentry := capability_eq_of_undelayed hst c.id
  rw [call, call]
  rcases hs : s.capabilities[c.id]? with _ | ⟨profile, answers, calls⟩ <;> rw [hs] at hentry
  · rw [Option.map_none, eq_comm, Option.map_eq_none_iff] at hentry
    rw [hentry]
    exact ⟨.immediate .null, hst⟩
  · obtain ⟨entry', hentry', heq⟩ := Option.map_eq_some_iff.1 hentry.symm
    obtain ⟨⟨id, timing, delay⟩, answers', calls'⟩ := entry'
    obtain ⟨id, timing, delay'⟩ := profile
    cases heq
    rw [hentry']
    dsimp only
    -- both now count one call more
    have hsame : ∀ n, undelayed { s with
        capabilities := s.capabilities.set c.id ⟨⟨id, timing, delay'⟩, answers, n⟩ } =
        undelayed { t with
          capabilities := t.capabilities.set c.id ⟨⟨id, timing, delay⟩, answers, n⟩ } := by
      intro n
      rw [undelayed_set, undelayed_set, hst]
      rfl
    split
    · exact ⟨.deferred (Deferred.sameButDelay_ofValue R _ _ _), hsame _⟩
    · exact ⟨.immediate _, hsame _⟩

/-- **Stages that differ in delays only make worlds that do.** -/
theorem sameButDelays_world :
    world.SameButDelays (fun s t => s.undelayed = t.undelayed) world where
  lookup h name _ _ hst := lookup_eq_of_undelayed hst h name
  call c args _ _ hst := call_sameButDelay _ hst c args

end Stage

end FilterQuery.Scripted

namespace FilterQuery.Query

open Scripted

/-- **Contexts whose blueprints differ in delays only are built of the same value, and the runs of a
query in them are alike.** -/
theorem runsAlike_build {b b' : Blueprint} (hb : b.undelayed = b'.undelayed) (q : Query) (e : Expr)
    (h : q.parse = .ok e) :
    let built := build true b .empty
    let built' := build true b' .empty
    built'.1 = built.1 ∧ q.RunsAlike e built.1 Stage.world built.2 Stage.world built'.2 := by
  intro built built'
  obtain ⟨hvalue, hstage⟩ := build_eq_of_undelayed (s := .empty) hb rfl true
  exact ⟨hvalue.symm, runsAlike_of_sameButDelays Stage.sameButDelays_world q e h built.1 hstage⟩

end FilterQuery.Query
