import FilterQuery.Scripted.Blueprint
import FilterQuery.World

/-!
# Scripted/Stage — blueprints built, and the world of what was built

A stage holds the capabilities and hosts built so far, each at the place that its identity names,
and the names registered for values. `build` adds to it; `Stage.world` is the world in which the
capabilities and hosts of a stage behave as their blueprints say.
-/

namespace FilterQuery.Scripted

/-- How a capability makes its answers. -/
inductive Answers where
  | values (vs : List Value)
  | function (f : Function)

/-- A capability that was built, and how often it has been called. -/
structure CapabilityEntry where
  profile : Profile
  answers : Answers
  calls : Nat

/-- The members of a host: built once, or made anew for every lookup. -/
inductive Members where
  | kept (members : Fields Value)
  | fresh (members : List (String × Blueprint))

/-- A host that was built. -/
structure HostEntry where
  id : String
  members : Members

/-- What has been built, and the names it is registered under, the latest last. -/
structure Stage where
  capabilities : List CapabilityEntry
  hosts : List HostEntry
  names : List (String × Value)

namespace Stage

/-- The empty stage. -/
def empty : Stage := ⟨[], [], []⟩

instance : Inhabited Stage := ⟨empty⟩

/-- Registers a value under a name. -/
def register (s : Stage) (name : String) (v : Value) : Stage :=
  { s with names := s.names ++ [(name, v)] }

/-- The value registered last under a name. -/
def find? (s : Stage) (name : String) : Option Value :=
  s.names.reverse.lookup name

/-- The name registered first for a value that is the capability `c`. -/
def capabilityName? (s : Stage) (c : Capability) : Option String :=
  s.names.findSome? fun (name, v) =>
    match v with
    | .capability d => if d = c then some name else none
    | _ => none

/-- The name registered first for a value that is the host `h`. -/
def hostName? (s : Stage) (h : Host) : Option String :=
  s.names.findSome? fun (name, v) =>
    match v with
    | .host g => if g = h then some name else none
    | _ => none

/-- The name in the blueprint of a capability. -/
def capabilityId (s : Stage) (c : Capability) : String :=
  (s.capabilities[c.id]?).elim "" fun entry => entry.profile.id

/-- The name in the blueprint of a host. -/
def hostId (s : Stage) (h : Host) : String :=
  (s.hosts[h.id]?).elim "" HostEntry.id

/-- Adds a capability, and registers it if asked to. -/
def addCapability (s : Stage) (registering : Bool) (profile : Profile) (answers : Answers) :
    Value × Stage :=
  let v := Value.capability ⟨s.capabilities.length⟩
  let s := { s with capabilities := s.capabilities ++ [⟨profile, answers, 0⟩] }
  (v, if registering then s.register profile.id v else s)

/-- Adds a host, and registers it if asked to. -/
def addHost (s : Stage) (registering : Bool) (id : String) (members : Members) : Value × Stage :=
  let v := Value.host ⟨s.hosts.length⟩
  let s := { s with hosts := s.hosts ++ [⟨id, members⟩] }
  (v, if registering then s.register id v else s)

end Stage

mutual

/-- Builds a value: its parts first, from left to right. -/
def build (registering : Bool) : Blueprint → Stage → Value × Stage
  | .constant v, s => (v, s)
  | .array items, s =>
    let parts := buildAll registering items s
    (.array parts.1, parts.2)
  | .object entries, s =>
    let parts := buildEntries registering entries s
    (.ofPairs parts.1, parts.2)
  | .reference name, s => ((s.find? name).getD .null, s)
  | .replies profile values, s =>
    let parts := buildAll registering values s
    parts.2.addCapability registering profile (.values parts.1)
  | .computes profile f, s => s.addCapability registering profile (.function f)
  | .host id true members, s => s.addHost registering id (.fresh members)
  | .host id false members, s =>
    let parts := buildEntries registering members s
    parts.2.addHost registering id (.kept (Fields.ofList parts.1))

/-- Builds values, one after the other. -/
def buildAll (registering : Bool) : List Blueprint → Stage → List Value × Stage
  | [], s => ([], s)
  | b :: bs, s =>
    let head := build registering b s
    let tail := buildAll registering bs head.2
    (head.1 :: tail.1, tail.2)

/-- Builds the values of entries, one after the other. -/
def buildEntries (registering : Bool) :
    List (String × Blueprint) → Stage → List (String × Value) × Stage
  | [], s => ([], s)
  | (key, b) :: entries, s =>
    let head := build registering b s
    let tail := buildEntries registering entries head.2
    ((key, head.1) :: tail.1, tail.2)

end

/-- Builds the values of entries in order and registers each under its key, so that later entries
can refer to earlier ones. -/
def define (definitions : List (String × Blueprint)) (s : Stage) : Stage :=
  definitions.foldl
    (fun s (name, b) =>
      let built := build true b s
      built.2.register name built.1) s

namespace Stage

/-- The value that a capability makes at its call number `call`, counted from one. -/
def answerAt (answers : Answers) (args : List Value) (call : Nat) : Value :=
  match answers with
  | .values vs => (vs[min (call - 1) (vs.length - 1)]?).getD .null
  | .function f => f.value args call

/-- A call of a capability of the stage. -/
def call (c : Capability) (args : List Value) (s : Stage) : Outcome Stage × Stage :=
  match s.capabilities[c.id]? with
  | none => (.immediate .null, s)
  | some entry =>
    let v := answerAt entry.answers args (entry.calls + 1)
    let s := { s with
      capabilities := s.capabilities.set c.id { entry with calls := entry.calls + 1 } }
    if entry.profile.timing.isDeferred args then
      (.deferred (.ofValue entry.profile.delay v), s)
    else (.immediate v, s)

/-- A lookup on a host of the stage. What a host makes anew is not registered. -/
def lookup (h : Host) (name : String) (s : Stage) : Option Value × Stage :=
  match s.hosts[h.id]? with
  | none => (none, s)
  | some entry =>
    match entry.members with
    | .kept members => (Fields.get? members name, s)
    | .fresh members =>
      match members.lookup name with
      | none => (none, s)
      | some b =>
        let built := build false b s
        (some built.1, built.2)

/-- The world of what was built. -/
def world : World Stage := ⟨call, lookup⟩

end Stage

end FilterQuery.Scripted
