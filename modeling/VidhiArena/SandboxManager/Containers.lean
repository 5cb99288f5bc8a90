import Mathlib.Logic.Function.Basic
import VidhiArena.Foundation.Faulting

/-!
# Sandbox containers

`SpawnSandbox` of `sandbox-manager/spawner.go` and `handleStop` of `sandbox-manager/main.go`,
over the warm pool, the registry and Docker. Any number of calls and of stop requests are
under way; a `Move` lets one of them do its next call of Docker, access to the registry or
file operation, which fails where `ok` is false.

Docker numbers its containers. The host directory of a warm container has the number of the
container; one that is made for a run has none. Run ids have at least eight bytes.
-/

namespace VidhiArena.SandboxManager

open VidhiArena.Foundation

/-! ## State -/

/-- A container in the hands of `SpawnSandbox`, with the run it is for. -/
structure Box where
  runID : String
  id : Nat
  warm : Bool
deriving DecidableEq

/-- Where a call of `SpawnSandbox` is. -/
inductive Spawn where
  | begun (runID : String)
  /-- the pool was empty; `ContainerCreate` is next -/
  | creating (runID : String)
  /-- `copyFile` is next -/
  | claimed (b : Box)
  /-- `run_id.txt` is next -/
  | copied (b : Box)
  /-- `ContainerStart` is next -/
  | obtained (b : Box)
  /-- `registerContainer` is next -/
  | started (b : Box)
  /-- in `ContainerWait`, with the clean-up deferred -/
  | waiting (b : Box)
  /-- in the clean-up; `unregisterContainer` is next -/
  | leaving (b : Box)
  /-- `ContainerRemove` is next -/
  | unregistered (b : Box)
  /-- `RemoveAll` is next -/
  | removed (b : Box)
  | returned (b : Option Box)
deriving DecidableEq

/-- Where a call of `handleStop` is. -/
inductive Stop where
  | begun (runID : String)
  /-- `ContainerKill` is next -/
  | killing (runID : String) (id : Nat)
  /-- `unregisterContainer` is next -/
  | killed (runID : String) (id : Nat)
  | answered
deriving DecidableEq

/-- What the calls share, and what has been asked of Docker and of the file system. -/
structure Shared where
  /-- the containers that Docker has made -/
  created : Nat
  /-- `warmPool` -/
  pool : List Nat
  /-- `containerRegistry` -/
  registry : String → Option Nat
  started : List Nat
  /-- killed by a stop request -/
  killed : List Nat
  /-- asked to be removed -/
  removed : List Nat
  /-- whose host directory is deleted -/
  deleted : List Nat
  /-- the calls of `registerContainer` -/
  registered : List (String × Nat)
  /-- the container of a clean-up, and what its `unregisterContainer` took out -/
  cleared : List (Nat × Option Nat)

structure Manager where
  shared : Shared
  spawns : List Spawn
  stops : List Stop

inductive Move where
  | replenish
  | request (runID : String)
  | stop (runID : String)
  | spawn (i : Nat) (ok : Bool)
  | answer (i : Nat) (ok : Bool)
deriving DecidableEq

/-! ## Steps -/

namespace Shared

/-- `registerContainer`. -/
def register (s : Shared) (b : Box) : Shared :=
  { s with
    registry := Function.update s.registry b.runID (some b.id)
    registered := (b.runID, b.id) :: s.registered }

/-- `unregisterContainer`. -/
def unregister (s : Shared) (runID : String) : Shared :=
  { s with registry := Function.update s.registry runID none }

/-- `ContainerRemove`, which may fail: that it was asked for is what counts. -/
def remove (s : Shared) (b : Box) : Shared := { s with removed := b.id :: s.removed }

end Shared

/-- The next step of `SpawnSandbox`. -/
def Spawn.advance (s : Shared) (ok : Bool) : Spawn → Shared × Spawn
  | .begun runID =>
      if ok then
        match s.pool with
        | [] => (s, .creating runID)
        | id :: pool => ({ s with pool }, .claimed ⟨runID, id, true⟩)
      else (s, .returned none)
  | .creating runID =>
      if ok then ({ s with created := s.created + 1 }, .obtained ⟨runID, s.created, false⟩)
      else (s, .returned none)
  | .claimed b => if ok then (s, .copied b) else (s.remove b, .returned (some b))
  | .copied b => if ok then (s, .obtained b) else (s.remove b, .returned (some b))
  | .obtained b =>
      if ok then ({ s with started := b.id :: s.started }, .started b) else (s, .returned (some b))
  | .started b => (s.register b, .waiting b)
  -- the container exits, the wait fails or the time is up
  | .waiting b => (s, .leaving b)
  | .leaving b =>
      ({ s.unregister b.runID with cleared := (b.id, s.registry b.runID) :: s.cleared },
        .unregistered b)
  | .unregistered b => (s.remove b, .removed b)
  | .removed b =>
      ({ s with deleted := if b.warm then b.id :: s.deleted else s.deleted }, .returned (some b))
  | .returned b => (s, .returned b)

/-- The next step of `handleStop`. -/
def Stop.advance (s : Shared) (ok : Bool) : Stop → Shared × Stop
  | .begun runID =>
      match s.registry runID with
      | none => (s, .answered)
      | some id => (s, .killing runID id)
  | .killing runID id =>
      if ok then ({ s with killed := id :: s.killed }, .killed runID id) else (s, .answered)
  | .killed runID _ => (s.unregister runID, .answered)
  | .answered => (s, .answered)

namespace Manager

def init : Manager := ⟨⟨0, [], fun _ => none, [], [], [], [], [], []⟩, [], []⟩

def step (s : Manager) : Move → Manager
  | .replenish =>
      -- `PoolSize`
      if s.shared.pool.length < 20 then
        { s with shared := { s.shared with
            created := s.shared.created + 1, pool := s.shared.pool ++ [s.shared.created] } }
      else s
  | .request runID => { s with spawns := s.spawns ++ [.begun runID] }
  | .stop runID => { s with stops := s.stops ++ [.begun runID] }
  | .spawn i ok =>
      match s.spawns[i]? with
      | none => s
      | some a => { s with
          shared := (a.advance s.shared ok).1, spawns := s.spawns.set i (a.advance s.shared ok).2 }
  | .answer i ok =>
      match s.stops[i]? with
      | none => s
      | some x => { s with
          shared := (x.advance s.shared ok).1, stops := s.stops.set i (x.advance s.shared ok).2 }

def run (moves : List Move) : Manager := moves.foldl step init

end Manager

/-! ## What each step leaves behind -/

/-- The container that a call has got hold of. -/
def Spawn.box : Spawn → Option Box
  | .begun _ | .creating _ | .returned none => none
  | .claimed b | .copied b | .obtained b | .started b | .waiting b | .leaving b
  | .unregistered b | .removed b | .returned (some b) => some b

/-- The container that a call has registered and not unregistered. -/
def Spawn.listed : Spawn → Option Box
  | .waiting b | .leaving b => some b
  | _ => none

/-- The container of a call that has registered it. -/
def Spawn.late : Spawn → Option Box
  | .waiting b | .leaving b | .unregistered b | .removed b | .returned (some b) => some b
  | _ => none

/-- The container whose removal is still to come in the clean-up. -/
def Spawn.cleaning : Spawn → Option Box
  | .leaving b | .unregistered b => some b
  | _ => none

/-- What a stop request has looked up. -/
def Stop.target : Stop → Option (String × Nat)
  | .killing runID id | .killed runID id => some (runID, id)
  | _ => none

namespace Manager

/-- Its removal is asked for, its host directory is deleted, its entry is gone, and no entry
but its own was taken out. -/
structure Released (s : Shared) (b : Box) : Prop where
  removed : b.id ∈ s.removed
  deleted : b.warm = true → b.id ∈ s.deleted
  gone : s.registry b.runID ≠ some b.id
  own : ∀ id, (b.id, some id) ∈ s.cleared → id = b.id

/-- No orphans. A container that is started, registered and not removed is the one that
`lookupContainer` returns; and a call that has returned has released its container. -/
structure Kept (s : Manager) : Prop where
  found : ∀ x ∈ s.shared.registered, x.2 ∈ s.shared.started → x.2 ∉ s.shared.removed →
    s.shared.registry x.1 = some x.2
  released : ∀ b, .returned (some b) ∈ s.spawns → Released s.shared b

/-- The same, but for containers that a stop request has killed or whose clean-up has
begun. -/
structure Tended (s : Manager) : Prop where
  found : ∀ x ∈ s.shared.registered, x.2 ∈ s.shared.started → x.2 ∉ s.shared.removed →
    s.shared.registry x.1 = some x.2 ∨ x.2 ∈ s.shared.killed ∨
      ∃ a ∈ s.spawns, ∃ b, a.cleaning = some b ∧ b.runID = x.1 ∧ b.id = x.2
  released : ∀ b, .returned (some b) ∈ s.spawns → Released s.shared b

/-! ## Conditions -/

/-- The step does not fail with a container in hand. -/
def holdsOn (s : Manager) : Move → Bool
  | .spawn i ok =>
      match s.spawns[i]? with
      | some (.claimed _) | some (.copied _) | some (.obtained _) => ok
      | _ => true
  | _ => true

/-- A container is registered only after every registered one of its run is removed, and
nothing is taken out of the registry. -/
def undisturbed (s : Manager) : Move → Bool
  | .spawn i _ =>
      match s.spawns[i]? with
      | some (.started b) =>
          s.shared.registered.all fun x => x.1 != b.runID || s.shared.removed.contains x.2
      | some (.leaving _) => false
      | _ => true
  | .answer i _ =>
      match s.stops[i]? with
      | some (.killed runID _) => s.shared.registry runID = none
      | _ => true
  | _ => true

/-- A container is registered only while no other call for its run is registered and no stop
request for the run is between its lookup and its end. -/
def separate (s : Manager) : Move → Bool
  | .spawn i _ =>
      match s.spawns[i]? with
      | some (.started b) =>
          (s.spawns.all fun a => a.listed.all fun b' => b'.runID != b.runID) &&
            s.stops.all fun x => x.target.all fun t => t.1 != b.runID
      | _ => true
  | _ => true

end Manager

end VidhiArena.SandboxManager
