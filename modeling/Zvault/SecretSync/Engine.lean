import Mathlib.Logic.Function.Basic
import Zvault.SecretSync.Github

/-!
# The secret sync engine

`SecretSyncer` of `projects/secretSync.ts`: what its timer, its pushes and the changes
of the projects do to it, one event at a time. Targets are found by their ids, which
are random and so differ.
-/

namespace Zvault.SecretSync

open ProjectSync

/-- A target, with the environment and the project that it is of. -/
structure Located where
  project : Project
  env : Environment
  target : SyncTarget

/-- Every target, in the order of the loops over them. -/
def targetsOf (projects : List Project) : List Located :=
  projects.flatMap fun project => project.environments.flatMap fun env =>
    env.sync.map fun target => ⟨project, env, target⟩

/-- `ProjectsSnapshot`. -/
structure Loaded (V : Type) where
  view : ProjectsView V
  /-- `status` is `'ready'`. -/
  ready : Bool
  projects_nodup : (view.projects.map (·.id)).Nodup
  environments_nodup : ∀ p ∈ view.projects, (p.environments.map (·.id)).Nodup
  targets_nodup : ((targetsOf view.projects).map (·.target.id)).Nodup

/-- Where a target is: the ids of its project, its environment and itself. -/
structure Place where
  project : RecordId
  env : RecordId
  target : String
  deriving DecidableEq, Repr

def Located.place (x : Located) : Place := ⟨x.project.id, x.env.id, x.target.id⟩

/-- Which providers this Mac is connected to. -/
abbrev Connections := Provider → Bool

/-- A check for changes that waits for the connections. -/
structure Check where
  projects : List Project
  due : List Place

/-- What a push waits for. -/
inductive Phase where
  | connections
  | report
  deriving DecidableEq, Repr

/-- A push under way. -/
structure Running where
  target : String
  provider : Provider
  print : String
  previous : Option TargetStatus
  phase : Phase

/-- The state of the engine. -/
structure Engine (V : Type) where
  loaded : Loaded V
  status : String → Option TargetStatus
  timer : Bool
  checks : List Check
  running : List Running

/-- What happens to the engine. -/
inductive Event (V : Type) where
  /-- The projects change: values, targets, or what is loaded. -/
  | change (loaded : Loaded V)
  /-- A credential was kept. -/
  | connect
  | timer
  /-- A check goes on with the connections, which may fail to load. -/
  | check (i : ℕ) (connections : Option Connections)
  /-- `Sync now`. -/
  | sync (place : Place)
  /-- A push goes on with the connections. -/
  | connections (i : ℕ) (connections : Option Connections)
  /-- A push ends. -/
  | report (i : ℕ) (answer : Except String Report)
  /-- The app starts again, with the statuses that were stored or none. -/
  | restart (loaded : Loaded V) (stored : Bool)

namespace Engine

variable {V : Type} (f : Formats V) (s : Engine V)

/-- The fingerprint of a target's contents. -/
def print (loaded : Loaded V) (x : Located) : String :=
  f.fingerprint x.target (itemsFor f.localeLE loaded.view.secrets x.project x.env)

/-- `setStatus`. -/
def setStatus (target : String) (status : TargetStatus) : Engine V :=
  ⟨s.loaded, Function.update s.status target (some status), s.timer, s.checks, s.running⟩

/-- `running.has`. -/
def isRunning (target : String) : Bool := s.running.any fun r => r.target = target

/-- `find`, and the target in the environment. -/
def find (place : Place) : Option Located := do
  let project ← s.loaded.view.projects.find? (·.id = place.project)
  let env ← project.environments.find? (·.id = place.env)
  let target ← env.sync.find? (·.id = place.target)
  return ⟨project, env, target⟩

/-- `syncTarget`, and `push` until it first waits. -/
def syncTarget (place : Place) : Engine V :=
  if s.isRunning place.target then s
  else
    match s.find place with
    | none => s
    | some x =>
      let previous := s.status place.target
      let print := print f s.loaded x
      if x.env.locked then s.setStatus place.target (.locked previous print)
      else
        ⟨s.loaded, s.status, s.timer, s.checks,
          s.running ++ [⟨place.target, x.target.provider, print, previous, .connections⟩]⟩

/-- Whether a check finds that a target changed since its last push. -/
def isDue (x : Located) : Bool :=
  !x.env.locked && !(x.target.auto = some false || s.isRunning x.target.id) &&
    (s.status x.target.id).map (·.fingerprint) ≠ some (print f s.loaded x)

/-- The timer: the first part of `syncChanged`. -/
def check : Engine V :=
  if s.loaded.ready then
    ⟨s.loaded, s.status, false, s.checks ++ [⟨s.loaded.view.projects,
      ((targetsOf s.loaded.view.projects).filter (s.isDue f)).map Located.place⟩], s.running⟩
  else ⟨s.loaded, s.status, false, s.checks, s.running⟩

/-- A target that waits for credentials that this Mac now has is due, too. -/
def alsoDue (connections : Connections) (due : List Place) (x : Located) : List Place :=
  match (s.status x.target.id).bind (·.needs) with
  | none => due
  | some provider =>
    if connections provider && !due.any (fun place => place.target = x.target.id) then
      due ++ [x.place]
    else due

/-- The second part of `syncChanged`. -/
def pushDue (k : Check) : Option Connections → Engine V
  | none => s
  | some connections =>
    ((targetsOf k.projects).foldl (s.alsoDue connections) k.due).foldl (syncTarget f) s

/-- A push goes on with the connections. -/
def withConnections (r : Running) (others : List Running) (connections : Option Connections) :
    Engine V :=
  if connections.any fun c => !c r.provider then
    setStatus ⟨s.loaded, s.status, s.timer, s.checks, others⟩ r.target
      (.unconnected r.previous r.print r.provider)
  else
    setStatus ⟨s.loaded, s.status, s.timer, s.checks,
      ⟨r.target, r.provider, r.print, r.previous, .report⟩ :: others⟩ r.target
      (.syncing r.previous)

/-- A push ends. -/
def withReport (r : Running) (others : List Running) (answer : Except String Report) : Engine V :=
  setStatus ⟨s.loaded, s.status, s.timer, s.checks, others⟩ r.target
    (.afterPush r.previous r.print answer)

/-- What an event leaves, if it can happen. -/
def step : Event V → Option (Engine V)
  | .change loaded => some ⟨loaded, s.status, true, s.checks, s.running⟩
  | .connect => some ⟨s.loaded, s.status, true, s.checks, s.running⟩
  | .timer => if s.timer then some (s.check f) else none
  | .check i connections =>
    match s.checks[i]? with
    | none => none
    | some k =>
      some (pushDue f ⟨s.loaded, s.status, s.timer, s.checks.eraseIdx i, s.running⟩ k connections)
  | .sync place => some (s.syncTarget f place)
  | .connections i connections =>
    match s.running[i]? with
    | none => none
    | some r =>
      if r.phase = .connections then some (s.withConnections r (s.running.eraseIdx i) connections)
      else none
  | .report i answer =>
    match s.running[i]? with
    | none => none
    | some r =>
      if r.phase = .report then some (s.withReport r (s.running.eraseIdx i) answer) else none
  | .restart loaded stored =>
    some ⟨loaded, fun target => if stored then (s.status target).map TargetStatus.restarted else none,
      true, [], []⟩

/-- The engine as it starts, with the statuses that were stored. -/
def start (loaded : Loaded V) (status : String → Option TargetStatus) : Engine V :=
  ⟨loaded, fun target => (status target).map TargetStatus.restarted, true, [], []⟩

end Engine

end Zvault.SecretSync
