import Zvault.Concurrent.Tasks
import Zvault.Projects.Tidy

/-!
# A client's copy of a project

`pull`, `write` and `apply` of `ProjectsSync` (`sync.ts`), and the other clients.
Entries are applied one at a time; a task waits while the server answers and while
an entry is opened, and other tasks go on meanwhile. The project stays open, so
that `load` only pulls. What the key ring opens is left out: the metadata and the
values of the copy are those that are sealed, and whether an environment is unlocked
is not kept.
-/

namespace Zvault

open Concurrent Relational ProjectsStore
open Function (update)

/-- `MAX_PROJECT_SYNC_PAGE`, which is the limit of a request that names none. -/
def maxProjectSyncPage : ℕ := 500

/-- `Versioned`, with the values of a secret. -/
structure CopiedEntry where
  revision : ℕ
  encryptedMeta : EncryptedBlob
  values : Uuid → Option EncryptedBlob

/-- `Tracked`: what has been pulled of a project. -/
structure ProjectCopy where
  cursor : ℕ
  /-- `maps`. -/
  entries : EntryType → Uuid → Option CopiedEntry

/-- `blank`. -/
def ProjectCopy.blank : ProjectCopy := ⟨0, fun _ _ => none⟩

namespace ProjectEntry

def type : ProjectEntry → EntryType
  | .deleted _ type => type
  | .environment .. => .environment
  | .folder .. => .folder
  | .secret .. => .secret

/-- The metadata of an entry that is not deleted. -/
def shown : ProjectEntry → Option EncryptedBlob
  | .deleted .. => none
  | .environment _ encryptedMeta _ => some encryptedMeta
  | .folder _ encryptedMeta => some encryptedMeta
  | .secret _ encryptedMeta _ => some encryptedMeta

/-- `Object.fromEntries` of the values. -/
def value (entry : ProjectEntry) : Uuid → Option EncryptedBlob :=
  entry.values.foldl (fun value v => update value v.environmentId (some v.encryptedValue))
    fun _ => none

/-- A key rotation re-sends the environment and its values at the same revision. -/
def rekeyed (known : CopiedEntry) : ProjectEntry → Bool
  | .environment .. => true
  | .secret _ _ values => values.any fun v =>
      (known.values v.environmentId).map (·.ct) ≠ some v.encryptedValue.ct
  | _ => false

end ProjectEntry

namespace ProjectCopy

variable (copy : ProjectCopy) (entry : ProjectEntry)

/-- `apply` returns at once. -/
def knows : Bool :=
  (copy.entries entry.type entry.base.id).any fun known =>
    entry.base.revision < known.revision ||
      (known.revision = entry.base.revision && !entry.rekeyed known)

/-- The entry is deleted. The server dropped an environment's values without re-sending each
secret. -/
def remove : ProjectCopy where
  cursor := copy.cursor
  entries type id :=
    if type = entry.type ∧ id = entry.base.id then none
    else (copy.entries type id).map fun known =>
      if entry.type = .environment ∧ type = .secret then
        { known with values := update known.values entry.base.id none }
      else known

def put (encryptedMeta : EncryptedBlob) : ProjectCopy where
  cursor := copy.cursor
  entries type id :=
    if type = entry.type ∧ id = entry.base.id then
      some ⟨entry.base.revision, encryptedMeta, entry.value⟩
    else copy.entries type id

/-- `apply`, when nothing happens while it waits. -/
def apply : ProjectCopy :=
  if copy.knows entry then copy
  else
    match entry.shown with
    | none => copy.remove entry
    | some encryptedMeta => copy.put entry encryptedMeta

end ProjectCopy

/-- What a task does once its entries are applied. -/
inductive CopyGoal where
  | page (cursor : ℕ) (hasMore : Bool)
  | answer
  deriving DecidableEq, Repr

/-- Where a task of the client waits, and the requests of other clients. -/
inductive CopyTask where
  | pull
  | fetching (since : ℕ)
  | apply (entries : List ProjectEntry) (goal : CopyGoal)
  /-- The first entry is being opened. -/
  | store (entry : ProjectEntry) (entries : List ProjectEntry) (goal : CopyGoal)
  /-- A write of this client: its request has not been served. -/
  | sends (w : EntryWrite)
  | others
  deriving DecidableEq, Repr

/-- The server, the copy, and the newest revision of each entry that a step was done with. No step
reads the last field. -/
structure CopyWorld where
  db : Db
  copy : ProjectCopy
  applied : Uuid → ℕ

namespace CopyWorld

def initial (db : Db) : CopyWorld := ⟨db, .blank, fun _ => 0⟩

/-- A step is done with an entry. -/
def note (w : CopyWorld) (entry : ProjectEntry) : CopyWorld :=
  { w with
    applied := update w.applied entry.base.id (max (w.applied entry.base.id) entry.base.revision) }

end CopyWorld

/-- The entry that the server answers a write with: the written one, or the one that is there. -/
def EntryWriteResult.answer : EntryWriteResult → Option ProjectEntry
  | .ok entry => some entry
  | .conflict current => some current
  | _ => none

/-- The next step of a task; `ok` says whether what it uses works. -/
inductive CopyStep (viewer projectId : Uuid) :
    CopyWorld → Bool → CopyTask → CopyWorld → Option CopyTask → Prop
  | pull (w : CopyWorld) :
      CopyStep viewer projectId w true .pull w (some (.fetching w.copy.cursor))
  | fetched {w : CopyWorld} {since : ℕ} {db' : Db} {res : SyncProjectResponse} (now : Timestamp)
      (h : ProjectsService.sync w.db viewer projectId since maxProjectSyncPage now =
        (.ok res, db')) :
      CopyStep viewer projectId w true (.fetching since) { w with db := db' }
        (some (.apply res.entries (.page res.cursor res.hasMore)))
  | refused {w : CopyWorld} {since : ℕ} {db' : Db} {e : ApiError} (now : Timestamp)
      (h : ProjectsService.sync w.db viewer projectId since maxProjectSyncPage now =
        (.error e, db')) :
      CopyStep viewer projectId w true (.fetching since) { w with db := db' } none
  | lost (w : CopyWorld) (since : ℕ) : CopyStep viewer projectId w false (.fetching since) w none
  | passes {w : CopyWorld} {entry : ProjectEntry} (entries : List ProjectEntry) (goal : CopyGoal)
      (h : w.copy.knows entry = true) :
      CopyStep viewer projectId w true (.apply (entry :: entries) goal) (w.note entry)
        (some (.apply entries goal))
  | removes {w : CopyWorld} {entry : ProjectEntry} (entries : List ProjectEntry) (goal : CopyGoal)
      (h : w.copy.knows entry = false) (hdeleted : entry.shown = none) :
      CopyStep viewer projectId w true (.apply (entry :: entries) goal)
        { w.note entry with copy := w.copy.remove entry } (some (.apply entries goal))
  | opens {w : CopyWorld} {entry : ProjectEntry} (entries : List ProjectEntry) (goal : CopyGoal)
      (h : w.copy.knows entry = false) (hlive : entry.shown ≠ none) :
      CopyStep viewer projectId w true (.apply (entry :: entries) goal) w
        (some (.store entry entries goal))
  | stores {w : CopyWorld} {entry : ProjectEntry} {encryptedMeta : EncryptedBlob}
      (entries : List ProjectEntry) (goal : CopyGoal) (hlive : entry.shown = some encryptedMeta) :
      CopyStep viewer projectId w true (.store entry entries goal)
        { w.note entry with copy := w.copy.put entry encryptedMeta } (some (.apply entries goal))
  /-- The entry does not open, and is only counted. -/
  | unreadable (w : CopyWorld) (entry : ProjectEntry) (entries : List ProjectEntry)
      (goal : CopyGoal) :
      CopyStep viewer projectId w false (.store entry entries goal) w (some (.apply entries goal))
  | turns (w : CopyWorld) (cursor : ℕ) (hasMore : Bool) :
      CopyStep viewer projectId w true (.apply [] (.page cursor hasMore))
        { w with copy := { w.copy with cursor } }
        (if hasMore then some (.fetching cursor) else none)
  | ends (w : CopyWorld) : CopyStep viewer projectId w true (.apply [] .answer) w none
  | sent (w : CopyWorld) (write : EntryWrite) :
      CopyStep viewer projectId w true (.sends write) { w with db := (writeEntry w.db write).2 }
        ((writeEntry w.db write).1.answer.map fun entry => .apply [entry] .answer)
  /-- The answer does not come back. -/
  | unanswered (w : CopyWorld) (write : EntryWrite) :
      CopyStep viewer projectId w false (.sends write) { w with db := (writeEntry w.db write).2 }
        none
  | unsent (w : CopyWorld) (write : EntryWrite) :
      CopyStep viewer projectId w false (.sends write) w none
  /-- The server serves anything else: another client, or the check before a request. -/
  | others {w : CopyWorld} {db' : Db} (h : StoreWrite w.db db') :
      CopyStep viewer projectId w true .others { w with db := db' } none

/-- Pulls, the client's own writes, and what else the server serves. -/
def CopyTask.startsAlone (viewer projectId : Uuid) : CopyTask → Prop
  | .pull | .others => True
  | .sends w => w.projectId = projectId ∧ w.viewer = viewer
  | _ => False

/-- The tasks around a copy, whose steps meet a condition. -/
def copyProgram (viewer projectId : Uuid)
    (condition : CopyWorld → Bool → CopyTask → CopyWorld → Prop) : Program CopyWorld CopyTask where
  start _ task := task.startsAlone viewer projectId
  act w task w' next := ∃ ok, condition w ok task w' ∧ CopyStep viewer projectId w ok task w' next

/-- A pull that runs alone and fails nowhere, if it ends after so many pages, which are fetched at
the times of a clock. -/
def pullAlone (viewer projectId : Uuid) (clock : ℕ → Timestamp) (db : Db) :
    ℕ → ProjectCopy → Option ProjectCopy
  | 0, _ => none
  | n + 1, copy =>
    match ProjectsService.sync db viewer projectId copy.cursor maxProjectSyncPage (clock n) with
    | (.error _, _) => none
    | (.ok res, db') =>
      let copy' := { res.entries.foldl ProjectCopy.apply copy with cursor := res.cursor }
      if res.hasMore then pullAlone viewer projectId clock db' n copy' else some copy'

/-- A value of a secret is stored, and the viewer holds the key of its environment. -/
def SeesValue (db : Db) (viewer projectId secretId environmentId : Uuid) : Prop :=
  HasValue db projectId secretId environmentId ∧
    HoldsEnvironmentKey db projectId environmentId viewer

/-- The viewer keeps the project's key, and that of each environment with a value, but for those
that are deleted. -/
structure KeepsKeys (viewer projectId : Uuid) (db db' : Db) : Prop where
  member : (getAccess db projectId viewer).any (·.member) = true →
    (getAccess db' projectId viewer).any (·.member) = true
  environments : ∀ secretId environmentId, HasValue db projectId secretId environmentId →
    ¬ IsTombstone db' projectId environmentId →
      (HoldsEnvironmentKey db' projectId environmentId viewer ↔
        HoldsEnvironmentKey db projectId environmentId viewer)

/-- An environment was deleted, and a step of the client was done with that. -/
def CopyWorld.Dropped (w : CopyWorld) (projectId environmentId : Uuid) : Prop :=
  ∃ e ∈ entriesOf w.db projectId, e.id = environmentId ∧ e.type = .environment ∧
    e.deleted = true ∧ e.revision ≤ w.applied environmentId

/-- A deleted environment is not written again. -/
def KeepsTombstones (projectId : Uuid) (db db' : Db) : Prop :=
  ∀ e ∈ entriesOf db projectId, e.type = .environment → e.deleted = true →
    ∃ e' ∈ entriesOf db' projectId, e'.id = e.id ∧ e'.revision = e.revision

/-- The viewer's keys stay, a deleted environment is not written again, and an entry that is stored
opens, and is behind no newer one and no deletion of an environment it has a value of. -/
structure Orderly (viewer projectId : Uuid) (w : CopyWorld) (ok : Bool) (task : CopyTask)
    (w' : CopyWorld) : Prop where
  keys : KeepsKeys viewer projectId w.db w'.db
  deleted : KeepsTombstones projectId w.db w'.db
  newest : ∀ entry entries goal, task = .store entry entries goal →
    ok = true ∧ w.applied entry.base.id ≤ entry.base.revision ∧
      ∀ v ∈ entry.values, ¬ w.Dropped projectId v.environmentId

/-- An entry is shown as the server sends it: with the same environments that it has values for. -/
structure CopiedEntry.Agrees (known : CopiedEntry) (entry : ProjectEntry) : Prop where
  revision : known.revision = entry.base.revision
  encryptedMeta : entry.shown = some known.encryptedMeta
  values : ∀ environmentId, (known.values environmentId).isSome = true ↔
    environmentId ∈ entry.values.map SecretValueRecord.environmentId

/-- The copy has the live entries among those that the server sends, and no others. -/
def ProjectCopy.Agrees (copy : ProjectCopy) (entries : List ProjectEntry) : Prop :=
  ∀ type id,
    (∀ known ∈ copy.entries type id, ∃ entry ∈ entries, entry.type = type ∧ entry.base.id = id ∧
      known.Agrees entry) ∧
    ∀ entry ∈ entries, entry.type = type → entry.base.id = id → entry.shown ≠ none →
      (copy.entries type id).isSome = true

end Zvault
