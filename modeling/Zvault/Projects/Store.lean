import Zvault.Db.Schema
import Mathlib.Data.List.Sort

/-!
# The projects store

`apps/api/src/projects/projects.store.ts`: projects, their entries and key
grants. Everything stored is ciphertext or ids. An entry write locks the
project row, so one write is one step here; a write that is refused leaves the
database as it was.
-/

namespace Zvault

open Relational

/-- `MAX_VERSIONS_PER_RECORD`. -/
def maxVersionsPerRecord : ℕ := 20

/-- The fields every wire entry has. -/
structure EntryBase where
  id : Uuid
  projectId : Uuid
  revision : ℕ
  seq : ℕ
  updatedAt : Timestamp
  deriving DecidableEq, Repr

/-- `SecretValueRecord`. -/
structure SecretValueRecord where
  environmentId : Uuid
  encryptedValue : EncryptedBlob
  updatedAt : Timestamp
  deriving DecidableEq, Repr

/-- `ProjectEntry`: an entry as it is sent to one account. -/
inductive ProjectEntry where
  | deleted (base : EntryBase) (type : EntryType)
  | environment (base : EntryBase) (encryptedMeta : EncryptedBlob)
      (encryptedKey : Option EncryptedBlob)
  | folder (base : EntryBase) (encryptedMeta : EncryptedBlob)
  | secret (base : EntryBase) (encryptedMeta : EncryptedBlob) (values : List SecretValueRecord)
  deriving DecidableEq, Repr

/-- The fields common to all kinds of entries. -/
def ProjectEntry.base : ProjectEntry → EntryBase
  | .deleted base _ => base
  | .environment base _ _ => base
  | .folder base _ => base
  | .secret base _ _ => base

/-- The values an entry carries. -/
def ProjectEntry.values : ProjectEntry → List SecretValueRecord
  | .secret _ _ values => values
  | _ => []

/-- `SecretVersion`: an earlier version of a secret as it is sent to one account. -/
structure SecretVersion where
  revision : ℕ
  savedAt : Timestamp
  encryptedMeta : EncryptedBlob
  values : List (Uuid × EncryptedBlob)
  deriving DecidableEq, Repr

/-- An environment a project starts with. -/
structure NewEnvironment where
  id : Uuid
  encryptedMeta : EncryptedBlob
  encryptedKey : EncryptedBlob
  deriving DecidableEq, Repr

/-- `NewProject`. -/
structure NewProject where
  id : Uuid
  ownerId : Uuid
  encryptedMeta : EncryptedBlob
  encryptedKey : EncryptedBlob
  environments : List NewEnvironment
  now : Timestamp
  deriving DecidableEq, Repr

/-- `EntryWrite`. -/
structure EntryWrite where
  projectId : Uuid
  id : Uuid
  type : EntryType
  /-- The write only applies if the entry is currently at this revision (0 = absent). -/
  baseRevision : ℕ
  /-- `none` writes a tombstone. -/
  encryptedMeta : Option EncryptedBlob
  /-- Secrets only: environment id to sealed value, or `none` to clear it. -/
  values : List (Uuid × Option EncryptedBlob)
  /-- Environments only, on create: the environment key wrapped for the writer. -/
  keyGrant : Option (Uuid × EncryptedBlob)
  /-- Upper bound on live entries of this type, checked on create. -/
  limit : ℕ
  /-- The account the result is shaped for. -/
  viewer : Uuid
  now : Timestamp
  deriving DecidableEq, Repr

/-- `EntryWriteResult`. `aborted` is a transaction that fails on a broken constraint. -/
inductive EntryWriteResult where
  | ok (entry : ProjectEntry)
  | conflict (current : ProjectEntry)
  | notFound
  | typeMismatch
  | limit
  | unknownEnvironment
  | aborted
  deriving DecidableEq, Repr

/-- `StoredTrashedSecret`: a deleted secret that still has content to restore. -/
structure StoredTrashedSecret where
  id : Uuid
  revision : ℕ
  deletedAt : Timestamp
  lastVersion : SecretVersion
  deriving DecidableEq, Repr

/-- `ProjectAccess`: what one account holds in one project. -/
structure ProjectAccess where
  ownerId : Uuid
  /-- The account holds the project key. -/
  member : Bool
  /-- Environments whose keys the account holds. -/
  environments : List Uuid
  deriving DecidableEq, Repr

namespace ProjectsStore

/-- `createProject`: creates the project, the owner's key grants and the first
environments. `none` if the id is taken, or a grant or an entry breaks its key. -/
def createProject (db : Db) (p : NewProject) : Option Db :=
  if db.projects.hasKey p.id then none
  else
    let project : ProjectRow :=
      { id := p.id, ownerId := p.ownerId, encryptedMeta := p.encryptedMeta, revision := 1
        seq := p.environments.length, createdAt := p.now, updatedAt := p.now }
    let ownGrant (resourceId : Uuid) (wrappedKey : EncryptedBlob) : KeyGrantRow :=
      { projectId := p.id, resourceId := resourceId, accountId := p.ownerId
        wrappedKey := wrappedKey, box := none }
    let entries := p.environments.mapIdx fun i e =>
      { projectId := p.id, id := e.id, type := .environment, revision := 1, seq := i + 1
        deleted := false, encryptedMeta := some e.encryptedMeta, updatedAt := p.now : EntryRow }
    match db.keyGrants.insertAll (ownGrant p.id p.encryptedKey ::
        p.environments.map fun e => ownGrant e.id e.encryptedKey),
      db.projectEntries.insertAll entries with
    | some keyGrants, some projectEntries =>
      some { db with
        projects := db.projects.insertNew project
        keyGrants := keyGrants
        projectEntries := projectEntries }
    | _, _ => none

/-- `getAccess`. -/
def getAccess (db : Db) (projectId accountId : Uuid) : Option ProjectAccess :=
  match db.projects.find projectId with
  | none => none
  | some project =>
    let ids := (db.keyGrants.select fun g =>
      g.projectId = projectId ∧ g.accountId = accountId).map KeyGrantRow.resourceId
    some
      { ownerId := project.ownerId
        member := projectId ∈ ids
        environments := ids.filter fun id => id ≠ projectId }

/-- `updateProject`: replaces the project's metadata if it is at `baseRevision`. -/
def updateProject (db : Db) (projectId : Uuid) (baseRevision : ℕ) (encryptedMeta : EncryptedBlob)
    (now : Timestamp) : Option Db :=
  if db.projects.rows.any fun p => p.id = projectId ∧ p.revision = baseRevision then
    some { db with
      projects := db.projects.update (fun p => p.id = projectId ∧ p.revision = baseRevision)
        (fun p => { p with
          encryptedMeta := encryptedMeta, revision := baseRevision + 1, updatedAt := now }) }
  else none

/-- `deleteProject`, with the rows that cascade from the project's row. -/
def deleteProject (db : Db) (projectId : Uuid) : Db :=
  let gone := db.environmentAccess.select fun e => e.projectId = projectId
  { db with
    projects := db.projects.delete fun p => p.id = projectId
    keyGrants := db.keyGrants.delete fun g => g.projectId = projectId
    projectEntries := db.projectEntries.delete fun e => e.projectId = projectId
    secretValues := db.secretValues.delete fun v => v.projectId = projectId
    secretVersions := db.secretVersions.delete fun v => v.projectId = projectId
    projectOrgs := db.projectOrgs.delete fun p => p.projectId = projectId
    environmentAccess := db.environmentAccess.delete fun e => e.projectId = projectId
    environmentGrants := db.environmentGrants.delete fun g =>
      gone.any fun e => e.environmentId = g.environmentId }

/-- `toSecretVersion`: a kept version with only the values of `environments`. -/
def toSecretVersion (r : SecretVersionRow) (environments : List Uuid) : SecretVersion where
  revision := r.revision
  savedAt := r.savedAt
  encryptedMeta := r.encryptedMeta
  values := (r.values.filter fun v => v.1 ∈ environments).insertionSort fun a b => a.1 ≤ b.1

/-- `viewerEnvironments`: environments `viewer` holds a key for. -/
def viewerEnvironments (db : Db) (projectId viewer : Uuid) : List Uuid :=
  ((db.keyGrants.select fun g => g.projectId = projectId ∧ g.accountId = viewer).map
    KeyGrantRow.resourceId).filter fun id => id ≠ projectId

/-- One wire record of `hydrateWith`. -/
def wireEntry (keyOf : Uuid → Option EncryptedBlob) (valuesOf : Uuid → List SecretValueRecord)
    (r : EntryRow) : ProjectEntry :=
  let base : EntryBase :=
    { id := r.id, projectId := r.projectId, revision := r.revision, seq := r.seq
      updatedAt := r.updatedAt }
  if r.deleted then .deleted base r.type
  else
    match r.encryptedMeta with
    | none => .deleted base r.type
    | some encryptedMeta =>
      match r.type with
      | .environment => .environment base encryptedMeta (keyOf r.id)
      | .folder => .folder base encryptedMeta
      | .secret => .secret base encryptedMeta (valuesOf r.id)

/-- The values `hydrateWith` puts on a secret: those of `envIds`, ordered by environment,
fetched for all the live secrets among `rows` at once. -/
def valuesOf (db : Db) (projectId : Uuid) (envIds : List Uuid) (rows : List EntryRow)
    (secretId : Uuid) : List SecretValueRecord :=
  let secretIds := (rows.filter fun r => r.type = .secret ∧ r.deleted = false).map EntryRow.id
  let valueRows :=
    if secretIds ≠ [] ∧ envIds ≠ [] then
      (db.secretValues.select fun v =>
        v.projectId = projectId ∧ v.secretId ∈ secretIds ∧ v.environmentId ∈ envIds).insertionSort
          fun a b => a.environmentId ≤ b.environmentId
    else []
  (valueRows.filter fun v => v.secretId = secretId).map fun v =>
    ⟨v.environmentId, v.encryptedValue, v.updatedAt⟩

/-- `hydrateWith`: wire records carrying the environment keys in `keyOf` and only the
values of `envIds`. -/
def hydrateWith (db : Db) (projectId : Uuid) (keyOf : Uuid → Option EncryptedBlob)
    (envIds : List Uuid) (rows : List EntryRow) : List ProjectEntry :=
  rows.map (wireEntry keyOf (valuesOf db projectId envIds rows))

/-- The wrapped key of each resource a viewer holds in a project. -/
def keysOf (db : Db) (projectId viewer resourceId : Uuid) : Option EncryptedBlob :=
  (db.keyGrants.find (projectId, resourceId, viewer)).map KeyGrantRow.wrappedKey

/-- `hydrate`: turns entry rows into wire records for `viewer`. Environments carry the
viewer's wrapped key, secrets only the values of environments the viewer holds a key for. -/
def hydrate (db : Db) (projectId viewer : Uuid) (rows : List EntryRow) : List ProjectEntry :=
  hydrateWith db projectId (keysOf db projectId viewer) (viewerEnvironments db projectId viewer)
    rows

/-- The single record of `hydrate(tx, projectId, viewer, [row])`. -/
def hydrateRow (db : Db) (projectId viewer : Uuid) (row : EntryRow) : ProjectEntry :=
  wireEntry (keysOf db projectId viewer)
    (valuesOf db projectId (viewerEnvironments db projectId viewer) [row]) row

/-- `keepSecretVersion`: keeps a secret's content before a write replaces it. `none` when
the version is kept already. -/
def keepSecretVersion (db : Db) (current : EntryRow) (encryptedMeta : EncryptedBlob) :
    Option Db :=
  let valueRows := db.secretValues.select fun v =>
    v.projectId = current.projectId ∧ v.secretId = current.id
  let version : SecretVersionRow :=
    { projectId := current.projectId, secretId := current.id, revision := current.revision
      encryptedMeta := encryptedMeta
      values := valueRows.map fun v => (v.environmentId, v.encryptedValue)
      savedAt := current.updatedAt }
  match db.secretVersions.insertAll [version] with
  | none => none
  | some secretVersions =>
    some { db with
      secretVersions := secretVersions.delete fun v =>
        v.projectId = current.projectId ∧ v.secretId = current.id ∧
          v.revision + maxVersionsPerRecord ≤ current.revision }

/-- `dropVersionValues`: forgets an environment's old values in every secret version. -/
def dropVersionValues (db : Db) (projectId environmentId : Uuid) : Db :=
  { db with
    secretVersions := db.secretVersions.update (fun v => v.projectId = projectId)
      (fun v => { v with values := v.values.filter fun e => e.1 ≠ environmentId }) }

/-- Why `writeEntry` refuses a write, given the entry it finds. -/
def entryRefusal (db : Db) (w : EntryWrite) (current : Option EntryRow) :
    Option EntryWriteResult :=
  if current.any fun c => c.type ≠ w.type then some .typeMismatch
  else if (current.map EntryRow.revision).getD 0 ≠ w.baseRevision then
    match current with
    | none => some .notFound
    | some c => some (.conflict (hydrateRow db w.projectId w.viewer c))
  -- Deleting a tombstone again changes nothing.
  else if w.encryptedMeta = none ∧ current.any EntryRow.deleted then some .notFound
  else if w.encryptedMeta ≠ none ∧ current.all EntryRow.deleted ∧
      w.limit ≤ (db.projectEntries.select fun e =>
        e.projectId = w.projectId ∧ e.type = w.type ∧ e.deleted = false).length then
    some .limit
  else if w.values ≠ [] ∧ (db.projectEntries.select fun e =>
      e.projectId = w.projectId ∧ e.isLiveEnvironment ∧ e.id ∈ w.values.map Prod.fst).length ≠
        w.values.length then
    some .unknownEnvironment
  else none

/-- The row an accepted write leaves for its entry. -/
def writtenRow (w : EntryWrite) (seq : ℕ) : EntryRow where
  projectId := w.projectId
  id := w.id
  type := w.type
  revision := w.baseRevision + 1
  seq := seq
  deleted := w.encryptedMeta = none
  encryptedMeta := w.encryptedMeta
  updatedAt := w.now

/-- The environment's key and every value sealed with it go with it, and so do its team
grants. -/
def deleteEnvironment (db : Db) (projectId environmentId : Uuid) : Db :=
  let db := { db with
    secretValues := db.secretValues.delete fun v =>
      v.projectId = projectId ∧ v.environmentId = environmentId
    keyGrants := db.keyGrants.delete fun g =>
      g.projectId = projectId ∧ g.resourceId = environmentId }
  let db := dropVersionValues db projectId environmentId
  let gone := db.environmentAccess.select fun e =>
    e.projectId = projectId ∧ e.environmentId = environmentId
  { db with
    environmentAccess := db.environmentAccess.delete fun e =>
      e.projectId = projectId ∧ e.environmentId = environmentId
    environmentGrants := db.environmentGrants.delete fun g =>
      gone.any fun e => e.environmentId = g.environmentId }

/-- Stores or clears one environment's value of a secret. -/
def putValue (projectId secretId : Uuid) (now : Timestamp) (values : Table SecretValueRow.key)
    (v : Uuid × Option EncryptedBlob) : Table SecretValueRow.key :=
  match v.2 with
  | none => values.delete fun r =>
      r.projectId = projectId ∧ r.secretId = secretId ∧ r.environmentId = v.1
  | some encryptedValue =>
    values.upsert ⟨projectId, secretId, v.1, encryptedValue, now⟩
      (fun r => { r with encryptedValue := encryptedValue, updatedAt := now })

/-- What a write does beside the entry's row, by the entry's type. -/
def writeContent (db : Db) (w : EntryWrite) : Db :=
  match w.type, w.encryptedMeta, w.keyGrant with
  | .environment, none, _ => deleteEnvironment db w.projectId w.id
  | .environment, some _, some (accountId, wrappedKey) =>
    { db with
      keyGrants := db.keyGrants.upsert ⟨w.projectId, w.id, accountId, wrappedKey, none⟩
        (fun g => { g with wrappedKey := wrappedKey }) }
  | .environment, some _, none => db
  | .secret, none, _ =>
    { db with
      secretValues := db.secretValues.delete fun v =>
        v.projectId = w.projectId ∧ v.secretId = w.id }
  | .secret, some _, _ =>
    { db with secretValues := w.values.foldl (putValue w.projectId w.id w.now) db.secretValues }
  | .folder, _, _ => db

/-- The kept version of the content a write is about to replace. -/
def keepReplaced (db : Db) (w : EntryWrite) (current : Option EntryRow) : Option Db :=
  match w.type, current with
  | .secret, some c =>
    match c.deleted, c.encryptedMeta with
    | false, some encryptedMeta => keepSecretVersion db c encryptedMeta
    | _, _ => some db
  | _, _ => some db

/-- A project keeps its key when the feed moves on. -/
theorem id_withSeq (seq : ℕ) (p : ProjectRow) : { p with seq := seq }.id = p.id := rfl

/-- The writes of an accepted entry write. -/
def applyEntryWrite (db : Db) (w : EntryWrite) (seq : ℕ) (current : Option EntryRow) :
    Option Db :=
  let db := { db with
    projects := db.projects.update (fun p => p.id = w.projectId) (fun p => { p with seq := seq }) }
  match keepReplaced db w current with
  | none => none
  | some db =>
    let row := writtenRow w seq
    let db := { db with
      projectEntries := db.projectEntries.upsert row
        (fun e => { row with projectId := e.projectId, id := e.id }) }
    some (writeContent db w)

/-- `writeEntry`: one transaction, serialized by the lock on the project row. -/
def writeEntry (db : Db) (w : EntryWrite) : EntryWriteResult × Db :=
  match db.projects.find w.projectId with
  | none => (.notFound, db)
  | some project =>
    let current := db.projectEntries.find (w.projectId, w.id)
    match entryRefusal db w current with
    | some refusal => (refusal, db)
    | none =>
      match applyEntryWrite db w (project.seq + 1) current with
      | none => (.aborted, db)
      | some db' =>
        (.ok (hydrateRow db' w.projectId w.viewer (writtenRow w (project.seq + 1))), db')

/-- `listSecretVersions`: earlier versions of a secret, newest first, with only the
values `viewer` can open. -/
def listSecretVersions (db : Db) (projectId secretId viewer : Uuid) : List SecretVersion :=
  let rows := (db.secretVersions.select fun v =>
    v.projectId = projectId ∧ v.secretId = secretId).insertionSort fun a b => b.revision ≤ a.revision
  rows.map fun r => toSecretVersion r (viewerEnvironments db projectId viewer)

/-- The newest kept version of a secret. -/
def lastVersion (db : Db) (e : EntryRow) : Option SecretVersionRow :=
  ((db.secretVersions.select fun v => v.projectId = e.projectId ∧ v.secretId = e.id).insertionSort
    fun a b => b.revision ≤ a.revision).head?

/-- `listTrash`: secrets deleted at or after `since` that still have versions, newest
first. -/
def listTrash (db : Db) (projectId : Uuid) (since : Timestamp) (viewer : Uuid) :
    List StoredTrashedSecret :=
  let deleted := (db.projectEntries.select fun e =>
    e.projectId = projectId ∧ e.type = .secret ∧ e.deleted ∧ since ≤ e.updatedAt).insertionSort
      fun a b => a.id ≤ b.id
  let rows := deleted.filterMap fun e => (lastVersion db e).map fun v => (e, v)
  (rows.map fun (e, v) =>
    { id := e.id, revision := e.revision, deletedAt := e.updatedAt
      lastVersion := toSecretVersion v (viewerEnvironments db projectId viewer)
      : StoredTrashedSecret }).insertionSort fun a b => b.deletedAt ≤ a.deletedAt

/-- `purgeTrash`: drops the versions of one deleted secret, or of every secret deleted
before `before`. Returns how many secrets were purged. -/
def purgeTrash (db : Db) (projectId : Uuid) (secretId : Option Uuid) (before : Timestamp) :
    ℕ × Db :=
  let deleted := (db.projectEntries.select fun e =>
    (e.projectId = projectId ∧ e.type = .secret ∧ e.deleted) &&
      match secretId with
      | none => decide (e.updatedAt < before)
      | some id => decide (e.id = id)).map EntryRow.id
  let purged := db.secretVersions.select fun v => v.projectId = projectId ∧ v.secretId ∈ deleted
  ((purged.map SecretVersionRow.secretId).dedup.length,
    { db with
      secretVersions := db.secretVersions.delete fun v =>
        v.projectId = projectId ∧ v.secretId ∈ deleted })

/-- `purgeExpired`: drops the versions of every secret, in any project, deleted before
`before`. -/
def purgeExpired (db : Db) (before : Timestamp) : Db :=
  { db with
    secretVersions := db.secretVersions.delete fun v => db.projectEntries.rows.any fun e =>
      e.projectId = v.projectId ∧ e.id = v.secretId ∧ e.deleted ∧ e.updatedAt < before }

/-- The rows of `listChanges`: entries changed after `since`, ordered by `seq`. -/
def changedRows (db : Db) (projectId : Uuid) (since limit : ℕ) : List EntryRow :=
  ((db.projectEntries.select fun e => e.projectId = projectId ∧ since < e.seq).insertionSort
    fun a b => a.seq ≤ b.seq).take limit

/-- `listChanges`: entries changed after `since`, ordered by `seq`, as `viewer` may see
them. -/
def listChanges (db : Db) (projectId viewer : Uuid) (since limit : ℕ) : List ProjectEntry :=
  hydrate db projectId viewer (changedRows db projectId since limit)

/-- `listChangesForToken`: entries changed after `since` as an access token sees them,
environments without keys and only the values of `environmentIds`. -/
def listChangesForToken (db : Db) (projectId : Uuid) (environmentIds : List Uuid)
    (since limit : ℕ) : List ProjectEntry :=
  hydrateWith db projectId (fun _ => none) environmentIds (changedRows db projectId since limit)

end ProjectsStore

end Zvault
