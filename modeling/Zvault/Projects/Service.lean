import Zvault.Access.Facts
import Zvault.Projects.Store

/-!
# The projects service

`apps/api/src/projects/projects.service.ts`: access rules on top of the store.
Every request drops lapsed key grants before it reads, and keeps that even when
it is refused afterwards. An entry write is split where the store's transaction
starts, since other requests can be served in between: the `admit` part is what
runs before it. The activity log is left out.
-/

namespace Zvault

open Relational

/-- `LIMITS`. -/
def entryLimit : EntryType → ℕ
  | .environment => 20
  | .folder => 500
  | .secret => 10000

/-- `MAX_PROJECTS_PER_ACCOUNT`. -/
def maxProjectsPerAccount : ℕ := 200

/-- `TRASH_RETENTION_DAYS` in milliseconds. -/
def trashRetention : ℕ := 30 * 24 * 60 * 60 * 1000

/-- An error of an entry write: a plain one, or the conflict that carries the entry as it
is now. -/
inductive EntryError where
  | api (error : ApiError)
  | conflict (current : ProjectEntry)
  deriving DecidableEq, Repr

/-- `ProjectRecord`. -/
structure ProjectRecord where
  id : Uuid
  revision : ℕ
  encryptedMeta : EncryptedBlob
  encryptedKey : EncryptedBlob
  owner : Bool
  seq : ℕ
  createdAt : Timestamp
  updatedAt : Timestamp
  deriving DecidableEq, Repr

/-- An error of a change to a project: a plain one, or the conflict that carries the project
as it is now. -/
inductive ProjectError where
  | api (error : ApiError)
  | conflict (current : ProjectRecord)
  deriving DecidableEq, Repr

/-- `SyncProjectResponse`. -/
structure SyncProjectResponse where
  entries : List ProjectEntry
  cursor : ℕ
  hasMore : Bool
  deriving DecidableEq, Repr

/-- `UpdateProjectRequest`. -/
structure UpdateProjectRequest where
  baseRevision : ℕ
  encryptedMeta : EncryptedBlob
  deriving DecidableEq, Repr

/-- `CreateProjectRequest`. -/
structure CreateProjectRequest where
  id : Uuid
  encryptedMeta : EncryptedBlob
  encryptedKey : EncryptedBlob
  environments : List NewEnvironment
  deriving DecidableEq, Repr

/-- `PutEnvironmentRequest`. -/
structure PutEnvironmentRequest where
  baseRevision : ℕ
  encryptedMeta : EncryptedBlob
  encryptedKey : Option EncryptedBlob
  deriving DecidableEq, Repr

/-- `PutFolderRequest`. -/
structure PutFolderRequest where
  baseRevision : ℕ
  encryptedMeta : EncryptedBlob
  deriving DecidableEq, Repr

/-- `PutSecretRequest`. -/
structure PutSecretRequest where
  baseRevision : ℕ
  encryptedMeta : EncryptedBlob
  /-- Environment id to sealed value, or `none` to clear it. -/
  values : List (Uuid × Option EncryptedBlob)
  deriving DecidableEq, Repr

/-- A deleted secret as the Trash lists it. -/
structure TrashedSecret where
  id : Uuid
  revision : ℕ
  deletedAt : Timestamp
  purgeAt : Timestamp
  lastVersion : SecretVersion
  deriving DecidableEq, Repr

/-- `trashCutoff`. -/
def trashCutoff (now : Timestamp) : Timestamp := now - trashRetention

/-- `purgeAt`. -/
def purgeAt (deletedAt : Timestamp) : Timestamp := deletedAt + trashRetention

/-- `toRecord`. -/
def toRecord (row : ProjectRow) (wrappedKey : EncryptedBlob) (user : Uuid) : ProjectRecord where
  id := row.id
  revision := row.revision
  encryptedMeta := row.encryptedMeta
  encryptedKey := wrappedKey
  owner := row.ownerId = user
  seq := row.seq
  createdAt := row.createdAt
  updatedAt := row.updatedAt

namespace ProjectsService

/-- `access`: non-members get 404, so project ids can't be probed. -/
def access (db : Db) (user projectId : Uuid) (now : Timestamp) : Served ProjectAccess :=
  let db := ProjectPolicy.beforeAccess db projectId now
  match ProjectsStore.getAccess db projectId user with
  | none => (.error (.notFound "Not Found"), db)
  | some access =>
    if access.member then (.ok access, db) else (.error (.notFound "Not Found"), db)

/-- `get`, with the join of the store's `getProject`. -/
def get (db : Db) (user projectId : Uuid) (now : Timestamp) : Served ProjectRecord :=
  let db := ProjectPolicy.beforeAccess db projectId now
  match db.projects.find projectId,
    db.keyGrants.rows.find? fun g => g.resourceId = projectId ∧ g.accountId = user with
  | some row, some g => (.ok (toRecord row g.wrappedKey user), db)
  | _, _ => (.error (.notFound "Not Found"), db)

/-- Why `create` refuses a request. -/
def createRefusal (db : Db) (user : Uuid) (req : CreateProjectRequest) : Option ApiError :=
  let envIds := (req.environments.map NewEnvironment.id).dedup
  let bound : Bool := req.encryptedKey.kid = .account ∧ req.encryptedMeta.kid = .record req.id ∧
    req.environments.all fun e => e.encryptedKey.kid = .account ∧ e.encryptedMeta.kid = .record e.id
  if !bound then some (.badRequest "key_mismatch")
  else if envIds.length ≠ req.environments.length ∨ req.id ∈ envIds then
    some (.badRequest "duplicate_id")
  else if maxProjectsPerAccount ≤ (db.projects.select fun p => p.ownerId = user).length then
    some (.badRequest "limit_reached")
  else none

/-- `create`. -/
def create (db : Db) (user : Uuid) (req : CreateProjectRequest) (now : Timestamp) :
    Served ProjectRecord :=
  match createRefusal db user req with
  | some e => (.error e, db)
  | none =>
    match ProjectsStore.createProject db
        ⟨req.id, user, req.encryptedMeta, req.encryptedKey, req.environments, now⟩ with
    | none => (.error (.conflict "project_exists"), db)
    | some db => get db user req.id now

/-- `get`, as the answer to a change. -/
def getChanged (db : Db) (user projectId : Uuid) (now : Timestamp) :
    Except ProjectError ProjectRecord × Db :=
  match get db user projectId now with
  | (.error e, db) => (.error (.api e), db)
  | (.ok record, db) => (.ok record, db)

/-- `update`. -/
def update (db : Db) (user projectId : Uuid) (req : UpdateProjectRequest) (now : Timestamp) :
    Except ProjectError ProjectRecord × Db :=
  match access db user projectId now with
  | (.error e, db) => (.error (.api e), db)
  | (.ok access, db) =>
    match ProjectPolicy.assertStructure db projectId user access.ownerId with
    | .error e => (.error (.api e), db)
    | .ok () =>
      if req.encryptedMeta.kid ≠ .record projectId then
        (.error (.api (.badRequest "key_mismatch")), db)
      else
        match ProjectsStore.updateProject db projectId req.baseRevision req.encryptedMeta now with
        | some db => getChanged db user projectId now
        | none =>
          match get db user projectId now with
          | (.error e, db) => (.error (.api e), db)
          | (.ok current, db) => (.error (.conflict current), db)

/-- `remove`: deleting a whole project stays with its owner, even in an org. -/
def remove (db : Db) (user projectId : Uuid) (now : Timestamp) : Served Unit :=
  match access db user projectId now with
  | (.error e, db) => (.error e, db)
  | (.ok access, db) =>
    if access.ownerId ≠ user then (.error (.forbidden "owner_only"), db)
    else (.ok (), ProjectsStore.deleteProject db projectId)

/-- `sync`: one page of the change feed. It fetches one extra to learn whether another
page follows. -/
def sync (db : Db) (user projectId : Uuid) (since limit : ℕ) (now : Timestamp) :
    Served SyncProjectResponse :=
  match access db user projectId now with
  | (.error e, db) => (.error e, db)
  | (.ok _, db) =>
    let changes := ProjectsStore.listChanges db projectId user since (limit + 1)
    let entries := changes.take limit
    let cursor :=
      match entries.getLast? with
      | some e => e.base.seq
      | none => since
    (.ok ⟨entries, cursor, limit < changes.length⟩, db)

/-- The store write of a request, with the service's own arguments filled in. -/
def entryWrite (user projectId id : Uuid) (type : EntryType) (baseRevision : ℕ)
    (encryptedMeta : Option EncryptedBlob) (values : List (Uuid × Option EncryptedBlob))
    (keyGrant : Option (Uuid × EncryptedBlob)) (now : Timestamp) : EntryWrite :=
  { projectId, id, type, baseRevision, encryptedMeta, values, keyGrant, now
    limit := entryLimit type, viewer := user }

/-- `write`: hands an admitted write to the store. -/
def write (db : Db) (w : EntryWrite) : Except EntryError ProjectEntry × Db :=
  match ProjectsStore.writeEntry db w with
  | (.ok entry, db) => (.ok entry, db)
  | (.conflict current, db) => (.error (.conflict current), db)
  | (.notFound, db) => (.error (.api (.notFound "Not Found")), db)
  | (.typeMismatch, db) => (.error (.api (.conflict "type_mismatch")), db)
  | (.limit, db) => (.error (.api (.badRequest "limit_reached")), db)
  | (.unknownEnvironment, db) => (.error (.api (.badRequest "unknown_environment")), db)
  | (.aborted, db) => (.error (.api .internal), db)

/-- Runs the checks of an entry write, then the write. -/
def serveWrite (admitted : Served EntryWrite) : Except EntryError ProjectEntry × Db :=
  match admitted with
  | (.error e, db) => (.error (.api e), db)
  | (.ok w, db) => write db w

/-- `putEnvironment` up to the write. -/
def admitEnvironment (db : Db) (user projectId id : Uuid) (req : PutEnvironmentRequest)
    (now : Timestamp) : Served EntryWrite :=
  match access db user projectId now with
  | (.error e, db) => (.error e, db)
  | (.ok access, db) =>
    match ProjectPolicy.assertStructure db projectId user access.ownerId with
    | .error e => (.error e, db)
    | .ok () =>
      if req.encryptedMeta.kid ≠ .record id ∨ req.encryptedKey.any (fun k => k.kid ≠ .account) then
        (.error (.badRequest "key_mismatch"), db)
      else if req.baseRevision = 0 ∧ req.encryptedKey = none then
        (.error (.badRequest "key_required"), db)
      else
        -- The key is fixed once the environment exists; values are sealed with it.
        let keyGrant := if req.baseRevision = 0 then req.encryptedKey.map (user, ·) else none
        (.ok (entryWrite user projectId id .environment req.baseRevision (some req.encryptedMeta) []
          keyGrant now), db)

/-- `putEnvironment`. -/
def putEnvironment (db : Db) (user projectId id : Uuid) (req : PutEnvironmentRequest)
    (now : Timestamp) : Except EntryError ProjectEntry × Db :=
  serveWrite (admitEnvironment db user projectId id req now)

/-- `putFolder` up to the write. -/
def admitFolder (db : Db) (user projectId id : Uuid) (req : PutFolderRequest) (now : Timestamp) :
    Served EntryWrite :=
  match access db user projectId now with
  | (.error e, db) => (.error e, db)
  | (.ok access, db) =>
    match ProjectPolicy.assertStructure db projectId user access.ownerId with
    | .error e => (.error e, db)
    | .ok () =>
      if req.encryptedMeta.kid ≠ .record id then (.error (.badRequest "key_mismatch"), db)
      else
        (.ok (entryWrite user projectId id .folder req.baseRevision (some req.encryptedMeta) [] none
          now), db)

/-- `putFolder`. -/
def putFolder (db : Db) (user projectId id : Uuid) (req : PutFolderRequest) (now : Timestamp) :
    Except EntryError ProjectEntry × Db :=
  serveWrite (admitFolder db user projectId id req now)

/-- The checks `putSecret` makes on each value: it is bound to its environment, whose key
the writer holds. -/
def valuesRefusal (access : ProjectAccess) :
    List (Uuid × Option EncryptedBlob) → Option ApiError
  | [] => none
  | (environmentId, value) :: values =>
    if value.any fun v => v.kid ≠ .record environmentId then some (.badRequest "key_mismatch")
    else if environmentId ∉ access.environments then some (.forbidden "no_access")
    else valuesRefusal access values

/-- `putSecret` up to the write. -/
def admitSecret (db : Db) (user projectId id : Uuid) (req : PutSecretRequest) (now : Timestamp) :
    Served EntryWrite :=
  match access db user projectId now with
  | (.error e, db) => (.error e, db)
  | (.ok access, db) =>
    if req.encryptedMeta.kid ≠ .record id then (.error (.badRequest "key_mismatch"), db)
    else
      match valuesRefusal access req.values with
      | some e => (.error e, db)
      | none =>
        match ProjectPolicy.assertSecretWrite db projectId user (req.values.map Prod.fst) now with
        | (.error e, db) => (.error e, db)
        | (.ok (), db) =>
          (.ok (entryWrite user projectId id .secret req.baseRevision (some req.encryptedMeta)
            req.values none now), db)

/-- `putSecret`. -/
def putSecret (db : Db) (user projectId id : Uuid) (req : PutSecretRequest) (now : Timestamp) :
    Except EntryError ProjectEntry × Db :=
  serveWrite (admitSecret db user projectId id req now)

/-- `deleteEntry` up to the write. -/
def admitDelete (db : Db) (user projectId : Uuid) (type : EntryType) (id : Uuid)
    (baseRevision : ℕ) (now : Timestamp) : Served EntryWrite :=
  match access db user projectId now with
  | (.error e, db) => (.error e, db)
  | (.ok access, db) =>
    let asserted : Served Unit :=
      if type ≠ .secret then
        (ProjectPolicy.assertStructure db projectId user access.ownerId, db)
      else ProjectPolicy.assertSecretWrite db projectId user [] now
    match asserted with
    | (.error e, db) => (.error e, db)
    | (.ok (), db) => (.ok (entryWrite user projectId id type baseRevision none [] none now), db)

/-- `deleteEntry`. -/
def deleteEntry (db : Db) (user projectId : Uuid) (type : EntryType) (id : Uuid)
    (baseRevision : ℕ) (now : Timestamp) : Except EntryError ProjectEntry × Db :=
  serveWrite (admitDelete db user projectId type id baseRevision now)

/-- `secretHistory`. -/
def secretHistory (db : Db) (user projectId secretId : Uuid) (now : Timestamp) :
    Served (List SecretVersion) :=
  match access db user projectId now with
  | (.error e, db) => (.error e, db)
  | (.ok _, db) => (.ok (ProjectsStore.listSecretVersions db projectId secretId user), db)

/-- `trash`. -/
def trash (db : Db) (user projectId : Uuid) (now : Timestamp) : Served (List TrashedSecret) :=
  match access db user projectId now with
  | (.error e, db) => (.error e, db)
  | (.ok _, db) =>
    let trashed := ProjectsStore.listTrash db projectId (trashCutoff now) user
    (.ok (trashed.map fun t => ⟨t.id, t.revision, t.deletedAt, purgeAt t.deletedAt, t.lastVersion⟩),
      db)

/-- `purge`: deletes one trashed secret for good, or empties the trash. -/
def purge (db : Db) (user projectId : Uuid) (secretId : Option Uuid) (now : Timestamp) :
    Served Unit :=
  match access db user projectId now with
  | (.error e, db) => (.error e, db)
  | (.ok _, db) =>
    match ProjectPolicy.assertSecretWrite db projectId user [] now with
    | (.error e, db) => (.error e, db)
    | (.ok (), db) =>
      let (purged, db) := ProjectsStore.purgeTrash db projectId secretId now
      if secretId ≠ none ∧ purged = 0 then (.error (.notFound "Not Found"), db) else (.ok (), db)

end ProjectsService

end Zvault
