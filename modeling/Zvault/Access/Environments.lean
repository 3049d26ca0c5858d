import Zvault.Access.Facts
import Zvault.Projects.Store

/-!
# The environments service

`apps/api/src/access/environments.service.ts`: who can reach each environment of
a shared project, and the member-wrapped copies of its keys. `rotate` and
`addEnvironmentWraps` are split where their write starts: the checks run on one
state, and other requests can be served before the write. The activity log and
the names it needs are left out.
-/

namespace Zvault

open Relational

/-- `MemberKeyWrap`: a key wrapped for one recipient on a manager's device. -/
structure MemberKeyWrap where
  recipientId : Uuid
  recipientPublicKey : PublicKey
  wrapperPublicKey : PublicKey
  ephemeralPublicKey : PublicKey
  blob : EncryptedBlob
  deriving DecidableEq, Repr

/-- `PrincipalRef`. -/
structure PrincipalRef where
  type : PrincipalType
  id : Uuid
  deriving DecidableEq, Repr

/-- `PutGrantRequest`. -/
structure PutGrantRequest where
  principal : PrincipalRef
  level : AccessLevel
  expiresAt : Option Timestamp
  deriving DecidableEq, Repr

/-- `Grant`. -/
structure Grant where
  principal : PrincipalRef
  level : AccessLevel
  expiresAt : Option Timestamp
  grantedBy : Uuid
  createdAt : Timestamp
  deriving DecidableEq, Repr

/-- `PendingWrap`: a member with access and no grant of a key yet. -/
structure PendingWrap where
  accountId : Uuid
  publicKey : PublicKey
  deriving DecidableEq, Repr

/-- `AddEnvironmentWrapsRequest`. -/
structure AddEnvironmentWrapsRequest where
  keyVersion : ℕ
  wraps : List MemberKeyWrap
  deriving DecidableEq, Repr

/-- `AddProjectWrapsRequest`. -/
structure AddProjectWrapsRequest where
  wraps : List MemberKeyWrap
  deriving DecidableEq, Repr

/-- One re-sealed value of a rotation. -/
structure ResealedValue where
  secretId : Uuid
  encryptedValue : EncryptedBlob
  deriving DecidableEq, Repr

/-- `RotateEnvironmentKeyRequest`: moves an environment to a new key, `fromVersion + 1`. -/
structure RotateEnvironmentKeyRequest where
  fromVersion : ℕ
  wraps : List MemberKeyWrap
  values : List ResealedValue
  deriving DecidableEq, Repr

/-- `EnvironmentAccess`. -/
structure EnvironmentAccess where
  environmentId : Uuid
  projectId : Uuid
  orgId : Uuid
  keyVersion : ℕ
  rotationRequired : Bool
  myLevel : AccessLevel
  grants : List Grant
  pendingWraps : List PendingWrap
  deriving DecidableEq, Repr

/-- `StoredMemberWrap`: a member wrap as stored, for the recipient to unwrap. -/
structure StoredMemberWrap where
  recipientId : Uuid
  recipientPublicKey : PublicKey
  wrapperPublicKey : PublicKey
  ephemeralPublicKey : PublicKey
  blob : EncryptedBlob
  keyVersion : Option ℕ
  wrappedBy : Uuid
  deriving DecidableEq, Repr

/-- One environment of `MyProjectKeysResponse`. -/
structure MyEnvironmentKey where
  environmentId : Uuid
  keyVersion : ℕ
  level : AccessLevel
  wrap : Option StoredMemberWrap
  deriving DecidableEq, Repr

/-- `MyProjectKeysResponse`: the caller's member wraps in one project. -/
structure MyProjectKeysResponse where
  projectId : Uuid
  projectKey : Option StoredMemberWrap
  environments : List MyEnvironmentKey
  deriving DecidableEq, Repr

/-- `toGrant`. -/
def toGrant (g : EnvironmentGrantRow) : Grant where
  principal := ⟨g.principalType, g.principalId⟩
  level := g.level
  expiresAt := g.expiresAt
  grantedBy := g.grantedBy
  createdAt := g.createdAt

/-- The word for a principal type in an error text. -/
def PrincipalType.word : PrincipalType → String
  | .account => "account"
  | .group => "group"
  | .agent => "agent"

/-- What `visible` returns beside the time: the environment and the caller's membership. -/
structure Visible where
  env : Env
  me : OrgMemberRow
  deriving DecidableEq, Repr

namespace EnvironmentsService

open AccessFacts

/-- `visibleProject`: the linked project the caller can see, reconciled against expiry. -/
def visibleProject (db : Db) (accountId projectId : Uuid) (now : Timestamp) :
    Served (LinkedProject × OrgMemberRow) :=
  match linkedProject db projectId with
  | none => (.error (.notFound "Not Found"), db)
  | some project =>
    match member db project.orgId accountId true with
    | .error e => (.error e, db)
    | .ok me => (.ok (project, me), reconcileProject db projectId now)

/-- `linkProject`: shares a project with an org. Only the project's owner, an active
member, can. It answers with the access matrix, which reads through `visibleProject`. -/
def linkProject (db : Db) (accountId projectId orgId : Uuid) (now : Timestamp) : Served Unit :=
  match db.projects.find projectId with
  | none => (.error (.notFound "Not Found"), db)
  | some row =>
    if row.ownerId ≠ accountId then (.error (.notFound "Not Found"), db)
    else
      match member db orgId accountId true with
      | .error e => (.error e, db)
      | .ok _ =>
        match db.projectOrgs.insertAll [⟨projectId, orgId, accountId⟩] with
        | none => (.error (.conflict "Already shared with an organization"), db)
        | some projectOrgs =>
          match visibleProject { db with projectOrgs := projectOrgs } accountId projectId now with
          | (.error e, db) => (.error e, db)
          | (.ok (project, _), db) => (.ok (), (register db project now).2)

/-- `canWrapProjectKey`: can hand out the project key. Whoever can holds it and is the
owner, an admin, or a manager somewhere. -/
def canWrapProjectKey (db : Db) (project : LinkedProject) (accountId : Uuid) (role : OrgRole)
    (now : Timestamp) : Bool × Db :=
  if !db.keyGrants.hasKey (project.projectId, project.projectId, accountId) then (false, db)
  else if project.ownerId = accountId ∨ role ∈ adminRoles then (true, db)
  else
    let (levels, db) := projectLevels db project now
    (levels.byEnv.any fun env => levelOr env.2 (.account accountId) = .manage, db)

/-- `visible`: loads an environment the caller can see (any active member of its org). -/
def visible (db : Db) (accountId environmentId : Uuid) (now : Timestamp) : Served Visible :=
  match environment db environmentId now with
  | (.error e, db) => (.error e, db)
  | (.ok env₀, db) =>
    match member db env₀.orgId accountId true with
    | .error e => (.error e, db)
    | .ok me =>
      match environment (reconcileProject db env₀.projectId now) environmentId now with
      | (.error e, db) => (.error e, db)
      | (.ok env, db) => (.ok ⟨env, me⟩, db)

/-- The accounts that hold a grant of one key. -/
def heldBy (db : Db) (projectId resourceId : Uuid) : List Uuid :=
  (db.keyGrants.select fun g => g.projectId = projectId ∧ g.resourceId = resourceId).map
    KeyGrantRow.accountId

/-- `pending`: members with standing access and no grant of the environment key. -/
def pending (db : Db) (env : Env) (now : Timestamp) : List PendingWrap :=
  let facts := org db env.orgId (some env.ownerId)
  let held := heldBy db env.projectId env.environmentId
  (allLevels (grants db env.environmentId) facts now).filterMap fun (holder, level) =>
    if holder.type ≠ .account ∨ !holdsKey level then none
    else
      match facts.keys holder with
      | none => none
      | some publicKey => if holder.id ∈ held then none else some ⟨holder.id, publicKey⟩

/-- `detail`. -/
def detail (db : Db) (accountId environmentId : Uuid) (now : Timestamp) :
    Served EnvironmentAccess :=
  match visible db accountId environmentId now with
  | (.error e, db) => (.error e, db)
  | (.ok ⟨env, _⟩, db) =>
    let grantRows := db.environmentGrants.select fun g => g.environmentId = environmentId
    let myLevel := levelOf db env (.account accountId) now
    (.ok
      { environmentId := env.environmentId
        projectId := env.projectId
        orgId := env.orgId
        keyVersion := env.keyVersion
        rotationRequired := env.rotationRequiredAt.isSome
        myLevel := myLevel
        grants := grantRows.map toGrant
        pendingWraps := if levelAtLeast myLevel .manage then pending db env now else [] }, db)

/-- `requireGrantManager`: managers of the environment, or org owners and admins, can
change grants. -/
def requireGrantManager (db : Db) (accountId environmentId : Uuid) (now : Timestamp) :
    Served Env :=
  match visible db accountId environmentId now with
  | (.error e, db) => (.error e, db)
  | (.ok ⟨env, me⟩, db) =>
    if me.role ∉ adminRoles ∧ !levelAtLeast (levelOf db env (.account accountId) now) .manage then
      (.error (.forbidden "You cannot manage access here"), db)
    else (.ok env, db)

/-- `principalInOrg`. -/
def principalInOrg (db : Db) (orgId : Uuid) (p : PrincipalRef) : Except ApiError Unit :=
  let found : Bool :=
    match p.type with
    | .group => db.orgGroups.rows.any fun g => g.id = p.id ∧ g.orgId = orgId
    | .agent => db.agents.rows.any fun a => a.id = p.id ∧ a.orgId = orgId
    | .account => db.orgMembers.rows.any fun m => m.accountId = p.id ∧ m.orgId = orgId
  if found then .ok ()
  else .error (.notFound s!"No such {p.type.word} in this organization")

/-- What `putGrant` checks in a request besides who sends it and whom it is for. -/
def grantRefusal (req : PutGrantRequest) (now : Timestamp) : Option ApiError :=
  if req.principal.type = .group ∧ req.level = .none then
    some (.unprocessable "Remove the group’s grant instead")
  else if req.principal.type = .agent ∧ holdsKey req.level then
    some (.unprocessable "Agents ask each time: give them Needs approval or No access")
  else if req.expiresAt.any fun t => t ≤ now then
    some (.unprocessable "The end date must be in the future")
  else none

/-- `putGrant`. -/
def putGrant (db : Db) (accountId environmentId : Uuid) (req : PutGrantRequest)
    (now : Timestamp) : Served Grant :=
  match requireGrantManager db accountId environmentId now with
  | (.error e, db) => (.error e, db)
  | (.ok env, db) =>
    match principalInOrg db env.orgId req.principal with
    | .error e => (.error e, db)
    | .ok () =>
      match grantRefusal req now with
      | some e => (.error e, db)
      | none =>
        let row : EnvironmentGrantRow :=
          ⟨environmentId, req.principal.type, req.principal.id, req.level, req.expiresAt, accountId,
            now⟩
        let db := { db with
          environmentGrants := db.environmentGrants.upsert row (fun g => { g with
            level := row.level, expiresAt := req.expiresAt, grantedBy := accountId
            createdAt := now }) }
        (.ok (toGrant row), reconcileProject db env.projectId now)

/-- `deleteGrant`. -/
def deleteGrant (db : Db) (accountId environmentId : Uuid) (principal : PrincipalRef)
    (now : Timestamp) : Served Unit :=
  match requireGrantManager db accountId environmentId now with
  | (.error e, db) => (.error e, db)
  | (.ok env, db) =>
    if !db.environmentGrants.hasKey (environmentId, principal.type, principal.id) then
      (.error (.notFound "Not Found"), db)
    else
      let db := { db with
        environmentGrants := db.environmentGrants.delete fun g =>
          g.environmentId = environmentId ∧ g.principalType = principal.type ∧
            g.principalId = principal.id }
      (.ok (), reconcileProject db env.projectId now)

/-- `toStored`. -/
def toStored (accountId : Uuid) (wrappedKey : EncryptedBlob) (box : MemberWrapBox) :
    StoredMemberWrap where
  recipientId := accountId
  recipientPublicKey := box.recipientPublicKey
  wrapperPublicKey := box.wrapperPublicKey
  ephemeralPublicKey := box.ephemeralPublicKey
  blob := wrappedKey
  keyVersion := box.keyVersion
  wrappedBy := box.wrappedBy

/-- The member wrap of one key, `null` for a grant wrapped with the account key. -/
def wrapOf (db : Db) (projectId accountId resourceId : Uuid) : Option StoredMemberWrap :=
  match db.keyGrants.find (projectId, resourceId, accountId) with
  | none => none
  | some g => g.box.map (toStored accountId g.wrappedKey)

/-- `myKeys`: the caller's member wraps and levels across a project. -/
def myKeys (db : Db) (accountId projectId : Uuid) (now : Timestamp) :
    Served MyProjectKeysResponse :=
  match visibleProject db accountId projectId now with
  | (.error e, db) => (.error e, db)
  | (.ok (project, _), db) =>
    let (levels, db) := projectLevels db project now
    (.ok
      { projectId := projectId
        projectKey := wrapOf db projectId accountId projectId
        environments := levels.envs.map fun e =>
          { environmentId := e.environmentId
            keyVersion := e.keyVersion
            level := ((levels.get e.environmentId).map
              fun l => levelOr l (.account accountId)).getD .none
            wrap := wrapOf db projectId accountId e.environmentId } }, db)

/-- `checkWraps`: checks wraps against the keys on file. `seen` are the recipients of the
wraps checked before, `allowed` is who may receive this key. -/
def checkWraps (wrapperKey : Option PublicKey) (keys : Holder → Option PublicKey)
    (allowed : Uuid → Bool) (seen : List Uuid) : List MemberKeyWrap → Option ApiError
  | [] => none
  | w :: wraps =>
    if w.recipientId ∈ seen then some (.unprocessable "Duplicate recipient")
    else if !allowed w.recipientId then
      some (.unprocessable s!"{w.recipientId} has no access to this key")
    else if keys (.account w.recipientId) ≠ some w.recipientPublicKey then
      some (.conflict s!"The key on file for {w.recipientId} changed; fetch it again")
    else if some w.wrapperPublicKey ≠ wrapperKey then
      some (.conflict "Your sharing key does not match the one on file")
    else checkWraps wrapperKey keys allowed (w.recipientId :: seen) wraps

/-- `grantRow`. -/
def grantRow (projectId resourceId : Uuid) (keyVersion : Option ℕ) (wrappedBy : Uuid)
    (w : MemberKeyWrap) : KeyGrantRow where
  projectId := projectId
  resourceId := resourceId
  accountId := w.recipientId
  wrappedKey := w.blob
  box := some ⟨w.recipientPublicKey, w.wrapperPublicKey, w.ephemeralPublicKey, keyVersion, wrappedBy⟩

/-- Stores wraps with `on conflict do nothing`. The rows need their project. -/
def insertWraps (db : Db) (projectId resourceId : Uuid) (keyVersion : Option ℕ) (wrappedBy : Uuid)
    (wraps : List MemberKeyWrap) : Served Unit :=
  if db.projects.hasKey projectId then
    (.ok (), { db with
      keyGrants := db.keyGrants.insertNewAll
        (wraps.map (grantRow projectId resourceId keyVersion wrappedBy)) })
  else (.error .internal, db)

/-- `addEnvironmentWraps` up to the insert: the environment whose current key the wraps
hold. -/
def admitEnvironmentWraps (db : Db) (accountId environmentId : Uuid)
    (req : AddEnvironmentWrapsRequest) (now : Timestamp) : Served Env :=
  match visible db accountId environmentId now with
  | (.error e, db) => (.error e, db)
  | (.ok ⟨env, me⟩, db) =>
    let facts := org db env.orgId (some env.ownerId)
    if !levelAtLeast (levelOf db env (.account accountId) now) .manage then
      (.error (.forbidden "Only managers can hand out the key"), db)
    else if req.keyVersion ≠ env.keyVersion then
      (.error (.conflict "The environment key was rotated; wrap the current version"), db)
    else
      let levels := allLevels (grants db environmentId) facts now
      match checkWraps me.publicKey facts.keys (fun id => holdsKey (levelOr levels (.account id)))
          [] req.wraps with
      | some e => (.error e, db)
      | none => (.ok env, db)

/-- `addEnvironmentWraps`: managers hand the environment's current key to members who
don't have it. -/
def addEnvironmentWraps (db : Db) (accountId environmentId : Uuid)
    (req : AddEnvironmentWrapsRequest) (now : Timestamp) : Served Unit :=
  match admitEnvironmentWraps db accountId environmentId req now with
  | (.error e, db) => (.error e, db)
  | (.ok env, db) =>
    insertWraps db env.projectId environmentId (some env.keyVersion) accountId req.wraps

/-- `addProjectWraps`: hands the project key to members who need it. -/
def addProjectWraps (db : Db) (accountId projectId : Uuid) (req : AddProjectWrapsRequest)
    (now : Timestamp) : Served Unit :=
  match visibleProject db accountId projectId now with
  | (.error e, db) => (.error e, db)
  | (.ok (project, me), db) =>
    match canWrapProjectKey db project accountId me.role now with
    | (false, db) => (.error (.forbidden "You cannot hand out this project’s key"), db)
    | (true, db) =>
      let (holders, db) := projectKeyHolders db project now
      match checkWraps me.publicKey (org db project.orgId (some project.ownerId)).keys
          (fun id => id ∈ holders) [] req.wraps with
      | some e => (.error e, db)
      | none => insertWraps db projectId projectId none accountId req.wraps

/-- The accounts a rotation must wrap the new key for: standing access and a published
key. -/
def rotationHolders (db : Db) (env : Env) (now : Timestamp) : List Uuid :=
  let facts := org db env.orgId (some env.ownerId)
  ((allLevels (grants db env.environmentId) facts now).filter fun (holder, level) =>
    holder.type = .account ∧ holdsKey level ∧ (facts.keys holder).isSome).map fun l => l.1.id

/-- Why `rotate` refuses a request before its transaction starts. -/
def rotateRefusal (db : Db) (accountId environmentId : Uuid) (req : RotateEnvironmentKeyRequest)
    (v : Visible) (now : Timestamp) : Option ApiError :=
  let holders := rotationHolders db v.env now
  let missing := holders.filter fun id => !req.wraps.any fun w => w.recipientId = id
  let names := String.intercalate ", " (missing.map toString)
  if !levelAtLeast (levelOf db v.env (.account accountId) now) .manage then
    some (.forbidden "Only managers can rotate the key")
  else if req.fromVersion ≠ v.env.keyVersion then
    some (.conflict "Someone else rotated this environment first")
  else
    match checkWraps v.me.publicKey (org db v.env.orgId (some v.env.ownerId)).keys
        (fun id => id ∈ holders) [] req.wraps with
    | some e => some e
    | none =>
      if missing ≠ [] then
        some (.unprocessable s!"Wrap the new key for everyone with access: {names}")
      else if req.values.any fun r => r.encryptedValue.kid ≠ .record environmentId then
        some (.unprocessable "Values must be sealed with this environment’s key")
      else none

/-- `rotate` up to its transaction: the environment at the version it rotates from. -/
def admitRotation (db : Db) (accountId environmentId : Uuid) (req : RotateEnvironmentKeyRequest)
    (now : Timestamp) : Served Env :=
  match visible db accountId environmentId now with
  | (.error e, db) => (.error e, db)
  | (.ok v, db) =>
    match rotateRefusal db accountId environmentId req v now with
    | some e => (.error e, db)
    | none => (.ok v.env, db)

/-- The values sent are exactly those stored for the environment, each once. -/
def sameValues (db : Db) (env : Env) (values : List ResealedValue) : Bool :=
  let want := ((db.secretValues.select fun v =>
    v.projectId = env.projectId ∧ v.environmentId = env.environmentId).map
      SecretValueRow.secretId).dedup
  let got := (values.map ResealedValue.secretId).dedup
  want.length = got.length ∧ want.all (fun id => id ∈ got) ∧ got.length = values.length

/-- Replaces one value of the environment. -/
def resealValue (env : Env) (now : Timestamp) (values : Table SecretValueRow.key)
    (v : ResealedValue) : Table SecretValueRow.key :=
  values.update
    (fun r => r.projectId = env.projectId ∧ r.secretId = v.secretId ∧
      r.environmentId = env.environmentId)
    (fun r => { r with encryptedValue := v.encryptedValue, updatedAt := now })

/-- Moves one entry to the end of the change feed, with the entries and the counter so far. -/
def touch (projectId : Uuid) (now : Timestamp) (s : Table EntryRow.key × ℕ) (id : Uuid) :
    Table EntryRow.key × ℕ :=
  (s.1.update (fun e => e.projectId = projectId ∧ e.id = id)
    (fun e => { e with seq := s.2 + 1, updatedAt := now }), s.2 + 1)

/-- The writes of an accepted rotation: the key version, the grants, the kept versions,
the values, and the feed. `none` when a recipient has a grant already. -/
def replaceKey (db : Db) (env : Env) (seq : ℕ) (accountId : Uuid)
    (req : RotateEnvironmentKeyRequest) (now : Timestamp) : Option Db :=
  let next := env.keyVersion + 1
  match (db.keyGrants.delete fun g =>
      g.projectId = env.projectId ∧ g.resourceId = env.environmentId).insertAll
        (req.wraps.map (grantRow env.projectId env.environmentId (some next) accountId)) with
  | none => none
  | some keyGrants =>
    -- Old values in secret history were sealed with the retired key.
    let db := ProjectsStore.dropVersionValues
      { db with
        environmentAccess := db.environmentAccess.update
          (fun r => r.environmentId = env.environmentId ∧ r.keyVersion = env.keyVersion)
          (fun r => { r with keyVersion := next, rotationRequiredAt := none })
        keyGrants := keyGrants } env.projectId env.environmentId
    -- Move the environment and its secrets to the end of the change feed.
    let touched := env.environmentId :: req.values.map ResealedValue.secretId
    let (projectEntries, seq) := touched.foldl (touch env.projectId now) (db.projectEntries, seq)
    some { db with
      secretValues := req.values.foldl (resealValue env now) db.secretValues
      projectEntries := projectEntries
      projects := db.projects.update (fun p => p.id = env.projectId)
        (fun p => { p with seq := seq }) (ProjectsStore.id_withSeq seq) }

/-- The transaction of `rotate`. -/
def rotateTx (db : Db) (env : Env) (accountId : Uuid) (req : RotateEnvironmentKeyRequest)
    (now : Timestamp) : Served Unit :=
  if !sameValues db env req.values then
    (.error (.conflict "Re-seal exactly the environment’s current values; sync and retry"), db)
  else if !db.environmentAccess.rows.any fun r =>
      r.environmentId = env.environmentId ∧ r.keyVersion = env.keyVersion then
    (.error (.conflict "Someone else rotated this environment first"), db)
  else
    match db.projects.find env.projectId with
    | none => (.error .internal, db)
    | some project =>
      match replaceKey db env project.seq accountId req now with
      | none => (.error .internal, db)
      | some db => (.ok (), db)

/-- `rotate`: moves an environment to a new key. The manager's device re-sealed every value
in it; the wraps must reach exactly the members who have standing access. -/
def rotate (db : Db) (accountId environmentId : Uuid) (req : RotateEnvironmentKeyRequest)
    (now : Timestamp) : Served EnvironmentAccess :=
  match admitRotation db accountId environmentId req now with
  | (.error e, db) => (.error e, db)
  | (.ok env, db) =>
    match rotateTx db env accountId req now with
    | (.error e, db) => (.error e, db)
    | (.ok (), db) => detail db accountId environmentId now

end EnvironmentsService

end Zvault
