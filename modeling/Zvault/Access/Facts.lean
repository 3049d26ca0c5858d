import Zvault.Access.Levels
import Mathlib.Data.List.Sort

/-!
# Access facts

`apps/api/src/access/access.facts.ts`: who is in an org, what they may reach,
and the reconcile step that keeps the projects module's key grants in line with
it. A method that writes returns the database it leaves beside its result.
-/

namespace Zvault

open Relational

/-- `LinkedProject`: a project shared with an org. -/
structure LinkedProject where
  projectId : Uuid
  orgId : Uuid
  ownerId : Uuid
  deriving DecidableEq, Repr

/-- `EnvironmentRow & { ownerId }`. -/
structure Env extends EnvironmentAccessRow where
  ownerId : Uuid
  deriving DecidableEq, Repr

/-- `ADMIN_ROLES`. -/
def adminRoles : List OrgRole := [.owner, .admin]

/-- `orderBy(environmentAccess.createdAt, environmentAccess.environmentId)`. -/
def EnvironmentAccessRow.before (a b : EnvironmentAccessRow) : Prop :=
  a.createdAt < b.createdAt ∨ (a.createdAt = b.createdAt ∧ a.environmentId ≤ b.environmentId)

instance : DecidableRel EnvironmentAccessRow.before :=
  fun a b => inferInstanceAs (Decidable (_ ∨ _ ∧ a.environmentId ≤ b.environmentId))

/-- A stored grant as the resolver reads it. -/
def EnvironmentGrantRow.facts (g : EnvironmentGrantRow) : GrantFacts where
  principalType := g.principalType
  principalId := g.principalId
  level := g.level
  expiresAt := g.expiresAt

/-- What `projectLevels` returns. -/
structure ProjectLevels where
  envs : List EnvironmentAccessRow
  org : OrgFacts
  /-- Environment id to the levels of every member and agent. -/
  byEnv : List (Uuid × List (Holder × AccessLevel))

/-- `byEnv.get(environmentId)`. -/
def ProjectLevels.get (levels : ProjectLevels) (environmentId : Uuid) :
    Option (List (Holder × AccessLevel)) :=
  (levels.byEnv.find? fun e => e.1 = environmentId).map Prod.snd

namespace AccessFacts

/-- `AccessFacts.member`: the caller's membership. Non-members get the same 404 as a
missing org so org ids can't be probed. -/
def member (db : Db) (orgId accountId : Uuid) (active : Bool) : Except ApiError OrgMemberRow :=
  match db.orgMembers.find (orgId, accountId) with
  | none => .error (.notFound "Not Found")
  | some row => if active ∧ row.publicKey = none then .error (.notFound "Not Found") else .ok row

/-- `AccessFacts.linkedProject`: the org a project is shared with, if any. -/
def linkedProject (db : Db) (projectId : Uuid) : Option LinkedProject :=
  match db.projectOrgs.find projectId with
  | none => none
  | some row =>
    match db.projects.find row.projectId with
    | none => none
    | some project => some ⟨row.projectId, row.orgId, project.ownerId⟩

/-- `AccessFacts.environmentIds`: live environment ids of a project. -/
def environmentIds (db : Db) (projectId : Uuid) : List Uuid :=
  (db.projectEntries.select fun e => e.projectId = projectId ∧ e.isLiveEnvironment).map EntryRow.id

/-- The access row an environment is registered with. -/
def newAccessRow (project : LinkedProject) (now : Timestamp) (environmentId : Uuid) :
    EnvironmentAccessRow where
  environmentId := environmentId
  projectId := project.projectId
  orgId := project.orgId
  keyVersion := 1
  rotationRequiredAt := none
  createdAt := now

/-- The Manage grant of an account that holds the key when its environment is registered. -/
def holderGrant (now : Timestamp) (g : KeyGrantRow) : EnvironmentGrantRow where
  environmentId := g.resourceId
  principalType := .account
  principalId := g.accountId
  level := .manage
  expiresAt := none
  grantedBy := g.accountId
  createdAt := now

/-- The transaction of `register`: access rows for `missing`, and Manage for whoever
holds their keys at that point. -/
def registerMissing (db : Db) (project : LinkedProject) (missing : List Uuid) (now : Timestamp) :
    Db :=
  let holders := db.keyGrants.select fun g =>
    g.projectId = project.projectId ∧ g.resourceId ∈ missing
  let fresh := missing.filter fun id => !db.environmentAccess.hasKey id
  let grants := holders.filter fun g => g.resourceId ∈ fresh
  { db with
    environmentAccess := db.environmentAccess.insertNewAll (missing.map (newAccessRow project now))
    environmentGrants := db.environmentGrants.insertNewAll (grants.map (holderGrant now)) }

/-- Live environments that have no access row yet. -/
def unregistered (db : Db) (projectId : Uuid) : List Uuid :=
  let ids := environmentIds db projectId
  let known := db.environmentAccess.select fun r => r.environmentId ∈ ids
  ids.filter fun id => !known.any fun k => k.environmentId = id

/-- `AccessFacts.register`: makes sure every live environment of a linked project has
an access row. Whoever holds the key at that point becomes its manager. -/
def register (db : Db) (project : LinkedProject) (now : Timestamp) :
    List EnvironmentAccessRow × Db :=
  let ids := environmentIds db project.projectId
  if ids = [] then ([], db)
  else
    let missing := unregistered db project.projectId
    let db := if missing = [] then db else registerMissing db project missing now
    ((db.environmentAccess.select fun r => r.environmentId ∈ ids).insertionSort
      EnvironmentAccessRow.before, db)

/-- `AccessFacts.environment`: an environment of a linked project, registering it on
first use. -/
def environment (db : Db) (environmentId : Uuid) (now : Timestamp) : Served Env :=
  match db.projectEntries.rows.find? fun e => e.id = environmentId ∧ e.isLiveEnvironment with
  | none => (.error (.notFound "Not Found"), db)
  | some entry =>
    match linkedProject db entry.projectId with
    | none => (.error (.notFound "Not Found"), db)
    | some project =>
      let (envs, db) := register db project now
      match envs.find? fun e => e.environmentId = environmentId with
      | none => (.error (.notFound "Not Found"), db)
      | some env => (.ok { env with ownerId := project.ownerId }, db)

/-- `AccessFacts.org`. -/
def org (db : Db) (orgId : Uuid) (projectOwnerId : Option Uuid) : OrgFacts :=
  let members := db.orgMembers.select fun m => m.orgId = orgId ∧ m.publicKey.isSome
  let memberships := db.groupMembers.select fun m =>
    db.orgGroups.rows.any fun g => g.id = m.groupId ∧ g.orgId = orgId
  let agentRows := db.agents.select fun a => a.orgId = orgId
  { projectOwnerId := projectOwnerId
    activeMembers := members.map OrgMemberRow.accountId
    groupsOf := fun accountId =>
      (memberships.filter fun m => m.accountId = accountId).map GroupMemberRow.groupId
    agents := agentRows.map AgentRow.id
    keys := fun holder =>
      match holder.type with
      | .account => (members.find? fun m => m.accountId = holder.id).bind OrgMemberRow.publicKey
      | .agent => (agentRows.find? fun a => a.id = holder.id).map AgentRow.publicKey }

/-- `AccessFacts.grants`. -/
def grants (db : Db) (environmentId : Uuid) : List GrantFacts :=
  (db.environmentGrants.select fun g => g.environmentId = environmentId).map
    EnvironmentGrantRow.facts

/-- `AccessFacts.levelOf`. -/
def levelOf (db : Db) (env : Env) (holder : Holder) (now : Timestamp) : AccessLevel :=
  effectiveLevel holder (grants db env.environmentId) (org db env.orgId (some env.ownerId)) now

/-- `AccessFacts.projectLevels`: every member's level in every environment of a linked
project. -/
def projectLevels (db : Db) (project : LinkedProject) (now : Timestamp) : ProjectLevels × Db :=
  let (envs, db) := register db project now
  let facts := org db project.orgId (some project.ownerId)
  ({ envs := envs
     org := facts
     byEnv := envs.map fun env =>
       (env.environmentId, allLevels (grants db env.environmentId) facts now) }, db)

/-- Active owners and admins of an org. -/
def admins (db : Db) (orgId : Uuid) : List Uuid :=
  (db.orgMembers.select fun m =>
    m.orgId = orgId ∧ m.publicKey.isSome ∧ m.role ∈ adminRoles).map OrgMemberRow.accountId

/-- `AccessFacts.projectKeyHolders`: accounts that should hold the project key, as a
set: the owner, org owners and admins, and anyone with at least `needs_approval` in
some environment. -/
def projectKeyHolders (db : Db) (project : LinkedProject) (now : Timestamp) : List Uuid × Db :=
  let (levels, db) := projectLevels db project now
  (project.ownerId :: admins db project.orgId ++
    levels.byEnv.flatMap fun env =>
      (env.2.filter fun l => l.1.type = .account ∧ levelAtLeast l.2 .needsApproval).map
        fun l => l.1.id, db)

/-- The test of `reconcileProject`'s loop: the grant's account no longer has standing
access to the environment, or any reason to hold the project key. -/
def lapsed (projectId : Uuid) (keepProject : List Uuid) (levels : ProjectLevels)
    (g : KeyGrantRow) : Bool :=
  if g.resourceId = projectId then g.accountId ∉ keepProject
  else
    match levels.get g.resourceId with
    | none => false
    | some l => !holdsKey (levelOr l (.account g.accountId))

/-- The transaction of `reconcileProject`: deletes the grants in `drop` and flags the
environments among `envs` that lost a holder, unless they are flagged already. -/
def dropGrants (db : Db) (projectId : Uuid) (envs : List EnvironmentAccessRow)
    (drop : List KeyGrantRow) (now : Timestamp) : Db :=
  let flagged := (drop.filter fun g => g.resourceId ≠ projectId).map KeyGrantRow.resourceId
  let ids := (envs.map EnvironmentAccessRow.environmentId).filter fun id => id ∈ flagged
  { db with
    keyGrants := db.keyGrants.delete fun g => g.projectId = projectId ∧
      drop.any fun d => d.resourceId = g.resourceId ∧ d.accountId = g.accountId
    environmentAccess := db.environmentAccess.update
      (fun r => r.environmentId ∈ ids ∧ r.rotationRequiredAt = none)
      (fun r => { r with rotationRequiredAt := some now }) }

/-- `AccessFacts.reconcileProject`: deletes the key grants of everyone who no longer
has standing access to an environment (or any reason to hold the project key), and
flags each environment that lost a holder for rotation. -/
def reconcileProject (db : Db) (projectId : Uuid) (now : Timestamp) : Db :=
  match linkedProject db projectId with
  | none => db
  | some project =>
    let (levels, db) := projectLevels db project now
    let (keepProject, db) := projectKeyHolders db project now
    let held := db.keyGrants.select fun g => g.projectId = projectId
    let drop := held.filter (lapsed projectId keepProject levels)
    if drop = [] then db else dropGrants db projectId levels.envs drop now

/-- `AccessFacts.reconcileOrg`. -/
def reconcileOrg (db : Db) (orgId : Uuid) (now : Timestamp) : Db :=
  (db.projectOrgs.select fun p => p.orgId = orgId).foldl
    (fun db p => reconcileProject db p.projectId now) db

/-- `AccessFacts.dropGrantsTo`: removes grants to principals that no longer exist. -/
def dropGrantsTo (db : Db) (type : PrincipalType) (ids : List Uuid) (orgId : Uuid) : Db :=
  if ids = [] then db
  else
    { db with
      environmentGrants := db.environmentGrants.delete fun g =>
        g.principalType = type ∧ g.principalId ∈ ids ∧
          db.environmentAccess.rows.any fun e => e.environmentId = g.environmentId ∧ e.orgId = orgId }

/-- `AccessFacts.isAdmin`: an active owner or admin of the org. -/
def isAdmin (db : Db) (orgId accountId : Uuid) : Bool :=
  db.orgMembers.rows.any fun m =>
    m.orgId = orgId ∧ m.accountId = accountId ∧ m.publicKey.isSome ∧ m.role ≠ .member

end AccessFacts

/-! ### Team rules for the projects API

`apps/api/src/access/project-policy.ts`. A project that isn't shared with an
organization keeps the projects module's own rules; once shared, these apply on
top of holding the keys. -/

namespace ProjectPolicy

/-- `beforeAccess`: drops key grants that lapsed before a project is read. -/
def beforeAccess (db : Db) (projectId : Uuid) (now : Timestamp) : Db :=
  AccessFacts.reconcileProject db projectId now

/-- `assertStructure`: environments, folders and project metadata are for the owner, or
org owners and admins. -/
def assertStructure (db : Db) (projectId accountId ownerId : Uuid) : Except ApiError Unit :=
  if accountId = ownerId then .ok ()
  else
    match AccessFacts.linkedProject db projectId with
    | none => .error (.forbidden "owner_only")
    | some project =>
      if AccessFacts.isAdmin db project.orgId accountId then .ok ()
      else .error (.forbidden "owner_only")

/-- `byEnv.get(envId)?.get(holderKey('account', accountId)) ?? 'none'`. -/
def levelIn (levels : ProjectLevels) (accountId environmentId : Uuid) : AccessLevel :=
  match levels.get environmentId with
  | none => .none
  | some l => levelOr l (.account accountId)

/-- `assertSecretWrite`: writing a secret needs Edit in every environment whose value it
changes, and Edit somewhere for a metadata-only write or a delete. -/
def assertSecretWrite (db : Db) (projectId accountId : Uuid) (environmentIds : List Uuid)
    (now : Timestamp) : Served Unit :=
  match AccessFacts.linkedProject db projectId with
  | none => (.ok (), db)
  | some project =>
    if project.ownerId = accountId then (.ok (), db)
    else
      let (levels, db) := AccessFacts.projectLevels db project now
      let ok :=
        if environmentIds ≠ [] then
          environmentIds.all fun id => levelAtLeast (levelIn levels accountId id) .edit
        else
          levels.byEnv.any fun env => levelAtLeast (levelIn levels accountId env.1) .edit
      if ok then (.ok (), db) else (.error (.forbidden "no_access"), db)

end ProjectPolicy

end Zvault
