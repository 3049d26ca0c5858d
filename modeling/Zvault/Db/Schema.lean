import Zvault.Relational.Table

/-!
# The tables of the projects and access services

Rows of `apps/api/src/db/schema.ts`, with the columns the modelled services
read or write. Ids are 128-bit UUIDs, of which the services only use equality
and order, so they are natural numbers here; a timestamp counts milliseconds.
A ciphertext is opaque to the server: it reads `kid` and nothing else.
-/

namespace Zvault

open Relational

/-- A canonical UUID. -/
abbrev Uuid := ℕ

/-- Milliseconds since the epoch. -/
abbrev Timestamp := ℕ

/-- `SESSION_ABSOLUTE_TTL_MS`. -/
def sessionAbsoluteTtl : ℕ := 90 * 24 * 60 * 60 * 1000

/-- A published X25519 sharing key. -/
abbrev PublicKey := ℕ

/-- `kid` of a ciphertext: `ACCOUNT_KID`, `MEMBER_KEY_WRAP_KID`, or the id of the
record whose key sealed it. -/
inductive Kid where
  | account
  | memberKeyWrap
  | record (id : Uuid)
  deriving DecidableEq, Repr

/-- `EncryptedBlob`: an AEAD ciphertext as it travels to and from the server. -/
structure EncryptedBlob where
  /-- Id of the key that sealed this blob. -/
  kid : Kid
  nonce : ℕ
  ct : ℕ
  deriving DecidableEq, Repr

/-- `EntryType`. -/
inductive EntryType where
  | environment
  | folder
  | secret
  deriving DecidableEq, Repr

/-- `OrgRole`. -/
inductive OrgRole where
  | owner
  | admin
  | member
  deriving DecidableEq, Repr

/-- `AccessLevel`: what a principal may do in one environment, strongest first. -/
inductive AccessLevel where
  | manage
  | edit
  | use
  | needsApproval
  | none
  deriving DecidableEq, Repr

/-- `PrincipalType`: who a grant is for. -/
inductive PrincipalType where
  | account
  | group
  | agent
  deriving DecidableEq, Repr

/-- `projects`. `seq` is the change counter shared by all of the project's entries. -/
structure ProjectRow where
  id : Uuid
  ownerId : Uuid
  encryptedMeta : EncryptedBlob
  revision : ℕ
  seq : ℕ
  createdAt : Timestamp
  updatedAt : Timestamp
  deriving DecidableEq, Repr

/-- `MemberWrapBox`: the public half of a member wrap. -/
structure MemberWrapBox where
  recipientPublicKey : PublicKey
  wrapperPublicKey : PublicKey
  ephemeralPublicKey : PublicKey
  /-- Environment keys only: the key version the wrap is bound to. -/
  keyVersion : Option ℕ
  wrappedBy : Uuid
  deriving DecidableEq, Repr

/-- `key_grants`: who holds which key. `resourceId` is the project id (the project
key) or one of its environment ids. -/
structure KeyGrantRow where
  projectId : Uuid
  resourceId : Uuid
  accountId : Uuid
  wrappedKey : EncryptedBlob
  box : Option MemberWrapBox
  deriving DecidableEq, Repr

/-- `primaryKey({ columns: [t.projectId, t.resourceId, t.accountId] })`. -/
def KeyGrantRow.key (g : KeyGrantRow) : Uuid × Uuid × Uuid :=
  (g.projectId, g.resourceId, g.accountId)

/-- `project_entries`. Deleted entries stay as tombstones. -/
structure EntryRow where
  projectId : Uuid
  id : Uuid
  type : EntryType
  revision : ℕ
  seq : ℕ
  deleted : Bool
  encryptedMeta : Option EncryptedBlob
  updatedAt : Timestamp
  deriving DecidableEq, Repr

/-- `primaryKey({ columns: [t.projectId, t.id] })`. -/
def EntryRow.key (e : EntryRow) : Uuid × Uuid := (e.projectId, e.id)

/-- The row of a live environment. -/
def EntryRow.isLiveEnvironment (e : EntryRow) : Bool := e.type = .environment ∧ e.deleted = false

/-- `secret_values`: a secret's value in one environment. -/
structure SecretValueRow where
  projectId : Uuid
  secretId : Uuid
  environmentId : Uuid
  encryptedValue : EncryptedBlob
  updatedAt : Timestamp
  deriving DecidableEq, Repr

/-- `primaryKey({ columns: [t.projectId, t.secretId, t.environmentId] })`. -/
def SecretValueRow.key (v : SecretValueRow) : Uuid × Uuid × Uuid :=
  (v.projectId, v.secretId, v.environmentId)

/-- `secret_versions`. `values` maps environment ids to the value sealed with that
environment's key. -/
structure SecretVersionRow where
  projectId : Uuid
  secretId : Uuid
  revision : ℕ
  encryptedMeta : EncryptedBlob
  values : List (Uuid × EncryptedBlob)
  savedAt : Timestamp
  deriving DecidableEq, Repr

/-- `primaryKey({ columns: [t.projectId, t.secretId, t.revision] })`. -/
def SecretVersionRow.key (v : SecretVersionRow) : Uuid × Uuid × ℕ :=
  (v.projectId, v.secretId, v.revision)

/-- `org_members`. A member is invited until `publicKey` is set. -/
structure OrgMemberRow where
  orgId : Uuid
  accountId : Uuid
  role : OrgRole
  publicKey : Option PublicKey
  deriving DecidableEq, Repr

/-- `primaryKey({ columns: [t.orgId, t.accountId] })`. -/
def OrgMemberRow.key (m : OrgMemberRow) : Uuid × Uuid := (m.orgId, m.accountId)

/-- `org_groups`. -/
structure OrgGroupRow where
  id : Uuid
  orgId : Uuid
  name : String
  deriving DecidableEq, Repr

/-- `group_members`. -/
structure GroupMemberRow where
  groupId : Uuid
  accountId : Uuid
  deriving DecidableEq, Repr

/-- `primaryKey({ columns: [t.groupId, t.accountId] })`. -/
def GroupMemberRow.key (m : GroupMemberRow) : Uuid × Uuid := (m.groupId, m.accountId)

/-- `agents`: principals with their own key, paired by a member. -/
structure AgentRow where
  id : Uuid
  orgId : Uuid
  ownerId : Uuid
  publicKey : PublicKey
  deriving DecidableEq, Repr

/-- `project_orgs`: a project shared with an organization. -/
structure ProjectOrgRow where
  projectId : Uuid
  orgId : Uuid
  linkedBy : Uuid
  deriving DecidableEq, Repr

/-- `environment_access`: access state of one environment of an org project. -/
structure EnvironmentAccessRow where
  environmentId : Uuid
  projectId : Uuid
  orgId : Uuid
  /-- Counts rotations. -/
  keyVersion : ℕ
  /-- Set when a key holder loses access; cleared by the next rotation. -/
  rotationRequiredAt : Option Timestamp
  createdAt : Timestamp
  deriving DecidableEq, Repr

/-- `environment_grants`. -/
structure EnvironmentGrantRow where
  environmentId : Uuid
  principalType : PrincipalType
  principalId : Uuid
  level : AccessLevel
  expiresAt : Option Timestamp
  grantedBy : Uuid
  createdAt : Timestamp
  deriving DecidableEq, Repr

/-- `primaryKey({ columns: [t.environmentId, t.principalType, t.principalId] })`. -/
def EnvironmentGrantRow.key (g : EnvironmentGrantRow) : Uuid × PrincipalType × Uuid :=
  (g.environmentId, g.principalType, g.principalId)

/-- What the projects and access services store. -/
@[ext] structure Db where
  projects : Table ProjectRow.id
  keyGrants : Table KeyGrantRow.key
  projectEntries : Table EntryRow.key
  secretValues : Table SecretValueRow.key
  secretVersions : Table SecretVersionRow.key
  orgMembers : Table OrgMemberRow.key
  orgGroups : Table OrgGroupRow.id
  groupMembers : Table GroupMemberRow.key
  agents : Table AgentRow.id
  projectOrgs : Table ProjectOrgRow.projectId
  environmentAccess : Table EnvironmentAccessRow.environmentId
  environmentGrants : Table EnvironmentGrantRow.key

/-- The database before the first request. -/
def Db.empty : Db :=
  ⟨.empty, .empty, .empty, .empty, .empty, .empty, .empty, .empty, .empty, .empty, .empty, .empty⟩

/-- An error a request is answered with, by HTTP status, with the text or error code
of its body. -/
inductive ApiError where
  | badRequest (error : String)
  | forbidden (error : String)
  | notFound (message : String)
  | conflict (message : String)
  | unprocessable (message : String)
  /-- An exception no handler turns into an answer, such as a broken constraint. -/
  | internal
  deriving DecidableEq, Repr

/-- What one request leaves: its answer and the database. -/
abbrev Served (α : Type) := Except ApiError α × Db

/-! ### Environment keys in the database

The version of an environment's key, its rotation flag, and who holds the key. -/

/-- `keyVersion` of an environment; one that is not registered yet is at its first key. -/
def keyVersionOf (db : Db) (environmentId : Uuid) : ℕ :=
  match db.environmentAccess.find environmentId with
  | some r => r.keyVersion
  | none => 1

/-- `rotationRequiredAt` of an environment is set. -/
def RotationRequired (db : Db) (environmentId : Uuid) : Prop :=
  ∃ r ∈ db.environmentAccess, r.environmentId = environmentId ∧ r.rotationRequiredAt.isSome = true

/-- An account holds a grant of an environment's key. (`resourceId` of a grant is the
project's id for the project key, else an environment's id.) -/
def HoldsEnvironmentKey (db : Db) (projectId environmentId accountId : Uuid) : Prop :=
  environmentId ≠ projectId ∧
    ∃ g ∈ db.keyGrants, g.projectId = projectId ∧ g.resourceId = environmentId ∧
      g.accountId = accountId

instance (db : Db) (environmentId : Uuid) : Decidable (RotationRequired db environmentId) :=
  inferInstanceAs (Decidable (∃ r ∈ db.environmentAccess.rows, _))

instance (db : Db) (projectId environmentId accountId : Uuid) :
    Decidable (HoldsEnvironmentKey db projectId environmentId accountId) :=
  inferInstanceAs (Decidable (_ ∧ ∃ g ∈ db.keyGrants.rows, _))

/-- The version on an access row is its environment's. -/
theorem keyVersionOf_eq {db : Db} {r : EnvironmentAccessRow} (hr : r ∈ db.environmentAccess) :
    keyVersionOf db r.environmentId = r.keyVersion := by
  have hfind : db.environmentAccess.find r.environmentId = some r :=
    Table.find_eq_some.mpr ⟨hr, rfl⟩
  simp only [keyVersionOf, hfind]

/-- An environment without an access row is at its first key. -/
theorem keyVersionOf_eq_one {db : Db} {environmentId : Uuid}
    (h : ∀ r ∈ db.environmentAccess, r.environmentId ≠ environmentId) :
    keyVersionOf db environmentId = 1 := by
  have hfind : db.environmentAccess.find environmentId = none := Table.find_eq_none.mpr h
  simp only [keyVersionOf, hfind]

/-- The version of an environment only depends on its access row. -/
theorem keyVersionOf_congr {db db' : Db} {environmentId : Uuid}
    (h : ∀ r, r.environmentId = environmentId →
      (r ∈ db'.environmentAccess ↔ r ∈ db.environmentAccess)) :
    keyVersionOf db' environmentId = keyVersionOf db environmentId := by
  by_cases hrow : ∃ r ∈ db.environmentAccess, r.environmentId = environmentId
  · obtain ⟨r, hr, rfl⟩ := hrow
    rw [keyVersionOf_eq hr, keyVersionOf_eq ((h r rfl).mpr hr)]
  · rw [keyVersionOf_eq_one fun r hr hid => hrow ⟨r, hr, hid⟩,
      keyVersionOf_eq_one fun r hr hid => hrow ⟨r, (h r hid).mp hr, hid⟩]

end Zvault
