import Zvault.Access.Environments
import Mathlib.Data.List.Sort

/-!
# Access requests

The approvals of `apps/api/src/access/environments.service.ts`: a principal who
needs approval asks for secrets of an environment, a manager seals them to the
requester or denies the request, and the requester fetches the release. The
names in a view and the activity log are left out.
-/

namespace Zvault

open Relational AccessFacts

/-- `ACCESS_LIMITS.requestTtlSeconds`, in milliseconds. -/
def requestTtl : ℕ := 60 * 60 * 1000

/-- `ACCESS_LIMITS.releaseTtlSeconds`, in milliseconds. -/
def releaseTtl : ℕ := 15 * 60 * 1000

/-- `CreateAccessRequest`. -/
structure CreateAccessRequest where
  /-- Opaque references to the secrets wanted. -/
  items : List String
  /-- What will use them, shown to the approver. -/
  reason : String
  deriving DecidableEq, Repr

/-- The `blob` of a release: its `kid` is always `ACCESS_RELEASE_KID`. -/
structure ReleaseBlob where
  nonce : ℕ
  ct : ℕ
  deriving DecidableEq, Repr

/-- `ApproveAccessRequest`, which is `StoredRelease` once stored: the requested values,
sealed to the requester. -/
structure ApproveAccessRequest where
  approverPublicKey : PublicKey
  ephemeralPublicKey : PublicKey
  blob : ReleaseBlob
  deriving DecidableEq, Repr

/-- `access_request_status`. -/
inductive RequestStatus where
  | pending
  | approved
  | denied
  deriving DecidableEq, Repr

/-- `access_requests`. -/
structure AccessRequestRow where
  id : Uuid
  environmentId : Uuid
  requester : Holder
  requesterPublicKey : PublicKey
  items : List String
  reason : String
  status : RequestStatus
  expiresAt : Timestamp
  decidedBy : Option Uuid
  decidedAt : Option Timestamp
  release : Option ApproveAccessRequest
  releaseExpiresAt : Option Timestamp
  createdAt : Timestamp
  deriving DecidableEq, Repr

/-- `AccessRequestStatus`: the status a view shows. -/
inductive AccessRequestStatus where
  | pending
  | approved
  | denied
  | expired
  deriving DecidableEq, Repr

/-- A stored status as a view shows it. -/
def RequestStatus.shown : RequestStatus → AccessRequestStatus
  | .pending => .pending
  | .approved => .approved
  | .denied => .denied

/-- `AccessRequestView`. -/
structure AccessRequestView where
  id : Uuid
  environmentId : Uuid
  requester : Holder
  requesterPublicKey : PublicKey
  items : List String
  reason : String
  status : AccessRequestStatus
  createdAt : Timestamp
  expiresAt : Timestamp
  decidedBy : Option Uuid
  /-- Present for the requester once approved, until the release expires. -/
  release : Option ApproveAccessRequest
  deriving DecidableEq, Repr

/-- The values a request is inserted with. -/
def newRequest (id : Uuid) (holder : Holder) (publicKey : PublicKey) (environmentId : Uuid)
    (req : CreateAccessRequest) (now : Timestamp) : AccessRequestRow where
  id := id
  environmentId := environmentId
  requester := holder
  requesterPublicKey := publicKey
  items := req.items
  reason := req.reason
  status := .pending
  expiresAt := now + requestTtl
  decidedBy := none
  decidedAt := none
  release := none
  releaseExpiresAt := none
  createdAt := now

/-- What `approve` sets. -/
def AccessRequestRow.approve (accountId : Uuid) (req : ApproveAccessRequest) (now : Timestamp)
    (r : AccessRequestRow) : AccessRequestRow :=
  { r with
    status := .approved
    decidedBy := some accountId
    decidedAt := some now
    release := some req
    releaseExpiresAt := some (now + releaseTtl) }

/-- What `deny` sets. -/
def AccessRequestRow.deny (accountId : Uuid) (now : Timestamp) (r : AccessRequestRow) :
    AccessRequestRow :=
  { r with status := .denied, decidedBy := some accountId, decidedAt := some now }

/-- `where(and(eq(accessRequests.id, requestId), eq(accessRequests.status, 'pending')))`. -/
def AccessRequestRow.undecided (requestId : Uuid) (r : AccessRequestRow) : Bool :=
  r.id = requestId ∧ r.status = .pending

/-- The update of a decision, and the row it returns. -/
def decideWhere (requests : Table AccessRequestRow.id) (requestId : Uuid)
    (decision : AccessRequestRow → AccessRequestRow) (hid : ∀ r, (decision r).id = r.id) :
    Option AccessRequestRow × Table AccessRequestRow.id :=
  ((requests.select (AccessRequestRow.undecided requestId)).head?.map decision,
    requests.update (AccessRequestRow.undecided requestId) decision hid)

theorem AccessRequestRow.id_approve (accountId : Uuid) (req : ApproveAccessRequest)
    (now : Timestamp) (r : AccessRequestRow) : (r.approve accountId req now).id = r.id := rfl

theorem AccessRequestRow.id_deny (accountId : Uuid) (now : Timestamp) (r : AccessRequestRow) :
    (r.deny accountId now).id = r.id := rfl

/-- `access_requests` beside the tables the other calls work on. -/
structure RequestStore where
  db : Db
  requests : Table AccessRequestRow.id

/-- What a call about requests leaves: its answer and the store. -/
abbrev Answered (α : Type) := Except ApiError α × RequestStore

/-- What `decidable` returns beside the time. -/
structure DecidableRequest where
  r : AccessRequestRow
  env : Env
  me : OrgMemberRow
  deriving DecidableEq, Repr

namespace EnvironmentsService

/-- `view`. -/
def view (r : AccessRequestRow) (forRequester : Bool) (now : Timestamp) : AccessRequestView :=
  let expired : Bool := r.status = .pending ∧ r.expiresAt ≤ now
  let releaseLive : Bool :=
    forRequester ∧ r.status = .approved ∧ r.releaseExpiresAt.any fun t => now < t
  { id := r.id
    environmentId := r.environmentId
    requester := r.requester
    requesterPublicKey := r.requesterPublicKey
    items := r.items
    reason := r.reason
    status := if expired then .expired else r.status.shown
    createdAt := r.createdAt
    expiresAt := r.expiresAt
    decidedBy := r.decidedBy
    release := if releaseLive then r.release else none }

/-- An account that asks is an active member. -/
def requireMember (db : Db) (orgId : Uuid) (holder : Holder) : Except ApiError Unit :=
  match holder.type with
  | .account => (member db orgId holder.id true).map fun _ => ()
  | .agent => .ok ()

/-- `createRequest`: a "Needs approval" principal asks for specific secrets, once. The
database generates `id`. -/
def createRequest (s : RequestStore) (holder : Holder) (environmentId : Uuid)
    (req : CreateAccessRequest) (id : Uuid) (now : Timestamp) : Answered AccessRequestView :=
  match environment s.db environmentId now with
  | (.error e, db) => (.error e, ⟨db, s.requests⟩)
  | (.ok env, db) =>
    match requireMember db env.orgId holder with
    | .error e => (.error e, ⟨db, s.requests⟩)
    | .ok () =>
      let level := levelOf db env holder now
      if level ≠ .needsApproval then
        (.error (.forbidden (if holdsKey level then "You already have access; no approval needed"
          else "No access to this environment")), ⟨db, s.requests⟩)
      else
        match (org db env.orgId none).keys holder with
        | none => (.error .internal, ⟨db, s.requests⟩)
        | some publicKey =>
          let row := newRequest id holder publicKey environmentId req now
          match s.requests.insertAll [row] with
          | none => (.error .internal, ⟨db, s.requests⟩)
          | some requests => (.ok (view row true now), ⟨db, requests⟩)

/-- The rows `listRequests` shows: to a manager every pending request, to others their own. -/
def listed (manager : Bool) (accountId environmentId : Uuid) (r : AccessRequestRow) : Bool :=
  if manager then r.environmentId = environmentId ∧ r.status = .pending
  else r.environmentId = environmentId ∧ r.requester = .account accountId

/-- `listRequests`: managers see every open request; others see their own. -/
def listRequests (s : RequestStore) (accountId environmentId : Uuid) (now : Timestamp) :
    Answered (List AccessRequestView) :=
  match visible s.db accountId environmentId now with
  | (.error e, db) => (.error e, ⟨db, s.requests⟩)
  | (.ok ⟨env, _⟩, db) =>
    let manager := levelAtLeast (levelOf db env (.account accountId) now) .manage
    let rows := (s.requests.select (listed manager accountId environmentId)).insertionSort
      fun a b => b.createdAt ≤ a.createdAt
    let views := rows.map fun r => view r (r.requester = .account accountId) now
    (.ok (views.filter fun v => !manager ∨ v.status = .pending), ⟨db, s.requests⟩)

/-- `getRequest`. -/
def getRequest (s : RequestStore) (holder : Holder) (requestId : Uuid) (now : Timestamp) :
    Answered AccessRequestView :=
  match s.requests.find requestId with
  | none => (.error (.notFound "Not Found"), s)
  | some r =>
    if r.requester = holder then (.ok (view r true now), s)
    else if holder.type ≠ .account then (.error (.notFound "Not Found"), s)
    else
      match environment s.db r.environmentId now with
      | (.error e, db) => (.error e, ⟨db, s.requests⟩)
      | (.ok env, db) =>
        match member db env.orgId holder.id true with
        | .error _ => (.error (.notFound "Not Found"), ⟨db, s.requests⟩)
        | .ok _ =>
          if !levelAtLeast (levelOf db env holder now) .manage then
            (.error (.notFound "Not Found"), ⟨db, s.requests⟩)
          else (.ok (view r false now), ⟨db, s.requests⟩)

/-- `decidable`. -/
def decidable (s : RequestStore) (accountId requestId : Uuid) (now : Timestamp) :
    Served DecidableRequest :=
  match s.requests.find requestId with
  | none => (.error (.notFound "Not Found"), s.db)
  | some r =>
    match visible s.db accountId r.environmentId now with
    | (.error e, db) => (.error e, db)
    | (.ok ⟨env, me⟩, db) =>
      if !levelAtLeast (levelOf db env (.account accountId) now) .manage then
        (.error (.forbidden "Only managers can decide requests"), db)
      else if r.status ≠ .pending ∨ r.expiresAt ≤ now then
        (.error (.conflict "This request was already decided or has expired"), db)
      else (.ok ⟨r, env, me⟩, db)

/-- `approve`: the approver's device sealed the requested values to the requester. -/
def approve (s : RequestStore) (accountId requestId : Uuid) (req : ApproveAccessRequest)
    (now : Timestamp) : Answered AccessRequestView :=
  match decidable s accountId requestId now with
  | (.error e, db) => (.error e, ⟨db, s.requests⟩)
  | (.ok ⟨r, env, me⟩, db) =>
    if some req.approverPublicKey ≠ me.publicKey then
      (.error (.conflict "Your sharing key does not match the one on file"), ⟨db, s.requests⟩)
    else if levelOf db env r.requester now ≠ .needsApproval then
      (.error (.conflict "The requester's access changed; the request no longer applies"),
        ⟨db, s.requests⟩)
    else
      match decideWhere s.requests requestId (AccessRequestRow.approve accountId req now)
        (AccessRequestRow.id_approve accountId req now) with
      | (none, requests) => (.error (.conflict "This request was already decided"), ⟨db, requests⟩)
      | (some row, requests) => (.ok (view row false now), ⟨db, requests⟩)

/-- `deny`. -/
def deny (s : RequestStore) (accountId requestId : Uuid) (now : Timestamp) :
    Answered AccessRequestView :=
  match decidable s accountId requestId now with
  | (.error e, db) => (.error e, ⟨db, s.requests⟩)
  | (.ok _, db) =>
    match decideWhere s.requests requestId (AccessRequestRow.deny accountId now)
      (AccessRequestRow.id_deny accountId now) with
    | (none, requests) => (.error (.conflict "This request was already decided"), ⟨db, requests⟩)
    | (some row, requests) => (.ok (view row false now), ⟨db, requests⟩)

end EnvironmentsService

end Zvault
