import Zvault.Db.Schema
import Zvault.Concurrent.Tasks

/-!
# Adding a phone

`apps/api/src/pairing/pairing.service.ts` and `pairing.store.ts`. The store is a
map in memory, so every request but `approve` runs in one step; `approve` waits
for its session to be issued. It changes the record afterwards through the
reference it holds, which is the stored record as long as the id is still there.
-/

namespace Zvault

open Relational

/-- What a client says about itself. -/
abbrev DeviceInfo := String

/-- The keys sealed for the phone. -/
abbrev PairingGrant := String

/-- A bearer token. -/
abbrev SessionToken := String

inductive PairingStatus where
  | waiting
  | claimed
  | approved
  | denied
  deriving DecidableEq, Repr

/-- `PairingRecord`. -/
structure PairingRecord where
  id : Uuid
  /-- The account whose signed-in device created the pairing. -/
  userId : Uuid
  claimHash : ℕ
  status : PairingStatus
  expiresAt : Timestamp
  device : Option DeviceInfo
  publicKey : Option PublicKey
  grant : Option PairingGrant
  sessionToken : Option SessionToken
  sessionExpiresAt : Option Timestamp
  deriving DecidableEq, Repr

abbrev PairingTable := Table PairingRecord.id

inductive PairingError where
  /-- Too many phones waiting to be added. Try again soon. -/
  | tooMany
  /-- This QR code has already been used. Show a new one. -/
  | alreadyUsed
  /-- No phone is waiting on this QR code. -/
  | noPhone
  /-- This phone was already added. Remove it from Devices instead. -/
  | alreadyAdded
  | gone
  | notFound
  /-- This QR code has expired. Show a new one. -/
  | expired
  deriving DecidableEq, Repr

/-- `PairingResultResponse`, once the pairing is decided. -/
inductive PairingResult where
  | denied
  | approved (sessionToken : SessionToken) (expiresAt : Timestamp) (grant : PairingGrant)
  deriving DecidableEq, Repr

/-- A session `approve` issued, with the pairing and the grant it was issued for. -/
structure PairedSession where
  pairingId : Uuid
  grant : PairingGrant
  userId : Uuid
  device : DeviceInfo
  token : SessionToken
  expiresAt : Timestamp
  deriving DecidableEq, Repr

/-- `MAX_LIVE_PAIRINGS_PER_USER`. -/
def maxLivePairingsPerUser : ℕ := 5

/-- `PAIRING_LIMITS.ttlSeconds` in milliseconds. -/
def pairingTtl : ℕ := 3 * 60 * 1000

/-- The store, the clock and the sessions issued for phones; and what has happened so far: the
pairings created, claimed and denied, the results handed out, and the pairings whose `approve`
waits. -/
structure PairingDb where
  pairings : PairingTable
  now : Timestamp
  sessions : List PairedSession
  created : List (Uuid × Timestamp)
  claims : List (Uuid × DeviceInfo)
  denials : List Uuid
  results : List (Uuid × Timestamp × PairingResult)
  approving : List Uuid

def PairingDb.initial : PairingDb := ⟨Table.empty, 0, [], [], [], [], [], []⟩

/-- `get`: the live pairing with this id. Expired pairings are dropped here. -/
def PairingDb.get (db : PairingDb) (id : Uuid) : Option PairingRecord × PairingDb :=
  match db.pairings.find id with
  | none => (none, db)
  | some record =>
    if record.expiresAt ≤ db.now then
      (none, { db with pairings := db.pairings.delete fun r => r.id = id })
    else (some record, db)

/-- `countLive`. -/
def PairingDb.countLive (db : PairingDb) (userId : Uuid) : ℕ × PairingDb :=
  let live := db.pairings.delete fun r => r.expiresAt ≤ db.now
  ((live.select fun r => r.userId = userId).length, { db with pairings := live })

/-- A change of a stored record, through a reference to it. -/
def changeRecord (pairings : PairingTable) (id : Uuid) (f : PairingRecord → PairingRecord)
    (hf : ∀ r, (f r).id = r.id := by intro r; cases r; rfl) : PairingTable :=
  pairings.update (fun r => r.id = id) f hf

/-- `delete`. -/
def removeRecord (pairings : PairingTable) (id : Uuid) : PairingTable :=
  pairings.delete fun r => r.id = id

namespace PairingService

variable (hashClaim : String → ℕ)

def owned (db : PairingDb) (userId id : Uuid) : Except PairingError PairingRecord × PairingDb :=
  match db.get id with
  | (some record, db) =>
    if record.userId ≠ userId then (.error .notFound, db) else (.ok record, db)
  | (none, db) => (.error .notFound, db)

def withToken (db : PairingDb) (id : Uuid) (claimToken : String) :
    Except PairingError PairingRecord × PairingDb :=
  match db.get id with
  | (some record, db) =>
    if hashClaim claimToken ≠ record.claimHash then (.error .expired, db) else (.ok record, db)
  | (none, db) => (.error .expired, db)

/-- `create`, with the id it draws. -/
def create (db : PairingDb) (userId : Uuid) (claimToken : String) (id : Uuid) :
    Except PairingError Unit × PairingDb :=
  let (live, db) := db.countLive userId
  if maxLivePairingsPerUser ≤ live then (.error .tooMany, db)
  else
    let record : PairingRecord := {
      id, userId
      claimHash := hashClaim claimToken
      status := .waiting
      expiresAt := db.now + pairingTtl
      device := none, publicKey := none, grant := none
      sessionToken := none, sessionExpiresAt := none }
    (.ok (), { db with
      pairings := db.pairings.insertNew record
      created := (id, record.expiresAt) :: db.created })

/-- The phone's first call. -/
def claim (db : PairingDb) (id : Uuid) (claimToken : String) (device : DeviceInfo)
    (publicKey : PublicKey) : Except PairingError Unit × PairingDb :=
  match withToken hashClaim db id claimToken with
  | (.error e, db) => (.error e, db)
  | (.ok record, db) =>
    if record.status ≠ .waiting then (.error .alreadyUsed, db)
    else
      let pairings := changeRecord db.pairings id fun r =>
        { r with status := .claimed, device := some device, publicKey := some publicKey }
      (.ok (), { db with pairings, claims := (id, device) :: db.claims })

/-- The first half of `approve`: the device to issue a session for. -/
def approve (db : PairingDb) (userId id : Uuid) : Except PairingError DeviceInfo × PairingDb :=
  match owned db userId id with
  | (.error e, db) => (.error e, db)
  | (.ok record, db) =>
    match record.device with
    | none => (.error .noPhone, db)
    | some device =>
      if record.status ≠ .claimed then (.error .noPhone, db)
      else (.ok device, { db with approving := id :: db.approving })

/-- The second half of `approve`, once the session is issued. -/
def approved (db : PairingDb) (session : PairedSession) : PairingDb :=
  let pairings := changeRecord db.pairings session.pairingId fun r => { r with
    status := .approved
    grant := some session.grant
    sessionToken := some session.token
    sessionExpiresAt := some session.expiresAt }
  { db with pairings, approving := db.approving.erase session.pairingId }

def deny (db : PairingDb) (userId id : Uuid) : Except PairingError Unit × PairingDb :=
  match owned db userId id with
  | (.error e, db) => (.error e, db)
  | (.ok record, db) =>
    if record.status = .approved then (.error .alreadyAdded, db)
    else
      let pairings := changeRecord db.pairings id fun r =>
        { r with status := .denied, grant := none }
      (.ok (), { db with pairings, denials := id :: db.denials })

/-- The phone polls this. A decided pairing is answered once and then forgotten; `none` is the
answer `waiting`. -/
def result (db : PairingDb) (id : Uuid) (claimToken : String) :
    Except PairingError (Option PairingResult) × PairingDb :=
  match withToken hashClaim db id claimToken with
  | (.error e, db) => (.error e, db)
  | (.ok record, db) =>
    match record.status with
    | .waiting => (.ok none, db)
    | .claimed => (.ok none, db)
    | .denied =>
      let pairings := removeRecord db.pairings id
      (.ok (some .denied), { db with pairings, results := (id, db.now, .denied) :: db.results })
    | .approved =>
      let pairings := removeRecord db.pairings id
      match record.grant, record.sessionToken, record.sessionExpiresAt with
      | some grant, some sessionToken, some expiresAt =>
        let answer := .approved sessionToken expiresAt grant
        (.ok (some answer), { db with pairings, results := (id, db.now, answer) :: db.results })
      | _, _, _ => (.error .gone, { db with pairings })

end PairingService

/-- The requests, and the clock moving on. -/
inductive PairingRequest where
  | create (userId : Uuid) (claimToken : String) (id : Uuid)
  | claim (id : Uuid) (claimToken : String) (device : DeviceInfo) (publicKey : PublicKey)
  | view (userId id : Uuid)
  | approve (userId id : Uuid) (grant : PairingGrant)
  | deny (userId id : Uuid)
  | result (id : Uuid) (claimToken : String)
  | clock (now : Timestamp)
  deriving DecidableEq, Repr

/-- Where a request stands. -/
inductive PairingTask where
  | received (request : PairingRequest)
  /-- `approve` waits for a session. -/
  | issuing (session : PairedSession)
  /-- The session is stored; `approve` has not continued yet. -/
  | issued (session : PairedSession)
  deriving DecidableEq, Repr

/-- A request that runs in one step, or the first step of `approve`. -/
def PairingRequest.serve (hashClaim : String → ℕ) (db : PairingDb) :
    PairingRequest → PairingDb × Option PairingTask
  | .create userId claimToken id => ((PairingService.create hashClaim db userId claimToken id).2, none)
  | .claim id claimToken device publicKey =>
    ((PairingService.claim hashClaim db id claimToken device publicKey).2, none)
  | .view userId id => ((PairingService.owned db userId id).2, none)
  | .approve userId id grant =>
    match PairingService.approve db userId id with
    | (.error _, db) => (db, none)
    | (.ok device, db) =>
      (db, some (.issuing ⟨id, grant, userId, device, "", db.now + sessionAbsoluteTtl⟩))
  | .deny userId id => ((PairingService.deny db userId id).2, none)
  | .result id claimToken => ((PairingService.result hashClaim db id claimToken).2, none)
  | .clock now => ({ db with now := max db.now now }, none)

/-- The next step of a request. `token` is the bearer token `issue` draws, or none when it
fails. -/
def PairingTask.proceed (hashClaim : String → ℕ) (db : PairingDb) (token : Option SessionToken) :
    PairingTask → PairingDb × Option PairingTask
  | .received request => request.serve hashClaim db
  | .issuing session =>
    match token with
    | none => ({ db with approving := db.approving.erase session.pairingId }, none)
    | some token =>
      let session := { session with token }
      ({ db with sessions := session :: db.sessions }, some (.issued session))
  | .issued session => (PairingService.approved db session, none)

/-- Any requests, in any order. An id that `create` draws is new. -/
def pairingProgram (hashClaim : String → ℕ) : Concurrent.Program PairingDb PairingTask where
  start _ task := ∃ request, task = .received request
  act db task db' next :=
    (∀ userId claimToken id, task = .received (.create userId claimToken id) →
      ∀ expiresAt, (id, expiresAt) ∉ db.created) ∧
    ∃ token, task.proceed hashClaim db token = (db', next)

end Zvault
