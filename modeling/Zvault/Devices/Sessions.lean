import Mathlib.Data.Int.Notation
import Zvault.Db.Schema
import Zvault.Relational.Table

/-!
# Sessions

`session.store.ts` and `drizzle-session.store.ts`: the two stores of signed-in
sessions. Both take ids as texts: memory compares the texts, the database the values
that it reads them as. Times are in milliseconds.
-/

namespace Zvault.Devices

open Relational

structure DeviceInfo where
  name : String
  platform : String
  appVersion : String
  deriving DecidableEq, Repr

/-- How the database reads a uuid and how it writes it. It reads more than it writes: capitals,
for one, are read as small letters. -/
structure UuidText where
  parse : String → Option Uuid
  print : Uuid → String
  parse_print (id : Uuid) : parse (print id) = some id

theorem UuidText.print_inj (T : UuidText) {id id' : Uuid} :
    T.print id = T.print id' ↔ id = id' := by
  refine ⟨fun h => ?_, fun h => h ▸ rfl⟩
  rw [← Option.some_inj, ← T.parse_print id, h, T.parse_print]

/-- A server-side session. Of its token only the hash is kept. -/
structure Session (Hash : Type) where
  id : String
  userId : String
  device : DeviceInfo
  tokenHash : Hash
  createdAt : ℤ
  lastSeenAt : ℤ
  expiresAt : ℤ
  deriving DecidableEq, Repr

/-- `SESSION_ABSOLUTE_TTL_MS`. -/
def absoluteTtl : ℤ := 90 * 24 * 60 * 60 * 1000

/-- `SESSION_IDLE_TTL_MS`. -/
def idleTtl : ℤ := 30 * 24 * 60 * 60 * 1000

/-- `TOUCH_GRANULARITY_MS`. -/
def touchGranularity : ℤ := 60 * 1000

variable {Hash : Type} [DecidableEq Hash]

def isLive (s : Session Hash) (now : ℤ) : Bool :=
  now < s.expiresAt ∧ now - s.lastSeenAt < idleTtl

/-- What a call returns. -/
inductive Returned (Hash : Type) where
  | issued (session : Session Hash) (token : String)
  | session (s : Option (Session Hash))
  | sessions (sessions : List (Session Hash))
  | revoked (any : Bool)
  | count (n : ℕ)
  | failed
  deriving DecidableEq, Repr

/-- The session that `issue` makes. -/
def newSession (id userId : String) (device : DeviceInfo) (tokenHash : Hash) (now : ℤ) :
    Session Hash :=
  ⟨id, userId, device, tokenHash, now, now, now + absoluteTtl⟩

/-- Maps in the order of insertion. -/
structure InMemorySessionStore (Hash : Type) where
  byId : Table (Session.id : Session Hash → String)
  idByTokenHash : Table (Prod.fst : Hash × String → Hash)

namespace InMemorySessionStore

variable (store : InMemorySessionStore Hash)

def empty : InMemorySessionStore Hash := ⟨Table.empty, Table.empty⟩

/-- `delete`. -/
def remove (s : Session Hash) : InMemorySessionStore Hash where
  byId := store.byId.delete fun r => r.id = s.id
  idByTokenHash := store.idByTokenHash.delete fun e => e.1 = s.tokenHash

/-- `issue`, with the generated id and token, which are new to both maps. -/
def issue (hashToken : String → Hash) (userId : String) (device : DeviceInfo) (id : String)
    (token : String) (now : ℤ) : Returned Hash × InMemorySessionStore Hash :=
  let session := newSession id userId device (hashToken token) now
  (.issued session token,
    ⟨store.byId.insertNew session, store.idByTokenHash.insertNew (session.tokenHash, session.id)⟩)

/-- The session of a token hash. -/
def lookup (hash : Hash) : Option (Session Hash) :=
  (store.idByTokenHash.find hash).bind fun e => store.byId.find e.2

/-- `session.lastSeenAt = now`. -/
def touch (id : String) (now : ℤ) : InMemorySessionStore Hash where
  byId := store.byId.update (fun s => s.id = id) fun s => { s with lastSeenAt := now }
  idByTokenHash := store.idByTokenHash

omit [DecidableEq Hash] in
theorem mem_touch {id : String} {now : ℤ} {m : Session Hash} : m ∈ (store.touch id now).byId ↔
    ∃ m₀ ∈ store.byId, m = if m₀.id = id then { m₀ with lastSeenAt := now } else m₀ := by
  rw [touch, Table.mem_update]
  simp only [decide_eq_true_eq]

def authenticate (hashToken : String → Hash) (token : String) (now : ℤ) :
    Returned Hash × InMemorySessionStore Hash :=
  match store.lookup (hashToken token) with
  | none => (.session none, store)
  | some session =>
    if !isLive session now then (.session none, store.remove session)
    else if touchGranularity ≤ now - session.lastSeenAt then
      (.session (some { session with lastSeenAt := now }), store.touch session.id now)
    else (.session (some session), store)

/-- The user's live sessions are listed, the others deleted. -/
def listForUser (userId : String) (now : ℤ) : Returned Hash × InMemorySessionStore Hash :=
  let mine := store.byId.select fun s => s.userId = userId
  (.sessions (mine.filter (isLive · now)), (mine.filter (!isLive · now)).foldl remove store)

def revoke (userId sessionId : String) : Returned Hash × InMemorySessionStore Hash :=
  match store.byId.find sessionId with
  | none => (.revoked false, store)
  | some session =>
    if session.userId ≠ userId then (.revoked false, store)
    else (.revoked true, store.remove session)

def revokeAllExcept (userId keepSessionId : String) : Returned Hash × InMemorySessionStore Hash :=
  let others := store.byId.select fun s => s.userId = userId ∧ s.id ≠ keepSessionId
  (.count others.length, others.foldl remove store)

end InMemorySessionStore

/-- A row of `sessions`. -/
structure SessionRow (Hash : Type) where
  id : Uuid
  accountId : Uuid
  device : DeviceInfo
  tokenHash : Hash
  createdAt : ℤ
  lastSeenAt : ℤ
  expiresAt : ℤ
  revokedAt : Option ℤ
  deriving DecidableEq, Repr

/-- `toSession`. -/
def SessionRow.toSession (T : UuidText) (r : SessionRow Hash) : Session Hash :=
  ⟨T.print r.id, T.print r.accountId, r.device, r.tokenHash, r.createdAt, r.lastSeenAt, r.expiresAt⟩

/-- Not revoked, within the absolute lifetime, and used within the idle window. -/
def live (r : SessionRow Hash) (now : ℤ) : Bool :=
  r.revokedAt = none ∧ now < r.expiresAt ∧ now - idleTtl < r.lastSeenAt

/-- `DrizzleSessionStore`: the table. A query with a text that is no uuid fails. -/
structure DrizzleSessionStore (Hash : Type) where
  sessions : Table (SessionRow.id : SessionRow Hash → Uuid)

namespace DrizzleSessionStore

variable (store : DrizzleSessionStore Hash) (T : UuidText)

def empty : DrizzleSessionStore Hash := ⟨Table.empty⟩

/-- The row of a new session. The token hash of a row is unique. -/
def insertRow (hashToken : String → Hash) (accountId : Uuid) (device : DeviceInfo) (id : Uuid)
    (token : String) (now : ℤ) : Returned Hash × DrizzleSessionStore Hash :=
  let row : SessionRow Hash :=
    ⟨id, accountId, device, hashToken token, now, now, now + absoluteTtl, none⟩
  if store.sessions.rows.any fun r => r.tokenHash = row.tokenHash then (.failed, store)
  else
    match store.sessions.insertAll [row] with
    | none => (.failed, store)
    | some sessions => (.issued (row.toSession T) token, ⟨sessions⟩)

def issue (hashToken : String → Hash) (userId : String) (device : DeviceInfo) (id : Uuid)
    (token : String) (now : ℤ) : Returned Hash × DrizzleSessionStore Hash :=
  match T.parse userId with
  | none => (.failed, store)
  | some accountId => store.insertRow T hashToken accountId device id token now

/-- The update of `lastSeenAt`. -/
def touch (id : Uuid) (now : ℤ) : DrizzleSessionStore Hash :=
  ⟨store.sessions.update (fun r => r.id = id) fun r => { r with lastSeenAt := now }⟩

omit [DecidableEq Hash] in
theorem mem_touch {id : Uuid} {now : ℤ} {r : SessionRow Hash} :
    r ∈ (store.touch id now).sessions ↔
      ∃ r₀ ∈ store.sessions, r = if r₀.id = id then { r₀ with lastSeenAt := now } else r₀ := by
  rw [touch, Table.mem_update]
  simp only [decide_eq_true_eq]

def authenticate (hashToken : String → Hash) (token : String) (now : ℤ) :
    Returned Hash × DrizzleSessionStore Hash :=
  match (store.sessions.select fun r => r.tokenHash = hashToken token ∧ live r now).head? with
  | none => (.session none, store)
  | some row =>
    if touchGranularity ≤ now - row.lastSeenAt then
      (.session (some (SessionRow.toSession T { row with lastSeenAt := now })),
        store.touch row.id now)
    else (.session (some (row.toSession T)), store)

def listForUser (userId : String) (now : ℤ) : Returned Hash × DrizzleSessionStore Hash :=
  match T.parse userId with
  | none => (.failed, store)
  | some accountId =>
    (.sessions ((store.sessions.select fun r => r.accountId = accountId ∧ live r now).map
      (SessionRow.toSession T)), store)

/-- `set({ revokedAt: now })`. -/
def setRevoked (p : SessionRow Hash → Bool) (now : ℤ) : DrizzleSessionStore Hash :=
  ⟨store.sessions.update p fun r => { r with revokedAt := some now }⟩

omit [DecidableEq Hash] in
theorem mem_setRevoked {p : SessionRow Hash → Bool} {now : ℤ} {r : SessionRow Hash} :
    r ∈ (store.setRevoked p now).sessions ↔
      ∃ r₀ ∈ store.sessions, r = if p r₀ then { r₀ with revokedAt := some now } else r₀ := by
  rw [setRevoked, Table.mem_update]

def revoke (userId sessionId : String) (now : ℤ) : Returned Hash × DrizzleSessionStore Hash :=
  match T.parse userId, T.parse sessionId with
  | some accountId, some id =>
    let revoked (r : SessionRow Hash) : Bool :=
      r.id = id ∧ r.accountId = accountId ∧ r.revokedAt = none
    (.revoked (0 < (store.sessions.select revoked).length), store.setRevoked revoked now)
  | _, _ => (.failed, store)

def revokeAllExcept (userId keepSessionId : String) (now : ℤ) :
    Returned Hash × DrizzleSessionStore Hash :=
  match T.parse userId, T.parse keepSessionId with
  | some accountId, some keep =>
    let revoked (r : SessionRow Hash) : Bool :=
      r.accountId = accountId ∧ r.id ≠ keep ∧ r.revokedAt = none
    (.count (store.sessions.select revoked).length, store.setRevoked revoked now)
  | _, _ => (.failed, store)

end DrizzleSessionStore

end Zvault.Devices
