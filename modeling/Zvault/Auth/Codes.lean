import Zvault.Db.Schema
import Mathlib.Data.List.Sort

/-!
# Emailed codes

The signup code (`apps/api/src/auth/signup.service.ts`) and the recovery code
(`apps/api/src/auth/recovery.service.ts`). Both services run the same statements
on a table of their own; they differ in what a submission must match. `verify`
is split at its awaits: each step runs one database statement, and what follows
it up to the next one. Emails are left out.
-/

namespace Zvault

open Relational

/-- A row of `email_verifications` or `account_recoveries`. -/
structure CodeRow where
  id : Uuid
  /-- `account_recoveries` only. -/
  accountId : Option Uuid
  email : String
  codeHash : ℕ
  attempts : ℕ
  expiresAt : Timestamp
  verifiedAt : Option Timestamp
  /-- Closed without success: superseded, or too many wrong codes. -/
  closedAt : Option Timestamp
  tokenHash : Option ℕ
  tokenExpiresAt : Option Timestamp
  tokenUsedAt : Option Timestamp
  createdAt : Timestamp
  deriving DecidableEq, Repr

/-- `accounts`, with the columns a recovery reads. -/
structure AccountRow where
  id : Uuid
  email : String
  recoveryVerifier : Option ℕ
  recoveryKeyset : Option ℕ
  deriving DecidableEq, Repr

/-- The hashes the services compare by. -/
structure Hashes where
  /-- `hmac` of an address and a code, with the service's own label. -/
  codeHash : String → String → ℕ
  hashToken : String → ℕ
  /-- `sha256` of a recovery auth token. -/
  authHash : String → ℕ

/-- A request to `verify`; only a recovery sends `recoveryAuth`. `now` is read when it
arrives. -/
structure VerifyRequest where
  email : String
  code : String
  recoveryAuth : String
  now : Timestamp
  deriving DecidableEq, Repr

/-- Where a request to `verify` stands. -/
inductive VerifyState where
  | received
  /-- The pending row is read; a recovery reads the account next. -/
  | selected (pending : CodeRow)
  /-- Compared as different; the attempt is not counted yet. -/
  | mismatched (id : Uuid)
  /-- Compared as equal; the row is not claimed yet. -/
  | matched (id : Uuid)
  /-- Answered with a token, or with an error. -/
  | answered (token : Option String)
  deriving DecidableEq, Repr

/-- `CODE_TTL_MINUTES` and `RECOVERY_CODE_TTL_MINUTES`, in milliseconds. -/
def codeTtl : ℕ := 15 * 60000

/-- `SIGNUP_TOKEN_TTL_MINUTES` in milliseconds. -/
def signupTokenTtl : ℕ := 30 * 60000

/-- `RECOVERY_TOKEN_TTL_MINUTES` in milliseconds. -/
def recoveryTokenTtl : ℕ := 15 * 60000

/-- `MAX_CODE_ATTEMPTS`. -/
def maxCodeAttempts : ℕ := 5

/-- `MAX_RECOVERY_ATTEMPTS`. -/
def maxRecoveryAttempts : ℕ := 5

/-- `RESEND_COOLDOWN_MS` and `RECOVERY_RESEND_COOLDOWN_MS`. -/
def resendCooldown : ℕ := 60000

/-- `MAX_CODES_PER_HOUR` and `MAX_RECOVERY_CODES_PER_HOUR`. -/
def maxCodesPerHour : ℕ := 5

/-- The table of one service. -/
abbrev CodeTable := Table CodeRow.id

/-- A row that can still be verified. -/
def CodeRow.isOpen (r : CodeRow) : Bool := r.verifiedAt = none ∧ r.closedAt = none

/-- The row `verify` checks a submission against: the newest open one of the address. -/
def pendingCode (codes : CodeTable) (email : String) (now : Timestamp) : Option CodeRow :=
  ((codes.select fun r => r.email = email ∧ r.isOpen ∧ now < r.expiresAt).insertionSort
    fun a b => b.createdAt ≤ a.createdAt).head?

/-- Counts a wrong submission, and closes the row with the last one allowed. -/
def countAttempt (max : ℕ) (codes : CodeTable) (id : Uuid) (now : Timestamp) : CodeTable :=
  codes.update (fun r => r.id = id) fun r => { r with
    attempts := r.attempts + 1
    closedAt := if max ≤ r.attempts + 1 then some now else r.closedAt }

/-- Claims an open row for a token. `false` when the row is not open any more. -/
def claimCode (codes : CodeTable) (id : Uuid) (tokenHash : ℕ) (tokenTtl : ℕ) (now : Timestamp) :
    Bool × CodeTable :=
  (codes.rows.any fun r => r.id = id ∧ r.isOpen,
    codes.update (fun r => r.id = id ∧ r.isOpen) fun r => { r with
      verifiedAt := some now, tokenHash := some tokenHash, tokenExpiresAt := some (now + tokenTtl) })

/-- The transaction of `start`: closes the address's open rows and adds a new one, unless
codes were requested too often. A row that is never valid is closed from the start. -/
def issueCode (codes : CodeTable) (id : Uuid) (accountId : Option Uuid) (email : String)
    (codeHash : ℕ) (valid : Bool) (now : Timestamp) : Option CodeTable :=
  let recent := (codes.select fun r =>
    r.email = email ∧ now < r.createdAt + 3600000).insertionSort fun a b => b.createdAt ≤ a.createdAt
  if maxCodesPerHour ≤ recent.length ∨
      recent.head?.any (fun last => now < last.createdAt + resendCooldown) then none
  else
    (codes.update (fun r => r.email = email ∧ r.isOpen) fun r => { r with
      closedAt := some now }).insertAll
        [{ id, accountId, email, codeHash, attempts := 0, expiresAt := now + codeTtl
           verifiedAt := none, closedAt := if valid then none else some now, tokenHash := none
           tokenExpiresAt := none, tokenUsedAt := none, createdAt := now }]

/-- The statement by which `complete` spends a token. -/
def spendToken (codes : CodeTable) (tokenHash : ℕ) (now : Timestamp) : CodeTable :=
  codes.update (fun r => r.tokenHash = some tokenHash ∧ r.tokenUsedAt = none ∧
    r.tokenExpiresAt.any fun t => now < t) fun r => { r with tokenUsedAt := some now }

namespace SignupService

/-- `start`, for an address without an account; a registered one gets a row that is never
valid. -/
def start (hashes : Hashes) (accounts : Table AccountRow.id) (codes : CodeTable) (id : Uuid)
    (email code : String) (randomHash : ℕ) (now : Timestamp) : Option CodeTable :=
  let existing := accounts.rows.any fun a => a.email = email
  issueCode codes id none email (if existing then randomHash else hashes.codeHash email code)
    (!existing) now

/-- The next statement of `verify`. `token` is drawn and `clock` read by the statement that
needs it. -/
def verify (hashes : Hashes) (codes : CodeTable) (req : VerifyRequest) (token : String)
    (clock : Timestamp) : VerifyState → VerifyState × CodeTable
  | .received =>
    match pendingCode codes req.email req.now with
    | none => (.answered none, codes)
    | some pending =>
      if pending.codeHash ≠ hashes.codeHash req.email req.code then (.mismatched pending.id, codes)
      else (.matched pending.id, codes)
  | .mismatched id => (.answered none, countAttempt maxCodeAttempts codes id clock)
  | .matched id =>
    match claimCode codes id (hashes.hashToken token) signupTokenTtl req.now with
    | (true, codes) => (.answered (some token), codes)
    | (false, codes) => (.answered none, codes)
  | state => (state, codes)

end SignupService

namespace RecoveryService

/-- `start`: an address without a recovery code gets a row that is never valid. -/
def start (hashes : Hashes) (accounts : Table AccountRow.id) (codes : CodeTable) (id : Uuid)
    (email code : String) (randomHash : ℕ) (now : Timestamp) : Option CodeTable :=
  let account := accounts.rows.find? fun a => a.email = email
  let recoverable := account.any fun a => a.recoveryVerifier.isSome
  issueCode codes id (account.map AccountRow.id) email
    (if recoverable then hashes.codeHash email code else randomHash) recoverable now

/-- Whether a submission matches: the code, the recovery auth token, and a keyset to release. -/
def isMatch (hashes : Hashes) (accounts : Table AccountRow.id) (req : VerifyRequest)
    (pending : CodeRow) : Bool :=
  let account := pending.accountId.bind accounts.find
  let codeOk : Bool := pending.codeHash = hashes.codeHash req.email req.code
  let authOk : Bool := account.bind AccountRow.recoveryVerifier =
    some (hashes.authHash req.recoveryAuth)
  codeOk && authOk && (account.bind AccountRow.recoveryKeyset).isSome

/-- The next statement of `verify`. -/
def verify (hashes : Hashes) (accounts : Table AccountRow.id) (codes : CodeTable)
    (req : VerifyRequest) (token : String) (clock : Timestamp) :
    VerifyState → VerifyState × CodeTable
  | .received =>
    match pendingCode codes req.email req.now with
    | none => (.answered none, codes)
    | some pending =>
      if pending.accountId = none then (.answered none, codes) else (.selected pending, codes)
  | .selected pending =>
    if !isMatch hashes accounts req pending then (.mismatched pending.id, codes)
    else (.matched pending.id, codes)
  | .mismatched id => (.answered none, countAttempt maxRecoveryAttempts codes id clock)
  | .matched id =>
    match claimCode codes id (hashes.hashToken token) recoveryTokenTtl req.now with
    | (true, codes) => (.answered (some token), codes)
    | (false, codes) => (.answered none, codes)
  | state => (state, codes)

end RecoveryService

end Zvault
