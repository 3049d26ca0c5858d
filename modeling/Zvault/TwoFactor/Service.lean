import Zvault.Concurrent.Tasks
import Zvault.Srp.Server
import Zvault.Db.Schema

/-!
# Two-step verification

`apps/api/src/two-factor/two-factor.service.ts` for one account. `mutate` is
split at its awaits: `find`, then the change, which reads the clock, then the
compare-and-set of `update`. The stored secrets are sealed with AES-GCM; opening
one returns what was sealed, so a record holds the secrets themselves. Reporting
the status and `isEnabled` write nothing and are left out.
-/

namespace Zvault

/-! ### Time-based codes

`apps/api/src/two-factor/totp.ts`, and what `two-factor.crypto.ts` compares by.
HMAC is a parameter. A counter that does not fit 64 bits is a thrown
`RangeError`, here `none`; the step before the first one is such a counter. -/

/-- The keyed hashes of the second factor. -/
structure TwoFactorCrypto where
  /-- HMAC-SHA1 of a message under a secret. -/
  hmac : Bytes → Bytes → Vector UInt8 20
  /-- `hashRecoveryCode` for one account. -/
  hashRecoveryCode : String → ℕ

/-- `TOTP_PARAMS.periodSeconds`. -/
def totpPeriodSeconds : ℕ := 30

/-- `TOTP_PARAMS.digits`. -/
def totpDigits : ℕ := 6

/-- `TOTP_DRIFT_STEPS`: codes from one step either side are accepted to absorb clock drift. -/
def totpDriftSteps : ℕ := 1

def timeStep (now : Timestamp) : ℤ := (now / 1000 / totpPeriodSeconds : ℕ)

/-- HOTP value for a counter. -/
def hotp (crypto : TwoFactorCrypto) (secret : Bytes) (counter : ℤ) : Option String :=
  if counter < 0 ∨ 2 ^ 64 ≤ counter then none
  else
    let msg := (Radix.padStart 8 (Radix.digits 256 counter.toNat)).map byteOf
    let mac := crypto.hmac secret msg
    let offset := (mac[19] &&& 0x0f).toNat
    let binary := SrpClient.int ((mac.toList.drop offset).take 4) &&& 0x7fffffff
    some (String.leftpad totpDigits '0' (toString (binary % 10 ^ totpDigits)))

/-- The steps whose codes are compared. -/
def candidateSteps (now : Timestamp) : List ℤ :=
  (List.range (2 * totpDriftSteps + 1)).map fun (i : ℕ) => timeStep now - totpDriftSteps + i

/-- The time step `code` is valid for. Steps at or before `lastUsedStep` are rejected. -/
def verifyTotp (crypto : TwoFactorCrypto) (secret : Bytes) (code : String) (now : Timestamp)
    (lastUsedStep : Option ℤ) : Option (Option ℤ) :=
  (candidateSteps now).foldlM (fun matched step => do
    let expected ← hotp crypto secret step
    if expected = code ∧ ∀ last ∈ lastUsedStep, last < step then
      return matched.or (some step)
    return matched) none

/-- An accepted step lies behind the last one. -/
theorem lt_of_verifyTotp {crypto : TwoFactorCrypto} {secret : Bytes} {code : String}
    {now : Timestamp} {lastUsedStep : Option ℤ} {step : ℤ}
    (h : verifyTotp crypto secret code now lastUsedStep = some (some step)) :
    ∀ last ∈ lastUsedStep, last < step := by
  -- what the loop has matched so far lies behind the last step
  have hloop : ∀ (steps : List ℤ) (matched : Option ℤ),
      (∀ m ∈ matched, ∀ last ∈ lastUsedStep, last < m) →
      steps.foldlM (fun matched step => do
        let expected ← hotp crypto secret step
        if expected = code ∧ ∀ last ∈ lastUsedStep, last < step then
          return matched.or (some step)
        return matched) matched = some (some step) → ∀ last ∈ lastUsedStep, last < step := by
    intro steps
    induction steps with
    | nil =>
      intro matched hmatched heq
      obtain rfl := Option.some_inj.mp heq
      exact hmatched step rfl
    | cons candidate steps ih =>
      intro matched hmatched heq
      rw [List.foldlM_cons] at heq
      cases hcode : hotp crypto secret candidate with
      | none =>
        rw [hcode] at heq
        cases heq
      | some expected =>
        rw [hcode] at heq
        simp only [Option.bind_eq_bind, Option.bind_some] at heq
        split at heq
        · rename_i hnew
          refine ih _ (fun m hm => ?_) heq
          cases matched with
          | none =>
            obtain rfl := Option.some_inj.mp hm
            exact hnew.2
          | some earlier => exact hmatched m hm
        · exact ih matched hmatched heq
  exact hloop (candidateSteps now) none (by simp) h

/-! ### The service -/

/-- `MAX_FAILED_ATTEMPTS`: wrong codes allowed before the second factor locks. -/
def maxFailedAttempts : ℕ := 5

/-- `LOCKOUT_MS`. -/
def lockout : ℕ := 15 * 60000

/-- `SETUP_TTL_MS`: how long a started setup waits for its first code. -/
def setupTtl : ℕ := 10 * 60000

/-- `MAX_WRITE_ATTEMPTS`. -/
def maxWriteAttempts : ℕ := 3

/-- `TwoFactorRecord`. -/
structure TwoFactorRecord where
  totpSecret : Option Bytes
  enabledAt : Option Timestamp
  lastUsedStep : Option ℤ
  pendingSecret : Option Bytes
  pendingExpiresAt : Option Timestamp
  recoveryCodeHashes : List ℕ
  failedAttempts : ℕ
  lockedUntil : Option Timestamp
  version : ℕ
  deriving DecidableEq

/-- `emptyRecord`. -/
def emptyRecord : TwoFactorRecord where
  totpSecret := none
  enabledAt := none
  lastUsedStep := none
  pendingSecret := none
  pendingExpiresAt := none
  recoveryCodeHashes := []
  failedAttempts := 0
  lockedUntil := none
  version := 0

/-- `TwoFactorProof`. -/
inductive TwoFactorProof where
  | code (code : String)
  | recoveryCode (code : String)
  deriving DecidableEq

inductive TwoFactorError where
  | alreadyEnabled
  | setupNotStarted
  | notEnabled
  | invalidCode
  | locked (until_ : Timestamp)
  | busy
  /-- The `RangeError` of a counter that does not fit. -/
  | counterRange
  deriving DecidableEq

/-- The calls that change the record, with the random values they draw: the secret of a setup,
and the codes whose hashes are stored. -/
inductive TwoFactorCall where
  | beginSetup (secret : Bytes) (expiresAt : Timestamp)
  | confirmSetup (code : String) (codes : List String)
  | verify (proof : TwoFactorProof)
  | regenerateRecoveryCodes (proof : TwoFactorProof) (codes : List String)
  | disable (proof : TwoFactorProof)
  deriving DecidableEq

namespace TwoFactorService

variable (crypto : TwoFactorCrypto)

def recordFailure (r : TwoFactorRecord) (now : Timestamp) : TwoFactorRecord :=
  let lockExpired := r.lockedUntil.any (· ≤ now)
  let failedAttempts := (if lockExpired then 0 else r.failedAttempts) + 1
  let lockedUntil := if maxFailedAttempts ≤ failedAttempts then some (now + lockout) else none
  { r with failedAttempts, lockedUntil }

def assertNotLocked (r : TwoFactorRecord) (now : Timestamp) : Except TwoFactorError Unit :=
  match r.lockedUntil with
  | some until_ => if now < until_ then throw (.locked until_) else return
  | none => return

/-- `verifyTotp`, as the service sees it: a thrown error or the matching step. -/
def totpStep (secret : Bytes) (code : String) (now : Timestamp) (lastUsedStep : Option ℤ) :
    Except TwoFactorError (Option ℤ) :=
  match verifyTotp crypto secret code now lastUsedStep with
  | some step => return step
  | none => throw .counterRange

/-- `findRecoveryCode`: the first entry that matches. -/
def findRecoveryCode (code : String) (hashes : List ℕ) : Option ℕ :=
  hashes.findIdx? (· = crypto.hashRecoveryCode code)

/-- The record with the proof spent, or with a failure recorded. -/
def consumeProof (r : TwoFactorRecord) (proof : TwoFactorProof) (now : Timestamp) :
    Except TwoFactorError TwoFactorRecord := do
  let some secret := r.totpSecret | throw .notEnabled
  assertNotLocked r now
  let ok := { r with failedAttempts := 0, lockedUntil := none }
  match proof with
  | .code code =>
    match ← totpStep crypto secret code now r.lastUsedStep with
    | none => return recordFailure r now
    | some step => return { ok with lastUsedStep := some step }
  | .recoveryCode code =>
    match findRecoveryCode crypto code r.recoveryCodeHashes with
    | none => return recordFailure r now
    | some index => return { ok with recoveryCodeHashes := r.recoveryCodeHashes.eraseIdx index }

/-- The change `beginSetup` makes. -/
def beginSetup (r : TwoFactorRecord) (secret : Bytes) (expiresAt : Timestamp) :
    Except TwoFactorError TwoFactorRecord := do
  if r.totpSecret.isSome then throw .alreadyEnabled
  return { r with pendingSecret := some secret, pendingExpiresAt := some expiresAt }

/-- The change `confirmSetup` makes. -/
def confirmSetup (r : TwoFactorRecord) (code : String) (codes : List String) (now : Timestamp) :
    Except TwoFactorError TwoFactorRecord := do
  if r.totpSecret.isSome then throw .alreadyEnabled
  let some pending := r.pendingSecret | throw .setupNotStarted
  let some expiresAt := r.pendingExpiresAt | throw .setupNotStarted
  if expiresAt ≤ now then throw .setupNotStarted
  assertNotLocked r now
  match ← totpStep crypto pending code now none with
  | none => return recordFailure r now
  | some step => return { r with
      totpSecret := some pending
      enabledAt := some now
      lastUsedStep := some step
      pendingSecret := none
      pendingExpiresAt := none
      recoveryCodeHashes := codes.map crypto.hashRecoveryCode
      failedAttempts := 0
      lockedUntil := none }

/-- The change `regenerateRecoveryCodes` makes. -/
def regenerateRecoveryCodes (r : TwoFactorRecord) (proof : TwoFactorProof) (codes : List String)
    (now : Timestamp) : Except TwoFactorError TwoFactorRecord := do
  let next ← consumeProof crypto r proof now
  if 0 < next.failedAttempts then return next
  return { next with recoveryCodeHashes := codes.map crypto.hashRecoveryCode }

/-- The change `disable` makes. -/
def disable (r : TwoFactorRecord) (proof : TwoFactorProof) (now : Timestamp) :
    Except TwoFactorError TwoFactorRecord := do
  let next ← consumeProof crypto r proof now
  if 0 < next.failedAttempts then return next
  return { next with
    totpSecret := none
    enabledAt := none
    lastUsedStep := none
    pendingSecret := none
    pendingExpiresAt := none
    recoveryCodeHashes := [] }

/-- The `change` each call hands to `mutate`. -/
def change (call : TwoFactorCall) (r : TwoFactorRecord) (now : Timestamp) :
    Except TwoFactorError TwoFactorRecord :=
  match call with
  | .beginSetup secret expiresAt => beginSetup r secret expiresAt
  | .confirmSetup code codes => confirmSetup crypto r code codes now
  | .verify proof => consumeProof crypto r proof now
  | .regenerateRecoveryCodes proof codes => regenerateRecoveryCodes crypto r proof codes now
  | .disable proof => disable crypto r proof now

/-- How `mutate` answers once its write went through: a result whose `failedAttempts` went up
is a rejected proof. -/
def outcome (current next : TwoFactorRecord) : Except TwoFactorError Unit :=
  if 0 < next.failedAttempts ∧ next.failedAttempts ≠ current.failedAttempts then
    match next.lockedUntil with
    | some until_ => throw (.locked until_)
    | none => throw .invalidCode
  else return

end TwoFactorService

/-- `update` of the repository: writes `next` only if the stored version is `expectedVersion`;
0 means "not stored yet". -/
def updateTwoFactor (row : Option TwoFactorRecord) (next : TwoFactorRecord) (expectedVersion : ℕ) :
    Option (Option TwoFactorRecord) :=
  let values := { next with version := expectedVersion + 1 }
  match row with
  | none => if expectedVersion = 0 then some (some values) else none
  | some stored =>
    if expectedVersion ≠ 0 ∧ stored.version = expectedVersion then some (some values) else none

/-- Where a call stands in `mutate`. -/
inductive MutateState where
  | finding
  /-- The record is read. -/
  | found (current : TwoFactorRecord)
  /-- The change is made, by the clock's `now`; the write is under way. -/
  | updating (current next : TwoFactorRecord) (now : Timestamp)
  deriving DecidableEq

/-- A call in progress. -/
structure TwoFactorTask where
  call : TwoFactorCall
  attempt : ℕ
  state : MutateState
  deriving DecidableEq

/-- A write that went through, and the call it was made for. -/
structure TwoFactorWrite where
  call : TwoFactorCall
  current : TwoFactorRecord
  next : TwoFactorRecord
  now : Timestamp
  deriving DecidableEq

/-- The account's row, and the writes that went through so far, the last one first. -/
structure TwoFactorDb where
  row : Option TwoFactorRecord
  writes : List TwoFactorWrite
  deriving DecidableEq

/-- The next step of a call. -/
def TwoFactorTask.proceed (crypto : TwoFactorCrypto) (db : TwoFactorDb) (task : TwoFactorTask)
    (clock : Timestamp) : TwoFactorDb × Option TwoFactorTask :=
  match task.state with
  | .finding => (db, some { task with state := .found (db.row.getD emptyRecord) })
  | .found current =>
    match TwoFactorService.change crypto task.call current clock with
    | .error _ => (db, none)
    | .ok next => (db, some { task with state := .updating current next clock })
  | .updating current next now =>
    match updateTwoFactor db.row next current.version with
    | some row => ({ row, writes := ⟨task.call, current, next, now⟩ :: db.writes }, none)
    | none =>
      (db, if task.attempt + 1 < maxWriteAttempts then
        some { task with attempt := task.attempt + 1, state := .finding } else none)

/-- Any calls, at any readings of the clock. -/
def twoFactorProgram (crypto : TwoFactorCrypto) : Concurrent.Program TwoFactorDb TwoFactorTask where
  start _ task := task.attempt = 0 ∧ task.state = .finding
  act db task db' next := ∃ clock, task.proceed crypto db clock = (db', next)

/-- An account without a second factor. -/
def TwoFactorDb.initial : TwoFactorDb := ⟨none, []⟩

end Zvault
