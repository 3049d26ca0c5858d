import Zvault.Auth.Codes
import Zvault.Srp.Server
import Zvault.Concurrent.Tasks

/-!
# Sign-in and password changes

`apps/api/src/auth/login.service.ts`, `changePassword` and `complete` of
`recovery.service.ts`, and the session store, split at their awaits. The
transaction of a password change holds its account's row from its update on;
what it writes is seen, and what it deletes is gone, when it commits. Whether
an account has a second factor, and whether a code for it is right, is taken as
given. Devices, keysets and the notices sent by mail are left out.
-/

namespace Zvault

open Relational

/-- `accounts`, with the columns a login reads. -/
structure LoginAccount where
  id : Uuid
  email : String
  /-- The salt of `kdf`. -/
  salt : Bytes
  srpVerifier : Bytes
  /-- How often the verifier was replaced. -/
  version : ℕ
  deriving DecidableEq

/-- A row of `srp_challenges`. -/
structure LoginChallenge where
  id : Uuid
  accountId : Option Uuid
  email : String
  challenge : SrpServer.ServerChallenge
  expiresAt : Timestamp
  deriving DecidableEq

/-- A row of `login_two_factor_challenges`: a login that waits for its second factor. -/
structure PendingLogin where
  id : Uuid
  accountId : Uuid
  tokenHash : ℕ
  attempts : ℕ
  expiresAt : Timestamp
  /-- The version of the verifier that the login's proof was checked against. -/
  version : ℕ
  deriving DecidableEq

/-- A row of `sessions`. -/
structure LoginSession where
  id : Uuid
  accountId : Uuid
  tokenHash : ℕ
  createdAt : Timestamp
  lastSeenAt : Timestamp
  expiresAt : Timestamp
  revokedAt : Option Timestamp
  /-- The version of the verifier the session rests on: the one its login proved, or the one
  that the recovery that created it set. -/
  version : ℕ
  deriving DecidableEq

/-- The transaction of a password change that has not committed. -/
structure OpenChange where
  accountId : Uuid
  /-- The challenges it has deleted. -/
  challenges : List Uuid
  /-- The pending logins it has deleted, once that statement has run. -/
  logins : Option (List Uuid)
  deriving DecidableEq

/-- A password change or recovery that has signed out the other sessions. -/
structure SignedOut where
  accountId : Uuid
  /-- The session it kept or created. -/
  keep : Uuid
  /-- The version of the verifier it set. -/
  version : ℕ
  deriving DecidableEq

/-- The tables, the transactions in progress, and the changes that were made. Two transactions
never hold one account's row. -/
structure AuthDb where
  accounts : Table LoginAccount.id
  challenges : Table LoginChallenge.id
  pendingLogins : Table PendingLogin.id
  sessions : Table LoginSession.id
  recoveries : CodeTable
  changes : Table OpenChange.accountId
  signedOut : List SignedOut

/-- `CHALLENGE_TTL_MINUTES` in milliseconds. -/
def challengeTtl : ℕ := 2 * 60000

/-- `TWO_FACTOR_CHALLENGE_TTL_MINUTES` in milliseconds. -/
def twoFactorChallengeTtl : ℕ := 5 * 60000

/-- `TWO_FACTOR_CHALLENGE_MAX_ATTEMPTS`. -/
def twoFactorChallengeMaxAttempts : ℕ := 5

/-- `SESSION_IDLE_TTL_MS`. -/
def sessionIdleTtl : ℕ := 30 * 24 * 60 * 60 * 1000

/-- What the services compute with. -/
structure LoginCrypto where
  sha : Sha256
  hashToken : String → ℕ
  /-- The fake salt and verifier of an address without an account. -/
  decoy : String → Bytes × Bytes

/-- What a step draws, reads from the clock, or asks the second factor. -/
structure LoginDraw where
  id : Uuid
  token : String
  secretB : Bytes
  now : Timestamp
  /-- `isEnabled`. -/
  enabled : Bool
  /-- `verify` of the second factor did not throw. -/
  accepted : Bool
  deriving DecidableEq

namespace SessionStore

/-- `live`: not revoked, within the absolute lifetime, and used within the idle window. -/
def isLive (s : LoginSession) (now : Timestamp) : Bool :=
  s.revokedAt = none ∧ now < s.expiresAt ∧ now < s.lastSeenAt + sessionIdleTtl

/-- `issue`. A session id that is taken aborts the insert. -/
def issue (crypto : LoginCrypto) (db : AuthDb) (draw : LoginDraw) (accountId : Uuid)
    (version : ℕ) : Option AuthDb :=
  let session := {
    id := draw.id
    accountId
    tokenHash := crypto.hashToken draw.token
    createdAt := draw.now
    lastSeenAt := draw.now
    expiresAt := draw.now + sessionAbsoluteTtl
    revokedAt := none
    version }
  if db.sessions.hasKey draw.id then none
  else some { db with sessions := db.sessions.insertNew session }

/-- `revokeAllExcept`. -/
def revokeAllExcept (db : AuthDb) (accountId keep : Uuid) (now : Timestamp) : AuthDb :=
  let sessions := db.sessions.update
    (fun s => s.accountId = accountId ∧ s.id ≠ keep ∧ s.revokedAt = none)
    fun s => { s with revokedAt := some now }
  { db with sessions }

end SessionStore

/-- Whether a transaction holds a challenge's row. -/
def AuthDb.challengeHeld (db : AuthDb) (id : Uuid) : Bool :=
  db.changes.rows.any fun c => id ∈ c.challenges

/-- Whether a transaction holds a pending login's row. -/
def AuthDb.loginHeld (db : AuthDb) (id : Uuid) : Bool :=
  db.changes.rows.any fun c => c.logins.any fun ids => id ∈ ids

/-- How a password change ends. -/
inductive ChangeEnding where
  /-- `changePassword` keeps the session that asked for it. -/
  | keep (session : Uuid)
  /-- `complete` spends its recovery token and creates a session. It has read the clock at
  `now`. -/
  | recover (tokenHash : ℕ) (now : Timestamp)
  deriving DecidableEq

/-- A password change, with what it writes. -/
structure PasswordChange where
  accountId : Uuid
  salt : Bytes
  srpVerifier : Bytes
  ending : ChangeEnding
  deriving DecidableEq

/-- Where a request stands. -/
inductive AuthTask where
  | start (email : String)
  /-- The expired challenges are deleted. -/
  | startSelect (email : String)
  | startInsert (accountId : Option Uuid) (email : String) (challenge : SrpServer.ServerChallenge)
  | finish (loginId : Uuid) (srpA srpM1 : Bytes)
  /-- The challenge is spent; the account is read next. -/
  | finishSelect (challenge : LoginChallenge) (srpA srpM1 : Bytes)
  /-- The proof held for this version of the verifier; `isEnabled` is asked next. -/
  | proved (accountId : Uuid) (version : ℕ)
  /-- The account has a second factor; the expired pending logins are deleted next. -/
  | clean (accountId : Uuid) (version : ℕ) (now : Timestamp)
  | park (accountId : Uuid) (version : ℕ) (now : Timestamp)
  /-- A session is issued next. `seen` is the account's version when the login was last known to
  be good: at its proof, or when its pending login was spent. -/
  | openSession (accountId : Uuid) (version seen : ℕ)
  | finishTwoFactor (token : String)
  /-- The attempt is counted; the second factor is asked next. -/
  | verifyProof (login : PendingLogin)
  | spend (login : PendingLogin)
  | spent (login : PendingLogin) (seen : ℕ)
  | changePassword (change : PasswordChange) (loginId : Uuid) (srpA srpM1 : Bytes)
  /-- The challenge is spent; the account is read next. -/
  | reauthenticate (change : PasswordChange) (challenge : LoginChallenge) (srpA srpM1 : Bytes)
  | complete (token : String) (salt srpVerifier : Bytes)
  | secondFactor (change : PasswordChange)
  /-- The transaction starts next. -/
  | update (change : PasswordChange)
  | dropChallenges (change : PasswordChange)
  | dropLogins (change : PasswordChange)
  | commit (change : PasswordChange)
  /-- A recovery has set this version of the verifier; it creates its session next. -/
  | recovered (accountId : Uuid) (version : ℕ)
  | revokeAllExcept (accountId keep : Uuid) (version : ℕ)
  deriving DecidableEq

/-- A step ends in a state and, unless the request is done, in what it does next. -/
abbrev AuthStepResult := AuthDb × Option AuthTask

namespace LoginService

variable (crypto : LoginCrypto)

/-- Whether `verifyClient` accepts, for the account or the decoy of an address that has none. -/
def verifies (account : Option LoginAccount) (c : LoginChallenge) (srpA srpM1 : Bytes) : Bool :=
  let decoy := crypto.decoy c.email
  let salt := (account.map LoginAccount.salt).getD decoy.1
  let verifier := (account.map LoginAccount.srpVerifier).getD decoy.2
  (SrpServer.verifyClient crypto.sha c.email salt verifier c.challenge srpA srpM1).join.isSome

/-- The select of `start`, and the challenge it makes. A verifier out of range throws. -/
def startSelect (db : AuthDb) (draw : LoginDraw) (email : String) : AuthStepResult :=
  let account := db.accounts.rows.find? fun a => a.email = email
  let verifier := (account.map LoginAccount.srpVerifier).getD (crypto.decoy email).2
  match SrpServer.createChallenge crypto.sha verifier draw.secretB with
  | none => (db, none)
  | some challenge => (db, some (.startInsert (account.map LoginAccount.id) email challenge))

/-- The insert of `start`. -/
def startInsert (db : AuthDb) (draw : LoginDraw) (accountId : Option Uuid) (email : String)
    (challenge : SrpServer.ServerChallenge) : AuthStepResult :=
  let row := ⟨draw.id, accountId, email, challenge, draw.now + challengeTtl⟩
  if db.challenges.hasKey draw.id then (db, none)
  else ({ db with challenges := db.challenges.insertNew row }, none)

/-- Delete on read: each challenge can be tried exactly once. -/
def takeChallenge (db : AuthDb) (loginId : Uuid) (now : Timestamp) : AuthDb × Option LoginChallenge :=
  ({ db with challenges := db.challenges.delete fun c => c.id = loginId },
    (db.challenges.find loginId).filter fun c => now < c.expiresAt)

/-- The select of `finish`, and the check of the proof. -/
def finishSelect (db : AuthDb) (c : LoginChallenge) (srpA srpM1 : Bytes) : AuthStepResult :=
  let account := c.accountId.bind db.accounts.find
  let verified := verifies crypto account c srpA srpM1
  match account with
  | none => (db, none)
  | some account =>
    if verified then (db, some (.proved account.id account.version)) else (db, none)

/-- The insert by which `finish` parks a login until its second factor is there. -/
def park (db : AuthDb) (draw : LoginDraw) (accountId : Uuid) (version : ℕ) (now : Timestamp) :
    AuthStepResult :=
  let row := ⟨draw.id, accountId, crypto.hashToken draw.token, 0, now + twoFactorChallengeTtl, version⟩
  if db.pendingLogins.hasKey draw.id then (db, none)
  else ({ db with pendingLogins := db.pendingLogins.insertNew row }, none)

/-- The pending login that a token may still try. -/
def triedLogin (db : AuthDb) (token : String) (now : Timestamp) : Option PendingLogin :=
  db.pendingLogins.rows.find? fun r => r.tokenHash = crypto.hashToken token ∧ now < r.expiresAt ∧
    r.attempts < twoFactorChallengeMaxAttempts

/-- Counts the attempt before the code is checked, so parallel guesses can't exceed the limit. -/
def countAttempt (db : AuthDb) (login : PendingLogin) : AuthDb :=
  { db with pendingLogins := db.pendingLogins.update (fun r => r.id = login.id) fun r =>
      { r with attempts := r.attempts + 1 } }

/-- The delete by which `finishTwoFactor` spends a pending login. -/
def spend (db : AuthDb) (login : PendingLogin) : AuthStepResult :=
  let rest := { db with pendingLogins := db.pendingLogins.delete fun r => r.id = login.id }
  match db.pendingLogins.find login.id with
  | none => (rest, none)
  | some spent =>
    let seen := ((db.accounts.find spent.accountId).map LoginAccount.version).getD 0
    (rest, some (.spent spent seen))

/-- The select of `reauthenticate`, and the check of the proof. -/
def reauthenticate (db : AuthDb) (change : PasswordChange) (c : LoginChallenge)
    (srpA srpM1 : Bytes) : AuthStepResult :=
  match db.accounts.find change.accountId with
  | none => (db, none)
  | some account =>
    if verifies crypto (some account) c srpA srpM1 then (db, some (.update change)) else (db, none)

/-- `openSession`. -/
def openSession (db : AuthDb) (draw : LoginDraw) (accountId : Uuid) (version : ℕ) :
    AuthStepResult :=
  ((SessionStore.issue crypto db draw accountId version).getD db, none)

end LoginService

namespace RecoveryService

/-- The select of `complete`: the change its token allows. -/
def completeSelect (crypto : LoginCrypto) (db : AuthDb) (token : String) (salt srpVerifier : Bytes)
    (now : Timestamp) : Option PasswordChange := do
  let tokenHash := crypto.hashToken token
  let pending ← db.recoveries.rows.find? fun r => r.tokenHash = some tokenHash ∧
    r.tokenUsedAt = none ∧ r.tokenExpiresAt.any fun t => now < t
  let accountId ← pending.accountId
  return { accountId, salt, srpVerifier, ending := .recover tokenHash now }

/-- Whether the transaction of a recovery still finds its token unspent. -/
def claims (db : AuthDb) (change : PasswordChange) : Bool :=
  match change.ending with
  | .keep _ => true
  | .recover tokenHash now => db.recoveries.rows.any fun r => r.tokenHash = some tokenHash ∧
      r.tokenUsedAt = none ∧ (r.tokenExpiresAt.any fun t => now < t) ∧
      r.accountId = some change.accountId

/-- The transaction's first statements: the token is claimed and the account updated, for no one
else to see yet. `none` while another change holds the account's row. -/
def update (db : AuthDb) (change : PasswordChange) : Option AuthStepResult :=
  if db.changes.hasKey change.accountId then none
  else if !claims db change then some (db, none)
  else
    match db.accounts.find change.accountId with
    -- an account that is gone has left no rows to drop
    | none => some (db, none)
    | some _ =>
      let opened := ⟨change.accountId, [], none⟩
      some ({ db with changes := db.changes.insertNew opened }, some (.dropChallenges change))

/-- The first statement of `dropPendingLogins`. -/
def dropChallenges (db : AuthDb) (change : PasswordChange) : AuthStepResult :=
  let ids := (db.challenges.select fun c => c.accountId = some change.accountId).map
    LoginChallenge.id
  let changes := db.changes.update (fun c => c.accountId = change.accountId) fun c =>
    { c with challenges := ids }
  ({ db with changes }, some (.dropLogins change))

/-- The second statement of `dropPendingLogins`. -/
def dropLogins (db : AuthDb) (change : PasswordChange) : AuthStepResult :=
  let ids := (db.pendingLogins.select fun r => r.accountId = change.accountId).map PendingLogin.id
  let changes := db.changes.update (fun c => c.accountId = change.accountId) fun c =>
    { c with logins := some ids }
  ({ db with changes }, some (.commit change))

/-- The transaction commits. -/
def commit (db : AuthDb) (change : PasswordChange) : AuthStepResult :=
  let opened := (db.changes.find change.accountId).getD ⟨change.accountId, [], none⟩
  let version := ((db.accounts.find change.accountId).map LoginAccount.version).getD 0 + 1
  let accounts := db.accounts.update (fun a => a.id = change.accountId) fun a =>
    { a with salt := change.salt, srpVerifier := change.srpVerifier, version }
  let committed := { db with
    accounts
    challenges := db.challenges.delete fun c => c.id ∈ opened.challenges
    pendingLogins := db.pendingLogins.delete fun r => r.id ∈ opened.logins.getD []
    changes := db.changes.delete fun c => c.accountId = change.accountId }
  match change.ending with
  | .keep session => (committed, some (.revokeAllExcept change.accountId session version))
  | .recover tokenHash now =>
    ({ committed with recoveries := spendToken db.recoveries tokenHash now },
      some (.recovered change.accountId version))

/-- The session of `complete`. -/
def openSession (crypto : LoginCrypto) (db : AuthDb) (draw : LoginDraw) (accountId : Uuid)
    (version : ℕ) : AuthStepResult :=
  match SessionStore.issue crypto db draw accountId version with
  | none => (db, none)
  | some db => (db, some (.revokeAllExcept accountId draw.id version))

/-- The last statement of a change. -/
def signOut (db : AuthDb) (accountId keep : Uuid) (version : ℕ) (now : Timestamp) : AuthStepResult :=
  let revoked := SessionStore.revokeAllExcept db accountId keep now
  ({ revoked with signedOut := ⟨accountId, keep, version⟩ :: db.signedOut }, none)

end RecoveryService

/-- The next step of a request. `none` while it waits for a row that a transaction holds. -/
def AuthTask.proceed (crypto : LoginCrypto) (db : AuthDb) (draw : LoginDraw) :
    AuthTask → Option AuthStepResult
  | .start email =>
    if db.challenges.rows.any fun c => c.expiresAt < draw.now ∧ db.challengeHeld c.id then none
    else some ({ db with challenges := db.challenges.delete fun c => c.expiresAt < draw.now },
      some (.startSelect email))
  | .startSelect email => some (LoginService.startSelect crypto db draw email)
  | .startInsert accountId email challenge =>
    some (LoginService.startInsert db draw accountId email challenge)
  | .finish loginId srpA srpM1 =>
    if db.challengeHeld loginId then none
    else
      match LoginService.takeChallenge db loginId draw.now with
      | (db, none) => some (db, none)
      | (db, some challenge) => some (db, some (.finishSelect challenge srpA srpM1))
  | .finishSelect challenge srpA srpM1 =>
    some (LoginService.finishSelect crypto db challenge srpA srpM1)
  | .proved accountId version =>
    some (db, some (if draw.enabled then .clean accountId version draw.now
      else .openSession accountId version version))
  | .clean accountId version now =>
    if db.pendingLogins.rows.any fun r => r.expiresAt < now ∧ db.loginHeld r.id then none
    else some ({ db with pendingLogins := db.pendingLogins.delete fun r => r.expiresAt < now },
      some (.park accountId version now))
  | .park accountId version now => some (LoginService.park crypto db draw accountId version now)
  | .openSession accountId version _ =>
    some (LoginService.openSession crypto db draw accountId version)
  | .finishTwoFactor token =>
    match LoginService.triedLogin crypto db token draw.now with
    | none => some (db, none)
    | some login =>
      if db.loginHeld login.id then none
      else
        let counted := { login with attempts := login.attempts + 1 }
        some (LoginService.countAttempt db login, some (.verifyProof counted))
  | .verifyProof login => some (db, if draw.accepted then some (.spend login) else none)
  | .spend login =>
    if db.loginHeld login.id then none else some (LoginService.spend db login)
  | .spent login seen =>
    some (db, (db.accounts.find login.accountId).map fun account =>
      .openSession account.id login.version seen)
  | .changePassword change loginId srpA srpM1 =>
    if !SrpServer.isValidVerifier change.srpVerifier then some (db, none)
    else if db.challengeHeld loginId then none
    else
      match LoginService.takeChallenge db loginId draw.now with
      | (db, none) => some (db, none)
      | (db, some challenge) =>
        if challenge.accountId ≠ some change.accountId then some (db, none)
        else some (db, some (.reauthenticate change challenge srpA srpM1))
  | .reauthenticate change challenge srpA srpM1 =>
    some (LoginService.reauthenticate crypto db change challenge srpA srpM1)
  | .complete token salt srpVerifier =>
    if !SrpServer.isValidVerifier srpVerifier then some (db, none)
    else some (db, (RecoveryService.completeSelect crypto db token salt srpVerifier draw.now).map
      .secondFactor)
  | .secondFactor change =>
    some (db, if draw.enabled && !draw.accepted then none else some (.update change))
  | .update change => RecoveryService.update db change
  | .dropChallenges change => some (RecoveryService.dropChallenges db change)
  | .dropLogins change => some (RecoveryService.dropLogins db change)
  | .commit change => some (RecoveryService.commit db change)
  | .recovered accountId version =>
    some (RecoveryService.openSession crypto db draw accountId version)
  | .revokeAllExcept accountId keep version =>
    some (RecoveryService.signOut db accountId keep version draw.now)

/-- Whether this is a request, rather than the middle of one. -/
def AuthTask.isRequest : AuthTask → Bool
  | .start _ => true
  | .finish .. => true
  | .finishTwoFactor _ => true
  | .changePassword change _ _ _ => match change.ending with
    | .keep _ => true
    | .recover .. => false
  | .complete .. => true
  | _ => false

/-- Any requests, in any order, with any draws and answers of the second factor. -/
def authProgram (crypto : LoginCrypto) : Concurrent.Program AuthDb AuthTask where
  start _ task := task.isRequest
  act db task db' next := ∃ draw, task.proceed crypto db draw = some (db', next)

end Zvault
