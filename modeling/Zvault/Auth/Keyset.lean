import Zvault.Concurrent.Tasks
import Zvault.Crypto.AccountKeys

/-!
# The account's keyset

`auth.ts` with `auth.rs` and `recovery.rs` of the desktop app, on any number of Macs of one
account, and what `login.service.ts` and `recovery.service.ts` read and write of its row.
Each flow is split where it waits: for the server, and for Argon2id. Emailed codes, the second
factor, sessions, and the tables of challenges and recovery tokens are taken as given:
a request may stop anywhere.
-/

namespace Zvault.Account

open Crypto
open Concurrent (Program)
open Function (update)

/-- What is computed with, for the account with this id. -/
structure Suite where
  P : Primitives
  D : Derivations
  H : PasswordHash
  accountId : String

/-- SHA-256, as SRP takes it. -/
def Suite.sha (C : Suite) : Sha256 := fun bytes =>
  ⟨(C.D.sha256 bytes).toArray, C.D.length_sha256 bytes⟩

/-- What a person signs in with. -/
structure Credentials where
  password : String
  secretKey : SecretKey
  deriving DecidableEq, Repr

/-- `accounts`, with the columns that hold keys. -/
structure AccountRow where
  secretKeyId : List Char
  kdf : KdfParams
  srpVerifier : Bytes
  encryptedKeyset : Blob
  recoveryKeyset : Option Blob
  recoveryVerifier : Option (List UInt8)
  deriving DecidableEq

/-- What unlocking again needs besides the password and the Secret Key. -/
structure LocalUnlock where
  kdf : KdfParams
  encryptedKeyset : Blob
  deriving DecidableEq, Repr

structure PendingLogin where
  kdf : KdfParams
  srp : SrpClient.ClientSession
  unlockKey : SymmetricKey
  secretKey : SecretKey
  deriving DecidableEq

structure PendingChange where
  srp : SrpClient.ClientSession
  localUnlock : LocalUnlock
  deriving DecidableEq

structure PendingSetup where
  srp : SrpClient.ClientSession
  code : RecoveryCode
  deriving DecidableEq

structure PendingReset where
  keyset : SymmetricKey
  secretKey : SecretKey
  code : RecoveryCode
  localUnlock : LocalUnlock
  deriving DecidableEq

/-- `AuthState` and `RecoveryState` of a Mac, the Secret Keys that it remembers and that it read
from a picked kit, and what Touch ID or a restart hands back. -/
structure Device where
  pending : Option PendingLogin
  account : Option SymmetricKey
  localUnlock : Option LocalUnlock
  remembered : Option SecretKey
  kit : Option SecretKey
  change : Option PendingChange
  setup : Option PendingSetup
  recover : Option RecoveryKeys
  reset : Option PendingReset
  saved : Option (SymmetricKey × Option LocalUnlock)
  deriving DecidableEq

def Device.fresh : Device := ⟨none, none, none, none, none, none, none, none, none, none⟩

/-- `key_for`. -/
def Device.keyFor (dev : Device) : Option SecretKey := dev.kit.or dev.remembered

/-- `remember`. -/
def Device.remember (dev : Device) (key : SecretKey) : Device :=
  { dev with kit := none, remembered := some key }

/-- What is drawn at random. -/
structure Draw where
  a : Vector UInt8 32
  secretB : Bytes
  secretKey : SecretKey
  keyset : SymmetricKey
  salt : List UInt8
  nonce : Nonce
  recoveryNonce : Nonce
  code : RecoveryCode
  /-- Whether the account has a second factor. -/
  twoFactor : Bool

/-- `srp_a` and `srp_m1`. -/
structure LoginProof where
  srpA : Bytes
  srpM1 : Bytes
  deriving DecidableEq

/-- What a password change writes. -/
structure PasswordChange where
  kdf : KdfParams
  srpVerifier : Bytes
  encryptedKeyset : Blob
  deriving DecidableEq

/-- What a set-up of recovery writes. -/
structure RecoverySetup where
  recoveryKeyset : Blob
  recoveryVerifier : List UInt8
  deriving DecidableEq

/-- `RecoveredAccount`. -/
structure RecoveredAccount where
  secretKeyId : List Char
  change : PasswordChange
  setup : RecoverySetup
  deriving DecidableEq

variable (C : Suite)

/-! ### The server -/

/-- `start`. -/
def loginStart (row : AccountRow) (draw : Draw) :
    Option (KdfParams × SrpServer.ServerChallenge) :=
  (SrpServer.createChallenge C.sha row.srpVerifier draw.secretB).map fun c => (row.kdf, c)

/-- The check of `finish` and of `reauthenticate`, with the server's own proof. -/
def verifyProof (row : AccountRow) (challenge : SrpServer.ServerChallenge) (proof : LoginProof) :
    Option Bytes :=
  (SrpServer.verifyClient C.sha C.accountId row.kdf.salt row.srpVerifier challenge proof.srpA
    proof.srpM1).join.map (·.serverProof)

/-- The update of `changePassword`. -/
def AccountRow.changed (row : AccountRow) (change : PasswordChange) : AccountRow :=
  { row with
    kdf := change.kdf
    srpVerifier := change.srpVerifier
    encryptedKeyset := change.encryptedKeyset }

/-- The update of `setUp`. -/
def AccountRow.setUp (row : AccountRow) (setup : RecoverySetup) : AccountRow :=
  { row with
    recoveryKeyset := some setup.recoveryKeyset, recoveryVerifier := some setup.recoveryVerifier }

/-- The update of `complete`. -/
def AccountRow.recovered (row : AccountRow) (req : RecoveredAccount) : AccountRow :=
  { (row.changed req.change).setUp req.setup with secretKeyId := req.secretKeyId }

/-- What `verify` releases to a recovery auth token. -/
def recoverVerify (row : AccountRow) (recoveryAuth : SymmetricKey) : Option Blob :=
  if row.recoveryVerifier = some (C.D.sha256 recoveryAuth.bytes) then row.recoveryKeyset else none

/-! ### The app -/

/-- `derive_account_keys`. -/
def deriveKeys (credentials : Credentials) (kdf : KdfParams) : Option AccountKeys :=
  deriveAccountKeys C.D C.H credentials.password credentials.secretKey C.accountId kdf

/-- A keyset under new credentials, and what the server stores for it. -/
def sealAccount (credentials : Credentials) (keyset : SymmetricKey) (draw : Draw) :
    Option PasswordChange := do
  let kdf := KdfParams.newDefault draw.salt
  let keys ← deriveKeys C credentials kdf
  let s ← sealKeyset C.P C.H keys.unlockKey keyset C.accountId draw.nonce
  return ⟨kdf, SrpClient.verifier keys.srpX.vector, .new C.P keysetKid s⟩

/-- A recovery copy of a keyset, and what the server stores for it. -/
def sealRecovery (code : RecoveryCode) (keyset : SymmetricKey) (draw : Draw) :
    Option RecoverySetup := do
  let keys := code.keys C.D C.H C.accountId
  let s ← sealRecoveryKeyset C.P C.H keys keyset C.accountId draw.recoveryNonce
  return ⟨.new C.P recoveryKid s, keys.verifier C.D⟩

/-- `create_account`. -/
def createAccount (password : String) (draw : Draw) : Option AccountRow := do
  let change ← sealAccount C ⟨password, draw.secretKey⟩ draw.keyset draw
  return ⟨draw.secretKey.id.chars, change.kdf, change.srpVerifier, change.encryptedKeyset, none,
    none⟩

/-- What a keyset blob opens to. -/
def openBlob (unlockKey : SymmetricKey) (blob : Blob) : Option SymmetricKey :=
  (blob.sealedKeyset C.P).bind fun s => openKeyset C.P C.H unlockKey s C.accountId

/-- `login_prove`. Without a typed Secret Key it takes the one that the Mac remembers. -/
def loginProve (dev : Device) (password : String) (typed : Option SecretKey) (kdf : KdfParams)
    (srpB : Bytes) (draw : Draw) : Option PendingLogin := do
  let secretKey ← typed.or dev.keyFor
  let keys ← deriveKeys C ⟨password, secretKey⟩ kdf
  let srp ← SrpClient.new C.sha draw.a C.accountId kdf.salt keys.srpX.vector srpB
  return ⟨kdf, srp, keys.unlockKey, secretKey⟩

/-- `login_finish`. -/
def loginFinish (dev : Device) (srpM2 : Bytes) (encryptedKeyset : Blob) : Option Device := do
  let pending ← dev.pending
  if pending.srp.verifyServer srpM2 then
    let keyset ← openBlob C pending.unlockKey encryptedKeyset
    return { dev.remember pending.secretKey with
      pending := none
      account := some keyset
      localUnlock := some ⟨pending.kdf, encryptedKeyset⟩ }
  else none

/-- What `unlock_with_password` opens. -/
def unlockOpen (dev : Device) (password : String) (unlock : LocalUnlock) :
    Option SymmetricKey := do
  let secretKey ← dev.keyFor
  let keys ← deriveKeys C ⟨password, secretKey⟩ unlock.kdf
  openBlob C keys.unlockKey unlock.encryptedKeyset

/-- `prove_current`: a password is checked against the lock screen's copy first. -/
def proveCurrent (dev : Device) (current : Credentials) (kdf : KdfParams) (srpB : Bytes)
    (draw : Draw) : Option SrpClient.ClientSession := do
  let keys ← deriveKeys C current kdf
  let opens := match dev.localUnlock.bind (·.encryptedKeyset.sealedKeyset C.P) with
    | some s => (openKeyset C.P C.H keys.unlockKey s C.accountId).isSome
    | none => true
  if opens then SrpClient.new C.sha draw.a C.accountId kdf.salt keys.srpX.vector srpB else none

/-- `password_change_prove`: the same keyset under the new password. -/
def passwordChangeProve (dev : Device) (currentPassword newPassword : String) (kdf : KdfParams)
    (srpB : Bytes) (draw : Draw) : Option (PendingChange × PasswordChange × Credentials) := do
  let keyset ← dev.account
  let secretKey ← dev.keyFor
  let srp ← proveCurrent C dev ⟨currentPassword, secretKey⟩ kdf srpB draw
  let change ← sealAccount C ⟨newPassword, secretKey⟩ keyset draw
  return (⟨srp, change.kdf, change.encryptedKeyset⟩, change, ⟨newPassword, secretKey⟩)

/-- `password_change_finish`. -/
def passwordChangeFinish (dev : Device) (srpM2 : Bytes) : Device :=
  match dev.change with
  | some pending =>
    if pending.srp.verifyServer srpM2 then
      { dev with change := none, localUnlock := some pending.localUnlock }
    else { dev with change := none }
  | none => dev

/-- `recovery_setup_prove`. -/
def recoverySetupProve (dev : Device) (password : String) (kdf : KdfParams) (srpB : Bytes)
    (draw : Draw) : Option (PendingSetup × RecoverySetup) := do
  let keyset ← dev.account
  let secretKey ← dev.keyFor
  let srp ← proveCurrent C dev ⟨password, secretKey⟩ kdf srpB draw
  let setup ← sealRecovery C draw.code keyset draw
  return (⟨srp, draw.code⟩, setup)

/-- What `recover_reset` makes of the copy that the server released. -/
def recoverReset (recover : RecoveryKeys) (newPassword : String) (recoveryKeyset : Blob)
    (draw : Draw) : Option (PendingReset × RecoveredAccount) := do
  let s ← recoveryKeyset.sealedKeyset C.P
  let keyset ← openRecoveryKeyset C.P C.H recover s C.accountId
  let change ← sealAccount C ⟨newPassword, draw.secretKey⟩ keyset draw
  let setup ← sealRecovery C draw.code keyset draw
  return (⟨keyset, draw.secretKey, draw.code, change.kdf, change.encryptedKeyset⟩,
    ⟨draw.secretKey.id.chars, change, setup⟩)

/-- `recover_finish`. -/
def recoverFinish (dev : Device) : Device :=
  match dev.reset with
  | some reset =>
    { dev.remember reset.secretKey with
      pending := none
      account := some reset.keyset
      localUnlock := some reset.localUnlock
      reset := none }
  | none => dev

/-- A sign-in that nothing comes between. -/
def signIn (row : AccountRow) (dev : Device) (credentials : Credentials) (draw : Draw) :
    Option Device := do
  let (kdf, challenge) ← loginStart C row draw
  let pending ← loginProve C dev credentials.password (some credentials.secretKey) kdf
    challenge.publicB draw
  let m2 ← verifyProof C row challenge ⟨pending.srp.publicA, pending.srp.m1⟩
  loginFinish C { dev with pending := some pending } m2 row.encryptedKeyset

/-- What a recovery opens that nothing comes between. -/
def recoverOpen (row : AccountRow) (code : RecoveryCode) : Option SymmetricKey := do
  let keys := code.keys C.D C.H C.accountId
  let s ← (← recoverVerify C row keys.authToken).sealedKeyset C.P
  openRecoveryKeyset C.P C.H keys s C.accountId

/-! ### All of them together -/

/-- The account's row and its Macs, with what the row was last written for. No step reads the
last two fields. -/
structure World where
  row : AccountRow
  devices : ℕ → Device
  credentials : Credentials
  recoveryCode : Option RecoveryCode

/-- What a flow does next, on a Mac. -/
inductive Task where
  | signIn (d : ℕ) (password : String) (typed : Option SecretKey)
  | loginProve (d : ℕ) (password : String) (typed : Option SecretKey) (kdf : KdfParams)
      (challenge : SrpServer.ServerChallenge)
  | loginPending (d : ℕ) (pending : PendingLogin) (challenge : SrpServer.ServerChallenge)
  | loginFinish (d : ℕ) (challenge : SrpServer.ServerChallenge) (proof : LoginProof)
  /-- The account is read again once the second factor is there. -/
  | secondFactor (d : ℕ) (srpM2 : Bytes)
  | openLogin (d : ℕ) (srpM2 : Bytes) (encryptedKeyset : Blob)
  | unlockWithPassword (d : ℕ) (password : String)
  | unlockOpen (d : ℕ) (password : String) (unlock : LocalUnlock)
  | unlocked (d : ℕ) (keyset : SymmetricKey)
  | changePassword (d : ℕ) (currentPassword newPassword : String)
  | changeProve (d : ℕ) (currentPassword newPassword : String) (kdf : KdfParams)
      (challenge : SrpServer.ServerChallenge)
  | changePending (d : ℕ) (pending : PendingChange) (challenge : SrpServer.ServerChallenge)
      (change : PasswordChange) (credentials : Credentials)
  | reauthenticate (d : ℕ) (challenge : SrpServer.ServerChallenge) (proof : LoginProof)
      (change : PasswordChange) (credentials : Credentials)
  | changeCommit (d : ℕ) (srpM2 : Bytes) (change : PasswordChange) (credentials : Credentials)
  | changeFinish (d : ℕ) (srpM2 : Bytes)
  | setUpRecovery (d : ℕ) (password : String)
  | setUpProve (d : ℕ) (password : String) (kdf : KdfParams)
      (challenge : SrpServer.ServerChallenge)
  | setUpPending (d : ℕ) (pending : PendingSetup) (challenge : SrpServer.ServerChallenge)
      (setup : RecoverySetup)
  | setUpReauthenticate (d : ℕ) (challenge : SrpServer.ServerChallenge) (proof : LoginProof)
      (setup : RecoverySetup) (code : RecoveryCode)
  | setUpCommit (d : ℕ) (srpM2 : Bytes) (setup : RecoverySetup) (code : RecoveryCode)
  | setUpFinish (d : ℕ)
  | recoverBegin (d : ℕ) (code : RecoveryCode) (newPassword : String)
  | recoverVerify (d : ℕ) (recoveryAuth : SymmetricKey) (newPassword : String)
  | recoverTake (d : ℕ) (newPassword : String) (recoveryKeyset : Blob)
  | recoverReset (d : ℕ) (recover : RecoveryKeys) (newPassword : String) (recoveryKeyset : Blob)
  | resetPending (d : ℕ) (reset : PendingReset) (req : RecoveredAccount)
      (credentials : Credentials)
  | recoverComplete (d : ℕ) (req : RecoveredAccount) (credentials : Credentials)
      (code : RecoveryCode)
  | recoverFinish (d : ℕ)
  | recoverCancel (d : ℕ)
  /-- Signs out. -/
  | lock (d : ℕ)
  /-- Locks, and keeps what the lock screen needs. -/
  | forget (d : ℕ)
  | importKit (d : ℕ) (key : SecretKey)
  | clearKit (d : ℕ)
  | forgetSecretKey (d : ℕ)
  /-- Saves what Touch ID or a restart will hand back. Touch ID keeps no copy for the lock
  screen. -/
  | save (d : ℕ) (touchId : Bool)
  | restore (d : ℕ)

/-- What a person may start. The others are come to. -/
def Task.starts : Task → Bool
  | signIn .. | unlockWithPassword .. | changePassword .. | setUpRecovery .. | recoverBegin ..
  | recoverCancel .. | lock .. | forget .. | importKit .. | clearKit .. | forgetSecretKey ..
  | save .. | restore .. => true
  | _ => false

namespace World

/-- The account that a Mac signed up, before any sign-in. -/
def signedUp (password : String) (draw : Draw) : Option World :=
  (createAccount C password draw).map fun row =>
    ⟨row, fun _ => .fresh, ⟨password, draw.secretKey⟩, none⟩

variable (w : World)

def withDevice (d : ℕ) (dev : Device) : World := { w with devices := update w.devices d dev }

@[simp] theorem withDevice_devices (d : ℕ) (dev : Device) :
    (w.withDevice d dev).devices = update w.devices d dev := rfl

@[simp] theorem withDevice_withDevice (d : ℕ) (dev dev' : Device) :
    (w.withDevice d dev).withDevice d dev' = w.withDevice d dev' := by
  simp only [withDevice, Function.update_idem]

/-- A step, with the flow's next one unless it is done or has failed. -/
def step (draw : Draw) : Task → World × Option Task
  | .signIn d password typed =>
    (w, (loginStart C w.row draw).map fun s => .loginProve d password typed s.1 s.2)
  | .loginProve d password typed kdf challenge =>
    (w, (Account.loginProve C (w.devices d) password typed kdf challenge.publicB draw).map fun p =>
      .loginPending d p challenge)
  | .loginPending d pending challenge =>
    (w.withDevice d { w.devices d with pending := some pending },
      some (.loginFinish d challenge ⟨pending.srp.publicA, pending.srp.m1⟩))
  | .loginFinish d challenge proof =>
    (w, (verifyProof C w.row challenge proof).map fun m2 =>
      if draw.twoFactor then .secondFactor d m2 else .openLogin d m2 w.row.encryptedKeyset)
  | .secondFactor d srpM2 => (w, some (.openLogin d srpM2 w.row.encryptedKeyset))
  | .openLogin d srpM2 encryptedKeyset =>
    (w.withDevice d ((Account.loginFinish C (w.devices d) srpM2 encryptedKeyset).getD
      { w.devices d with pending := none }), none)
  | .unlockWithPassword d password =>
    (w, (w.devices d).localUnlock.map fun l => .unlockOpen d password l)
  | .unlockOpen d password unlock =>
    (w, (Account.unlockOpen C (w.devices d) password unlock).map fun k => .unlocked d k)
  | .unlocked d keyset =>
    (if (w.devices d).localUnlock.isSome then
      w.withDevice d { w.devices d with pending := none, account := some keyset }
    else w, none)
  | .changePassword d currentPassword newPassword =>
    (w, (loginStart C w.row draw).map fun s =>
      .changeProve d currentPassword newPassword s.1 s.2)
  | .changeProve d currentPassword newPassword kdf challenge =>
    (w, (passwordChangeProve C (w.devices d) currentPassword newPassword kdf challenge.publicB
      draw).map fun r => .changePending d r.1 challenge r.2.1 r.2.2)
  | .changePending d pending challenge change credentials =>
    (w.withDevice d { w.devices d with change := some pending },
      some (.reauthenticate d challenge ⟨pending.srp.publicA, pending.srp.m1⟩ change credentials))
  | .reauthenticate d challenge proof change credentials =>
    (w, (verifyProof C w.row challenge proof).map fun m2 => .changeCommit d m2 change credentials)
  | .changeCommit d srpM2 change credentials =>
    ({ w with row := w.row.changed change, credentials }, some (.changeFinish d srpM2))
  | .changeFinish d srpM2 =>
    (w.withDevice d (passwordChangeFinish (w.devices d) srpM2), none)
  | .setUpRecovery d password =>
    (w, (loginStart C w.row draw).map fun s => .setUpProve d password s.1 s.2)
  | .setUpProve d password kdf challenge =>
    (w, (recoverySetupProve C (w.devices d) password kdf challenge.publicB draw).map fun r =>
      .setUpPending d r.1 challenge r.2)
  | .setUpPending d pending challenge setup =>
    (w.withDevice d { w.devices d with setup := some pending },
      some (.setUpReauthenticate d challenge ⟨pending.srp.publicA, pending.srp.m1⟩ setup
        pending.code))
  | .setUpReauthenticate d challenge proof setup code =>
    (w, (verifyProof C w.row challenge proof).map fun m2 => .setUpCommit d m2 setup code)
  | .setUpCommit d _ setup code =>
    ({ w with row := w.row.setUp setup, recoveryCode := some code }, some (.setUpFinish d))
  | .setUpFinish d => (w.withDevice d { w.devices d with setup := none }, none)
  | .recoverBegin d code newPassword =>
    let keys := code.keys C.D C.H C.accountId
    (w.withDevice d { w.devices d with reset := none, recover := some keys },
      some (.recoverVerify d keys.authToken newPassword))
  | .recoverVerify d recoveryAuth newPassword =>
    (w, (Account.recoverVerify C w.row recoveryAuth).map fun copy =>
      .recoverTake d newPassword copy)
  | .recoverTake d newPassword recoveryKeyset =>
    (w.withDevice d { w.devices d with recover := none },
      (w.devices d).recover.map fun keys => .recoverReset d keys newPassword recoveryKeyset)
  | .recoverReset d recover newPassword recoveryKeyset =>
    (w, (Account.recoverReset C recover newPassword recoveryKeyset draw).map fun r =>
      .resetPending d r.1 r.2 ⟨newPassword, draw.secretKey⟩)
  | .resetPending d reset req credentials =>
    (w.withDevice d { w.devices d with reset := some reset },
      some (.recoverComplete d req credentials reset.code))
  | .recoverComplete d req credentials code =>
    ({ w with row := w.row.recovered req, credentials, recoveryCode := some code },
      some (.recoverFinish d))
  | .recoverFinish d => (w.withDevice d (Account.recoverFinish (w.devices d)), none)
  | .recoverCancel d =>
    (w.withDevice d { w.devices d with recover := none, reset := none }, none)
  | .lock d =>
    (w.withDevice d { w.devices d with pending := none, account := none, localUnlock := none },
      none)
  | .forget d => (w.withDevice d { w.devices d with pending := none, account := none }, none)
  | .importKit d key => (w.withDevice d { w.devices d with kit := some key }, none)
  | .clearKit d => (w.withDevice d { w.devices d with kit := none }, none)
  | .forgetSecretKey d =>
    (w.withDevice d { w.devices d with kit := none, remembered := none }, none)
  | .save d touchId =>
    let unlock := if touchId then none else (w.devices d).localUnlock
    (w.withDevice d { w.devices d with saved := (w.devices d).account.map fun k => (k, unlock) },
      none)
  | .restore d =>
    (match (w.devices d).saved with
      | some (keyset, unlock) =>
        w.withDevice d { w.devices d with
          pending := none
          account := some keyset
          localUnlock := unlock.or (w.devices d).localUnlock }
      | none => w, none)

end World

/-- The flows of an account. Each may stop at any step. -/
def accountProgram : Program World Task where
  start _ t := t.starts = true
  act w t w' next := (∃ draw, w.step C draw t = (w', next)) ∨ (w' = w ∧ next = none)

end Zvault.Account
