import Mathlib.Data.Nat.Notation

/-!
# The session and what quick unlocks keep

`session.rs`, `biometric.rs` and the records of `stay_unlocked.rs`. The wall
clock counts nanoseconds from the Unix epoch. Idle times, the token of the
server session and the sealed keyset of the lock screen are left out.
-/

namespace Zvault.Desktop

/-- A key. Only which one it is matters here. -/
abbrev SymmetricKey := ℕ

inductive LockReason where
  | manual
  | idle
  | sleep
  | screenLocked
  deriving DecidableEq, Repr

inductive UnlockMethod where
  | masterPassword
  | touchId
  | restored
  deriving DecidableEq, Repr

structure LockSettings where
  idleTimeoutMins : ℕ := 60
  lockOnSleep : Bool := true
  lockOnScreenLock : Bool := true
  clipboardClearSecs : ℕ := 90
  stayUnlocked : Bool := false
  deriving DecidableEq, Repr

def LockSettings.validate (settings : LockSettings) : Bool :=
  settings.idleTimeoutMins ≤ 1440 ∧ 10 ≤ settings.clipboardClearSecs ∧
    settings.clipboardClearSecs ≤ 300

/-- `Unlocked` of the session. -/
structure Unlocked where
  accountId : String
  key : SymmetricKey
  method : UnlockMethod
  passwordVerifiedAt : ℕ
  deriving DecidableEq, Repr

structure Session where
  unlocked : Option Unlocked
  settings : LockSettings
  deriving DecidableEq, Repr

namespace Session

def isLocked (session : Session) : Bool := session.unlocked.isNone

def setSettings (session : Session) (settings : LockSettings) : Option Session :=
  if settings.validate then some { session with settings } else none

theorem setSettings_unlocked {session session' : Session} {settings : LockSettings}
    (h : session.setSettings settings = some session') : session'.unlocked = session.unlocked := by
  unfold setSettings at h
  split at h
  · obtain rfl := Option.some_inj.mp h
    rfl
  · cases h

def unlock (session : Session) (accountId : String) (key : SymmetricKey) (method : UnlockMethod)
    (passwordVerifiedAt : ℕ) : Session :=
  { session with unlocked := some ⟨accountId, key, method, passwordVerifiedAt⟩ }

def lock (session : Session) : Session := { session with unlocked := none }

def locksOn (session : Session) : LockReason → Bool
  | .manual | .idle => true
  | .sleep => session.settings.lockOnSleep
  | .screenLocked => session.settings.lockOnScreenLock

end Session

/-- `SystemTime` to whole seconds. -/
def unixSecs (t : ℕ) : ℕ := t / 1000000000

/-- `UNIX_EPOCH + Duration::from_secs(secs)`. -/
def fromSecs (secs : ℕ) : ℕ := secs * 1000000000

theorem fromSecs_unixSecs_le (t : ℕ) : fromSecs (unixSecs t) ≤ t := Nat.div_mul_le_self ..

/-- `MAX_AGE`: fourteen days. -/
def maxAge : ℕ := fromSecs (14 * 24 * 60 * 60)

/-- `is_fresh`: dates in the future are not honoured. -/
def isFresh (passwordVerifiedAt now : ℕ) : Bool :=
  passwordVerifiedAt ≤ now ∧ now - passwordVerifiedAt < maxAge

theorem isFresh_iff {passwordVerifiedAt now : ℕ} : isFresh passwordVerifiedAt now = true ↔
    passwordVerifiedAt ≤ now ∧ now < passwordVerifiedAt + maxAge := by
  simp only [isFresh, decide_eq_true_eq]
  omega

/-- `Record` behind Touch ID, as it is encoded. -/
structure TouchIdRecord where
  key : SymmetricKey
  passwordVerifiedSecs : ℕ
  deriving DecidableEq, Repr

/-- `encode_record`. -/
def encodeRecord (key : SymmetricKey) (passwordVerifiedAt : ℕ) : TouchIdRecord :=
  ⟨key, unixSecs passwordVerifiedAt⟩

def TouchIdRecord.passwordVerifiedAt (record : TouchIdRecord) : ℕ :=
  fromSecs record.passwordVerifiedSecs

/-- `LocalUnlock`: what unlocking again with the master password needs. -/
structure LocalUnlock where
  email : String
  deriving DecidableEq, Repr

/-- `Record` of "Stay unlocked". -/
structure SavedSession where
  email : String
  keyset : SymmetricKey
  passwordVerifiedSecs : ℕ
  localUnlock : Option LocalUnlock
  deriving DecidableEq, Repr

def SavedSession.verifiedAt (record : SavedSession) : ℕ := fromSecs record.passwordVerifiedSecs

/-- `Account`. -/
structure Account where
  email : String
  keyset : SymmetricKey
  deriving DecidableEq, Repr

/-- `AuthState`. Of a pending login only the email is kept. -/
structure AuthState where
  pending : Option String := none
  account : Option Account := none
  localUnlock : Option LocalUnlock := none
  deriving DecidableEq, Repr

/-- What `forget` leaves: the lock screen can unlock again. -/
def AuthState.forget (auth : AuthState) : AuthState := { localUnlock := auth.localUnlock }

/-- What `restore` leaves. -/
def AuthState.restore (auth : AuthState) (account : Account) (localUnlock : Option LocalUnlock) :
    AuthState :=
  { pending := none, account := some account, localUnlock := localUnlock <|> auth.localUnlock }

end Zvault.Desktop
