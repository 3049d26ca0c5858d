import Zvault.Concurrent.Tasks
import Zvault.Desktop.Session

/-!
# Locking and unlocking the desktop app

`autolock.rs`, `auth.rs`, `commands.rs` and `stay_unlocked.rs`. The session, the
keyring and the signed-in account are three parts behind mutexes of their own; a
call steps from one critical section to the next, and any other call may run in
between. A restart ends every call and thread of the process.
-/

namespace Zvault.Desktop

/-- The parts of the lock state. -/
inductive Part where
  | session
  | keyring
  | auth
  deriving DecidableEq, Repr

/-- An unlock without the master password, and when the password of its account was last proven
before. -/
structure QuickUnlock where
  accountId : String
  method : UnlockMethod
  unlockedAt : ℕ
  provedAt : Option ℕ
  deriving DecidableEq, Repr

/-- The app, the Keychain, the files and the wall clock. The fields from `turns` on record the
past and are never read. -/
structure World where
  now : ℕ
  process : ℕ
  session : Session
  keyring : Option SymmetricKey
  auth : AuthState
  /-- A password unlock holds the mutex of `auth`. -/
  authHeld : Bool
  touchIds : String → Option TouchIdRecord
  enrolled : Option String
  saved : Option SavedSession
  settingsFile : Option LockSettings
  /-- How many threads of `forget` have not run. -/
  forgets : ℕ
  /-- How many locks and unlocks have reached their first part. -/
  turns : ℕ
  /-- Who was last at a part. -/
  passed : Part → ℕ
  /-- The account that a turn opens; none for a lock. -/
  opens : ℕ → Option Account
  /-- How often the vault was locked or "Stay unlocked" turned off. -/
  closings : ℕ
  /-- The vault was locked, and no unlock was requested since. -/
  lockedSince : Bool
  /-- "Stay unlocked" was turned off, and neither turned on nor an unlock requested since. -/
  offSince : Bool
  /-- When the master password of an account was last proven. -/
  provedAt : String → Option ℕ
  quickUnlocks : List QuickUnlock

/-- The first start of the app. -/
def World.initial : World where
  now := 0
  process := 0
  session := ⟨none, {}⟩
  keyring := none
  auth := {}
  authHeld := false
  touchIds := fun _ => none
  enrolled := none
  saved := none
  settingsFile := none
  forgets := 0
  turns := 0
  passed := fun _ => 0
  opens := fun _ => none
  closings := 0
  lockedSince := false
  offSince := false
  provedAt := fun _ => none
  quickUnlocks := []

/-- What a person asks for. -/
inductive Unlock where
  | loginFinish (keyset : SymmetricKey)
  | unlockWithPassword (keyset : SymmetricKey)
  | recoverFinish (email : String) (keyset : SymmetricKey)
  | unlockWithTouchId

/-- Where a call or a thread stands, or what else happens. A `turn` tells calls apart that have
reached the parts. -/
inductive Call where
  | request (unlock : Unlock)
  | loginProve (email : String)
  | loginFinish (keyset : SymmetricKey)
  | unlockWithPassword (keyset : SymmetricKey)
  /-- The keys have been derived. -/
  | derived (email : String) (keyset : SymmetricKey)
  | recoverFinish (email : String) (keyset : SymmetricKey)
  | passwordKeyring (account : Account)
  | passwordSession (turn : ℕ) (account : Account)
  | passwordAuth (turn : ℕ) (account : Account)
  | unlockWithTouchId
  | touchIdLoad (accountId : String)
  | touchIdOpen (accountId : String) (record : TouchIdRecord)
  | stayUnlockedRestore
  | restoreLoad
  | restoreOpen (record : SavedSession)
  | quickKeyring (turn : ℕ) (account : Account) (localUnlock : Option LocalUnlock)
  | quickAuth (turn : ℕ) (account : Account) (localUnlock : Option LocalUnlock)
  | lock (reason : LockReason)
  | signOut
  /-- `leaves` in a sign-out. -/
  | lockKeyring (turn : ℕ) (leaves : Bool)
  | lockAuth (turn : ℕ) (leaves : Bool)
  | lockForget (turn : ℕ) (leaves : Bool)
  | signOutAuth (turn : ℕ)
  | stayUnlockedSave
  /-- Built after so many closings. -/
  | storeSave (record : SavedSession) (closings : ℕ)
  | storeDelete
  | setLockSettings (settings : LockSettings)
  | settingsForget (settings : LockSettings)
  | saveSettings (settings : LockSettings)
  | enableTouchId
  | setEnrolled (accountId : Option String)
  | disableTouchId
  | replaceLocalUnlock (email : String)
  | fingerprintsChanged (accountId : String)
  | pass (duration : ℕ)
  | restart

def Unlock.call : Unlock → Call
  | .loginFinish keyset => .loginFinish keyset
  | .unlockWithPassword keyset => .unlockWithPassword keyset
  | .recoverFinish email keyset => .recoverFinish email keyset
  | .unlockWithTouchId => .unlockWithTouchId

namespace World

/-- A call reaches its first part. -/
def enter (w : World) (part : Part) (account : Option Account) : World :=
  { w with
    turns := w.turns + 1
    passed := fun p => if p = part then w.turns + 1 else w.passed p
    opens := fun turn => if turn = w.turns + 1 then account else w.opens turn }

/-- A call reaches another part. -/
def pass (w : World) (part : Part) (turn : ℕ) : World :=
  { w with passed := fun p => if p = part then turn else w.passed p }

def setTouchId (w : World) (accountId : String) (record : Option TouchIdRecord) : World :=
  { w with touchIds := fun id => if id = accountId then record else w.touchIds id }

/-- The auth part of `login_finish`, `unlock_with_password` and `recover_finish`, up to
`unlocked_with_password`. -/
def holdAuth (w : World) (auth : AuthState) : World := { w with auth, authHeld := true }

/-- `unlocked_with_password`: starts a session, and refreshes the Touch ID record of its account. -/
def unlockedWithPassword (w : World) (account : Account) (stored : Bool) : World :=
  let refresh := w.enrolled = some account.email ∧ stored
  { w with
    session := w.session.unlock account.email account.keyset .masterPassword w.now
    touchIds := fun id =>
      if id = account.email ∧ refresh then some (encodeRecord account.keyset w.now)
      else w.touchIds id
    provedAt := fun id => if id = account.email then some w.now else w.provedAt id }

/-- The session part of an unlock without the master password. -/
def quickUnlock (w : World) (account : Account) (method : UnlockMethod) (passwordVerifiedAt : ℕ) :
    World :=
  { w with
    session := w.session.unlock account.email account.keyset method passwordVerifiedAt
    quickUnlocks := ⟨account.email, method, w.now, w.provedAt account.email⟩ :: w.quickUnlocks }

/-- The session part of `lock`. -/
def lockSession (w : World) : World :=
  { w with session := w.session.lock, closings := w.closings + 1, lockedSince := true }

/-- `forget` of the saved session: starts the thread that deletes it. -/
def forget (w : World) : World := { w with forgets := w.forgets + 1 }

/-- The record that `stay_unlocked_save` builds. -/
def savedSession (w : World) : Option SavedSession :=
  match w.session.unlocked with
  | none => none
  | some u =>
    if w.session.settings.stayUnlocked && isFresh u.passwordVerifiedAt w.now then
      some ⟨u.accountId, u.key, unixSecs u.passwordVerifiedAt, w.auth.localUnlock⟩
    else none

/-- The session part of `set_lock_settings`. -/
def applySettings (w : World) (session : Session) : World :=
  if session.settings.stayUnlocked then { w with session, offSince := false }
  else { w with session, closings := w.closings + 1, offSince := true }

/-- `load_settings`. -/
def loadedSettings (w : World) : LockSettings :=
  (w.settingsFile.filter LockSettings.validate).getD {}

/-- The process ends, and the app starts again. -/
def restarted (w : World) : World :=
  { w with
    process := w.process + 1
    session := ⟨none, w.loadedSettings⟩
    keyring := none
    auth := {}
    authHeld := false
    forgets := 0
    turns := w.turns + 1
    passed := fun _ => w.turns + 1
    opens := fun turn => if turn = w.turns + 1 then none else w.opens turn }

end World

open World

/-- The next step of a call; `ok` says whether the prompt, the Keychain or the file it uses
works. -/
def Call.proceed (w : World) (ok : Bool) : Call → World × Option Call
  | .request unlock => ({ w with lockedSince := false, offSince := false }, some unlock.call)
  | .loginProve email => ({ w with auth := { w.auth with pending := some email } }, none)
  | .loginFinish keyset =>
    let auth := { w.auth with pending := none }
    match w.auth.pending with
    | none => (w, none)
    | some email =>
      if ok then
        (w.holdAuth { auth with localUnlock := some ⟨email⟩ },
          some (.passwordKeyring ⟨email, keyset⟩))
      else ({ w with auth }, none)
  | .unlockWithPassword keyset =>
    (w, w.auth.localUnlock.map fun localUnlock => .derived localUnlock.email keyset)
  | .derived email keyset =>
    -- a sign-out while the keys were derived wins
    if ok && w.auth.localUnlock = some ⟨email⟩ then
      (w.holdAuth w.auth, some (.passwordKeyring ⟨email, keyset⟩))
    else (w, none)
  | .recoverFinish email keyset =>
    (w.holdAuth { w.auth with localUnlock := some ⟨email⟩ },
      some (.passwordKeyring ⟨email, keyset⟩))
  | .passwordKeyring account =>
    ({ w with keyring := some account.keyset }.enter .keyring account,
      some (.passwordSession (w.turns + 1) account))
  | .passwordSession turn account =>
    ((w.unlockedWithPassword account ok).pass .session turn, some (.passwordAuth turn account))
  | .passwordAuth turn account =>
    let auth := { w.auth with pending := none, account := some account }
    ({ w with auth, authHeld := false }.pass .auth turn, none)
  | .unlockWithTouchId => (w, w.enrolled.map .touchIdLoad)
  | .touchIdLoad accountId =>
    if ok then
      match w.touchIds accountId with
      | none => (w, some (.setEnrolled none))
      | some record => (w, some (.touchIdOpen accountId record))
    else (w, none)
  | .touchIdOpen accountId record =>
    let account := ⟨accountId, record.key⟩
    if isFresh record.passwordVerifiedAt w.now then
      ((w.quickUnlock account .touchId record.passwordVerifiedAt).enter .session account,
        some (.quickKeyring (w.turns + 1) account none))
    else (w.setTouchId accountId none, some (.setEnrolled none))
  | .stayUnlockedRestore =>
    (w, if w.session.settings.stayUnlocked then some .restoreLoad else none)
  | .restoreLoad => (w, if ok then w.saved.map .restoreOpen else none)
  | .restoreOpen record =>
    let account := ⟨record.email, record.keyset⟩
    if isFresh record.verifiedAt w.now then
      ((w.quickUnlock account .restored record.verifiedAt).enter .session account,
        some (.quickKeyring (w.turns + 1) account record.localUnlock))
    else (w.forget, none)
  | .quickKeyring turn account localUnlock =>
    ({ w with keyring := some account.keyset }.pass .keyring turn,
      some (.quickAuth turn account localUnlock))
  | .quickAuth turn account localUnlock =>
    ({ w with auth := w.auth.restore account localUnlock }.pass .auth turn, none)
  | .lock reason =>
    if w.session.locksOn reason then
      (w.lockSession.enter .session none, some (.lockKeyring (w.turns + 1) false))
    else (w, none)
  | .signOut => (w.lockSession.enter .session none, some (.lockKeyring (w.turns + 1) true))
  | .lockKeyring turn leaves =>
    ({ w with keyring := none }.pass .keyring turn, some (.lockAuth turn leaves))
  | .lockAuth turn leaves =>
    ({ w with auth := w.auth.forget }.pass .auth turn, some (.lockForget turn leaves))
  | .lockForget turn leaves => (w.forget, if leaves then some (.signOutAuth turn) else none)
  | .signOutAuth turn => ({ w with auth := {} }.pass .auth turn, none)
  | .stayUnlockedSave => (w, w.savedSession.map fun record => .storeSave record w.closings)
  | .storeSave record _ => (if ok then { w with saved := some record } else w, none)
  | .storeDelete =>
    match w.forgets with
    | 0 => (w, none)
    | forgets + 1 => ({ w with forgets, saved := none }, none)
  | .setLockSettings settings =>
    match w.session.setSettings settings with
    | none => (w, none)
    | some session =>
      (w.applySettings session, some (if settings.stayUnlocked then .saveSettings settings
        else .settingsForget settings))
  | .settingsForget settings => (w.forget, some (.saveSettings settings))
  | .saveSettings settings => (if ok then { w with settingsFile := some settings } else w, none)
  | .enableTouchId =>
    match w.session.unlocked with
    | none => (w, none)
    | some u =>
      if ok && isFresh u.passwordVerifiedAt w.now then
        (w.setTouchId u.accountId (encodeRecord u.key u.passwordVerifiedAt),
          some (.setEnrolled (some u.accountId)))
      else (w, none)
  | .setEnrolled accountId => (if ok then { w with enrolled := accountId } else w, none)
  | .disableTouchId =>
    match w.enrolled with
    | none => (w, some (.setEnrolled none))
    | some accountId =>
      if ok then (w.setTouchId accountId none, some (.setEnrolled none)) else (w, none)
  | .replaceLocalUnlock email =>
    ({ w with auth := { w.auth with localUnlock := some ⟨email⟩ } }, none)
  | .fingerprintsChanged accountId => (w.setTouchId accountId none, none)
  | .pass duration => ({ w with now := w.now + duration }, none)
  | .restart => (w.restarted, none)

theorem Call.proceed_touchIdOpen {w : World} {accountId : String} {record : TouchIdRecord}
    (h : isFresh record.passwordVerifiedAt w.now = true) (ok : Bool) :
    (Call.touchIdOpen accountId record).proceed w ok =
      ((w.quickUnlock ⟨accountId, record.key⟩ .touchId record.passwordVerifiedAt).enter .session
        (some ⟨accountId, record.key⟩),
        some (.quickKeyring (w.turns + 1) ⟨accountId, record.key⟩ none)) :=
  if_pos h

/-- The step takes the mutex of `auth`. -/
def Call.takesAuth : Call → Bool
  | .loginProve _ | .loginFinish _ | .unlockWithPassword _ | .derived .. | .recoverFinish .. => true
  | .quickAuth .. | .lockAuth .. | .signOutAuth _ | .stayUnlockedSave => true
  | .replaceLocalUnlock _ => true
  | _ => false

/-- What may start at any time. -/
def Call.canStart : Call → Bool
  | .request _ | .loginProve _ | .stayUnlockedRestore | .lock _ | .signOut | .stayUnlockedSave => true
  | .storeDelete | .setLockSettings _ | .enableTouchId | .disableTouchId => true
  | .replaceLocalUnlock _ | .fingerprintsChanged _ | .pass _ | .restart => true
  | _ => false

/-- A call of a process. -/
structure Task where
  process : ℕ
  call : Call

/-- A call of an earlier process is gone; one that needs a mutex waits for it. -/
inductive Task.Acts (w : World) (task : Task) : World → Option Task → Prop
  | gone (h : task.process ≠ w.process) : Acts w task w none
  | proceeds {w' : World} {next : Option Call} (ok : Bool) (hprocess : task.process = w.process)
      (hfree : task.call.takesAuth = true → w.authHeld = false)
      (h : task.call.proceed w ok = (w', next)) :
      Acts w task w' (next.map fun call => ⟨task.process, call⟩)

def desktopProgram : Concurrent.Program World Task where
  start w task := task.process = w.process ∧ task.call.canStart = true
  act w task w' next := task.Acts w w' next

section Plain

variable {w : World} {ok : Bool}

/-- The calls and steps that change neither the parts, nor the saved session, nor what is recorded
of them. -/
def Call.isPlain : Call → Bool
  | .loginProve _ | .loginFinish _ | .unlockWithPassword _ | .derived .. | .recoverFinish .. => true
  | .unlockWithTouchId | .touchIdLoad _ | .stayUnlockedRestore | .restoreLoad => true
  | .saveSettings _ | .enableTouchId | .setEnrolled _ | .disableTouchId => true
  | .replaceLocalUnlock _ | .fingerprintsChanged _ | .pass _ => true
  | _ => false

/-- A call that has begun to lock, unlock, save or turn off. -/
def Call.hasBegun : Call → Bool
  | .passwordSession .. | .passwordAuth .. | .quickKeyring .. | .quickAuth .. => true
  | .lockKeyring .. | .lockAuth .. | .lockForget .. | .signOutAuth _ => true
  | .storeSave .. | .settingsForget _ => true
  | _ => false

theorem Call.hasBegun_of_canStart {call : Call} (h : call.canStart = true) :
    call.hasBegun = false := by
  cases call <;> first | rfl | cases h

theorem Unlock.call_hasBegun (unlock : Unlock) : unlock.call.hasBegun = false := by
  cases unlock <;> rfl

/-- What plain steps leave as it is. -/
structure Vault where
  process : ℕ
  session : Session
  keyring : Option SymmetricKey
  account : Option Account
  saved : Option SavedSession
  forgets : ℕ
  turns : ℕ
  passed : Part → ℕ
  opens : ℕ → Option Account
  closings : ℕ
  lockedSince : Bool
  offSince : Bool

def World.vault (w : World) : Vault :=
  { w with account := w.auth.account }

theorem Call.proceed_plain (w : World) (ok : Bool) {call : Call} (h : call.isPlain = true) :
    (call.proceed w ok).1.vault = w.vault ∧
      (call.proceed w ok).2.any Call.hasBegun = false := by
  cases call with
  | loginProve email => exact ⟨rfl, rfl⟩
  | loginFinish keyset =>
    simp only [proceed]
    split
    · exact ⟨rfl, rfl⟩
    · split
      · exact ⟨rfl, rfl⟩
      · exact ⟨rfl, rfl⟩
  | unlockWithPassword keyset => exact ⟨rfl, by simp only [proceed]; cases w.auth.localUnlock <;> rfl⟩
  | derived email keyset =>
    simp only [proceed]
    split
    · exact ⟨rfl, rfl⟩
    · exact ⟨rfl, rfl⟩
  | recoverFinish email keyset => exact ⟨rfl, rfl⟩
  | unlockWithTouchId => exact ⟨rfl, by simp only [proceed]; cases w.enrolled <;> rfl⟩
  | touchIdLoad accountId =>
    simp only [proceed]
    split
    · split
      · exact ⟨rfl, rfl⟩
      · exact ⟨rfl, rfl⟩
    · exact ⟨rfl, rfl⟩
  | stayUnlockedRestore => exact ⟨rfl, by simp only [proceed]; split <;> rfl⟩
  | restoreLoad =>
    refine ⟨rfl, ?_⟩
    simp only [proceed]
    split
    · cases w.saved <;> rfl
    · rfl
  | saveSettings settings =>
    simp only [proceed]
    split
    · exact ⟨rfl, rfl⟩
    · exact ⟨rfl, rfl⟩
  | enableTouchId =>
    simp only [proceed]
    split
    · exact ⟨rfl, rfl⟩
    · split
      · exact ⟨rfl, rfl⟩
      · exact ⟨rfl, rfl⟩
  | setEnrolled accountId =>
    simp only [proceed]
    split
    · exact ⟨rfl, rfl⟩
    · exact ⟨rfl, rfl⟩
  | disableTouchId =>
    simp only [proceed]
    split
    · exact ⟨rfl, rfl⟩
    · split
      · exact ⟨rfl, rfl⟩
      · exact ⟨rfl, rfl⟩
  | replaceLocalUnlock email => exact ⟨rfl, rfl⟩
  | fingerprintsChanged accountId => exact ⟨rfl, rfl⟩
  | pass duration => exact ⟨rfl, rfl⟩
  | _ => cases h

end Plain

section Acts

variable {w w' : World} {task : Task} {next : Option Task}

theorem Task.Acts.process_eq (h : task.Acts w w' next) : ∀ n ∈ next, n.process = task.process := by
  cases h with
  | gone => exact nofun
  | proceeds =>
    intro n hn
    obtain ⟨call, -, rfl⟩ := Option.map_eq_some_iff.mp hn
    rfl

/-- A call of an earlier process does nothing. -/
theorem Task.Acts.eq_of_gone (h : task.Acts w w' next) (hgone : task.process ≠ w.process) :
    w' = w ∧ next = none := by
  cases h with
  | gone => exact ⟨rfl, rfl⟩
  | proceeds _ hlive => exact absurd hlive hgone

end Acts

section Runs

open Concurrent

variable {condition : World → Task → Prop} {s : System World Task} {w w' : World}
  {rest : List Task}

theorem call_starts (h : Run (desktopProgram.when condition) s ⟨w, rest⟩) (call : Call)
    (hstart : call.canStart = true) :
    Run (desktopProgram.when condition) s ⟨w, ⟨w.process, call⟩ :: rest⟩ :=
  h.tail (.start ⟨rfl, hstart⟩)

/-- The call that started last goes on. -/
theorem call_proceeds {process : ℕ} {call : Call} {next : Option Call} (ok : Bool)
    (h : Run (desktopProgram.when condition) s ⟨w, ⟨process, call⟩ :: rest⟩)
    (hproceed : call.proceed w ok = (w', next)) (hcondition : condition w ⟨process, call⟩)
    (hprocess : process = w.process) (hfree : call.takesAuth = true → w.authHeld = false) :
    Run (desktopProgram.when condition) s
      ⟨w', (next.map fun call => (⟨process, call⟩ : Task)).toList ++ rest⟩ := by
  have hact : Task.Acts w ⟨process, call⟩ w' (next.map fun call => ⟨process, call⟩) :=
    .proceeds ok hprocess hfree hproceed
  have hstep : Step (desktopProgram.when condition) ⟨w, [] ++ ⟨process, call⟩ :: rest⟩
      ⟨w', [] ++ ((next.map fun call => (⟨process, call⟩ : Task)).toList ++ rest)⟩ :=
    .act ⟨hcondition, hact⟩
  rw [List.nil_append, List.nil_append] at hstep
  exact h.tail hstep

end Runs

end Zvault.Desktop
