import Zvault.Desktop.SavedSession

/-!
# A locked vault stays locked after a restart

In a run whose saves, unlocks and restarts are in order, no saved session is
left after a lock once the threads have run. A record that is written after the
delete of a later lock is left, and opens the vault after a restart.
-/

namespace Zvault.Desktop

open Concurrent

def Vault.saveState (v : Vault) : SaveState where
  process := v.process
  locked := v.session.isLocked
  stays := v.session.settings.stayUnlocked
  stored := v.saved.isSome
  forgets := v.forgets
  closings := v.closings
  lockedSince := v.lockedSince
  offSince := v.offSince

abbrev World.saveState (w : World) : SaveState := w.vault.saveState

/-- What a call is still to do to the saved session. -/
def Call.errand : Call → Option Errand
  | .lockKeyring .. | .lockAuth .. | .lockForget .. | .settingsForget _ => some .forget
  | .storeSave _ closings => some (.save closings)
  | _ => none

/-- The step of a call is in order: a record is written before the deletes of a later closing have
run, an unlock that was requested before the last lock does not open the session after it, and the
app does not restart before the deletes have run. -/
def Call.SavesInOrder (w : World) : Call → Prop
  | .storeSave _ closings => w.saveState.SaveInOrder closings
  | .passwordSession .. => w.saveState.UnlockInOrder
  | .touchIdOpen _ record => isFresh record.passwordVerifiedAt w.now → w.saveState.UnlockInOrder
  | .restoreOpen record => isFresh record.verifiedAt w.now → w.saveState.UnlockInOrder
  | .restart => w.saveState.RestartInOrder
  | _ => True

def SavesInOrder (w : World) (task : Task) : Prop :=
  task.process = w.process → task.call.SavesInOrder w

/-- What a restart would restore. -/
def World.restorable (w : World) : Option SavedSession :=
  w.saved.filter fun record =>
    w.loadedSettings.stayUnlocked && isFresh record.verifiedAt w.now

section Steps

variable {w w' : World} {ok : Bool}

/-- A step that leaves what decides about the saved session alone. -/
theorem saveStays_of_eq {next : Option Call} (hstate : w'.saveState = w.saveState)
    (hnext : next.bind Call.errand = none) :
    w.saveState.Moves none w'.saveState (next.bind Call.errand) := by
  rw [hstate, hnext]
  exact .stays none

theorem Call.errand_of_not_hasBegun {call : Call} (h : call.hasBegun = false) :
    call.errand = none := by
  cases call <;> first | rfl | cases h

/-- A plain step leaves the saved session alone. -/
theorem Call.proceed_plain_saveMoves {call : Call} (h : call.isPlain = true) :
    w.saveState.Moves none (call.proceed w ok).1.saveState
      ((call.proceed w ok).2.bind Call.errand) := by
  obtain ⟨hvault, hnext⟩ := Call.proceed_plain w ok h
  refine saveStays_of_eq (congrArg Vault.saveState hvault) ?_
  exact Option.bind_eq_none_iff.mpr fun next hmem =>
    Call.errand_of_not_hasBegun (by simpa [Option.mem_def.mp hmem] using hnext)

/-- A record is built when the session is unlocked and the setting is on. -/
theorem World.savedSession_some {record : SavedSession} (h : w.savedSession = some record) :
    w.session.isLocked = false ∧ w.session.settings.stayUnlocked = true := by
  unfold World.savedSession at h
  split at h
  · cases h
  · rename_i u hu
    split at h
    · rename_i hif
      exact ⟨by rw [Session.isLocked, hu]; rfl, (Bool.and_eq_true_iff.mp hif).1⟩
    · cases h

theorem Session.setSettings_settings {session session' : Session} {settings : LockSettings}
    (h : session.setSettings settings = some session') : session'.settings = settings := by
  unfold setSettings at h
  split at h
  · obtain rfl := Option.some_inj.mp h
    rfl
  · cases h

/-- What a step that is in order does to the saved session. -/
theorem Call.proceed_saveMoves (call : Call) (hinOrder : call.SavesInOrder w) :
    w.saveState.Moves call.errand (call.proceed w ok).1.saveState
      ((call.proceed w ok).2.bind Call.errand) := by
  cases call with
  | request unlock =>
    simp only [proceed, Option.bind_some, Call.errand_of_not_hasBegun unlock.call_hasBegun]
    exact .requests
  | passwordSession turn account => exact .unlocks hinOrder
  | touchIdOpen accountId record =>
    simp only [proceed]
    split
    · rename_i hfresh
      exact .unlocks (hinOrder hfresh)
    · exact saveStays_of_eq rfl rfl
  | restoreOpen record =>
    simp only [proceed]
    split
    · rename_i hfresh
      exact .unlocks (hinOrder hfresh)
    · exact .forgets none
  | lock reason =>
    simp only [proceed]
    split
    · exact .locks
    · exact saveStays_of_eq rfl rfl
  | signOut => exact .locks
  | lockKeyring turn leaves => exact .stays (some .forget)
  | lockAuth turn leaves => exact .stays (some .forget)
  | lockForget turn leaves => cases leaves <;> exact .forgets (some .forget)
  | settingsForget settings => exact .forgets (some .forget)
  | stayUnlockedSave =>
    simp only [proceed]
    cases hsaved : w.savedSession with
    | none => exact saveStays_of_eq rfl rfl
    | some record =>
      obtain ⟨hunlocked, hstays⟩ := World.savedSession_some hsaved
      exact .builds hunlocked hstays
  | storeSave record closings =>
    simp only [proceed]
    split
    · exact .writes closings hinOrder
    · exact .fails closings
  | storeDelete =>
    simp only [proceed]
    split
    · exact saveStays_of_eq rfl rfl
    · exact .deletes _
  | setLockSettings settings =>
    cases hset : w.session.setSettings settings with
    | none =>
      simp only [proceed, hset]
      exact saveStays_of_eq rfl rfl
    | some session =>
      have hlocked : session.isLocked = w.session.isLocked := by
        rw [Session.isLocked, Session.setSettings_unlocked hset, Session.isLocked]
      have hsettings := Session.setSettings_settings hset
      simp only [proceed, hset, World.applySettings, hsettings]
      cases hon : settings.stayUnlocked with
      | true =>
        have hmove := SaveState.Moves.turnsOn (s := w.saveState)
        simpa only [if_true, World.vault, Vault.saveState, Call.errand, Option.bind_some, hlocked,
          hsettings, hon] using hmove
      | false =>
        have hmove := SaveState.Moves.turnsOff (s := w.saveState)
        simpa only [Bool.false_eq_true, if_false, World.vault, Vault.saveState, Call.errand,
          Option.bind_some, hlocked, hsettings, hon] using hmove
  | restart => exact .restarts w.loadedSettings.stayUnlocked hinOrder
  | passwordKeyring account => exact saveStays_of_eq rfl rfl
  | passwordAuth turn account => exact saveStays_of_eq rfl rfl
  | quickKeyring turn account localUnlock => exact saveStays_of_eq rfl rfl
  | quickAuth turn account localUnlock => exact saveStays_of_eq rfl rfl
  | signOutAuth turn => exact saveStays_of_eq rfl rfl
  | _ => exact Call.proceed_plain_saveMoves rfl

end Steps

section Runs

variable {w w' : World} {task : Task} {next : Option Task}

/-- A step of a live task, in order, is a move. -/
theorem Task.Acts.saveMoves (h : task.Acts w w' next) (hlive : task.process = w.process)
    (hinOrder : task.call.SavesInOrder w) :
    w.saveState.Moves task.call.errand w'.saveState (next.bind fun n => n.call.errand) := by
  cases h with
  | gone hgone => exact absurd hlive hgone
  | proceeds ok _ _ hproceed =>
    have hmoves : w.saveState.Moves task.call.errand (task.call.proceed w ok).1.saveState
      ((task.call.proceed w ok).2.bind Call.errand) := task.call.proceed_saveMoves hinOrder
    rw [hproceed] at hmoves
    rw [Option.bind_map]
    exact hmoves

def Task.OnErrand (w : World) (task : Task) : Prop :=
  ∀ errand ∈ task.call.errand, errand.Sound w.saveState

theorem stay_outline : Outline (desktopProgram.when SavesInOrder)
    (fun w => w.saveState.Sound) Task.OnErrand fun _ _ => True := by
  have hsound : ∀ {w w' : World} {task : Task} {next}, w.saveState.Sound → task.OnErrand w →
      (desktopProgram.when SavesInOrder).act w task w' next →
      w'.saveState.Sound ∧ ∀ n ∈ next, n.OnErrand w' := by
    rintro w w' task next hs herrand ⟨hinOrder, hact⟩
    rcases Classical.em (task.process = w.process) with hlive | hgone
    · obtain ⟨hs', hnext⟩ := (hact.saveMoves hlive (hinOrder hlive)).sound hs herrand
      refine ⟨hs', fun n hn e he => hnext e ?_⟩
      obtain rfl := Option.mem_def.mp hn
      exact he
    · obtain ⟨rfl, rfl⟩ := hact.eq_of_gone hgone
      exact ⟨hs, nofun⟩
  refine .of_free (fun _ hstart e he => ?_) (fun hs herrand hact => (hsound hs herrand hact).1)
    (fun hs herrand hact => (hsound hs herrand hact).2 _ rfl) ?_
  · rw [Call.errand_of_not_hasBegun (Call.hasBegun_of_canStart hstart.2)] at he
    cases he
  · rintro w task w' next u hs herrand hother ⟨hinOrder, hact⟩ e he
    rcases Classical.em (task.process = w.process) with hlive | hgone
    · exact (hact.saveMoves hlive (hinOrder hlive)).errand_sound (hother e he)
    · obtain ⟨rfl, rfl⟩ := hact.eq_of_gone hgone
      exact hother e he

/-- A live task is about to start a thread of `forget`. -/
def Task.Forgets (w : World) (task : Task) : Prop :=
  task.process = w.process ∧ task.call.errand = some .forget

theorem stay_attends : Outline.Attends (desktopProgram.when SavesInOrder)
    (fun w => w.saveState.Sound) Task.OnErrand (fun w => w.saveState.Settled) Task.Forgets where
  own := by
    rintro w task w' next hs herrand ⟨hinOrder, hact⟩ hor
    rcases Classical.em (task.process = w.process) with hlive | hgone
    · have hmoves := hact.saveMoves hlive (hinOrder hlive)
      rcases hmoves.settled herrand (hor.imp_right And.right) with hsettled | hnext
      · exact Or.inl hsettled
      · rcases hmoves.process with hprocess | hsettled
        · obtain ⟨n, hn, hforget⟩ := Option.bind_eq_some_iff.mp hnext
          have hn' := hact.process_eq n hn
          exact Or.inr ⟨n, hn, (hn'.trans hlive).trans hprocess.symm, hforget⟩
        · exact Or.inl hsettled
    · obtain ⟨rfl, rfl⟩ := hact.eq_of_gone hgone
      exact Or.inl (hor.resolve_right fun hforgets => hgone hforgets.1)
  other := by
    rintro w task w' next u hs herrand ⟨hinOrder, hact⟩ ⟨hu, hforget⟩
    rcases Classical.em (task.process = w.process) with hlive | hgone
    · rcases (hact.saveMoves hlive (hinOrder hlive)).process with hprocess | hsettled
      · exact Or.inr (Or.inl ⟨hu.trans hprocess.symm, hforget⟩)
      · exact Or.inl hsettled
    · obtain ⟨rfl, rfl⟩ := hact.eq_of_gone hgone
      exact Or.inr (Or.inl ⟨hu, hforget⟩)

/-- In every run whose saves, unlocks and restarts are in order: when the vault was locked, or
"Stay unlocked" turned off, and no unlock requested since, no saved session is left once all
threads have run. -/
theorem stays_locked {w : World} {tasks : List Task}
    (hrun : Run (desktopProgram.when SavesInOrder) ⟨.initial, []⟩ ⟨w, tasks⟩)
    (hclosed : w.lockedSince = true ∨ w.offSince = true)
    (hidle : ∀ task ∈ tasks, task.process = w.process → task.call.errand = none)
    (hforgets : w.forgets = 0) : w.saved = none ∧ w.restorable = none := by
  have hholds : Concurrent.Holds (fun w : World => w.saveState.Sound) Task.OnErrand
      (fun _ _ => True) ⟨World.initial, []⟩ := ⟨⟨nofun, nofun⟩, by simp, .nil⟩
  have hsettled : World.initial.saveState.Settled := fun hclosed => hclosed.elim nofun nofun
  rcases stay_attends.run stay_outline hholds (Or.inl hsettled) hrun with
    hsettled | ⟨task, htask, hlive, hforget⟩
  · have hsaved : w.saved = none := by
      rcases hsettled hclosed with hnone | hpos
      · exact Option.isNone_iff_eq_none.mp (Option.isSome_eq_false_iff.mp hnone)
      · exact absurd hforgets (Nat.ne_of_gt hpos)
    exact ⟨hsaved, by rw [World.restorable, hsaved]; rfl⟩
  · rw [hidle task htask hlive] at hforget
    cases hforget

/-- The session is saved, the vault is locked, and the thread of `forget` runs. -/
theorem stays_locked_forgotten : ∃ w, Run (desktopProgram.when SavesInOrder) ⟨.initial, []⟩ ⟨w, []⟩ ∧
    w.lockedSince = true ∧ w.loadedSettings.stayUnlocked = true ∧ w.forgets = 0 ∧
      w.saved = none ∧ w.restorable = none := by
  have hinitial : Run (desktopProgram.when SavesInOrder) ⟨.initial, []⟩ ⟨.initial, []⟩ := .refl
  have hset := call_proceeds true
    (call_starts hinitial (.setLockSettings { stayUnlocked := true }) rfl) rfl
    (fun _ => trivial) rfl nofun
  have hon := call_proceeds true hset rfl (fun _ => trivial) rfl nofun
  have hproved := call_proceeds true (call_starts hon (.loginProve "ada@example.com") rfl) rfl
    (fun _ => trivial) rfl fun _ => rfl
  have hrequested := call_proceeds true (call_starts hproved (.request (.loginFinish 7)) rfl) rfl
    (fun _ => trivial) rfl nofun
  have hfinished := call_proceeds true hrequested rfl (fun _ => trivial) rfl fun _ => rfl
  have hkeyring := call_proceeds true hfinished rfl (fun _ => trivial) rfl nofun
  have hsession := call_proceeds true hkeyring rfl (fun _ => ⟨rfl, nofun⟩) rfl nofun
  have hauth := call_proceeds true hsession rfl (fun _ => trivial) rfl nofun
  have hbuilt := call_proceeds true (call_starts hauth .stayUnlockedSave rfl) rfl
    (fun _ => trivial) rfl fun _ => rfl
  have hsaved := call_proceeds true hbuilt rfl (fun _ hlt => absurd hlt (Nat.lt_irrefl _)) rfl nofun
  have hlocked := call_proceeds true (call_starts hsaved (.lock .manual) rfl) rfl
    (fun _ => trivial) rfl nofun
  have hlockKeyring := call_proceeds true hlocked rfl (fun _ => trivial) rfl nofun
  have hlockAuth := call_proceeds true hlockKeyring rfl (fun _ => trivial) rfl fun _ => rfl
  have hforgot := call_proceeds true hlockAuth rfl (fun _ => trivial) rfl nofun
  have hdeleted := call_proceeds true (call_starts hforgot .storeDelete rfl) rfl
    (fun _ => trivial) rfl nofun
  obtain ⟨hnone, hrestorable⟩ := stays_locked hdeleted (Or.inl rfl) nofun rfl
  exact ⟨_, hdeleted, rfl, rfl, rfl, hnone, hrestorable⟩

/-- The record is built, the vault is locked and the thread of `forget` runs before the record is
written: a restart opens the vault without a password. -/
theorem save_outlives_lock : ∃ w, Run desktopProgram ⟨.initial, []⟩ ⟨w, []⟩ ∧
    w.lockedSince = true ∧ w.forgets = 0 ∧ w.restorable.isSome = true := by
  have hinitial : Run (desktopProgram.when fun _ _ => True) ⟨.initial, []⟩ ⟨.initial, []⟩ := .refl
  have hset := call_proceeds true
    (call_starts hinitial (.setLockSettings { stayUnlocked := true }) rfl) rfl trivial rfl nofun
  have hon := call_proceeds true hset rfl trivial rfl nofun
  have hproved := call_proceeds true (call_starts hon (.loginProve "ada@example.com") rfl) rfl
    trivial rfl fun _ => rfl
  have hrequested := call_proceeds true (call_starts hproved (.request (.loginFinish 7)) rfl) rfl
    trivial rfl nofun
  have hfinished := call_proceeds true hrequested rfl trivial rfl fun _ => rfl
  have hkeyring := call_proceeds true hfinished rfl trivial rfl nofun
  have hsession := call_proceeds true hkeyring rfl trivial rfl nofun
  have hauth := call_proceeds true hsession rfl trivial rfl nofun
  have hbuilt := call_proceeds true (call_starts hauth .stayUnlockedSave rfl) rfl trivial rfl
    fun _ => rfl
  -- the write waits while the vault is locked and the delete runs
  have hlocked := call_proceeds true (call_starts hbuilt (.lock .manual) rfl) rfl trivial rfl nofun
  have hlockKeyring := call_proceeds true hlocked rfl trivial rfl nofun
  have hlockAuth := call_proceeds true hlockKeyring rfl trivial rfl fun _ => rfl
  have hforgot := call_proceeds true hlockAuth rfl trivial rfl nofun
  have hdeleted := call_proceeds true (call_starts hforgot .storeDelete rfl) rfl trivial rfl nofun
  have hsaved := call_proceeds true hdeleted rfl trivial rfl nofun
  exact ⟨_, .of_when hsaved, rfl, rfl, by decide⟩

end Runs

end Zvault.Desktop
