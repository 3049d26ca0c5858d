import Zvault.Desktop.LockState

/-!
# The parts agree after calls that take turns

The calls of the app move the lock state as its turns do. In a run whose calls
come to the parts in turn, the parts agree whenever no call is midway. Without
that, a lock that falls between the parts of a Touch ID unlock leaves the key
behind a locked session.
-/

namespace Zvault.Desktop

open Concurrent

def Vault.lockState (v : Vault) : LockState where
  process := v.process
  session := v.session.unlocked.map fun u => ⟨u.accountId, u.key⟩
  keyring := v.keyring
  auth := v.account
  turns := v.turns
  passed := v.passed
  opens := v.opens

abbrev World.lockState (w : World) : LockState := w.vault.lockState

/-- The last parts of a lock; a sign-out clears the account twice. -/
def authParts (leaves : Bool) : List Part := if leaves then [.auth, .auth] else [.auth]

/-- The visit that a call is on. -/
def Call.visit : Call → Option Visit
  | .passwordSession turn account => some ⟨turn, some account, [.session, .auth]⟩
  | .passwordAuth turn account => some ⟨turn, some account, [.auth]⟩
  | .quickKeyring turn account _ => some ⟨turn, some account, [.keyring, .auth]⟩
  | .quickAuth turn account _ => some ⟨turn, some account, [.auth]⟩
  | .lockKeyring turn leaves => some ⟨turn, none, .keyring :: authParts leaves⟩
  | .lockAuth turn leaves => some ⟨turn, none, authParts leaves⟩
  | .lockForget turn leaves => if leaves then some ⟨turn, none, [.auth]⟩ else none
  | .signOutAuth turn => some ⟨turn, none, [.auth]⟩
  | _ => none

section Steps

variable {w w' : World} {ok : Bool}

/-- A step that leaves the lock state alone, of a call that is on no visit. -/
theorem stays_of_eq {next : Option Call} (hstate : w'.lockState = w.lockState)
    (hnext : next.bind Call.visit = none) :
    w.lockState.Moves none w'.lockState (next.bind Call.visit) := by
  rw [hstate, hnext]
  exact .stays none

theorem Call.visit_of_not_hasBegun {call : Call} (h : call.hasBegun = false) :
    call.visit = none := by
  cases call <;> first | rfl | cases h

/-- A plain step leaves the lock state alone. -/
theorem Call.proceed_plain_moves {call : Call} (h : call.isPlain = true) :
    w.lockState.Moves none (call.proceed w ok).1.lockState
      ((call.proceed w ok).2.bind Call.visit) := by
  obtain ⟨hvault, hnext⟩ := Call.proceed_plain w ok h
  refine stays_of_eq (congrArg Vault.lockState hvault) ?_
  exact Option.bind_eq_none_iff.mpr fun next hmem =>
    Call.visit_of_not_hasBegun (by simpa [Option.mem_def.mp hmem] using hnext)

/-- What a step does to the lock state. -/
theorem Call.proceed_moves (call : Call) :
    w.lockState.Moves call.visit (call.proceed w ok).1.lockState
      ((call.proceed w ok).2.bind Call.visit) := by
  have hall : ∀ {first : Part} {parts : List Part},
      (∀ p ∈ [Part.session, .keyring, .auth], p = first ∨ p ∈ parts) →
        ∀ p, p = first ∨ p ∈ parts :=
    fun h p => h p (by cases p <;> decide)
  cases call with
  | request unlock => exact stays_of_eq rfl (Call.visit_of_not_hasBegun unlock.call_hasBegun)
  | passwordKeyring account =>
    exact .enters .keyring (some account) [.session, .auth] (hall (by decide))
  | passwordSession turn account => exact .passes turn (some account) .session [.auth]
  | passwordAuth turn account => exact .passes turn (some account) .auth []
  | touchIdOpen accountId record =>
    simp only [proceed]
    split
    · exact .enters .session (some ⟨accountId, record.key⟩) [.keyring, .auth] (hall (by decide))
    · exact stays_of_eq rfl rfl
  | restoreOpen record =>
    simp only [proceed]
    split
    · exact .enters .session (some ⟨record.email, record.keyset⟩) [.keyring, .auth]
        (hall (by decide))
    · exact stays_of_eq rfl rfl
  | quickKeyring turn account localUnlock => exact .passes turn (some account) .keyring [.auth]
  | quickAuth turn account localUnlock => exact .passes turn (some account) .auth []
  | lock reason =>
    simp only [proceed]
    split
    · exact .enters .session none [.keyring, .auth] (hall (by decide))
    · exact stays_of_eq rfl rfl
  | signOut => exact .enters .session none [.keyring, .auth, .auth] (hall (by decide))
  | lockKeyring turn leaves =>
    cases leaves with
    | false => exact .passes turn none .keyring [.auth]
    | true => exact .passes turn none .keyring [.auth, .auth]
  | lockAuth turn leaves =>
    cases leaves with
    | false => exact .passes turn none .auth []
    | true => exact .passes turn none .auth [.auth]
  | lockForget turn leaves =>
    cases leaves with
    | false => exact stays_of_eq rfl rfl
    | true => exact .stays (some ⟨turn, none, [.auth]⟩)
  | signOutAuth turn => exact .passes turn none .auth []
  | setLockSettings settings =>
    cases hset : w.session.setSettings settings with
    | none =>
      simp only [proceed, hset]
      exact stays_of_eq rfl rfl
    | some session =>
      simp only [proceed, hset]
      refine stays_of_eq ?_ ?_
      · simp only [World.lockState, World.applySettings]
        split <;> simp only [World.vault, Vault.lockState, Session.setSettings_unlocked hset]
      · split <;> rfl
  | restart => exact .restarts
  | stayUnlockedSave =>
    refine stays_of_eq rfl (Option.bind_eq_none_iff.mpr fun next hnext => ?_)
    obtain ⟨record, -, rfl⟩ := Option.map_eq_some_iff.mp hnext
    rfl
  | storeSave record closings => exact stays_of_eq (by simp only [proceed]; split <;> rfl) rfl
  | storeDelete =>
    simp only [proceed]
    split
    · exact stays_of_eq rfl rfl
    · exact stays_of_eq rfl rfl
  | settingsForget settings => exact stays_of_eq rfl rfl
  | _ => exact Call.proceed_plain_moves rfl

end Steps

section Runs

variable {w w' : World} {task : Task} {next : Option Task}

/-- A step of a live task is a move of its visit. -/
theorem Task.Acts.moves (h : task.Acts w w' next) (hlive : task.process = w.process) :
    w.lockState.Moves task.call.visit w'.lockState (next.bind fun n => n.call.visit) := by
  cases h with
  | gone hgone => exact absurd hlive hgone
  | proceeds ok _ _ hproceed =>
    have hmoves : w.lockState.Moves task.call.visit (task.call.proceed w ok).1.lockState
      ((task.call.proceed w ok).2.bind Call.visit) := task.call.proceed_moves
    rw [hproceed] at hmoves
    rw [Option.bind_map]
    exact hmoves

/-- The visit of a task is of a turn that was given out. -/
def Task.OnVisit (w : World) (task : Task) : Prop :=
  ∀ visit ∈ task.call.visit, visit.Sound w.lockState

/-- The task comes to the next part of its visit in turn. -/
def InTurn (w : World) (task : Task) : Prop :=
  task.process = w.process → ∀ visit ∈ task.call.visit, visit.InTurn w.lockState

instance (w : World) (task : Task) : Decidable (InTurn w task) :=
  inferInstanceAs (Decidable (task.process = w.process → ∀ visit ∈ task.call.visit,
    ∀ part ∈ visit.parts.head?, w.lockState.passed part ≤ visit.turn))

/-- The call is on a visit that has begun and has parts ahead. -/
def Task.IsMidway (w : World) (task : Task) : Prop :=
  task.process = w.process ∧ task.call.visit.isSome

theorem Task.Acts.sound (h : task.Acts w w' next) (hsound : w.lockState.Sound)
    (hvisit : task.OnVisit w) : w'.lockState.Sound ∧ ∀ n ∈ next, n.OnVisit w' := by
  rcases Classical.em (task.process = w.process) with hlive | hgone
  · obtain ⟨hsound', hnext⟩ := (h.moves hlive).sound hsound hvisit
    refine ⟨hsound', fun n hn v hv => hnext v ?_⟩
    obtain rfl := Option.mem_def.mp hn
    exact hv
  · obtain ⟨rfl, rfl⟩ := h.eq_of_gone hgone
    exact ⟨hsound, nofun⟩

theorem Task.Acts.visit_sound (h : task.Acts w w' next) {visit : Visit}
    (hvisit : visit.Sound w.lockState) : visit.Sound w'.lockState := by
  rcases Classical.em (task.process = w.process) with hlive | hgone
  · exact (h.moves hlive).visit_sound hvisit
  · obtain ⟨rfl, rfl⟩ := h.eq_of_gone hgone
    exact hvisit

theorem lockState_outline : Outline (desktopProgram.when InTurn)
    (fun w => w.lockState.Sound) Task.OnVisit fun _ _ => True := by
  refine .of_free (fun _ hstart => ?_) (fun hsound hvisit hact => ?_)
    (fun hsound hvisit hact => ?_) fun _ _ hother hact v hv => ?_
  · obtain ⟨-, hstart⟩ := hstart
    intro v hv
    rw [Call.visit_of_not_hasBegun (Call.hasBegun_of_canStart hstart)] at hv
    cases hv
  · exact (hact.2.sound hsound hvisit).1
  · exact (hact.2.sound hsound hvisit).2 _ rfl
  · exact hact.2.visit_sound (hother v hv)

/-- A live task of the latest turn attends to the parts ahead. -/
def Task.Attends (part : Part) (w : World) (task : Task) : Prop :=
  task.process = w.process ∧ ∃ visit ∈ task.call.visit, visit.Attends w.lockState part

theorem lockState_attends (part : Part) : Outline.Attends (desktopProgram.when InTurn)
    (fun w => w.lockState.Sound) Task.OnVisit
    (fun w => w.lockState.passed part = w.lockState.turns) (Task.Attends part) where
  own := by
    rintro w task w' next hsound hvisit ⟨hinTurn, hact⟩ hor
    rcases Classical.em (task.process = w.process) with hlive | hgone
    · have hmoves := hact.moves hlive
      have hor' := hmoves.attended hvisit (hinTurn hlive) (hor.imp_right And.right)
      rcases hor', hmoves.process with ⟨hdone | ⟨v, hv, hattends⟩, hprocess | hall⟩
      · exact Or.inl hdone
      · exact Or.inl hdone
      · obtain ⟨n, hn, hv⟩ := Option.bind_eq_some_iff.mp hv
        have hn' := hact.process_eq n hn
        exact Or.inr ⟨n, hn, (hn'.trans hlive).trans hprocess.symm, v, hv, hattends⟩
      · exact Or.inl (hall part)
    · obtain ⟨rfl, rfl⟩ := hact.eq_of_gone hgone
      exact Or.inl (hor.resolve_right fun hattends => hgone hattends.1)
  other := by
    rintro w task w' next u hsound hvisit ⟨hinTurn, hact⟩ ⟨hu, v, hv, hattends⟩
    rcases Classical.em (task.process = w.process) with hlive | hgone
    · have hmoves := hact.moves hlive
      rcases hmoves.other_attended hattends, hmoves.process with
        ⟨hdone | hother | ⟨n, hn, hnext⟩, hprocess | hall⟩
      · exact Or.inl hdone
      · exact Or.inl hdone
      · exact Or.inr (Or.inl ⟨hu.trans hprocess.symm, v, hv, hother⟩)
      · exact Or.inl (hall part)
      · obtain ⟨n, hn, hv⟩ := Option.bind_eq_some_iff.mp hn
        have hn' := hact.process_eq n hn
        exact Or.inr (Or.inr ⟨n, hn, (hn'.trans hlive).trans hprocess.symm, _, hv, hnext⟩)
      · exact Or.inl (hall part)
    · obtain ⟨rfl, rfl⟩ := hact.eq_of_gone hgone
      exact Or.inr (Or.inl ⟨hu, v, hv, hattends⟩)

theorem World.initial_sound : World.initial.lockState.Sound where
  holds part := by cases part <;> rfl
  passed_le _ := Nat.le_refl _

/-- In every run whose locks and unlocks come to the parts in turn, the parts agree whenever none
of them is midway. -/
theorem lockState_agrees {w : World} {tasks : List Task}
    (hrun : Run (desktopProgram.when InTurn) ⟨.initial, []⟩ ⟨w, tasks⟩)
    (hidle : ∀ task ∈ tasks, ¬ task.IsMidway w) : w.lockState.Agrees := by
  have hholds : Concurrent.Holds (fun w : World => w.lockState.Sound) Task.OnVisit (fun _ _ => True)
      ⟨World.initial, []⟩ := ⟨World.initial_sound, by simp, .nil⟩
  refine (lockState_outline.run hholds hrun).inv.agrees fun part => ?_
  have hattended := (lockState_attends part).run lockState_outline hholds (Or.inl rfl) hrun
  rcases hattended with hdone | ⟨task, htask, hlive, v, hv, -⟩
  · exact hdone
  · exact absurd ⟨hlive, by rw [hv]; rfl⟩ (hidle task htask)

/-- Ada signs in and turns Touch ID on; the vault is locked, and she unlocks it. -/
theorem lockState_agrees_unlocked : ∃ locked w,
    Run (desktopProgram.when InTurn) ⟨.initial, []⟩ ⟨locked, []⟩ ∧
    Run (desktopProgram.when InTurn) ⟨locked, []⟩ ⟨w, []⟩ ∧
    locked.session.isLocked = true ∧ locked.lockState.Agrees ∧
    w.session.isLocked = false ∧ w.keyring = some 7 ∧ w.lockState.Agrees := by
  have hinitial : Run (desktopProgram.when InTurn) ⟨.initial, []⟩ ⟨.initial, []⟩ := .refl
  have hproved := call_proceeds true (call_starts hinitial (.loginProve "ada@example.com") rfl) rfl
    (by decide) rfl fun _ => rfl
  have hrequested := call_proceeds true (call_starts hproved (.request (.loginFinish 7)) rfl) rfl
    (by decide) rfl nofun
  have hfinished := call_proceeds true hrequested rfl (by decide) rfl fun _ => rfl
  have hkeyring := call_proceeds true hfinished rfl (by decide) rfl nofun
  have hsession := call_proceeds true hkeyring rfl (by decide) rfl nofun
  have hauth := call_proceeds true hsession rfl (by decide) rfl nofun
  have henabled := call_proceeds true (call_starts hauth .enableTouchId rfl) rfl (by decide) rfl
    nofun
  have henrolled := call_proceeds true henabled rfl (by decide) rfl nofun
  have hlocked := call_proceeds true (call_starts henrolled (.lock .manual) rfl) rfl (by decide) rfl
    nofun
  have hlockKeyring := call_proceeds true hlocked rfl (by decide) rfl nofun
  have hlockAuth := call_proceeds true hlockKeyring rfl (by decide) rfl fun _ => rfl
  have hforgot := call_proceeds true hlockAuth rfl (by decide) rfl nofun
  have hrest {s : System World Task} (_ : Run (desktopProgram.when InTurn) ⟨.initial, []⟩ s) :
      Run (desktopProgram.when InTurn) s s := .refl
  have hasked := call_proceeds true
    (call_starts (hrest hforgot) (.request .unlockWithTouchId) rfl) rfl (by decide) rfl nofun
  have hprompt := call_proceeds true hasked rfl (by decide) rfl nofun
  have hloaded := call_proceeds true hprompt rfl (by decide) rfl nofun
  have hopened := call_proceeds true hloaded (Call.proceed_touchIdOpen (by decide) true)
    (by decide) rfl nofun
  have hquickKeyring := call_proceeds true hopened rfl (by decide) rfl nofun
  have hquickAuth := call_proceeds true hquickKeyring rfl (by decide) rfl fun _ => rfl
  exact ⟨_, _, hforgot, hquickAuth, rfl, lockState_agrees hforgot nofun, rfl, rfl,
    lockState_agrees (hforgot.trans hquickAuth) nofun⟩

/-- Ada unlocks with Touch ID. The vault is locked when the session has been set and the keyring
has not: both calls are done, the session is locked, and the keyring and the account are open. -/
theorem touchId_outlives_lock : ∃ w, Run desktopProgram ⟨.initial, []⟩ ⟨w, []⟩ ∧
    w.session.isLocked = true ∧ w.keyring = some 7 ∧
      w.auth.account = some ⟨"ada@example.com", 7⟩ ∧ ¬ w.lockState.Agrees := by
  have hinitial : Run (desktopProgram.when fun _ _ => True) ⟨.initial, []⟩ ⟨.initial, []⟩ := .refl
  have hproved := call_proceeds true (call_starts hinitial (.loginProve "ada@example.com") rfl) rfl
    trivial rfl fun _ => rfl
  have hrequested := call_proceeds true (call_starts hproved (.request (.loginFinish 7)) rfl) rfl
    trivial rfl nofun
  have hfinished := call_proceeds true hrequested rfl trivial rfl fun _ => rfl
  have hkeyring := call_proceeds true hfinished rfl trivial rfl nofun
  have hsession := call_proceeds true hkeyring rfl trivial rfl nofun
  have hauth := call_proceeds true hsession rfl trivial rfl nofun
  have henabled := call_proceeds true (call_starts hauth .enableTouchId rfl) rfl trivial rfl nofun
  have henrolled := call_proceeds true henabled rfl trivial rfl nofun
  -- the Touch ID unlock sets the session
  have hasked := call_proceeds true (call_starts henrolled (.request .unlockWithTouchId) rfl) rfl
    trivial rfl nofun
  have hprompt := call_proceeds true hasked rfl trivial rfl nofun
  have hloaded := call_proceeds true hprompt rfl trivial rfl nofun
  have hopened := call_proceeds true hloaded (Call.proceed_touchIdOpen (by decide) true) trivial rfl
    nofun
  -- the whole lock comes between
  have hlocked := call_proceeds true (call_starts hopened (.lock .manual) rfl) rfl trivial rfl nofun
  have hlockKeyring := call_proceeds true hlocked rfl trivial rfl nofun
  have hlockAuth := call_proceeds true hlockKeyring rfl trivial rfl fun _ => rfl
  have hforgot := call_proceeds true hlockAuth rfl trivial rfl nofun
  have hquickKeyring := call_proceeds true hforgot rfl trivial rfl nofun
  have hquickAuth := call_proceeds true hquickKeyring rfl trivial rfl fun _ => rfl
  refine ⟨_, .of_when hquickAuth, rfl, rfl, rfl, ?_⟩
  rintro ⟨holder, hsession, hkeyring, -⟩
  obtain rfl : none = holder := hsession
  cases hkeyring

end Runs

end Zvault.Desktop
