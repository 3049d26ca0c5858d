import Zvault.Desktop.Commands

/-!
# The deadline of quick unlocks

The moment of the last password proof is copied between the session, the Touch
ID record and the saved session. A step copies it from another copy, no later,
or takes it from the clock when the password was just proven. So no copy is ever
later than the proof of its account, and a fresh one is within fourteen days.
-/

namespace Zvault.Desktop

open Concurrent

/-- The app holds a moment for an account. -/
inductive World.Copied (w : World) : String → ℕ → Prop
  | session (u : Unlocked) (h : w.session.unlocked = some u) :
      Copied w u.accountId u.passwordVerifiedAt
  | touchId (id : String) (record : TouchIdRecord) (h : w.touchIds id = some record) :
      Copied w id record.passwordVerifiedAt
  | saved (record : SavedSession) (h : w.saved = some record) : Copied w record.email record.verifiedAt

/-- The moment that a call carries, and its account. -/
def Call.carried : Call → Option (String × ℕ)
  | .touchIdOpen id record => some (id, record.passwordVerifiedAt)
  | .restoreOpen record => some (record.email, record.verifiedAt)
  | .storeSave record _ => some (record.email, record.verifiedAt)
  | _ => none

/-- A moment comes from a copy that is no earlier. -/
def FromCopy (w : World) (call : Call) (id : String) (t : ℕ) : Prop :=
  ∃ t', t ≤ t' ∧ (w.Copied id t' ∨ call.carried = some (id, t'))

/-- What a step does to the moments. -/
structure Call.Copies (w : World) (call : Call) (w' : World) (next : Option Call) : Prop where
  now_le : w.now ≤ w'.now
  /-- A proof is recorded at the moment it happens. -/
  proved : ∀ id, w'.provedAt id = w.provedAt id ∨ w'.provedAt id = some w.now
  copied : ∀ id t, w'.Copied id t →
    FromCopy w call id t ∨ t ≤ w.now ∧ w'.provedAt id = some w.now
  carried : ∀ id t, next.bind Call.carried = some (id, t) → FromCopy w call id t
  /-- A quick unlock uses a moment that the call carries, and that is fresh. -/
  quick : ∀ u ∈ w'.quickUnlocks, u ∈ w.quickUnlocks ∨
    ∃ t, call.carried = some (u.accountId, t) ∧ isFresh t w.now = true ∧ u.unlockedAt = w.now ∧
      u.provedAt = w.provedAt u.accountId

section Steps

variable {w w' : World} {call : Call} {next : Option Call} {ok : Bool}

theorem World.Copied.fromCopy {id : String} {t : ℕ} (h : w.Copied id t) : FromCopy w call id t :=
  ⟨t, Nat.le_refl t, Or.inl h⟩

theorem FromCopy.session {u : Unlocked} (h : w.session.unlocked = some u) :
    FromCopy w call u.accountId u.passwordVerifiedAt := (World.Copied.session u h).fromCopy

theorem FromCopy.touchId {id : String} {record : TouchIdRecord} (h : w.touchIds id = some record) :
    FromCopy w call id record.passwordVerifiedAt := (World.Copied.touchId id record h).fromCopy

theorem FromCopy.saved {record : SavedSession} (h : w.saved = some record) :
    FromCopy w call record.email record.verifiedAt := (World.Copied.saved record h).fromCopy

/-- A step that leaves clock, proofs and quick unlocks alone. -/
theorem Call.Copies.of_copied (hnow : w'.now = w.now) (hproved : w'.provedAt = w.provedAt)
    (hquick : w'.quickUnlocks = w.quickUnlocks)
    (hcopied : ∀ id t, w'.Copied id t → FromCopy w call id t)
    (hcarried : ∀ id t, next.bind Call.carried = some (id, t) → FromCopy w call id t) :
    call.Copies w w' next where
  now_le := Nat.le_of_eq hnow.symm
  proved id := Or.inl (by rw [hproved])
  copied id t ht := Or.inl (hcopied id t ht)
  carried := hcarried
  quick u hu := Or.inl (hquick ▸ hu)

/-- The copies of a world whose copies are some of another's. -/
theorem World.Copied.of_subset {id : String} {t : ℕ} (h : w'.Copied id t)
    (hsession : ∀ u, w'.session.unlocked = some u → w.session.unlocked = some u)
    (htouchIds : ∀ id r, w'.touchIds id = some r → w.touchIds id = some r)
    (hsaved : ∀ r, w'.saved = some r → w.saved = some r) : w.Copied id t := by
  cases h with
  | session u hu => exact .session u (hsession u hu)
  | touchId id record hrecord => exact .touchId id record (htouchIds id record hrecord)
  | saved record hrecord => exact .saved record (hsaved record hrecord)

/-- A step that makes no copy. -/
theorem Call.Copies.of_subset (hnow : w'.now = w.now) (hproved : w'.provedAt = w.provedAt)
    (hquick : w'.quickUnlocks = w.quickUnlocks)
    (hsession : ∀ u, w'.session.unlocked = some u → w.session.unlocked = some u)
    (htouchIds : ∀ id r, w'.touchIds id = some r → w.touchIds id = some r)
    (hsaved : ∀ r, w'.saved = some r → w.saved = some r)
    (hcarried : ∀ id t, next.bind Call.carried = some (id, t) → FromCopy w call id t) :
    call.Copies w w' next :=
  .of_copied hnow hproved hquick
    (fun _ _ h => (h.of_subset hsession htouchIds hsaved).fromCopy) hcarried

/-- A step that changes none of them. -/
theorem Call.Copies.of_same
    (hcarried : ∀ id t, next.bind Call.carried = some (id, t) → FromCopy w call id t) :
    call.Copies w w next :=
  .of_subset rfl rfl rfl (fun _ h => h) (fun _ _ h => h) (fun _ h => h) hcarried

/-- A step that changes none of them, except the parts and the files. -/
theorem Call.Copies.of_eq (hnow : w'.now = w.now) (hproved : w'.provedAt = w.provedAt)
    (hquick : w'.quickUnlocks = w.quickUnlocks)
    (hsession : w'.session.unlocked = w.session.unlocked) (htouchIds : w'.touchIds = w.touchIds)
    (hsaved : w'.saved = w.saved) (hcarried : next.bind Call.carried = none) :
    call.Copies w w' next :=
  .of_subset hnow hproved hquick (fun _ h => hsession ▸ h) (fun _ _ h => htouchIds ▸ h)
    (fun _ h => hsaved ▸ h) fun _ _ h => nomatch hcarried.symm.trans h

/-- Touch ID records are removed. -/
theorem Call.Copies.of_removed (accountId : String)
    (hcarried : next.bind Call.carried = none) :
    call.Copies w (w.setTouchId accountId none) next := by
  refine .of_subset rfl rfl rfl (fun _ h => h) (fun id r h => ?_) (fun _ h => h)
    fun _ _ h => nomatch hcarried.symm.trans h
  simp only [World.setTouchId] at h
  split at h
  · cases h
  · exact h

theorem Unlock.call_carried (unlock : Unlock) : unlock.call.carried = none := by
  cases unlock <;> rfl

/-- `unlocked_with_password` copies the moment of the proof. -/
theorem Call.passwordSession_copies {turn : ℕ} {account : Account} :
    (Call.passwordSession turn account).Copies w
      ((w.unlockedWithPassword account ok).pass .session turn)
      (some (.passwordAuth turn account)) where
  now_le := Nat.le_refl _
  proved id := by
    simp only [World.pass, World.unlockedWithPassword]
    split
    · exact Or.inr rfl
    · exact Or.inl rfl
  copied id t ht := by
    have hproved : ((w.unlockedWithPassword account ok).pass .session turn).provedAt account.email =
        some w.now := if_pos rfl
    cases ht with
    | session u hu =>
      obtain rfl := Option.some_inj.mp hu
      exact Or.inr ⟨Nat.le_refl _, hproved⟩
    | touchId id record hrecord =>
      simp only [World.pass, World.unlockedWithPassword] at hrecord
      split at hrecord
      · rename_i hrefresh
        obtain rfl := Option.some_inj.mp hrecord
        obtain rfl := hrefresh.1
        exact Or.inr ⟨fromSecs_unixSecs_le _, hproved⟩
      · exact Or.inl (.touchId hrecord)
    | saved record hrecord => exact Or.inl (.saved hrecord)
  carried := nofun
  quick u hu := Or.inl hu

/-- A quick unlock copies the moment that the call carries. -/
theorem Call.Copies.of_quickUnlock {account : Account} {method : UnlockMethod} {t : ℕ}
    (hcarries : call.carried = some (account.email, t)) (hfresh : isFresh t w.now = true) {turn : ℕ}
    {localUnlock : Option LocalUnlock} :
    call.Copies w ((w.quickUnlock account method t).enter .session (some account))
      (some (.quickKeyring turn account localUnlock)) where
  now_le := Nat.le_refl _
  proved _ := Or.inl rfl
  copied id t' ht := by
    cases ht with
    | session u hu =>
      obtain rfl := Option.some_inj.mp hu
      exact Or.inl ⟨t, Nat.le_refl _, Or.inr hcarries⟩
    | touchId id record hrecord => exact Or.inl (.touchId hrecord)
    | saved record hrecord => exact Or.inl (.saved hrecord)
  carried := nofun
  quick u hu := by
    rcases List.mem_cons.mp hu with rfl | hold
    · exact Or.inr ⟨t, hcarries, hfresh, rfl, rfl⟩
    · exact Or.inl hold

theorem Call.carried_of_canStart {call : Call} (h : call.canStart = true) :
    call.carried = none := by
  cases call <;> first | rfl | cases h

theorem bind_map_carried {α : Type} {o : Option α} {f : α → Call}
    (h : ∀ a, (f a).carried = none) : (o.map f).bind Call.carried = none := by
  cases o with
  | none => rfl
  | some a => exact h a

/-- The record that is built has the moment of the session, in whole seconds. -/
theorem World.savedSession_fromCopy {record : SavedSession} (h : w.savedSession = some record) :
    FromCopy w call record.email record.verifiedAt := by
  unfold World.savedSession at h
  split at h
  · cases h
  · rename_i u hu
    split at h
    · obtain rfl := Option.some_inj.mp h
      exact ⟨u.passwordVerifiedAt, fromSecs_unixSecs_le _, Or.inl (.session u hu)⟩
    · cases h

theorem Call.proceed_copies (call : Call) :
    call.Copies w (call.proceed w ok).1 (call.proceed w ok).2 := by
  cases call with
  | request unlock => exact .of_eq rfl rfl rfl rfl rfl rfl unlock.call_carried
  | passwordSession turn account => exact Call.passwordSession_copies
  | touchIdLoad accountId =>
    simp only [proceed]
    split
    · split
      · exact .of_same (by rintro _ _ ⟨⟩)
      · rename_i record hrecord
        refine .of_same fun id t h => ?_
        obtain ⟨rfl, rfl⟩ := Prod.mk.inj (Option.some_inj.mp h)
        exact FromCopy.touchId hrecord
    · exact .of_same (by rintro _ _ ⟨⟩)
  | touchIdOpen accountId record =>
    simp only [proceed]
    split
    · rename_i hfresh
      exact .of_quickUnlock rfl hfresh
    · exact .of_removed accountId rfl
  | restoreLoad =>
    refine .of_same fun id t h => ?_
    simp only [proceed] at h
    split at h
    · obtain ⟨n, hn, hcarried⟩ := Option.bind_eq_some_iff.mp h
      obtain ⟨record, hrecord, rfl⟩ := Option.map_eq_some_iff.mp hn
      obtain ⟨rfl, rfl⟩ := Prod.mk.inj (Option.some_inj.mp hcarried)
      exact FromCopy.saved hrecord
    · cases h
  | restoreOpen record =>
    simp only [proceed]
    split
    · rename_i hfresh
      exact .of_quickUnlock rfl hfresh
    · exact .of_eq rfl rfl rfl rfl rfl rfl rfl
  | lock reason =>
    simp only [proceed]
    split
    · exact .of_subset rfl rfl rfl (by rintro _ ⟨⟩) (fun _ _ h => h) (fun _ h => h)
        (by rintro _ _ ⟨⟩)
    · exact .of_same (by rintro _ _ ⟨⟩)
  | signOut =>
    exact .of_subset rfl rfl rfl (by rintro _ ⟨⟩) (fun _ _ h => h) (fun _ h => h)
      (by rintro _ _ ⟨⟩)
  | stayUnlockedSave =>
    refine .of_same fun id t h => ?_
    obtain ⟨n, hn, hcarried⟩ := Option.bind_eq_some_iff.mp h
    obtain ⟨record, hrecord, rfl⟩ := Option.map_eq_some_iff.mp hn
    obtain ⟨rfl, rfl⟩ := Prod.mk.inj (Option.some_inj.mp hcarried)
    exact World.savedSession_fromCopy hrecord
  | storeSave record closings =>
    simp only [proceed]
    split
    · refine .of_copied rfl rfl rfl (fun id t ht => ?_) (by rintro _ _ ⟨⟩)
      cases ht with
      | session u hu => exact FromCopy.session hu
      | touchId id record hrecord => exact FromCopy.touchId hrecord
      | saved saved hsaved =>
        obtain rfl := Option.some_inj.mp hsaved
        exact ⟨_, Nat.le_refl _, Or.inr rfl⟩
    · exact .of_same (by rintro _ _ ⟨⟩)
  | storeDelete =>
    simp only [proceed]
    split
    · exact .of_same (by rintro _ _ ⟨⟩)
    · exact .of_subset rfl rfl rfl (fun _ h => h) (fun _ _ h => h) (by rintro _ ⟨⟩)
        (by rintro _ _ ⟨⟩)
  | setLockSettings settings =>
    cases hset : w.session.setSettings settings with
    | none =>
      simp only [proceed, hset]
      exact .of_same (by rintro _ _ ⟨⟩)
    | some session =>
      have hunlocked := Session.setSettings_unlocked hset
      simp only [proceed, hset, World.applySettings]
      split
      · exact .of_eq rfl rfl rfl hunlocked rfl rfl (by split <;> rfl)
      · exact .of_eq rfl rfl rfl hunlocked rfl rfl (by split <;> rfl)
  | enableTouchId =>
    simp only [proceed]
    split
    · exact .of_same (by rintro _ _ ⟨⟩)
    · rename_i u hu
      split
      · refine .of_copied rfl rfl rfl (fun id t ht => ?_) (by rintro _ _ ⟨⟩)
        cases ht with
        | session u' hu' => exact FromCopy.session hu'
        | touchId id record hrecord =>
          simp only [World.setTouchId] at hrecord
          split at hrecord
          · rename_i heq
            obtain rfl := Option.some_inj.mp hrecord
            exact ⟨u.passwordVerifiedAt, fromSecs_unixSecs_le _, Or.inl (heq ▸ .session u hu)⟩
          · exact FromCopy.touchId hrecord
        | saved record hrecord => exact FromCopy.saved hrecord
      · exact .of_same (by rintro _ _ ⟨⟩)
  | disableTouchId =>
    simp only [proceed]
    split
    · exact .of_same (by rintro _ _ ⟨⟩)
    · split
      · exact .of_removed _ rfl
      · exact .of_same (by rintro _ _ ⟨⟩)
  | fingerprintsChanged accountId => exact .of_removed accountId rfl
  | pass duration =>
    refine ⟨Nat.le_add_right .., fun _ => Or.inl rfl, fun id t ht => Or.inl ?_, by rintro _ _ ⟨⟩,
      fun _ hu => Or.inl hu⟩
    have hcopied : w.Copied id t := ht.of_subset (fun _ h => h) (fun _ _ h => h) fun _ h => h
    exact hcopied.fromCopy
  | restart =>
    exact .of_subset rfl rfl rfl (by rintro _ ⟨⟩) (fun _ _ h => h) (fun _ h => h)
      (by rintro _ _ ⟨⟩)
  | loginFinish keyset =>
    simp only [proceed]
    split
    · exact .of_same (by rintro _ _ ⟨⟩)
    · split
      · exact .of_eq rfl rfl rfl rfl rfl rfl rfl
      · exact .of_eq rfl rfl rfl rfl rfl rfl rfl
  | derived email keyset =>
    simp only [proceed]
    split
    · exact .of_eq rfl rfl rfl rfl rfl rfl rfl
    · exact .of_same (by rintro _ _ ⟨⟩)
  | unlockWithPassword keyset =>
    exact .of_eq rfl rfl rfl rfl rfl rfl (bind_map_carried fun _ => rfl)
  | unlockWithTouchId => exact .of_eq rfl rfl rfl rfl rfl rfl (bind_map_carried fun _ => rfl)
  | stayUnlockedRestore =>
    exact .of_eq rfl rfl rfl rfl rfl rfl (by simp only [proceed]; split <;> rfl)
  | lockForget turn leaves =>
    exact .of_eq rfl rfl rfl rfl rfl rfl (by simp only [proceed]; split <;> rfl)
  | saveSettings settings =>
    simp only [proceed]
    split
    · exact .of_eq rfl rfl rfl rfl rfl rfl rfl
    · exact .of_same (by rintro _ _ ⟨⟩)
  | setEnrolled accountId =>
    simp only [proceed]
    split
    · exact .of_eq rfl rfl rfl rfl rfl rfl rfl
    · exact .of_same (by rintro _ _ ⟨⟩)
  | _ => exact .of_eq rfl rfl rfl rfl rfl rfl rfl

end Steps

section Runs

variable {w w' : World} {task : Task} {next : Option Task}

/-- The password of an account was proven at a moment or later. -/
def World.ProvenSince (w : World) (id : String) (t : ℕ) : Prop :=
  ∃ p, w.provedAt id = some p ∧ t ≤ p

/-- Copies are no later than the proof, and quick unlocks are within the deadline. -/
structure World.WithinDeadline (w : World) : Prop where
  copied : ∀ id t, w.Copied id t → w.ProvenSince id t
  past : ∀ id p, w.provedAt id = some p → p ≤ w.now
  quick : ∀ u ∈ w.quickUnlocks, ∃ p, u.provedAt = some p ∧ p ≤ u.unlockedAt ∧
    u.unlockedAt < p + maxAge

def Task.Carries (w : World) (task : Task) : Prop :=
  ∀ id t, task.call.carried = some (id, t) → w.ProvenSince id t

theorem Task.Acts.copies (h : task.Acts w w' next) :
    task.call.Copies w w' (next.map Task.call) := by
  cases h with
  | gone => exact .of_same nofun
  | proceeds ok _ _ hproceed =>
    have hcopies : task.call.Copies w (task.call.proceed w ok).1 (task.call.proceed w ok).2 :=
      task.call.proceed_copies
    rw [hproceed] at hcopies
    simpa only [Option.map_map, Function.comp_def, Option.map_id'] using hcopies

/-- The moment of a proof is never moved back. -/
theorem Call.Copies.proven {call : Call} {n : Option Call} (h : call.Copies w w' n)
    (hpast : ∀ id p, w.provedAt id = some p → p ≤ w.now) {id : String} {t : ℕ}
    (hproven : w.ProvenSince id t) : w'.ProvenSince id t := by
  obtain ⟨p, hp, hle⟩ := hproven
  rcases h.proved id with hsame | hnow
  · exact ⟨p, hsame.trans hp, hle⟩
  · exact ⟨w.now, hnow, Nat.le_trans hle (hpast id p hp)⟩

theorem FromCopy.proven {call : Call} {id : String} {t : ℕ} (h : FromCopy w call id t)
    (hw : w.WithinDeadline) (hcarries : ∀ id t, call.carried = some (id, t) → w.ProvenSince id t) :
    w.ProvenSince id t := by
  obtain ⟨t', hle, hcopied | hcarried⟩ := h
  · obtain ⟨p, hp, hle'⟩ := hw.copied id t' hcopied
    exact ⟨p, hp, Nat.le_trans hle hle'⟩
  · obtain ⟨p, hp, hle'⟩ := hcarries id t' hcarried
    exact ⟨p, hp, Nat.le_trans hle hle'⟩

theorem Call.Copies.withinDeadline {call : Call} {n : Option Call} (h : call.Copies w w' n)
    (hw : w.WithinDeadline) (hcarries : ∀ id t, call.carried = some (id, t) → w.ProvenSince id t) :
    w'.WithinDeadline where
  copied id t ht := by
    rcases h.copied id t ht with hfrom | ⟨hle, hproved⟩
    · exact h.proven hw.past (hfrom.proven hw hcarries)
    · exact ⟨w.now, hproved, hle⟩
  past id p hp := by
    rcases h.proved id with hsame | hnow
    · exact Nat.le_trans (hw.past id p (hsame.symm.trans hp)) h.now_le
    · obtain rfl : w.now = p := Option.some_inj.mp (hnow.symm.trans hp)
      exact h.now_le
  quick u hu := by
    rcases h.quick u hu with hold | ⟨t, hcarried, hfresh, hat, hprovedAt⟩
    · exact hw.quick u hold
    · obtain ⟨p, hp, hle⟩ := hcarries _ t hcarried
      obtain ⟨-, hlt⟩ := isFresh_iff.mp hfresh
      refine ⟨p, hprovedAt.trans hp, hat ▸ hw.past _ p hp, ?_⟩
      rw [hat]
      omega

theorem deadline_outline :
    Outline desktopProgram World.WithinDeadline Task.Carries fun _ _ => True := by
  refine .of_free (fun _ hstart id t hcarries => ?_)
    (fun hw hcarries hact => hact.copies.withinDeadline hw hcarries)
    (fun hw hcarries hact id t hnext => ?_) fun hw _ hother hact id t hcarries => ?_
  · obtain ⟨-, hcan⟩ := hstart
    rw [Call.carried_of_canStart hcan] at hcarries
    cases hcarries
  · exact hact.copies.proven hw.past ((hact.copies.carried id t hnext).proven hw hcarries)
  · exact hact.copies.proven hw.past (hother id t hcarries)

/-- In every run, a quick unlock happens less than fourteen days after the last proof of the
password of its account, and no copy of the moment is later than that proof. -/
theorem quick_unlocks_within_deadline {w : World} {tasks : List Task}
    (hrun : Run desktopProgram ⟨.initial, []⟩ ⟨w, tasks⟩) :
    (∀ u ∈ w.quickUnlocks, ∃ p, u.provedAt = some p ∧ p ≤ u.unlockedAt ∧
      u.unlockedAt < p + maxAge) ∧ ∀ id t, w.Copied id t → w.ProvenSince id t := by
  have hinitial : World.initial.WithinDeadline :=
    ⟨fun id t h => (by cases h <;> rename_i h <;> cases h), nofun, nofun⟩
  obtain ⟨hw, -, -⟩ := deadline_outline.run_idle hinitial hrun
  exact ⟨hw.quick, hw.copied⟩

/-- Ada signs in and turns Touch ID on. Thirteen days later the app is restarted, and she unlocks
with Touch ID. -/
theorem quick_unlocks_within_deadline_touchId : ∃ w, Run desktopProgram ⟨.initial, []⟩ ⟨w, []⟩ ∧
    (∃ u ∈ w.quickUnlocks, u.unlockedAt = fromSecs (13 * 24 * 60 * 60)) ∧
    (∀ u ∈ w.quickUnlocks, ∃ p, u.provedAt = some p ∧ p ≤ u.unlockedAt ∧
      u.unlockedAt < p + maxAge) ∧ ∀ id t, w.Copied id t → w.ProvenSince id t := by
  have hinitial : Run (desktopProgram.when fun _ _ => True) ⟨.initial, []⟩ ⟨.initial, []⟩ := .refl
  have hproved := call_proceeds true (call_starts hinitial (.loginProve "ada@example.com") rfl) rfl
    trivial rfl fun _ => rfl
  have hrequested := call_proceeds true (call_starts hproved (.request (.loginFinish 7)) rfl) rfl
    trivial rfl nofun
  have hfinished := call_proceeds true hrequested rfl trivial rfl fun _ => rfl
  have hkeyring := call_proceeds true hfinished rfl trivial rfl nofun
  have hsession := call_proceeds true hkeyring rfl trivial rfl nofun
  have hauth := call_proceeds true hsession rfl trivial rfl nofun
  have henabled := call_proceeds true (call_starts hauth .enableTouchId rfl) rfl trivial rfl nofun
  have henrolled := call_proceeds true henabled rfl trivial rfl nofun
  have hpassed := call_proceeds true
    (call_starts henrolled (.pass (fromSecs (13 * 24 * 60 * 60))) rfl) rfl trivial rfl nofun
  have hrestarted := call_proceeds true (call_starts hpassed .restart rfl) rfl trivial rfl nofun
  have hasked := call_proceeds true (call_starts hrestarted (.request .unlockWithTouchId) rfl) rfl
    trivial rfl nofun
  have hprompt := call_proceeds true hasked rfl trivial rfl nofun
  have hloaded := call_proceeds true hprompt rfl trivial rfl nofun
  have hopened := call_proceeds true hloaded (Call.proceed_touchIdOpen (by decide) true) trivial rfl
    nofun
  have hquickKeyring := call_proceeds true hopened rfl trivial rfl nofun
  have hquickAuth := Run.of_when (call_proceeds true hquickKeyring rfl trivial rfl fun _ => rfl)
  obtain ⟨hquick, hcopied⟩ := quick_unlocks_within_deadline hquickAuth
  exact ⟨_, hquickAuth, ⟨_, List.mem_cons_self, by decide⟩, hquick, hcopied⟩

end Runs

end Zvault.Desktop
