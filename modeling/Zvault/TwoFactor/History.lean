import Zvault.TwoFactor.Service

/-!
# The record as one sequence of writes

Whatever calls run at the same time, the writes that go through are a sequence
of changes, each made to the record the one before it left. The compare-and-set
on the version is what makes it so.
-/

namespace Zvault

open Concurrent TwoFactorService

variable {crypto : TwoFactorCrypto}

/-- The proof a call carries. -/
def TwoFactorCall.proof : TwoFactorCall → Option TwoFactorProof
  | .beginSetup _ _ => none
  | .confirmSetup code _ => some (.code code)
  | .verify proof => some proof
  | .regenerateRecoveryCodes proof _ => some proof
  | .disable proof => some proof

/-- The record once a proof is accepted: a call that is not `verify` changes more. -/
def settle (crypto : TwoFactorCrypto) (call : TwoFactorCall) (ok : TwoFactorRecord) :
    TwoFactorRecord :=
  match call with
  | .regenerateRecoveryCodes _ codes =>
    { ok with recoveryCodeHashes := codes.map crypto.hashRecoveryCode }
  | .disable _ => { ok with
      totpSecret := none, enabledAt := none, lastUsedStep := none, pendingSecret := none
      pendingExpiresAt := none, recoveryCodeHashes := [] }
  | _ => ok

/-- The secret a call's code is compared with, and the last step it may not repeat. -/
def TwoFactorCall.totp (call : TwoFactorCall) (r : TwoFactorRecord) :
    Option Bytes × Option ℤ :=
  match call with
  | .confirmSetup _ _ => (r.pendingSecret, none)
  | _ => (r.totpSecret, r.lastUsedStep)

/-- The step a proof is accepted for. -/
def TwoFactorCall.step (crypto : TwoFactorCrypto) (call : TwoFactorCall) (r : TwoFactorRecord)
    (now : Timestamp) : Option (Bytes × ℤ) :=
  match call.proof, call.totp r with
  | some (.code code), (some secret, last) =>
    ((verifyTotp crypto secret code now last).join).map fun step => (secret, step)
  | _, _ => none

/-- The recovery code a proof is accepted for. -/
def TwoFactorCall.recoveryCode (crypto : TwoFactorCrypto) (call : TwoFactorCall)
    (r : TwoFactorRecord) : Option String :=
  match call.proof with
  | some (.recoveryCode code) =>
    (findRecoveryCode crypto code r.recoveryCodeHashes).map fun _ => code
  | _ => none

/-- A proof matches the record: a code is valid for a step that is not used up, a recovery code
is one of those left. -/
def TwoFactorCall.right (crypto : TwoFactorCrypto) (call : TwoFactorCall) (r : TwoFactorRecord)
    (now : Timestamp) : Bool :=
  (call.step crypto r now).isSome || (call.recoveryCode crypto r).isSome

/-- No lock is in force. -/
def Unlocked (r : TwoFactorRecord) (now : Timestamp) : Prop := ∀ until_ ∈ r.lockedUntil, until_ ≤ now

/-- What a change can be. -/
inductive Change (crypto : TwoFactorCrypto) (r : TwoFactorRecord) (now : Timestamp) :
    TwoFactorCall → TwoFactorRecord → Prop
  | setup (secret : Bytes) (expiresAt : Timestamp) (hoff : r.totpSecret = none) :
      Change crypto r now (.beginSetup secret expiresAt)
        { r with pendingSecret := some secret, pendingExpiresAt := some expiresAt }
  | reject {call : TwoFactorCall} (hproof : call.proof.isSome) (hunlocked : Unlocked r now)
      (hwrong : call.right crypto r now = false) : Change crypto r now call (recordFailure r now)
  | confirm (code : String) (codes : List String) (secret : Bytes) (step : ℤ)
      (hunlocked : Unlocked r now) (hoff : r.totpSecret = none)
      (hpending : r.pendingSecret = some secret)
      (hstep : (TwoFactorCall.confirmSetup code codes).step crypto r now = some (secret, step)) :
      Change crypto r now (.confirmSetup code codes) { r with
        totpSecret := some secret, enabledAt := some now, lastUsedStep := some step
        pendingSecret := none, pendingExpiresAt := none
        recoveryCodeHashes := codes.map crypto.hashRecoveryCode
        failedAttempts := 0, lockedUntil := none }
  | spendStep {call : TwoFactorCall} (secret : Bytes) (step : ℤ) (hunlocked : Unlocked r now)
      (hon : r.totpSecret = some secret)
      (hstep : call.step crypto r now = some (secret, step))
      (hlast : ∀ last ∈ r.lastUsedStep, last < step) :
      Change crypto r now call (settle crypto call
        { r with failedAttempts := 0, lockedUntil := none, lastUsedStep := some step })
  | spendCode {call : TwoFactorCall} (code : String) (index : ℕ) (hunlocked : Unlocked r now)
      (hon : r.totpSecret.isSome) (hcode : call.recoveryCode crypto r = some code)
      (hindex : findRecoveryCode crypto code r.recoveryCodeHashes = some index) :
      Change crypto r now call (settle crypto call { r with
        failedAttempts := 0, lockedUntil := none
        recoveryCodeHashes := r.recoveryCodeHashes.eraseIdx index })

section Changes

variable {r next : TwoFactorRecord} {now : Timestamp}

theorem unlocked_of_assertNotLocked (h : assertNotLocked r now = .ok ()) : Unlocked r now := by
  intro until_ huntil
  have hsome : r.lockedUntil = some until_ := huntil
  rw [assertNotLocked, hsome] at h
  by_contra hlt
  simp only [Nat.not_le.mp hlt, if_true] at h
  cases h

/-- A proof leaves a failure, a spent step or a spent recovery code. -/
theorem consumeProof_cases {proof : TwoFactorProof} (h : consumeProof crypto r proof now = .ok next) :
    Unlocked r now ∧ ∃ secret, r.totpSecret = some secret ∧
      ((next = recordFailure r now ∧ match proof with
          | .code code => verifyTotp crypto secret code now r.lastUsedStep = some none
          | .recoveryCode code => findRecoveryCode crypto code r.recoveryCodeHashes = none) ∨
        (∃ code step, proof = .code code ∧
          verifyTotp crypto secret code now r.lastUsedStep = some (some step) ∧
          next = { r with failedAttempts := 0, lockedUntil := none, lastUsedStep := some step }) ∨
        ∃ code index, proof = .recoveryCode code ∧
          findRecoveryCode crypto code r.recoveryCodeHashes = some index ∧
          next = { r with failedAttempts := 0, lockedUntil := none
                          recoveryCodeHashes := r.recoveryCodeHashes.eraseIdx index }) := by
  rw [consumeProof] at h
  cases hsecret : r.totpSecret with
  | none =>
    rw [hsecret] at h
    cases h
  | some secret =>
    simp only [hsecret] at h
    cases hlock : assertNotLocked r now with
    | error e =>
      rw [hlock] at h
      cases h
    | ok _ =>
      refine ⟨unlocked_of_assertNotLocked hlock, secret, rfl, ?_⟩
      rw [hlock] at h
      cases proof with
      | code code =>
        cases htotp : verifyTotp crypto secret code now r.lastUsedStep with
        | none =>
          simp only [totpStep, htotp] at h
          cases h
        | some matched =>
          simp only [totpStep, htotp] at h
          cases matched with
          | none =>
            cases h
            exact Or.inl ⟨rfl, htotp⟩
          | some step =>
            cases h
            exact Or.inr (Or.inl ⟨code, step, rfl, htotp, rfl⟩)
      | recoveryCode code =>
        cases hfind : findRecoveryCode crypto code r.recoveryCodeHashes with
        | none =>
          simp only [hfind] at h
          cases h
          exact Or.inl ⟨rfl, hfind⟩
        | some index =>
          simp only [hfind] at h
          cases h
          exact Or.inr (Or.inr ⟨code, index, rfl, hfind, rfl⟩)

/-- The calls that hand their proof to `consumeProof`. -/
theorem consumed_cases {call : TwoFactorCall} {proof : TwoFactorProof} {spent : TwoFactorRecord}
    (hproof : call.proof = some proof) (htotp : call.totp r = (r.totpSecret, r.lastUsedStep))
    (hspent : consumeProof crypto r proof now = .ok spent)
    (hnext : next = if 0 < spent.failedAttempts then spent else settle crypto call spent) :
    Change crypto r now call next := by
  obtain ⟨hunlocked, secret, hsecret, hcases⟩ := consumeProof_cases hspent
  rcases hcases with ⟨rfl, hwrong⟩ | ⟨code, step, rfl, hstep, rfl⟩ | ⟨code, index, rfl, hindex, rfl⟩
  · have hfailed : 0 < (recordFailure r now).failedAttempts := Nat.succ_pos _
    rw [if_pos hfailed] at hnext
    subst hnext
    refine .reject (by rw [hproof]; rfl) hunlocked ?_
    cases proof with
    | code code =>
      have hnone : verifyTotp crypto secret code now r.lastUsedStep = some none := hwrong
      simp [TwoFactorCall.right, TwoFactorCall.step, TwoFactorCall.recoveryCode, hproof, htotp,
        hsecret, hnone]
    | recoveryCode code =>
      have hnone : findRecoveryCode crypto code r.recoveryCodeHashes = none := hwrong
      simp [TwoFactorCall.right, TwoFactorCall.step, TwoFactorCall.recoveryCode, hproof, hnone]
  · have hsettled : next = settle crypto call
        { r with failedAttempts := 0, lockedUntil := none, lastUsedStep := some step } := hnext
    subst hsettled
    refine .spendStep secret step hunlocked hsecret ?_ (lt_of_verifyTotp hstep)
    simp [TwoFactorCall.step, hproof, htotp, hsecret, hstep]
  · have hsettled : next = settle crypto call { r with
        failedAttempts := 0, lockedUntil := none
        recoveryCodeHashes := r.recoveryCodeHashes.eraseIdx index } := hnext
    subst hsettled
    refine .spendCode code index hunlocked (by rw [hsecret]; rfl) ?_ hindex
    simp [TwoFactorCall.recoveryCode, hproof, hindex]

/-- What `confirmSetup` does once the setup is found. -/
theorem confirm_cases {code : String} {codes : List String} {secret : Bytes}
    {expiresAt : Timestamp} (hoff : r.totpSecret = none) (hpending : r.pendingSecret = some secret)
    (hexpires : r.pendingExpiresAt = some expiresAt)
    (h : confirmSetup crypto r code codes now = .ok next) :
    Change crypto r now (.confirmSetup code codes) next := by
  have hon : r.totpSecret.isSome = false := by rw [hoff]; rfl
  simp only [confirmSetup, hon, hpending, hexpires] at h
  by_cases hexpired : expiresAt ≤ now
  · simp only [hexpired, if_true] at h
    cases h
  simp only [hexpired, if_false] at h
  cases hlock : assertNotLocked r now with
  | error e =>
    rw [hlock] at h
    cases h
  | ok _ =>
    have hunlocked := unlocked_of_assertNotLocked hlock
    rw [hlock] at h
    cases htotp : verifyTotp crypto secret code now none with
    | none =>
      simp only [totpStep, htotp] at h
      cases h
    | some matched =>
      simp only [totpStep, htotp] at h
      cases matched with
      | none =>
        cases h
        refine .reject rfl hunlocked ?_
        simp [TwoFactorCall.right, TwoFactorCall.step, TwoFactorCall.recoveryCode,
          TwoFactorCall.proof, TwoFactorCall.totp, hpending, htotp]
      | some step =>
        cases h
        refine .confirm code codes secret step hunlocked hoff hpending ?_
        simp [TwoFactorCall.step, TwoFactorCall.proof, TwoFactorCall.totp, hpending, htotp]

/-- Every change is one of these. -/
theorem change_cases {call : TwoFactorCall} (h : change crypto call r now = .ok next) :
    Change crypto r now call next := by
  cases call with
  | beginSetup secret expiresAt =>
    cases hon : r.totpSecret.isSome with
    | false =>
      simp only [change, beginSetup, hon] at h
      cases h
      exact .setup secret expiresAt
        (Option.isNone_iff_eq_none.mp (Option.isSome_eq_false_iff.mp hon))
    | true =>
      simp only [change, beginSetup, hon] at h
      cases h
  | confirmSetup code codes =>
    cases hon : r.totpSecret.isSome with
    | true =>
      simp only [change, confirmSetup, hon] at h
      cases h
    | false =>
      cases hpending : r.pendingSecret with
      | none =>
        simp only [change, confirmSetup, hon, hpending] at h
        cases h
      | some secret =>
        cases hexpires : r.pendingExpiresAt with
        | none =>
          simp only [change, confirmSetup, hon, hpending, hexpires] at h
          cases h
        | some expiresAt =>
          have hoff := Option.isNone_iff_eq_none.mp (Option.isSome_eq_false_iff.mp hon)
          exact confirm_cases hoff hpending hexpires h
  | verify proof =>
    refine consumed_cases rfl rfl h ?_
    simp [settle]
  | regenerateRecoveryCodes proof codes =>
    simp only [change, regenerateRecoveryCodes] at h
    cases hspent : consumeProof crypto r proof now with
    | error e =>
      rw [hspent] at h
      cases h
    | ok spent =>
      rw [hspent] at h
      refine consumed_cases rfl rfl hspent ?_
      by_cases hfailed : 0 < spent.failedAttempts
      · simp only [bind, Except.bind, hfailed, if_true] at h ⊢
        exact (Except.ok.inj h).symm
      · simp only [bind, Except.bind, hfailed, if_false] at h ⊢
        exact (Except.ok.inj h).symm
  | disable proof =>
    simp only [change, disable] at h
    cases hspent : consumeProof crypto r proof now with
    | error e =>
      rw [hspent] at h
      cases h
    | ok spent =>
      rw [hspent] at h
      refine consumed_cases rfl rfl hspent ?_
      by_cases hfailed : 0 < spent.failedAttempts
      · simp only [bind, Except.bind, hfailed, if_true] at h ⊢
        exact (Except.ok.inj h).symm
      · simp only [bind, Except.bind, hfailed, if_false] at h ⊢
        exact (Except.ok.inj h).symm

end Changes

/-- The writes, the last one first, and the record they leave. -/
inductive History (crypto : TwoFactorCrypto) : List TwoFactorWrite → TwoFactorRecord → Prop
  | start : History crypto [] emptyRecord
  | write {writes : List TwoFactorWrite} {r next : TwoFactorRecord} (call : TwoFactorCall)
      (now : Timestamp) (h : History crypto writes r) (hchange : change crypto call r now = .ok next) :
      History crypto (⟨call, r, next, now⟩ :: writes) { next with version := r.version + 1 }

/-- The record a write stored. -/
def TwoFactorWrite.stored (w : TwoFactorWrite) : TwoFactorRecord :=
  { w.next with version := w.current.version + 1 }

/-- What `find` reads, or the record that stands for none. -/
def TwoFactorDb.record (db : TwoFactorDb) : TwoFactorRecord := db.row.getD emptyRecord

/-- The writes form a history, and the row is what the last of them stored. -/
structure Serialized (crypto : TwoFactorCrypto) (db : TwoFactorDb) : Prop where
  history : History crypto db.writes db.record
  row : db.row = db.writes.head?.map TwoFactorWrite.stored

/-- A record was read: it is the stored one unless a later version replaced it. -/
def Seen (db : TwoFactorDb) (current : TwoFactorRecord) : Prop :=
  current.version ≤ db.record.version ∧ (current.version = db.record.version → current = db.record)

/-- What a waiting call knows. -/
def MutateState.Waits (crypto : TwoFactorCrypto) (call : TwoFactorCall) (db : TwoFactorDb) :
    MutateState → Prop
  | .finding => True
  | .found current => Seen db current
  | .updating current next now => Seen db current ∧ change crypto call current now = .ok next

section Serialized

variable {db db' : TwoFactorDb} {row row' : Option TwoFactorRecord} {next : TwoFactorRecord}
  {expectedVersion : ℕ}

/-- A write goes through only at the version it expects. -/
theorem updateTwoFactor_eq_some (h : updateTwoFactor row next expectedVersion = some row') :
    (row.getD emptyRecord).version = expectedVersion ∧
      row' = some { next with version := expectedVersion + 1 } := by
  cases row with
  | none =>
    simp only [updateTwoFactor] at h
    split at h
    · rename_i hzero
      exact ⟨hzero.symm, (Option.some_inj.mp h).symm⟩
    · cases h
  | some stored =>
    simp only [updateTwoFactor] at h
    split at h
    · rename_i hversion
      exact ⟨hversion.2, (Option.some_inj.mp h).symm⟩
    · cases h

/-- A later version replaces what was seen. -/
theorem Seen.mono {current : TwoFactorRecord} (h : Seen db current)
    (hnew : db'.record = db.record ∨ db.record.version < db'.record.version) : Seen db' current := by
  rcases hnew with heq | hlt
  · rwa [Seen, heq]
  · exact ⟨by have := h.1; omega, fun hversion => by have := h.1; omega⟩

/-- What a step does to the database: nothing, or a change of the stored record. -/
theorem twoFactor_cases {task : TwoFactorTask} {clock : Timestamp} {after : Option TwoFactorTask}
    (hwaits : task.state.Waits crypto task.call db)
    (h : task.proceed crypto db clock = (db', after)) :
    (db' = db ∧ ∀ t ∈ after, t.state.Waits crypto t.call db) ∨
      ∃ next now, change crypto task.call db.record now = .ok next ∧
        db' = ⟨some { next with version := db.record.version + 1 },
          ⟨task.call, db.record, next, now⟩ :: db.writes⟩ ∧ after = none := by
  obtain ⟨call, attempt, state⟩ := task
  cases state with
  | finding =>
    obtain ⟨rfl, rfl⟩ := Prod.mk.inj h
    refine Or.inl ⟨rfl, fun t ht => ?_⟩
    obtain rfl := Option.some_inj.mp ht
    exact ⟨le_rfl, fun _ => rfl⟩
  | found current =>
    simp only [TwoFactorTask.proceed] at h
    cases hchange : change crypto call current clock with
    | error e =>
      rw [hchange] at h
      obtain ⟨rfl, rfl⟩ := Prod.mk.inj h
      exact Or.inl ⟨rfl, by simp⟩
    | ok next =>
      rw [hchange] at h
      obtain ⟨rfl, rfl⟩ := Prod.mk.inj h
      refine Or.inl ⟨rfl, fun t ht => ?_⟩
      obtain rfl := Option.some_inj.mp ht
      exact ⟨hwaits, hchange⟩
  | updating current next now =>
    obtain ⟨hseen, hchange⟩ := hwaits
    simp only [TwoFactorTask.proceed] at h
    cases hupdate : updateTwoFactor db.row next current.version with
    | some row =>
      rw [hupdate] at h
      obtain ⟨rfl, rfl⟩ := Prod.mk.inj h
      obtain ⟨hversion, rfl⟩ := updateTwoFactor_eq_some hupdate
      have hcurrent : current = db.record := hseen.2 hversion.symm
      subst hcurrent
      exact Or.inr ⟨next, now, hchange, rfl, rfl⟩
    | none =>
      rw [hupdate] at h
      obtain ⟨rfl, rfl⟩ := Prod.mk.inj h
      refine Or.inl ⟨rfl, fun t ht => ?_⟩
      split at ht
      · obtain rfl := Option.some_inj.mp ht
        trivial
      · cases ht

/-- The writes that go through form a history, whatever calls run. -/
theorem twoFactor_outline (crypto : TwoFactorCrypto) :
    Outline (twoFactorProgram crypto) (Serialized crypto)
      (fun db task => task.state.Waits crypto task.call db) fun _ _ => True := by
  refine .of_free (fun {_ _} _ hstart => ?_) (fun {_ _ _ _} hinv hwaits hact => ?_)
    (fun {_ _ _ _} hinv hwaits hact => ?_) (fun {db task db' after other} hinv hwaits hother hact => ?_)
  · rw [hstart.2]
    trivial
  · obtain ⟨clock, hproceed⟩ := hact
    rcases twoFactor_cases hwaits hproceed with ⟨rfl, -⟩ | ⟨next, now, hchange, rfl, -⟩
    · exact hinv
    · exact ⟨hinv.history.write _ now hchange, rfl⟩
  · obtain ⟨clock, hproceed⟩ := hact
    rcases twoFactor_cases hwaits hproceed with ⟨rfl, hafter⟩ | ⟨next, now, hchange, rfl, hnone⟩
    · exact hafter _ rfl
    · cases hnone
  · obtain ⟨clock, hproceed⟩ := hact
    have hnew : db'.record = db.record ∨ db.record.version < db'.record.version := by
      rcases twoFactor_cases hwaits hproceed with ⟨rfl, -⟩ | ⟨next, now, hchange, rfl, -⟩
      · exact Or.inl rfl
      · exact Or.inr (Nat.lt_succ_self _)
    obtain ⟨call, attempt, state⟩ := other
    cases state with
    | finding => trivial
    | found current => exact Seen.mono hother hnew
    | updating current next now => exact ⟨hother.1.mono hnew, hother.2⟩

end Serialized

end Zvault
