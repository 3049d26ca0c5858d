import Zvault.TwoFactor.Limits

/-!
# What the second factor accepts

Steps and recovery codes are counted against what was drawn: a secret that was
drawn once never accepts a step twice, and a recovery code is accepted at most
as often as it was handed out.
-/

namespace Zvault

open Concurrent TwoFactorService

variable {crypto : TwoFactorCrypto}

/-- A call that answers without an error is accepted. -/
def TwoFactorWrite.accepted (w : TwoFactorWrite) : Bool := w.result.toBool

/-- The steps accepted for a secret, the last one first. -/
def acceptedSteps (crypto : TwoFactorCrypto) (writes : List TwoFactorWrite) (secret : Bytes) :
    List ℤ :=
  writes.filterMap fun w =>
    if w.accepted then
      (w.call.step crypto w.current w.now).bind fun step =>
        if step.1 = secret then some step.2 else none
    else none

/-- The secrets drawn by setups. -/
def drawnSecrets (writes : List TwoFactorWrite) : List Bytes :=
  writes.filterMap fun w =>
    match w.call with
    | .beginSetup secret _ => some secret
    | _ => none

/-- The recovery code a write accepted. -/
def TwoFactorWrite.acceptedCode (crypto : TwoFactorCrypto) (w : TwoFactorWrite) : Option String :=
  if w.accepted then w.call.recoveryCode crypto w.current else none

/-- The recovery codes that were accepted. -/
def acceptedCodes (crypto : TwoFactorCrypto) (writes : List TwoFactorWrite) : List String :=
  writes.filterMap (TwoFactorWrite.acceptedCode crypto)

/-- The codes a call hands out. -/
def TwoFactorCall.codes : TwoFactorCall → List String
  | .confirmSetup _ codes => codes
  | .regenerateRecoveryCodes _ codes => codes
  | _ => []

/-- The recovery codes handed out. -/
def issuedCodes (writes : List TwoFactorWrite) : List String :=
  writes.flatMap fun w => if w.accepted then w.call.codes else []

theorem result_eq_ok {w : TwoFactorWrite} (h : w.accepted = true) : w.result = .ok () := by
  rw [TwoFactorWrite.accepted] at h
  cases hresult : w.result with
  | error e =>
    rw [hresult] at h
    cases h
  | ok _ => rfl

theorem accepted_of_result {w : TwoFactorWrite} (h : w.result = .ok ()) : w.accepted = true := by
  rw [TwoFactorWrite.accepted, h]
  rfl

section Steps

variable {writes : List TwoFactorWrite} {r : TwoFactorRecord} {secret : Bytes}

/-- What the record knows about the steps accepted for a secret that was drawn once. -/
structure StepsSpent (crypto : TwoFactorCrypto) (secret : Bytes) (writes : List TwoFactorWrite)
    (r : TwoFactorRecord) : Prop where
  sorted : (acceptedSteps crypto writes secret).Pairwise (· > ·)
  active : r.totpSecret = some secret →
    ∃ last, r.lastUsedStep = some last ∧ ∀ step ∈ acceptedSteps crypto writes secret, step ≤ last
  pending : r.pendingSecret = some secret → acceptedSteps crypto writes secret = []
  undrawn : secret ∉ drawnSecrets writes → acceptedSteps crypto writes secret = [] ∧
    r.totpSecret ≠ some secret ∧ r.pendingSecret ≠ some secret
  off : r.totpSecret.isSome → r.pendingSecret = none

variable {w : TwoFactorWrite} {call : TwoFactorCall} {next : TwoFactorRecord} {now : Timestamp}

/-- A write accepts a step. -/
theorem acceptedSteps_cons {step : ℤ} (haccepted : w.result = .ok ())
    (hstep : w.call.step crypto w.current w.now = some (secret, step)) :
    acceptedSteps crypto (w :: writes) secret = step :: acceptedSteps crypto writes secret := by
  have hw := accepted_of_result haccepted
  refine List.filterMap_cons_some (b := step) ?_
  simp [hw, hstep]

/-- A write accepts no step for this secret. -/
theorem acceptedSteps_cons_of_ne (h : w.result = .ok () →
    ∀ step, w.call.step crypto w.current w.now ≠ some (secret, step)) :
    acceptedSteps crypto (w :: writes) secret = acceptedSteps crypto writes secret := by
  rw [acceptedSteps, List.filterMap_cons_none]
  · rfl
  split
  · rename_i haccepted
    have hok := result_eq_ok haccepted
    cases hstep : w.call.step crypto w.current w.now with
    | none => rfl
    | some step =>
      refine if_neg fun heq => h hok step.2 ?_
      rw [hstep, ← heq]
  · rfl

theorem drawnSecrets_cons (hproof : w.call.proof.isSome) :
    drawnSecrets (w :: writes) = drawnSecrets writes := by
  rw [drawnSecrets, List.filterMap_cons_none]
  · rfl
  · cases hcall : w.call with
    | beginSetup => rw [hcall] at hproof; cases hproof
    | confirmSetup => rfl
    | verify => rfl
    | regenerateRecoveryCodes => rfl
    | disable => rfl

theorem settle_secrets (crypto : TwoFactorCrypto) (call : TwoFactorCall) (ok : TwoFactorRecord) :
    ((settle crypto call ok).totpSecret = ok.totpSecret ∧
      (settle crypto call ok).lastUsedStep = ok.lastUsedStep ∧
      (settle crypto call ok).pendingSecret = ok.pendingSecret) ∨
    ((settle crypto call ok).totpSecret = none ∧ (settle crypto call ok).pendingSecret = none) := by
  cases call with
  | disable => exact Or.inr ⟨rfl, rfl⟩
  | _ => exact Or.inl ⟨rfl, rfl, rfl⟩

/-- A recovery code is not a step. -/
theorem step_eq_none_of_recoveryCode {code : String} (h : call.recoveryCode crypto r = some code) :
    call.step crypto r now = none := by
  rw [TwoFactorCall.recoveryCode] at h
  rw [TwoFactorCall.step]
  cases hproof : call.proof with
  | none => rfl
  | some proof =>
    cases proof with
    | code code => rw [hproof] at h; cases h
    | recoveryCode code => rfl

/-- A write that accepts no step for the secret and keeps the record's secrets or drops them. -/
theorem StepsSpent.of_kept {writes' : List TwoFactorWrite} (h : StepsSpent crypto secret writes r)
    (hsteps : acceptedSteps crypto writes' secret = acceptedSteps crypto writes secret)
    (hdrawn : drawnSecrets writes' = drawnSecrets writes)
    (hrecord : (next.totpSecret = r.totpSecret ∧ next.lastUsedStep = r.lastUsedStep ∧
      next.pendingSecret = r.pendingSecret) ∨
      (next.totpSecret = none ∧ next.pendingSecret = none)) :
    StepsSpent crypto secret writes' next := by
  obtain ⟨hsorted, hactive, hpending, hundrawn, hoff⟩ := h
  rcases hrecord with ⟨htotp, hlast, hpend⟩ | ⟨htotp, hpend⟩
  · constructor <;> simpa only [hsteps, hdrawn, htotp, hlast, hpend]
  · constructor <;> simp only [hsteps, hdrawn, htotp, hpend, reduceCtorEq, false_implies, ne_eq,
      not_false_eq_true, and_true, Option.isSome_none, Bool.false_eq_true]
    · exact hsorted
    · exact fun hnot => (hundrawn hnot).1

/-- A write for another secret, after which the secret is not in the record. -/
theorem StepsSpent.of_other {writes' : List TwoFactorWrite} (h : StepsSpent crypto secret writes r)
    (hsteps : acceptedSteps crypto writes' secret = acceptedSteps crypto writes secret)
    (hdrawn : drawnSecrets writes' = drawnSecrets writes)
    (htotp : next.totpSecret ≠ some secret) (hpending : next.pendingSecret = none) :
    StepsSpent crypto secret writes' next where
  sorted := by rw [hsteps]; exact h.sorted
  active heq := absurd heq htotp
  pending heq := by rw [hpending] at heq; cases heq
  undrawn hnot := by
    rw [hdrawn] at hnot
    rw [hsteps, hpending]
    exact ⟨(h.undrawn hnot).1, htotp, nofun⟩
  off _ := hpending

/-- A write that accepts a later step for the secret. -/
theorem StepsSpent.of_accepted {writes' : List TwoFactorWrite} {step : ℤ}
    (h : StepsSpent crypto secret writes r)
    (hsteps : acceptedSteps crypto writes' secret = step :: acceptedSteps crypto writes secret)
    (hlater : ∀ earlier ∈ acceptedSteps crypto writes secret, earlier < step)
    (hdrawn : secret ∈ drawnSecrets writes')
    (hlast : next.totpSecret = some secret → next.lastUsedStep = some step)
    (hpending : next.pendingSecret = none) : StepsSpent crypto secret writes' next where
  sorted := by
    rw [hsteps]
    exact List.pairwise_cons.mpr ⟨hlater, h.sorted⟩
  active heq := by
    refine ⟨step, hlast heq, fun earlier hearlier => ?_⟩
    rw [hsteps] at hearlier
    rcases List.mem_cons.mp hearlier with rfl | hearlier
    · exact le_rfl
    · exact (hlater earlier hearlier).le
  pending heq := by rw [hpending] at heq; cases heq
  undrawn hnot := absurd hdrawn hnot
  off _ := hpending

/-- What a change does to the steps of a secret. -/
theorem StepsSpent.change
    (h : (drawnSecrets writes).count secret ≤ 1 → StepsSpent crypto secret writes r)
    (hchange : Change crypto r now call next)
    (hanswer : call.proof.isSome → (outcome r next = .ok () ↔ call.right crypto r now = true))
    (hcount : (drawnSecrets (⟨call, r, next, now⟩ :: writes)).count secret ≤ 1) :
    StepsSpent crypto secret (⟨call, r, next, now⟩ :: writes)
      { next with version := r.version + 1 } := by
  have hdrawn : call.proof.isSome →
      drawnSecrets (⟨call, r, next, now⟩ :: writes) = drawnSecrets writes :=
    fun hproof => drawnSecrets_cons (w := ⟨call, r, next, now⟩) hproof
  have hspent : call.proof.isSome → StepsSpent crypto secret writes r := fun hproof =>
    h (by rwa [hdrawn hproof] at hcount)
  have hmem : r.totpSecret = some secret ∨ r.pendingSecret = some secret → call.proof.isSome →
      secret ∈ drawnSecrets writes := by
    intro hheld hproof
    by_contra hnot
    obtain ⟨-, htotp, hpending⟩ := (hspent hproof).undrawn hnot
    rcases hheld with heq | heq
    · exact htotp heq
    · exact hpending heq
  cases hchange with
  | setup drawn expiresAt hoff =>
    have hdrawn : drawnSecrets (⟨.beginSetup drawn expiresAt, r, { r with
        pendingSecret := some drawn, pendingExpiresAt := some expiresAt }, now⟩ :: writes) =
        drawn :: drawnSecrets writes := rfl
    have hsteps : acceptedSteps crypto (⟨.beginSetup drawn expiresAt, r, { r with
        pendingSecret := some drawn, pendingExpiresAt := some expiresAt }, now⟩ :: writes) secret =
        acceptedSteps crypto writes secret := acceptedSteps_cons_of_ne fun _ _ => nofun
    rw [hdrawn] at hcount
    have hspent := h (((List.sublist_cons_self _ _).count_le secret).trans hcount)
    refine ⟨by rw [hsteps]; exact hspent.sorted, fun htotp => ?_, fun hpending => ?_,
      fun hundrawn => ?_, fun hon => ?_⟩
    · have hon : r.totpSecret = some secret := htotp
      rw [hoff] at hon
      cases hon
    · obtain rfl := Option.some_inj.mp hpending
      rw [List.count_cons_self] at hcount
      rw [hsteps]
      exact (hspent.undrawn (List.count_eq_zero.mp (by omega))).1
    · rw [hdrawn, List.mem_cons, not_or] at hundrawn
      rw [hsteps]
      obtain ⟨hnone, htotp, -⟩ := hspent.undrawn hundrawn.2
      exact ⟨hnone, htotp, fun heq => hundrawn.1 (Option.some_inj.mp heq).symm⟩
    · have hon' : r.totpSecret.isSome := hon
      rw [hoff] at hon'
      cases hon'
  | reject hproof hunlocked hwrong =>
    refine (hspent hproof).of_kept (acceptedSteps_cons_of_ne fun hok => ?_) (hdrawn hproof)
      (Or.inl ⟨rfl, rfl, rfl⟩)
    have hright := (hanswer hproof).mp hok
    rw [hwrong] at hright
    cases hright
  | confirm code codes active step hunlocked hoff hpending hstep =>
    have hproof : (TwoFactorCall.confirmSetup code codes).proof.isSome := rfl
    have hok := (hanswer hproof).mpr (right_of_step hstep)
    by_cases hactive : active = secret
    · subst hactive
      have hnone := (hspent hproof).pending hpending
      refine (hspent hproof).of_accepted (acceptedSteps_cons hok hstep) (by simp [hnone]) ?_
        (fun _ => rfl) rfl
      rw [hdrawn hproof]
      exact hmem (Or.inr hpending) hproof
    · refine (hspent hproof).of_other (acceptedSteps_cons_of_ne fun _ other => ?_) (hdrawn hproof)
        (fun heq => hactive (Option.some_inj.mp heq)) rfl
      rw [hstep]
      exact fun heq => hactive (Prod.mk.inj (Option.some_inj.mp heq)).1
  | spendStep active step hunlocked hon hstep hlast =>
    have hproof : call.proof.isSome := proof_of_right (right_of_step hstep)
    have hok := (hanswer hproof).mpr (right_of_step hstep)
    have hpending : r.pendingSecret = none := (hspent hproof).off (by rw [hon]; rfl)
    have hsettled := settle_secrets crypto call
      { r with failedAttempts := 0, lockedUntil := none, lastUsedStep := some step }
    by_cases hactive : active = secret
    · subst hactive
      obtain ⟨last, hused, hle⟩ := (hspent hproof).active hon
      refine (hspent hproof).of_accepted (acceptedSteps_cons hok hstep)
        (fun earlier hearlier => (hle earlier hearlier).trans_lt (hlast last hused)) ?_
        (fun htotp => ?_) ?_
      · rw [hdrawn hproof]
        exact hmem (Or.inl hon) hproof
      · rcases hsettled with ⟨-, heq, -⟩ | ⟨heq, -⟩
        · exact heq
        · exact absurd (heq.symm.trans htotp) nofun
      · rcases hsettled with ⟨-, -, heq⟩ | ⟨-, heq⟩
        · exact heq.trans hpending
        · exact heq
    · refine (hspent hproof).of_other (acceptedSteps_cons_of_ne fun _ other => ?_) (hdrawn hproof)
        (fun htotp => ?_) ?_
      · rw [hstep]
        exact fun heq => hactive (Prod.mk.inj (Option.some_inj.mp heq)).1
      · rcases hsettled with ⟨heq, -, -⟩ | ⟨heq, -⟩
        · exact hactive (Option.some_inj.mp (hon.symm.trans (heq.symm.trans htotp)))
        · exact absurd (heq.symm.trans htotp) nofun
      · rcases hsettled with ⟨-, -, heq⟩ | ⟨-, heq⟩
        · exact heq.trans hpending
        · exact heq
  | spendCode code index hunlocked hon hcode hindex =>
    have hright : call.right crypto r now = true := right_of_recoveryCode hcode
    have hproof : call.proof.isSome := proof_of_right hright
    refine (hspent hproof).of_kept (acceptedSteps_cons_of_ne fun _ step => ?_) (hdrawn hproof)
      (settle_secrets crypto call _)
    rw [step_eq_none_of_recoveryCode hcode]
    exact nofun

/-- A secret that was drawn once accepts later and later steps. -/
theorem History.stepsSpent (h : History crypto writes r)
    (hcount : (drawnSecrets writes).count secret ≤ 1) : StepsSpent crypto secret writes r := by
  induction h with
  | start => exact ⟨.nil, nofun, nofun, fun _ => ⟨rfl, nofun, nofun⟩, nofun⟩
  | write call now h hchange ih =>
    exact StepsSpent.change ih (change_cases hchange)
      ((h.write call now hchange).streak.2 _ List.mem_cons_self) hcount

end Steps

section Codes

variable {writes : List TwoFactorWrite} {r next : TwoFactorRecord} {call : TwoFactorCall}
  {now : Timestamp}

/-- How often codes with this hash were accepted. -/
def timesAccepted (crypto : TwoFactorCrypto) (writes : List TwoFactorWrite) (hash : ℕ) : ℕ :=
  ((acceptedCodes crypto writes).map crypto.hashRecoveryCode).count hash

/-- How often codes with this hash were handed out. -/
def timesIssued (crypto : TwoFactorCrypto) (writes : List TwoFactorWrite) (hash : ℕ) : ℕ :=
  ((issuedCodes writes).map crypto.hashRecoveryCode).count hash

theorem timesAccepted_cons_of_none {w : TwoFactorWrite} (hash : ℕ)
    (h : w.result = .ok () → w.call.recoveryCode crypto w.current = none) :
    timesAccepted crypto (w :: writes) hash = timesAccepted crypto writes hash := by
  have hnone : w.acceptedCode crypto = none := by
    rw [TwoFactorWrite.acceptedCode]
    split
    · rename_i haccepted
      exact h (result_eq_ok haccepted)
    · rfl
  rw [timesAccepted, acceptedCodes, List.filterMap_cons_none hnone]
  rfl

theorem timesAccepted_cons {w : TwoFactorWrite} {code : String} (hash : ℕ)
    (haccepted : w.accepted = true) (hcode : w.call.recoveryCode crypto w.current = some code) :
    timesAccepted crypto (w :: writes) hash =
      timesAccepted crypto writes hash + if crypto.hashRecoveryCode code = hash then 1 else 0 := by
  have hsome : w.acceptedCode crypto = some code := by
    rw [TwoFactorWrite.acceptedCode, if_pos haccepted, hcode]
  rw [timesAccepted, acceptedCodes, List.filterMap_cons_some hsome, List.map_cons, List.count_cons]
  simp only [beq_iff_eq]
  rfl

theorem timesIssued_cons (w : TwoFactorWrite) (hash : ℕ) (haccepted : w.accepted = true) :
    timesIssued crypto (w :: writes) hash =
      (w.call.codes.map crypto.hashRecoveryCode).count hash + timesIssued crypto writes hash := by
  rw [timesIssued, issuedCodes, List.flatMap_cons, if_pos haccepted, List.map_append,
    List.count_append]
  rfl

theorem timesIssued_le (crypto : TwoFactorCrypto) (writes : List TwoFactorWrite)
    (w : TwoFactorWrite) (hash : ℕ) :
    timesIssued crypto writes hash ≤ timesIssued crypto (w :: writes) hash := by
  simp only [timesIssued, issuedCodes, List.flatMap_cons, List.map_append, List.count_append]
  exact Nat.le_add_left _ _

/-- Settling a call adds no hashes but those of the codes it hands out. -/
theorem count_settle_le (crypto : TwoFactorCrypto) (call : TwoFactorCall) (ok : TwoFactorRecord)
    (hash : ℕ) :
    (settle crypto call ok).recoveryCodeHashes.count hash ≤
      ok.recoveryCodeHashes.count hash + (call.codes.map crypto.hashRecoveryCode).count hash := by
  cases call with
  | beginSetup => exact Nat.le_add_right _ _
  | confirmSetup => exact Nat.le_add_right _ _
  | verify => exact Nat.le_add_right _ _
  | regenerateRecoveryCodes => exact Nat.le_add_left _ _
  | disable => exact Nat.zero_le _

/-- A step is not a recovery code. -/
theorem recoveryCode_eq_none_of_step {step : Bytes × ℤ} (h : call.step crypto r now = some step) :
    call.recoveryCode crypto r = none := by
  cases hcode : call.recoveryCode crypto r with
  | none => rfl
  | some code =>
    rw [step_eq_none_of_recoveryCode hcode] at h
    cases h

/-- Spending a code takes its hash out of the list. -/
theorem count_eraseIdx_add {code : String} {hashes : List ℕ} {index : ℕ} (hash : ℕ)
    (hindex : findRecoveryCode crypto code hashes = some index) :
    (hashes.eraseIdx index).count hash + (if crypto.hashRecoveryCode code = hash then 1 else 0) =
      hashes.count hash := by
  obtain ⟨hlt, heq, -⟩ := List.findIdx?_eq_some_iff_getElem.mp hindex
  have hhash : hashes[index] = crypto.hashRecoveryCode code := by simpa using heq
  have hperm := (List.getElem_cons_eraseIdx_perm hlt).count_eq hash
  rw [List.count_cons, hhash] at hperm
  simpa using hperm

/-- What was accepted and what is left was handed out. -/
def CodesSpent (crypto : TwoFactorCrypto) (writes : List TwoFactorWrite) (r : TwoFactorRecord) :
    Prop :=
  ∀ hash, timesAccepted crypto writes hash + r.recoveryCodeHashes.count hash ≤
    timesIssued crypto writes hash

/-- What a change does to the recovery codes. -/
theorem CodesSpent.change (h : CodesSpent crypto writes r) (hchange : Change crypto r now call next)
    (hanswer : call.proof.isSome → (outcome r next = .ok () ↔ call.right crypto r now = true)) :
    CodesSpent crypto (⟨call, r, next, now⟩ :: writes) { next with version := r.version + 1 } := by
  intro hash
  have hspent := h hash
  have hgrow := timesIssued_le crypto writes ⟨call, r, next, now⟩ hash
  have haccepted : call.right crypto r now = true →
      TwoFactorWrite.accepted ⟨call, r, next, now⟩ = true := fun hright =>
    accepted_of_result ((hanswer (proof_of_right hright)).mpr hright)
  cases hchange with
  | setup secret expiresAt hoff =>
    rw [timesAccepted_cons_of_none hash fun _ => rfl]
    exact hspent.trans hgrow
  | reject hproof hunlocked hwrong =>
    rw [timesAccepted_cons_of_none hash fun hok => ?_]
    · exact hspent.trans hgrow
    · have hright := (hanswer hproof).mp hok
      rw [hwrong] at hright
      cases hright
  | confirm code codes active step hunlocked hoff hpending hstep =>
    rw [timesAccepted_cons_of_none hash fun _ => rfl,
      timesIssued_cons _ hash (haccepted (right_of_step hstep))]
    change _ + (codes.map crypto.hashRecoveryCode).count hash ≤
      (codes.map crypto.hashRecoveryCode).count hash + _
    omega
  | spendStep active step hunlocked hon hstep hlast =>
    have hsettle := count_settle_le crypto call
      { r with failedAttempts := 0, lockedUntil := none, lastUsedStep := some step } hash
    rw [timesAccepted_cons_of_none hash fun _ => recoveryCode_eq_none_of_step hstep,
      timesIssued_cons _ hash (haccepted (right_of_step hstep))]
    change _ ≤ r.recoveryCodeHashes.count hash + _ at hsettle
    dsimp only
    omega
  | spendCode code index hunlocked hon hcode hindex =>
    have hsettle := count_settle_le crypto call { r with
      failedAttempts := 0, lockedUntil := none
      recoveryCodeHashes := r.recoveryCodeHashes.eraseIdx index } hash
    have herase := count_eraseIdx_add hash hindex
    have haccepted := haccepted (right_of_recoveryCode hcode)
    rw [timesAccepted_cons hash haccepted hcode, timesIssued_cons _ hash haccepted]
    change _ ≤ (r.recoveryCodeHashes.eraseIdx index).count hash + _ at hsettle
    dsimp only
    omega

/-- A recovery code is accepted at most as often as it was handed out. -/
theorem History.codesSpent (h : History crypto writes r) : CodesSpent crypto writes r := by
  induction h with
  | start => exact fun _ => le_rfl
  | write call now h hchange ih =>
    exact ih.change (change_cases hchange)
      ((h.write call now hchange).streak.2 _ List.mem_cons_self)

end Codes

section Interleaved

variable {db : TwoFactorDb} {tasks : List TwoFactorTask}

/-- A call that runs alone goes through. -/
theorem run_alone {call : TwoFactorCall} {next : TwoFactorRecord} {clock : Timestamp}
    {row : Option TwoFactorRecord} (hchange : change crypto call db.record clock = .ok next)
    (hupdate : updateTwoFactor db.row next db.record.version = some row) :
    Run (twoFactorProgram crypto) ⟨db, []⟩
      ⟨⟨row, ⟨call, db.record, next, clock⟩ :: db.writes⟩, []⟩ := by
  have hstart : Step (twoFactorProgram crypto) ⟨db, []⟩ ⟨db, [⟨call, 0, .finding⟩]⟩ :=
    .start ⟨rfl, rfl⟩
  have hfind : Step (twoFactorProgram crypto) ⟨db, [⟨call, 0, .finding⟩]⟩
      ⟨db, [⟨call, 0, .found db.record⟩]⟩ := Step.next ⟨clock, rfl⟩
  have hmake : Step (twoFactorProgram crypto) ⟨db, [⟨call, 0, .found db.record⟩]⟩
      ⟨db, [⟨call, 0, .updating db.record next clock⟩]⟩ := by
    refine Step.next ⟨clock, ?_⟩
    simp only [TwoFactorTask.proceed, hchange]
  have hwrite : Step (twoFactorProgram crypto) ⟨db, [⟨call, 0, .updating db.record next clock⟩]⟩
      ⟨⟨row, ⟨call, db.record, next, clock⟩ :: db.writes⟩, []⟩ := by
    refine Step.last ⟨clock, ?_⟩
    simp only [TwoFactorTask.proceed, hupdate]
  exact (((Relation.ReflTransGen.single hstart).tail hfind).tail hmake).tail hwrite

/-- A write that fails finds the record of a later write. -/
theorem Serialized.update_none {current next : TwoFactorRecord} (h : Serialized crypto db)
    (hseen : Seen db current) (hfails : updateTwoFactor db.row next current.version = none) :
    ∃ w ∈ db.writes.head?, db.row = some w.stored ∧ current.version < w.stored.version := by
  have hrow := h.row
  cases hhead : db.writes.head? with
  | none =>
    rw [hhead] at hrow
    have hzero : current.version ≤ 0 := by
      have hle := hseen.1
      rwa [TwoFactorDb.record, hrow] at hle
    rw [hrow, Nat.le_zero.mp hzero] at hfails
    cases hfails
  | some w =>
    rw [hhead] at hrow
    refine ⟨w, rfl, hrow, ?_⟩
    have hle : current.version ≤ w.stored.version := by
      have hle := hseen.1
      rwa [TwoFactorDb.record, hrow] at hle
    have hpos : 0 < w.stored.version := Nat.succ_pos _
    have hne : current.version ≠ w.stored.version := by
      intro heq
      rw [hrow] at hfails
      simp only [Option.map_some, updateTwoFactor] at hfails
      rw [if_pos ⟨by omega, heq.symm⟩] at hfails
      cases hfails
    omega

/-- Whatever calls run at the same time: a secret accepts later and later steps; a recovery code is
accepted at most as often as it was handed out; of five wrong proofs in a row one sets the
lock; the next proof is judged when the lock has ended; a call answers without an error when its
proof is right; and a write that fails leaves the record as a later write stored it. -/
theorem twoFactor_interleaved
    (hrun : Run (twoFactorProgram crypto) ⟨TwoFactorDb.initial, []⟩ ⟨db, tasks⟩) :
    (∀ secret, (drawnSecrets db.writes).count secret ≤ 1 →
      (acceptedSteps crypto db.writes secret).Pairwise (· > ·)) ∧
    (∀ hash, timesAccepted crypto db.writes hash ≤ timesIssued crypto db.writes hash) ∧
    (∀ seg, seg <:+: judged db.writes → seg.length = maxFailedAttempts →
      (∀ w ∈ seg, w.accepted = false) → ∃ w ∈ seg, w.Locks) ∧
    (judged db.writes).IsChain (fun w older =>
      ∀ until_, older.result = .error (.locked until_) → until_ ≤ w.now) ∧
    (∀ w ∈ db.writes, w.call.proof.isSome →
      (w.accepted = true ↔ w.call.right crypto w.current w.now = true)) ∧
    ∀ task ∈ tasks, ∀ current next now, task.state = .updating current next now →
      updateTwoFactor db.row next current.version = none → ∀ clock,
        (task.proceed crypto db clock).1 = db ∧
          ∃ w ∈ db.writes.head?, db.row = some w.stored ∧ current.version < w.stored.version := by
  have hinitial : Serialized crypto TwoFactorDb.initial := ⟨.start, rfl⟩
  obtain ⟨hserialized, hwaits, -⟩ := (twoFactor_outline crypto).run_idle hinitial hrun
  have hhistory := hserialized.history
  obtain ⟨hstreak, hanswers⟩ := hhistory.streak
  refine ⟨fun secret hcount => (hhistory.stepsSpent hcount).sorted,
    fun hash => (Nat.le_add_right _ _).trans (hhistory.codesSpent hash),
    fun seg hseg hlength hwrong => hstreak.locks_of_infix hseg hlength fun w hw hok => ?_,
    hstreak.isChain, fun w hw hproof => ?_, fun task htask current next now hstate hfails clock => ?_⟩
  · have hnot := hwrong w hw
    rw [accepted_of_result hok] at hnot
    cases hnot
  · exact ⟨fun haccepted => (hanswers w hw hproof).mp (result_eq_ok haccepted),
      fun hright => accepted_of_result ((hanswers w hw hproof).mpr hright)⟩
  · have hseen := hwaits task htask
    simp only [hstate, MutateState.Waits] at hseen
    refine ⟨?_, hserialized.update_none hseen.1 hfails⟩
    simp only [TwoFactorTask.proceed, hstate, hfails]

end Interleaved

/-- A crypto whose codes are all zero. -/
def zeroCrypto : TwoFactorCrypto where
  hmac _ _ := Vector.replicate 20 0
  hashRecoveryCode code := code.length

/-- The account while a setup waits for its first code. -/
def begunSetup : TwoFactorRecord :=
  { emptyRecord with pendingSecret := some [1], pendingExpiresAt := some 600000, version := 1 }

/-- The account once the setup is confirmed. -/
def confirmedSetup : TwoFactorRecord :=
  { emptyRecord with
    totpSecret := some [1], enabledAt := some 60000, lastUsedStep := some 1
    recoveryCodeHashes := [11], version := 2 }

/-- A setup that is confirmed and then checked once. -/
def confirmedWrites : List TwoFactorWrite :=
  [⟨.verify (.code "000000"), confirmedSetup, { confirmedSetup with lastUsedStep := some 2 }, 60000⟩,
    ⟨.confirmSetup "000000" ["ABCDE-FGHJK"], begunSetup, { confirmedSetup with version := 1 }, 60000⟩,
    ⟨.beginSetup [1] 600000, emptyRecord, { begunSetup with version := 0 }, 0⟩]

/-- The setup accepts step 1, the check step 2, although the code is the same. -/
theorem twoFactor_interleaved_confirmed :
    acceptedSteps zeroCrypto confirmedWrites [1] = [2, 1] ∧
      (acceptedSteps zeroCrypto confirmedWrites [1]).Pairwise (· > ·) := by
  have hbegin : Run (twoFactorProgram zeroCrypto) ⟨.initial, []⟩
      ⟨⟨some begunSetup, confirmedWrites.drop 2⟩, []⟩ := run_alone rfl rfl
  have hconfirm : Run (twoFactorProgram zeroCrypto) ⟨⟨some begunSetup, confirmedWrites.drop 2⟩, []⟩
      ⟨⟨some confirmedSetup, confirmedWrites.drop 1⟩, []⟩ := run_alone rfl rfl
  have hverify : Run (twoFactorProgram zeroCrypto)
      ⟨⟨some confirmedSetup, confirmedWrites.drop 1⟩, []⟩
      ⟨⟨some { confirmedSetup with lastUsedStep := some 2, version := 3 }, confirmedWrites⟩, []⟩ :=
    run_alone rfl rfl
  exact ⟨by decide, (twoFactor_interleaved ((hbegin.trans hconfirm).trans hverify)).1 [1] (by decide)⟩

end Zvault
