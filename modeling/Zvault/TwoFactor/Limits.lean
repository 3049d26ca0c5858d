import Zvault.TwoFactor.History

/-!
# The lock of the second factor

The record counts the wrong proofs in a row. `Streak` says what the count and
the lock mean for the proofs judged so far: the fifth wrong one sets the lock,
nothing is judged before it ends, and the count starts again after it.
-/

namespace Zvault

open Concurrent TwoFactorService

variable {crypto : TwoFactorCrypto}

/-- How a call whose write went through answers. -/
def TwoFactorWrite.result (w : TwoFactorWrite) : Except TwoFactorError Unit :=
  outcome w.current w.next

/-- The proofs that were judged, the last one first. -/
def judged (writes : List TwoFactorWrite) : List TwoFactorWrite :=
  writes.filter fun w => w.call.proof.isSome

/-- A proof that set the lock. -/
def TwoFactorWrite.Locks (w : TwoFactorWrite) : Prop :=
  w.result = .error (.locked (w.now + lockout))

/-- How many wrong proofs in a row the record counts, and the lock it carries. A proof after the
lock has ended starts the count again. -/
inductive Streak : List TwoFactorWrite → ℕ → Option Timestamp → Prop
  | start : Streak [] 0 none
  | accept {ws : List TwoFactorWrite} {k : ℕ} {lock : Option Timestamp} {w : TwoFactorWrite}
      (h : Streak ws k lock) (hunlocked : ∀ until_ ∈ lock, until_ ≤ w.now)
      (haccepted : w.result = .ok ()) : Streak (w :: ws) 0 none
  | wrong {ws : List TwoFactorWrite} {k : ℕ} {w : TwoFactorWrite} (h : Streak ws k none)
      (hk : k + 1 < maxFailedAttempts) (hwrong : w.result = .error .invalidCode) :
      Streak (w :: ws) (k + 1) none
  | lock {ws : List TwoFactorWrite} {w : TwoFactorWrite} {k : ℕ} (h : Streak ws k none)
      (hk : k + 1 = maxFailedAttempts) (hlocks : w.Locks) :
      Streak (w :: ws) (k + 1) (some (w.now + lockout))
  | relock {ws : List TwoFactorWrite} {k : ℕ} {until_ : Timestamp} {w : TwoFactorWrite}
      (h : Streak ws k (some until_)) (hunlocked : until_ ≤ w.now)
      (hwrong : w.result = .error .invalidCode) : Streak (w :: ws) 1 none

section Streaks

variable {ws : List TwoFactorWrite} {k : ℕ} {lock : Option Timestamp}

/-- The lock is set by the newest proof, the fifth one. -/
theorem Streak.locked (h : Streak ws k lock) : ∀ until_ ∈ lock, k = maxFailedAttempts ∧
    ∃ w rest, ws = w :: rest ∧ w.Locks ∧ until_ = w.now + lockout := by
  cases h with
  | start => simp
  | accept => simp
  | wrong => simp
  | relock => simp
  | @lock ws w k h hk hlocks =>
    intro until_ huntil
    obtain rfl := Option.some_inj.mp huntil
    exact ⟨hk, w, ws, rfl, hlocks, rfl⟩

/-- Without a lock there are proofs left. -/
theorem Streak.lt_of_unlocked (h : Streak ws k none) : k < maxFailedAttempts := by
  cases h with
  | start => decide
  | accept => decide
  | wrong _ hk => exact hk
  | relock => decide

/-- Among wrong proofs, one more than the record counts, one set the lock. -/
theorem Streak.exists_locks (h : Streak ws k lock) (hlock : lock = none) (hlength : k < ws.length)
    (hwrong : ∀ w ∈ ws.take (k + 1), w.result ≠ .ok ()) : ∃ w ∈ ws.take (k + 1), w.Locks := by
  induction h with
  | start => simp at hlength
  | accept _ _ haccepted => exact absurd haccepted (hwrong _ (by simp))
  | @wrong ws k w _ _ _ ih =>
    have hlength' : k < ws.length := by simpa using hlength
    obtain ⟨v, hv, hlocks⟩ := ih rfl hlength' fun v hv => hwrong v (by
      rw [List.take_succ_cons]
      exact List.mem_cons_of_mem _ hv)
    exact ⟨v, by rw [List.take_succ_cons]; exact List.mem_cons_of_mem _ hv, hlocks⟩
  | lock => cases hlock
  | relock h _ _ _ =>
    obtain ⟨-, v, rest, rfl, hlocks, -⟩ := h.locked _ rfl
    exact ⟨v, by simp, hlocks⟩

/-- Five wrong proofs in a row, with the newest one last judged, set the lock. -/
theorem Streak.locks_of_prefix (h : Streak ws k lock) {seg : List TwoFactorWrite}
    (hseg : seg <+: ws) (hlength : seg.length = maxFailedAttempts)
    (hwrong : ∀ w ∈ seg, w.result ≠ .ok ()) : ∃ w ∈ seg, w.Locks := by
  have hle := hseg.length_le
  cases hlock : lock with
  | some until_ =>
    obtain ⟨-, w, rest, rfl, hlocks, -⟩ := h.locked until_ hlock
    refine ⟨w, ?_, hlocks⟩
    obtain ⟨tail, htail⟩ := hseg
    cases seg with
    | nil => cases hlength
    | cons v seg =>
      obtain ⟨rfl, -⟩ := List.cons.inj htail
      exact List.mem_cons_self
  | none =>
    have hk : k < maxFailedAttempts := by
      rw [hlock] at h
      exact h.lt_of_unlocked
    have htake : ws.take (k + 1) <+: seg := by
      rw [List.prefix_iff_eq_take.mp hseg, hlength]
      exact List.take_prefix_take_left (by omega)
    obtain ⟨w, hw, hlocks⟩ := h.exists_locks hlock (by omega)
      fun w hw => hwrong w (htake.subset hw)
    exact ⟨w, htake.subset hw, hlocks⟩

/-- Before its newest proof a streak was one too, and its lock had ended. -/
theorem Streak.tail {w : TwoFactorWrite} (h : Streak (w :: ws) k lock) :
    ∃ k lock, Streak ws k lock ∧ ∀ until_ ∈ lock, until_ ≤ w.now := by
  cases h with
  | accept h hunlocked _ => exact ⟨_, _, h, hunlocked⟩
  | wrong h _ _ => exact ⟨_, _, h, by simp⟩
  | lock h _ _ => exact ⟨_, _, h, by simp⟩
  | relock h hunlocked _ => exact ⟨_, _, h, by simpa using hunlocked⟩

/-- Five wrong proofs in a row set the lock. -/
theorem Streak.locks_of_infix (h : Streak ws k lock) {seg : List TwoFactorWrite}
    (hseg : seg <:+: ws) (hlength : seg.length = maxFailedAttempts)
    (hwrong : ∀ w ∈ seg, w.result ≠ .ok ()) : ∃ w ∈ seg, w.Locks := by
  induction ws generalizing k lock with
  | nil =>
    rw [List.infix_nil.mp hseg] at hlength
    cases hlength
  | cons w ws ih =>
    rcases List.infix_cons_iff.mp hseg with hseg | hseg
    · exact h.locks_of_prefix hseg hlength hwrong
    · obtain ⟨k, lock, htail, -⟩ := h.tail
      exact ih htail hseg

/-- A newest proof that was answered with a lock set it. -/
theorem Streak.mem_lock {w : TwoFactorWrite} {until_ : Timestamp} (h : Streak (w :: ws) k lock)
    (hresult : w.result = .error (.locked until_)) : until_ ∈ lock := by
  cases h with
  | accept _ _ haccepted => rw [haccepted] at hresult; cases hresult
  | wrong _ _ hwrong => rw [hwrong] at hresult; cases hresult
  | relock _ _ hwrong => rw [hwrong] at hresult; cases hresult
  | lock _ _ hlocks =>
    rw [hlocks] at hresult
    cases hresult
    rfl

/-- No proof is judged while a lock is in force: the next one comes when it has ended. -/
theorem Streak.isChain (h : Streak ws k lock) : ws.IsChain fun w older =>
    ∀ until_, older.result = .error (.locked until_) → until_ ≤ w.now := by
  induction ws generalizing k lock with
  | nil => exact List.isChain_nil
  | cons w ws ih =>
    obtain ⟨k', lock', htail, hunlocked⟩ := h.tail
    cases ws with
    | nil => exact List.isChain_singleton _
    | cons older ws =>
      exact List.isChain_cons_cons.mpr
        ⟨fun until_ hresult => hunlocked until_ (htail.mem_lock hresult), ih htail⟩

end Streaks

section Record

variable {writes : List TwoFactorWrite} {r : TwoFactorRecord}

@[simp] theorem settle_failedAttempts (call : TwoFactorCall) (ok : TwoFactorRecord) :
    (settle crypto call ok).failedAttempts = ok.failedAttempts := by
  cases call <;> rfl

@[simp] theorem settle_lockedUntil (call : TwoFactorCall) (ok : TwoFactorRecord) :
    (settle crypto call ok).lockedUntil = ok.lockedUntil := by
  cases call <;> rfl

/-- A write without failed attempts is accepted. -/
theorem outcome_ok {current next : TwoFactorRecord} (h : next.failedAttempts = 0) :
    outcome current next = .ok () := by
  rw [outcome, if_neg (by omega)]
  rfl

/-- A failure is answered with an error and continues the streak of the record. -/
theorem Streak.reject {ws : List TwoFactorWrite} {now : Timestamp} (call : TwoFactorCall)
    (h : Streak ws r.failedAttempts r.lockedUntil) (hunlocked : Unlocked r now) :
    outcome r (recordFailure r now) ≠ .ok () ∧
      Streak (⟨call, r, recordFailure r now, now⟩ :: ws)
        (recordFailure r now).failedAttempts (recordFailure r now).lockedUntil := by
  cases hlock : r.lockedUntil with
  | none =>
    rw [hlock] at h
    have hlt := h.lt_of_unlocked
    have hattempts : (recordFailure r now).failedAttempts = r.failedAttempts + 1 := by
      rw [recordFailure, hlock]
      rfl
    by_cases hlast : r.failedAttempts + 1 = maxFailedAttempts
    · have huntil : (recordFailure r now).lockedUntil = some (now + lockout) := by
        rw [recordFailure, hlock]
        simp [hlast]
      have hlocks : outcome r (recordFailure r now) = .error (.locked (now + lockout)) := by
        rw [outcome, if_pos (by omega), huntil]
        rfl
      rw [hattempts, huntil]
      exact ⟨by rw [hlocks]; nofun, .lock h hlast hlocks⟩
    · have huntil : (recordFailure r now).lockedUntil = none := by
        rw [recordFailure, hlock]
        simp only [Option.any_none, Bool.false_eq_true, if_false, ite_eq_right_iff, reduceCtorEq]
        omega
      have hwrong : outcome r (recordFailure r now) = .error .invalidCode := by
        rw [outcome, if_pos (by omega), huntil]
        rfl
      rw [hattempts, huntil]
      exact ⟨by rw [hwrong]; nofun, .wrong h (by omega) hwrong⟩
  | some until_ =>
    rw [hlock] at h
    have hended : until_ ≤ now := hunlocked until_ hlock
    have hfive : r.failedAttempts = 5 := (h.locked until_ rfl).1
    have hexpired : (some until_).any (· ≤ now) = true := by simpa using hended
    have hattempts : (recordFailure r now).failedAttempts = 1 := by
      rw [recordFailure, hlock]
      simp only [hexpired, if_true]
    have huntil : (recordFailure r now).lockedUntil = none := by
      rw [recordFailure, hlock]
      simp only [hexpired, if_true]
      rfl
    have hwrong : outcome r (recordFailure r now) = .error .invalidCode := by
      rw [outcome, if_pos (by omega), huntil]
      rfl
    rw [hattempts, huntil]
    exact ⟨by rw [hwrong]; nofun, .relock h hended hwrong⟩

/-- A change that leaves no failed attempts ends the streak. -/
theorem Streak.settled {ws : List TwoFactorWrite} {call : TwoFactorCall} {now : Timestamp}
    (next : TwoFactorRecord) (h : Streak ws r.failedAttempts r.lockedUntil)
    (hunlocked : Unlocked r now) (hattempts : next.failedAttempts = 0)
    (hlock : next.lockedUntil = none) :
    outcome r next = .ok () ∧
      Streak (⟨call, r, next, now⟩ :: ws) next.failedAttempts next.lockedUntil := by
  have hok : outcome r next = .ok () := outcome_ok hattempts
  rw [hattempts, hlock]
  exact ⟨hok, .accept h hunlocked hok⟩

/-- A right step. -/
theorem right_of_step {call : TwoFactorCall} {now : Timestamp} {step : Bytes × ℤ}
    (h : call.step crypto r now = some step) : call.right crypto r now = true := by
  simp [TwoFactorCall.right, h]

theorem right_of_recoveryCode {call : TwoFactorCall} {now : Timestamp} {code : String}
    (h : call.recoveryCode crypto r = some code) : call.right crypto r now = true := by
  simp [TwoFactorCall.right, h]

/-- A call whose proof was right carries a proof. -/
theorem proof_of_right {call : TwoFactorCall} {now : Timestamp}
    (h : call.right crypto r now = true) : call.proof.isSome = true := by
  by_contra hnone
  have hproof : call.proof = none := by simpa using hnone
  simp [TwoFactorCall.right, TwoFactorCall.step, TwoFactorCall.recoveryCode, hproof] at h

/-- What a change does to the streak: it is answered as its proof deserves. -/
theorem Streak.change {ws : List TwoFactorWrite} {call : TwoFactorCall} {next : TwoFactorRecord}
    {now : Timestamp} (h : Streak (judged ws) r.failedAttempts r.lockedUntil)
    (hchange : Change crypto r now call next) :
    (call.proof.isSome →
      (outcome r next = .ok () ↔ call.right crypto r now = true)) ∧
      Streak (judged (⟨call, r, next, now⟩ :: ws)) next.failedAttempts next.lockedUntil := by
  have hjudged : call.proof.isSome = true →
      judged (⟨call, r, next, now⟩ :: ws) = ⟨call, r, next, now⟩ :: judged ws :=
    fun hproof => List.filter_cons_of_pos hproof
  cases hchange with
  | setup secret expiresAt hoff => exact ⟨nofun, h⟩
  | reject hproof hunlocked hwrong =>
    rw [hjudged hproof]
    have hreject := h.reject call hunlocked
    exact ⟨fun _ => ⟨fun hok => absurd hok hreject.1, fun hright => by simp_all⟩, hreject.2⟩
  | confirm code codes secret step hunlocked hoff hpending hstep =>
    have hright := right_of_step hstep
    rw [hjudged (proof_of_right hright)]
    refine And.imp (fun hok _ => ⟨fun _ => hright, fun _ => hok⟩) id (h.settled _ hunlocked ?_ ?_)
    · rfl
    · rfl
  | spendStep secret step hunlocked hon hstep hlast =>
    have hright := right_of_step hstep
    rw [hjudged (proof_of_right hright)]
    refine And.imp (fun hok _ => ⟨fun _ => hright, fun _ => hok⟩) id (h.settled _ hunlocked ?_ ?_)
    · exact settle_failedAttempts call _
    · exact settle_lockedUntil call _
  | spendCode code index hunlocked hon hcode hindex =>
    have hright : call.right crypto r now = true := right_of_recoveryCode hcode
    rw [hjudged (proof_of_right hright)]
    refine And.imp (fun hok _ => ⟨fun _ => hright, fun _ => hok⟩) id (h.settled _ hunlocked ?_ ?_)
    · exact settle_failedAttempts call _
    · exact settle_lockedUntil call _

/-- The record counts the wrong proofs since the last accepted one or the last lock, and every
proof is answered as it deserves. -/
theorem History.streak (h : History crypto writes r) :
    Streak (judged writes) r.failedAttempts r.lockedUntil ∧ ∀ w ∈ writes, w.call.proof.isSome →
      (w.result = .ok () ↔ w.call.right crypto w.current w.now = true) := by
  induction h with
  | start => exact ⟨.start, by simp⟩
  | write call now h hchange ih =>
    obtain ⟨hanswer, hstreak⟩ := ih.1.change (change_cases hchange)
    refine ⟨hstreak, fun w hw => ?_⟩
    rcases List.mem_cons.mp hw with rfl | hw
    · exact hanswer
    · exact ih.2 w hw

end Record

end Zvault
