import Mathlib.Data.UInt
import Zvault.Auth.Keyset
import Zvault.Bytes.Base64
import Zvault.Srp.Agreement

/-!
# The keyset is kept

However the sign-ins, password changes and recoveries of an account interleave, its row is
always of one piece, and whatever opens is the keyset that it was made with.
-/

namespace Zvault.Account

open Crypto
open Concurrent (Program Run Outline)

variable {C : Suite} {K : SymmetricKey} {w w' : World} {dev dev' : Device}

/-- The cipher reads what it wrote, and nothing under another key or other data; base64 is read
back. -/
structure Suite.Sound (C : Suite) : Prop where
  binds : C.P.Binds
  unbase64_base64 : ∀ bytes, C.P.unbase64 (C.P.base64 bytes) = some bytes

section Blobs

/-- A blob is the keyset, sealed with an unlock key. -/
def SealedBy (C : Suite) (K unlockKey : SymmetricKey) (blob : Blob) : Prop :=
  ∃ nonce s, sealKeyset C.P C.H unlockKey K C.accountId nonce = some s ∧
    blob = .new C.P keysetKid s

/-- A blob is the recovery copy of the keyset, sealed with a recovery code's keys. -/
def CopyOf (C : Suite) (K : SymmetricKey) (keys : RecoveryKeys) (blob : Blob) : Prop :=
  ∃ nonce s, sealRecoveryKeyset C.P C.H keys K C.accountId nonce = some s ∧
    blob = .new C.P recoveryKid s

variable (hC : C.Sound)
include hC

/-- **What opens is the keyset**, and only its unlock key opens it. -/
theorem openBlob_iff {unlockKey unlockKey' k : SymmetricKey} {blob : Blob}
    (h : SealedBy C K unlockKey blob) :
    openBlob C unlockKey' blob = some k ↔ unlockKey' = unlockKey ∧ k = K := by
  obtain ⟨nonce, s, hseal, rfl⟩ := h
  rw [openBlob, Blob.sealedKeyset_new hC.unbase64_base64, Option.bind_some, openKeyset,
    hC.binds.unwrapKey_iff hseal]
  simp

theorem openCopy_iff {keys keys' : RecoveryKeys} {k : SymmetricKey} {blob : Blob}
    (h : CopyOf C K keys blob) :
    ((blob.sealedKeyset C.P).bind fun s => openRecoveryKeyset C.P C.H keys' s C.accountId) =
      some k ↔ keys'.wrapKey = keys.wrapKey ∧ k = K := by
  obtain ⟨nonce, s, hseal, rfl⟩ := h
  rw [Blob.sealedKeyset_new hC.unbase64_base64, Option.bind_some, openRecoveryKeyset,
    hC.binds.unwrapKey_iff hseal]
  simp

end Blobs

section Pieces

/-- A KDF, a verifier and a blob are of one piece: they are made of the same credentials, and the
blob is the keyset. -/
def Whole (C : Suite) (K : SymmetricKey) (credentials : Credentials) (change : PasswordChange) :
    Prop :=
  ∃ keys, deriveKeys C credentials change.kdf = some keys ∧
    change.srpVerifier = SrpClient.verifier keys.srpX.vector ∧
    SealedBy C K keys.unlockKey change.encryptedKeyset

/-- A recovery copy and its verifier are of one piece. -/
def WholeCopy (C : Suite) (K : SymmetricKey) (code : RecoveryCode) (setup : RecoverySetup) :
    Prop :=
  CopyOf C K (code.keys C.D C.H C.accountId) setup.recoveryKeyset ∧
    setup.recoveryVerifier = (code.keys C.D C.H C.accountId).verifier C.D

/-- The lock screen's copy opens to the keyset with some credentials. -/
def LocalWhole (C : Suite) (K : SymmetricKey) (unlock : LocalUnlock) : Prop :=
  ∃ credentials keys, deriveKeys C credentials unlock.kdf = some keys ∧
    SealedBy C K keys.unlockKey unlock.encryptedKeyset

theorem sealAccount_whole {credentials : Credentials} {draw : Draw} {change : PasswordChange}
    (h : sealAccount C credentials K draw = some change) : Whole C K credentials change := by
  simp only [sealAccount, Option.bind_eq_bind, Option.bind_eq_some_iff, Option.pure_def,
    Option.some_inj] at h
  obtain ⟨keys, hkeys, s, hs, rfl⟩ := h
  exact ⟨keys, hkeys, rfl, _, s, hs, rfl⟩

theorem Whole.local {credentials : Credentials} {change : PasswordChange}
    (h : Whole C K credentials change) :
    LocalWhole C K ⟨change.kdf, change.encryptedKeyset⟩ := by
  obtain ⟨keys, hkeys, -, hsealed⟩ := h
  exact ⟨credentials, keys, hkeys, hsealed⟩

theorem sealRecovery_whole {code : RecoveryCode} {draw : Draw} {setup : RecoverySetup}
    (h : sealRecovery C code K draw = some setup) : WholeCopy C K code setup := by
  simp only [sealRecovery, Option.bind_eq_bind, Option.bind_eq_some_iff, Option.pure_def,
    Option.some_inj] at h
  obtain ⟨s, hs, rfl⟩ := h
  exact ⟨⟨_, s, hs, rfl⟩, rfl⟩

end Pieces

section Held

/-- The row is of one piece, for the credentials and the recovery code that it was last written
for. -/
structure RowWhole (C : Suite) (K : SymmetricKey) (w : World) : Prop where
  account : Whole C K w.credentials ⟨w.row.kdf, w.row.srpVerifier, w.row.encryptedKeyset⟩
  recovery : (w.row.recoveryKeyset = none ∧ w.recoveryCode = none) ∨
    ∃ code keyset verifier, w.recoveryCode = some code ∧ w.row.recoveryKeyset = some keyset ∧
      w.row.recoveryVerifier = some verifier ∧ WholeCopy C K code ⟨keyset, verifier⟩

/-- A pending login can unlock with what it derived. -/
def PendingLogin.Ok (C : Suite) (pending : PendingLogin) : Prop :=
  ∃ credentials keys, deriveKeys C credentials pending.kdf = some keys ∧
    pending.unlockKey = keys.unlockKey

/-- What a Mac holds is the keyset, and copies of it. -/
structure Device.Ok (C : Suite) (K : SymmetricKey) (dev : Device) : Prop where
  pending : ∀ p ∈ dev.pending, p.Ok C
  account : ∀ k ∈ dev.account, k = K
  localUnlock : ∀ l ∈ dev.localUnlock, LocalWhole C K l
  change : ∀ p ∈ dev.change, LocalWhole C K p.localUnlock
  reset : ∀ r ∈ dev.reset, r.keyset = K ∧ LocalWhole C K r.localUnlock
  saved : ∀ s ∈ dev.saved, s.1 = K ∧ ∀ l ∈ s.2, LocalWhole C K l

theorem Device.Ok.fresh : Device.Ok C K .fresh :=
  ⟨by rintro _ ⟨⟩, by rintro _ ⟨⟩, by rintro _ ⟨⟩, by rintro _ ⟨⟩, by rintro _ ⟨⟩, by rintro _ ⟨⟩⟩

structure Inv (C : Suite) (K : SymmetricKey) (w : World) : Prop where
  row : RowWhole C K w
  devices : ∀ d, (w.devices d).Ok C K

/-- What a flow carries. -/
def Task.Ok (C : Suite) (K : SymmetricKey) : Task → Prop
  | loginPending _ pending _ => pending.Ok C
  | openLogin _ _ blob => ∃ unlockKey, SealedBy C K unlockKey blob
  | unlockOpen _ _ unlock => LocalWhole C K unlock
  | unlocked _ keyset => keyset = K
  | changePending _ pending _ change credentials =>
    LocalWhole C K pending.localUnlock ∧ Whole C K credentials change
  | reauthenticate _ _ _ change credentials => Whole C K credentials change
  | changeCommit _ _ change credentials => Whole C K credentials change
  | setUpPending _ pending _ setup => WholeCopy C K pending.code setup
  | setUpReauthenticate _ _ _ setup code => WholeCopy C K code setup
  | setUpCommit _ _ setup code => WholeCopy C K code setup
  | recoverTake _ _ blob => ∃ keys, CopyOf C K keys blob
  | recoverReset _ _ _ blob => ∃ keys, CopyOf C K keys blob
  | resetPending _ reset req credentials => reset.keyset = K ∧ LocalWhole C K reset.localUnlock ∧
    Whole C K credentials req.change ∧ WholeCopy C K reset.code req.setup
  | recoverComplete _ req credentials code =>
    Whole C K credentials req.change ∧ WholeCopy C K code req.setup
  | _ => True

theorem signedUp_inv {password : String} {draw : Draw}
    (h : World.signedUp C password draw = some w) : Inv C draw.keyset w := by
  simp only [World.signedUp, createAccount, Option.map_eq_some_iff, Option.bind_eq_bind,
    Option.bind_eq_some_iff, Option.pure_def, Option.some_inj] at h
  obtain ⟨row, ⟨change, hchange, rfl⟩, rfl⟩ := h
  exact ⟨⟨sealAccount_whole hchange, .inl ⟨rfl, rfl⟩⟩, fun _ => .fresh⟩

theorem Inv.withDevice (h : Inv C K w) (d : ℕ) (hdev : dev.Ok C K) :
    Inv C K (w.withDevice d dev) := by
  refine ⟨⟨h.row.account, h.row.recovery⟩, fun d' => ?_⟩
  by_cases hd : d' = d
  · subst hd
    rw [World.withDevice_devices, Function.update_self]
    exact hdev
  · rw [World.withDevice_devices, Function.update_of_ne hd]
    exact h.devices d'

end Held

section Steps

variable {password newPassword : String} {typed : Option SecretKey} {kdf : KdfParams}
  {srpB m2 : Bytes} {draw : Draw} {unlock : LocalUnlock} {blob : Blob}

theorem loginProve_ok {pending : PendingLogin}
    (h : loginProve C dev password typed kdf srpB draw = some pending) : pending.Ok C := by
  simp only [loginProve, Option.bind_eq_bind, Option.bind_eq_some_iff, Option.pure_def,
    Option.some_inj] at h
  obtain ⟨secretKey, -, keys, hkeys, srp, -, rfl⟩ := h
  exact ⟨_, keys, hkeys, rfl⟩

/-- `prove_current` reads, and makes nothing that is kept. -/
theorem passwordChangeProve_ok (hdev : dev.Ok C K)
    {r : PendingChange × PasswordChange × Credentials}
    (h : passwordChangeProve C dev password newPassword kdf srpB draw = some r) :
    LocalWhole C K r.1.localUnlock ∧ Whole C K r.2.2 r.2.1 := by
  simp only [passwordChangeProve, Option.bind_eq_bind, Option.bind_eq_some_iff, Option.pure_def,
    Option.some_inj] at h
  obtain ⟨keyset, hkeyset, secretKey, -, srp, -, change, hchange, rfl⟩ := h
  obtain rfl := hdev.account keyset hkeyset
  have hwhole := sealAccount_whole hchange
  exact ⟨hwhole.local, hwhole⟩

theorem recoverySetupProve_ok (hdev : dev.Ok C K) {r : PendingSetup × RecoverySetup}
    (h : recoverySetupProve C dev password kdf srpB draw = some r) :
    WholeCopy C K r.1.code r.2 := by
  simp only [recoverySetupProve, Option.bind_eq_bind, Option.bind_eq_some_iff, Option.pure_def,
    Option.some_inj] at h
  obtain ⟨keyset, hkeyset, secretKey, -, srp, -, setup, hsetup, rfl⟩ := h
  obtain rfl := hdev.account keyset hkeyset
  exact sealRecovery_whole hsetup

theorem Device.Ok.passwordChangeFinish (hdev : dev.Ok C K) (m2 : Bytes) :
    (passwordChangeFinish dev m2).Ok C K := by
  unfold Account.passwordChangeFinish
  split
  · rename_i pending hpending
    split
    · exact ⟨hdev.pending, hdev.account, by rintro _ ⟨⟩; exact hdev.change _ hpending,
        by rintro _ ⟨⟩, hdev.reset, hdev.saved⟩
    · exact ⟨hdev.pending, hdev.account, hdev.localUnlock, by rintro _ ⟨⟩, hdev.reset, hdev.saved⟩
  · exact hdev

theorem Device.Ok.recoverFinish (hdev : dev.Ok C K) : (recoverFinish dev).Ok C K := by
  unfold Account.recoverFinish
  split
  · rename_i reset hreset
    obtain ⟨hkeyset, hlocal⟩ := hdev.reset reset hreset
    exact ⟨by rintro _ ⟨⟩, by rintro _ ⟨⟩; exact hkeyset, by rintro _ ⟨⟩; exact hlocal,
      hdev.change, by rintro _ ⟨⟩, hdev.saved⟩
  · exact hdev

variable (hC : C.Sound)
include hC

/-- Who finishes a sign-in has derived the unlock key, and holds the keyset. -/
theorem loginFinish_some {unlockKey : SymmetricKey} (hblob : SealedBy C K unlockKey blob)
    (h : loginFinish C dev m2 blob = some dev') :
    ∃ pending, dev.pending = some pending ∧ pending.unlockKey = unlockKey ∧
      dev' = { dev.remember pending.secretKey with
        pending := none, account := some K, localUnlock := some ⟨pending.kdf, blob⟩ } := by
  obtain ⟨pending, hpending, h⟩ := Option.bind_eq_some_iff.mp h
  split at h
  · obtain ⟨keyset, hopen, h⟩ := Option.bind_eq_some_iff.mp h
    obtain ⟨hsame, rfl⟩ := (openBlob_iff hC hblob).mp hopen
    exact ⟨pending, hpending, hsame, (Option.some_inj.mp h).symm⟩
  · cases h

/-- The sign-in that opens the keyset can open it again. -/
theorem Device.Ok.loginFinish (hdev : dev.Ok C K) {unlockKey : SymmetricKey}
    (hblob : SealedBy C K unlockKey blob) (h : loginFinish C dev m2 blob = some dev') :
    dev'.Ok C K := by
  obtain ⟨pending, hpending, rfl, rfl⟩ := loginFinish_some hC hblob h
  obtain ⟨credentials, keys, hkeys, hunlock⟩ := hdev.pending pending hpending
  refine ⟨by rintro _ ⟨⟩, by rintro _ ⟨⟩; rfl, ?_, hdev.change, hdev.reset, hdev.saved⟩
  rintro _ ⟨⟩
  exact ⟨credentials, keys, hkeys, hunlock ▸ hblob⟩

theorem unlockOpen_eq {k : SymmetricKey} (hunlock : LocalWhole C K unlock)
    (h : unlockOpen C dev password unlock = some k) : k = K := by
  simp only [unlockOpen, Option.bind_eq_bind, Option.bind_eq_some_iff] at h
  obtain ⟨secretKey, -, keys, -, hopen⟩ := h
  obtain ⟨-, keys', -, hblob⟩ := hunlock
  exact ((openBlob_iff hC hblob).mp hopen).2

theorem recoverReset_ok {recover keys : RecoveryKeys} {r : PendingReset × RecoveredAccount}
    (hcopy : CopyOf C K keys blob)
    (h : recoverReset C recover newPassword blob draw = some r) :
    r.1.keyset = K ∧ LocalWhole C K r.1.localUnlock ∧
      Whole C K ⟨newPassword, draw.secretKey⟩ r.2.change ∧ WholeCopy C K r.1.code r.2.setup := by
  simp only [recoverReset, Option.bind_eq_bind, Option.bind_eq_some_iff, Option.pure_def,
    Option.some_inj] at h
  obtain ⟨s, hs, keyset, hopen, change, hchange, setup, hsetup, rfl⟩ := h
  obtain ⟨-, rfl⟩ := (openCopy_iff hC hcopy).mp (Option.bind_eq_some_iff.mpr ⟨s, hs, hopen⟩)
  have hwhole := sealAccount_whole hchange
  exact ⟨rfl, hwhole.local, hwhole, sealRecovery_whole hsetup⟩

end Steps

section Runs

variable {t : Task}

theorem Whole.changed {credentials : Credentials} {change : PasswordChange}
    (hrow : RowWhole C K w) (h : Whole C K credentials change) :
    RowWhole C K { w with row := w.row.changed change, credentials } := ⟨h, hrow.recovery⟩

theorem WholeCopy.setUp {code : RecoveryCode} {setup : RecoverySetup} (hrow : RowWhole C K w)
    (h : WholeCopy C K code setup) :
    RowWhole C K { w with row := w.row.setUp setup, recoveryCode := some code } :=
  ⟨hrow.account, .inr ⟨code, _, _, rfl, rfl, rfl, h⟩⟩

/-- What the server releases is a recovery copy of the keyset. -/
theorem copy_of_recoverVerify (hrow : RowWhole C K w) {recoveryAuth : SymmetricKey} {blob : Blob}
    (h : recoverVerify C w.row recoveryAuth = some blob) : ∃ keys, CopyOf C K keys blob := by
  unfold recoverVerify at h
  split at h
  · rcases hrow.recovery with ⟨hnone, -⟩ | ⟨code, keyset, verifier, -, hkeyset, -, hcopy, -⟩
    · rw [hnone] at h
      cases h
    · rw [hkeyset] at h
      cases h
      exact ⟨_, hcopy⟩
  · cases h

/-- **A step keeps everything of one piece**, one case for each step. -/
theorem Inv.step (hC : C.Sound) (draw : Draw) (h : Inv C K w) (ht : t.Ok C K) :
    Inv C K (w.step C draw t).1 ∧ ∀ t' ∈ (w.step C draw t).2, t'.Ok C K := by
  have hdev := h.devices
  have hrow := h.row
  cases t with
  | signIn d password typed =>
    refine ⟨h, fun t' ht' => ?_⟩
    simp only [World.step, Option.mem_def, Option.map_eq_some_iff] at ht'
    obtain ⟨s, -, rfl⟩ := ht'
    trivial
  | loginProve d password typed kdf challenge =>
    refine ⟨h, fun t' ht' => ?_⟩
    obtain ⟨pending, hpending, rfl⟩ := Option.map_eq_some_iff.mp ht'
    exact loginProve_ok hpending
  | loginPending d pending challenge =>
    refine ⟨h.withDevice d { hdev d with pending := ?_ }, ?_⟩
    · rintro _ ⟨⟩
      exact ht
    · rintro _ ⟨⟩
      trivial
  | loginFinish d challenge proof =>
    refine ⟨h, fun t' ht' => ?_⟩
    obtain ⟨m2, -, rfl⟩ := Option.map_eq_some_iff.mp ht'
    split
    · trivial
    · obtain ⟨keys, -, -, hsealed⟩ := hrow.account
      exact ⟨keys.unlockKey, hsealed⟩
  | secondFactor d m2 =>
    refine ⟨h, ?_⟩
    rintro _ ⟨⟩
    obtain ⟨keys, -, -, hsealed⟩ := hrow.account
    exact ⟨keys.unlockKey, hsealed⟩
  | openLogin d m2 blob =>
    obtain ⟨unlockKey, hblob⟩ := ht
    refine ⟨h.withDevice d ?_, by rintro _ ⟨⟩⟩
    cases hfinish : Account.loginFinish C (w.devices d) m2 blob with
    | none => exact { hdev d with pending := by rintro _ ⟨⟩ }
    | some dev' => exact (hdev d).loginFinish hC hblob hfinish
  | unlockWithPassword d password =>
    refine ⟨h, fun t' ht' => ?_⟩
    obtain ⟨unlock, hunlock, rfl⟩ := Option.map_eq_some_iff.mp ht'
    exact (hdev d).localUnlock unlock hunlock
  | unlockOpen d password unlock =>
    refine ⟨h, fun t' ht' => ?_⟩
    obtain ⟨k, hk, rfl⟩ := Option.map_eq_some_iff.mp ht'
    exact unlockOpen_eq hC ht hk
  | unlocked d keyset =>
    refine ⟨?_, by rintro _ ⟨⟩⟩
    unfold World.step
    dsimp only
    split
    · refine h.withDevice d { hdev d with pending := by rintro _ ⟨⟩, account := ?_ }
      rintro _ ⟨⟩
      exact ht
    · exact h
  | changePassword d currentPassword newPassword =>
    refine ⟨h, fun t' ht' => ?_⟩
    simp only [World.step, Option.mem_def, Option.map_eq_some_iff] at ht'
    obtain ⟨s, -, rfl⟩ := ht'
    trivial
  | changeProve d currentPassword newPassword kdf challenge =>
    refine ⟨h, fun t' ht' => ?_⟩
    obtain ⟨r, hr, rfl⟩ := Option.map_eq_some_iff.mp ht'
    exact passwordChangeProve_ok (hdev d) hr
  | changePending d pending challenge change credentials =>
    refine ⟨h.withDevice d { hdev d with change := ?_ }, ?_⟩
    · rintro _ ⟨⟩
      exact ht.1
    · rintro _ ⟨⟩
      exact ht.2
  | reauthenticate d challenge proof change credentials =>
    refine ⟨h, fun t' ht' => ?_⟩
    obtain ⟨m2, -, rfl⟩ := Option.map_eq_some_iff.mp ht'
    exact ht
  | changeCommit d m2 change credentials =>
    refine ⟨⟨Whole.changed hrow ht, hdev⟩, ?_⟩
    rintro _ ⟨⟩
    trivial
  | changeFinish d m2 => exact ⟨h.withDevice d ((hdev d).passwordChangeFinish m2), by rintro _ ⟨⟩⟩
  | setUpRecovery d password =>
    refine ⟨h, fun t' ht' => ?_⟩
    simp only [World.step, Option.mem_def, Option.map_eq_some_iff] at ht'
    obtain ⟨s, -, rfl⟩ := ht'
    trivial
  | setUpProve d password kdf challenge =>
    refine ⟨h, fun t' ht' => ?_⟩
    obtain ⟨r, hr, rfl⟩ := Option.map_eq_some_iff.mp ht'
    exact recoverySetupProve_ok (hdev d) hr
  | setUpPending d pending challenge setup =>
    refine ⟨h.withDevice d { hdev d with }, ?_⟩
    rintro _ ⟨⟩
    exact ht
  | setUpReauthenticate d challenge proof setup code =>
    refine ⟨h, fun t' ht' => ?_⟩
    obtain ⟨m2, -, rfl⟩ := Option.map_eq_some_iff.mp ht'
    exact ht
  | setUpCommit d m2 setup code =>
    refine ⟨⟨WholeCopy.setUp hrow ht, hdev⟩, ?_⟩
    rintro _ ⟨⟩
    trivial
  | setUpFinish d => exact ⟨h.withDevice d { hdev d with }, by rintro _ ⟨⟩⟩
  | recoverBegin d code newPassword =>
    refine ⟨h.withDevice d { hdev d with reset := by rintro _ ⟨⟩ }, ?_⟩
    rintro _ ⟨⟩
    trivial
  | recoverVerify d recoveryAuth newPassword =>
    refine ⟨h, fun t' ht' => ?_⟩
    obtain ⟨blob, hblob, rfl⟩ := Option.map_eq_some_iff.mp ht'
    exact copy_of_recoverVerify hrow hblob
  | recoverTake d newPassword blob =>
    refine ⟨h.withDevice d { hdev d with }, fun t' ht' => ?_⟩
    obtain ⟨keys, -, rfl⟩ := Option.map_eq_some_iff.mp ht'
    exact ht
  | recoverReset d recover newPassword blob =>
    refine ⟨h, fun t' ht' => ?_⟩
    obtain ⟨r, hr, rfl⟩ := Option.map_eq_some_iff.mp ht'
    obtain ⟨keys, hcopy⟩ := ht
    exact recoverReset_ok hC hcopy hr
  | resetPending d reset req credentials =>
    obtain ⟨hkeyset, hlocal, hwhole, hcopy⟩ := ht
    refine ⟨h.withDevice d { hdev d with reset := ?_ }, ?_⟩
    · rintro _ ⟨⟩
      exact ⟨hkeyset, hlocal⟩
    · rintro _ ⟨⟩
      exact ⟨hwhole, hcopy⟩
  | recoverComplete d req credentials code =>
    refine ⟨⟨⟨ht.1, .inr ⟨code, _, _, rfl, rfl, rfl, ht.2⟩⟩, hdev⟩, ?_⟩
    rintro _ ⟨⟩
    trivial
  | recoverFinish d => exact ⟨h.withDevice d (hdev d).recoverFinish, by rintro _ ⟨⟩⟩
  | recoverCancel d =>
    exact ⟨h.withDevice d { hdev d with reset := by rintro _ ⟨⟩ }, by rintro _ ⟨⟩⟩
  | lock d =>
    exact ⟨h.withDevice d { hdev d with
      pending := by rintro _ ⟨⟩, account := by rintro _ ⟨⟩, localUnlock := by rintro _ ⟨⟩ },
      by rintro _ ⟨⟩⟩
  | forget d =>
    exact ⟨h.withDevice d { hdev d with pending := by rintro _ ⟨⟩, account := by rintro _ ⟨⟩ },
      by rintro _ ⟨⟩⟩
  | importKit d key => exact ⟨h.withDevice d { hdev d with }, by rintro _ ⟨⟩⟩
  | clearKit d => exact ⟨h.withDevice d { hdev d with }, by rintro _ ⟨⟩⟩
  | forgetSecretKey d => exact ⟨h.withDevice d { hdev d with }, by rintro _ ⟨⟩⟩
  | save d touchId =>
    refine ⟨h.withDevice d { hdev d with saved := fun s hs => ?_ }, by rintro _ ⟨⟩⟩
    obtain ⟨k, hk, rfl⟩ := Option.map_eq_some_iff.mp hs
    refine ⟨(hdev d).account k hk, fun l hl => ?_⟩
    split at hl
    · cases hl
    · exact (hdev d).localUnlock l hl
  | restore d =>
    refine ⟨?_, by rintro _ ⟨⟩⟩
    unfold World.step
    dsimp only
    split
    · rename_i keyset unlock hsaved
      obtain ⟨hkeyset, hunlock⟩ := (hdev d).saved _ hsaved
      refine h.withDevice d { hdev d with
        pending := by rintro _ ⟨⟩, account := ?_, localUnlock := fun l hl => ?_ }
      · rintro _ ⟨⟩
        exact hkeyset
      · rcases Option.or_eq_some_iff.mp hl with hl | ⟨-, hl⟩
        · exact hunlock l hl
        · exact (hdev d).localUnlock l hl
    · exact h

/-- The invariant holds in every run, and each flow carries what it should. -/
theorem accountOutline (hC : C.Sound) (K : SymmetricKey) :
    Outline (accountProgram C) (Inv C K) (fun _ t => t.Ok C K) fun _ _ => True := by
  refine .of_free ?_ ?_ ?_ fun _ _ hu _ => hu
  · intro w t _ hstart
    cases t <;> trivial
  · rintro w t w' next hinv ht (⟨draw, hstep⟩ | ⟨rfl, -⟩)
    · have hkept := (hinv.step hC draw ht).1
      rwa [hstep] at hkept
    · exact hinv
  · rintro w t w' next hinv ht (⟨draw, hstep⟩ | ⟨-, hnone⟩)
    · have hled := (hinv.step hC draw ht).2
      rw [hstep] at hled
      exact hled next rfl
    · cases hnone

end Runs

section Opens

/-- The numbers of a sign-in that SRP does not refuse: neither the server's `B` nor `u` is zero. -/
def Draw.Usable (C : Suite) (row : AccountRow) (draw : Draw) : Prop :=
  ∀ challenge, SrpServer.createChallenge C.sha row.srpVerifier draw.secretB = some challenge →
    SrpClient.int challenge.publicB % SrpClient.n ≠ 0 ∧
    SrpClient.int (SrpClient.hash C.sha [SrpClient.pad
      (SrpClient.modpow SrpClient.g (SrpClient.int draw.a.toList) SrpClient.n),
      challenge.publicB]) ≠ 0

/-- Both sides of a sign-in come to the end when the verifier is that of the client's keys. -/
theorem exists_login {row : AccountRow} {srpX : SymmetricKey} {draw : Draw}
    (hverifier : row.srpVerifier = SrpClient.verifier srpX.vector) (hdraw : draw.Usable C row) :
    ∃ challenge session m2,
      SrpServer.createChallenge C.sha row.srpVerifier draw.secretB = some challenge ∧
      SrpClient.new C.sha draw.a C.accountId row.kdf.salt srpX.vector challenge.publicB =
        some session ∧
      verifyProof C row challenge ⟨session.publicA, session.m1⟩ = some m2 ∧
      session.verifyServer m2 = true := by
  have hchallenge := createChallenge_eq C.sha srpX.vector draw.secretB
  rw [← hverifier] at hchallenge
  obtain ⟨hB, hu⟩ := hdraw _ hchallenge
  rw [int_pad] at hB
  have hsession := withSecret_eq C.sha C.accountId row.kdf.salt srpX.vector draw.secretB hB rfl hu
  have hverified := verifyClient_eq C.sha C.accountId row.kdf.salt srpX.vector draw.secretB rfl hu
  rw [← hverifier] at hverified
  have hproof := congrArg
    (fun r => (Option.join r).map SrpServer.VerifiedLogin.serverProof) hverified
  exact ⟨_, _, _, hchallenge, hsession, hproof, decide_eq_true rfl⟩

variable (hC : C.Sound) (hrow : RowWhole C K w)
include hC hrow

/-- Both sides of a sign-in with the password and the Secret Key that a row was last written for. -/
theorem RowWhole.login {draw : Draw} (hdraw : draw.Usable C w.row) :
    ∃ keys challenge session m2, deriveKeys C w.credentials w.row.kdf = some keys ∧
      loginStart C w.row draw = some (w.row.kdf, challenge) ∧
      SrpClient.new C.sha draw.a C.accountId w.row.kdf.salt keys.srpX.vector challenge.publicB =
        some session ∧
      verifyProof C w.row challenge ⟨session.publicA, session.m1⟩ = some m2 ∧
      session.verifyServer m2 = true ∧
      openBlob C keys.unlockKey w.row.encryptedKeyset = some K := by
  obtain ⟨keys, hkeys, hverifier, hblob⟩ := hrow.account
  obtain ⟨challenge, session, m2, hchallenge, hsession, hproof, hserver⟩ :=
    exists_login hverifier hdraw
  have hstart : loginStart C w.row draw = some (w.row.kdf, challenge) := by
    rw [loginStart, hchallenge, Option.map_some]
  exact ⟨keys, challenge, session, m2, hkeys, hstart, hsession, hproof, hserver,
    (openBlob_iff hC hblob).mpr ⟨rfl, rfl⟩⟩

/-- They sign in to it. -/
theorem RowWhole.signIn {draw : Draw} (hdraw : draw.Usable C w.row) (dev : Device) :
    ∃ dev', signIn C w.row dev w.credentials draw = some dev' ∧ dev'.account = some K := by
  obtain ⟨keys, challenge, session, m2, hkeys, hstart, hsession, hproof, hserver, hopen⟩ :=
    hrow.login hC hdraw
  have hprove : loginProve C dev w.credentials.password (some w.credentials.secretKey) w.row.kdf
      challenge.publicB draw =
        some ⟨w.row.kdf, session, keys.unlockKey, w.credentials.secretKey⟩ := by
    simp only [loginProve, Option.some_or, Option.bind_eq_bind, Option.bind_some, hkeys, hsession,
      Option.pure_def]
  simp only [Account.signIn, hstart, hprove, hproof, loginFinish, hserver, if_true, hopen,
    Option.bind_eq_bind, Option.bind_some, Option.pure_def]
  exact ⟨_, rfl, rfl⟩

/-- Whoever gets in holds the keyset, and has derived its unlock key. -/
theorem RowWhole.signIn_only {credentials : Credentials} {draw : Draw}
    (h : Account.signIn C w.row dev credentials draw = some dev') :
    dev'.account = some K ∧ ∃ keys keys', deriveKeys C w.credentials w.row.kdf = some keys ∧
      deriveKeys C credentials w.row.kdf = some keys' ∧ keys'.unlockKey = keys.unlockKey := by
  obtain ⟨keys, hkeys, -, hblob⟩ := hrow.account
  simp only [Account.signIn, loginStart, Option.bind_eq_bind, Option.bind_eq_some_iff,
    Option.map_eq_some_iff] at h
  obtain ⟨_, ⟨challenge, -, rfl⟩, pending, hprove, m2, -, hfinish⟩ := h
  obtain ⟨_, hpending, hsame, rfl⟩ := loginFinish_some hC hblob hfinish
  obtain rfl := Option.some_inj.mp hpending
  simp only [loginProve, Option.some_or, Option.bind_eq_bind, Option.bind_some,
    Option.bind_eq_some_iff, Option.pure_def, Option.some_inj] at hprove
  obtain ⟨keys', hkeys', srp, -, hmade⟩ := hprove
  subst hmade
  exact ⟨rfl, keys, keys', hkeys, hkeys', hsame⟩

/-- The code that a recovery was last set up with opens the keyset. -/
theorem RowWhole.recoverOpen {code : RecoveryCode} (hcode : w.recoveryCode = some code) :
    recoverOpen C w.row code = some K := by
  obtain ⟨-, hnone⟩ | ⟨code', keyset, verifier, hcode', hkeyset, hverifier, hcopy, rfl⟩ :=
    hrow.recovery
  · rw [hcode] at hnone
    cases hnone
  · obtain rfl := Option.some_inj.mp (hcode.symm.trans hcode')
    have hreleased : recoverVerify C w.row (code.keys C.D C.H C.accountId).authToken =
        some keyset := by
      rw [recoverVerify, hverifier, hkeyset]
      exact if_pos rfl
    have hopens := (openCopy_iff hC hcopy).mpr ⟨rfl, rfl⟩
    simpa only [Account.recoverOpen, Option.bind_eq_bind, hreleased, Option.bind_some]
      using hopens

omit hC in
/-- Without a recovery code there is nothing to release. -/
theorem RowWhole.recoverVerify_none (hnone : w.recoveryCode = none) (recoveryAuth : SymmetricKey) :
    recoverVerify C w.row recoveryAuth = none := by
  obtain ⟨hkeyset, -⟩ | ⟨code, -, -, hcode, -⟩ := hrow.recovery
  · rw [recoverVerify, hkeyset, ite_self]
  · rw [hnone] at hcode
    cases hcode

omit hrow in
/-- A lock screen opens to some password and Secret Key. -/
theorem LocalWhole.opens {unlock : LocalUnlock} (h : LocalWhole C K unlock) :
    ∃ credentials : Credentials, ∀ dev, dev.keyFor = some credentials.secretKey →
      unlockOpen C dev credentials.password unlock = some K := by
  obtain ⟨credentials, keys, hkeys, hblob⟩ := h
  refine ⟨credentials, fun dev hkey => ?_⟩
  have hopen := (openBlob_iff hC hblob).mpr ⟨rfl, rfl⟩
  simp only [unlockOpen, hkey, hkeys, hopen, Option.bind_eq_bind, Option.bind_some]

end Opens

/-- **The keyset is kept**: however the flows of an account interleave and wherever they stop,
every Mac that is unlocked holds the keyset that the account was made with. The password and the
Secret Key that its row was last written for sign in to it, and nothing does that derives another
unlock key; the recovery code that was last set up opens it, and a lock screen's copy opens to
nothing else. -/
theorem keyset_kept (hC : C.Sound) {password : String} {drawn : Draw} {w₀ w : World}
    {tasks : List Task} (hsignup : World.signedUp C password drawn = some w₀)
    (hrun : Run (accountProgram C) ⟨w₀, []⟩ ⟨w, tasks⟩) :
    (∀ d, ∀ k ∈ (w.devices d).account, k = drawn.keyset) ∧
    (∀ dev (draw : Draw), draw.Usable C w.row → ∃ dev',
      signIn C w.row dev w.credentials draw = some dev' ∧ dev'.account = some drawn.keyset) ∧
    (∀ dev credentials draw dev', signIn C w.row dev credentials draw = some dev' →
      dev'.account = some drawn.keyset ∧ ∃ keys keys',
        deriveKeys C w.credentials w.row.kdf = some keys ∧
        deriveKeys C credentials w.row.kdf = some keys' ∧ keys'.unlockKey = keys.unlockKey) ∧
    (∀ code ∈ w.recoveryCode, recoverOpen C w.row code = some drawn.keyset) ∧
    (w.recoveryCode = none → ∀ auth, recoverVerify C w.row auth = none) ∧
    (∀ d, ∀ unlock ∈ (w.devices d).localUnlock,
      (∃ credentials : Credentials, ∀ dev, dev.keyFor = some credentials.secretKey →
        unlockOpen C dev credentials.password unlock = some drawn.keyset) ∧
      ∀ dev password k, unlockOpen C dev password unlock = some k → k = drawn.keyset) := by
  have hinv := ((accountOutline hC drawn.keyset).run_idle (signedUp_inv hsignup) hrun).inv
  have hrow := hinv.row
  refine ⟨fun d => (hinv.devices d).account, fun dev draw hdraw => hrow.signIn hC hdraw dev,
    fun dev credentials draw dev' h => hrow.signIn_only hC h,
    fun code hcode => hrow.recoverOpen hC hcode, hrow.recoverVerify_none,
    fun d unlock hunlock => ?_⟩
  have hlocal := (hinv.devices d).localUnlock unlock hunlock
  exact ⟨hlocal.opens hC, fun dev password k hopen => unlockOpen_eq hC hlocal hopen⟩

/-! ### A sign-in and a password change that nothing comes between -/

section Flows

variable {draw : Draw} {d : ℕ} {password : String} {change : PasswordChange}

/-- A Mac that has signed in. -/
def Device.signedIn (dev : Device) (secretKey : SecretKey) (keyset : SymmetricKey)
    (unlock : LocalUnlock) : Device :=
  { dev.remember secretKey with
    pending := none, account := some keyset, localUnlock := some unlock }

/-- The only flow under way does its next step. -/
theorem run_step (draw : Draw) {start : Concurrent.System World Task} {t : Task}
    {next : Option Task} (h : Run (accountProgram C) start ⟨w, [t]⟩)
    (hstep : w.step C draw t = (w', next)) : Run (accountProgram C) start ⟨w', next.toList⟩ := by
  have hact : (accountProgram C).act w t w' next := .inl ⟨draw, hstep⟩
  simpa only [List.append_nil] using h.proceeds hact

variable (hC : C.Sound) (hrow : RowWhole C K w)
include hC hrow

/-- A Mac that knows the Secret Key signs in with the password. -/
theorem RowWhole.signIn_run (hdraw : draw.Usable C w.row) (htwo : draw.twoFactor = false)
    (hkey : (w.devices d).keyFor = some w.credentials.secretKey) :
    Run (accountProgram C) ⟨w, []⟩ ⟨w.withDevice d ((w.devices d).signedIn w.credentials.secretKey K
      ⟨w.row.kdf, w.row.encryptedKeyset⟩), []⟩ := by
  obtain ⟨keys, challenge, session, m2, hkeys, hstart, hsession, hproof, hserver, hopen⟩ :=
    hrow.login hC hdraw
  let pending : PendingLogin := ⟨w.row.kdf, session, keys.unlockKey, w.credentials.secretKey⟩
  have hprove : loginProve C (w.devices d) w.credentials.password none w.row.kdf challenge.publicB
      draw = some pending := by
    simp only [loginProve, Option.none_or, hkey, Option.bind_eq_bind, Option.bind_some, hkeys,
      hsession, Option.pure_def, pending]
  have hfinish : loginFinish C { w.devices d with pending := some pending } m2
      w.row.encryptedKeyset = some ((w.devices d).signedIn w.credentials.secretKey K
        ⟨w.row.kdf, w.row.encryptedKeyset⟩) := by
    simp only [loginFinish, Option.bind_eq_bind, Option.bind_some, pending, hserver, if_true, hopen,
      Option.pure_def]
    rfl
  have hbegun : Run (accountProgram C) ⟨w, []⟩ ⟨w, [.signIn d w.credentials.password none]⟩ :=
    Run.starts .refl _ rfl
  have hasked : Run (accountProgram C) ⟨w, []⟩
      ⟨w, [.loginProve d w.credentials.password none w.row.kdf challenge]⟩ :=
    run_step draw hbegun (by rw [World.step, hstart, Option.map_some])
  have hproved : Run (accountProgram C) ⟨w, []⟩ ⟨w, [.loginPending d pending challenge]⟩ :=
    run_step draw hasked (by rw [World.step, hprove, Option.map_some])
  let waiting : World := w.withDevice d { w.devices d with pending := some pending }
  have hpending : Run (accountProgram C) ⟨w, []⟩
      ⟨waiting, [.loginFinish d challenge ⟨session.publicA, session.m1⟩]⟩ :=
    run_step draw hproved rfl
  have hchecked : waiting.step C draw (.loginFinish d challenge ⟨session.publicA, session.m1⟩) =
      (waiting, some (.openLogin d m2 w.row.encryptedKeyset)) := by
    have hproof' : verifyProof C waiting.row challenge ⟨session.publicA, session.m1⟩ = some m2 :=
      hproof
    rw [World.step, hproof', htwo]
    rfl
  have hopened : waiting.step C draw (.openLogin d m2 w.row.encryptedKeyset) =
      (w.withDevice d ((w.devices d).signedIn w.credentials.secretKey K
        ⟨w.row.kdf, w.row.encryptedKeyset⟩), none) := by
    rw [World.step, World.withDevice_devices, Function.update_self, hfinish, Option.getD_some,
      World.withDevice_withDevice]
  exact run_step draw (run_step draw hpending hchecked) hopened

/-- A Mac that has signed in changes the password. -/
theorem RowWhole.changePassword_run (hdraw : draw.Usable C w.row)
    (hkey : (w.devices d).keyFor = some w.credentials.secretKey)
    (haccount : (w.devices d).account = some K)
    (hunlock : (w.devices d).localUnlock = some ⟨w.row.kdf, w.row.encryptedKeyset⟩)
    (hchange : sealAccount C ⟨password, w.credentials.secretKey⟩ K draw = some change) :
    ∃ dev, dev.account = some K ∧ dev.localUnlock = some ⟨change.kdf, change.encryptedKeyset⟩ ∧
      Run (accountProgram C) ⟨w, []⟩ ⟨{ w.withDevice d dev with
        row := w.row.changed change, credentials := ⟨password, w.credentials.secretKey⟩ }, []⟩ := by
  obtain ⟨keys, challenge, session, m2, hkeys, hstart, hsession, hproof, hserver, hopen⟩ :=
    hrow.login hC hdraw
  let credentials : Credentials := ⟨password, w.credentials.secretKey⟩
  let pending : PendingChange := ⟨session, change.kdf, change.encryptedKeyset⟩
  let dev : Device := { w.devices d with change := some pending }
  -- the password opens the lock screen's copy
  have hcurrent : proveCurrent C (w.devices d) w.credentials w.row.kdf challenge.publicB draw =
      some session := by
    obtain ⟨s, hs, hopened⟩ := Option.bind_eq_some_iff.mp hopen
    simp only [proveCurrent, hkeys, hunlock, Option.bind_eq_bind, Option.bind_some, hs, hopened,
      Option.isSome_some, if_true, hsession]
  have hprove : passwordChangeProve C (w.devices d) w.credentials.password password w.row.kdf
      challenge.publicB draw = some (pending, change, credentials) := by
    simp only [passwordChangeProve, haccount, hkey, hcurrent, hchange, Option.bind_eq_bind,
      Option.bind_some, Option.pure_def, pending, credentials]
  have hbegun : Run (accountProgram C) ⟨w, []⟩
      ⟨w, [.changePassword d w.credentials.password password]⟩ := Run.starts .refl _ rfl
  have hasked : Run (accountProgram C) ⟨w, []⟩
      ⟨w, [.changeProve d w.credentials.password password w.row.kdf challenge]⟩ :=
    run_step draw hbegun (by rw [World.step, hstart, Option.map_some])
  have hproved : Run (accountProgram C) ⟨w, []⟩
      ⟨w, [.changePending d pending challenge change credentials]⟩ :=
    run_step draw hasked (by rw [World.step, hprove, Option.map_some])
  have hpending : Run (accountProgram C) ⟨w, []⟩ ⟨w.withDevice d dev,
      [.reauthenticate d challenge ⟨session.publicA, session.m1⟩ change credentials]⟩ :=
    run_step draw hproved rfl
  have hchecked : (w.withDevice d dev).step C draw (.reauthenticate d challenge
      ⟨session.publicA, session.m1⟩ change credentials) =
      (w.withDevice d dev, some (.changeCommit d m2 change credentials)) := by
    have hproof' : verifyProof C (w.withDevice d dev).row challenge
        ⟨session.publicA, session.m1⟩ = some m2 := hproof
    rw [World.step, hproof', Option.map_some]
  have hwritten : Run (accountProgram C) ⟨w, []⟩ ⟨{ w.withDevice d dev with
      row := w.row.changed change, credentials }, [.changeFinish d m2]⟩ :=
    run_step draw (run_step draw hpending hchecked) rfl
  have hfinished : World.step C { w.withDevice d dev with row := w.row.changed change, credentials }
      draw (.changeFinish d m2) = ({ w.withDevice d (passwordChangeFinish dev m2) with
        row := w.row.changed change, credentials }, none) := by
    simp only [World.step, World.withDevice, Function.update_self, Function.update_idem]
  refine ⟨passwordChangeFinish dev m2, ?_, ?_, run_step draw hwritten hfinished⟩
  · simp only [passwordChangeFinish, dev, pending, hserver, if_true, haccount]
  · simp only [passwordChangeFinish, dev, pending, hserver, if_true]

end Flows

/-! ### An example -/

theorem length_stretched (password salt : List UInt8) :
    ((password ++ salt ++ List.replicate 32 0).take 32).length = 32 := by
  rw [List.length_take, List.length_append, List.length_replicate]
  exact Nat.min_eq_left (Nat.le_add_left 32 _)

theorem length_checksum (bytes : List UInt8) :
    (List.replicate 31 0 ++ [bytes.sum]).length = 32 := by
  rw [List.length_append, List.length_replicate, List.length_singleton]

/-- The sum of some bytes, as a key. -/
def checksum (bytes : List UInt8) : SymmetricKey :=
  ⟨List.replicate 31 0 ++ [bytes.sum], length_checksum bytes⟩

/-- Keys are checksums, and all hashes are the same. -/
def exampleSuite : Suite where
  P := { Crypto.marking with
    base64 := fun bytes => String.ofList (Base64.encode bytes)
    unbase64 := fun text => Base64.decode text.toList }
  D := { Crypto.mixing with
    hkdf := fun _ key info => checksum (key ++ info)
    sha256 := fun _ => List.replicate 32 1
    length_sha256 := fun _ => List.length_replicate }
  H :=
    { nfkd := Bytes.utf8
      argon2id := fun _ _ _ password salt =>
        some ⟨(password ++ salt ++ List.replicate 32 0).take 32, length_stretched password salt⟩
      normalizeAccountId := id }
  accountId := "a"

theorem exampleSuite_sound : exampleSuite.Sound where
  binds :=
    { decrypt_encrypt := @Crypto.marking_binds.decrypt_encrypt
      decrypt_only := @Crypto.marking_binds.decrypt_only }
  unbase64_base64 bytes := by
    change Base64.decode (String.ofList (Base64.encode bytes)).toList = some bytes
    rw [String.toList_ofList, Base64.decode_encode]

def exampleDraw : Draw where
  a := Vector.replicate 32 1
  secretB := [1]
  secretKey := .generate (fun _ => 0) fun _ => 0
  keyset := ⟨List.replicate 32 7, by decide⟩
  salt := List.replicate 16 0
  nonce := ⟨List.replicate 24 0, by decide⟩
  recoveryNonce := ⟨List.replicate 24 1, by decide⟩
  code := ⟨.fill fun _ => 0⟩
  twoFactor := false

theorem int_checksum (bytes : List UInt8) :
    SrpClient.int (checksum bytes).vector.toList = bytes.sum.toNat := by
  have hpad : (checksum bytes).vector.toList.map UInt8.toNat =
      Radix.padStart 32 [bytes.sum.toNat] := by
    simp only [checksum, SymmetricKey.vector, Vector.toList_mk, List.map_append,
      List.map_replicate, List.map_cons, List.map_nil]
    rfl
  rw [SrpClient.int, hpad, Radix.value_padStart]
  exact Nat.ofDigits_singleton

/-- The number `B` is not zero for any checksum. -/
theorem challengeB_ne_zero : ∀ x < 256,
    (SrpClient.int (List.replicate 32 1) * SrpClient.modpow SrpClient.g x SrpClient.n +
      SrpClient.modpow SrpClient.g 1 SrpClient.n) % SrpClient.n ≠ 0 := by
  decide +kernel

theorem exampleDraw_usable {credentials : Credentials} {row : AccountRow} {K : SymmetricKey}
    (h : Whole exampleSuite K credentials ⟨row.kdf, row.srpVerifier, row.encryptedKeyset⟩) :
    exampleDraw.Usable exampleSuite row := by
  obtain ⟨keys, hkeys, hverifier, -⟩ := h
  intro challenge hchallenge
  have hsrpX : ∃ bytes, keys.srpX = checksum bytes := by
    simp only [deriveKeys, deriveAccountKeys] at hkeys
    split at hkeys
    · simp only [Option.bind_eq_bind, Option.bind_eq_some_iff, Option.pure_def, Option.some_inj] at hkeys
      obtain ⟨fromPassword, -, rfl⟩ := hkeys
      exact ⟨_, rfl⟩
    · cases hkeys
  obtain ⟨bytes, hbytes⟩ := hsrpX
  have hmade := createChallenge_eq exampleSuite.sha keys.srpX.vector exampleDraw.secretB
  rw [← hverifier, hchallenge] at hmade
  obtain rfl := Option.some_inj.mp hmade
  refine ⟨?_, ?_⟩
  · rw [int_pad, challengeB, Nat.mod_mod, hbytes, int_checksum]
    exact challengeB_ne_zero _ (UInt8.toNat_lt _)
  · change SrpClient.int (List.replicate 32 1) ≠ 0
    decide

/-- The example's account is signed up; a Mac picks its kit, signs in and changes the password. -/
theorem keyset_kept_changed : ∃ w₀ w, World.signedUp exampleSuite "pw" exampleDraw = some w₀ ∧
    Run (accountProgram exampleSuite) ⟨w₀, []⟩ ⟨w, []⟩ ∧
    w.credentials = ⟨"new", exampleDraw.secretKey⟩ ∧
    (w.devices 0).account = some exampleDraw.keyset ∧
    (∃ dev, signIn exampleSuite w.row .fresh w.credentials exampleDraw = some dev ∧
      dev.account = some exampleDraw.keyset) ∧
    ∀ dev credentials draw dev', signIn exampleSuite w.row dev credentials draw = some dev' →
      dev'.account = some exampleDraw.keyset := by
  have hsignup : ∃ w₀, World.signedUp exampleSuite "pw" exampleDraw = some w₀ ∧
      w₀.credentials = ⟨"pw", exampleDraw.secretKey⟩ := ⟨_, rfl, rfl⟩
  obtain ⟨w₀, hsignup, hcredentials⟩ := hsignup
  have hsecret : w₀.credentials.secretKey = exampleDraw.secretKey := by rw [hcredentials]
  have hrow {w : World} (hrun : Run (accountProgram exampleSuite) ⟨w₀, []⟩ ⟨w, []⟩) :
      RowWhole exampleSuite exampleDraw.keyset w :=
    ((accountOutline exampleSuite_sound _).run_idle (signedUp_inv hsignup) hrun).inv.row
  let picked : World := w₀.withDevice 0 { w₀.devices 0 with kit := some exampleDraw.secretKey }
  have hpicked : Run (accountProgram exampleSuite) ⟨w₀, []⟩ ⟨picked, []⟩ :=
    run_step exampleDraw (Run.starts .refl (Task.importKit 0 exampleDraw.secretKey) rfl) rfl
  have hkit : (picked.devices 0).keyFor = some picked.credentials.secretKey := by
    rw [World.withDevice_devices, Function.update_self]
    exact congrArg some hsecret.symm
  let signedIn : World := picked.withDevice 0 ((picked.devices 0).signedIn
    picked.credentials.secretKey exampleDraw.keyset ⟨picked.row.kdf, picked.row.encryptedKeyset⟩)
  have hsignedIn : Run (accountProgram exampleSuite) ⟨w₀, []⟩ ⟨signedIn, []⟩ :=
    hpicked.trans ((hrow hpicked).signIn_run exampleSuite_sound
      (exampleDraw_usable (hrow hpicked).account) rfl hkit)
  have hdevice : signedIn.devices 0 = (picked.devices 0).signedIn picked.credentials.secretKey
      exampleDraw.keyset ⟨picked.row.kdf, picked.row.encryptedKeyset⟩ := by
    rw [World.withDevice_devices, Function.update_self]
  obtain ⟨change, hchange⟩ : ∃ change, sealAccount exampleSuite
      ⟨"new", signedIn.credentials.secretKey⟩ exampleDraw.keyset exampleDraw = some change :=
    ⟨_, rfl⟩
  obtain ⟨dev, haccount, -, hchanged⟩ := (hrow hsignedIn).changePassword_run (d := 0)
    exampleSuite_sound (exampleDraw_usable (hrow hsignedIn).account)
    (by rw [hdevice]; rfl) (by rw [hdevice]; rfl) (by rw [hdevice]; rfl) hchange
  have hrun := hsignedIn.trans hchanged
  have hkept := keyset_kept exampleSuite_sound hsignup hrun
  refine ⟨w₀, _, hsignup, hrun, congrArg (Credentials.mk "new") hsecret, ?_,
    hkept.2.1 .fresh exampleDraw (exampleDraw_usable (hrow hrun).account),
    fun dev credentials draw dev' h => (hkept.2.2.1 dev credentials draw dev' h).1⟩
  rw [World.withDevice_devices, Function.update_self]
  exact haccount

end Zvault.Account
