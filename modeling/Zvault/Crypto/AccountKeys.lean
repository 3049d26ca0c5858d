import Zvault.Crypto.Shares
import Zvault.Crypto.TypedKeys
import Zvault.Srp.Server

/-!
# Account keys

`kdf.rs`, `keyset.rs` and `recovery.rs` of `zvault-crypto`, `secret_key.rs` as far as it
derives, and the blobs of `auth.rs`. Argon2id and the NFKD form of a password are left open
beside HKDF and the cipher.
-/

namespace Zvault.Crypto

open Bytes (utf8 utf8_inj)

/-- What passwords are derived with. -/
structure PasswordHash where
  /-- The bytes of a password's NFKD form. -/
  nfkd : String → List UInt8
  /-- `none` where the crate refuses its input. -/
  argon2id : (memoryKib iterations parallelism : ℕ) → (password salt : List UInt8) →
    Option SymmetricKey
  normalizeAccountId : String → String

/-- `KdfParams`. -/
structure KdfParams where
  memoryKib : ℕ
  iterations : ℕ
  parallelism : ℕ
  salt : List UInt8
  deriving DecidableEq, Repr

namespace KdfParams

/-- `MIN_MEMORY_KIB`. -/
def minMemoryKib : ℕ := 64 * 1024

/-- `MIN_ITERATIONS`. -/
def minIterations : ℕ := 3

/-- `MAX_MEMORY_KIB`. -/
def maxMemoryKib : ℕ := 4 * 1024 * 1024

/-- `MAX_ITERATIONS`. -/
def maxIterations : ℕ := 64

/-- The defaults for new accounts. -/
def newDefault (salt : List UInt8) : KdfParams := ⟨256 * 1024, 3, 4, salt⟩

def validate (p : KdfParams) : Bool :=
  minMemoryKib ≤ p.memoryKib ∧ p.memoryKib ≤ maxMemoryKib ∧ minIterations ≤ p.iterations ∧
    p.iterations ≤ maxIterations ∧ 1 ≤ p.parallelism ∧ p.parallelism ≤ 16

end KdfParams

/-- The two keys of a master password and a Secret Key. -/
structure AccountKeys where
  unlockKey : SymmetricKey
  srpX : SymmetricKey
  deriving DecidableEq, Repr

/-- What a recovery code derives for an account. -/
structure RecoveryKeys where
  wrapKey : SymmetricKey
  authToken : SymmetricKey
  deriving DecidableEq, Repr

/-- The bytes of symbols, which are ASCII. -/
def Symbols.bytes {n : ℕ} (s : Symbols n) : List UInt8 := utf8 (String.ofList s.chars)

variable (P : Primitives) (D : Derivations) (H : PasswordHash)

/-- `derive` of a Secret Key. -/
def SecretKey.derive (key : SecretKey) (accountId : List UInt8) : SymmetricKey :=
  D.hkdf (some key.id.bytes) key.secret.bytes (utf8 "zvault/v1/secret-key/" ++ accountId)

def deriveAccountKeys (masterPassword : String) (key : SecretKey) (accountId : String)
    (params : KdfParams) : Option AccountKeys :=
  if params.validate then do
    let accountId := utf8 (H.normalizeAccountId accountId)
    let salt := D.hkdf (some accountId) params.salt (utf8 "zvault/v1/password-salt")
    let fromPassword ← H.argon2id params.memoryKib params.iterations params.parallelism
      (H.nfkd masterPassword) salt.bytes
    let fromSecretKey := key.derive D accountId
    let master := List.zipWith (· ^^^ ·) fromPassword.bytes fromSecretKey.bytes
    return ⟨D.hkdf none master (utf8 "zvault/v1/unlock-key"),
      D.hkdf none master (utf8 "zvault/v1/srp-x")⟩
  else none

/-- `seal_keyset`. -/
def sealKeyset (unlockKey keyset : SymmetricKey) (accountId : String) (nonce : Nonce) :
    Option Sealed :=
  wrapKey P unlockKey keyset (keysetAad H.normalizeAccountId accountId) nonce

/-- `open_keyset`. -/
def openKeyset (unlockKey : SymmetricKey) (s : Sealed) (accountId : String) :
    Option SymmetricKey :=
  unwrapKey P unlockKey s (keysetAad H.normalizeAccountId accountId)

/-- What is derived of a recovery code for a purpose. -/
def RecoveryCode.expand (code : RecoveryCode) (purpose accountId : String) : SymmetricKey :=
  D.hkdf (some (utf8 "zvault/v1/recovery-code")) code.symbols.bytes
    (utf8 ("zvault/v1/recovery/" ++ purpose ++ "/" ++ H.normalizeAccountId accountId))

def RecoveryCode.keys (code : RecoveryCode) (accountId : String) : RecoveryKeys :=
  ⟨code.expand D H "wrap" accountId, code.expand D H "auth" accountId⟩

/-- What the server stores to check the token later. -/
def RecoveryKeys.verifier (keys : RecoveryKeys) : List UInt8 := D.sha256 keys.authToken.bytes

/-- `seal_recovery_keyset`. -/
def sealRecoveryKeyset (keys : RecoveryKeys) (keyset : SymmetricKey) (accountId : String)
    (nonce : Nonce) : Option Sealed :=
  wrapKey P keys.wrapKey keyset (recoveryAad H.normalizeAccountId accountId) nonce

/-- `open_recovery_keyset`. -/
def openRecoveryKeyset (keys : RecoveryKeys) (s : Sealed) (accountId : String) :
    Option SymmetricKey :=
  unwrapKey P keys.wrapKey s (recoveryAad H.normalizeAccountId accountId)

/-- `KEYSET_KID`. -/
def keysetKid : String := "keyset"

/-- `RECOVERY_KID`. -/
def recoveryKid : String := "recovery"

/-- `sealed` of the sign-in commands, which do not look at the key id. -/
def Blob.sealedKeyset (b : Blob) : Option Sealed :=
  if b.v ≠ cryptoVersion ∨ b.alg ≠ Crypto.alg then none
  else do
    let nonce ← P.unbase64 b.nonce
    let ciphertext ← P.unbase64 b.ct
    if h : nonce.length = 24 then some ⟨⟨nonce, h⟩, ciphertext⟩ else none

/-- A key as SRP takes it. -/
def SymmetricKey.vector (key : SymmetricKey) : Vector UInt8 32 :=
  ⟨key.bytes.toArray, key.length_eq⟩

variable {P D H}

theorem Blob.sealedKeyset_new (hbase64 : ∀ bytes, P.unbase64 (P.base64 bytes) = some bytes)
    (kid : String) (s : Sealed) : (Blob.new P kid s).sealedKeyset P = some s := by
  simp [Blob.sealedKeyset, Blob.new, hbase64, s.nonce.length_eq]

/-- What was wrapped with a key is unwrapped with that key and nothing else, to what it was. -/
theorem Primitives.Binds.unwrapKey_iff (hP : P.Binds) {wrapping wrapping' key key' : SymmetricKey}
    {aad aad' : List UInt8} {nonce : Nonce} {s : Sealed}
    (h : wrapKey P wrapping key aad nonce = some s) :
    unwrapKey P wrapping' s aad' = some key' ↔ wrapping' = wrapping ∧ aad' = aad ∧ key' = key := by
  have hopen : ∀ {text}, openBytes P wrapping' s aad' = some text ↔
      wrapping' = wrapping ∧ aad' = aad ∧ text = key.bytes := hP.openBytes_iff h
  rw [unwrapKey, Option.bind_eq_some_iff]
  constructor
  · rintro ⟨bytes, hbytes, hkey⟩
    obtain ⟨rfl, rfl, rfl⟩ := hopen.mp hbytes
    rw [dif_pos key.length_eq] at hkey
    exact ⟨rfl, rfl, (Option.some_inj.mp hkey).symm⟩
  · rintro ⟨rfl, rfl, rfl⟩
    exact ⟨_, hopen.mpr ⟨rfl, rfl, rfl⟩, dif_pos key'.length_eq⟩

end Zvault.Crypto
