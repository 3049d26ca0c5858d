import Mathlib.Algebra.Ring.Nat
import Zvault.Crypto.Contexts
import Zvault.Json.Value

/-!
# Sealing

`vault.rs` of `zvault-crypto` over the cipher, and the blobs that ciphertexts
travel in. The cipher, the sharing boxes, base64 and the JSON reader are left
open; `Primitives.Correct` says that each reads what it wrote. What is drawn at
random is an argument.
-/

namespace Zvault.Crypto

structure SymmetricKey where
  bytes : List UInt8
  length_eq : bytes.length = 32
  deriving DecidableEq, Repr

structure Nonce where
  bytes : List UInt8
  length_eq : bytes.length = 24
  deriving DecidableEq, Repr

structure Sealed where
  nonce : Nonce
  ciphertext : List UInt8
  deriving DecidableEq, Repr

structure PublicKey where
  bytes : List UInt8
  length_eq : bytes.length = 32
  deriving DecidableEq, Repr

structure BoxedShare where
  ephemeralPublic : PublicKey
  sealed : Sealed
  deriving DecidableEq, Repr

/-- What is left open. -/
structure Primitives where
  encrypt : SymmetricKey → Nonce → List UInt8 → List UInt8 → Option (List UInt8)
  decrypt : SymmetricKey → Nonce → List UInt8 → List UInt8 → Option (List UInt8)
  /-- The public key of the sharing pair that is derived from a keyset key. -/
  publicKey : SymmetricKey → PublicKey
  /-- `wrap_key_to_member`, by the holder of a keyset key. -/
  wrapToMember : SymmetricKey → PublicKey → List UInt8 → SymmetricKey → ℕ → Option BoxedShare
  /-- `unwrap_key_from_member`, by the holder of a keyset key. -/
  unwrapFromMember : SymmetricKey → PublicKey → List UInt8 → BoxedShare → Option SymmetricKey
  base64 : List UInt8 → String
  unbase64 : String → Option (List UInt8)
  /-- `serde_json::to_vec`. -/
  toVec : Json.Value → Option (List UInt8)
  /-- `serde_json::from_slice`. -/
  fromSlice : List UInt8 → Option Json.Value

/-- Everything is read back as it was written, under equal keys and context. -/
structure Primitives.Correct (P : Primitives) : Prop where
  decrypt_encrypt : ∀ {key nonce aad text ct}, P.encrypt key nonce aad text = some ct →
    P.decrypt key nonce aad ct = some text
  unwrap_wrap : ∀ {me them aad key entropy boxed},
    P.wrapToMember me (P.publicKey them) aad key entropy = some boxed →
      P.unwrapFromMember them (P.publicKey me) aad boxed = some key
  unbase64_base64 : ∀ bytes, P.unbase64 (P.base64 bytes) = some bytes
  fromSlice_toVec : ∀ {v json}, P.toVec v = some json → P.fromSlice json = some v

variable (P : Primitives)

/-- `seal`. -/
def sealBytes (key : SymmetricKey) (text aad : List UInt8) (nonce : Nonce) : Option Sealed :=
  (P.encrypt key nonce aad text).map (⟨nonce, ·⟩)

/-- `open`. -/
def openBytes (key : SymmetricKey) (s : Sealed) (aad : List UInt8) : Option (List UInt8) :=
  P.decrypt key s.nonce aad s.ciphertext

def wrapKey (wrapping key : SymmetricKey) (aad : List UInt8) (nonce : Nonce) : Option Sealed :=
  sealBytes P wrapping key.bytes aad nonce

def unwrapKey (wrapping : SymmetricKey) (s : Sealed) (aad : List UInt8) : Option SymmetricKey :=
  (openBytes P wrapping s aad).bind fun bytes =>
    if h : bytes.length = 32 then some ⟨bytes, h⟩ else none

/-- `PAD_BLOCK`. -/
def padBlock : ℕ := 256

/-- `MAX_PLAINTEXT_LEN`. -/
def maxPlaintextLen : ℕ := 64 * 1024

/-- `LEN_PREFIX`. -/
def lenPrefix : ℕ := 4

/-- `u32::to_be_bytes`. -/
def toBeBytes (n : ℕ) : List UInt8 :=
  [.ofNat (n / 2 ^ 24), .ofNat (n / 2 ^ 16), .ofNat (n / 2 ^ 8), .ofNat n]

/-- `u32::from_be_bytes`. -/
def fromBeBytes (bytes : List UInt8) : ℕ := bytes.foldl (fun n b => 256 * n + b.toNat) 0

/-- The length of a plaintext, the plaintext, and zeros up to a multiple of the block. -/
def padded (text : List UInt8) : List UInt8 :=
  let paddedLen := (lenPrefix + text.length + (padBlock - 1)) / padBlock * padBlock
  toBeBytes text.length ++ text ++ List.replicate (paddedLen - (lenPrefix + text.length)) 0

/-- What padding is stripped from. -/
def unpadded (bytes : List UInt8) : Option (List UInt8) :=
  if bytes.length < lenPrefix then none
  else
    let len := fromBeBytes (bytes.take lenPrefix)
    if bytes.length - lenPrefix < len then none else some ((bytes.drop lenPrefix).take len)

def sealPadded (key : SymmetricKey) (text aad : List UInt8) (nonce : Nonce) : Option Sealed :=
  if maxPlaintextLen < text.length then none else sealBytes P key (padded text) aad nonce

def openPadded (key : SymmetricKey) (s : Sealed) (aad : List UInt8) : Option (List UInt8) :=
  (openBytes P key s aad).bind unpadded

/-- `CRYPTO_VERSION`. -/
def cryptoVersion : ℕ := 1

/-- `ALG`. -/
def alg : String := "xchacha20poly1305"

/-- `EncryptedBlob`. -/
structure Blob where
  v : ℕ
  alg : String
  kid : String
  nonce : String
  ct : String
  deriving DecidableEq, Repr

/-- `Blob::new` of the desktop app, and `blob_json` of the phone. -/
def Blob.new (kid : String) (s : Sealed) : Blob :=
  ⟨cryptoVersion, Crypto.alg, kid, P.base64 s.nonce.bytes, P.base64 s.ciphertext⟩

/-- `Blob::sealed`, which the apps have in the same words. -/
def Blob.sealed (b : Blob) (expectedKid : String) : Option Sealed :=
  if b.v ≠ cryptoVersion ∨ b.alg ≠ Crypto.alg ∨ b.kid ≠ expectedKid then none
  else do
    let nonce ← P.unbase64 b.nonce
    let ciphertext ← P.unbase64 b.ct
    if h : nonce.length = 24 then some ⟨⟨nonce, h⟩, ciphertext⟩ else none

/-- `decode_key`. -/
def decodeKey (s : String) : Option PublicKey :=
  (P.unbase64 s).bind fun bytes => if h : bytes.length = 32 then some ⟨bytes, h⟩ else none

/-- `canonical_id`: the only text of an id that is taken is the one it is written as. -/
def canonicalId (id : String) : Option String :=
  (uuidBytes id).bind fun bytes =>
    if h : bytes.length = 16 then if (Uuid.mk bytes h).hyphenated = id then some id else none
    else none

theorem canonicalId_eq_some {id id' : String} (h : canonicalId id = some id') : id' = id := by
  unfold canonicalId at h
  obtain ⟨bytes, -, h⟩ := Option.bind_eq_some_iff.mp h
  split_ifs at h
  exact (Option.some_inj.mp h).symm

@[simp] theorem canonicalId_hyphenated (id : Uuid) :
    canonicalId id.hyphenated = some id.hyphenated := by
  simp [canonicalId, uuidBytes_hyphenated, id.length_eq]

/-- The length of a plaintext is read back. -/
theorem fromBeBytes_toBeBytes {n : ℕ} (h : n < 2 ^ 32) : fromBeBytes (toBeBytes n) = n := by
  simp only [toBeBytes, fromBeBytes, List.foldl_cons, List.foldl_nil, UInt8.toNat_ofNat']
  omega

theorem unpadded_append {text : List UInt8} (h : text.length < 2 ^ 32) (zeros : List UInt8) :
    unpadded (toBeBytes text.length ++ text ++ zeros) = some text := by
  have hlength : (toBeBytes text.length).length = lenPrefix := rfl
  have htake : (toBeBytes text.length ++ text ++ zeros).take lenPrefix =
      toBeBytes text.length := by
    rw [List.append_assoc, ← hlength, List.take_left]
  have hdrop : (toBeBytes text.length ++ text ++ zeros).drop lenPrefix = text ++ zeros := by
    rw [List.append_assoc, ← hlength, List.drop_left]
  simp only [unpadded, htake, hdrop, fromBeBytes_toBeBytes h, List.take_left, List.length_append,
    hlength]
  rw [if_neg (by omega), if_neg (by omega)]

/-- Padding is stripped from what was padded. -/
theorem unpadded_padded {text : List UInt8} (h : text.length < 2 ^ 32) :
    unpadded (padded text) = some text :=
  unpadded_append h _

variable {P}

section Correct

variable (hP : P.Correct)
include hP

theorem openBytes_sealBytes {key : SymmetricKey} {text aad : List UInt8} {nonce : Nonce}
    {s : Sealed} (h : sealBytes P key text aad nonce = some s) :
    openBytes P key s aad = some text := by
  obtain ⟨ct, hct, rfl⟩ := Option.map_eq_some_iff.mp h
  exact hP.decrypt_encrypt hct

theorem unwrapKey_wrapKey {wrapping key : SymmetricKey} {aad : List UInt8} {nonce : Nonce}
    {s : Sealed} (h : wrapKey P wrapping key aad nonce = some s) :
    unwrapKey P wrapping s aad = some key := by
  rw [unwrapKey, openBytes_sealBytes hP h, Option.bind_some, dif_pos key.length_eq]

theorem openPadded_sealPadded {key : SymmetricKey} {text aad : List UInt8} {nonce : Nonce}
    {s : Sealed} (h : sealPadded P key text aad nonce = some s) :
    openPadded P key s aad = some text := by
  unfold sealPadded at h
  split_ifs at h with hlarge
  rw [openPadded, openBytes_sealBytes hP h, Option.bind_some]
  refine unpadded_padded ?_
  unfold maxPlaintextLen at hlarge
  omega

theorem Blob.sealed_new (kid : String) (s : Sealed) : (Blob.new P kid s).sealed P kid = some s := by
  simp [Blob.sealed, Blob.new, hP.unbase64_base64, s.nonce.length_eq]

end Correct

end Zvault.Crypto
