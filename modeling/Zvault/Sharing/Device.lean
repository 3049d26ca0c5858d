import Zvault.Bytes.Base64
import Zvault.Crypto.Shares

/-!
# Shares on the device

`sharing.rs` of the desktop app: what is made for the API to store, and how a share
that was sent is opened. The phone's `api/sharing.rs` does the same. Fingerprints and
the mail that a link is sent with are left out.
-/

namespace Zvault

open Crypto

variable (P : Primitives) (D : Derivations)

/-- Base64url without padding. -/
def b64 (bytes : List UInt8) : String := String.ofList (Base64.encode bytes)

def unb64 (s : String) : Option (List UInt8) := Base64.decode s.toList

/-- `String::from_utf8`. -/
def textOf (bytes : List UInt8) : Option String := String.fromUTF8? ⟨bytes.toArray⟩

/-- `WireBlob::from_sealed`. -/
def WireBlob.fromSealed (kid : String) (s : Sealed) : Blob :=
  ⟨cryptoVersion, Crypto.alg, kid, b64 s.nonce.bytes, b64 s.ciphertext⟩

/-- `WireBlob::to_sealed`. -/
def WireBlob.toSealed (b : Blob) (kid : String) : Option Sealed :=
  if b.v ≠ cryptoVersion ∨ b.alg ≠ Crypto.alg ∨ b.kid ≠ kid then none
  else do
    let nonce ← unb64 b.nonce
    if h : nonce.length = 24 then
      let ciphertext ← unb64 b.ct
      some ⟨⟨nonce, h⟩, ciphertext⟩
    else none

/-- `decode_array` of a public key. -/
def decodePublicKey (s : String) : Option Crypto.PublicKey :=
  (unb64 s).bind fun bytes => if h : bytes.length = 32 then some ⟨bytes, h⟩ else none

/-- `decode_array` of a share id. -/
def decodeShareId (s : String) : Option Crypto.Uuid :=
  (unb64 s).bind fun bytes => if h : bytes.length = 16 then some ⟨bytes, h⟩ else none

/-- `trim_end_matches('/')`. -/
def trimSlashes (origin : List Char) : List Char :=
  (origin.reverse.dropWhile (· = '/')).reverse

/-- Share pages may only be served over HTTPS, or from localhost in development. -/
def checkOrigin (origin : List Char) : Option (List Char) :=
  let origin := trimSlashes origin
  let ok := "https://".toList.isPrefixOf origin || "http://localhost:".toList.isPrefixOf origin ||
    origin = "http://localhost".toList
  if !ok || origin.any fun c => c = '#' || c = '?' || c = ' ' then none else some origin

structure NewShareLink where
  id : String
  verifier : String
  blob : Blob
  /-- Contains the link key in its fragment. -/
  url : List Char
  deriving DecidableEq, Repr

/-- Encrypts a payload under a fresh link key and builds its URL. -/
def shareLinkCreate (payload : String) (shareOrigin : List Char) (link : LinkShare)
    (nonce : Nonce) : Option NewShareLink := do
  let origin ← checkOrigin shareOrigin
  let s ← link.sealText P D (Bytes.utf8 payload) nonce
  let id := b64 link.id.bytes
  return {
    url := origin ++ "/#".toList ++ id.toList ++ '.' :: (b64 link.key.bytes).toList
    verifier := b64 (link.verifier D)
    blob := WireBlob.fromSealed "share-link" s
    id }

structure NewUserShare where
  id : String
  senderPublicKey : String
  ephemeralPublicKey : String
  blob : Blob
  deriving DecidableEq, Repr

/-- Encrypts a payload to another user's sharing key. -/
def shareSealTo (me : SharingKeyPair) (recipientPublicKey payload : String) (id : Crypto.Uuid)
    (ephemeral : SharingKeyPair) (nonce : Nonce) : Option NewUserShare := do
  let recipient ← decodePublicKey recipientPublicKey
  let boxed ← sealTo P D me recipient id (Bytes.utf8 payload) ephemeral nonce
  return {
    id := b64 id.bytes
    senderPublicKey := b64 (me.publicKey D).bytes
    ephemeralPublicKey := b64 boxed.ephemeralPublic.bytes
    blob := WireBlob.fromSealed "share-box" boxed.sealed }

/-- Decrypts a share sent to this user. -/
def shareOpen (me : SharingKeyPair) (share : NewUserShare) : Option String := do
  let ephemeralPublic ← decodePublicKey share.ephemeralPublicKey
  let s ← WireBlob.toSealed share.blob "share-box"
  let sender ← decodePublicKey share.senderPublicKey
  let id ← decodeShareId share.id
  let text ← openFrom P D me sender id ⟨ephemeralPublic, s⟩
  textOf text

@[simp] theorem textOf_utf8 (s : String) : textOf (Bytes.utf8 s) = some s := by
  simp [textOf, Bytes.utf8, String.fromUTF8?, s.isValidUTF8, String.fromUTF8]

@[simp] theorem unb64_b64 (bytes : List UInt8) : unb64 (b64 bytes) = some bytes := by
  simp [unb64, b64, Base64.decode_encode]

theorem length_b64 (bytes : List UInt8) :
    (b64 bytes).toList.length = (4 * bytes.length + 2) / 3 := by
  simp [b64, Base64.length_encode]

@[simp] theorem decodePublicKey_b64 (key : Crypto.PublicKey) :
    decodePublicKey (b64 key.bytes) = some key := by
  simp [decodePublicKey, key.length_eq]

@[simp] theorem decodeShareId_b64 (id : Crypto.Uuid) : decodeShareId (b64 id.bytes) = some id := by
  simp [decodeShareId, id.length_eq]

@[simp] theorem WireBlob.toSealed_fromSealed (kid : String) (s : Sealed) :
    WireBlob.toSealed (WireBlob.fromSealed kid s) kid = some s := by
  simp [toSealed, fromSealed, s.nonce.length_eq]

variable {P D}

/-- The URL is the origin, and a fragment of the id and the key. -/
theorem shareLinkCreate_eq_some_iff {payload : String} {shareOrigin : List Char} {link : LinkShare}
    {nonce : Nonce} {new : NewShareLink} :
    shareLinkCreate P D payload shareOrigin link nonce = some new ↔
      ∃ origin s, checkOrigin shareOrigin = some origin ∧
        link.sealText P D (Bytes.utf8 payload) nonce = some s ∧
        new = ⟨b64 link.id.bytes, b64 (link.verifier D), WireBlob.fromSealed "share-link" s,
          origin ++ "/#".toList ++ (b64 link.id.bytes).toList ++ '.' ::
            (b64 link.key.bytes).toList⟩ := by
  simp only [shareLinkCreate, Option.bind_eq_bind, Option.bind_eq_some_iff, Option.pure_def,
    Option.some_inj, eq_comm (a := new), exists_and_left]

/-- The page is on an origin without a fragment. -/
theorem not_mem_of_checkOrigin {shareOrigin origin : List Char}
    (h : checkOrigin shareOrigin = some origin) : '#' ∉ origin := by
  unfold checkOrigin at h
  extract_lets origin' ok at h
  split at h
  · cases h
  · rename_i hok
    obtain rfl := Option.some_inj.mp h
    intro hmem
    simp only [Bool.or_eq_true, List.any_eq_true, not_or] at hok
    exact hok.2 ⟨'#', hmem, by decide⟩

/-- What was sealed to a user is opened by them, as coming from who sealed it. -/
theorem shareOpen_shareSealTo (hP : P.Binds) (hD : D.Agree) {sender me : SharingKeyPair}
    {payload : String} {id : Crypto.Uuid} {ephemeral : SharingKeyPair} {nonce : Nonce}
    {share : NewUserShare}
    (h : shareSealTo P D sender (b64 (me.publicKey D).bytes) payload id ephemeral nonce =
      some share) : shareOpen P D me share = some payload := by
  simp only [shareSealTo, decodePublicKey_b64, Option.bind_eq_bind, Option.bind_some,
    Option.bind_eq_some_iff, Option.pure_def, Option.some_inj] at h
  obtain ⟨boxed, hboxed, rfl⟩ := h
  have hopen : openFrom P D me (sender.publicKey D) id boxed = some (Bytes.utf8 payload) :=
    openBox_sealBox hP hD hboxed
  simp only [shareOpen, decodePublicKey_b64, WireBlob.toSealed_fromSealed, decodeShareId_b64,
    Option.bind_eq_bind, Option.bind_some, hopen, textOf_utf8]

end Zvault
