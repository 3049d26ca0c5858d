import Zvault.Crypto.Padding

/-!
# Shares

`share.rs` of `zvault-crypto`, and `access.rs`, which seals in the same boxes. X25519,
HKDF-SHA256 and SHA-256 are left open beside the cipher. Fingerprints are left out.
-/

namespace Zvault.Crypto

open Bytes (utf8)

/-- What a share is derived with. -/
structure Derivations where
  /-- HKDF-SHA256 to 32 bytes: of a salt, a key and an info. -/
  hkdf : Option (List UInt8) → List UInt8 → List UInt8 → SymmetricKey
  sha256 : List UInt8 → List UInt8
  length_sha256 : ∀ bytes, (sha256 bytes).length = 32
  /-- X25519: the public half of a secret. -/
  publicOf : SymmetricKey → PublicKey
  /-- X25519: what a secret and somebody's public key agree on. -/
  agreed : SymmetricKey → PublicKey → SymmetricKey

/-- Both sides of an agreement come to the same result. -/
def Derivations.Agree (D : Derivations) : Prop :=
  ∀ a b, D.agreed a (D.publicOf b) = D.agreed b (D.publicOf a)

variable (P : Primitives) (D : Derivations)

/-- A link's public id (a share id is 16 bytes, as a UUID is), and the key in its fragment. -/
structure LinkShare where
  id : Uuid
  key : SymmetricKey
  deriving DecidableEq, Repr

namespace LinkShare

def derive (l : LinkShare) (info : List UInt8) : SymmetricKey :=
  D.hkdf (some l.id.bytes) l.key.bytes info

/-- Proves knowledge of the link key to the server. -/
def accessToken (l : LinkShare) : SymmetricKey := l.derive D (utf8 "zvault/v1/share-link/auth")

/-- What the server stores to check access tokens. -/
def verifier (l : LinkShare) : List UInt8 := D.sha256 (l.accessToken D).bytes

def encKey (l : LinkShare) : SymmetricKey := l.derive D (utf8 "zvault/v1/share-link/enc")

def aad (l : LinkShare) : List UInt8 := idAad "zvault/v1/share-link:" l.id

def sealText (l : LinkShare) (text : List UInt8) (nonce : Nonce) : Option Sealed :=
  sealBytes P (l.encKey D) text l.aad nonce

def openText (l : LinkShare) (s : Sealed) : Option (List UInt8) := openBytes P (l.encKey D) s l.aad

end LinkShare

/-- An X25519 key pair, by its secret. -/
structure SharingKeyPair where
  secret : SymmetricKey
  deriving DecidableEq, Repr

namespace SharingKeyPair

/-- Every device that is signed in to an account gets the same pair. -/
def deriveFromKeyset (keyset : SymmetricKey) : SharingKeyPair :=
  ⟨D.hkdf none keyset.bytes (utf8 "zvault/sharing-x25519/v1")⟩

def publicKey (pair : SharingKeyPair) : PublicKey := D.publicOf pair.secret

end SharingKeyPair

/-- Bound to all three public keys. -/
def boxKey (info : List UInt8) (dhEphemeral dhStatic : SymmetricKey)
    (ephemeral sender recipient : PublicKey) : SymmetricKey :=
  D.hkdf (some (ephemeral.bytes ++ sender.bytes ++ recipient.bytes))
    (dhEphemeral.bytes ++ dhStatic.bytes) info

/-- Low-order points, which would make the shared secret all zeros, are refused. -/
def diffieHellman (secret : SymmetricKey) (key : PublicKey) : Option SymmetricKey :=
  let shared := D.agreed secret key
  if shared.bytes = List.replicate 32 0 then none else some shared

def sealBox (info aad : List UInt8) (sender : SharingKeyPair) (recipient : PublicKey)
    (text : List UInt8) (ephemeral : SharingKeyPair) (nonce : Nonce) : Option BoxedShare := do
  let dhEphemeral ← diffieHellman D ephemeral.secret recipient
  let dhStatic ← diffieHellman D sender.secret recipient
  let key := boxKey D info dhEphemeral dhStatic (ephemeral.publicKey D) (sender.publicKey D)
    recipient
  let s ← sealBytes P key text aad nonce
  return ⟨ephemeral.publicKey D, s⟩

def openBox (info aad : List UInt8) (recipient : SharingKeyPair) (sender : PublicKey)
    (boxed : BoxedShare) : Option (List UInt8) := do
  let dhEphemeral ← diffieHellman D recipient.secret boxed.ephemeralPublic
  let dhStatic ← diffieHellman D recipient.secret sender
  let key := boxKey D info dhEphemeral dhStatic boxed.ephemeralPublic sender
    (recipient.publicKey D)
  openBytes P key boxed.sealed aad

/-- The kinds of boxes. -/
inductive BoxKind where
  /-- `BOX_INFO` of `share.rs`. -/
  | share
  /-- `WRAP_INFO` of `access.rs`. -/
  | memberKey
  /-- `RELEASE_INFO`. -/
  | release
  deriving DecidableEq, Repr

def BoxKind.info : BoxKind → List UInt8
  | .share => utf8 "zvault/v1/share-box"
  | .memberKey => utf8 "zvault/v1/member-key-wrap"
  | .release => utf8 "zvault/v1/access-release"

/-- `seal_to`. -/
def sealTo (sender : SharingKeyPair) (recipient : PublicKey) (shareId : Uuid) (text : List UInt8)
    (ephemeral : SharingKeyPair) (nonce : Nonce) : Option BoxedShare :=
  sealBox P D BoxKind.share.info (idAad "zvault/v1/share-box:" shareId) sender recipient text
    ephemeral nonce

/-- `open_from`. -/
def openFrom (recipient : SharingKeyPair) (sender : PublicKey) (shareId : Uuid)
    (boxed : BoxedShare) : Option (List UInt8) :=
  openBox P D BoxKind.share.info (idAad "zvault/v1/share-box:" shareId) recipient sender boxed

/-- `wrap_key_to_member`. -/
def wrapKeyToMember (wrapper : SharingKeyPair) (recipient : PublicKey) (aad : List UInt8)
    (key : SymmetricKey) (ephemeral : SharingKeyPair) (nonce : Nonce) : Option BoxedShare :=
  sealBox P D BoxKind.memberKey.info aad wrapper recipient key.bytes ephemeral nonce

/-- `unwrap_key_from_member`. -/
def unwrapKeyFromMember (recipient : SharingKeyPair) (wrapper : PublicKey) (aad : List UInt8)
    (wrapped : BoxedShare) : Option SymmetricKey :=
  (openBox P D BoxKind.memberKey.info aad recipient wrapper wrapped).bind fun bytes =>
    if h : bytes.length = 32 then some ⟨bytes, h⟩ else none

/-- `seal_release`. -/
def sealRelease (approver : SharingKeyPair) (requester : PublicKey) (requestId : Uuid)
    (text : List UInt8) (ephemeral : SharingKeyPair) (nonce : Nonce) : Option BoxedShare :=
  sealBox P D BoxKind.release.info (idAad "zvault/v1/access-release:" requestId) approver requester
    text ephemeral nonce

/-- `open_release`. -/
def openRelease (requester : SharingKeyPair) (approver : PublicKey) (requestId : Uuid)
    (released : BoxedShare) : Option (List UInt8) :=
  openBox P D BoxKind.release.info (idAad "zvault/v1/access-release:" requestId) requester approver
    released

/-- The cipher reads what it wrote, and nothing under another key or other data. -/
structure Primitives.Binds (P : Primitives) : Prop where
  decrypt_encrypt : ∀ {key nonce aad text ct}, P.encrypt key nonce aad text = some ct →
    P.decrypt key nonce aad ct = some text
  decrypt_only : ∀ {key key' nonce aad aad' text text' ct}, P.encrypt key nonce aad text = some ct →
    P.decrypt key' nonce aad' ct = some text' → key' = key ∧ aad' = aad

variable {P D}

theorem Primitives.Binds.openBytes_iff (hP : P.Binds) {key key' : SymmetricKey}
    {text text' aad aad' : List UInt8} {nonce : Nonce} {s : Sealed}
    (h : sealBytes P key text aad nonce = some s) :
    openBytes P key' s aad' = some text' ↔ key' = key ∧ aad' = aad ∧ text' = text := by
  obtain ⟨ct, hct, rfl⟩ := Option.map_eq_some_iff.mp h
  have hopen := hP.decrypt_encrypt hct
  constructor
  · intro h'
    obtain ⟨rfl, rfl⟩ := hP.decrypt_only hct h'
    exact ⟨rfl, rfl, Option.some_inj.mp (h'.symm.trans hopen)⟩
  · rintro ⟨rfl, rfl, rfl⟩
    exact hopen

/-- The link that sealed a text opens it. -/
theorem LinkShare.openText_sealText (hP : P.Binds) {l : LinkShare} {text : List UInt8}
    {nonce : Nonce} {s : Sealed} (h : l.sealText P D text nonce = some s) :
    l.openText P D s = some text :=
  (hP.openBytes_iff h).mpr ⟨rfl, rfl, rfl⟩

/-- The key that a box is sealed with. -/
def sealingKey (D : Derivations) (info : List UInt8) (sender : SharingKeyPair)
    (recipient : PublicKey) (ephemeral : SharingKeyPair) : Option SymmetricKey :=
  (diffieHellman D ephemeral.secret recipient).bind fun dhEphemeral =>
    (diffieHellman D sender.secret recipient).map fun dhStatic =>
      boxKey D info dhEphemeral dhStatic (ephemeral.publicKey D) (sender.publicKey D) recipient

/-- The key that a recipient tries on a box. -/
def openingKey (D : Derivations) (info : List UInt8) (recipient : SharingKeyPair)
    (sender ephemeral : PublicKey) : Option SymmetricKey :=
  (diffieHellman D recipient.secret ephemeral).bind fun dhEphemeral =>
    (diffieHellman D recipient.secret sender).map fun dhStatic =>
      boxKey D info dhEphemeral dhStatic ephemeral sender (recipient.publicKey D)

section Boxes

variable {info info' aad aad' text text' : List UInt8} {sender me ephemeral : SharingKeyPair}
  {recipient sender' : PublicKey} {nonce : Nonce} {boxed : BoxedShare}

theorem sealBox_eq_some_iff :
    sealBox P D info aad sender recipient text ephemeral nonce = some boxed ↔
      ∃ key s, sealingKey D info sender recipient ephemeral = some key ∧
        sealBytes P key text aad nonce = some s ∧ boxed = ⟨ephemeral.publicKey D, s⟩ := by
  simp only [sealBox, sealingKey, Option.bind_eq_bind, Option.bind_eq_some_iff,
    Option.map_eq_some_iff, Option.pure_def, Option.some_inj]
  constructor
  · rintro ⟨e, he, st, hst, s, hs, rfl⟩
    exact ⟨_, s, ⟨e, he, st, hst, rfl⟩, hs, rfl⟩
  · rintro ⟨_, s, ⟨e, he, st, hst, rfl⟩, hs, rfl⟩
    exact ⟨e, he, st, hst, s, hs, rfl⟩

theorem openBox_eq (info aad : List UInt8) (me : SharingKeyPair) (sender : PublicKey)
    (boxed : BoxedShare) : openBox P D info aad me sender boxed =
      (openingKey D info me sender boxed.ephemeralPublic).bind fun key =>
        openBytes P key boxed.sealed aad := by
  simp only [openBox, openingKey, Option.bind_eq_bind, Option.bind_assoc, Option.bind_map]
  rfl

theorem diffieHellman_agree (hD : D.Agree) (a b : SharingKeyPair) :
    diffieHellman D a.secret (b.publicKey D) = diffieHellman D b.secret (a.publicKey D) := by
  unfold diffieHellman SharingKeyPair.publicKey
  rw [hD]

/-- The recipient comes to the key that the sender sealed with. -/
theorem openingKey_eq_sealingKey (hD : D.Agree) :
    openingKey D info me (sender.publicKey D) (ephemeral.publicKey D) =
      sealingKey D info sender (me.publicKey D) ephemeral := by
  unfold openingKey sealingKey
  rw [diffieHellman_agree hD me ephemeral, diffieHellman_agree hD me sender]

/-- **What opens a box.** Unless HKDF has a collision between the key it was sealed with and the
one that is tried, a box opens exactly for its kind and data, with the recipient's key pair and
the sender's public key, and gives what was sealed. -/
theorem openBox_iff (hP : P.Binds) (hD : D.Agree)
    (hseal : sealBox P D info aad sender recipient text ephemeral nonce = some boxed)
    (hfree : openingKey D info' me sender' (ephemeral.publicKey D) =
        sealingKey D info sender recipient ephemeral →
      info' = info ∧ sender' = sender.publicKey D ∧ me.publicKey D = recipient) :
    openBox P D info' aad' me sender' boxed = some text' ↔
      info' = info ∧ aad' = aad ∧ me.publicKey D = recipient ∧ sender' = sender.publicKey D ∧
        text' = text := by
  obtain ⟨key, s, hkey, hs, rfl⟩ := sealBox_eq_some_iff.mp hseal
  rw [openBox_eq, Option.bind_eq_some_iff]
  constructor
  · rintro ⟨key', hkey', hopen⟩
    obtain ⟨rfl, rfl, rfl⟩ := (hP.openBytes_iff hs).mp hopen
    obtain ⟨rfl, rfl, rfl⟩ := hfree (hkey'.trans hkey.symm)
    exact ⟨rfl, rfl, rfl, rfl, rfl⟩
  · rintro ⟨rfl, rfl, rfl, rfl, rfl⟩
    exact ⟨key, (openingKey_eq_sealingKey hD).trans hkey, (hP.openBytes_iff hs).mpr ⟨rfl, rfl, rfl⟩⟩

/-- A box opens for the one it was sealed to. -/
theorem openBox_sealBox (hP : P.Binds) (hD : D.Agree)
    (hseal : sealBox P D info aad sender (me.publicKey D) text ephemeral nonce = some boxed) :
    openBox P D info aad me (sender.publicKey D) boxed = some text :=
  (openBox_iff hP hD hseal fun _ => ⟨rfl, rfl, rfl⟩).mpr ⟨rfl, rfl, rfl, rfl, rfl⟩

end Boxes

section Marking

/-- A byte string with a mark before each byte and one at the end, so that it can be told from what
follows it. -/
def marked : List UInt8 → List UInt8
  | [] => [0]
  | b :: bytes => 1 :: b :: marked bytes

theorem marked_append_inj {bytes bytes' rest rest' : List UInt8}
    (h : marked bytes ++ rest = marked bytes' ++ rest') : bytes = bytes' ∧ rest = rest' := by
  induction bytes generalizing bytes' with
  | nil =>
    cases bytes' with
    | nil => exact ⟨rfl, List.append_cancel_left h⟩
    | cons b' bytes' => simp [marked] at h
  | cons b bytes ih =>
    cases bytes' with
    | nil => simp [marked] at h
    | cons b' bytes' =>
      simp only [marked, List.cons_append, List.cons.injEq, true_and] at h
      obtain ⟨rfl, h⟩ := h
      obtain ⟨rfl, rfl⟩ := ih h
      exact ⟨rfl, rfl⟩

/-- A cipher that writes its key and its data before the text. -/
def marking : Primitives :=
  { tagging with
    encrypt := fun key _ aad text => some (key.bytes ++ marked aad ++ text)
    decrypt := fun key _ aad ct =>
      if (key.bytes ++ marked aad).isPrefixOf ct then
        some (ct.drop (key.bytes ++ marked aad).length)
      else none }

theorem marking_binds : marking.Binds where
  decrypt_encrypt {key nonce aad text ct} h := by
    obtain rfl := Option.some_inj.mp h
    change (if _ then some (List.drop _ _) else none) = _
    rw [if_pos (List.isPrefixOf_iff_prefix.mpr (List.prefix_append _ _)), List.drop_left]
  decrypt_only {key key' nonce aad aad' text text' ct} h h' := by
    obtain rfl := Option.some_inj.mp h
    change (if _ then some (List.drop _ _) else none) = _ at h'
    split at h'
    · rename_i hprefix
      obtain ⟨rest, hrest⟩ := List.isPrefixOf_iff_prefix.mp hprefix
      simp only [List.append_assoc] at hrest
      obtain ⟨hkey, hrest⟩ := List.append_inj hrest (by rw [key.length_eq, key'.length_eq])
      obtain ⟨rfl, -⟩ := marked_append_inj hrest
      cases key
      cases key'
      obtain rfl := hkey
      exact ⟨rfl, rfl⟩
    · cases h'

/-- Keys that are added up, in place of X25519 and HKDF. -/
def mixing : Derivations where
  hkdf _ key info := ⟨(key ++ info ++ List.replicate 32 0).take 32, by
    simp only [List.length_take, List.length_append, List.length_replicate]
    omega⟩
  sha256 bytes := (bytes ++ List.replicate 32 0).take 32
  length_sha256 bytes := by
    simp only [List.length_take, List.length_append, List.length_replicate]
    omega
  publicOf secret := ⟨secret.bytes, secret.length_eq⟩
  agreed secret key := ⟨List.zipWith (· + ·) secret.bytes key.bytes, by
    rw [List.length_zipWith, secret.length_eq, key.length_eq, Nat.min_self]⟩

theorem mixing_agree : mixing.Agree := by
  intro a b
  have hbytes : List.zipWith (· + ·) a.bytes b.bytes = List.zipWith (· + ·) b.bytes a.bytes :=
    List.zipWith_comm_of_comm fun x y => UInt8.add_comm x y
  simp only [mixing, SymmetricKey.mk.injEq]
  exact hbytes

end Marking

end Zvault.Crypto
