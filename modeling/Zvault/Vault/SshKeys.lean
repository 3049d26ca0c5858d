import Zvault.Vault.Items

/-!
# SSH keys of items

`zvault-ssh`: how a key is made, imported, renamed and shown. The `ssh-key` crate,
which reads and writes OpenSSH keys, is left open; `SshCrate.Lawful` says what is
known of it.
-/

namespace Zvault.Vault

open Text (trim)

inductive EcdsaCurve where
  | nistP256
  | nistP384
  | nistP521
  deriving DecidableEq, Repr

/-- `KeypairData`, without the numbers of the keys. -/
inductive KeypairKind where
  | ed25519
  | ecdsa (curve : EcdsaCurve)
  | rsa (bits : ℕ)
  | encrypted
  | other
  deriving DecidableEq, Repr

/-- `ssh_key::PrivateKey`: a key pair and its comment. -/
structure PrivateKey (D : Type) where
  data : D
  comment : String
  deriving DecidableEq, Repr

/-- What is left open of `ssh-key`. -/
structure SshCrate (D : Type) where
  kind : D → KeypairKind
  fromOpenssh : String → Option (PrivateKey D)
  toOpenssh : PrivateKey D → Option String
  decrypt : PrivateKey D → String → Option (PrivateKey D)
  /-- The Ed25519 key that `PrivateKey::random` draws. -/
  random : Option (PrivateKey D)
  /-- `PublicKey::to_openssh`. -/
  publicOpenssh : PrivateKey D → Option String
  fingerprint : D → String
  /-- The public key in wire format. -/
  blob : D → Option (List UInt8)

/-- `MAX_PRIVATE_KEY`, in bytes. -/
def maxPrivateKey : ℕ := 16 * 1024

def maxComment : ℕ := 256

def minRsaBits : ℕ := 2048

/-- `char::is_control`. -/
def isControl (c : Char) : Bool := c.toNat < 32 || (127 ≤ c.toNat && c.toNat < 160)

def cleanComment (comment : String) : Option String :=
  let c := (trim comment).toList.map fun ch => if isControl ch then ' ' else ch
  if maxComment < c.length then none else some (String.ofList c)

def KeypairKind.isSupported : KeypairKind → Bool
  | .ed25519 => true
  | .ecdsa curve => curve = .nistP256 || curve = .nistP384
  | .rsa bits => minRsaBits ≤ bits
  | _ => false

def keyType : KeypairKind → String
  | .ed25519 => "Ed25519"
  | .ecdsa .nistP256 => "ECDSA P-256"
  | .ecdsa .nistP384 => "ECDSA P-384"
  | .ecdsa .nistP521 => "ECDSA P-521"
  | .rsa bits => "RSA " ++ toString bits
  | _ => "SSH"

variable {D : Type} (S : SshCrate D)

/-- `SshKey::from_key`. -/
def SshKey.fromKey (key : PrivateKey D) (now : ℤ) : Option SshKey :=
  (S.toOpenssh key).map (⟨·, now⟩)

/-- `SshKey::generate`. -/
def SshKey.generate (comment : String) (now : ℤ) : Option SshKey := do
  let key ← S.random
  let comment ← cleanComment comment
  SshKey.fromKey S { key with comment } now

def checkSupported (key : PrivateKey D) : Option (PrivateKey D) :=
  if (S.kind key.data).isSupported then some key else none

/-- An imported key without its passphrase. -/
def decrypted (parsed : PrivateKey D) (passphrase : String) : Option (PrivateKey D) :=
  if S.kind parsed.data ≠ .encrypted then some parsed
  else if passphrase.isEmpty then none
  else S.decrypt parsed passphrase

/-- `SshKey::import`. An empty comment keeps the key's own. -/
def SshKey.importKey (pem passphrase comment : String) (now : ℤ) : Option SshKey :=
  let pem := trim pem
  if pem.isEmpty || maxPrivateKey < pem.utf8ByteSize then none
  else do
    let parsed ← S.fromOpenssh pem
    let key ← decrypted S parsed passphrase
    let key ← checkSupported S key
    let comment ← cleanComment comment
    SshKey.fromKey S (if comment.isEmpty then key else { key with comment }) now

namespace SshKey

variable (k : SshKey)

/-- The private key that is stored. -/
def key : Option (PrivateKey D) :=
  (S.fromOpenssh k.privateKey).bind fun key =>
    if S.kind key.data = .encrypted then none else checkSupported S key

def validate : Bool := (k.key S).isSome

/-- `SshKey::set_comment`. -/
def setComment (comment : String) : Option SshKey := do
  let key ← k.key S
  let comment ← cleanComment comment
  (S.toOpenssh { key with comment }).map ({ k with privateKey := · })

/-- `SshKey::public`. -/
def toPublic : Option SshPublicKey := do
  let key ← k.key S
  let publicKey ← S.publicOpenssh key
  let _ ← S.blob key.data
  return ⟨publicKey, S.fingerprint key.data, keyType (S.kind key.data), key.comment⟩

/-- A key that the UI sent to import or to be made. -/
def ofFields (k : SshKeyFields) (now : ℤ) : Option SshKey :=
  if (trim k.privateKey).isEmpty then generate S k.comment now
  else importKey S k.privateKey k.passphrase k.comment now

end SshKey

/-- A supported key is read as it was written, and its public key can be written; a fingerprint
begins with the name of its hash. -/
structure SshCrate.Lawful : Prop where
  fromOpenssh_toOpenssh : ∀ {key pem}, (S.kind key.data).isSupported = true →
    S.toOpenssh key = some pem → S.fromOpenssh pem = some key
  kind_random : ∀ key ∈ S.random, S.kind key.data = .ed25519
  publicOpenssh_isSome : ∀ key, (S.kind key.data).isSupported = true →
    (S.publicOpenssh key).isSome = true
  blob_isSome : ∀ data, (S.kind data).isSupported = true → (S.blob data).isSome = true
  trim_fingerprint : ∀ data, (trim (S.fingerprint data)).isEmpty = false

variable {S} {k k' : SshKey} {key : PrivateKey D} {comment : String} {now : ℤ}

theorem ne_encrypted_of_isSupported {kind : KeypairKind} (h : kind.isSupported = true) :
    kind ≠ .encrypted := by
  rintro rfl
  cases h

theorem checkSupported_eq_some {key' : PrivateKey D} : checkSupported S key = some key' ↔
    key = key' ∧ (S.kind key.data).isSupported = true := by
  simp [checkSupported, and_comm]

theorem SshKey.key_eq_some : k.key S = some key ↔
    S.fromOpenssh k.privateKey = some key ∧ (S.kind key.data).isSupported = true := by
  simp only [SshKey.key, Option.bind_eq_some_iff]
  constructor
  · rintro ⟨_, hread, h⟩
    split_ifs at h
    obtain ⟨rfl, hsupported⟩ := checkSupported_eq_some.mp h
    exact ⟨hread, hsupported⟩
  · rintro ⟨hread, hsupported⟩
    refine ⟨key, hread, ?_⟩
    rw [if_neg (ne_encrypted_of_isSupported hsupported)]
    exact checkSupported_eq_some.mpr ⟨rfl, hsupported⟩

section Lawful

variable (hS : S.Lawful)
include hS

/-- A key that is stored is the key that it was made of. -/
theorem SshKey.key_fromKey (hsupported : (S.kind key.data).isSupported = true)
    (h : fromKey S key now = some k) : k.key S = some key ∧ k.createdAt = now := by
  obtain ⟨pem, hpem, rfl⟩ := Option.map_eq_some_iff.mp h
  exact ⟨key_eq_some.mpr ⟨hS.fromOpenssh_toOpenssh hsupported hpem, hsupported⟩, rfl⟩

theorem SshKey.key_generate (h : generate S comment now = some k) :
    ∃ drawn cleaned, S.random = some drawn ∧ cleanComment comment = some cleaned ∧
      k.key S = some { drawn with comment := cleaned } := by
  simp only [generate, Option.bind_eq_bind, Option.bind_eq_some_iff] at h
  obtain ⟨drawn, hdrawn, cleaned, hcleaned, h⟩ := h
  have hkind : S.kind drawn.data = .ed25519 := hS.kind_random drawn hdrawn
  exact ⟨drawn, cleaned, hdrawn, hcleaned, (key_fromKey hS (by rw [hkind]; rfl) h).1⟩

theorem SshKey.key_importKey {pem passphrase : String}
    (h : importKey S pem passphrase comment now = some k) : ∃ key, k.key S = some key := by
  dsimp only [importKey] at h
  split at h
  · cases h
  · simp only [Option.bind_eq_bind, Option.bind_eq_some_iff] at h
    obtain ⟨parsed, -, key, -, checked, hchecked, cleaned, -, h⟩ := h
    obtain ⟨rfl, hsupported⟩ := checkSupported_eq_some.mp hchecked
    refine ⟨_, (key_fromKey hS ?_ h).1⟩
    split
    · exact hsupported
    · exact hsupported

/-- A key that is made or imported is read back. -/
theorem SshKey.validate_ofFields {f : SshKeyFields} (h : ofFields S f now = some k) :
    k.validate S = true := by
  rw [validate, Option.isSome_iff_exists]
  rw [ofFields] at h
  split at h
  · obtain ⟨_, _, -, -, hkey⟩ := key_generate hS h
    exact ⟨_, hkey⟩
  · exact key_importKey hS h

/-- A key pair keeps its numbers and the time it was made at when it is renamed. -/
theorem SshKey.key_setComment (hkey : k.key S = some key)
    (h : k.setComment S comment = some k') :
    ∃ cleaned, cleanComment comment = some cleaned ∧
      k'.key S = some { key with comment := cleaned } ∧ k'.createdAt = k.createdAt := by
  simp only [setComment, hkey, Option.bind_eq_bind, Option.bind_some, Option.bind_eq_some_iff,
    Option.map_eq_some_iff] at h
  obtain ⟨cleaned, hcleaned, pem, hpem, rfl⟩ := h
  have hsupported : (S.kind key.data).isSupported = true := (key_eq_some.mp hkey).2
  exact ⟨cleaned, hcleaned,
    key_eq_some.mpr ⟨hS.fromOpenssh_toOpenssh hsupported hpem, hsupported⟩, rfl⟩

/-- What is shown of a stored key. -/
theorem SshKey.toPublic_of_key (hkey : k.key S = some key) : ∃ publicKey,
    k.toPublic S = some
      ⟨publicKey, S.fingerprint key.data, keyType (S.kind key.data), key.comment⟩ := by
  have hsupported : (S.kind key.data).isSupported = true := (key_eq_some.mp hkey).2
  obtain ⟨publicKey, hpublic⟩ := Option.isSome_iff_exists.mp (hS.publicOpenssh_isSome key hsupported)
  obtain ⟨blob, hblob⟩ := Option.isSome_iff_exists.mp (hS.blob_isSome key.data hsupported)
  exact ⟨publicKey, by simp [toPublic, hkey, hpublic, hblob]⟩

end Lawful

end Zvault.Vault
