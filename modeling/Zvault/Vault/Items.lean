import Mathlib.Data.Int.Notation
import Zvault.Text.Trim

/-!
# Items of the vault

`vault.rs` of the desktop app: what an item holds, what the UI is given of it,
and what is sealed when it is edited; and the patches of `zv item edit`. What the
crates for one-time passwords, passkeys and SSH keys make of their inputs is left
open.
-/

namespace Zvault.Vault

open Text (trim)

/-- A stored passkey. -/
structure Passkey where
  rpId : String
  userName : String
  userHandle : String
  credentialId : String
  privateKey : String
  createdAt : ℤ
  deriving DecidableEq, Repr

/-- A passkey as the UI sees and edits it. The private key is for import only. -/
structure PasskeyFields where
  rpId : String
  userName : String
  userHandle : String
  credentialId : String
  publicKey : String
  createdAt : ℤ
  privateKey : String
  deriving DecidableEq, Repr

/-- A stored SSH key. Its comment is kept inside the private key. -/
structure SshKey where
  privateKey : String
  createdAt : ℤ
  deriving DecidableEq, Repr

structure SshPublicKey where
  publicKey : String
  fingerprint : String
  keyType : String
  comment : String
  deriving DecidableEq, Repr

/-- An SSH key as the UI sees and edits it. The private key and passphrase are for import only. -/
structure SshKeyFields where
  comment : String
  fingerprint : String
  publicKey : String
  keyType : String
  createdAt : ℤ
  privateKey : String
  passphrase : String
  deriving DecidableEq, Repr

/-- The contents of a login item, with its passkey and SSH key as they are stored or as they are
shown. -/
structure Contents (Pk Sk : Type) where
  title : String
  username : String
  password : String
  urls : List String
  notes : String
  totp : String
  passkey : Option Pk
  sshKey : Option Sk
  deriving DecidableEq, Repr

/-- What the UI sends and receives. -/
abbrev ItemFields := Contents PasskeyFields SshKeyFields

/-- What is sealed. -/
abbrev ItemPlaintext := Contents Passkey SshKey

/-- `ItemFields::default`. -/
def ItemFields.default : ItemFields := ⟨"", "", "", [], "", "", none, none⟩

/-- What is left open of the other crates. -/
structure Crates where
  /-- `Totp::parse`, and `to_uri` of the result. -/
  totpUri : String → Option String
  /-- `Passkey::validate`. -/
  validPasskey : Passkey → Bool
  /-- `Passkey::public_key`. -/
  publicKey : Passkey → Option String
  /-- `Passkey::generate` or `Passkey::import`. -/
  newPasskey : PasskeyFields → Option Passkey
  /-- `SshKey::validate`. -/
  validSshKey : SshKey → Bool
  /-- `SshKey::public`. -/
  sshPublic : SshKey → Option SshPublicKey
  /-- `SshKey::set_comment`. -/
  setComment : SshKey → String → Option SshKey
  /-- `SshKey::generate` or `SshKey::import`. -/
  newSshKey : SshKeyFields → Option SshKey

/-- Crates for items without a one-time password, a passkey or an SSH key. -/
def plainCrates : Crates :=
  ⟨fun _ => none, fun _ => false, fun _ => none, fun _ => none, fun _ => false, fun _ => none,
    fun _ _ => none, fun _ => none⟩

def maxUserName : ℕ := 256

/-- `user` of the passkeys. -/
def passkeyUser (name : String) : Option String :=
  let name := trim name
  if name.isEmpty || maxUserName < name.length then none else some name

/-- `Passkey::rename_user`. -/
def Passkey.renameUser (passkey : Passkey) (name : String) : Option Passkey :=
  (passkeyUser name).map fun userName => { passkey with userName }

variable (crates : Crates)

/-- `TryFrom<&Passkey>`. -/
def PasskeyFields.tryFrom (p : Passkey) : Option PasskeyFields :=
  (crates.publicKey p).map fun publicKey =>
    ⟨p.rpId, p.userName, p.userHandle, p.credentialId, publicKey, p.createdAt, ""⟩

/-- `TryFrom<&SshKey>`. -/
def SshKeyFields.tryFrom (k : SshKey) : Option SshKeyFields :=
  (crates.sshPublic k).map fun p =>
    ⟨p.comment, p.fingerprint, p.publicKey, p.keyType, k.createdAt, "", ""⟩

/-- A value that may be missing, and whose conversion may fail. -/
def transposed {α β : Type} (f : α → Option β) : Option α → Option (Option β)
  | none => some none
  | some a => (f a).map some

/-- `open_plaintext` of an item that decrypts. -/
def openPlaintext (p : ItemPlaintext) : Option ItemPlaintext :=
  if p.passkey.all crates.validPasskey && p.sshKey.all crates.validSshKey then some p else none

/-- `Keyring::open_item`. -/
def openItem (p : ItemPlaintext) : Option ItemFields := do
  let p ← openPlaintext crates p
  let passkey ← transposed (PasskeyFields.tryFrom crates) p.passkey
  let sshKey ← transposed (SshKeyFields.tryFrom crates) p.sshKey
  return { p with passkey, sshKey }

/-- One canonical form is stored, and a key that can't produce codes is refused. -/
def normalizeTotp (totp : String) : Option String :=
  if (trim totp).isEmpty then some "" else crates.totpUri totp

def normalize (fields : ItemFields) : Option ItemFields :=
  (normalizeTotp crates fields.totp).map fun totp => { fields with
    title := trim fields.title
    username := trim fields.username
    urls := (fields.urls.filter fun u => !(trim u).isEmpty).map trim
    totp }

/-- The passkey to store, from what the UI sent and what the item holds. -/
def resolvePasskey (stored : Option Passkey) (p : PasskeyFields) : Option Passkey :=
  if (trim p.privateKey).isEmpty then
    match stored.filter (·.credentialId = p.credentialId) with
    | some s => s.renameUser p.userName
    | none => if (trim p.credentialId).isEmpty then crates.newPasskey p else none
  else crates.newPasskey p

/-- The SSH key to store, from what the UI sent and what the item holds. -/
def resolveSshKey (stored : Option SshKey) (k : SshKeyFields) : Option SshKey :=
  if !(trim k.privateKey).isEmpty || (trim k.fingerprint).isEmpty then crates.newSshKey k
  else do
    let s ← stored
    let shown ← crates.sshPublic s
    if shown.fingerprint ≠ k.fingerprint then none
    else if shown.comment = trim k.comment then some s
    else crates.setComment s k.comment

/-- `Keyring::seal_item`: what is sealed, for an item that exists or a new one. -/
def sealItem (existing : Option ItemPlaintext) (fields : ItemFields) : Option ItemPlaintext := do
  let stored ← transposed (openPlaintext crates) existing
  let fields ← normalize crates fields
  let passkey ← transposed (resolvePasskey crates (stored.bind (·.passkey))) fields.passkey
  let sshKey ← transposed (resolveSshKey crates (stored.bind (·.sshKey))) fields.sshKey
  return { fields with passkey, sshKey }

structure ItemPatch where
  title : Option String
  username : Option String
  password : Option String
  urls : Option (List String)
  notes : Option String
  totp : Option String
  deriving DecidableEq, Repr

def applyPatch (fields : ItemFields) (patch : ItemPatch) : ItemFields :=
  { fields with
    title := patch.title.getD fields.title
    username := patch.username.getD fields.username
    password := patch.password.getD fields.password
    urls := patch.urls.getD fields.urls
    notes := patch.notes.getD fields.notes
    totp := patch.totp.getD fields.totp }

/-- An item that is the same when it is opened and sealed again. -/
def IsCanonical (p : ItemPlaintext) : Prop :=
  ∃ fields, openItem crates p = some fields ∧ sealItem crates (some p) fields = some p

/-- Every field that the patch does not name is the same. -/
structure ItemPatch.Keeps (patch : ItemPatch) (old new : ItemPlaintext) : Prop where
  title : patch.title = none → new.title = old.title
  username : patch.username = none → new.username = old.username
  password : patch.password = none → new.password = old.password
  urls : patch.urls = none → new.urls = old.urls
  notes : patch.notes = none → new.notes = old.notes
  totp : patch.totp = none → new.totp = old.totp
  passkey : new.passkey = old.passkey
  sshKey : new.sshKey = old.sshKey

variable {crates}

/-- What an item that is sealed consists of. -/
theorem sealItem_eq_some {existing : Option ItemPlaintext} {fields : ItemFields}
    {new : ItemPlaintext} (h : sealItem crates existing fields = some new) :
    new.title = trim fields.title ∧ new.username = trim fields.username ∧
      new.password = fields.password ∧
      new.urls = (fields.urls.filter fun u => !(trim u).isEmpty).map trim ∧
      new.notes = fields.notes ∧ normalizeTotp crates fields.totp = some new.totp ∧
      ∃ stored, transposed (openPlaintext crates) existing = some stored ∧
        transposed (resolvePasskey crates (stored.bind (·.passkey))) fields.passkey =
          some new.passkey ∧
        transposed (resolveSshKey crates (stored.bind (·.sshKey))) fields.sshKey =
          some new.sshKey := by
  simp only [sealItem, normalize, Option.bind_eq_bind, Option.bind_eq_some_iff,
    Option.map_eq_some_iff, Option.pure_def, Option.some_inj] at h
  obtain ⟨stored, hstored, _, ⟨totp, htotp, rfl⟩, passkey, hpasskey, sshKey, hsshKey, rfl⟩ := h
  exact ⟨rfl, rfl, rfl, rfl, rfl, htotp, stored, hstored, hpasskey, hsshKey⟩

/-- The one-time password setup of an item is not checked when it is opened. -/
theorem openPlaintext_totp (p : ItemPlaintext) (totp : String) :
    openPlaintext crates { p with totp } = (openPlaintext crates p).map ({ · with totp }) := by
  simp only [openPlaintext]
  split_ifs with hvalid
  · rfl
  · rfl

theorem openItem_totp (p : ItemPlaintext) (totp : String) :
    openItem crates { p with totp } = (openItem crates p).map ({ · with totp }) := by
  simp only [openItem, openPlaintext_totp, Option.bind_eq_bind, Option.bind_map, Option.map_bind,
    Function.comp_def, Option.pure_def, Option.map_some]

/-- Patching a canonical item keeps every field that the patch does not name. -/
theorem keeps_of_sealItem {p new : ItemPlaintext} {fields : ItemFields} {patch : ItemPatch}
    (hcanonical : IsCanonical crates p) (hopen : openItem crates p = some fields)
    (hseal : sealItem crates (some p) (applyPatch fields patch) = some new) :
    patch.Keeps p new := by
  obtain ⟨_, hopen', hsame⟩ := hcanonical
  obtain rfl := Option.some_inj.mp (hopen.symm.trans hopen')
  obtain ⟨htitle, husername, hpassword, hurls, hnotes, htotp, stored, hstored, hpasskey, hsshKey⟩ :=
    sealItem_eq_some hsame
  obtain ⟨htitle', husername', hpassword', hurls', hnotes', htotp', stored', hstored', hpasskey',
    hsshKey'⟩ := sealItem_eq_some hseal
  obtain rfl := Option.some_inj.mp (hstored.symm.trans hstored')
  constructor
  · intro hnone
    rw [htitle', htitle, applyPatch, hnone, Option.getD_none]
  · intro hnone
    rw [husername', husername, applyPatch, hnone, Option.getD_none]
  · intro hnone
    rw [hpassword', hpassword, applyPatch, hnone, Option.getD_none]
  · intro hnone
    rw [hurls', hurls, applyPatch, hnone, Option.getD_none]
  · intro hnone
    rw [hnotes', hnotes, applyPatch, hnone, Option.getD_none]
  · intro hnone
    rw [applyPatch, hnone, Option.getD_none] at htotp'
    exact Option.some_inj.mp (htotp'.symm.trans htotp)
  · exact Option.some_inj.mp (hpasskey'.symm.trans hpasskey)
  · exact Option.some_inj.mp (hsshKey'.symm.trans hsshKey)

end Zvault.Vault
