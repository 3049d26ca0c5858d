import Zvault.Crypto.Sealing
import Zvault.Vault.Items

/-!
# Records of vaults and projects

What the API stores of vaults, items, projects and key grants, as the desktop app
and the phone receive it, and the JSON that is inside.
-/

namespace Zvault.Keyrings

open Crypto
open Json (Value field asString asInt unlessNone)
open Vault (ItemPlaintext Passkey SshKey)

/-- `ACCOUNT_KID`. -/
def accountKid : String := "account"

/-- `MEMBER_KEY_WRAP_KID`. -/
def memberKeyWrapKid : String := "member-key-wrap"

/-- `ITEM_KIND_LOGIN`. -/
def itemKindLogin : String := "login"

structure VaultCipher where
  id : String
  encryptedKey : Blob
  encryptedMeta : Blob
  deriving DecidableEq, Repr

structure ItemCipher where
  id : String
  encryptedKey : Blob
  encryptedData : Blob
  deriving DecidableEq, Repr

structure ProjectCipher where
  id : String
  encryptedKey : Blob
  encryptedMeta : Blob
  deriving DecidableEq, Repr

/-- An environment. `encryptedKey` is the caller's grant, and is absent without access to values. -/
structure EnvironmentCipher where
  id : String
  encryptedMeta : Blob
  encryptedKey : Option Blob
  deriving DecidableEq, Repr

structure MemberKeyWrap where
  recipientId : String
  recipientPublicKey : String
  wrapperPublicKey : String
  ephemeralPublicKey : String
  blob : Blob
  deriving DecidableEq, Repr

/-- One of the caller's own wraps. The version is of environment keys only. -/
structure StoredMemberWrap where
  wrap : MemberKeyWrap
  keyVersion : Option ℕ
  deriving DecidableEq, Repr

inductive EntryKind where
  | folder
  | secret
  deriving DecidableEq, Repr

/-- `EntryKind::aad`. -/
def EntryKind.aad (kind : EntryKind) (projectId id : String) : List UInt8 :=
  match kind with
  | .folder => folderMetaAad projectId id
  | .secret => secretMetaAad projectId id

/-- How `zvault_passkeys::Passkey` is written. -/
def passkeyJson (p : Passkey) : Value :=
  .obj [("rpId", .str p.rpId), ("userName", .str p.userName), ("userHandle", .str p.userHandle),
    ("credentialId", .str p.credentialId), ("privateKey", .str p.privateKey),
    ("createdAt", .num p.createdAt)]

def readPasskey (v : Value) : Option Passkey := do
  let rpId ← field asString "rpId" v
  let userName ← field asString "userName" v
  let userHandle ← field asString "userHandle" v
  let credentialId ← field asString "credentialId" v
  let privateKey ← field asString "privateKey" v
  let createdAt ← field asInt "createdAt" v
  return { rpId, userName, userHandle, credentialId, privateKey, createdAt }

/-- How `zvault_ssh::SshKey` is written. -/
def sshKeyJson (k : SshKey) : Value :=
  .obj [("privateKey", .str k.privateKey), ("createdAt", .num k.createdAt)]

def readSshKey (v : Value) : Option SshKey := do
  let privateKey ← field asString "privateKey" v
  let createdAt ← field asInt "createdAt" v
  return { privateKey, createdAt }

/-- How the desktop app writes its `ItemPlaintext`. -/
def itemMembers (p : ItemPlaintext) : List (String × Value) :=
  [("v", .num 1), ("kind", .str itemKindLogin), ("title", .str p.title),
    ("username", .str p.username), ("password", .str p.password), ("urls", .arr (p.urls.map .str)),
    ("notes", .str p.notes), ("totp", .str p.totp)] ++
    unlessNone "passkey" passkeyJson p.passkey ++ unlessNone "sshKey" sshKeyJson p.sshKey

section Text

variable (P : Primitives)

/-- JSON, padded and sealed. -/
def sealText (key : SymmetricKey) (v : Value) (aad : List UInt8) (kid : String) (nonce : Nonce) :
    Option Blob :=
  ((P.toVec v).bind fun json => sealPadded P key json aad nonce).map (Blob.new P kid)

/-- The JSON that is sealed in a blob. -/
def openText (key : SymmetricKey) (blob : Blob) (aad : List UInt8) (kid : String) : Option Value :=
  do
  let s ← blob.sealed P kid
  let json ← openPadded P key s aad
  P.fromSlice json

/-- `seal_json`. -/
def sealJson (key : SymmetricKey) (v : Value) (aad : List UInt8) (kid : String) (nonce : Nonce) :
    Option Blob :=
  if v.isObject then sealText P key v aad kid nonce else none

/-- `open_json`, which the apps have in the same words. -/
def openJson (key : SymmetricKey) (blob : Blob) (aad : List UInt8) (kid : String) : Option Value :=
  (openText P key blob aad kid).filter (·.isObject)

/-- `wrap_key` under a kid. -/
def wrapBlob (wrapping key : SymmetricKey) (aad : List UInt8) (kid : String) (nonce : Nonce) :
    Option Blob :=
  (wrapKey P wrapping key aad nonce).map (Blob.new P kid)

/-- `unwrap_key` under a kid. -/
def unwrapBlob (wrapping : SymmetricKey) (blob : Blob) (aad : List UInt8) (kid : String) :
    Option SymmetricKey :=
  (blob.sealed P kid).bind fun s => unwrapKey P wrapping s aad

variable {P}

theorem openJson_eq_some {key : SymmetricKey} {blob : Blob} {aad : List UInt8} {kid : String}
    {v : Value} (h : openJson P key blob aad kid = some v) :
    openText P key blob aad kid = some v ∧ v.isObject = true :=
  Option.filter_eq_some_iff.mp h

variable (hP : P.Correct)
include hP

theorem openText_sealText {key : SymmetricKey} {v : Value} {aad : List UInt8} {kid : String}
    {nonce : Nonce} {blob : Blob} (h : sealText P key v aad kid nonce = some blob) :
    openText P key blob aad kid = some v := by
  obtain ⟨s, hs, rfl⟩ := Option.map_eq_some_iff.mp h
  obtain ⟨json, hjson, hs⟩ := Option.bind_eq_some_iff.mp hs
  simp [openText, Blob.sealed_new hP, openPadded_sealPadded hP hs, hP.fromSlice_toVec hjson]

theorem openJson_sealJson {key : SymmetricKey} {v : Value} {aad : List UInt8} {kid : String}
    {nonce : Nonce} {blob : Blob} (h : sealJson P key v aad kid nonce = some blob) :
    openJson P key blob aad kid = some v := by
  unfold sealJson at h
  split_ifs at h with hobject
  rw [openJson, openText_sealText hP h, Option.filter_some, if_pos hobject]

theorem unwrapBlob_wrapBlob {wrapping key : SymmetricKey} {aad : List UInt8} {kid : String}
    {nonce : Nonce} {blob : Blob} (h : wrapBlob P wrapping key aad kid nonce = some blob) :
    unwrapBlob P wrapping blob aad kid = some key := by
  obtain ⟨s, hs, rfl⟩ := Option.map_eq_some_iff.mp h
  rw [unwrapBlob, Blob.sealed_new hP, Option.bind_some, unwrapKey_wrapKey hP hs]

end Text

end Zvault.Keyrings
