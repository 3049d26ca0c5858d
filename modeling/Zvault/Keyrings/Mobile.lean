import Mathlib.Logic.Function.Basic
import Zvault.Keyrings.Records

/-!
# The phone's key ring

`keyring.rs` of `zvault-mobile`: what the phone opens of vaults and projects, with
types of its own, and the one edit it makes, to an item's one-time password
setup.
-/

namespace Zvault.Keyrings

open Crypto
open Function (update)
open Json (Value field fieldOr nullable asString asInt asStrings)
open Text (trim)
open Vault (Crates ItemPlaintext)

/-- Everything unwrapped this session. -/
structure MobileKeyring where
  /-- The email and the account keyset key. -/
  account : Option (String × SymmetricKey)
  vaults : String → Option SymmetricKey
  projects : String → Option SymmetricKey
  environments : String × String → Option SymmetricKey

/-- One of this account's wraps of a shared key. -/
structure MemberWrap where
  recipientPublicKey : String
  wrapperPublicKey : String
  ephemeralPublicKey : String
  blob : Blob
  keyVersion : Option ℕ
  deriving DecidableEq, Repr

/-- What the phone reads of a wrap as the API sends it. -/
def StoredMemberWrap.toMemberWrap (w : StoredMemberWrap) : MemberWrap :=
  ⟨w.wrap.recipientPublicKey, w.wrap.wrapperPublicKey, w.wrap.ephemeralPublicKey, w.wrap.blob,
    w.keyVersion⟩

namespace MobileKeyring

/-- `Keyring::lock`, and the key ring before anything is unlocked. -/
def locked : MobileKeyring := ⟨none, fun _ => none, fun _ => none, fun _ => none⟩

def unlock (email : String) (keyset : SymmetricKey) : MobileKeyring :=
  { locked with account := some (email, keyset) }

variable (P : Primitives) (crates : Crates) (keys : MobileKeyring)

def keyset : Option SymmetricKey := keys.account.map (·.2)

/-- `open_vault`: the vault's id and name. -/
def openVault (record : VaultCipher) : Option ((String × String) × MobileKeyring) := do
  let id ← canonicalId record.id
  let keyset ← keys.keyset
  let key ← unwrapBlob P keyset record.encryptedKey (vaultKeyAad id) accountKid
  let json ← openText P key record.encryptedMeta (vaultMetaAad id) id
  let name ← field asString "name" json
  return ((id, name), { keys with vaults := update keys.vaults id (some key) })

/-- `ItemPlaintext`, as it is read. -/
def readItem (v : Value) : Option (ℤ × String × ItemPlaintext) := do
  let version ← field asInt "v" v
  let kind ← field asString "kind" v
  let title ← fieldOr "" asString "title" v
  let username ← fieldOr "" asString "username" v
  let password ← fieldOr "" asString "password" v
  let urls ← fieldOr [] asStrings "urls" v
  let notes ← fieldOr "" asString "notes" v
  let totp ← fieldOr "" asString "totp" v
  let passkey ← fieldOr none (nullable readPasskey) "passkey" v
  let sshKey ← fieldOr none (nullable readSshKey) "sshKey" v
  return (version, kind, { title, username, password, urls, notes, totp, passkey, sshKey })

/-- The key of an item, which both of the phone's item operations begin with. -/
def itemKey (vaultId itemId : String) (record : ItemCipher) : Option SymmetricKey := do
  let _ ← keys.keyset
  let vaultKey ← keys.vaults vaultId
  unwrapBlob P vaultKey record.encryptedKey (itemKeyAad vaultId itemId) vaultId

/-- `open_item`. -/
def openItem (vaultId : String) (record : ItemCipher) : Option ItemPlaintext := do
  let vaultId ← canonicalId vaultId
  let itemId ← canonicalId record.id
  let itemKey ← keys.itemKey P vaultId itemId record
  let json ← openText P itemKey record.encryptedData (itemDataAad vaultId itemId) itemId
  let (version, kind, plaintext) ← readItem json
  if version ≠ 1 ∨ kind ≠ itemKindLogin then none
  else if !plaintext.passkey.all crates.validPasskey then none
  else if !plaintext.sshKey.all crates.validSshKey then none
  else some plaintext

/-- `reseal_item_totp`: every other member of the item is kept as it was. -/
def resealItemTotp (vaultId : String) (record : ItemCipher) (totp : String) (nonce : Nonce) :
    Option Sealed := do
  let vaultId ← canonicalId vaultId
  let itemId ← canonicalId record.id
  let itemKey ← keys.itemKey P vaultId itemId record
  let plaintext ← openJson P itemKey record.encryptedData (itemDataAad vaultId itemId) itemId
  if (plaintext.get "v").bind asInt ≠ some 1 ∨
      (plaintext.get "kind").bind asString ≠ some itemKindLogin then none
  else do
    let json ← P.toVec (plaintext.set "totp" (.str totp))
    sealPadded P itemKey json (itemDataAad vaultId itemId) nonce

/-- `item_set_totp`: the item's new `encryptedData`. Its `encryptedKey` does not change. -/
def itemSetTotp (vaultId : String) (record : ItemCipher) (totp : String) (nonce : Nonce) :
    Option Blob := do
  let canonical ← if (trim totp).isEmpty then some "" else crates.totpUri totp
  let s ← keys.resealItemTotp P vaultId record canonical nonce
  return Blob.new P record.id s

/-- `unwrap_member`. -/
def unwrapMember (keyset : SymmetricKey) (wrap : MemberWrap) (aad : List UInt8) :
    Option SymmetricKey := do
  let recipient ← decodeKey P wrap.recipientPublicKey
  -- Wrapped to a key this account no longer has.
  if recipient ≠ P.publicKey keyset then none
  else do
    let ephemeral ← decodeKey P wrap.ephemeralPublicKey
    let s ← wrap.blob.sealed P memberKeyWrapKid
    let wrapper ← decodeKey P wrap.wrapperPublicKey
    P.unwrapFromMember keyset wrapper aad ⟨ephemeral, s⟩

/-- `open_project`: the project's metadata. -/
def openProject (record : ProjectCipher) (wrap : Option MemberWrap) :
    Option (Value × MobileKeyring) := do
  let id ← canonicalId record.id
  let keyset ← keys.keyset
  let key ← match wrap with
    | some wrap => unwrapMember P keyset wrap (projectKeyWrapAad id)
    | none => unwrapBlob P keyset record.encryptedKey (projectKeyAad id) accountKid
  let metadata ← openJson P key record.encryptedMeta (projectMetaAad id) id
  return (metadata, { keys with projects := update keys.projects id (some key) })

/-- `open_environment`: the environment's metadata, and whether its values can be read. -/
def openEnvironment (projectId : String) (record : EnvironmentCipher) (wrap : Option MemberWrap) :
    Option ((Value × Bool) × MobileKeyring) := do
  let projectId ← canonicalId projectId
  let envId ← canonicalId record.id
  let keyset ← keys.keyset
  let projectKey ← keys.projects projectId
  let metadata ← openJson P projectKey record.encryptedMeta (environmentMetaAad projectId envId) envId
  let key ← match wrap, record.encryptedKey with
    | some wrap, _ => do
      let version ← wrap.keyVersion
      let key ← unwrapMember P keyset wrap (environmentKeyWrapAad projectId envId version)
      pure (some key)
    | none, some blob =>
      -- A member wrap served without its public halves can't be opened.
      if blob.kid = memberKeyWrapKid then pure none
      else (unwrapBlob P keyset blob (environmentKeyAad projectId envId) accountKid).map some
    | none, none => pure none
  return ((metadata, key.isSome),
    match key with
    | some key =>
      { keys with environments := update keys.environments (projectId, envId) (some key) }
    | none => keys)

/-- `open_entry`. -/
def openEntry (projectId : String) (kind : EntryKind) (id : String) (blob : Blob) :
    Option Value := do
  let projectId ← canonicalId projectId
  let id ← canonicalId id
  let _ ← keys.keyset
  let key ← keys.projects projectId
  openJson P key blob (kind.aad projectId id) id

/-- `open_secret_value`. -/
def openSecretValue (projectId secretId environmentId : String) (blob : Blob) : Option String := do
  let projectId ← canonicalId projectId
  let secretId ← canonicalId secretId
  let environmentId ← canonicalId environmentId
  let _ ← keys.keyset
  let key ← keys.environments (projectId, environmentId)
  let json ← openText P key blob (secretValueAad projectId secretId environmentId) environmentId
  field asString "value" json

end MobileKeyring

end Zvault.Keyrings
