import Mathlib.Logic.Function.Basic
import Zvault.Keyrings.Records

/-!
# The desktop app's key ring

`Keyring` of `vault.rs`, `projects.rs` and `team.rs`, without rotations, whose keys
come back in the wraps that are opened here. An operation that is refused leaves
the keys as they were; the errors are coarse on purpose and are not told apart.
Ids, keys and nonces that are drawn are arguments.
-/

namespace Zvault.Keyrings

open Crypto
open Function (update)
open Json (Value field fieldOr nullable asString asInt asStrings)
open Text (trim)
open Vault (Crates ItemFields ItemPlaintext Passkey)

/-- `Keys` and `ProjectKeys`: everything unwrapped this session. -/
structure DesktopKeyring where
  account : Option SymmetricKey
  vaults : String → Option SymmetricKey
  projects : String → Option SymmetricKey
  environments : String × String → Option SymmetricKey

/-- An id, a key and the nonces to wrap and seal with. -/
structure Fresh where
  id : Crypto.Uuid
  key : SymmetricKey
  keyNonce : Nonce
  dataNonce : Nonce

/-- `id_or_new`. -/
def idOrNew (id : Option String) (new : Crypto.Uuid) : Option String :=
  id.elim (some new.hyphenated) canonicalId

namespace DesktopKeyring

/-- `Keyring::lock`, and the key ring before anything is unlocked. -/
def locked : DesktopKeyring := ⟨none, fun _ => none, fun _ => none, fun _ => none⟩

def unlock (account : SymmetricKey) : DesktopKeyring := { locked with account := some account }

variable (P : Primitives) (crates : Crates) (keys : DesktopKeyring)

/-- `VaultMeta`. -/
def readVaultMeta (v : Value) : Option String := do
  let _ ← field asInt "v" v
  field asString "name" v

def createVault (name : String) (new : Fresh) : Option (VaultCipher × DesktopKeyring) := do
  let account ← keys.account
  let id := new.id.hyphenated
  let encryptedKey ← wrapBlob P account new.key (vaultKeyAad id) accountKid new.keyNonce
  let metadata : Value := .obj [("v", .num 1), ("name", .str (trim name))]
  let encryptedMeta ← sealText P new.key metadata (vaultMetaAad id) id new.dataNonce
  return (⟨id, encryptedKey, encryptedMeta⟩,
    { keys with vaults := update keys.vaults id (some new.key) })

/-- `open_vault`: the vault's id and name. -/
def openVault (vault : VaultCipher) : Option ((String × String) × DesktopKeyring) := do
  let id ← canonicalId vault.id
  let account ← keys.account
  let key ← unwrapBlob P account vault.encryptedKey (vaultKeyAad id) accountKid
  let metadata ← openText P key vault.encryptedMeta (vaultMetaAad id) id
  let name ← readVaultMeta metadata
  return ((id, name), { keys with vaults := update keys.vaults id (some key) })

/-- `vault_key`. -/
def vaultKey (vaultId : String) : Option SymmetricKey := do
  let _ ← keys.account
  keys.vaults vaultId

/-- `unwrap_item_key`. -/
def unwrapItemKey (vaultKey : SymmetricKey) (vaultId itemId : String) (item : ItemCipher) :
    Option SymmetricKey :=
  unwrapBlob P vaultKey item.encryptedKey (itemKeyAad vaultId itemId) vaultId

/-- `ItemPlaintext`, as it is read: the fields of the UI that share a name with a stored key are
taken by the stored key. -/
def readItem (v : Value) : Option (ℤ × String × ItemPlaintext) := do
  let version ← field asInt "v" v
  let kind ← field asString "kind" v
  let title ← fieldOr "" asString "title" v
  let username ← fieldOr "" asString "username" v
  let password ← fieldOr "" asString "password" v
  let urls ← fieldOr [] asStrings "urls" v
  let notes ← fieldOr "" asString "notes" v
  let totp ← fieldOr "" asString "totp" v
  let passkey ← fieldOr none (nullable readPasskey) "passkey" v
  let sshKey ← fieldOr none (nullable readSshKey) "sshKey" v
  return (version, kind, { title, username, password, urls, notes, totp, passkey, sshKey })

/-- `open_plaintext`, before the stored keys are checked. -/
def openLogin (itemKey : SymmetricKey) (vaultId itemId : String) (item : ItemCipher) :
    Option ItemPlaintext := do
  let json ← openText P itemKey item.encryptedData (itemDataAad vaultId itemId) itemId
  let (version, kind, plaintext) ← readItem json
  if version ≠ 1 ∨ kind ≠ itemKindLogin then none else some plaintext

/-- The id, the key and what was held of an item that is sealed: a new one, or an edit of one. -/
def itemToSeal (vaultKey : SymmetricKey) (vaultId : String) (existing : Option ItemCipher)
    (new : Fresh) : Option (String × SymmetricKey × Option ItemPlaintext) :=
  match existing with
  | some item => do
    let id ← canonicalId item.id
    let key ← unwrapItemKey P vaultKey vaultId id item
    let old ← openLogin P key vaultId id item
    return (id, key, some old)
  | none => some (new.id.hyphenated, new.key, none)

/-- `seal_item`: a new item, or an edit of one that keeps its id and key. -/
def sealItem (vaultId : String) (existing : Option ItemCipher) (fields : ItemFields)
    (new : Fresh) : Option ItemCipher := do
  let vaultId ← canonicalId vaultId
  let vaultKey ← keys.vaultKey vaultId
  let (itemId, itemKey, old) ← itemToSeal P vaultKey vaultId existing new
  let encryptedKey ← wrapBlob P vaultKey itemKey (itemKeyAad vaultId itemId) vaultId new.keyNonce
  let plaintext ← Vault.sealItem crates old fields
  let encryptedData ← sealText P itemKey (.obj (itemMembers plaintext))
    (itemDataAad vaultId itemId) itemId new.dataNonce
  return ⟨itemId, encryptedKey, encryptedData⟩

/-- What is sealed in an item, before the stored keys are checked. -/
def openSealed (vaultId : String) (item : ItemCipher) : Option ItemPlaintext := do
  let vaultId ← canonicalId vaultId
  let itemId ← canonicalId item.id
  let vaultKey ← keys.vaultKey vaultId
  let itemKey ← unwrapItemKey P vaultKey vaultId itemId item
  openLogin P itemKey vaultId itemId item

/-- `open_item_plaintext`: an item with its stored keys, private keys included. -/
def openItemPlaintext (vaultId : String) (item : ItemCipher) : Option ItemPlaintext :=
  (keys.openSealed P vaultId item).bind (Vault.openPlaintext crates)

/-- `open_item`. -/
def openItem (vaultId : String) (item : ItemCipher) : Option ItemFields :=
  (keys.openSealed P vaultId item).bind (Vault.openItem crates)

/-- An environment that a project is created with. -/
def sealNewEnvironment (account projectKey : SymmetricKey) (id : String) (env : Value × Fresh) :
    Option EnvironmentCipher := do
  let envId := env.2.id.hyphenated
  let encryptedMeta ←
    sealJson P projectKey env.1 (environmentMetaAad id envId) envId env.2.dataNonce
  let encryptedKey ←
    wrapBlob P account env.2.key (environmentKeyAad id envId) accountKid env.2.keyNonce
  return ⟨envId, encryptedMeta, some encryptedKey⟩

/-- `create_project`: each environment's metadata comes with what is drawn for it. -/
def createProject (metadata : Value) (environments : List (Value × Fresh)) (new : Fresh) :
    Option ((ProjectCipher × List EnvironmentCipher) × DesktopKeyring) := do
  let account ← keys.account
  let id := new.id.hyphenated
  let encryptedKey ← wrapBlob P account new.key (projectKeyAad id) accountKid new.keyNonce
  let encryptedMeta ← sealJson P new.key metadata (projectMetaAad id) id new.dataNonce
  let sealed ← environments.mapM (sealNewEnvironment P account new.key id)
  return ((⟨id, encryptedKey, encryptedMeta⟩, sealed),
    { keys with
      environments := environments.foldl
        (fun known env => update known (id, env.2.id.hyphenated) (some env.2.key))
        keys.environments
      projects := update keys.projects id (some new.key) })

/-- `StoredMemberWrap::unwrap`. -/
def unwrapGrant (account : SymmetricKey) (grant : StoredMemberWrap) (aad : List UInt8) :
    Option SymmetricKey := do
  let recipient ← decodeKey P grant.wrap.recipientPublicKey
  -- Wrapped to a key this account no longer has.
  if recipient ≠ P.publicKey account then none
  else do
    let ephemeral ← decodeKey P grant.wrap.ephemeralPublicKey
    let s ← grant.wrap.blob.sealed P memberKeyWrapKid
    let wrapper ← decodeKey P grant.wrap.wrapperPublicKey
    P.unwrapFromMember account wrapper aad ⟨ephemeral, s⟩

/-- `unwrap_project_key`. -/
def unwrapProjectKey (account : SymmetricKey) (grant : StoredMemberWrap) (projectId : String) :
    Option SymmetricKey :=
  unwrapGrant P account grant (projectKeyWrapAad projectId)

/-- `unwrap_environment_key`. -/
def unwrapEnvironmentKey (account : SymmetricKey) (grant : StoredMemberWrap)
    (projectId environmentId : String) : Option SymmetricKey := do
  let version ← grant.keyVersion
  unwrapGrant P account grant (environmentKeyWrapAad projectId environmentId version)

/-- The key of a project, the account's own or one that was wrapped for it. -/
def projectKeyOf (account : SymmetricKey) (project : ProjectCipher)
    (memberWrap : Option StoredMemberWrap) (id : String) : Option SymmetricKey :=
  match memberWrap with
  | some wrap => unwrapProjectKey P account wrap id
  | none => unwrapBlob P account project.encryptedKey (projectKeyAad id) accountKid

/-- `open_project`: the project's metadata. -/
def openProject (project : ProjectCipher) (memberWrap : Option StoredMemberWrap) :
    Option (Value × DesktopKeyring) := do
  let id ← canonicalId project.id
  let account ← keys.account
  let projectKey ← projectKeyOf P account project memberWrap id
  let metadata ← openJson P projectKey project.encryptedMeta (projectMetaAad id) id
  return (metadata, { keys with projects := update keys.projects id (some projectKey) })

/-- `seal_project_meta`. -/
def sealProjectMeta (projectId : String) (metadata : Value) (nonce : Nonce) : Option Blob := do
  let projectId ← canonicalId projectId
  let _ ← keys.account
  let key ← keys.projects projectId
  sealJson P key metadata (projectMetaAad projectId) projectId nonce

/-- `open_environment`: the environment's metadata, and whether its values can be read. -/
def openEnvironment (projectId : String) (env : EnvironmentCipher)
    (memberWrap : Option StoredMemberWrap) : Option ((Value × Bool) × DesktopKeyring) := do
  let projectId ← canonicalId projectId
  let envId ← canonicalId env.id
  let account ← keys.account
  let projectKey ← keys.projects projectId
  let metadata ← openJson P projectKey env.encryptedMeta (environmentMetaAad projectId envId) envId
  match memberWrap, env.encryptedKey with
  | some wrap, _ => do
    let key ← unwrapEnvironmentKey P account wrap projectId envId
    pure ((metadata, true),
      { keys with environments := update keys.environments (projectId, envId) (some key) })
  | none, some blob =>
    -- A member wrap served without its public halves can't be opened.
    if blob.kid = memberKeyWrapKid then pure ((metadata, false), keys)
    else do
      let key ← unwrapBlob P account blob (environmentKeyAad projectId envId) accountKid
      pure ((metadata, true),
        { keys with environments := update keys.environments (projectId, envId) (some key) })
  | none, none => pure ((metadata, false), keys)

/-- `seal_environment`: without an id, an environment with a fresh key. -/
def sealEnvironment (projectId : String) (id : Option String) (metadata : Value) (new : Fresh) :
    Option (EnvironmentCipher × DesktopKeyring) := do
  let projectId ← canonicalId projectId
  let envId ← idOrNew id new.id
  let account ← keys.account
  let projectKey ← keys.projects projectId
  let encryptedMeta ←
    sealJson P projectKey metadata (environmentMetaAad projectId envId) envId new.dataNonce
  if id.isNone then do
    let wrapped ←
      wrapBlob P account new.key (environmentKeyAad projectId envId) accountKid new.keyNonce
    pure (⟨envId, encryptedMeta, some wrapped⟩,
      { keys with environments := update keys.environments (projectId, envId) (some new.key) })
  else pure (⟨envId, encryptedMeta, none⟩, keys)

/-- `seal_entry`. -/
def sealEntry (projectId : String) (kind : EntryKind) (id : Option String) (metadata : Value)
    (newId : Crypto.Uuid) (nonce : Nonce) : Option (String × Blob) := do
  let projectId ← canonicalId projectId
  let id ← idOrNew id newId
  let _ ← keys.account
  let key ← keys.projects projectId
  let encryptedMeta ← sealJson P key metadata (kind.aad projectId id) id nonce
  return (id, encryptedMeta)

/-- `open_entry`. -/
def openEntry (projectId : String) (kind : EntryKind) (id : String) (encryptedMeta : Blob) :
    Option Value := do
  let projectId ← canonicalId projectId
  let id ← canonicalId id
  let _ ← keys.account
  let key ← keys.projects projectId
  openJson P key encryptedMeta (kind.aad projectId id) id

/-- `seal_secret_value`. -/
def sealSecretValue (projectId secretId environmentId value : String) (nonce : Nonce) :
    Option Blob := do
  let projectId ← canonicalId projectId
  let secretId ← canonicalId secretId
  let environmentId ← canonicalId environmentId
  let _ ← keys.account
  let key ← keys.environments (projectId, environmentId)
  sealText P key (.obj [("value", .str value)])
    (secretValueAad projectId secretId environmentId) environmentId nonce

/-- `open_secret_value`. -/
def openSecretValue (projectId secretId environmentId : String) (blob : Blob) : Option String := do
  let projectId ← canonicalId projectId
  let secretId ← canonicalId secretId
  let environmentId ← canonicalId environmentId
  let _ ← keys.account
  let key ← keys.environments (projectId, environmentId)
  let json ← openText P key blob (secretValueAad projectId secretId environmentId) environmentId
  field asString "value" json

end DesktopKeyring

end Zvault.Keyrings
