import Zvault.Keyrings.Desktop

/-!
# What the desktop app seals

Each operation that seals, and the one that opens what it sealed.
-/

namespace Zvault.Keyrings

open Crypto
open Function (update)
open Json (Value field fieldOr nullable asString asInt asStrings)
open Text (trim)
open Vault (Crates ItemFields ItemPlaintext)

theorem readPasskey_passkeyJson (k : Vault.Passkey) : readPasskey (passkeyJson k) = some k := by
  simp [readPasskey, passkeyJson, Json.field_obj, Json.lookup_cons, asString, asInt]

theorem readSshKey_sshKeyJson (k : Vault.SshKey) : readSshKey (sshKeyJson k) = some k := by
  simp [readSshKey, sshKeyJson, Json.field_obj, Json.lookup_cons, asString, asInt]

/-- What is read of a member that was written from a value, if there was one. -/
theorem fieldOr_none_written {α : Type} {read : Value → Option α} (write : α → Value)
    (hread : ∀ a, nullable read (write a) = some (some a)) {key : String}
    {ms : List (String × Value)} {a : Option α} (h : ms.lookup key = a.map write) :
    fieldOr none (nullable read) key (.obj ms) = some a := by
  cases a with
  | none => simp [fieldOr, Value.get, h]
  | some a => simp [fieldOr, Value.get, h, hread]

/-- An item is read as it was written. -/
theorem readItem_itemMembers (p : ItemPlaintext) :
    DesktopKeyring.readItem (.obj (itemMembers p)) = some (1, itemKindLogin, p) := by
  have hpasskey : fieldOr none (nullable readPasskey) "passkey" (.obj (itemMembers p)) =
      some p.passkey := by
    refine fieldOr_none_written passkeyJson (fun k => ?_) ?_
    · exact congrArg (Option.map some) (readPasskey_passkeyJson k)
    · simp [itemMembers, List.lookup_append, Json.lookup_cons, Json.lookup_unlessNone]
  have hsshKey : fieldOr none (nullable readSshKey) "sshKey" (.obj (itemMembers p)) =
      some p.sshKey := by
    refine fieldOr_none_written sshKeyJson (fun k => ?_) ?_
    · exact congrArg (Option.map some) (readSshKey_sshKeyJson k)
    · simp [itemMembers, List.lookup_append, Json.lookup_cons, Json.lookup_unlessNone]
  simp only [DesktopKeyring.readItem, hpasskey, hsshKey]
  simp [itemMembers, field, fieldOr, Value.get, Json.lookup_cons, asString, asInt]

/-- An id that is given or drawn is canonical. -/
theorem canonicalId_of_idOrNew {id : Option String} {new : Crypto.Uuid} {id' : String}
    (h : idOrNew id new = some id') : canonicalId id' = some id' := by
  cases id with
  | none =>
      obtain rfl := Option.some_inj.mp h
      exact canonicalId_hyphenated new
  | some id =>
      have hsame := canonicalId_eq_some h
      rwa [← hsame] at h

/-- The account's own wraps are not member wraps. -/
theorem kid_ne_of_wrapBlob {P : Primitives} {wrapping key : SymmetricKey} {aad : List UInt8}
    {nonce : Nonce} {blob : Blob} (h : wrapBlob P wrapping key aad accountKid nonce = some blob) :
    blob.kid ≠ memberKeyWrapKid := by
  obtain ⟨s, -, rfl⟩ := Option.map_eq_some_iff.mp h
  show accountKid ≠ memberKeyWrapKid
  decide

namespace DesktopKeyring

/-- The key of an environment, if its values can be read. -/
def environmentKeyOf (P : Primitives) (account : SymmetricKey) (projectId envId : String)
    (granted : Option Blob) (wrap : Option StoredMemberWrap) : Option (Option SymmetricKey) :=
  match wrap, granted with
  | some wrap, _ => (unwrapEnvironmentKey P account wrap projectId envId).map some
  | none, some blob =>
    if blob.kid = memberKeyWrapKid then some none
    else (unwrapBlob P account blob (environmentKeyAad projectId envId) accountKid).map some
  | none, none => some none

/-- The keys with that of an environment, if there is one. -/
def holding (keys : DesktopKeyring) (id : String × String) (key : Option SymmetricKey) :
    DesktopKeyring :=
  key.elim keys fun key =>
    { keys with environments := update keys.environments id (some key) }

variable {P : Primitives} {crates : Crates} {keys keys' : DesktopKeyring} (hP : P.Correct)
include hP

theorem openVault_createVault {name : String} {new : Fresh} {vault : VaultCipher}
    (h : keys.createVault P name new = some (vault, keys')) :
    keys.openVault P vault = some ((vault.id, trim name), keys') := by
  simp only [createVault, Option.bind_eq_bind, Option.bind_eq_some_iff, Option.pure_def,
    Option.some_inj, Prod.mk.injEq] at h
  obtain ⟨account, haccount, encryptedKey, hkey, encryptedMeta, hmeta, rfl, rfl⟩ := h
  simp [openVault, canonicalId_hyphenated, haccount, unwrapBlob_wrapBlob hP hkey,
    openText_sealText hP hmeta, readVaultMeta, Json.field_obj, Json.lookup_cons, asInt, asString]

theorem openLogin_sealed {itemKey : SymmetricKey} {vaultId itemId : String} {p : ItemPlaintext}
    {nonce : Nonce} {item : ItemCipher}
    (h : sealText P itemKey (.obj (itemMembers p)) (itemDataAad vaultId itemId) itemId nonce =
      some item.encryptedData) :
    openLogin P itemKey vaultId itemId item = some p := by
  simp [openLogin, openText_sealText hP h, readItem_itemMembers]

omit hP in
/-- An item keeps its id, which is canonical, and what it held is opened. -/
theorem itemToSeal_eq_some {vaultId vaultId' itemId : String} {vaultKey itemKey : SymmetricKey}
    {existing : Option ItemCipher} {new : Fresh} {old : Option ItemPlaintext}
    (hvaultId : canonicalId vaultId = some vaultId') (hvaultKey : keys.vaultKey vaultId' = some vaultKey)
    (h : itemToSeal P vaultKey vaultId' existing new = some (itemId, itemKey, old)) :
    canonicalId itemId = some itemId ∧ existing.bind (keys.openSealed P vaultId) = old := by
  cases existing with
  | none =>
      obtain ⟨rfl, rfl, rfl⟩ := by simpa [itemToSeal] using h
      exact ⟨canonicalId_hyphenated new.id, rfl⟩
  | some item =>
      simp only [itemToSeal, Option.bind_eq_bind, Option.bind_eq_some_iff, Option.pure_def,
        Option.some_inj, Prod.mk.injEq] at h
      obtain ⟨id, hid, key, hkey, p, hp, rfl, rfl, rfl⟩ := h
      have hcanonical := hid
      rw [← canonicalId_eq_some hid] at hcanonical
      refine ⟨hcanonical, ?_⟩
      simp [openSealed, hvaultId, hid, hvaultKey, hkey, hp]

/-- A new item, or an edit of what an item held. -/
theorem openSealed_sealItem {vaultId : String} {existing : Option ItemCipher} {fields : ItemFields}
    {new : Fresh} {item : ItemCipher}
    (h : keys.sealItem P crates vaultId existing fields new = some item) :
    ∃ p, Vault.sealItem crates (existing.bind (keys.openSealed P vaultId)) fields = some p ∧
      keys.openSealed P vaultId item = some p := by
  simp only [sealItem, Option.bind_eq_bind, Option.bind_eq_some_iff, Option.pure_def,
    Option.some_inj] at h
  obtain ⟨vaultId', hvaultId, vaultKey, hvaultKey, ⟨itemId, itemKey, old⟩, hold, encryptedKey, hkey,
    p, hp, encryptedData, hdata, rfl⟩ := h
  obtain ⟨hitemId, rfl⟩ := itemToSeal_eq_some hvaultId hvaultKey hold
  have hlogin : openLogin P itemKey vaultId' itemId ⟨itemId, encryptedKey, encryptedData⟩ = some p :=
    openLogin_sealed hP hdata
  refine ⟨p, hp, ?_⟩
  simp [openSealed, hvaultId, hitemId, hvaultKey, unwrapItemKey, unwrapBlob_wrapBlob hP hkey, hlogin]

theorem openEntry_sealEntry {projectId : String} {kind : EntryKind} {id : Option String}
    {metadata : Value} {newId : Crypto.Uuid} {nonce : Nonce} {sealedId : String} {blob : Blob}
    (h : keys.sealEntry P projectId kind id metadata newId nonce = some (sealedId, blob)) :
    keys.openEntry P projectId kind sealedId blob = some metadata := by
  simp only [sealEntry, Option.bind_eq_bind, Option.bind_eq_some_iff, Option.pure_def,
    Option.some_inj, Prod.mk.injEq] at h
  obtain ⟨projectId', hprojectId, id', hid, account, haccount, key, hkey, _, hblob, rfl, rfl⟩ := h
  simp [openEntry, hprojectId, canonicalId_of_idOrNew hid, haccount, hkey,
    openJson_sealJson hP hblob]

theorem openSecretValue_sealSecretValue {projectId secretId environmentId value : String}
    {nonce : Nonce} {blob : Blob}
    (h : keys.sealSecretValue P projectId secretId environmentId value nonce = some blob) :
    keys.openSecretValue P projectId secretId environmentId blob = some value := by
  simp only [sealSecretValue, Option.bind_eq_bind, Option.bind_eq_some_iff] at h
  obtain ⟨projectId', hprojectId, secretId', hsecretId, environmentId', henvironmentId, account,
    haccount, key, hkey, hblob⟩ := h
  simp [openSecretValue, hprojectId, hsecretId, henvironmentId, haccount, hkey,
    openText_sealText hP hblob, Json.field_obj, asString]

theorem openEnvironment_sealEnvironment {projectId : String} {id : Option String} {metadata : Value}
    {new : Fresh} {env : EnvironmentCipher}
    (h : keys.sealEnvironment P projectId id metadata new = some (env, keys')) :
    keys.openEnvironment P projectId env none = some ((metadata, id.isNone), keys') := by
  simp only [sealEnvironment, Option.bind_eq_bind, Option.bind_eq_some_iff] at h
  obtain ⟨projectId', hprojectId, envId, hid, account, haccount, projectKey, hprojectKey,
    encryptedMeta, hmeta, h⟩ := h
  have henvId := canonicalId_of_idOrNew hid
  cases id with
  | none =>
      simp only [Option.isNone_none, if_true, Option.bind_eq_some_iff, Option.pure_def,
        Option.some_inj, Prod.mk.injEq] at h
      obtain ⟨wrapped, hwrapped, rfl, rfl⟩ := h
      have hkid : wrapped.kid ≠ memberKeyWrapKid := kid_ne_of_wrapBlob hwrapped
      simp [openEnvironment, hprojectId, henvId, haccount, hprojectKey, openJson_sealJson hP hmeta,
        hkid, unwrapBlob_wrapBlob hP hwrapped]
  | some id =>
      obtain ⟨rfl, rfl⟩ := by simpa using h
      simp [openEnvironment, hprojectId, henvId, haccount, hprojectKey, openJson_sealJson hP hmeta]

/-- An environment that a project is created with, once the project is open. -/
theorem openEnvironment_sealNewEnvironment {account projectKey : SymmetricKey} {id : String}
    {new : Value × Fresh} {env : EnvironmentCipher} (hid : canonicalId id = some id)
    (haccount : keys.account = some account) (hprojectKey : keys.projects id = some projectKey)
    (h : sealNewEnvironment P account projectKey id new = some env) :
    keys.openEnvironment P id env none = some ((new.1, true),
      { keys with
        environments := update keys.environments (id, new.2.id.hyphenated) (some new.2.key) }) := by
  simp only [sealNewEnvironment, Option.bind_eq_bind, Option.bind_eq_some_iff, Option.pure_def,
    Option.some_inj] at h
  obtain ⟨encryptedMeta, hmeta, encryptedKey, hkey, rfl⟩ := h
  have hkid : encryptedKey.kid ≠ memberKeyWrapKid := kid_ne_of_wrapBlob hkey
  simp [openEnvironment, hid, haccount, hprojectKey, openJson_sealJson hP hmeta, hkid,
    unwrapBlob_wrapBlob hP hkey]

/-- New metadata of a project that is open. -/
theorem openProject_sealProjectMeta {project : ProjectCipher} {wrap : Option StoredMemberWrap}
    {metadata metadata' : Value} {nonce : Nonce} {blob : Blob}
    (hopen : keys.openProject P project wrap = some (metadata, keys'))
    (h : keys'.sealProjectMeta P project.id metadata' nonce = some blob) :
    (keys.openProject P { project with encryptedMeta := blob } wrap).map Prod.fst =
      some metadata' := by
  simp only [openProject, Option.bind_eq_bind, Option.bind_eq_some_iff, Option.pure_def,
    Option.some_inj, Prod.mk.injEq] at hopen
  obtain ⟨id, hid, account, haccount, projectKey, hprojectKey, _, -, -, rfl⟩ := hopen
  simp only [sealProjectMeta, hid, haccount, Function.update_self, Option.bind_eq_bind,
    Option.bind_some] at h
  have hkey : projectKeyOf P account { project with encryptedMeta := blob } wrap id =
      some projectKey := hprojectKey
  simp [openProject, hid, haccount, hkey, openJson_sealJson hP h]

omit hP in
theorem openEnvironment_eq (projectId : String) (env : EnvironmentCipher)
    (wrap : Option StoredMemberWrap) :
    keys.openEnvironment P projectId env wrap = (do
      let projectId ← canonicalId projectId
      let envId ← canonicalId env.id
      let account ← keys.account
      let projectKey ← keys.projects projectId
      let metadata ←
        openJson P projectKey env.encryptedMeta (environmentMetaAad projectId envId) envId
      let key ← environmentKeyOf P account projectId envId env.encryptedKey wrap
      return ((metadata, key.isSome), keys.holding (projectId, envId) key)) := by
  cases wrap with
  | some wrap => simp [openEnvironment, environmentKeyOf, holding, Option.bind_map, Function.comp_def]
  | none =>
      cases hgrant : env.encryptedKey with
      | none => simp [openEnvironment, environmentKeyOf, holding, hgrant]
      | some blob =>
          by_cases hkid : blob.kid = memberKeyWrapKid
          · simp [openEnvironment, environmentKeyOf, holding, hgrant, hkid]
          · simp [openEnvironment, environmentKeyOf, holding, hgrant, hkid, Option.bind_map,
              Function.comp_def]

/-- New metadata of an environment, whose key stays where it was. -/
theorem openEnvironment_resealed {projectId : String} {env sealed : EnvironmentCipher}
    {wrap : Option StoredMemberWrap} {metadata metadata' : Value} {unlocked : Bool} {new : Fresh}
    {keys'' : DesktopKeyring}
    (hopen : keys.openEnvironment P projectId env wrap = some ((metadata, unlocked), keys'))
    (h : keys.sealEnvironment P projectId (some env.id) metadata' new = some (sealed, keys'')) :
    (keys.openEnvironment P projectId { env with encryptedMeta := sealed.encryptedMeta } wrap).map
      Prod.fst = some (metadata', unlocked) := by
  simp only [openEnvironment_eq, Option.bind_eq_bind, Option.bind_eq_some_iff, Option.pure_def,
    Option.some_inj, Prod.mk.injEq] at hopen
  obtain ⟨projectId', hprojectId, envId, henvId, account, haccount, projectKey, hprojectKey, _, -,
    key, hkey, ⟨rfl, rfl⟩, rfl⟩ := hopen
  simp only [sealEnvironment, idOrNew, Option.elim_some, hprojectId, henvId, haccount, hprojectKey,
    Option.isNone_some, Bool.false_eq_true, if_false, Option.bind_eq_bind, Option.bind_some,
    Option.bind_eq_some_iff, Option.pure_def, Option.some_inj, Prod.mk.injEq] at h
  obtain ⟨encryptedMeta, hmeta, rfl, rfl⟩ := h
  simp [openEnvironment_eq, hprojectId, henvId, haccount, hprojectKey, openJson_sealJson hP hmeta,
    hkey]

omit hP in
theorem account_openVault {vault : VaultCipher} {shown : String × String}
    (h : keys.openVault P vault = some (shown, keys')) : keys'.account = keys.account := by
  simp only [openVault, Option.bind_eq_bind, Option.bind_eq_some_iff, Option.pure_def,
    Option.some_inj, Prod.mk.injEq] at h
  obtain ⟨_, -, _, -, _, -, _, -, _, -, -, rfl⟩ := h
  rfl

omit hP in
theorem account_createProject {metadata : Value} {environments : List (Value × Fresh)}
    {new : Fresh} {made : ProjectCipher × List EnvironmentCipher}
    (h : keys.createProject P metadata environments new = some (made, keys')) :
    keys'.account = keys.account := by
  simp only [createProject, Option.bind_eq_bind, Option.bind_eq_some_iff, Option.pure_def,
    Option.some_inj, Prod.mk.injEq] at h
  obtain ⟨_, -, _, -, _, -, _, -, -, rfl⟩ := h
  rfl

omit hP in
theorem account_openProject {project : ProjectCipher} {wrap : Option StoredMemberWrap}
    {metadata : Value} (h : keys.openProject P project wrap = some (metadata, keys')) :
    keys'.account = keys.account := by
  simp only [openProject, Option.bind_eq_bind, Option.bind_eq_some_iff, Option.pure_def,
    Option.some_inj, Prod.mk.injEq] at h
  obtain ⟨_, -, _, -, _, -, _, -, -, rfl⟩ := h
  rfl

omit hP in
theorem account_openEnvironment {projectId : String} {env : EnvironmentCipher}
    {wrap : Option StoredMemberWrap} {shown : Value × Bool}
    (h : keys.openEnvironment P projectId env wrap = some (shown, keys')) :
    keys'.account = keys.account := by
  simp only [openEnvironment_eq, Option.bind_eq_bind, Option.bind_eq_some_iff, Option.pure_def,
    Option.some_inj, Prod.mk.injEq] at h
  obtain ⟨_, -, _, -, _, -, _, -, _, -, key, -, -, rfl⟩ := h
  cases key with
  | none => rfl
  | some key => rfl

end DesktopKeyring

end Zvault.Keyrings
