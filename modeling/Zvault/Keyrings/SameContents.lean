import Mathlib.Data.Option.Basic
import Zvault.Keyrings.Mobile
import Zvault.Keyrings.Sealed

/-!
# Two key rings of one account

While the phone holds the keys that the desktop app holds, it opens what the
desktop app opens. It keeps holding them when it opens each record that the
desktop app makes or opens.
-/

namespace Zvault.Keyrings

open Crypto
open Function (update)
open Json (Value field fieldOr nullable asString asInt asStrings)
open Text (trim)
open Vault (Crates ItemPlaintext)

/-- The phone holds the keys that the desktop app holds. -/
structure Matches (mac : DesktopKeyring) (phone : MobileKeyring) : Prop where
  account : phone.keyset = mac.account
  vaults : phone.vaults = mac.vaults
  projects : phone.projects = mac.projects
  environments : phone.environments = mac.environments

variable {P : Primitives} {crates : Crates} {mac : DesktopKeyring} {phone : MobileKeyring}

theorem readItem_eq : MobileKeyring.readItem = DesktopKeyring.readItem := rfl

@[simp] theorem keyVersion_toMemberWrap (grant : StoredMemberWrap) :
    grant.toMemberWrap.keyVersion = grant.keyVersion := rfl

theorem unwrapMember_eq (key : SymmetricKey) (grant : StoredMemberWrap) (aad : List UInt8) :
    MobileKeyring.unwrapMember P key grant.toMemberWrap aad =
      DesktopKeyring.unwrapGrant P key grant aad := rfl

/-- The phone's keys, with those that the desktop app holds. -/
def MobileKeyring.following (phone : MobileKeyring) (mac : DesktopKeyring) : MobileKeyring :=
  { phone with vaults := mac.vaults, projects := mac.projects, environments := mac.environments }

/-- A project's environments, opened one after the other. -/
def MobileKeyring.openEach (P : Primitives) (phone : MobileKeyring) (projectId : String) :
    List EnvironmentCipher → Option (List (Value × Bool) × MobileKeyring)
  | [] => some ([], phone)
  | env :: envs => do
    let (shown, phone) ← phone.openEnvironment P projectId env none
    let (others, phone) ← phone.openEach P projectId envs
    return (shown :: others, phone)

namespace Matches

variable (h : Matches mac phone)
include h

theorem following {mac' : DesktopKeyring} (haccount : mac'.account = mac.account) :
    Matches mac' (phone.following mac') :=
  ⟨h.account.trans haccount.symm, rfl, rfl, rfl⟩

theorem itemKey_eq (vaultId itemId : String) (item : ItemCipher) :
    phone.itemKey P vaultId itemId item =
      (mac.vaultKey vaultId).bind fun key =>
        DesktopKeyring.unwrapItemKey P key vaultId itemId item := by
  simp [MobileKeyring.itemKey, DesktopKeyring.vaultKey, DesktopKeyring.unwrapItemKey, h.account,
    h.vaults, Option.bind_assoc]

/-- An item is opened to the same contents, private keys included. -/
theorem openItem_eq (vaultId : String) (item : ItemCipher) :
    phone.openItem P crates vaultId item = mac.openItemPlaintext P crates vaultId item := by
  simp only [MobileKeyring.openItem, DesktopKeyring.openItemPlaintext, DesktopKeyring.openSealed,
    DesktopKeyring.openLogin, MobileKeyring.itemKey, DesktopKeyring.vaultKey,
    DesktopKeyring.unwrapItemKey, h.account, h.vaults, readItem_eq, Option.bind_eq_bind,
    Option.bind_assoc]
  refine Option.bind_congr fun vaultId _ => Option.bind_congr fun itemId _ =>
    Option.bind_congr fun _ _ => Option.bind_congr fun vaultKey _ => Option.bind_congr fun itemKey _ =>
    Option.bind_congr fun json _ => Option.bind_congr fun contents _ => ?_
  obtain ⟨version, kind, plaintext⟩ := contents
  by_cases hkind : version ≠ 1 ∨ kind ≠ itemKindLogin
  · simp only [if_pos hkind, Option.bind_none]
  · simp only [if_neg hkind, Option.bind_some, Vault.openPlaintext]
    cases plaintext.passkey.all crates.validPasskey <;>
      cases plaintext.sshKey.all crates.validSshKey <;> rfl

/-- A vault that the desktop app opens. The phone reads no version of its name. -/
theorem openVault_eq_some {vault : VaultCipher} {s : String × String} {mac' : DesktopKeyring}
    (hopen : mac.openVault P vault = some (s, mac')) :
    phone.openVault P vault = some (s, phone.following mac') := by
  simp only [DesktopKeyring.openVault, Option.bind_eq_bind, Option.bind_eq_some_iff,
    Option.pure_def, Option.some_inj, Prod.mk.injEq] at hopen
  obtain ⟨id, hid, account, haccount, key, hkey, json, hjson, name, hname, rfl, rfl⟩ := hopen
  simp only [DesktopKeyring.readVaultMeta, Option.bind_eq_bind, Option.bind_eq_some_iff] at hname
  obtain ⟨_, -, hname⟩ := hname
  simp [MobileKeyring.openVault, MobileKeyring.following, h.account, h.vaults, h.projects,
    h.environments, hid, haccount, hkey, hjson, hname]

/-- A project is opened to the same metadata, or by neither. -/
theorem openProject_eq (project : ProjectCipher) (wrap : Option StoredMemberWrap) :
    phone.openProject P project (wrap.map StoredMemberWrap.toMemberWrap) =
      (mac.openProject P project wrap).map fun (metadata, mac') =>
        (metadata, phone.following mac') := by
  cases wrap with
  | none =>
      simp [MobileKeyring.openProject, DesktopKeyring.openProject, MobileKeyring.following,
        DesktopKeyring.projectKeyOf,
        h.account, h.vaults, h.environments, h.projects, Option.map_bind]
  | some wrap =>
      simp [MobileKeyring.openProject, DesktopKeyring.openProject, MobileKeyring.following,
        DesktopKeyring.projectKeyOf,
        DesktopKeyring.unwrapProjectKey, unwrapMember_eq, h.account, h.vaults, h.environments,
        h.projects, Option.map_bind]

/-- An environment is opened to the same metadata, with or without its values, or by neither. -/
theorem openEnvironment_eq (projectId : String) (env : EnvironmentCipher)
    (wrap : Option StoredMemberWrap) :
    phone.openEnvironment P projectId env (wrap.map StoredMemberWrap.toMemberWrap) =
      (mac.openEnvironment P projectId env wrap).map fun (shown, mac') =>
        (shown, phone.following mac') := by
  have hkept : phone.following mac = phone := by
    simp only [MobileKeyring.following, ← h.vaults, ← h.projects, ← h.environments]
  cases wrap with
  | some wrap =>
      simp [MobileKeyring.openEnvironment, DesktopKeyring.openEnvironment, MobileKeyring.following,
        DesktopKeyring.unwrapEnvironmentKey, unwrapMember_eq, h.account, h.vaults, h.environments,
        h.projects, Option.map_bind, Option.bind_assoc]
  | none =>
      cases hgrant : env.encryptedKey with
      | none =>
          simp [MobileKeyring.openEnvironment, DesktopKeyring.openEnvironment,
            h.account, h.projects, Option.map_bind, hgrant, hkept]
      | some blob =>
          by_cases hkid : blob.kid = memberKeyWrapKid
          · simp [MobileKeyring.openEnvironment, DesktopKeyring.openEnvironment,
              h.account, h.projects, Option.map_bind, hgrant, hkid, hkept]
          · simp [MobileKeyring.openEnvironment, DesktopKeyring.openEnvironment,
              MobileKeyring.following, h.account, h.vaults, h.projects, h.environments,
              Option.map_bind, Option.bind_map, hgrant, hkid]

/-- A folder's or a secret's metadata. -/
theorem openEntry_eq (projectId : String) (kind : EntryKind) (id : String) (blob : Blob) :
    phone.openEntry P projectId kind id blob = mac.openEntry P projectId kind id blob := by
  simp only [MobileKeyring.openEntry, DesktopKeyring.openEntry, h.account, h.projects]

theorem openSecretValue_eq (projectId secretId environmentId : String) (blob : Blob) :
    phone.openSecretValue P projectId secretId environmentId blob =
      mac.openSecretValue P projectId secretId environmentId blob := by
  simp only [MobileKeyring.openSecretValue, DesktopKeyring.openSecretValue, h.account,
    h.environments]

end Matches

/-- Setting the one-time password setup of an item changes nothing else that is read of it. -/
theorem readItem_set_totp {v : Value} (hobject : v.isObject = true) {version : ℤ} {kind : String}
    {p : ItemPlaintext} (h : DesktopKeyring.readItem v = some (version, kind, p)) (totp : String) :
    DesktopKeyring.readItem (v.set "totp" (.str totp)) = some (version, kind, { p with totp }) := by
  simp only [DesktopKeyring.readItem, Option.bind_eq_bind, Option.bind_eq_some_iff,
    Option.pure_def, Option.some_inj, Prod.mk.injEq] at h
  obtain ⟨_, hversion, _, hkind, _, htitle, _, husername, _, hpassword, _, hurls, _, hnotes, _, -, _,
    hpasskey, _, hsshKey, rfl, rfl, rfl⟩ := h
  simp only [DesktopKeyring.readItem, ne_eq, String.reduceEq, not_false_eq_true,
    Json.field_set_of_ne, Json.fieldOr_set_of_ne, Json.fieldOr_set hobject, hversion, hkind, htitle,
    husername, hpassword, hurls, hnotes, hpasskey, hsshKey, asString, Option.bind_eq_bind,
    Option.bind_some, Option.pure_def]

section Sealed

variable (hP : P.Correct)
include hP

/-- After the phone's edit, the item holds the setup, and every other field as it was. -/
theorem Matches.openSealed_resealed (h : Matches mac phone) {vaultId totp : String}
    {item : ItemCipher} {p : ItemPlaintext} {nonce : Nonce} {s : Sealed}
    (hopen : mac.openSealed P vaultId item = some p)
    (hreseal : phone.resealItemTotp P vaultId item totp nonce = some s) :
    mac.openSealed P vaultId { item with encryptedData := Blob.new P item.id s } =
      some { p with totp } := by
  simp only [DesktopKeyring.openSealed, DesktopKeyring.openLogin, Option.bind_eq_bind,
    Option.bind_eq_some_iff] at hopen
  obtain ⟨vaultId', hvaultId, itemId, hitemId, vaultKey, hvaultKey, itemKey, hitemKey, json,
    hjson, ⟨version, kind, p'⟩, hread, hlogin⟩ := hopen
  split_ifs at hlogin with hkind
  obtain rfl := Option.some_inj.mp hlogin
  obtain ⟨rfl, rfl⟩ : version = 1 ∧ kind = itemKindLogin := by simpa using hkind
  simp only [MobileKeyring.resealItemTotp, hvaultId, hitemId, h.itemKey_eq, hvaultKey, hitemKey,
    Option.bind_eq_bind, Option.bind_some, Option.bind_eq_some_iff] at hreseal
  obtain ⟨json', hjson', hreseal⟩ := hreseal
  obtain ⟨hsame, hobject⟩ := openJson_eq_some hjson'
  obtain rfl := Option.some_inj.mp (hjson.symm.trans hsame)
  split_ifs at hreseal
  have hid : itemId = item.id := canonicalId_eq_some hitemId
  have hseal : sealText P itemKey (json.set "totp" (.str totp)) (itemDataAad vaultId' itemId)
      itemId nonce = some (Blob.new P item.id s) := by
    rw [sealText, hreseal, Option.map_some, hid]
  have hnew := openText_sealText hP hseal
  have hsetup := readItem_set_totp hobject hread totp
  have hkey : DesktopKeyring.unwrapItemKey P vaultKey vaultId' itemId
      { item with encryptedData := Blob.new P item.id s } = some itemKey := hitemKey
  simp only [DesktopKeyring.openSealed, DesktopKeyring.openLogin, hvaultId, hitemId, hvaultKey, hkey,
    hnew, hsetup, Option.bind_eq_bind, Option.bind_some, ne_eq, not_true_eq_false, or_self, if_false]

theorem Matches.openItemPlaintext_resealed (h : Matches mac phone) {vaultId totp : String}
    {item : ItemCipher} {p : ItemPlaintext} {nonce : Nonce} {s : Sealed}
    (hopen : mac.openItemPlaintext P crates vaultId item = some p)
    (hreseal : phone.resealItemTotp P vaultId item totp nonce = some s) :
    mac.openItemPlaintext P crates vaultId { item with encryptedData := Blob.new P item.id s } =
      some { p with totp } := by
  obtain ⟨q, hq, hp⟩ := Option.bind_eq_some_iff.mp hopen
  rw [DesktopKeyring.openItemPlaintext, h.openSealed_resealed hP hq hreseal, Option.bind_some,
    Vault.openPlaintext_totp, hp, Option.map_some]

/-- The phone opens a project that the desktop app makes, and then each of its environments. -/
theorem Matches.openEach_sealed (h : Matches mac phone) {account projectKey : SymmetricKey}
    {id : String} {new : List (Value × Fresh)} {envs : List EnvironmentCipher}
    (hid : canonicalId id = some id) (haccount : mac.account = some account)
    (hprojectKey : mac.projects id = some projectKey)
    (hseal : new.mapM (DesktopKeyring.sealNewEnvironment P account projectKey id) = some envs) :
    phone.openEach P id envs = some (new.map fun env => (env.1, true),
      phone.following { mac with
        environments := new.foldl
          (fun known env => update known (id, env.2.id.hyphenated) (some env.2.key))
          mac.environments }) := by
  induction new generalizing mac phone envs with
  | nil =>
      obtain rfl : [] = envs := by simpa using hseal
      simp [MobileKeyring.openEach, MobileKeyring.following, ← h.vaults, ← h.projects,
        ← h.environments]
  | cons env new ih =>
      simp only [List.mapM_cons, Option.bind_eq_bind, Option.bind_eq_some_iff, Option.pure_def,
        Option.some_inj] at hseal
      obtain ⟨cipher, hcipher, rest, hrest, rfl⟩ := hseal
      have hmac := DesktopKeyring.openEnvironment_sealNewEnvironment hP hid haccount hprojectKey hcipher
      have hphone := h.openEnvironment_eq (P := P) id cipher none
      simp only [hmac, Option.map_none, Option.map_some] at hphone
      have hmatches := h.following (show DesktopKeyring.account { mac with
        environments := update mac.environments (id, env.2.id.hyphenated) (some env.2.key) } =
          mac.account from rfl)
      have hopen := ih hmatches haccount hprojectKey hrest
      simp only [MobileKeyring.openEach, hphone, hopen, Option.bind_eq_bind, Option.bind_some,
        Option.pure_def, List.map_cons, List.foldl_cons]
      rfl

theorem Matches.openProject_created (h : Matches mac phone) {metadata : Value}
    {environments : List (Value × Fresh)} {new : Fresh} {project : ProjectCipher}
    {envs : List EnvironmentCipher} {mac' : DesktopKeyring}
    (hmake : mac.createProject P metadata environments new = some ((project, envs), mac')) :
    ∃ phone', phone.openProject P project none = some (metadata, phone') ∧
      phone'.openEach P project.id envs =
        some (environments.map fun env => (env.1, true), phone.following mac') := by
  simp only [DesktopKeyring.createProject, Option.bind_eq_bind, Option.bind_eq_some_iff,
    Option.pure_def, Option.some_inj, Prod.mk.injEq] at hmake
  obtain ⟨account, haccount, encryptedKey, hkey, encryptedMeta, hmeta, _, hseal, ⟨rfl, rfl⟩, rfl⟩ :=
    hmake
  have hmac : mac.openProject P ⟨new.id.hyphenated, encryptedKey, encryptedMeta⟩ none =
      some (metadata,
        { mac with projects := update mac.projects new.id.hyphenated (some new.key) }) := by
    simp [DesktopKeyring.openProject, DesktopKeyring.projectKeyOf, haccount,
      unwrapBlob_wrapBlob hP hkey, openJson_sealJson hP hmeta]
  have hphone := h.openProject_eq (P := P) ⟨new.id.hyphenated, encryptedKey, encryptedMeta⟩ none
  simp only [hmac, Option.map_none, Option.map_some] at hphone
  have hmatches := h.following (show DesktopKeyring.account { mac with
    projects := update mac.projects new.id.hyphenated (some new.key) } = mac.account from rfl)
  refine ⟨_, hphone, ?_⟩
  rw [hmatches.openEach_sealed hP (canonicalId_hyphenated new.id) haccount
    (Function.update_self ..) hseal]
  rfl

end Sealed

end Zvault.Keyrings
