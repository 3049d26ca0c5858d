import Mathlib.Data.Option.Basic
import Zvault.Bytes.Labels
import Zvault.Keyrings.SameContents

/-!
# What the phone opens

The desktop app and the phone start with the same account key. From then on the
desktop app makes, seals and opens records, and the phone opens each record that
leaves a key in the desktop app's key ring.
-/

namespace Zvault.Keyrings

open Crypto
open Function (update)
open Json (Value)
open Text (trim)
open Vault (Crates ItemFields ItemPlaintext)

/-- The keys that are held after an operation, which keeps them where it fails. -/
def MobileKeyring.after {α : Type} (phone : MobileKeyring)
    (result : Option (α × MobileKeyring)) : MobileKeyring :=
  result.elim phone Prod.snd

/-- The key rings of an account, on a desktop app and a phone that opens the same records. -/
inductive Mirrors (P : Primitives) : DesktopKeyring → MobileKeyring → Prop
  | unlock (email : String) (account : SymmetricKey) :
      Mirrors P (.unlock account) (.unlock email account)
  | lock {mac : DesktopKeyring} {phone : MobileKeyring} : Mirrors P mac phone →
      Mirrors P .locked .locked
  | createVault {mac mac' : DesktopKeyring} {phone : MobileKeyring} {name : String} {new : Fresh}
      {vault : VaultCipher} : Mirrors P mac phone →
      mac.createVault P name new = some (vault, mac') →
      Mirrors P mac' (phone.after (phone.openVault P vault))
  | openVault {mac mac' : DesktopKeyring} {phone : MobileKeyring} {vault : VaultCipher}
      {shown : String × String} : Mirrors P mac phone →
      mac.openVault P vault = some (shown, mac') →
      Mirrors P mac' (phone.after (phone.openVault P vault))
  | createProject {mac mac' : DesktopKeyring} {phone : MobileKeyring} {metadata : Value}
      {environments : List (Value × Fresh)} {new : Fresh} {project : ProjectCipher}
      {envs : List EnvironmentCipher} : Mirrors P mac phone →
      mac.createProject P metadata environments new = some ((project, envs), mac') →
      Mirrors P mac' (phone.after
        ((phone.openProject P project none).bind fun opened => opened.2.openEach P project.id envs))
  | openProject {mac mac' : DesktopKeyring} {phone : MobileKeyring} {project : ProjectCipher}
      {wrap : Option StoredMemberWrap} {metadata : Value} : Mirrors P mac phone →
      mac.openProject P project wrap = some (metadata, mac') →
      Mirrors P mac'
        (phone.after (phone.openProject P project (wrap.map StoredMemberWrap.toMemberWrap)))
  | openEnvironment {mac mac' : DesktopKeyring} {phone : MobileKeyring} {projectId : String}
      {env : EnvironmentCipher} {wrap : Option StoredMemberWrap} {shown : Value × Bool} :
      Mirrors P mac phone → mac.openEnvironment P projectId env wrap = some (shown, mac') →
      Mirrors P mac' (phone.after
        (phone.openEnvironment P projectId env (wrap.map StoredMemberWrap.toMemberWrap)))
  | sealEnvironment {mac mac' : DesktopKeyring} {phone : MobileKeyring} {projectId : String}
      {id : Option String} {metadata : Value} {new : Fresh} {env : EnvironmentCipher} :
      Mirrors P mac phone → mac.sealEnvironment P projectId id metadata new = some (env, mac') →
      Mirrors P mac' (phone.after (phone.openEnvironment P projectId env none))

/-- Items, before and after the phone's edit of their one-time password setup. -/
structure OpensItems (P : Primitives) (crates : Crates) (mac : DesktopKeyring)
    (phone : MobileKeyring) : Prop where
  vault : ∀ {vault shown mac'}, mac.openVault P vault = some (shown, mac') →
    ∃ phone', phone.openVault P vault = some (shown, phone')
  newVault : ∀ {name new vault mac'}, mac.createVault P name new = some (vault, mac') →
    ∃ phone', phone.openVault P vault = some ((vault.id, trim name), phone')
  item : ∀ vaultId item,
    phone.openItem P crates vaultId item = mac.openItemPlaintext P crates vaultId item
  sealedItem : ∀ {vaultId existing fields new item},
    mac.sealItem P crates vaultId existing fields new = some item →
      ∃ p, Vault.sealItem crates (existing.bind (mac.openSealed P vaultId)) fields = some p ∧
        phone.openItem P crates vaultId item = Vault.openPlaintext crates p
  resealed : ∀ {vaultId item p totp nonce s},
    mac.openItemPlaintext P crates vaultId item = some p →
      phone.resealItemTotp P vaultId item totp nonce = some s →
        mac.openItemPlaintext P crates vaultId
          { item with encryptedData := Blob.new P item.id s } = some { p with totp }
  resealedFields : ∀ {vaultId item fields totp nonce s},
    mac.openItem P crates vaultId item = some fields →
      phone.resealItemTotp P vaultId item totp nonce = some s →
        mac.openItem P crates vaultId
          { item with encryptedData := Blob.new P item.id s } = some { fields with totp }
  setTotp : ∀ {vaultId item p setup nonce blob},
    mac.openItemPlaintext P crates vaultId item = some p →
      phone.itemSetTotp P crates vaultId item setup nonce = some blob →
        ∃ totp, Vault.normalizeTotp crates setup = some totp ∧
          mac.openItemPlaintext P crates vaultId { item with encryptedData := blob } =
            some { p with totp }

/-- Projects and what is in them. -/
structure OpensProjects (P : Primitives) (mac : DesktopKeyring) (phone : MobileKeyring) : Prop where
  project : ∀ project wrap,
    (phone.openProject P project (wrap.map StoredMemberWrap.toMemberWrap)).map Prod.fst =
      (mac.openProject P project wrap).map Prod.fst
  /-- The metadata, and whether the values can be read. -/
  environment : ∀ projectId env wrap,
    (phone.openEnvironment P projectId env (wrap.map StoredMemberWrap.toMemberWrap)).map Prod.fst =
      (mac.openEnvironment P projectId env wrap).map Prod.fst
  entry : ∀ projectId kind id blob,
    phone.openEntry P projectId kind id blob = mac.openEntry P projectId kind id blob
  secretValue : ∀ projectId secretId environmentId blob,
    phone.openSecretValue P projectId secretId environmentId blob =
      mac.openSecretValue P projectId secretId environmentId blob
  newProject : ∀ {metadata environments new project envs mac'},
    mac.createProject P metadata environments new = some ((project, envs), mac') →
      ∃ phone' phone'', phone.openProject P project none = some (metadata, phone') ∧
        phone'.openEach P project.id envs =
          some (environments.map fun env => (env.1, true), phone'')
  sealedProjectMeta : ∀ {project wrap metadata metadata' mac' nonce blob},
    mac.openProject P project wrap = some (metadata, mac') →
      mac'.sealProjectMeta P project.id metadata' nonce = some blob →
        (phone.openProject P { project with encryptedMeta := blob }
          (wrap.map StoredMemberWrap.toMemberWrap)).map Prod.fst = some metadata'
  newEnvironment : ∀ {projectId metadata new env mac'},
    mac.sealEnvironment P projectId none metadata new = some (env, mac') →
      (phone.openEnvironment P projectId env none).map Prod.fst = some (metadata, true)
  /-- An environment that is sealed again is as open as it was. -/
  sealedEnvironment : ∀ {projectId env wrap metadata unlocked metadata' new sealed mac' mac''},
    mac.openEnvironment P projectId env wrap = some ((metadata, unlocked), mac') →
      mac.sealEnvironment P projectId (some env.id) metadata' new = some (sealed, mac'') →
        (phone.openEnvironment P projectId { env with encryptedMeta := sealed.encryptedMeta }
          (wrap.map StoredMemberWrap.toMemberWrap)).map Prod.fst = some (metadata', unlocked)
  sealedEntry : ∀ {projectId kind id metadata newId nonce sealedId blob},
    mac.sealEntry P projectId kind id metadata newId nonce = some (sealedId, blob) →
      phone.openEntry P projectId kind sealedId blob = some metadata
  sealedValue : ∀ {projectId secretId environmentId value nonce blob},
    mac.sealSecretValue P projectId secretId environmentId value nonce = some blob →
      phone.openSecretValue P projectId secretId environmentId blob = some value

variable {P : Primitives} {crates : Crates} {mac mac' : DesktopKeyring} {phone : MobileKeyring}

@[simp] theorem after_some {α : Type} (a : α) (phone' : MobileKeyring) :
    phone.after (some (a, phone')) = phone' := rfl

/-- The phone holds what the desktop app holds. -/
theorem Mirrors.matches (hP : P.Correct) (h : Mirrors P mac phone) : Matches mac phone := by
  induction h with
  | unlock email account => exact ⟨rfl, rfl, rfl, rfl⟩
  | lock _ _ => exact ⟨rfl, rfl, rfl, rfl⟩
  | createVault _ hmake ih =>
      have hopen := DesktopKeyring.openVault_createVault hP hmake
      rw [ih.openVault_eq_some hopen, after_some]
      exact ih.following (DesktopKeyring.account_openVault hopen)
  | openVault _ hopen ih =>
      rw [ih.openVault_eq_some hopen, after_some]
      exact ih.following (DesktopKeyring.account_openVault hopen)
  | createProject _ hmake ih =>
      obtain ⟨phone', hproject, henvs⟩ := ih.openProject_created hP hmake
      rw [hproject, Option.bind_some, henvs, after_some]
      exact ih.following (DesktopKeyring.account_createProject hmake)
  | openProject _ hopen ih =>
      simp only [ih.openProject_eq, hopen, Option.map_some, after_some]
      exact ih.following (DesktopKeyring.account_openProject hopen)
  | openEnvironment _ hopen ih =>
      simp only [ih.openEnvironment_eq, hopen, Option.map_some, after_some]
      exact ih.following (DesktopKeyring.account_openEnvironment hopen)
  | @sealEnvironment _ _ _ projectId _ _ _ env _ hseal ih =>
      have hopen := DesktopKeyring.openEnvironment_sealEnvironment hP hseal
      have hphone := ih.openEnvironment_eq (P := P) projectId env none
      simp only [hopen, Option.map_none, Option.map_some] at hphone
      rw [hphone, after_some]
      exact ih.following (DesktopKeyring.account_openEnvironment hopen)

/-- The phone stores the setup that the desktop app would store. -/
theorem itemSetTotp_eq (vaultId : String) (item : ItemCipher) (setup : String) (nonce : Nonce) :
    phone.itemSetTotp P crates vaultId item setup nonce =
      (Vault.normalizeTotp crates setup).bind fun totp =>
        (phone.resealItemTotp P vaultId item totp nonce).map (Blob.new P item.id) := by
  unfold MobileKeyring.itemSetTotp Vault.normalizeTotp
  split_ifs with hempty
  · simp [Option.map_eq_bind]
  · simp [Option.map_eq_bind]

/-- Every item of the desktop app, and the phone's edit. -/
theorem Matches.opensItems (hP : P.Correct) (h : Matches mac phone) :
    OpensItems P crates mac phone where
  vault hopen := ⟨_, h.openVault_eq_some hopen⟩
  newVault hmake := ⟨_, h.openVault_eq_some (DesktopKeyring.openVault_createVault hP hmake)⟩
  item := h.openItem_eq
  sealedItem := by
    intro vaultId existing fields new item hseal
    obtain ⟨p, hp, hopen⟩ := DesktopKeyring.openSealed_sealItem hP hseal
    refine ⟨p, hp, ?_⟩
    rw [h.openItem_eq, DesktopKeyring.openItemPlaintext, hopen, Option.bind_some]
  resealed hopen hreseal := h.openItemPlaintext_resealed hP hopen hreseal
  resealedFields := by
    intro vaultId item fields totp nonce s hopen hreseal
    obtain ⟨p, hp, hfields⟩ := Option.bind_eq_some_iff.mp hopen
    rw [DesktopKeyring.openItem, h.openSealed_resealed hP hp hreseal, Option.bind_some,
      Vault.openItem_totp, hfields, Option.map_some]
  setTotp := by
    intro vaultId item p setup nonce blob hopen hset
    simp only [itemSetTotp_eq, Option.bind_eq_some_iff, Option.map_eq_some_iff] at hset
    obtain ⟨totp, htotp, s, hreseal, rfl⟩ := hset
    exact ⟨totp, htotp, h.openItemPlaintext_resealed hP hopen hreseal⟩

/-- Everything in the desktop app's projects. -/
theorem Matches.opensProjects (hP : P.Correct) (h : Matches mac phone) :
    OpensProjects P mac phone where
  project project wrap := by
    rw [h.openProject_eq, Option.map_map]
    rfl
  environment projectId env wrap := by
    rw [h.openEnvironment_eq, Option.map_map]
    rfl
  entry := h.openEntry_eq
  secretValue := h.openSecretValue_eq
  newProject := by
    intro metadata environments new project envs mac' hmake
    obtain ⟨phone', hproject, henvs⟩ := h.openProject_created hP hmake
    exact ⟨phone', _, hproject, henvs⟩
  sealedProjectMeta := by
    intro project wrap metadata metadata' mac' nonce blob hopen hseal
    rw [h.openProject_eq, Option.map_map]
    exact DesktopKeyring.openProject_sealProjectMeta hP hopen hseal
  newEnvironment := by
    intro projectId metadata new env mac' hseal
    have hphone := h.openEnvironment_eq (P := P) projectId env none
    rw [Option.map_none] at hphone
    rw [hphone, DesktopKeyring.openEnvironment_sealEnvironment hP hseal]
    rfl
  sealedEnvironment := by
    intro projectId env wrap metadata unlocked metadata' new sealed mac' mac'' hopen hseal
    rw [h.openEnvironment_eq, Option.map_map]
    exact DesktopKeyring.openEnvironment_resealed hP hopen hseal
  sealedEntry := by
    intro projectId kind id metadata newId nonce sealedId blob hseal
    rw [h.openEntry_eq, DesktopKeyring.openEntry_sealEntry hP hseal]
  sealedValue := by
    intro projectId secretId environmentId value nonce blob hseal
    rw [h.openSecretValue_eq, DesktopKeyring.openSecretValue_sealSecretValue hP hseal]

/-- What the phone opens of the account that it shares with a desktop app. -/
theorem phone_opens (crates : Crates) (hP : P.Correct) (h : Mirrors P mac phone) :
    Matches mac phone ∧ OpensItems P crates mac phone ∧ OpensProjects P mac phone :=
  ⟨h.matches hP, (h.matches hP).opensItems hP, (h.matches hP).opensProjects hP⟩

/-- Bytes as letters, one for each half. -/
def letterBytes (bytes : List UInt8) : List UInt8 :=
  bytes.flatMap fun b => [.ofNat (65 + b.toNat / 16), .ofNat (65 + b.toNat % 16)]

theorem utf8_letter : ∀ n < 16, String.utf8EncodeChar (.ofNat (65 + n)) = [.ofNat (65 + n)] := by
  decide

theorem isValidUTF8_letterBytes (bytes : List UInt8) :
    ByteArray.IsValidUTF8 ⟨⟨letterBytes bytes⟩⟩ := by
  refine ⟨bytes.flatMap fun b => [.ofNat (65 + b.toNat / 16), .ofNat (65 + b.toNat % 16)], ?_⟩
  refine ByteArray.ext (Array.toList_inj.mp ?_)
  rw [List.utf8Encode, List.toList_data_toByteArray, List.flatMap_assoc]
  refine List.flatMap_congr fun b _ => ?_
  have hb : b.toNat < 256 := b.toNat_lt
  rw [List.flatMap_cons, List.flatMap_singleton, utf8_letter _ (by omega), utf8_letter _ (by omega)]
  rfl

def letters (bytes : List UInt8) : String :=
  .ofByteArray ⟨⟨letterBytes bytes⟩⟩ (isValidUTF8_letterBytes bytes)

def readLetters : List UInt8 → List UInt8
  | hi :: lo :: rest => .ofNat (16 * (hi.toNat - 65) + (lo.toNat - 65)) :: readLetters rest
  | _ => []

theorem readLetters_letters (bytes : List UInt8) :
    readLetters (Bytes.utf8 (letters bytes)) = bytes := by
  change readLetters (letterBytes bytes) = bytes
  induction bytes with
  | nil => rfl
  | cons b bytes ih =>
    have hb : b.toNat < 256 := b.toNat_lt
    rw [letterBytes, List.flatMap_cons, List.cons_append, List.singleton_append, readLetters,
      ← letterBytes, ih]
    congr 1
    refine UInt8.toNat_inj.mp ?_
    simp only [UInt8.toNat_ofNat']
    omega

/-- Primitives that leave what they seal as it is, and know some values. -/
def plainPrimitives (known : List Value) : Primitives where
  encrypt _ _ _ text := some text
  decrypt _ _ _ ct := some ct
  publicKey key := ⟨key.bytes, key.length_eq⟩
  wrapToMember _ recipient _ key _ := some ⟨recipient, ⟨List.replicate 24 31, rfl⟩, key.bytes⟩
  unwrapFromMember _ _ _ boxed :=
    if h : boxed.sealed.ciphertext.length = 32 then some ⟨boxed.sealed.ciphertext, h⟩ else none
  base64 := letters
  unbase64 s := some (readLetters (Bytes.utf8 s))
  toVec v := (known.find? fun w => w.toUtf8 = v.toUtf8).map Value.toUtf8
  fromSlice bytes := known.find? fun v => v.toUtf8 = bytes

theorem plainPrimitives_correct (known : List Value) : (plainPrimitives known).Correct where
  decrypt_encrypt h := by
    obtain rfl := Option.some_inj.mp h
    rfl
  unwrap_wrap {_ _ _ key _ _} h := by
    obtain rfl := Option.some_inj.mp h
    exact dif_pos key.length_eq
  unbase64_base64 bytes := congrArg some (readLetters_letters bytes)
  fromSlice_toVec {v json} h := by
    obtain ⟨w, hw, rfl⟩ := Option.map_eq_some_iff.mp h
    have hsame := List.find?_some hw
    obtain rfl := Json.toUtf8_inj (of_decide_eq_true hsame)
    exact hw

theorem toVec_plainPrimitives {known : List Value} {v : Value} (h : v ∈ known) :
    (plainPrimitives known).toVec v = some v.toUtf8 := by
  obtain ⟨w, hw⟩ := Option.isSome_iff_exists.mp
    (List.find?_isSome (p := fun w => w.toUtf8 = v.toUtf8) |>.mpr ⟨v, h, decide_eq_true rfl⟩)
  have hsame := List.find?_some hw
  obtain rfl := Json.toUtf8_inj (of_decide_eq_true hsame)
  exact Option.map_eq_some_iff.mpr ⟨w, hw, rfl⟩

def plainFresh (b : UInt8) : Fresh :=
  ⟨⟨List.replicate 16 b, List.length_replicate⟩, ⟨List.replicate 32 b, List.length_replicate⟩,
    ⟨List.replicate 24 b, List.length_replicate⟩, ⟨List.replicate 24 b, List.length_replicate⟩⟩

/-- Crates that take every key, and every setup of a one-time password as it is. -/
def openCrates : Crates where
  totpUri := some
  validPasskey _ := true
  publicKey p := some p.privateKey
  newPasskey p := some ⟨p.rpId, p.userName, p.userHandle, p.credentialId, p.privateKey, 9⟩
  validSshKey _ := true
  sshPublic k := some ⟨k.privateKey, k.privateKey, "ssh-ed25519", ""⟩
  setComment k _ := some k
  newSshKey k := some ⟨k.privateKey, 9⟩

def accountKey : SymmetricKey := (plainFresh 0).key

def vaultMeta : Value := .obj [("v", .num 1), ("name", .str "Personal")]

def projectMeta : Value := .obj [("name", .str "Web")]

def environmentMeta : Value := .obj [("name", .str "Production")]

def loginFields : ItemFields :=
  ⟨"Mail", "me", "old", ["https://mail.example"], "two keys", "",
    some ⟨"mail.example", "me", "AQ", "AAEC", "", 0, "passkey"⟩,
    some ⟨"", "", "", "", 0, "ssh", ""⟩⟩

def login : ItemPlaintext :=
  ⟨"Mail", "me", "old", ["https://mail.example"], "two keys", "",
    some ⟨"mail.example", "me", "AQ", "AAEC", "passkey", 9⟩, some ⟨"ssh", 9⟩⟩

def setup : String := "otpauth://totp/Mail?secret=GE"

def inUse : Primitives :=
  plainPrimitives [vaultMeta, projectMeta, environmentMeta, .obj [("value", .str "s3cret")],
    .obj (itemMembers login), .obj (itemMembers { login with totp := setup })]

/-- The grant of an environment key that another member rotated. -/
def rotatedWrap : StoredMemberWrap :=
  ⟨⟨"me", inUse.base64 accountKey.bytes, inUse.base64 accountKey.bytes,
      inUse.base64 accountKey.bytes,
      Blob.new inUse memberKeyWrapKid ⟨(plainFresh 0).keyNonce, (plainFresh 4).key.bytes⟩⟩, some 2⟩

/-- The phone, once it has opened a vault, a project and an environment whose key was rotated. -/
def phoneOf (vault : VaultCipher) (project : ProjectCipher × List EnvironmentCipher)
    (env : EnvironmentCipher) : MobileKeyring :=
  let unlocked := MobileKeyring.unlock "me" accountKey
  let withVault := unlocked.after (unlocked.openVault inUse vault)
  let withProject := withVault.after
    ((withVault.openProject inUse project.1 none).bind fun opened =>
      opened.2.openEach inUse project.1.id project.2)
  withProject.after (withProject.openEnvironment inUse project.1.id env
    ((some rotatedWrap).map StoredMemberWrap.toMemberWrap))

/-- The desktop app makes a vault and a project, opens an environment whose key another member
rotated, and seals a login with its keys and a value. The phone opens both and saves a one-time
password setup, with which the desktop app opens the login. -/
theorem phone_opens_rotated : ∃ mac phone vaultId item blob projectId secretId environmentId value,
    Mirrors inUse mac phone ∧
    mac.environments (projectId, environmentId) = some (plainFresh 4).key ∧
    phone.openSecretValue inUse projectId secretId environmentId value = some "s3cret" ∧
    phone.openItem inUse openCrates vaultId item = some login ∧
    phone.itemSetTotp inUse openCrates vaultId item setup (plainFresh 0).dataNonce = some blob ∧
    mac.openItemPlaintext inUse openCrates vaultId { item with encryptedData := blob } =
      some { login with totp := setup } := by
  have hran : (((DesktopKeyring.unlock accountKey).createVault inUse "Personal" (plainFresh 1)).bind
      fun vault =>
        (vault.2.createProject inUse projectMeta [(environmentMeta, plainFresh 3)]
          (plainFresh 2)).bind fun project =>
        project.1.2.head?.bind fun env =>
        (project.2.openEnvironment inUse project.1.1.id env (some rotatedWrap)).bind fun opened =>
        (opened.2.sealItem inUse openCrates vault.1.id none loginFields (plainFresh 5)).bind
          fun item =>
        (opened.2.sealSecretValue inUse project.1.1.id (plainFresh 6).id.hyphenated env.id "s3cret"
          (plainFresh 0).dataNonce).bind fun _ =>
        ((phoneOf vault.1 project.1 env).itemSetTotp inUse openCrates vault.1.id item setup
          (plainFresh 0).dataNonce).map fun _ =>
        (opened.2.environments (project.1.1.id, env.id),
          opened.2.openItemPlaintext inUse openCrates vault.1.id item)) =
      some (some (plainFresh 4).key, some login) := by decide +kernel
  obtain ⟨vault, hvault, hran⟩ := Option.bind_eq_some_iff.mp hran
  obtain ⟨project, hproject, hran⟩ := Option.bind_eq_some_iff.mp hran
  obtain ⟨env, -, hran⟩ := Option.bind_eq_some_iff.mp hran
  obtain ⟨opened, hopened, hran⟩ := Option.bind_eq_some_iff.mp hran
  obtain ⟨item, -, hran⟩ := Option.bind_eq_some_iff.mp hran
  obtain ⟨value, hvalue, hran⟩ := Option.bind_eq_some_iff.mp hran
  obtain ⟨blob, hset, hran⟩ := Option.map_eq_some_iff.mp hran
  obtain ⟨hkey, hitem⟩ := Prod.mk.inj hran
  have hunlocked : Mirrors inUse _ _ := .unlock "me" accountKey
  have hmirrors : Mirrors inUse opened.2 (phoneOf vault.1 project.1 env) :=
    ((hunlocked.createVault hvault).createProject hproject).openEnvironment hopened
  obtain ⟨-, hitems, hprojects⟩ :=
    phone_opens openCrates (plainPrimitives_correct _) hmirrors
  obtain ⟨totp, htotp, hedited⟩ := hitems.setTotp hitem hset
  have hsetup : totp = setup := by
    have hnormal : Vault.normalizeTotp openCrates setup = some setup := by decide +kernel
    exact Option.some_inj.mp (htotp.symm.trans hnormal)
  exact ⟨_, _, _, _, _, _, _, _, _, hmirrors, hkey, hprojects.sealedValue hvalue,
    (hitems.item _ _).trans hitem, hset, hsetup ▸ hedited⟩

end Zvault.Keyrings
