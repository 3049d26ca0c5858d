import Zvault.Keyrings.PhoneOpens
import Zvault.Vault.KeysKept

/-!
# Edits of an item

An item is edited in the app, by `zv item edit` or by the browser extension that saves
a password. Each opens what it needs, and all seal with `seal_item`.
-/

namespace Zvault.Keyrings

open Crypto
open Text (trim)
open Vault (ComesBack Crates HidesKeys ItemFields ItemPatch ItemPlaintext KeysKept PasskeyCrate
  SshCrate SshKey applyPatch keyCrates)

/-- Who edits an item, and what is sent. -/
inductive Edit where
  /-- `item_seal` -/
  | ui (fields : ItemFields)
  | itemPut (patch : ItemPatch)
  | browserSave (host site username password : String)

def Edit.isUi : Edit → Bool
  | .ui _ => true
  | _ => false

section Apply

variable (P : Primitives) (crates : Crates) (keys : DesktopKeyring) (vaultId : String)

/-- The fields that are sealed. -/
def Edit.fields (existing : Option ItemCipher) : Edit → Option ItemFields
  | .ui fields => some fields
  | .itemPut patch =>
    let opened := match existing with
      | some item => keys.openItem P crates vaultId item
      | none => some .default
    opened.map (applyPatch · patch)
  | .browserSave host site username password =>
    let opened := match existing with
      | some item => keys.openItem P crates vaultId item
      | none => some { ItemFields.default with
          title := host, username := trim username, urls := [site] }
    opened.map ({ · with password })

def Edit.apply (existing : Option ItemCipher) (edit : Edit) (new : Fresh) : Option ItemCipher :=
  (edit.fields P crates keys vaultId existing).bind fun fields =>
    keys.sealItem P crates vaultId existing fields new

end Apply

variable {K D : Type} {totpUri : String → Option String} {A : PasskeyCrate K} {S : SshCrate D}
  {now : ℤ}

/-- The key pair of a stored SSH key, and the time that it was stored at. -/
def pairOf (S : SshCrate D) (k : SshKey) : Option D × ℤ := ((k.key S).map (·.data), k.createdAt)

/-- The passkey and the SSH key are the same but for what they are called. -/
structure KeysUntouched (S : SshCrate D) (old new : ItemPlaintext) : Prop where
  passkey : new.passkey = old.passkey.map fun s => { s with userName := trim s.userName }
  sshKey : new.sshKey.map (pairOf S) = old.sshKey.map (pairOf S)

/-- Fields that name the keys as they were shown leave them as they are. -/
theorem keysUntouched_of_openItem {old new : ItemPlaintext} {view fields : ItemFields}
    (hopen : Vault.openItem (keyCrates totpUri A S now) old = some view)
    (hpasskey : fields.passkey = view.passkey) (hsshKey : fields.sshKey = view.sshKey)
    (hkept : KeysKept A S now old.passkey old.sshKey fields new) : KeysUntouched S old new := by
  obtain ⟨-, -, -, -, -, -, -, hpshown, hsshown⟩ := Vault.openItem_eq_some.mp hopen
  constructor
  · rcases Vault.transposed_eq_some.mp hpshown with ⟨hold, hview⟩ | ⟨s, f, hold, hf, hview⟩
    · rw [hold, hkept.passkey_removed (hpasskey.trans hview), Option.map_none]
    · obtain ⟨publicKey, -, rfl⟩ := Option.map_eq_some_iff.mp hf
      rw [hkept.passkey_kept _ (hpasskey.trans hview) s hold rfl rfl, hold, Option.map_some]
  · rcases Vault.transposed_eq_some.mp hsshown with ⟨hold, hview⟩ | ⟨s, f, hold, hf, hview⟩
    · rw [hold, hkept.sshKey_removed (hsshKey.trans hview), Option.map_none]
    · obtain ⟨shown, hshown, rfl⟩ := Option.map_eq_some_iff.mp hf
      rw [Vault.keyCrates_sshPublic] at hshown
      obtain ⟨key, hkey, hpublic⟩ := Option.bind_eq_some_iff.mp hshown
      have hfingerprint : S.fingerprint key.data = shown.fingerprint := by
        simp only [Option.bind_eq_bind, Option.bind_eq_some_iff, Option.pure_def,
          Option.some_inj] at hpublic
        obtain ⟨_, -, _, -, rfl⟩ := hpublic
        rfl
      obtain ⟨k, comment, hnew, hkey', hcreated⟩ := hkept.sshKey_kept _ (hsshKey.trans hview) s hold key
        hkey rfl hfingerprint
      rw [hnew, hold, Option.map_some, Option.map_some, pairOf, pairOf, hkey, hkey', hcreated]
      rfl

/-- The fields of an agent's or the browser's edit name the keys as they were shown. -/
theorem Edit.fields_keys {P : Primitives} {crates : Crates} {keys : DesktopKeyring}
    {vaultId : String} {item : ItemCipher} {edit : Edit} {fields : ItemFields}
    (hui : edit.isUi = false) (h : edit.fields P crates keys vaultId (some item) = some fields) :
    ∃ view, keys.openItem P crates vaultId item = some view ∧ fields.passkey = view.passkey ∧
      fields.sshKey = view.sshKey := by
  cases edit with
  | ui => cases hui
  | itemPut patch =>
    obtain ⟨view, hview, rfl⟩ := Option.map_eq_some_iff.mp h
    exact ⟨view, hview, rfl, rfl⟩
  | browserSave =>
    obtain ⟨view, hview, rfl⟩ := Option.map_eq_some_iff.mp h
    exact ⟨view, hview, rfl, rfl⟩

/-- An edited item comes back as it was edited, its keys are kept, replaced or removed as the fields
say, and what is shown of any item has no private key. -/
theorem edit_keeps_keys {P : Primitives} (hP : P.Correct) (hA : A.Lawful) (hS : S.Lawful)
    {keys : DesktopKeyring} {vaultId : String} {existing : Option ItemCipher} {edit : Edit}
    {new : Fresh} {item : ItemCipher}
    (h : edit.apply P (keyCrates totpUri A S now) keys vaultId existing new = some item) :
    ∃ fields view sealed,
      edit.fields P (keyCrates totpUri A S now) keys vaultId existing = some fields ∧
      keys.openItem P (keyCrates totpUri A S now) vaultId item = some view ∧
      ComesBack (keyCrates totpUri A S now) fields view ∧
      keys.openSealed P vaultId item = some sealed ∧
      KeysKept A S now ((existing.bind (keys.openSealed P vaultId)).bind (·.passkey))
        ((existing.bind (keys.openSealed P vaultId)).bind (·.sshKey)) fields sealed ∧
      (edit.isUi = false → ∀ old ∈ existing.bind (keys.openSealed P vaultId),
        KeysUntouched S old sealed) ∧
      ∀ stored shown, keys.openItem P (keyCrates totpUri A S now) vaultId stored = some shown →
        HidesKeys shown := by
  obtain ⟨fields, hfields, hseal⟩ := Option.bind_eq_some_iff.mp h
  obtain ⟨sealed, hsealed, hopen⟩ := DesktopKeyring.openSealed_sealItem hP hseal
  obtain ⟨view, hview, hback⟩ := Vault.comesBack_of_sealItem hA hS hsealed
  have hkept := Vault.keysKept_of_sealItem hS hsealed
  refine ⟨fields, view, sealed, hfields, ?_, hback, hopen, hkept, ?_, ?_⟩
  · rw [DesktopKeyring.openItem, hopen, Option.bind_some, hview]
  · intro hui old hold
    rw [Option.mem_def] at hold
    obtain ⟨stored, rfl, hstored⟩ := Option.bind_eq_some_iff.mp hold
    obtain ⟨shown, hshown, hpasskey, hsshKey⟩ := Edit.fields_keys hui hfields
    rw [DesktopKeyring.openItem, hstored, Option.bind_some] at hshown
    rw [hold] at hkept
    exact keysUntouched_of_openItem hshown hpasskey hsshKey hkept
  · intro stored shown hshown
    obtain ⟨p, -, hp⟩ := Option.bind_eq_some_iff.mp hshown
    exact Vault.hidesKeys_of_openItem hp

section Sealed

variable {P : Primitives} {crates : Crates} {keys : DesktopKeyring} {vaultId vaultId' : String}
  {vaultKey : SymmetricKey} {existing : Option ItemCipher} {fields : ItemFields} {p : ItemPlaintext}
  {json : List UInt8} (new : Fresh)

/-- An item that can be opened, or none, is what is edited. -/
theorem exists_itemToSeal (hvaultId : canonicalId vaultId = some vaultId')
    (hvaultKey : keys.vaultKey vaultId' = some vaultKey)
    (hopen : ∀ item ∈ existing, (keys.openSealed P vaultId item).isSome = true) :
    ∃ itemId itemKey, DesktopKeyring.itemToSeal P vaultKey vaultId' existing new =
      some (itemId, itemKey, existing.bind (keys.openSealed P vaultId)) := by
  cases existing with
  | none => exact ⟨_, _, rfl⟩
  | some item =>
    obtain ⟨old, hold⟩ := Option.isSome_iff_exists.mp (hopen item rfl)
    have hread := hold
    simp only [DesktopKeyring.openSealed, hvaultId, hvaultKey, Option.bind_eq_bind, Option.bind_some,
      Option.bind_eq_some_iff] at hread
    obtain ⟨itemId, hitemId, itemKey, hitemKey, hread⟩ := hread
    exact ⟨itemId, itemKey, by
      simp [DesktopKeyring.itemToSeal, hitemId, hitemKey, hread, hold]⟩

/-- What can be sealed of it is sealed, if the cipher does not fail and the text is not too long. -/
theorem exists_sealItem
    (hencrypt : ∀ key nonce aad text, (P.encrypt key nonce aad text).isSome = true)
    (hvaultId : canonicalId vaultId = some vaultId') (hvaultKey : keys.vaultKey vaultId' = some vaultKey)
    (hopen : ∀ item ∈ existing, (keys.openSealed P vaultId item).isSome = true)
    (hseal : Vault.sealItem crates (existing.bind (keys.openSealed P vaultId)) fields = some p)
    (hjson : P.toVec (.obj (itemMembers p)) = some json) (hlen : json.length ≤ maxPlaintextLen) :
    ∃ item, keys.sealItem P crates vaultId existing fields new = some item := by
  obtain ⟨itemId, itemKey, hitem⟩ := exists_itemToSeal new hvaultId hvaultKey hopen
  obtain ⟨wrapped, hwrapped⟩ := Option.isSome_iff_exists.mp
    (hencrypt vaultKey new.keyNonce (itemKeyAad vaultId' itemId) itemKey.bytes)
  obtain ⟨ct, hct⟩ := Option.isSome_iff_exists.mp
    (hencrypt itemKey new.dataNonce (itemDataAad vaultId' itemId) (padded json))
  simp [DesktopKeyring.sealItem, hvaultId, hvaultKey, hitem, hseal, wrapBlob, wrapKey, sealBytes,
    hwrapped, sealText, hjson, sealPadded, hct, Nat.not_lt.mpr hlen]

end Sealed

section Example

/-- The P-256 keys of the scalars one and two. -/
inductive SmallKey where
  | one
  | two
  deriving DecidableEq

def SmallKey.scalar : SmallKey → UInt8
  | .one => 1
  | .two => 2

def SmallKey.point : SmallKey → List UInt8
  | .one =>
    [107, 23, 209, 242, 225, 44, 66, 71, 248, 188, 230, 229, 99, 164, 64, 242, 119, 3, 125, 129, 45,
      235, 51, 160, 244, 161, 57, 69, 216, 152, 194, 150, 79, 227, 66, 226, 254, 26, 127, 155, 142,
      231, 235, 74, 124, 15, 158, 22, 43, 206, 51, 87, 107, 49, 94, 206, 203, 182, 64, 104, 55, 191,
      81, 245]
  | .two =>
    [124, 242, 123, 24, 141, 3, 79, 126, 138, 82, 56, 3, 4, 181, 26, 195, 192, 137, 105, 226, 119,
      242, 27, 53, 166, 11, 72, 252, 71, 102, 153, 120, 7, 119, 85, 16, 219, 142, 208, 64, 41, 61,
      154, 198, 159, 116, 48, 219, 186, 125, 173, 230, 60, 233, 130, 41, 158, 4, 183, 157, 34, 120,
      115, 209]

/-- The key in PKCS#8. -/
def SmallKey.der (key : SmallKey) : List UInt8 :=
  [48, 129, 135, 2, 1, 0, 48, 19, 6, 7, 42, 134, 72, 206, 61, 2, 1, 6, 8, 42, 134, 72, 206, 61, 3,
    1, 7, 4, 109, 48, 107, 2, 1, 1, 4, 32] ++ List.replicate 31 0 ++ [key.scalar] ++
    [161, 68, 3, 66, 0, 4] ++ key.point

def SmallKey.publicDer (key : SmallKey) : List UInt8 :=
  [48, 89, 48, 19, 6, 7, 42, 134, 72, 206, 61, 2, 1, 6, 8, 42, 134, 72, 206, 61, 3, 1, 7, 3, 66, 0,
    4] ++ key.point

/-- `p256` for two keys. -/
def smallKeys : PasskeyCrate SmallKey where
  fromPkcs8Der der := [SmallKey.one, .two].find? (·.der = der)
  fromPkcs8Pem _ := none
  toPkcs8Der key := some key.der
  toPublicKeyDer key := some key.publicDer
  randomSigningKey := some .one
  randomId := List.replicate 16 1
  randomHandle := List.replicate 16 2

theorem smallKeys_lawful : smallKeys.Lawful where
  fromPkcs8Der_toPkcs8Der {key der} h := by
    obtain rfl := Option.some_inj.mp h
    cases key with
    | one => decide
    | two => decide
  toPublicKeyDer_isSome _ := rfl
  length_randomId := rfl
  length_randomHandle := rfl

/-- No SSH key is read or made. -/
def noSshKeys : SshCrate Empty where
  kind := Empty.elim
  fromOpenssh _ := none
  toOpenssh _ := none
  decrypt _ _ := none
  random := none
  publicOpenssh _ := none
  fingerprint := Empty.elim
  blob := Empty.elim

theorem noSshKeys_lawful : noSshKeys.Lawful where
  fromOpenssh_toOpenssh {key} := key.data.elim
  kind_random key := key.data.elim
  publicOpenssh_isSome key := key.data.elim
  blob_isSome data := data.elim
  trim_fingerprint data := data.elim

/-- A passkey of one of the keys. -/
def passkeyOf (key : SmallKey) (userName : String) : Vault.Passkey :=
  ⟨"example.com", userName, "AQ", "AAEC", Vault.encode key.der, 9⟩

def itemOf (key : SmallKey) (title password userName : String) : ItemPlaintext :=
  ⟨title, "alice", password, [], "", "", some (passkeyOf key userName), none⟩

def storedItem : ItemPlaintext := itemOf .one "Mail" "old" "alice"

def editedItem : ItemPlaintext := itemOf .one "Mail 2" "new" "bob"

def replacedItem : ItemPlaintext := itemOf .two "Post" "old" "alice"

/-- The fields that the UI sends when the user imports a passkey. -/
def importFields (key : SmallKey) (title : String) : ItemFields :=
  ⟨title, "alice", "old", [], "", "",
    some ⟨"example.com", "alice", "AQ", "AAEC", "", 0, Vault.encode key.der⟩, none⟩

/-- The fields that the UI sends when the user edits the title, the password and the user name. -/
def editedFields : ItemFields :=
  ⟨" Mail 2", "alice", "new", [], "", "",
    some ⟨"example.com", " bob ", "AQ", "AAEC", Vault.encode SmallKey.one.publicDer, 9, ""⟩, none⟩

def knownItems : List ItemPlaintext := [storedItem, editedItem, replacedItem]

def itemPrimitives : Primitives := plainPrimitives (knownItems.map fun p => .obj (itemMembers p))

theorem itemPrimitives_correct : itemPrimitives.Correct := plainPrimitives_correct _

/-- Base64url is written in JSON without escapes. -/
theorem quote_encode (bytes : List UInt8) :
    Json.quote (Vault.encode bytes) = '"' :: Base64.encode bytes ++ ['"'] := by
  have hescape : ∀ c ∈ Base64.encode bytes, Json.escape c = [c] := by
    intro c hc
    rcases Base64.mem_encode hc with h | rfl | rfl
    · have hne : c ≠ '"' ∧ c ≠ '\\' := by
        constructor <;>
        · rintro rfl
          cases h
      rw [Text.isAlphanum_iff] at h
      rw [Json.escape, if_neg hne.1, if_neg hne.2]
      simp only [show c.toNat ≠ 8 by omega, show c.toNat ≠ 9 by omega, show c.toNat ≠ 10 by omega,
        show c.toNat ≠ 12 by omega, show c.toNat ≠ 13 by omega, show ¬c.toNat < 32 by omega, if_false]
    · decide
    · decide
  rw [Json.quote, Vault.encode, String.toList_ofList, List.flatMap_congr hescape,
    List.flatMap_singleton']

/-- The text of the items is short. -/
theorem length_toUtf8 {p : ItemPlaintext} (h : p ∈ knownItems) :
    (Json.Value.obj (itemMembers p)).toUtf8.length ≤ maxPlaintextLen := by
  simp only [knownItems, List.mem_cons, List.not_mem_nil, or_false] at h
  rcases h with rfl | rfl | rfl
  all_goals
    simp only [Json.Value.toUtf8, itemMembers, storedItem, editedItem, replacedItem, itemOf,
      passkeyOf, Option.map_some, Option.map_none, Json.unlessNone, Option.toList_some,
      Option.toList_none, List.map_nil, List.cons_append, List.nil_append, List.append_nil,
      passkeyJson, Json.Value.text, Json.membersText, Json.itemsText, quote_encode]
    decide +kernel

abbrev smallCrates : Crates := keyCrates (fun _ => none) smallKeys noSshKeys 9

/-- A key that is imported is stored. -/
theorem ofFields_importFields (key : SmallKey) (title : String) {f : Vault.PasskeyFields}
    (h : (importFields key title).passkey = some f) :
    (trim f.privateKey).isEmpty = false ∧
      Vault.Passkey.ofFields smallKeys f 9 = some (passkeyOf key "alice") := by
  obtain rfl := Option.some_inj.mp h
  have hder : smallKeys.fromPkcs8Der key.der = some key := smallKeys_lawful.fromPkcs8Der_toPkcs8Der rfl
  have hread : Vault.parsePrivateKey smallKeys (Vault.encode key.der) = some key := by
    rw [Vault.parsePrivateKey_encode, hder]
    · cases key <;> decide +kernel
    · cases key <;> decide +kernel
    · cases key <;> decide +kernel
  have hsent : (trim (Vault.encode key.der)).isEmpty = false := by
    rw [Vault.trim_eq_self fun c hc => Vault.isWhitespace_of_mem_encode hc, Bool.eq_false_iff]
    intro hempty
    have hnil := congrArg String.toList (String.isEmpty_iff.mp hempty)
    rw [Vault.encode, String.toList_ofList] at hnil
    revert hnil
    cases key <;> decide +kernel
  refine ⟨hsent, ?_⟩
  rw [Vault.Passkey.ofFields, hsent, if_neg Bool.false_ne_true]
  have hid : Vault.base64url "AAEC" Vault.maxCredentialId = some "AAEC" := by decide +kernel
  have hhandle : Vault.Passkey.handleOf smallKeys "AQ" = some "AQ" := by decide +kernel
  have hrpId : Vault.rpIdOf "example.com" = some "example.com" := by decide +kernel
  have huser : Vault.passkeyUser "alice" = some "alice" := by decide +kernel
  have hkey : Vault.encodeKey smallKeys key = some (Vault.encode key.der) := rfl
  simp only [Vault.Passkey.importKey, hread, hid, hhandle, hrpId, huser, hkey, Option.bind_eq_bind,
    Option.bind_some, Option.pure_def, passkeyOf]

/-- What is known is not damaged. -/
theorem openPlaintext_itemOf (title password : String) :
    Vault.openPlaintext smallCrates (itemOf .one title password "alice") =
      some (itemOf .one title password "alice") := by
  have hvalid := Vault.Passkey.validate_ofFields smallKeys_lawful
    (ofFields_importFields .one "" rfl).2
  have hpasskey : (itemOf .one title password "alice").passkey.all (·.validate smallKeys) = true := by
    rw [itemOf, Option.all_some, hvalid]
  have hsshKey : (itemOf .one title password "alice").sshKey.all (·.validate noSshKeys) = true := by
    rw [itemOf, Option.all_none]
  rw [Vault.openPlaintext_keyCrates, hpasskey, hsshKey]
  exact if_pos rfl

theorem sealItem_importFields (existing : Option ItemPlaintext) (key : SmallKey) (title : String)
    (hexisting : Vault.transposed (Vault.openPlaintext smallCrates) existing = some existing)
    (htitle : trim title = title) :
    Vault.sealItem smallCrates existing (importFields key title) =
      some (itemOf key title "old" "alice") := by
  obtain ⟨f, hf⟩ : ∃ f, (importFields key title).passkey = some f := ⟨_, rfl⟩
  obtain ⟨hsent, hmade⟩ := ofFields_importFields key title hf
  have hresolve : Vault.resolvePasskey smallCrates (existing.bind (·.passkey)) f =
      some (passkeyOf key "alice") := by
    rw [Vault.resolvePasskey, hsent, if_neg Bool.false_ne_true, Vault.keyCrates_newPasskey, hmade]
  have hnormal : Vault.normalize smallCrates (importFields key title) =
      some (importFields key title) := by
    have husername : trim "alice" = "alice" := by decide
    have htotp : Vault.normalizeTotp smallCrates "" = some "" := if_pos (by decide)
    simp [Vault.normalize, importFields, htitle, husername, htotp]
  rw [Vault.sealItem, hexisting, hnormal]
  simp only [Option.bind_eq_bind, Option.bind_some, hf, Vault.transposed, hresolve, Option.map_some]
  rfl

theorem sealItem_editedFields :
    Vault.sealItem smallCrates (some storedItem) editedFields = some editedItem := by
  have hopen : Vault.openPlaintext smallCrates storedItem = some storedItem := openPlaintext_itemOf _ _
  have hnormal : Vault.normalize smallCrates editedFields =
      some { editedFields with title := "Mail 2" } := by
    have htitle : trim " Mail 2" = "Mail 2" := by decide
    have husername : trim "alice" = "alice" := by decide
    have htotp : Vault.normalizeTotp smallCrates "" = some "" := if_pos (by decide)
    simp [Vault.normalize, editedFields, htitle, husername, htotp]
  have huser : Vault.passkeyUser " bob " = some "bob" := by decide +kernel
  have hblank : (trim "").isEmpty = true := by decide
  rw [Vault.sealItem, Vault.transposed, hopen, hnormal]
  simp only [Option.bind_eq_bind, Option.map_some, Option.bind_some, editedFields, storedItem, itemOf,
    Vault.transposed, Vault.resolvePasskey, hblank, if_true, passkeyOf, Option.filter_some,
    decide_true, Vault.Passkey.renameUser, huser, Option.pure_def, editedItem]

/-- The id of the open vault. -/
def openVaultId : String := "00000000-0000-0000-0000-000000000001"

/-- A key ring with one open vault. -/
def openKeys : DesktopKeyring :=
  { DesktopKeyring.unlock ⟨List.replicate 32 11, rfl⟩ with
    vaults := Function.update (fun _ => none) openVaultId (some ⟨List.replicate 32 12, rfl⟩) }

def fresh : Fresh :=
  ⟨⟨List.replicate 16 13, rfl⟩, ⟨List.replicate 32 14, rfl⟩, ⟨List.replicate 24 15, rfl⟩,
    ⟨List.replicate 24 16, rfl⟩⟩

/-- What is known can be sealed and is opened again. -/
theorem exists_openSealed (existing : Option ItemCipher) {fields : ItemFields} {p : ItemPlaintext}
    (hopen : ∀ item ∈ existing, (openKeys.openSealed itemPrimitives openVaultId item).isSome = true)
    (hseal : Vault.sealItem smallCrates
      (existing.bind (openKeys.openSealed itemPrimitives openVaultId)) fields = some p)
    (hp : p ∈ knownItems) :
    ∃ item, Edit.apply itemPrimitives smallCrates openKeys openVaultId existing (.ui fields) fresh =
      some item ∧ openKeys.openSealed itemPrimitives openVaultId item = some p := by
  have hvaultId : canonicalId openVaultId = some openVaultId := by decide
  have hvaultKey : openKeys.vaultKey openVaultId = some ⟨List.replicate 32 12, rfl⟩ := rfl
  obtain ⟨item, hitem⟩ := exists_sealItem fresh (fun _ _ _ _ => rfl) hvaultId hvaultKey hopen hseal
    (toVec_plainPrimitives (List.mem_map_of_mem hp)) (length_toUtf8 hp)
  obtain ⟨p', hp', hopened⟩ := DesktopKeyring.openSealed_sealItem itemPrimitives_correct hitem
  obtain rfl := Option.some_inj.mp (hseal.symm.trans hp')
  exact ⟨item, hitem, hopened⟩

/-- The stored item was imported. -/
theorem exists_storedItem : ∃ stored,
    openKeys.openSealed itemPrimitives openVaultId stored = some storedItem := by
  have hknown : storedItem ∈ knownItems := List.mem_cons_self
  have hseal := sealItem_importFields none .one "Mail" rfl (by decide)
  obtain ⟨stored, -, hstored⟩ := exists_openSealed none (by simp) hseal hknown
  exact ⟨stored, hstored⟩

/-- The user edits the stored item. -/
theorem exists_editedItem : ∃ stored item,
    openKeys.openSealed itemPrimitives openVaultId stored = some storedItem ∧
      Edit.apply itemPrimitives smallCrates openKeys openVaultId (some stored) (.ui editedFields) fresh =
        some item ∧
      openKeys.openSealed itemPrimitives openVaultId item = some editedItem := by
  obtain ⟨stored, hstored⟩ := exists_storedItem
  have hknown : editedItem ∈ knownItems := List.mem_cons_of_mem _ List.mem_cons_self
  have hopen : ∀ item ∈ some stored,
      (openKeys.openSealed itemPrimitives openVaultId item).isSome = true := by
    rintro item ⟨⟩
    rw [hstored]
    rfl
  have hseal := sealItem_editedFields
  rw [← hstored] at hseal
  obtain ⟨item, hitem, hopened⟩ := exists_openSealed (some stored) hopen hseal hknown
  exact ⟨stored, item, hstored, hitem, hopened⟩

/-- The user imports another key under the credential id of the stored item. -/
theorem exists_replacedItem : ∃ stored item,
    openKeys.openSealed itemPrimitives openVaultId stored = some storedItem ∧
      Edit.apply itemPrimitives smallCrates openKeys openVaultId (some stored)
        (.ui (importFields .two "Post")) fresh = some item ∧
      openKeys.openSealed itemPrimitives openVaultId item = some replacedItem := by
  obtain ⟨stored, hstored⟩ := exists_storedItem
  have hknown : replacedItem ∈ knownItems :=
    List.mem_cons_of_mem _ (List.mem_cons_of_mem _ List.mem_cons_self)
  have hopen : ∀ item ∈ some stored,
      (openKeys.openSealed itemPrimitives openVaultId item).isSome = true := by
    rintro item ⟨⟩
    rw [hstored]
    rfl
  have hstoredItem : Vault.openPlaintext smallCrates storedItem = some storedItem :=
    openPlaintext_itemOf _ _
  have hexisting : Vault.transposed (Vault.openPlaintext smallCrates) (some storedItem) =
      some (some storedItem) := by
    rw [Vault.transposed, hstoredItem, Option.map_some]
  have hseal := sealItem_importFields (some storedItem) .two "Post" hexisting (by decide)
  rw [← hstored] at hseal
  obtain ⟨item, hitem, hopened⟩ := exists_openSealed (some stored) hopen hseal hknown
  exact ⟨stored, item, hstored, hitem, hopened⟩

/-- An edited title comes back trimmed, and the private key of an imported passkey takes the place of
that stored under the same credential id. -/
theorem trimmed_and_replaced :
    (∃ stored item view, openKeys.openSealed itemPrimitives openVaultId stored = some storedItem ∧
      Edit.apply itemPrimitives smallCrates openKeys openVaultId (some stored) (.ui editedFields) fresh =
        some item ∧
      openKeys.openItem itemPrimitives smallCrates openVaultId item = some view ∧
      view.title ≠ editedFields.title) ∧
    ∃ stored item, openKeys.openSealed itemPrimitives openVaultId stored = some storedItem ∧
      Edit.apply itemPrimitives smallCrates openKeys openVaultId (some stored)
        (.ui (importFields .two "Post")) fresh = some item ∧
      openKeys.openSealed itemPrimitives openVaultId item = some replacedItem ∧
      (importFields .two "Post").passkey.map (·.credentialId) =
        storedItem.passkey.map (·.credentialId) ∧
      replacedItem.passkey.map (·.privateKey) ≠ storedItem.passkey.map (·.privateKey) := by
  obtain ⟨stored, item, hstored, hitem, hopened⟩ := exists_editedItem
  obtain ⟨_, item', hstored', hitem', hopened'⟩ := exists_replacedItem
  obtain ⟨view, hview, hback⟩ :=
    Vault.comesBack_of_sealItem smallKeys_lawful noSshKeys_lawful sealItem_editedFields
  refine ⟨⟨stored, item, view, hstored, hitem, ?_, ?_⟩, _, item', hstored', hitem', hopened', rfl, ?_⟩
  · rw [DesktopKeyring.openItem, hopened, Option.bind_some, hview]
  · rw [hback.title]
    decide
  · intro hsame
    have hkeys : Vault.encode SmallKey.two.der = Vault.encode SmallKey.one.der :=
      Option.some_inj.mp hsame
    have hder := congrArg Vault.decode hkeys
    rw [Vault.decode_encode, Vault.decode_encode] at hder
    revert hder
    decide

/-- The user edits a passkey's user name, and the passkey keeps its key. -/
theorem edit_keeps_keys_example : ∃ stored item view sealed,
    openKeys.openSealed itemPrimitives openVaultId stored = some storedItem ∧
      Edit.apply itemPrimitives smallCrates openKeys openVaultId (some stored) (.ui editedFields) fresh =
        some item ∧
      openKeys.openItem itemPrimitives smallCrates openVaultId item = some view ∧
      view.title = "Mail 2" ∧ view.password = "new" ∧
      openKeys.openSealed itemPrimitives openVaultId item = some sealed ∧
      sealed.passkey = some (passkeyOf .one "bob") ∧ HidesKeys view := by
  obtain ⟨stored, item, hstored, hitem, -⟩ := exists_editedItem
  obtain ⟨fields, view, sealed, hfields, hview, hback, hsealed, hkept, -, hhides⟩ :=
    edit_keeps_keys itemPrimitives_correct smallKeys_lawful noSshKeys_lawful hitem
  obtain rfl := Option.some_inj.mp hfields
  rw [Option.bind_some, hstored, Option.bind_some, Option.bind_some] at hkept
  have htitle : trim " Mail 2" = "Mail 2" := by decide
  have huser : trim " bob " = "bob" := by decide
  refine ⟨stored, item, view, sealed, hstored, hitem, hview, ?_, hback.password, hsealed, ?_,
    hhides item view hview⟩
  · rw [hback.title]
    exact htitle
  · rw [hkept.passkey_kept _ rfl _ rfl (by decide) rfl, huser]
    rfl

end Example

end Zvault.Keyrings
