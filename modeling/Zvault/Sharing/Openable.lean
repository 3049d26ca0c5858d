import Zvault.Sharing.Payload

/-!
# Which shares can be opened

The recipient spends a view before the payload is parsed. A payload that the
desktop app has parsed itself is always read; a project secret is when its value
is short, and an item of the phone when each of its fields is.
-/

namespace Zvault.Sharing

open Json (Value field optionalField unlessEmpty unlessNone bytes quote memberBytes)
open ProjectSync (IsWithin)
open Vault (Crates ItemPlaintext openItem openPlaintext plainCrates transposed)

structure SharedPasskey.Fits (p : SharedPasskey) : Prop where
  rpId : IsWithin 1 253 p.rpId
  userName : IsWithin 0 500 p.userName
  userHandle : IsWithin 0 200 p.userHandle
  credentialId : IsWithin 1 1400 p.credentialId
  privateKey : IsWithin 0 1000 p.privateKey

structure SecretOrigin.Fits (s : SecretOrigin) : Prop where
  key : IsWithin 0 256 s.key
  project : IsWithin 0 200 s.project
  environment : IsWithin 0 200 s.environment

structure SharedItemPayload.Fits (p : SharedItemPayload) : Prop where
  title : IsWithin 0 200 p.title
  username : ∀ s ∈ p.username, IsWithin 0 500 s
  password : ∀ s ∈ p.password, IsWithin 0 4096 s
  url : ∀ s ∈ p.url, IsWithin 0 2048 s
  notes : ∀ s ∈ p.notes, IsWithin 0 10000 s
  passkey : ∀ k ∈ p.passkey, k.Fits
  totp : ∀ s ∈ p.totp, IsWithin 0 2048 s ∧ IsTotpUri s
  secret : ∀ s ∈ p.secret, s.Fits

section Parse

theorem stringWithin_str (min max : ℕ) (s t : String) :
    stringWithin min max (.str s) = some t ↔ IsWithin min max s ∧ s = t := by
  simp only [stringWithin, IsWithin]
  split_ifs with h <;> simp [h]

theorem totpSetup_str (s t : String) :
    totpSetup (.str s) = some t ↔ (IsWithin 0 2048 s ∧ IsTotpUri s) ∧ s = t := by
  simp only [totpSetup, Option.filter_eq_some_iff, stringWithin_str, decide_eq_true_eq]
  constructor
  · rintro ⟨⟨hwithin, rfl⟩, huri⟩
    exact ⟨⟨hwithin, huri⟩, rfl⟩
  · rintro ⟨⟨hwithin, huri⟩, rfl⟩
    exact ⟨⟨hwithin, rfl⟩, huri⟩

/-- A passkey is read as it was written, when it fits. -/
theorem SharedPasskey.parse_toJson (p q : SharedPasskey) :
    SharedPasskey.parse p.toJson = some q ↔ p.Fits ∧ p = q := by
  simp only [SharedPasskey.parse, SharedPasskey.toJson, Json.field_obj, Json.lookup_cons,
    Option.bind_eq_bind, Option.bind_eq_some_iff, Option.pure_def, Option.some_inj, reduceIte,
    String.reduceEq, stringWithin_str, exists_eq_left']
  constructor
  · rintro ⟨_, ⟨hrpId, rfl⟩, _, ⟨huserName, rfl⟩, _, ⟨huserHandle, rfl⟩, _, ⟨hcredentialId, rfl⟩, _,
      ⟨hprivateKey, rfl⟩, rfl⟩
    exact ⟨⟨hrpId, huserName, huserHandle, hcredentialId, hprivateKey⟩, rfl⟩
  · rintro ⟨⟨hrpId, huserName, huserHandle, hcredentialId, hprivateKey⟩, rfl⟩
    exact ⟨_, ⟨hrpId, rfl⟩, _, ⟨huserName, rfl⟩, _, ⟨huserHandle, rfl⟩, _, ⟨hcredentialId, rfl⟩, _,
      ⟨hprivateKey, rfl⟩, rfl⟩

theorem SecretOrigin.parse_toJson (s t : SecretOrigin) :
    SecretOrigin.parse s.toJson = some t ↔ s.Fits ∧ s = t := by
  simp only [SecretOrigin.parse, SecretOrigin.toJson, Json.field_obj, Json.lookup_cons,
    Option.bind_eq_bind, Option.bind_eq_some_iff, Option.pure_def, Option.some_inj, reduceIte,
    String.reduceEq, stringWithin_str, exists_eq_left']
  constructor
  · rintro ⟨_, ⟨hkey, rfl⟩, _, ⟨hproject, rfl⟩, _, ⟨henvironment, rfl⟩, rfl⟩
    exact ⟨⟨hkey, hproject, henvironment⟩, rfl⟩
  · rintro ⟨⟨hkey, hproject, henvironment⟩, rfl⟩
    exact ⟨_, ⟨hkey, rfl⟩, _, ⟨hproject, rfl⟩, _, ⟨henvironment, rfl⟩, rfl⟩

/-- The members of a payload. -/
def SharedItemPayload.members (p : SharedItemPayload) : List (String × Value) :=
  [("v", .num 1), ("title", .str p.title)] ++ unlessNone "username" .str p.username ++
    unlessNone "password" .str p.password ++ unlessNone "url" .str p.url ++
    unlessNone "notes" .str p.notes ++ unlessNone "passkey" SharedPasskey.toJson p.passkey ++
    unlessNone "totp" .str p.totp ++ unlessNone "secret" SecretOrigin.toJson p.secret

theorem lookup_members (p : SharedItemPayload) (key : String) :
    p.members.lookup key =
      (((((((((if key = "v" then some (.num 1) else if key = "title" then some (.str p.title)
        else none).or
        (if key = "username" then p.username.map .str else none)).or
        (if key = "password" then p.password.map .str else none)).or
        (if key = "url" then p.url.map .str else none)).or
        (if key = "notes" then p.notes.map .str else none)).or
        (if key = "passkey" then p.passkey.map SharedPasskey.toJson else none)).or
        (if key = "totp" then p.totp.map .str else none)).or
        (if key = "secret" then p.secret.map SecretOrigin.toJson else none))) := by
  simp only [SharedItemPayload.members, List.lookup_append, Json.lookup_cons,
    Json.lookup_unlessNone, List.lookup_nil]

/-- A payload is read as it was written, when it fits. -/
theorem SharedItemPayload.parse_toJson (p q : SharedItemPayload) :
    SharedItemPayload.parse p.toJson = some q ↔ p.Fits ∧ p = q := by
  have hjson : p.toJson = .obj p.members := rfl
  have hlookup := lookup_members p
  have husername := Json.optionalField_obj (stringWithin_str 0 500) p.username
    ((hlookup "username").trans (by simp))
  have hpassword := Json.optionalField_obj (stringWithin_str 0 4096) p.password
    ((hlookup "password").trans (by simp))
  have hurl := Json.optionalField_obj (stringWithin_str 0 2048) p.url
    ((hlookup "url").trans (by simp))
  have hnotes := Json.optionalField_obj (stringWithin_str 0 10000) p.notes
    ((hlookup "notes").trans (by simp))
  have hpasskey := Json.optionalField_obj SharedPasskey.parse_toJson p.passkey
    ((hlookup "passkey").trans (by simp))
  have htotp := Json.optionalField_obj totpSetup_str p.totp
    ((hlookup "totp").trans (by simp))
  have hsecret := Json.optionalField_obj SecretOrigin.parse_toJson p.secret
    ((hlookup "secret").trans (by simp))
  simp only [SharedItemPayload.parse, hjson, Option.bind_eq_bind, Option.bind_eq_some_iff,
    husername, hpassword, hurl, hnotes, hpasskey, htotp, hsecret, Json.field_obj, hlookup,
    Option.pure_def, Option.some_inj, reduceIte, String.reduceEq, exists_eq_left', versionOne,
    stringWithin_str, Option.or_none]
  constructor
  · rintro ⟨_, _, _, ⟨htitle, rfl⟩, _, ⟨husername, rfl⟩, _, ⟨hpassword, rfl⟩, _, ⟨hurl, rfl⟩, _,
      ⟨hnotes, rfl⟩, _, ⟨hpasskey, rfl⟩, _, ⟨htotp, rfl⟩, _, ⟨hsecret, rfl⟩, rfl⟩
    exact ⟨⟨htitle, husername, hpassword, hurl, hnotes, hpasskey, htotp, hsecret⟩, rfl⟩
  · rintro ⟨⟨htitle, husername, hpassword, hurl, hnotes, hpasskey, htotp, hsecret⟩, rfl⟩
    exact ⟨(), trivial, _, ⟨htitle, rfl⟩, _, ⟨husername, rfl⟩, _, ⟨hpassword, rfl⟩, _, ⟨hurl, rfl⟩, _,
      ⟨hnotes, rfl⟩, _, ⟨hpasskey, rfl⟩, _, ⟨htotp, rfl⟩, _, ⟨hsecret, rfl⟩, rfl⟩

theorem SharedItemPayload.isSome_parse (p : SharedItemPayload) :
    (SharedItemPayload.parse p.toJson).isSome ↔ p.Fits := by
  rw [Option.isSome_iff_exists]
  constructor
  · rintro ⟨q, hparse⟩
    exact ((parse_toJson p q).mp hparse).1
  · intro hfits
    exact ⟨p, (parse_toJson p p).mpr ⟨hfits, rfl⟩⟩

end Parse

/-- The passkey that goes along, as it is stored, with its key. -/
structure PasskeyFits (privateKeyPem : Vault.Passkey → Option String) (k : Vault.Passkey) :
    Prop where
  rpId : IsWithin 1 253 k.rpId
  userName : IsWithin 0 500 k.userName
  userHandle : IsWithin 0 200 k.userHandle
  credentialId : IsWithin 1 1400 k.credentialId
  privateKey : ∀ pem ∈ privateKeyPem k, IsWithin 0 1000 pem

/-- Each field of a stored item that is shared is within the form that is opened. -/
structure ItemFits (privateKeyPem : Vault.Passkey → Option String) (item : ItemPlaintext)
    (includeTotp : Bool) : Prop where
  title : item.title.length ≤ 200
  username : item.username.length ≤ 500
  password : item.password.length ≤ 4096
  url : ∀ url ∈ item.urls.head?, url.length ≤ 2048
  notes : item.notes.length ≤ 10000
  passkey : ∀ k ∈ item.passkey, PasskeyFits privateKeyPem k
  totp : includeTotp = true → item.totp ≠ "" → item.totp.length ≤ 2048 ∧ IsTotpUri item.totp

/-- The bytes of a string member whose name takes so many, with its punctuation; none when the string
is empty. -/
def stringMember (nameBytes : ℕ) (s : String) : ℕ :=
  if s = "" then 0 else nameBytes + bytes (quote s)

/-- The bytes of an item's payload. -/
def itemBytes (privateKeyPem : Vault.Passkey → Option String) (item : ItemPlaintext)
    (includeTotp : Bool) : ℕ :=
  16 + bytes (quote item.title) + stringMember 12 item.username + stringMember 12 item.password +
    stringMember 7 (item.urls.head?.getD "") + stringMember 9 item.notes +
    (match item.passkey with
      | none => 0
      | some k => 76 + bytes (quote k.rpId) + bytes (quote k.userName) +
          bytes (quote k.userHandle) + bytes (quote k.credentialId) +
          bytes (quote ((privateKeyPem k).getD ""))) +
    stringMember 8 (if includeTotp then item.totp else "")

/-- The bytes of a secret's payload. -/
def SecretShare.payloadBytes (s : SecretShare) : ℕ :=
  72 + bytes (quote s.title) + bytes (quote s.value) + stringMember 9 s.note +
    bytes (quote s.secret.key) + bytes (quote s.project.name) + bytes (quote s.environment.name)

/-- Nothing is sealed of a damaged item. -/
def IsDamaged (crates : Crates) (privateKeyPem : Vault.Passkey → Option String)
    (item : ItemPlaintext) : Prop :=
  openPlaintext crates item = none ∨ ∃ k ∈ item.passkey, privateKeyPem k = none

/-- When a share that is made can be opened: it comes from an item of the desktop app, or it is small
enough in each part, or too large for the server to take it. -/
def ShareRequest.IsOpenable (crates : Crates) (privateKeyPem : Vault.Passkey → Option String) :
    ShareRequest → Prop
  | .desktopItem _ _ => True
  | .desktopSecret s _ | .mobileSecret s =>
      s.value.length ≤ 4096 ∨ ¬ IsAccepted s.payloadBytes
  | .mobileItem item includeTotp =>
      IsDamaged crates privateKeyPem item ∨ ItemFits privateKeyPem item includeTotp ∨
        ¬ IsAccepted (itemBytes privateKeyPem item includeTotp)

section Payloads

variable (crates : Crates) (privateKeyPem : Vault.Passkey → Option String)

def nonempty (s : String) : Option String := if s = "" then none else some s

theorem forall_mem_nonempty {s : String} {p : String → Prop} :
    (∀ t ∈ nonempty s, p t) ↔ (s ≠ "" → p s) := by
  by_cases h : s = "" <;> simp [nonempty, h]

theorem nonempty_within {s : String} {n : ℕ} :
    (∀ t ∈ nonempty s, IsWithin 0 n t) ↔ s.length ≤ n := by
  rw [forall_mem_nonempty]
  constructor
  · intro h
    by_cases hempty : s = ""
    · rw [hempty]
      exact Nat.zero_le n
    · exact (h hempty).2
  · exact fun h _ => ⟨Nat.zero_le _, h⟩

/-- What is shared of an item. -/
def itemPayload {Pk Sk : Type} (title : String) (item : Vault.Contents Pk Sk)
    (passkey : Option SharedPasskey) (totp : String) : SharedItemPayload :=
  { title, username := nonempty item.username, password := nonempty item.password,
    url := nonempty (item.urls.head?.getD ""), notes := nonempty item.notes, passkey,
    totp := nonempty totp, secret := none }

/-- What is shared of a secret. -/
def secretPayload (s : SecretShare) (password : Option String) : SharedItemPayload :=
  { title := s.title, username := none, password, url := none, notes := nonempty s.note,
    passkey := none, totp := none, secret := some s.origin }

theorem sharePayload_eq (item : ItemPlaintext) :
    sharePayload crates privateKeyPem item =
      (openItemWithPasskey crates item).bind fun (f, passkey) =>
        (transposed (SharedPasskey.of privateKeyPem) passkey).map fun passkey =>
          (itemPayload (if f.title = "" then "Untitled" else f.title) f passkey f.totp).toJson := by
  simp only [sharePayload, Json.unlessEmpty_eq, itemPayload, SharedItemPayload.toJson,
    nonempty, Option.bind_eq_bind, Option.pure_def, Option.map_eq_bind, Function.comp_def]
  simp [unlessNone]

theorem mobileItemPayload_eq (item : ItemPlaintext) (includeTotp : Bool) :
    mobileItemPayload crates privateKeyPem item includeTotp =
      (openPlaintext crates item).bind fun f =>
        (transposed (SharedPasskey.of privateKeyPem) f.passkey).map fun passkey =>
          (itemPayload f.title f passkey (if includeTotp then f.totp else "")).toJson := by
  simp only [mobileItemPayload, Json.unlessEmpty_eq, itemPayload, SharedItemPayload.toJson,
    nonempty, Option.bind_eq_bind, Option.pure_def, Option.map_eq_bind, Function.comp_def]
  simp [unlessNone]

theorem mobileSecretPayload_eq (s : SecretShare) :
    mobileSecretPayload s = (secretPayload s (nonempty s.value)).toJson := by
  simp [mobileSecretPayload, Json.unlessEmpty_eq, secretPayload, SharedItemPayload.toJson,
    nonempty, unlessNone]

theorem desktopSecretPayload_eq (s : SecretShare) (includeTotp : Bool) :
    desktopSecretPayload s includeTotp = (secretPayload s (some s.value)).toJson := by
  cases includeTotp <;> rfl

end Payloads

section Bytes

theorem SharedPasskey.bytes_toJson (p : SharedPasskey) :
    bytes p.toJson.text = 65 + bytes (quote p.rpId) + bytes (quote p.userName) +
      bytes (quote p.userHandle) + bytes (quote p.credentialId) + bytes (quote p.privateKey) := by
  have hrpId : bytes (quote "rpId") = 6 := by decide
  have huserName : bytes (quote "userName") = 10 := by decide
  have huserHandle : bytes (quote "userHandle") = 12 := by decide
  have hcredentialId : bytes (quote "credentialId") = 14 := by decide
  have hprivateKey : bytes (quote "privateKey") = 12 := by decide
  rw [SharedPasskey.toJson, Json.bytes_obj (List.cons_ne_nil _ _)]
  simp only [List.map_cons, List.map_nil, List.sum_cons, List.sum_nil, memberBytes, Value.text,
    hrpId, huserName, huserHandle, hcredentialId, hprivateKey]
  omega

theorem SecretOrigin.bytes_toJson (s : SecretOrigin) :
    bytes s.toJson.text = 34 + bytes (quote s.key) + bytes (quote s.project) +
      bytes (quote s.environment) := by
  have hkey : bytes (quote "key") = 5 := by decide
  have hproject : bytes (quote "project") = 9 := by decide
  have henvironment : bytes (quote "environment") = 13 := by decide
  rw [SecretOrigin.toJson, Json.bytes_obj (List.cons_ne_nil _ _)]
  simp only [List.map_cons, List.map_nil, List.sum_cons, List.sum_nil, memberBytes, Value.text,
    hkey, hproject, henvironment]
  omega

theorem SharedItemPayload.bytes_toJson (p : SharedItemPayload) :
    bytes p.toJson.text = 16 + bytes (quote p.title) +
      (p.username.elim 0 fun s => 12 + bytes (quote s)) +
      (p.password.elim 0 fun s => 12 + bytes (quote s)) +
      (p.url.elim 0 fun s => 7 + bytes (quote s)) +
      (p.notes.elim 0 fun s => 9 + bytes (quote s)) +
      (p.passkey.elim 0 fun k => 11 + bytes k.toJson.text) +
      (p.totp.elim 0 fun s => 8 + bytes (quote s)) +
      (p.secret.elim 0 fun s => 10 + bytes s.toJson.text) := by
  have hv : memberBytes ("v", .num 1) = 6 := by decide
  have htitle : bytes (quote "title") = 7 := by decide
  have husername : bytes (quote "username") = 10 := by decide
  have hpassword : bytes (quote "password") = 10 := by decide
  have hurl : bytes (quote "url") = 5 := by decide
  have hnotes : bytes (quote "notes") = 7 := by decide
  have hpasskey : bytes (quote "passkey") = 9 := by decide
  have htotp : bytes (quote "totp") = 6 := by decide
  have hsecret : bytes (quote "secret") = 8 := by decide
  have hjson : p.toJson = .obj p.members := rfl
  rw [hjson, Json.bytes_obj (by simp [SharedItemPayload.members])]
  simp only [SharedItemPayload.members, List.map_append, List.sum_append, List.map_cons,
    List.map_nil, List.sum_cons, List.sum_nil, Json.sum_memberBytes_unlessNone, hv, husername,
    hpassword, hurl, hnotes, hpasskey, htotp, hsecret, Nat.reduceAdd, Value.text]
  simp only [memberBytes, htitle, Value.text]
  omega

theorem elim_nonempty (n : ℕ) (s : String) :
    ((nonempty s).elim 0 fun s => n + bytes (quote s)) = stringMember n s := by
  by_cases h : s = "" <;> simp [nonempty, stringMember, h]

theorem bytes_secretPayload (s : SecretShare) :
    bytes (secretPayload s (some s.value)).toJson.text = s.payloadBytes := by
  rw [SharedItemPayload.bytes_toJson]
  simp only [secretPayload, Option.elim_none, Option.elim_some, elim_nonempty,
    SecretOrigin.bytes_toJson, SecretShare.origin, SecretShare.payloadBytes]
  omega

theorem bytes_itemPayload {Pk Sk : Type} (title : String) (item : Vault.Contents Pk Sk)
    (passkey : Option SharedPasskey) (totp : String) :
    bytes (itemPayload title item passkey totp).toJson.text =
      16 + bytes (quote title) + stringMember 12 item.username + stringMember 12 item.password +
        stringMember 7 (item.urls.head?.getD "") + stringMember 9 item.notes +
        (passkey.elim 0 fun k => 11 + bytes k.toJson.text) + stringMember 8 totp := by
  rw [SharedItemPayload.bytes_toJson]
  simp only [itemPayload, Option.elim_none, elim_nonempty]
  omega

end Bytes

section Openable

variable (crates : Crates) (privateKeyPem : Vault.Passkey → Option String)

/-- Every share that the server takes of what is asked for is read by its recipient. -/
def ShareRequest.Opens (r : ShareRequest) : Prop :=
  ∀ v, r.payload crates privateKeyPem = some v → IsAccepted (bytes v.text) →
    (SharedItemPayload.parse v).isSome

variable {crates privateKeyPem}

theorem opens_of_payload_eq_none {r : ShareRequest} (h : r.payload crates privateKeyPem = none) :
    r.Opens crates privateKeyPem := by
  intro v hv
  rw [h] at hv
  cases hv

theorem opens_iff_fits {r : ShareRequest} {p : SharedItemPayload}
    (h : r.payload crates privateKeyPem = some p.toJson) :
    r.Opens crates privateKeyPem ↔ p.Fits ∨ ¬ IsAccepted (bytes p.toJson.text) := by
  rw [ShareRequest.Opens, h]
  simp only [Option.some_inj, forall_eq', SharedItemPayload.isSome_parse]
  tauto

/-- What the desktop app has parsed is read again, with or without the one-time password setup. -/
theorem desktopItem_opens (item : ItemPlaintext) (includeTotp : Bool) :
    (ShareRequest.desktopItem item includeTotp).Opens crates privateKeyPem := by
  intro v hv _
  simp only [ShareRequest.payload, desktopItemPayload, sharePayload_eq, Option.bind_eq_bind,
    Option.bind_eq_some_iff, Option.pure_def, Option.some_inj] at hv
  obtain ⟨_, ⟨⟨f, _⟩, _, hshared⟩, full, hparse, rfl⟩ := hv
  obtain ⟨passkey, _, rfl⟩ := Option.map_eq_some_iff.mp hshared
  obtain ⟨hfits, rfl⟩ := (SharedItemPayload.parse_toJson _ _).mp hparse
  rw [SharedItemPayload.isSome_parse]
  cases includeTotp with
  | true => exact hfits
  | false => exact { hfits with totp := nofun }

/-- The value is the only part of a secret that may be too long. -/
theorem secretPayload_fits (s : SecretShare) (password : Option String) :
    (secretPayload s password).Fits ↔ ∀ v ∈ password, IsWithin 0 4096 v := by
  refine ⟨fun hfits => hfits.password, fun hpassword => ?_⟩
  obtain ⟨hname, ⟨hkey, -⟩, -, hnote⟩ := s.secret_isValid
  constructor
  · show IsWithin 0 200 s.title
    unfold SecretShare.title
    split_ifs
    · exact hkey.mono (by omega) (by omega)
    · exact hname.mono (by omega) (by omega)
  · nofun
  · exact hpassword
  · nofun
  · refine forall_mem_nonempty.mpr fun hnonempty => ?_
    unfold SecretShare.note at hnonempty ⊢
    cases h : s.secret.note with
    | none => exact absurd (by rw [h, Option.getD_none]) hnonempty
    | some note => exact (hnote note h).mono (by omega) (by omega)
  · nofun
  · nofun
  · intro origin horigin
    obtain rfl := Option.some_inj.mp horigin
    exact
      { key := hkey.mono (by omega) (by omega)
        project := s.project_isValid.1.mono (by omega) (by omega)
        environment := s.environment_isValid.1.mono (by omega) (by omega) }

theorem desktopSecret_opens_iff (s : SecretShare) (includeTotp : Bool) :
    (ShareRequest.desktopSecret s includeTotp).Opens crates privateKeyPem ↔
      s.value.length ≤ 4096 ∨ ¬ IsAccepted s.payloadBytes := by
  have hpayload : (ShareRequest.desktopSecret s includeTotp).payload crates privateKeyPem =
      some (secretPayload s (some s.value)).toJson :=
    congrArg some (desktopSecretPayload_eq s includeTotp)
  rw [opens_iff_fits hpayload, secretPayload_fits, bytes_secretPayload]
  simp [IsWithin]

theorem mobileSecret_opens_iff (s : SecretShare) :
    (ShareRequest.mobileSecret s).Opens crates privateKeyPem ↔
      s.value.length ≤ 4096 ∨ ¬ IsAccepted s.payloadBytes := by
  have hpayload : (ShareRequest.mobileSecret s).payload crates privateKeyPem =
      some (secretPayload s (nonempty s.value)).toJson :=
    congrArg some (mobileSecretPayload_eq s)
  rw [opens_iff_fits hpayload, secretPayload_fits, nonempty_within]
  by_cases hempty : s.value = ""
  · have hshort : s.value.length ≤ 4096 := by
      rw [hempty]
      exact Nat.zero_le _
    exact iff_of_true (Or.inl hshort) (Or.inl hshort)
  · rw [nonempty, if_neg hempty, bytes_secretPayload]

theorem eq_of_openPlaintext {item f : ItemPlaintext} (h : openPlaintext crates item = some f) :
    f = item := by
  unfold openPlaintext at h
  split_ifs at h
  exact (Option.some_inj.mp h).symm

/-- A passkey fits as it is shared when it does as it is stored. -/
theorem shared_passkey_fits {passkey : Option Vault.Passkey} {shared : Option SharedPasskey}
    (h : transposed (SharedPasskey.of privateKeyPem) passkey = some shared) :
    (∀ k ∈ shared, k.Fits) ↔ ∀ k ∈ passkey, PasskeyFits privateKeyPem k := by
  cases passkey with
  | none =>
      obtain rfl := Option.some_inj.mp h
      exact ⟨fun _ => nofun, fun _ => nofun⟩
  | some k =>
      obtain ⟨_, hof, rfl⟩ := Option.map_eq_some_iff.mp h
      obtain ⟨pem, hpem, rfl⟩ := Option.map_eq_some_iff.mp hof
      simp only [Option.mem_def, Option.some_inj, forall_eq']
      constructor
      · rintro ⟨hrpId, huserName, huserHandle, hcredentialId, hprivateKey⟩
        exact ⟨hrpId, huserName, huserHandle, hcredentialId,
          fun _ hmem => by obtain rfl := Option.some_inj.mp (hpem.symm.trans hmem); exact hprivateKey⟩
      · rintro ⟨hrpId, huserName, huserHandle, hcredentialId, hprivateKey⟩
        exact ⟨hrpId, huserName, huserHandle, hcredentialId, hprivateKey pem hpem⟩

theorem itemPayload_fits {item : ItemPlaintext} {shared : Option SharedPasskey}
    (h : transposed (SharedPasskey.of privateKeyPem) item.passkey = some shared)
    (includeTotp : Bool) :
    (itemPayload item.title item shared (if includeTotp then item.totp else "")).Fits ↔
      ItemFits privateKeyPem item includeTotp := by
  have hurls : (item.urls.head?.getD "").length ≤ 2048 ↔
      ∀ url ∈ item.urls.head?, url.length ≤ 2048 := by
    cases item.urls.head? with
    | none => exact iff_of_true (Nat.zero_le _) nofun
    | some url => simp
  constructor
  · rintro ⟨⟨-, htitle⟩, husername, hpassword, hurl, hnotes, hpasskey, htotp, -⟩
    refine ⟨htitle, nonempty_within.mp husername, nonempty_within.mp hpassword,
      hurls.mp (nonempty_within.mp hurl), nonempty_within.mp hnotes,
      (shared_passkey_fits h).mp hpasskey, fun hinclude hnonempty => ?_⟩
    subst hinclude
    obtain ⟨⟨-, hlength⟩, huri⟩ := forall_mem_nonempty.mp htotp hnonempty
    exact ⟨hlength, huri⟩
  · rintro ⟨htitle, husername, hpassword, hurl, hnotes, hpasskey, htotp⟩
    refine ⟨⟨Nat.zero_le _, htitle⟩, nonempty_within.mpr husername, nonempty_within.mpr hpassword,
      nonempty_within.mpr (hurls.mpr hurl), nonempty_within.mpr hnotes,
      (shared_passkey_fits h).mpr hpasskey, forall_mem_nonempty.mpr fun hnonempty => ?_, nofun⟩
    cases includeTotp with
    | false => exact absurd rfl hnonempty
    | true =>
        obtain ⟨hlength, huri⟩ := htotp rfl hnonempty
        exact ⟨⟨Nat.zero_le _, hlength⟩, huri⟩

theorem bytes_itemPayload_shared {item : ItemPlaintext} {shared : Option SharedPasskey}
    (h : transposed (SharedPasskey.of privateKeyPem) item.passkey = some shared)
    (includeTotp : Bool) :
    bytes (itemPayload item.title item shared (if includeTotp then item.totp else "")).toJson.text =
      itemBytes privateKeyPem item includeTotp := by
  have hpasskey : (shared.elim 0 fun k => 11 + bytes k.toJson.text) =
      match item.passkey with
      | none => 0
      | some k => 76 + bytes (quote k.rpId) + bytes (quote k.userName) +
          bytes (quote k.userHandle) + bytes (quote k.credentialId) +
          bytes (quote ((privateKeyPem k).getD "")) := by
    cases hstored : item.passkey with
    | none =>
        rw [hstored] at h
        obtain rfl := Option.some_inj.mp h
        rfl
    | some k =>
        rw [hstored] at h
        obtain ⟨_, hof, rfl⟩ := Option.map_eq_some_iff.mp h
        obtain ⟨pem, hpem, rfl⟩ := Option.map_eq_some_iff.mp hof
        simp only [Option.elim_some, SharedPasskey.bytes_toJson, hpem, Option.getD_some]
        omega
  rw [bytes_itemPayload, hpasskey, itemBytes]

theorem mobileItem_opens_iff (item : ItemPlaintext) (includeTotp : Bool) :
    (ShareRequest.mobileItem item includeTotp).Opens crates privateKeyPem ↔
      IsDamaged crates privateKeyPem item ∨ ItemFits privateKeyPem item includeTotp ∨
        ¬ IsAccepted (itemBytes privateKeyPem item includeTotp) := by
  have hpayload : (ShareRequest.mobileItem item includeTotp).payload crates privateKeyPem = _ :=
    mobileItemPayload_eq crates privateKeyPem item includeTotp
  cases hopen : openPlaintext crates item with
  | none =>
      rw [hopen] at hpayload
      exact iff_of_true (opens_of_payload_eq_none hpayload) (Or.inl (Or.inl hopen))
  | some f =>
      obtain rfl := eq_of_openPlaintext hopen
      rw [hopen, Option.bind_some] at hpayload
      cases hshared : transposed (SharedPasskey.of privateKeyPem) f.passkey with
      | none =>
          rw [hshared, Option.map_none] at hpayload
          refine iff_of_true (opens_of_payload_eq_none hpayload) (Or.inl (Or.inr ?_))
          cases hpasskey : f.passkey with
          | none => rw [hpasskey] at hshared; cases hshared
          | some k =>
              rw [hpasskey] at hshared
              exact ⟨k, rfl, Option.map_eq_none_iff.mp (Option.map_eq_none_iff.mp hshared)⟩
      | some shared =>
          have hsound : ¬ IsDamaged crates privateKeyPem f := by
            rintro (hnone | ⟨k, hk, hpem⟩)
            · rw [hopen] at hnone
              cases hnone
            · rw [Option.mem_def.mp hk, transposed, SharedPasskey.of, hpem] at hshared
              cases hshared
          rw [hshared, Option.map_some] at hpayload
          rw [opens_iff_fits hpayload, itemPayload_fits hshared, bytes_itemPayload_shared hshared,
            or_iff_right hsound]

/-- A share that is made can be opened exactly when it comes from an item of the desktop app, or is
small enough in each part, or too large for the server to take it. -/
theorem opens_iff_openable (r : ShareRequest) :
    r.Opens crates privateKeyPem ↔ r.IsOpenable crates privateKeyPem := by
  cases r with
  | desktopItem item includeTotp => exact iff_of_true (desktopItem_opens item includeTotp) trivial
  | desktopSecret s includeTotp => exact desktopSecret_opens_iff s includeTotp
  | mobileItem item includeTotp => exact mobileItem_opens_iff item includeTotp
  | mobileSecret s => exact mobileSecret_opens_iff s

end Openable

/-- A certificate in an environment. -/
def longSecret : SecretShare where
  secret := ⟨"TLS chain", "TLS_CHAIN", none, [], none⟩
  project := ⟨"Payments API", "payments-api", none, none⟩
  environment := ⟨"Production", "production", .production, 0, none, none, none⟩
  value := String.ofList (List.replicate 5000 'M')
  secret_isValid := by decide
  project_isValid := by decide
  environment_isValid := by decide

/-- A login with a long recovery document in its notes. -/
def longItem : ItemPlaintext :=
  ⟨"Example", "alice", "hunter2", [], String.ofList (List.replicate 12000 'M'), "", none, none⟩

theorem bytes_quote_M (n : ℕ) : bytes (quote (String.ofList (List.replicate n 'M'))) = 2 + n := by
  have hsize : 'M'.utf8Size = 1 := by decide
  rw [Json.bytes_quote_replicate (by decide), hsize, Nat.mul_one]

theorem longSecret_accepted : IsAccepted longSecret.payloadBytes := by
  have hvalue : bytes (quote longSecret.value) = 2 + 5000 := bytes_quote_M 5000
  have hrest : bytes (quote longSecret.title) + stringMember 9 longSecret.note +
      bytes (quote longSecret.secret.key) + bytes (quote longSecret.project.name) +
      bytes (quote longSecret.environment.name) = 48 := by decide
  rw [isAccepted_iff, SecretShare.payloadBytes, hvalue]
  omega

theorem itemBytes_of_passkey_eq_none {privateKeyPem : Vault.Passkey → Option String}
    {item : ItemPlaintext} (h : item.passkey = none) :
    itemBytes privateKeyPem item false =
      16 + bytes (quote item.title) + stringMember 12 item.username +
        stringMember 12 item.password + stringMember 7 (item.urls.head?.getD "") +
        stringMember 9 item.notes := by
  simp only [itemBytes, h, Bool.false_eq_true, if_false, Nat.add_zero, stringMember, if_true]

theorem stringMember_le (nameBytes : ℕ) (s : String) :
    stringMember nameBytes s ≤ nameBytes + bytes (quote s) := by
  unfold stringMember
  split_ifs
  · exact Nat.zero_le _
  · exact Nat.le_refl _

theorem longItem_accepted : IsAccepted (itemBytes (fun _ => none) longItem false) := by
  have hnotes : bytes (quote longItem.notes) = 2 + 12000 := bytes_quote_M 12000
  have hmember := stringMember_le 9 longItem.notes
  have hrest : 16 + bytes (quote longItem.title) + stringMember 12 longItem.username +
      stringMember 12 longItem.password + stringMember 7 (longItem.urls.head?.getD "") = 65 := by
    decide
  rw [isAccepted_iff, itemBytes_of_passkey_eq_none rfl, hrest]
  rw [hnotes] at hmember
  generalize stringMember 9 longItem.notes = n at hmember ⊢
  omega

/-- A secret of 5,000 characters is shared from either app, and so is an item with 12,000 characters
of notes from the phone; their recipients are told that the link is damaged. -/
theorem longSecret_not_opens :
    ¬ (ShareRequest.desktopSecret longSecret false).Opens plainCrates (fun _ => none) ∧
      ¬ (ShareRequest.mobileSecret longSecret).Opens plainCrates (fun _ => none) ∧
      ¬ (ShareRequest.mobileItem longItem false).Opens plainCrates (fun _ => none) := by
  have hsecret : ¬ (longSecret.value.length ≤ 4096 ∨ ¬ IsAccepted longSecret.payloadBytes) := by
    rw [show longSecret.value.length = 5000 from ProjectSync.length_replicate 'M' 5000]
    rintro (hshort | hlarge)
    · omega
    · exact hlarge longSecret_accepted
  refine ⟨(desktopSecret_opens_iff _ _).not.mpr hsecret, (mobileSecret_opens_iff _).not.mpr hsecret,
    (mobileItem_opens_iff _ _).not.mpr ?_⟩
  have hnotes : longItem.notes.length = 12000 := ProjectSync.length_replicate 'M' 12000
  rintro ((hclosed | ⟨_, hpasskey, _⟩) | hfits | hlarge)
  · cases hclosed
  · cases hpasskey
  · have hshort := hfits.notes
    omega
  · exact hlarge longItem_accepted

end Zvault.Sharing
