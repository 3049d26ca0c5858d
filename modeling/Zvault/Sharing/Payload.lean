import Zvault.Json.Value
import Zvault.ProjectSync.Metas
import Zvault.Vault.Items

/-!
# What is sealed of a share

`SharedItemPayload` of `packages/shared/src/sharing.ts`, and the four ways to a
payload: an item or a project secret, shared from the desktop app or the phone.
What the recipient opens is the payload as it was sealed. The desktop app parses
an item's payload before it offers to share it; nothing else is parsed before it
is opened.
-/

namespace Zvault.Sharing

open Json (Value field optionalField unlessEmpty unlessNone)
open ProjectSync (EnvironmentMeta ProjectMeta SecretMeta)
open Vault (Crates ItemPlaintext openItem openPlaintext transposed)

structure SharedPasskey where
  rpId : String
  userName : String
  userHandle : String
  credentialId : String
  privateKey : String
  deriving DecidableEq, Repr

/-- `secret` of the payload: where a shared project secret came from. -/
structure SecretOrigin where
  key : String
  project : String
  environment : String
  deriving DecidableEq, Repr

structure SharedItemPayload where
  title : String
  username : Option String
  password : Option String
  url : Option String
  notes : Option String
  passkey : Option SharedPasskey
  totp : Option String
  secret : Option SecretOrigin
  deriving DecidableEq, Repr

/-- `z.string().min(min).max(max)`, which counts code points. -/
def stringWithin (min max : ℕ) : Value → Option String
  | .str s => if min ≤ s.length ∧ s.length ≤ max then some s else none
  | _ => none

/-- `/^otpauth:\/\/totp\//i`. -/
def IsTotpUri (s : String) : Prop :=
  (s.toList.take 15).map Char.toLower = "otpauth://totp/".toList

instance (s : String) : Decidable (IsTotpUri s) := inferInstanceAs (Decidable (_ = _))

def totpSetup (v : Value) : Option String := (stringWithin 0 2048 v).filter (IsTotpUri ·)

/-- `z.literal(1)`. -/
def versionOne : Value → Option Unit
  | .num 1 => some ()
  | _ => none

def SharedPasskey.parse (v : Value) : Option SharedPasskey := do
  let rpId ← field (stringWithin 1 253) "rpId" v
  let userName ← field (stringWithin 0 500) "userName" v
  let userHandle ← field (stringWithin 0 200) "userHandle" v
  let credentialId ← field (stringWithin 1 1400) "credentialId" v
  let privateKey ← field (stringWithin 0 1000) "privateKey" v
  return { rpId, userName, userHandle, credentialId, privateKey }

def SecretOrigin.parse (v : Value) : Option SecretOrigin := do
  let key ← field (stringWithin 0 256) "key" v
  let project ← field (stringWithin 0 200) "project" v
  let environment ← field (stringWithin 0 200) "environment" v
  return { key, project, environment }

/-- `SharedItemPayload.parse`; members it does not know are dropped. -/
def SharedItemPayload.parse (v : Value) : Option SharedItemPayload := do
  let _ ← field versionOne "v" v
  let title ← field (stringWithin 0 200) "title" v
  let username ← optionalField (stringWithin 0 500) "username" v
  let password ← optionalField (stringWithin 0 4096) "password" v
  let url ← optionalField (stringWithin 0 2048) "url" v
  let notes ← optionalField (stringWithin 0 10000) "notes" v
  let passkey ← optionalField SharedPasskey.parse "passkey" v
  let totp ← optionalField totpSetup "totp" v
  let secret ← optionalField SecretOrigin.parse "secret" v
  return { title, username, password, url, notes, passkey, totp, secret }

def SharedPasskey.toJson (p : SharedPasskey) : Value :=
  .obj [("rpId", .str p.rpId), ("userName", .str p.userName), ("userHandle", .str p.userHandle),
    ("credentialId", .str p.credentialId), ("privateKey", .str p.privateKey)]

def SecretOrigin.toJson (s : SecretOrigin) : Value :=
  .obj [("key", .str s.key), ("project", .str s.project), ("environment", .str s.environment)]

/-- `JSON.stringify` of a payload. -/
def SharedItemPayload.toJson (p : SharedItemPayload) : Value :=
  .obj ([("v", .num 1), ("title", .str p.title)] ++ unlessNone "username" .str p.username ++
    unlessNone "password" .str p.password ++ unlessNone "url" .str p.url ++
    unlessNone "notes" .str p.notes ++ unlessNone "passkey" SharedPasskey.toJson p.passkey ++
    unlessNone "totp" .str p.totp ++ unlessNone "secret" SecretOrigin.toJson p.secret)

/-- `withoutTotp`. -/
def withoutTotp (p : SharedItemPayload) : SharedItemPayload := { p with totp := none }

/-- A project secret's value in one environment, with the metadata it is shown with. What is opened
of a project is what its writers sealed, so the metadata is in its form. -/
structure SecretShare where
  secret : SecretMeta
  project : ProjectMeta
  environment : EnvironmentMeta
  value : String
  secret_isValid : secret.IsValid
  project_isValid : project.IsValid
  environment_isValid : environment.IsValid

/-- `s.name || s.key`. -/
def SecretShare.title (s : SecretShare) : String :=
  if s.secret.name = "" then s.secret.key else s.secret.name

def SecretShare.note (s : SecretShare) : String := s.secret.note.getD ""

def SecretShare.origin (s : SecretShare) : SecretOrigin :=
  ⟨s.secret.key, s.project.name, s.environment.name⟩

/-- `secretSharePayload`. -/
def secretSharePayload (s : SecretShare) : SharedItemPayload :=
  { title := s.title, username := none, password := some s.value, url := none,
    notes := if s.note = "" then none else some s.note, passkey := none, totp := none,
    secret := some s.origin }

section Senders

-- `Passkey::private_key_pem` is left open, with the rest of the other crates.
variable (crates : Crates) (privateKeyPem : Vault.Passkey → Option String)

/-- `SharedPasskey::of`. -/
def SharedPasskey.of (p : Vault.Passkey) : Option SharedPasskey :=
  (privateKeyPem p).map fun pem => ⟨p.rpId, p.userName, p.userHandle, p.credentialId, pem⟩

/-- `open_item_with_passkey`. -/
def openItemWithPasskey (item : ItemPlaintext) : Option (Vault.ItemFields × Option Vault.Passkey) :=
  (openItem crates item).map fun fields => (fields, item.passkey)

/-- `share_payload` of the desktop app. -/
def sharePayload (item : ItemPlaintext) : Option Value := do
  let (fields, passkey) ← openItemWithPasskey crates item
  let passkey ← transposed (SharedPasskey.of privateKeyPem) passkey
  let title := if fields.title = "" then "Untitled" else fields.title
  return .obj ([("v", .num 1), ("title", .str title)] ++ unlessEmpty "username" fields.username ++
    unlessEmpty "password" fields.password ++ unlessEmpty "url" (fields.urls.head?.getD "") ++
    unlessEmpty "notes" fields.notes ++ unlessNone "passkey" SharedPasskey.toJson passkey ++
    unlessEmpty "totp" fields.totp)

/-- `openSharing` and the share sheet: the payload is parsed first. -/
def desktopItemPayload (item : ItemPlaintext) (includeTotp : Bool) : Option Value := do
  let v ← sharePayload crates privateKeyPem item
  let full ← SharedItemPayload.parse v
  return (if includeTotp then full else withoutTotp full).toJson

/-- `startShare` and the share sheet. -/
def desktopSecretPayload (s : SecretShare) (includeTotp : Bool) : Value :=
  let full := secretSharePayload s
  (if includeTotp then full else withoutTotp full).toJson

/-- `payload` of the phone. -/
def mobileItemPayload (item : ItemPlaintext) (includeTotp : Bool) : Option Value := do
  let f ← openPlaintext crates item
  let passkey ← transposed (SharedPasskey.of privateKeyPem) f.passkey
  return .obj ([("v", .num 1), ("title", .str f.title)] ++ unlessEmpty "username" f.username ++
    unlessEmpty "password" f.password ++ unlessEmpty "url" (f.urls.head?.getD "") ++
    unlessEmpty "notes" f.notes ++ unlessNone "passkey" SharedPasskey.toJson passkey ++
    unlessEmpty "totp" (if includeTotp then f.totp else ""))

/-- `secret_payload` of the phone. -/
def mobileSecretPayload (s : SecretShare) : Value :=
  .obj ([("v", .num 1), ("title", .str s.title)] ++ unlessEmpty "password" s.value ++
    unlessEmpty "notes" s.note ++ [("secret", s.origin.toJson)])

/-- What is shared, and from where. -/
inductive ShareRequest where
  | desktopItem (item : ItemPlaintext) (includeTotp : Bool)
  | desktopSecret (secret : SecretShare) (includeTotp : Bool)
  | mobileItem (item : ItemPlaintext) (includeTotp : Bool)
  | mobileSecret (secret : SecretShare)

/-- What is sealed, if anything is. -/
def ShareRequest.payload : ShareRequest → Option Value
  | .desktopItem item includeTotp => desktopItemPayload crates privateKeyPem item includeTotp
  | .desktopSecret secret includeTotp => some (desktopSecretPayload secret includeTotp)
  | .mobileItem item includeTotp => mobileItemPayload crates privateKeyPem item includeTotp
  | .mobileSecret secret => some (mobileSecretPayload secret)

end Senders

/-- `maxCiphertextBytes`. -/
def maxCiphertextBytes : ℕ := 64 * 1024

/-- `TAG_LEN`. -/
def tagLen : ℕ := 16

/-- The base64url characters of so many bytes, without padding. -/
def base64Length (n : ℕ) : ℕ := (4 * n + 2) / 3

/-- `shareBlob`: the ciphertext of a payload of so many bytes is taken by the server. -/
def IsAccepted (payloadBytes : ℕ) : Prop :=
  base64Length (payloadBytes + tagLen) ≤ (maxCiphertextBytes * 4 + 2) / 3

instance (n : ℕ) : Decidable (IsAccepted n) := inferInstanceAs (Decidable (_ ≤ _))

theorem isAccepted_iff (n : ℕ) : IsAccepted n ↔ n ≤ 65520 := by
  simp only [IsAccepted, base64Length, tagLen, maxCiphertextBytes]
  omega

end Zvault.Sharing
