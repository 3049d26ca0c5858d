import Mathlib.Data.List.TakeWhile
import Zvault.Bytes.Base64
import Zvault.Text.AsciiCase
import Zvault.Text.Separated
import Zvault.Vault.Items

/-!
# Passkeys of items

`zvault-passkeys`: how a passkey is made, imported, checked and shown. The `p256`
crate is left open; `PasskeyCrate.Lawful` says what is known of it.
-/

namespace Zvault.Vault

open Text (trim)

/-- What is left open of `p256`, and what is drawn at random. -/
structure PasskeyCrate (K : Type) where
  fromPkcs8Der : List UInt8 → Option K
  fromPkcs8Pem : String → Option K
  toPkcs8Der : K → Option (List UInt8)
  toPublicKeyDer : K → Option (List UInt8)
  /-- `random_signing_key`. -/
  randomSigningKey : Option K
  randomId : List UInt8
  randomHandle : List UInt8

def maxRpId : ℕ := 253

def maxLabel : ℕ := 63

/-- `MAX_CREDENTIAL_ID`, in bytes. -/
def maxCredentialId : ℕ := 1023

/-- `MAX_USER_HANDLE`, in bytes. -/
def maxUserHandle : ℕ := 64

/-- The longest key that is sent as base64, in bytes. -/
def maxKey : ℕ := 4096

def stripScheme (s : List Char) : List Char :=
  if "https://".toList.isPrefixOf s then s.drop 8
  else if "http://".toList.isPrefixOf s then s.drop 7
  else s

/-- The host of a website, without its port. -/
def hostPart (website : String) : List Char :=
  let s := stripScheme ((trim website).toList.map Char.toLower)
  (s.takeWhile fun c => !(['/', '?', '#'].contains c)).takeWhile (· ≠ ':')

def isLabelChar (c : Char) : Bool := c.isLower || c.isDigit || c == '-'

/-- A label of a host. Its characters are of one byte each. -/
def isLabel (label : List Char) : Bool :=
  !label.isEmpty && label.length ≤ maxLabel && label.head? ≠ some '-' &&
    label.getLast? ≠ some '-' && label.all isLabelChar

def isHost (host : List Char) : Bool :=
  !host.isEmpty && host.length ≤ maxRpId && (host.splitOn '.').all isLabel

/-- `rp_id`: the domain of a website. -/
def rpIdOf (website : String) : Option String :=
  if isHost (hostPart website) then some (String.ofList (hostPart website)) else none

def urlSafe (c : Char) : Char :=
  if c = '+' then '-' else if c = '/' then '_' else c

/-- `trim_end_matches('=')`. -/
def trimPadding (cs : List Char) : List Char := (cs.reverse.dropWhile (· = '=')).reverse

/-- `B64.encode`. -/
def encode (bytes : List UInt8) : String := String.ofList (Base64.encode bytes)

/-- `B64.decode`. -/
def decode (s : String) : Option (List UInt8) := Base64.decode s.toList

/-- Canonical base64url of at least one byte and at most `max`. -/
def base64url (s : String) (max : ℕ) : Option String :=
  (decode (String.ofList ((trimPadding (trim s).toList).map urlSafe))).bind fun bytes =>
    if bytes ≠ [] ∧ bytes.length ≤ max then some (encode bytes) else none

variable {K : Type} (A : PasskeyCrate K)

/-- `parse_private_key`. -/
def parsePrivateKey (input : String) : Option K :=
  let input := trim input
  if "-----BEGIN".toList.isPrefixOf input.toList then A.fromPkcs8Pem input
  else do
    let compact := String.ofList (input.toList.filter fun c => !Text.isWhitespace c)
    let b64 ← base64url compact maxKey
    let der ← decode b64
    A.fromPkcs8Der der

/-- `encode_key`. -/
def encodeKey (key : K) : Option String := (A.toPkcs8Der key).map encode

namespace Passkey

def generate (website userName : String) (now : ℤ) : Option Passkey := do
  let key ← A.randomSigningKey
  let rpId ← rpIdOf website
  let userName ← passkeyUser userName
  let privateKey ← encodeKey A key
  return ⟨rpId, userName, encode A.randomHandle, encode A.randomId, privateKey, now⟩

/-- An empty user handle gets a random one. -/
def handleOf (userHandle : String) : Option String :=
  if (trim userHandle).isEmpty then some (encode A.randomHandle)
  else base64url userHandle maxUserHandle

/-- `Passkey::import`. -/
def importKey (website userName credentialId userHandle privateKey : String) (now : ℤ) :
    Option Passkey := do
  let credentialId ← base64url credentialId maxCredentialId
  let userHandle ← handleOf A userHandle
  let key ← parsePrivateKey A privateKey
  let rpId ← rpIdOf website
  let userName ← passkeyUser userName
  let privateKey ← encodeKey A key
  return ⟨rpId, userName, userHandle, credentialId, privateKey, now⟩

variable (p : Passkey)

def signingKey : Option K := (decode p.privateKey).bind A.fromPkcs8Der

/-- `Passkey::validate`. -/
def validate : Bool :=
  rpIdOf p.rpId = some p.rpId && (base64url p.credentialId maxCredentialId).isSome &&
    (base64url p.userHandle maxUserHandle).isSome && (p.signingKey A).isSome

/-- `Passkey::public_key`. -/
def publicKey : Option String :=
  ((p.signingKey A).bind A.toPublicKeyDer).map encode

/-- A passkey that the UI sent to import or to be made. -/
def ofFields (p : PasskeyFields) (now : ℤ) : Option Passkey :=
  if (trim p.privateKey).isEmpty then generate A p.rpId p.userName now
  else importKey A p.rpId p.userName p.credentialId p.userHandle p.privateKey now

end Passkey

/-- A key is read as it was written, and its public key can be written. -/
structure PasskeyCrate.Lawful : Prop where
  fromPkcs8Der_toPkcs8Der : ∀ {key der}, A.toPkcs8Der key = some der →
    A.fromPkcs8Der der = some key
  toPublicKeyDer_isSome : ∀ key, (A.toPublicKeyDer key).isSome = true
  length_randomId : A.randomId.length = 16
  length_randomHandle : A.randomHandle.length = 16

/-- Text without white space is not trimmed. -/
theorem trim_eq_self {s : String} (h : ∀ c ∈ s.toList, Text.isWhitespace c = false) : trim s = s := by
  rw [trim, Text.trimmed_eq_self (fun c hc => h c (List.mem_of_mem_head? hc))
    (fun c hc => h c (List.mem_of_mem_getLast? hc)), String.ofList_toList]

section Host

theorem isHost_chars {host : List Char} (h : isHost host = true) :
    ∀ c ∈ host, isLabelChar c = true ∨ c = '.' := by
  simp only [isHost, Bool.and_eq_true] at h
  have hlabels : ∀ label ∈ host.splitOn '.', ∀ c ∈ label, isLabelChar c = true := by
    intro label hlabel
    have hvalid := List.all_eq_true.mp h.2 label hlabel
    simp only [isLabel, Bool.and_eq_true] at hvalid
    exact List.all_eq_true.mp hvalid.2
  intro c hc
  by_cases hdot : c = '.'
  · exact Or.inr hdot
  · exact Or.inl ((Text.forall_splitOn_forall_iff host).mp hlabels c hc hdot)

theorem hostChar_toNat {c : Char} (h : isLabelChar c = true ∨ c = '.') :
    (97 ≤ c.toNat ∧ c.toNat ≤ 122) ∨ (48 ≤ c.toNat ∧ c.toNat ≤ 57) ∨ c.toNat = 45 ∨
      c.toNat = 46 := by
  rcases h with h | rfl
  · simp only [isLabelChar, Bool.or_eq_true, Text.isLower_iff, Text.isDigit_iff, beq_iff_eq] at h
    rcases h with (h | h) | rfl
    · exact Or.inl h
    · exact Or.inr (Or.inl h)
    · exact Or.inr (Or.inr (Or.inl rfl))
  · exact Or.inr (Or.inr (Or.inr rfl))

/-- A host is the website of itself. -/
theorem hostPart_of_isHost {host : List Char} (h : isHost host = true) :
    hostPart (String.ofList host) = host := by
  have hchars : ∀ c ∈ host, (97 ≤ c.toNat ∧ c.toNat ≤ 122) ∨ (48 ≤ c.toNat ∧ c.toNat ≤ 57) ∨
      c.toNat = 45 ∨ c.toNat = 46 := fun c hc => hostChar_toNat (isHost_chars h c hc)
  have hspace : ∀ c ∈ (String.ofList host).toList, Text.isWhitespace c = false := by
    intro c hc
    have hc := hchars c (by rwa [String.toList_ofList] at hc)
    simp only [Text.isWhitespace, Bool.or_eq_false_iff, Bool.and_eq_false_iff,
      decide_eq_false_iff_not, beq_eq_false_iff_ne]
    omega
  have hlower : ∀ c ∈ host, c.toLower = c := by
    intro c hc
    refine Text.toLower_eq_self (Bool.eq_false_iff.mpr fun hupper => ?_)
    have hc := hchars c hc
    rw [Text.isUpper_iff] at hupper
    omega
  have hcolon : ':' ∉ host := fun hc => by
    have hc := hchars _ hc
    simp at hc
  have hslash : ∀ c ∈ host, (!(['/', '?', '#'].contains c)) = true := by
    intro c hc
    have hc := hchars c hc
    simp only [List.contains_eq_mem, Bool.not_eq_true', decide_eq_false_iff_not, List.mem_cons,
      List.not_mem_nil, or_false]
    rintro (rfl | rfl | rfl) <;> simp at hc
  have hscheme : stripScheme host = host := by
    rw [stripScheme, if_neg, if_neg]
    · intro hp
      exact hcolon ((List.isPrefixOf_iff_prefix.mp hp).subset (by decide))
    · intro hp
      exact hcolon ((List.isPrefixOf_iff_prefix.mp hp).subset (by decide))
  dsimp only [hostPart]
  rw [trim_eq_self hspace, String.toList_ofList, List.map_congr_left hlower, List.map_id', hscheme,
    List.takeWhile_eq_self_iff.mpr hslash, List.takeWhile_eq_self_iff.mpr]
  intro c hc
  simpa using fun heq : c = ':' => hcolon (heq ▸ hc)

/-- The domain of a website is a website with that domain. -/
theorem rpIdOf_rpId {website rpId : String} (h : rpIdOf website = some rpId) :
    rpIdOf rpId = some rpId := by
  rw [rpIdOf] at h
  split at h
  · rename_i hhost
    obtain rfl := Option.some_inj.mp h
    rw [rpIdOf, hostPart_of_isHost hhost, if_pos hhost]
  · cases h

end Host

theorem decode_encode (bytes : List UInt8) : decode (encode bytes) = some bytes := by
  rw [decode, encode, String.toList_ofList, Base64.decode_encode]

theorem isWhitespace_of_mem_encode {bytes : List UInt8} {c : Char} (h : c ∈ (encode bytes).toList) :
    Text.isWhitespace c = false := by
  rw [encode, String.toList_ofList] at h
  rcases Base64.mem_encode h with h | rfl | rfl
  · rw [Text.isAlphanum_iff] at h
    exact Text.isWhitespace_eq_false (by omega) (by omega)
  · decide
  · decide

/-- What base64url writes is canonical. -/
theorem base64url_encode {bytes : List UInt8} {max : ℕ} (hne : bytes ≠ [])
    (hlen : bytes.length ≤ max) : base64url (encode bytes) max = some (encode bytes) := by
  have hchars : ∀ c ∈ (encode bytes).toList, c.isAlphanum = true ∨ c = '-' ∨ c = '_' := by
    intro c hc
    rw [encode, String.toList_ofList] at hc
    exact Base64.mem_encode hc
  have hsafe : ∀ c ∈ (encode bytes).toList, c ≠ '=' ∧ urlSafe c = c := by
    intro c hc
    rcases hchars c hc with h | rfl | rfl
    · have hne : c ≠ '=' ∧ c ≠ '+' ∧ c ≠ '/' := by
        refine ⟨?_, ?_, ?_⟩ <;>
        · rintro rfl
          cases h
      exact ⟨hne.1, by rw [urlSafe, if_neg hne.2.1, if_neg hne.2.2]⟩
    · decide
    · decide
  have hpadding : trimPadding (encode bytes).toList = (encode bytes).toList := by
    rw [trimPadding, Text.dropWhile_eq_self_of_head?, List.reverse_reverse]
    intro c hc
    rw [List.head?_reverse] at hc
    exact decide_eq_false (hsafe c (List.mem_of_mem_getLast? hc)).1
  rw [base64url, trim_eq_self fun c hc => isWhitespace_of_mem_encode hc, hpadding, List.map_congr_left fun c hc => (hsafe c hc).2,
    List.map_id', String.ofList_toList, decode_encode, Option.bind_some, if_pos ⟨hne, hlen⟩]

/-- Canonical base64url is canonical. -/
theorem base64url_base64url {s s' : String} {max : ℕ} (h : base64url s max = some s') :
    base64url s' max = some s' := by
  obtain ⟨bytes, -, h⟩ := Option.bind_eq_some_iff.mp h
  split at h
  · rename_i hlen
    obtain rfl := Option.some_inj.mp h
    exact base64url_encode hlen.1 hlen.2
  · cases h

theorem eq_trim_of_passkeyUser {name userName : String} (h : passkeyUser name = some userName) :
    userName = trim name := by
  rw [passkeyUser] at h
  split at h
  · cases h
  · exact (Option.some_inj.mp h).symm

/-- A key in base64url is read, if it does not look like one in PEM. -/
theorem parsePrivateKey_encode {K : Type} (A : PasskeyCrate K) {der : List UInt8} (hne : der ≠ [])
    (hlen : der.length ≤ maxKey) (hhead : (Base64.encode der).head? ≠ some '-') :
    parsePrivateKey A (encode der) = A.fromPkcs8Der der := by
  have hfilter : (encode der).toList.filter (fun c => !Text.isWhitespace c) = (encode der).toList := by
    refine List.filter_eq_self.mpr fun c hc => ?_
    rw [isWhitespace_of_mem_encode hc]
    rfl
  have hpem : "-----BEGIN".toList.isPrefixOf (encode der).toList = false := by
    rw [Bool.eq_false_iff]
    intro hp
    obtain ⟨rest, hrest⟩ := List.isPrefixOf_iff_prefix.mp hp
    have hfirst := congrArg List.head? hrest
    simp only [encode, String.toList_ofList] at hfirst
    exact hhead hfirst.symm
  dsimp only [parsePrivateKey]
  rw [trim_eq_self fun c hc => isWhitespace_of_mem_encode hc, hpem, hfilter, String.ofList_toList,
    if_neg Bool.false_ne_true, base64url_encode hne hlen]
  simp only [Option.bind_eq_bind, Option.bind_some, decode_encode]

section Lawful

variable {A} {p : Passkey} {now : ℤ}

theorem Passkey.userName_ofFields {f : PasskeyFields} (h : ofFields A f now = some p) :
    p.userName = trim f.userName := by
  rw [ofFields] at h
  split at h
  · simp only [generate, Option.bind_eq_bind, Option.bind_eq_some_iff, Option.pure_def,
      Option.some_inj] at h
    obtain ⟨_, -, _, -, userName, huser, _, -, rfl⟩ := h
    exact eq_trim_of_passkeyUser huser
  · simp only [importKey, Option.bind_eq_bind, Option.bind_eq_some_iff, Option.pure_def,
      Option.some_inj] at h
    obtain ⟨_, -, _, -, _, -, _, -, userName, huser, _, -, rfl⟩ := h
    exact eq_trim_of_passkeyUser huser

variable (hA : A.Lawful)
include hA

theorem signingKey_encodeKey {key : K} {p : Passkey} (h : encodeKey A key = some p.privateKey) :
    p.signingKey A = some key := by
  obtain ⟨der, hder, hencode⟩ := Option.map_eq_some_iff.mp h
  rw [Passkey.signingKey, ← hencode, decode_encode, Option.bind_some,
    hA.fromPkcs8Der_toPkcs8Der hder]

omit hA in
theorem Passkey.validate_iff : p.validate A = true ↔ rpIdOf p.rpId = some p.rpId ∧
    (base64url p.credentialId maxCredentialId).isSome = true ∧
    (base64url p.userHandle maxUserHandle).isSome = true ∧ ∃ key, p.signingKey A = some key := by
  simp [validate, Option.isSome_iff_exists, and_assoc]

/-- A passkey that is made or imported is not damaged. -/
theorem Passkey.validate_ofFields {f : PasskeyFields} (h : ofFields A f now = some p) :
    p.validate A = true := by
  have hhandle : base64url (encode A.randomHandle) maxUserHandle =
      some (encode A.randomHandle) := by
    have hlen := hA.length_randomHandle
    refine base64url_encode (fun hnil => ?_) (by rw [hlen]; decide)
    simp [hnil] at hlen
  have hid : base64url (encode A.randomId) maxCredentialId = some (encode A.randomId) := by
    have hlen := hA.length_randomId
    refine base64url_encode (fun hnil => ?_) (by rw [hlen]; decide)
    simp [hnil] at hlen
  rw [validate_iff]
  rw [ofFields] at h
  split at h
  · simp only [generate, Option.bind_eq_bind, Option.bind_eq_some_iff, Option.pure_def,
      Option.some_inj] at h
    obtain ⟨key, -, rpId, hrpId, userName, -, privateKey, hprivate, rfl⟩ := h
    exact ⟨rpIdOf_rpId hrpId, by rw [hid]; rfl, by rw [hhandle]; rfl, key,
      signingKey_encodeKey hA hprivate⟩
  · simp only [importKey, Option.bind_eq_bind, Option.bind_eq_some_iff, Option.pure_def,
      Option.some_inj] at h
    obtain ⟨credentialId, hcredential, userHandle, huser, key, -, rpId, hrpId, userName, -, privateKey,
      hprivate, rfl⟩ := h
    refine ⟨rpIdOf_rpId hrpId, by rw [base64url_base64url hcredential]; rfl, ?_, key,
      signingKey_encodeKey hA hprivate⟩
    rw [handleOf] at huser
    split at huser
    · obtain rfl := Option.some_inj.mp huser
      rw [hhandle]
      rfl
    · rw [base64url_base64url huser]
      rfl

/-- The public key of an undamaged passkey is shown. -/
theorem Passkey.publicKey_of_validate (h : p.validate A = true) :
    ∃ publicKey, p.publicKey A = some publicKey := by
  obtain ⟨-, -, -, key, hkey⟩ := validate_iff.mp h
  obtain ⟨der, hder⟩ := Option.isSome_iff_exists.mp (hA.toPublicKeyDer_isSome key)
  exact ⟨encode der, by rw [publicKey, hkey, Option.bind_some, hder, Option.map_some]⟩

end Lawful

end Zvault.Vault
