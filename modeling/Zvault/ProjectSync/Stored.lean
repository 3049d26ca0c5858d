import Zvault.Bytes.Base64
import Zvault.Crypto.Padding
import Zvault.Keyrings.Desktop
import Zvault.ProjectSync.Metas
import Zvault.Text.AsciiCase

/-!
# What is accepted and what is stored

The schemas bound the characters of a text, `seal_padded` the bytes of the JSON, and the
API the characters of the ciphertext. Names and descriptions always fit; notes, sync
targets and values are accepted that do not.
-/

namespace Zvault.ProjectSync

open Crypto
open Json (Value bytes memberBytes quote unlessNone)

/-- `MAX_META_CT_CHARS`. -/
def maxMetaCtChars : ℕ := 16 * 1024

/-- `MAX_VALUE_CT_CHARS`. -/
def maxValueCtChars : ℕ := 128 * 1024

/-- What `SecretValue.parse` accepts. -/
def IsSecretValue (value : String) : Prop := IsWithin 0 (64 * 1024) value

instance (value : String) : Decidable (IsSecretValue value) := inferInstanceAs (Decidable (_ ∧ _))

section Written

/-- How a record that may be missing is written. -/
def idJson (ids : RecordId → Crypto.Uuid) (id : Option RecordId) : Value :=
  id.elim .null fun id => .str (ids id).hyphenated

def ProjectMeta.toJson (m : ProjectMeta) : Value :=
  .obj ([("name", .str m.name), ("slug", .str m.slug)] ++
    unlessNone "description" .str m.description ++ unlessNone "color" .str m.color)

def EnvironmentKind.text : EnvironmentKind → String
  | development => "development"
  | staging => "staging"
  | production => "production"
  | custom => "custom"

def SyncTarget.toJson : SyncTarget → Value
  | github id repo environment auto =>
    .obj ([("provider", .str "github"), ("id", .str id), ("repo", .str repo)] ++
      unlessNone "environment" .str environment ++ unlessNone "auto" .bool auto)
  | aws id region secretName auto =>
    .obj ([("provider", .str "aws"), ("id", .str id), ("region", .str region),
      ("secretName", .str secretName)] ++ unlessNone "auto" .bool auto)

def EnvironmentMeta.toJson (ids : RecordId → Crypto.Uuid) (m : EnvironmentMeta) : Value :=
  .obj ([("name", .str m.name), ("slug", .str m.slug), ("kind", .str m.kind.text),
      ("position", .num m.position)] ++ unlessNone "color" .str m.color ++
    [("inheritsFrom", idJson ids m.inheritsFrom)] ++
    unlessNone "sync" (fun targets => .arr (targets.map SyncTarget.toJson)) m.sync)

def FolderMeta.toJson (m : FolderMeta) : Value :=
  .obj [("name", .str m.name), ("slug", .str m.slug)]

def SecretMeta.toJson (ids : RecordId → Crypto.Uuid) (m : SecretMeta) : Value :=
  .obj ([("name", .str m.name), ("key", .str m.key), ("folderId", idJson ids m.folderId),
    ("tags", .arr (m.tags.map .str))] ++ unlessNone "note" .str m.note)

end Written

section Bytes

/-- The bytes of a list that is written, each item with the sign before it. -/
def listBytes (items : List ℕ) : ℕ := max 2 (1 + (items.map (· + 1)).sum)

def idBytes (id : Option RecordId) : ℕ := if id.isSome then 38 else 4

def autoBytes (auto : Option Bool) : ℕ := auto.elim 0 fun auto => if auto then 12 else 13

def SyncTarget.jsonBytes : SyncTarget → ℕ
  | github id repo environment auto =>
    35 + bytes (quote id) + bytes (quote repo) +
      (environment.elim 0 fun e => 15 + bytes (quote e)) + autoBytes auto
  | aws id region secretName auto =>
    48 + bytes (quote id) + bytes (quote region) + bytes (quote secretName) + autoBytes auto

def EnvironmentMeta.jsonBytes (m : EnvironmentMeta) : ℕ :=
  53 + bytes (quote m.name) + bytes (quote m.slug) + bytes (quote m.kind.text) +
    (Nat.toDigits 10 m.position).length + (m.color.elim 0 fun c => 9 + bytes (quote c)) +
    idBytes m.inheritsFrom +
    (m.sync.elim 0 fun targets => 8 + listBytes (targets.map SyncTarget.jsonBytes))

def SecretMeta.jsonBytes (m : SecretMeta) : ℕ :=
  36 + bytes (quote m.name) + bytes (quote m.key) + idBytes m.folderId +
    listBytes (m.tags.map fun t => bytes (quote t)) + (m.note.elim 0 fun n => 8 + bytes (quote n))

/-- ASCII is as many bytes as characters. -/
theorem bytes_of_ascii {cs : List Char} (h : ∀ c ∈ cs, c.toNat < 128) : bytes cs = cs.length := by
  induction cs with
  | nil => rfl
  | cons c cs ih =>
    obtain ⟨hc, hcs⟩ := List.forall_mem_cons.mp h
    have hsize : c.utf8Size = 1 := Char.utf8Size_eq_one_iff.mpr (Nat.le_of_lt_succ hc)
    rw [Json.bytes_cons, hsize, ih hcs, List.length_cons, Nat.add_comm]

theorem bytes_idJson (ids : RecordId → Crypto.Uuid) (id : Option RecordId) :
    bytes (idJson ids id).text = idBytes id := by
  cases id with
  | none => rfl
  | some id =>
    have hplain : ∀ c ∈ (ids id).hyphenated.toList, Json.escape c = [c] ∧ c.toNat < 128 := by
      have hdigit : ∀ n < 16, Json.escape n.digitChar = [n.digitChar] ∧ n.digitChar.toNat < 128 := by
        decide
      intro c hc
      rcases Uuid.mem_hyphenated hc with rfl | ⟨n, hn, rfl⟩
      · decide
      · exact hdigit n hn
    have hbytes : bytes (ids id).hyphenated.toList = 36 := by
      rw [bytes_of_ascii fun c hc => (hplain c hc).2, Uuid.length_hyphenated]
    change bytes (quote (ids id).hyphenated) = 38
    rw [quote, List.flatMap_congr fun c hc => (hplain c hc).1, List.flatMap_singleton',
      Json.bytes_append, Json.bytes_cons, hbytes]
    decide

theorem bytes_auto (auto : Option Bool) :
    ((unlessNone "auto" Value.bool auto).map memberBytes).sum = autoBytes auto := by
  rcases auto with _ | _ | _ <;> decide

theorem ProjectMeta.bytes_toJson (m : ProjectMeta) :
    bytes m.toJson.text = 17 + bytes (quote m.name) + bytes (quote m.slug) +
      (m.description.elim 0 fun d => 15 + bytes (quote d)) +
      (m.color.elim 0 fun c => 9 + bytes (quote c)) := by
  have hname : bytes (quote "name") = 6 := by decide
  have hslug : bytes (quote "slug") = 6 := by decide
  have hdescription : bytes (quote "description") = 13 := by decide
  have hcolor : bytes (quote "color") = 7 := by decide
  rw [ProjectMeta.toJson, Json.bytes_obj (by simp)]
  simp only [List.map_append, List.sum_append, List.map_cons, List.map_nil, List.sum_cons,
    List.sum_nil, Json.sum_memberBytes_unlessNone, hdescription, hcolor, Nat.reduceAdd, Value.text]
  simp only [memberBytes, hname, hslug, Value.text]
  omega

theorem FolderMeta.bytes_toJson (m : FolderMeta) :
    bytes m.toJson.text = 17 + bytes (quote m.name) + bytes (quote m.slug) := by
  have hname : bytes (quote "name") = 6 := by decide
  have hslug : bytes (quote "slug") = 6 := by decide
  rw [FolderMeta.toJson, Json.bytes_obj (List.cons_ne_nil _ _)]
  simp only [List.map_cons, List.map_nil, List.sum_cons, List.sum_nil, memberBytes, Value.text,
    hname, hslug]
  omega

theorem SyncTarget.bytes_toJson (t : SyncTarget) : bytes t.toJson.text = t.jsonBytes := by
  have hprovider : bytes (quote "provider") = 10 := by decide
  have hid : bytes (quote "id") = 4 := by decide
  cases t with
  | github id repo environment auto =>
    have hgithub : bytes (quote "github") = 8 := by decide
    have hrepo : bytes (quote "repo") = 6 := by decide
    have henvironment : bytes (quote "environment") = 13 := by decide
    rw [SyncTarget.toJson, Json.bytes_obj (by simp)]
    simp only [List.map_append, List.sum_append, List.map_cons, List.map_nil, List.sum_cons,
      List.sum_nil, Json.sum_memberBytes_unlessNone "environment", bytes_auto, henvironment,
      Nat.reduceAdd, Value.text]
    simp only [memberBytes, hprovider, hid, hgithub, hrepo, Value.text, SyncTarget.jsonBytes]
    omega
  | aws id region secretName auto =>
    have haws : bytes (quote "aws") = 5 := by decide
    have hregion : bytes (quote "region") = 8 := by decide
    have hsecretName : bytes (quote "secretName") = 12 := by decide
    rw [SyncTarget.toJson, Json.bytes_obj (by simp)]
    simp only [List.map_append, List.sum_append, List.map_cons, List.map_nil, List.sum_cons,
      List.sum_nil, bytes_auto]
    simp only [memberBytes, hprovider, hid, haws, hregion, hsecretName, Value.text,
      SyncTarget.jsonBytes]
    omega

theorem bytes_list (vs : List Value) :
    bytes (Value.arr vs).text = listBytes (vs.map fun v => bytes v.text) := by
  rw [Json.bytes_arr, listBytes, List.map_map]
  rfl

theorem bytes_position (n : ℕ) : bytes (Value.num n).text = (Nat.toDigits 10 n).length := by
  have htext : (Value.num n).text = Nat.toDigits 10 n := by
    change (Nat.repr n).toList = _
    rw [Nat.repr, String.toList_ofList]
  rw [htext, bytes_of_ascii]
  intro c hc
  have hdigit := (Text.isDigit_iff c).mp (Nat.isDigit_of_mem_toDigits (by decide) (by decide) hc)
  omega

theorem bytes_str (s : String) : bytes (Value.str s).text = bytes (quote s) := rfl

theorem EnvironmentMeta.bytes_toJson (ids : RecordId → Crypto.Uuid) (m : EnvironmentMeta) :
    bytes (m.toJson ids).text = m.jsonBytes := by
  have hname : bytes (quote "name") = 6 := by decide
  have hslug : bytes (quote "slug") = 6 := by decide
  have hkind : bytes (quote "kind") = 6 := by decide
  have hposition : bytes (quote "position") = 10 := by decide
  have hcolor : bytes (quote "color") = 7 := by decide
  have hinherits : bytes (quote "inheritsFrom") = 14 := by decide
  have hsync : bytes (quote "sync") = 6 := by decide
  have htargets : ∀ targets : List SyncTarget,
      bytes (Value.arr (targets.map SyncTarget.toJson)).text =
        listBytes (targets.map SyncTarget.jsonBytes) := by
    intro targets
    rw [bytes_list, List.map_map]
    exact congrArg listBytes (List.map_congr_left fun t _ => t.bytes_toJson)
  rw [EnvironmentMeta.toJson, Json.bytes_obj (by simp)]
  simp only [List.map_append, List.sum_append, List.map_cons, List.map_nil, List.sum_cons,
    List.sum_nil, Json.sum_memberBytes_unlessNone, hcolor, hsync, htargets, Nat.reduceAdd]
  simp only [memberBytes, hname, hslug, hkind, hposition, hinherits, bytes_idJson, bytes_position,
    bytes_str, EnvironmentMeta.jsonBytes]
  omega

theorem SecretMeta.bytes_toJson (ids : RecordId → Crypto.Uuid) (m : SecretMeta) :
    bytes (m.toJson ids).text = m.jsonBytes := by
  have hname : bytes (quote "name") = 6 := by decide
  have hkey : bytes (quote "key") = 5 := by decide
  have hfolder : bytes (quote "folderId") = 10 := by decide
  have htags : bytes (quote "tags") = 6 := by decide
  have hnote : bytes (quote "note") = 6 := by decide
  have hlist : bytes (Value.arr (m.tags.map .str)).text =
      listBytes (m.tags.map fun t => bytes (quote t)) := by
    rw [bytes_list, List.map_map]
    rfl
  rw [SecretMeta.toJson, Json.bytes_obj (by simp)]
  simp only [List.map_append, List.sum_append, List.map_cons, List.map_nil, List.sum_cons,
    List.sum_nil, Json.sum_memberBytes_unlessNone, hnote, Nat.reduceAdd]
  simp only [memberBytes, hname, hkey, hfolder, htags, bytes_idJson, hlist, bytes_str,
    SecretMeta.jsonBytes]
  omega

/-- At most six bytes are written of a character. -/
theorem bytes_quote_le (s : String) : bytes (quote s) ≤ 2 + 6 * s.length := by
  have hchars : ∀ cs : List Char, bytes (cs.flatMap Json.escape) ≤ 6 * cs.length := by
    intro cs
    induction cs with
    | nil => exact Nat.zero_le _
    | cons c cs ih =>
      have hescape := Json.bytes_escape_le c
      rw [List.flatMap_cons, Json.bytes_append, List.length_cons]
      omega
  have hlength := hchars s.toList
  rw [String.length_toList] at hlength
  have hquote : '"'.utf8Size = 1 := by decide
  have hend : bytes ['"'] = 1 := by decide
  rw [quote, Json.bytes_append, Json.bytes_cons]
  omega

/-- The longest JSON of metadata that is stored: 47 blocks without the length before it. -/
def maxMetaBytes : ℕ := 47 * padBlock - lenPrefix

theorem ProjectMeta.bytes_le {m : ProjectMeta} (h : m.IsValid) :
    bytes m.toJson.text ≤ maxMetaBytes := by
  obtain ⟨hname, hslug, hdescription, hcolor⟩ := h
  have hnameBytes := bytes_quote_le m.name
  have hslugBytes := bytes_quote_le m.slug
  have hdescriptionBytes : (m.description.elim 0 fun d => 15 + bytes (quote d)) ≤ 6017 := by
    cases hd : m.description with
    | none => exact Nat.zero_le _
    | some d =>
      have hbytes := bytes_quote_le d
      have hmax := (hdescription d hd).2
      change 15 + bytes (quote d) ≤ 6017
      omega
  have hcolorBytes : (m.color.elim 0 fun c => 9 + bytes (quote c)) ≤ 95 := by
    cases hc : m.color with
    | none => exact Nat.zero_le _
    | some c =>
      have hbytes := bytes_quote_le c
      have hseven := (hcolor c hc).1
      rw [String.length_toList] at hseven
      change 9 + bytes (quote c) ≤ 95
      omega
  have hnameMax := hname.2
  have hslugMax := hslug.1.2
  have hmax : maxMetaBytes = 12028 := rfl
  rw [m.bytes_toJson]
  omega

theorem FolderMeta.bytes_le {m : FolderMeta} (h : m.IsValid) :
    bytes m.toJson.text ≤ maxMetaBytes := by
  have hnameBytes := bytes_quote_le m.name
  have hslugBytes := bytes_quote_le m.slug
  have hnameMax := h.1.2
  have hslugMax := h.2.1.2
  have hmax : maxMetaBytes = 12028 := rfl
  rw [m.bytes_toJson]
  omega

end Bytes

section Sealed

/-- The texts and blobs are as long as JSON and base64url say. -/
structure WritesLengths (P : Primitives) : Prop where
  length_toVec : ∀ v, ∃ json, P.toVec v = some json ∧ json.length = bytes v.text
  length_base64 : ∀ ct, (P.base64 ct).length = (4 * ct.length + 2) / 3

variable {P : Primitives}

/-- A blob is sealed of what fits the plaintext limit, and is as long as its bucket says. -/
theorem exists_sealText_iff (hP : P.IsAead) (hwrites : WritesLengths P) (key : SymmetricKey)
    (v : Value) (aad : List UInt8) (kid : String) (nonce : Nonce) (limit : ℕ) :
    (∃ blob, Keyrings.sealText P key v aad kid nonce = some blob ∧ blob.ct.length ≤ limit) ↔
      bytes v.text ≤ maxPlaintextLen ∧
        (4 * (padBlock * bucket (bytes v.text) + tagLen) + 2) / 3 ≤ limit := by
  obtain ⟨json, hjson, hlength⟩ := hwrites.length_toVec v
  rw [← hlength, Keyrings.sealText, hjson, Option.bind_some]
  constructor
  · rintro ⟨blob, hblob, hct⟩
    obtain ⟨s, hs, rfl⟩ := Option.map_eq_some_iff.mp hblob
    have hfits : json.length ≤ maxPlaintextLen := by
      by_contra hlarge
      rw [sealPadded, if_pos (Nat.lt_of_not_le hlarge)] at hs
      cases hs
    rw [Blob.new, hwrites.length_base64, hP.length_sealPadded hs] at hct
    exact ⟨hfits, hct⟩
  · rintro ⟨hfits, hct⟩
    obtain ⟨s, hs⟩ := Option.isSome_iff_exists.mp (hP.sealPadded_isSome key aad nonce hfits)
    refine ⟨_, Option.map_eq_some_iff.mpr ⟨s, hs, rfl⟩, ?_⟩
    rw [Blob.new, hwrites.length_base64, hP.length_sealPadded hs]
    exact hct

/-- Metadata is sealed, and its ciphertext is within the limit of the API. -/
def MetaStored (P : Primitives) (key : SymmetricKey) (v : Value) (aad : List UInt8) (kid : String)
    (nonce : Nonce) : Prop :=
  ∃ blob, Keyrings.sealJson P key v aad kid nonce = some blob ∧
    blob.ct.length ≤ maxMetaCtChars

theorem metaStored_iff (hP : P.IsAead) (hwrites : WritesLengths P) {v : Value}
    (hv : v.isObject = true) (key : SymmetricKey) (aad : List UInt8) (kid : String)
    (nonce : Nonce) :
    MetaStored P key v aad kid nonce ↔ bytes v.text ≤ maxMetaBytes := by
  unfold MetaStored Keyrings.sealJson
  rw [if_pos hv, exists_sealText_iff hP hwrites]
  simp only [maxPlaintextLen, padBlock, bucket, lenPrefix, tagLen, maxMetaCtChars, maxMetaBytes]
  omega

/-- A value is stored when its text has room in the plaintext limit, whatever the API's limit. -/
theorem sealSecretValue_iff (hP : P.IsAead) (hwrites : WritesLengths P)
    {keys : Keyrings.DesktopKeyring} {project secret environment : Crypto.Uuid}
    {account key : SymmetricKey} (haccount : keys.account = some account)
    (hkey : keys.environments (project.hyphenated, environment.hyphenated) = some key)
    {value : String} {nonce : Nonce} :
    (∃ blob, keys.sealSecretValue P project.hyphenated secret.hyphenated environment.hyphenated
        value nonce = some blob ∧ blob.ct.length ≤ maxValueCtChars) ↔
      bytes (quote value) ≤ 65526 := by
  have hvalue : bytes (Value.obj [("value", .str value)]).text = 10 + bytes (quote value) := by
    have hname : bytes (quote "value") = 7 := by decide
    rw [Json.bytes_obj (List.cons_ne_nil _ _)]
    simp only [List.map_cons, List.map_nil, List.sum_cons, List.sum_nil, memberBytes, bytes_str,
      hname]
    omega
  simp only [Keyrings.DesktopKeyring.sealSecretValue, canonicalId_hyphenated, haccount, hkey,
    Option.bind_eq_bind, Option.bind_some]
  rw [exists_sealText_iff hP hwrites, hvalue]
  simp only [maxPlaintextLen, padBlock, bucket, lenPrefix, tagLen, maxValueCtChars]
  omega

/-- **What the schemas accept and what is stored.** Metadata of projects and folders is always
stored. Metadata of environments and secrets is stored exactly when its JSON is at most
`maxMetaBytes` long, and values when their text has room in the plaintext limit. -/
theorem accepted_stored (hP : P.IsAead) (hwrites : WritesLengths P)
    (ids : RecordId → Crypto.Uuid) :
    (∀ m : ProjectMeta, m.IsValid → ∀ key aad kid nonce, MetaStored P key m.toJson aad kid nonce) ∧
    (∀ m : FolderMeta, m.IsValid → ∀ key aad kid nonce, MetaStored P key m.toJson aad kid nonce) ∧
    (∀ m : EnvironmentMeta, m.IsValid → ∀ key aad kid nonce,
      (MetaStored P key (m.toJson ids) aad kid nonce ↔ m.jsonBytes ≤ maxMetaBytes)) ∧
    (∀ m : SecretMeta, m.IsValid → ∀ key aad kid nonce,
      (MetaStored P key (m.toJson ids) aad kid nonce ↔ m.jsonBytes ≤ maxMetaBytes)) ∧
    ∀ (keys : Keyrings.DesktopKeyring) (project secret environment : Crypto.Uuid) (account key),
      keys.account = some account →
      keys.environments (project.hyphenated, environment.hyphenated) = some key →
      ∀ value, IsSecretValue value → ∀ nonce,
        ((∃ blob, keys.sealSecretValue P project.hyphenated secret.hyphenated
            environment.hyphenated value nonce = some blob ∧ blob.ct.length ≤ maxValueCtChars) ↔
          bytes (quote value) ≤ 65526) := by
  refine ⟨?_, ?_, ?_, ?_, ?_⟩
  · intro m hm key aad kid nonce
    exact (metaStored_iff hP hwrites rfl key aad kid nonce).mpr (ProjectMeta.bytes_le hm)
  · intro m hm key aad kid nonce
    exact (metaStored_iff hP hwrites rfl key aad kid nonce).mpr (FolderMeta.bytes_le hm)
  · intro m _ key aad kid nonce
    rw [metaStored_iff hP hwrites rfl, m.bytes_toJson]
  · intro m _ key aad kid nonce
    rw [metaStored_iff hP hwrites rfl, m.bytes_toJson]
  · intro keys project secret environment account key haccount hkey value _ nonce
    exact sealSecretValue_iff hP hwrites haccount hkey

end Sealed

section Stored

/-- A cipher that only adds a tag, with the bytes of JSON and base64url. -/
def storing : Primitives :=
  { tagging with
    base64 := fun ct => String.ofList (Base64.encode ct)
    toVec := fun v => some (v.text.flatMap String.utf8EncodeChar) }

theorem storing_isAead : storing.IsAead where
  decrypt_encrypt {key nonce aad text ct} (h : tagging.encrypt key nonce aad text = some ct) :=
    tagging_isAead.decrypt_encrypt h
  encrypt_isSome := tagging_isAead.encrypt_isSome
  length_encrypt {key nonce aad text ct} (h : tagging.encrypt key nonce aad text = some ct) :=
    tagging_isAead.length_encrypt h

theorem storing_writesLengths : WritesLengths storing where
  length_toVec v := by
    refine ⟨_, rfl, ?_⟩
    induction v.text with
    | nil => rfl
    | cons c cs ih =>
      rw [List.flatMap_cons, List.length_append, ih, String.length_utf8EncodeChar, Json.bytes_cons]
  length_base64 ct := by
    change (String.ofList (Base64.encode ct)).length = _
    rw [String.length_ofList, Base64.length_encode]

def exampleKeys : Keyrings.DesktopKeyring where
  account := some ⟨List.replicate 32 0, rfl⟩
  vaults _ := none
  projects _ := none
  environments _ := some ⟨List.replicate 32 1, rfl⟩

def exampleNonce : Nonce := ⟨List.replicate 24 0, rfl⟩

def exampleId : Crypto.Uuid := ⟨List.replicate 16 7, rfl⟩

/-- A note of ASCII, and a note as long of which every character is three bytes. -/
def shortNote : SecretMeta := ⟨"Stripe", "STRIPE_KEY", some 1, ["billing"], some "Rotate yearly."⟩

def longNote : SecretMeta :=
  ⟨"Stripe", "STRIPE_KEY", none, [], some (String.ofList (List.replicate 4000 '€'))⟩

theorem accepted_stored_example :
    MetaStored storing ⟨List.replicate 32 1, rfl⟩
        (ProjectMeta.toJson ⟨"Payments API", "payments-api", none, none⟩) [] "" exampleNonce ∧
      MetaStored storing ⟨List.replicate 32 1, rfl⟩ (shortNote.toJson fun _ => exampleId) [] ""
        exampleNonce ∧
      ∃ blob, exampleKeys.sealSecretValue storing exampleId.hyphenated exampleId.hyphenated
        exampleId.hyphenated "sk_live" exampleNonce = some blob ∧
          blob.ct.length ≤ maxValueCtChars := by
  have h := accepted_stored storing_isAead storing_writesLengths fun _ => exampleId
  exact ⟨h.1 _ (by decide) _ _ _ _, (h.2.2.2.1 shortNote (by decide) _ _ _ _).mpr (by decide),
    (h.2.2.2.2 exampleKeys exampleId exampleId exampleId _ _ rfl rfl "sk_live" (by decide) _).mpr
      (by decide)⟩

/-- The note and a value of `64 KiB` are accepted and not stored. -/
theorem accepted_unstored :
    (longNote.IsValid ∧ ¬ MetaStored storing ⟨List.replicate 32 1, rfl⟩
      (longNote.toJson fun _ => exampleId) [] "" exampleNonce) ∧
    IsSecretValue (String.ofList (List.replicate 65536 'M')) ∧
      ¬ ∃ blob, exampleKeys.sealSecretValue storing exampleId.hyphenated exampleId.hyphenated
        exampleId.hyphenated (String.ofList (List.replicate 65536 'M')) exampleNonce = some blob ∧
          blob.ct.length ≤ maxValueCtChars := by
  have hnote : bytes (quote (String.ofList (List.replicate 4000 '€'))) = 12002 := by
    have hsize : '€'.utf8Size = 3 := by decide
    rw [Json.bytes_quote_replicate (by decide), hsize]
  have hvalue : bytes (quote (String.ofList (List.replicate 65536 'M'))) = 65538 := by
    have hsize : 'M'.utf8Size = 1 := by decide
    rw [Json.bytes_quote_replicate (by decide), hsize]
  have hvalid : longNote.IsValid := by
    refine ⟨by decide, by decide, by decide, fun n hn => ?_⟩
    obtain rfl := Option.some_inj.mp hn
    exact ⟨Nat.zero_le _, (length_replicate '€' 4000).le⟩
  refine ⟨⟨hvalid, ?_⟩, ⟨Nat.zero_le _, (length_replicate 'M' 65536).le⟩, ?_⟩
  · rw [metaStored_iff storing_isAead storing_writesLengths rfl, longNote.bytes_toJson]
    have hrest : ∀ note : String, SecretMeta.jsonBytes ⟨"Stripe", "STRIPE_KEY", none, [], some note⟩ =
        36 + bytes (quote "Stripe") + bytes (quote "STRIPE_KEY") + idBytes none + listBytes [] +
          (8 + bytes (quote note)) := fun _ => rfl
    have hnames : bytes (quote "Stripe") + bytes (quote "STRIPE_KEY") = 20 := by decide
    have hmax : maxMetaBytes = 12028 := rfl
    rw [longNote, hrest, hnote]
    omega
  · rw [sealSecretValue_iff storing_isAead storing_writesLengths rfl rfl, hvalue]
    decide

end Stored

end Zvault.ProjectSync
