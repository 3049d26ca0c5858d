import Zvault.Bytes.Labels
import Zvault.Crypto.Uuid

/-!
# What a ciphertext is bound to

Every kind of ciphertext has its own associated data, and some are sealed with a
key of their own that is derived with an info label. Together they determine the
kind, the ids and the key version.
-/

namespace Zvault.Crypto

open Bytes (utf8 utf8_append utf8_inj PrefixFree)

def vaultKeyAad (vaultId : String) : List UInt8 := utf8 ("zvault/v1/vault-key|" ++ vaultId)

def vaultMetaAad (vaultId : String) : List UInt8 := utf8 ("zvault/v1/vault-meta|" ++ vaultId)

def itemKeyAad (vaultId itemId : String) : List UInt8 :=
  utf8 ("zvault/v1/item-key|" ++ vaultId ++ "|" ++ itemId)

def itemDataAad (vaultId itemId : String) : List UInt8 :=
  utf8 ("zvault/v1/item-data|" ++ vaultId ++ "|" ++ itemId)

def projectKeyAad (projectId : String) : List UInt8 := utf8 ("zvault/v1/project-key|" ++ projectId)

def projectMetaAad (projectId : String) : List UInt8 :=
  utf8 ("zvault/v1/project-meta|" ++ projectId)

def environmentKeyAad (projectId environmentId : String) : List UInt8 :=
  utf8 ("zvault/v1/environment-key|" ++ projectId ++ "|" ++ environmentId)

def environmentMetaAad (projectId environmentId : String) : List UInt8 :=
  utf8 ("zvault/v1/environment-meta|" ++ projectId ++ "|" ++ environmentId)

def folderMetaAad (projectId folderId : String) : List UInt8 :=
  utf8 ("zvault/v1/folder-meta|" ++ projectId ++ "|" ++ folderId)

def secretMetaAad (projectId secretId : String) : List UInt8 :=
  utf8 ("zvault/v1/secret-meta|" ++ projectId ++ "|" ++ secretId)

def secretValueAad (projectId secretId environmentId : String) : List UInt8 :=
  utf8 ("zvault/v1/secret-value|" ++ projectId ++ "|" ++ secretId ++ "|" ++ environmentId)

/-- `environment_key_wrap_aad`: the key version is bound too. -/
def environmentKeyWrapAad (projectId environmentId : String) (keyVersion : ℕ) : List UInt8 :=
  environmentKeyAad projectId environmentId ++ utf8 ("|v" ++ keyVersion.repr)

def projectKeyWrapAad (projectId : String) : List UInt8 := projectKeyAad projectId

/-- `project_aad` of a token. -/
def tokenProjectAad (token : Uuid) (projectId : String) : List UInt8 :=
  utf8 ("zvault/v1/agent-token|" ++ token.hyphenated ++ "|") ++ projectKeyAad projectId

/-- `environment_aad` of a token. -/
def tokenEnvironmentAad (token : Uuid) (projectId environmentId : String) (version : ℕ) :
    List UInt8 :=
  utf8 ("zvault/v1/agent-token|" ++ token.hyphenated ++ "|") ++
    environmentKeyAad projectId environmentId ++ utf8 ("|v" ++ version.repr)

/-- A prefix and the 16 bytes of an id: of a share, or of an access request. -/
def idAad (pre : String) (id : Uuid) : List UInt8 := utf8 pre ++ id.bytes

/-- `box_aad` of a pairing. -/
def pairingAad (pairingId : String) : Option (List UInt8) :=
  (uuidBytes pairingId).map (utf8 "zvault/v1/pairing-box:" ++ ·)

section AccountAad

variable (normalizeAccountId : String → String) (accountId : String)

def keysetAad : List UInt8 := utf8 ("zvault/v1/keyset/" ++ normalizeAccountId accountId)

def recoveryAad : List UInt8 := utf8 ("zvault/v1/recovery-keyset/" ++ normalizeAccountId accountId)

/-- The info of the wrap key of a recovery code. -/
def recoveryWrapInfo : List UInt8 :=
  utf8 ("zvault/v1/recovery/" ++ "wrap" ++ "/" ++ normalizeAccountId accountId)

end AccountAad

/-- What a ciphertext is: its kind, with the ids and the key version it is bound to. -/
inductive Context where
  | vaultKey (vaultId : Uuid)
  | vaultMeta (vaultId : Uuid)
  | itemKey (vaultId itemId : Uuid)
  | itemData (vaultId itemId : Uuid)
  /-- Wrapped with the account key. -/
  | projectKey (projectId : Uuid)
  | projectMeta (projectId : Uuid)
  | environmentKey (projectId environmentId : Uuid)
  | environmentMeta (projectId environmentId : Uuid)
  | folderMeta (projectId folderId : Uuid)
  | secretMeta (projectId secretId : Uuid)
  | secretValue (projectId secretId environmentId : Uuid)
  /-- Wrapped to a member. -/
  | memberProjectKey (projectId : Uuid)
  | memberEnvironmentKey (projectId environmentId : Uuid) (keyVersion : ℕ)
  | accessRelease (requestId : Uuid)
  | tokenProjectKey (token projectId : Uuid)
  | tokenEnvironmentKey (token projectId environmentId : Uuid) (keyVersion : ℕ)
  | keyset (accountId : String)
  | recoveryKeyset (accountId : String)
  | shareLink (shareId : Uuid)
  | shareBox (shareId : Uuid)
  | pairingGrant (pairingId : Uuid)
  deriving DecidableEq, Repr

namespace Context

variable (normalizeAccountId : String → String)

/-- The info that the sealing key is derived with; none for a key that is used as it is. -/
def info : Context → List UInt8
  | .memberProjectKey _ | .memberEnvironmentKey .. => utf8 "zvault/v1/member-key-wrap"
  | .accessRelease _ => utf8 "zvault/v1/access-release"
  | .tokenProjectKey .. | .tokenEnvironmentKey .. => utf8 "zvault/v1/agent-token/wrap"
  | .keyset _ => utf8 "zvault/v1/unlock-key"
  | .recoveryKeyset accountId => recoveryWrapInfo normalizeAccountId accountId
  | .shareLink _ => utf8 "zvault/v1/share-link/enc"
  | .shareBox _ => utf8 "zvault/v1/share-box"
  | .pairingGrant _ => utf8 "zvault/v1/pairing-box"
  | _ => []

/-- The associated data. -/
def aad : Context → Option (List UInt8)
  | .vaultKey v => some (vaultKeyAad v.hyphenated)
  | .vaultMeta v => some (vaultMetaAad v.hyphenated)
  | .itemKey v i => some (itemKeyAad v.hyphenated i.hyphenated)
  | .itemData v i => some (itemDataAad v.hyphenated i.hyphenated)
  | .projectKey p => some (projectKeyAad p.hyphenated)
  | .projectMeta p => some (projectMetaAad p.hyphenated)
  | .environmentKey p e => some (environmentKeyAad p.hyphenated e.hyphenated)
  | .environmentMeta p e => some (environmentMetaAad p.hyphenated e.hyphenated)
  | .folderMeta p f => some (folderMetaAad p.hyphenated f.hyphenated)
  | .secretMeta p s => some (secretMetaAad p.hyphenated s.hyphenated)
  | .secretValue p s e => some (secretValueAad p.hyphenated s.hyphenated e.hyphenated)
  | .memberProjectKey p => some (projectKeyWrapAad p.hyphenated)
  | .memberEnvironmentKey p e v => some (environmentKeyWrapAad p.hyphenated e.hyphenated v)
  | .accessRelease r => some (idAad "zvault/v1/access-release:" r)
  | .tokenProjectKey t p => some (tokenProjectAad t p.hyphenated)
  | .tokenEnvironmentKey t p e v => some (tokenEnvironmentAad t p.hyphenated e.hyphenated v)
  | .keyset accountId => some (keysetAad normalizeAccountId accountId)
  | .recoveryKeyset accountId => some (recoveryAad normalizeAccountId accountId)
  | .shareLink s => some (idAad "zvault/v1/share-link:" s)
  | .shareBox s => some (idAad "zvault/v1/share-box:" s)
  | .pairingGrant p => pairingAad p.hyphenated

/-- The info and the associated data that are built. -/
def built (c : Context) : Option (List UInt8 × List UInt8) :=
  (c.aad normalizeAccountId).map (c.info normalizeAccountId, ·)

/-- The same context, with the account named in its canonical form. -/
def canonical : Context → Context
  | .keyset accountId => .keyset (normalizeAccountId accountId)
  | .recoveryKeyset accountId => .recoveryKeyset (normalizeAccountId accountId)
  | c => c

/-- What the associated data begins with. -/
inductive Label where
  | vaultKey
  | vaultMeta
  | itemKey
  | itemData
  | projectKey
  | projectMeta
  | environmentKey
  | environmentMeta
  | folderMeta
  | secretMeta
  | secretValue
  | accessRelease
  | token
  | keyset
  | recoveryKeyset
  | shareLink
  | shareBox
  | pairingBox
  deriving DecidableEq

def Label.text : Label → String
  | .vaultKey => "zvault/v1/vault-key|"
  | .vaultMeta => "zvault/v1/vault-meta|"
  | .itemKey => "zvault/v1/item-key|"
  | .itemData => "zvault/v1/item-data|"
  | .projectKey => "zvault/v1/project-key|"
  | .projectMeta => "zvault/v1/project-meta|"
  | .environmentKey => "zvault/v1/environment-key|"
  | .environmentMeta => "zvault/v1/environment-meta|"
  | .folderMeta => "zvault/v1/folder-meta|"
  | .secretMeta => "zvault/v1/secret-meta|"
  | .secretValue => "zvault/v1/secret-value|"
  | .accessRelease => "zvault/v1/access-release:"
  | .token => "zvault/v1/agent-token|"
  | .keyset => "zvault/v1/keyset/"
  | .recoveryKeyset => "zvault/v1/recovery-keyset/"
  | .shareLink => "zvault/v1/share-link:"
  | .shareBox => "zvault/v1/share-box:"
  | .pairingBox => "zvault/v1/pairing-box:"

def Label.all : List Label :=
  [.vaultKey, .vaultMeta, .itemKey, .itemData, .projectKey, .projectMeta, .environmentKey,
    .environmentMeta, .folderMeta, .secretMeta, .secretValue, .accessRelease, .token, .keyset,
    .recoveryKeyset, .shareLink, .shareBox, .pairingBox]

theorem Label.mem_all (label : Label) : label ∈ all := by
  cases label <;> decide

theorem prefixFree_label : PrefixFree fun label : Label => utf8 label.text := by
  have hall : ∀ i ∈ Label.all, ∀ j ∈ Label.all, utf8 i.text <+: utf8 j.text → i = j := by
    decide +kernel
  exact fun i j => hall i i.mem_all j j.mem_all

/-- What follows the label. -/
def parts : Context → Label × List UInt8
  | .vaultKey v => (.vaultKey, utf8 v.hyphenated)
  | .vaultMeta v => (.vaultMeta, utf8 v.hyphenated)
  | .itemKey v i => (.itemKey, utf8 (v.hyphenated ++ ("|" ++ i.hyphenated)))
  | .itemData v i => (.itemData, utf8 (v.hyphenated ++ ("|" ++ i.hyphenated)))
  | .projectKey p | .memberProjectKey p => (.projectKey, utf8 p.hyphenated)
  | .projectMeta p => (.projectMeta, utf8 p.hyphenated)
  | .environmentKey p e => (.environmentKey, utf8 (p.hyphenated ++ ("|" ++ e.hyphenated)))
  | .environmentMeta p e => (.environmentMeta, utf8 (p.hyphenated ++ ("|" ++ e.hyphenated)))
  | .folderMeta p f => (.folderMeta, utf8 (p.hyphenated ++ ("|" ++ f.hyphenated)))
  | .secretMeta p s => (.secretMeta, utf8 (p.hyphenated ++ ("|" ++ s.hyphenated)))
  | .secretValue p s e =>
    (.secretValue, utf8 (p.hyphenated ++ ("|" ++ (s.hyphenated ++ ("|" ++ e.hyphenated)))))
  | .memberEnvironmentKey p e v =>
    (.environmentKey, utf8 (p.hyphenated ++ ("|" ++ (e.hyphenated ++ ("|v" ++ v.repr)))))
  | .accessRelease r => (.accessRelease, r.bytes)
  | .tokenProjectKey t p =>
    (.token, utf8 (t.hyphenated ++ ("|" ++ ("zvault/v1/project-key|" ++ p.hyphenated))))
  | .tokenEnvironmentKey t p e v =>
    (.token, utf8 (t.hyphenated ++ ("|" ++ ("zvault/v1/environment-key|" ++
      (p.hyphenated ++ ("|" ++ (e.hyphenated ++ ("|v" ++ v.repr))))))))
  | .keyset accountId => (.keyset, utf8 (normalizeAccountId accountId))
  | .recoveryKeyset accountId => (.recoveryKeyset, utf8 (normalizeAccountId accountId))
  | .shareLink s => (.shareLink, s.bytes)
  | .shareBox s => (.shareBox, s.bytes)
  | .pairingGrant p => (.pairingBox, p.bytes)

/-- The associated data is the label and what follows. -/
theorem aad_eq_parts (c : Context) : c.aad normalizeAccountId =
    some (utf8 (c.parts normalizeAccountId).1.text ++ (c.parts normalizeAccountId).2) := by
  cases c with
  | accessRelease | shareLink | shareBox => rfl
  | pairingGrant p =>
    simp only [aad, pairingAad, uuidBytes_hyphenated, Option.map_some]
    rfl
  | _ =>
    simp only [aad, parts, Label.text, vaultKeyAad, vaultMetaAad, itemKeyAad, itemDataAad,
      projectKeyAad, projectMetaAad, environmentKeyAad, environmentMetaAad, folderMetaAad,
      secretMetaAad, secretValueAad, projectKeyWrapAad, environmentKeyWrapAad, tokenProjectAad,
      tokenEnvironmentAad, keysetAad, recoveryAad, ← utf8_append, String.append_assoc]

/-- Contexts with equal associated data begin with one label, and go on alike. -/
theorem parts_eq_of_aad_eq {normalizeAccountId : String → String} {c d : Context}
    (h : c.aad normalizeAccountId = d.aad normalizeAccountId) :
    c.parts normalizeAccountId = d.parts normalizeAccountId := by
  rw [aad_eq_parts, aad_eq_parts] at h
  obtain ⟨hlabel, hrest⟩ := prefixFree_label.append_inj (Option.some_inj.mp h)
  exact Prod.ext hlabel hrest

end Context

section Texts

variable {a b : Uuid} {x y : String}

theorem Uuid.append_inj (h : a.hyphenated ++ x = b.hyphenated ++ y) : a = b ∧ x = y := by
  have hlist := congrArg String.toList h
  rw [String.toList_append, String.toList_append] at hlist
  obtain ⟨hab, hxy⟩ := List.append_inj hlist (by rw [a.length_hyphenated, b.length_hyphenated])
  exact ⟨hyphenated_inj (String.toList_inj.mp hab), String.toList_inj.mp hxy⟩

theorem append_cancel_left {s : String} (h : s ++ x = s ++ y) : x = y := by
  have hlist := congrArg String.toList h
  rw [String.toList_append, String.toList_append] at hlist
  exact String.toList_inj.mp (List.append_cancel_left hlist)

/-- Two ids, one after the other. -/
theorem Uuid.pair_inj {a' b' : Uuid} {s : String}
    (h : a.hyphenated ++ (s ++ b.hyphenated) = a'.hyphenated ++ (s ++ b'.hyphenated)) :
    a = a' ∧ b = b' := by
  obtain ⟨rfl, hrest⟩ := append_inj h
  exact ⟨rfl, hyphenated_inj (append_cancel_left hrest)⟩

theorem eq_of_repr_eq {m n : ℕ} (h : m.repr = n.repr) : m = n := by
  have hdigits := congrArg (fun s => Nat.ofDigitChars 10 s.toList 0) h
  simpa only [Nat.toList_repr, Nat.ofDigitChars_ten_toDigits] using hdigits

theorem Uuid.pair_version_inj {a' b' : Uuid} {s s' : String} {v v' : ℕ}
    (h : a.hyphenated ++ (s ++ (b.hyphenated ++ (s' ++ v.repr))) =
      a'.hyphenated ++ (s ++ (b'.hyphenated ++ (s' ++ v'.repr)))) : a = a' ∧ b = b' ∧ v = v' := by
  obtain ⟨rfl, hrest⟩ := append_inj h
  obtain ⟨rfl, hversion⟩ := append_inj (append_cancel_left hrest)
  exact ⟨rfl, rfl, eq_of_repr_eq (append_cancel_left hversion)⟩

theorem projectKey_ne_environmentKey :
    "zvault/v1/project-key|" ++ x ≠ "zvault/v1/environment-key|" ++ y := by
  intro h
  have hbytes : utf8 (Context.Label.projectKey.text) ++ utf8 x =
      utf8 (Context.Label.environmentKey.text) ++ utf8 y := by
    rw [← utf8_append, ← utf8_append]
    exact congrArg utf8 h
  cases (Context.prefixFree_label.append_inj hbytes).1

end Texts

theorem Context.built_canonical (normalizeAccountId : String → String) (c : Context) :
    c.built normalizeAccountId = (c.canonical normalizeAccountId).built id := by
  cases c <;> rfl

theorem memberInfo_ne_nil : utf8 "zvault/v1/member-key-wrap" ≠ [] := by
  decide +kernel

/-- Contexts with equal info that begin with one label and go on alike are the same. -/
theorem Context.canonical_eq_of_parts_eq {normalizeAccountId : String → String} {c d : Context}
    (hinfo : c.info normalizeAccountId = d.info normalizeAccountId)
    (hparts : c.parts normalizeAccountId = d.parts normalizeAccountId) :
    c.canonical normalizeAccountId = d.canonical normalizeAccountId := by
  cases c with
  | vaultKey v =>
    cases d with
    | vaultKey v' =>
      obtain rfl := Uuid.hyphenated_inj (utf8_inj.mp (Prod.mk.inj hparts).2)
      rfl
    | _ => cases (Prod.mk.inj hparts).1
  | vaultMeta v =>
    cases d with
    | vaultMeta v' =>
      obtain rfl := Uuid.hyphenated_inj (utf8_inj.mp (Prod.mk.inj hparts).2)
      rfl
    | _ => cases (Prod.mk.inj hparts).1
  | itemKey a b =>
    cases d with
    | itemKey a' b' =>
      obtain ⟨rfl, rfl⟩ := Uuid.pair_inj (utf8_inj.mp (Prod.mk.inj hparts).2)
      rfl
    | _ => cases (Prod.mk.inj hparts).1
  | itemData a b =>
    cases d with
    | itemData a' b' =>
      obtain ⟨rfl, rfl⟩ := Uuid.pair_inj (utf8_inj.mp (Prod.mk.inj hparts).2)
      rfl
    | _ => cases (Prod.mk.inj hparts).1
  | projectKey v =>
    cases d with
    | projectKey v' =>
      obtain rfl := Uuid.hyphenated_inj (utf8_inj.mp (Prod.mk.inj hparts).2)
      rfl
    | memberProjectKey => exact absurd hinfo.symm memberInfo_ne_nil
    | _ => cases (Prod.mk.inj hparts).1
  | projectMeta v =>
    cases d with
    | projectMeta v' =>
      obtain rfl := Uuid.hyphenated_inj (utf8_inj.mp (Prod.mk.inj hparts).2)
      rfl
    | _ => cases (Prod.mk.inj hparts).1
  | environmentKey a b =>
    cases d with
    | environmentKey a' b' =>
      obtain ⟨rfl, rfl⟩ := Uuid.pair_inj (utf8_inj.mp (Prod.mk.inj hparts).2)
      rfl
    | memberEnvironmentKey => exact absurd hinfo.symm memberInfo_ne_nil
    | _ => cases (Prod.mk.inj hparts).1
  | environmentMeta a b =>
    cases d with
    | environmentMeta a' b' =>
      obtain ⟨rfl, rfl⟩ := Uuid.pair_inj (utf8_inj.mp (Prod.mk.inj hparts).2)
      rfl
    | _ => cases (Prod.mk.inj hparts).1
  | folderMeta a b =>
    cases d with
    | folderMeta a' b' =>
      obtain ⟨rfl, rfl⟩ := Uuid.pair_inj (utf8_inj.mp (Prod.mk.inj hparts).2)
      rfl
    | _ => cases (Prod.mk.inj hparts).1
  | secretMeta a b =>
    cases d with
    | secretMeta a' b' =>
      obtain ⟨rfl, rfl⟩ := Uuid.pair_inj (utf8_inj.mp (Prod.mk.inj hparts).2)
      rfl
    | _ => cases (Prod.mk.inj hparts).1
  | secretValue p s e =>
    cases d with
    | secretValue p' s' e' =>
      obtain ⟨rfl, hrest⟩ := Uuid.append_inj (utf8_inj.mp (Prod.mk.inj hparts).2)
      obtain ⟨rfl, rfl⟩ := Uuid.pair_inj (append_cancel_left hrest)
      rfl
    | _ => cases (Prod.mk.inj hparts).1
  | memberProjectKey v =>
    cases d with
    | memberProjectKey v' =>
      obtain rfl := Uuid.hyphenated_inj (utf8_inj.mp (Prod.mk.inj hparts).2)
      rfl
    | projectKey => exact absurd hinfo memberInfo_ne_nil
    | _ => cases (Prod.mk.inj hparts).1
  | memberEnvironmentKey p e v =>
    cases d with
    | memberEnvironmentKey p' e' v' =>
      obtain ⟨rfl, rfl, rfl⟩ := Uuid.pair_version_inj (utf8_inj.mp (Prod.mk.inj hparts).2)
      rfl
    | environmentKey => exact absurd hinfo memberInfo_ne_nil
    | _ => cases (Prod.mk.inj hparts).1
  | accessRelease v =>
    cases d with
    | accessRelease v' =>
      obtain rfl := Uuid.eq_of_bytes_eq (Prod.mk.inj hparts).2
      rfl
    | _ => cases (Prod.mk.inj hparts).1
  | tokenProjectKey t p =>
    cases d with
    | tokenProjectKey t' p' =>
      obtain ⟨rfl, hrest⟩ := Uuid.append_inj (utf8_inj.mp (Prod.mk.inj hparts).2)
      obtain rfl := Uuid.hyphenated_inj (append_cancel_left (append_cancel_left hrest))
      rfl
    | tokenEnvironmentKey t' p' e' v' =>
      obtain ⟨-, hrest⟩ := Uuid.append_inj (utf8_inj.mp (Prod.mk.inj hparts).2)
      exact absurd (append_cancel_left hrest) projectKey_ne_environmentKey
    | _ => cases (Prod.mk.inj hparts).1
  | tokenEnvironmentKey t p e v =>
    cases d with
    | tokenEnvironmentKey t' p' e' v' =>
      obtain ⟨rfl, hrest⟩ := Uuid.append_inj (utf8_inj.mp (Prod.mk.inj hparts).2)
      obtain ⟨rfl, rfl, rfl⟩ :=
        Uuid.pair_version_inj (append_cancel_left (append_cancel_left hrest))
      rfl
    | tokenProjectKey t' p' =>
      obtain ⟨-, hrest⟩ := Uuid.append_inj (utf8_inj.mp (Prod.mk.inj hparts).2)
      exact absurd (append_cancel_left hrest).symm projectKey_ne_environmentKey
    | _ => cases (Prod.mk.inj hparts).1
  | keyset account =>
    cases d with
    | keyset account' => exact congrArg keyset (utf8_inj.mp (Prod.mk.inj hparts).2)
    | _ => cases (Prod.mk.inj hparts).1
  | recoveryKeyset account =>
    cases d with
    | recoveryKeyset account' => exact congrArg recoveryKeyset (utf8_inj.mp (Prod.mk.inj hparts).2)
    | _ => cases (Prod.mk.inj hparts).1
  | shareLink v =>
    cases d with
    | shareLink v' =>
      obtain rfl := Uuid.eq_of_bytes_eq (Prod.mk.inj hparts).2
      rfl
    | _ => cases (Prod.mk.inj hparts).1
  | shareBox v =>
    cases d with
    | shareBox v' =>
      obtain rfl := Uuid.eq_of_bytes_eq (Prod.mk.inj hparts).2
      rfl
    | _ => cases (Prod.mk.inj hparts).1
  | pairingGrant v =>
    cases d with
    | pairingGrant v' =>
      obtain rfl := Uuid.eq_of_bytes_eq (Prod.mk.inj hparts).2
      rfl
    | _ => cases (Prod.mk.inj hparts).1

/-- The info and the associated data of two contexts are the same bytes just when the contexts are of
one kind, with the same ids and the same version. -/
theorem built_eq_iff_canonical_eq (normalizeAccountId : String → String) (c d : Context) :
    c.built normalizeAccountId = d.built normalizeAccountId ↔
      c.canonical normalizeAccountId = d.canonical normalizeAccountId := by
  constructor
  · intro h
    have hc := c.aad_eq_parts normalizeAccountId
    have hd := d.aad_eq_parts normalizeAccountId
    rw [Context.built, Context.built, hc, hd, Option.map_some, Option.map_some,
      Option.some_inj] at h
    obtain ⟨hinfo, haad⟩ := Prod.mk.inj h
    have hparts : c.parts normalizeAccountId = d.parts normalizeAccountId :=
      Context.parts_eq_of_aad_eq (by rw [hc, hd, haad])
    exact Context.canonical_eq_of_parts_eq hinfo hparts
  · intro h
    rw [c.built_canonical, d.built_canonical, h]

end Zvault.Crypto
