import Zvault.Db.Schema
import Zvault.Fallible.Steps

/-!
# What `zv` reads with a token

`Snapshot` of `crates/zvault-cli/src/cloud.rs`: the entries that a token's server
answered with, opened with the keys that the token carries. Decryption is left
open.
-/

namespace Zvault.Cli

/-- `CloudError`, of what opening and reading a snapshot can end in. -/
inductive CloudError where
  | rejected (reason : String)
  | outOfScope (text : String)
  | unexpected (what : String)
  | decrypt
  deriving DecidableEq, Repr

/-- What a ciphertext is bound to. -/
inductive Aad where
  | projectMeta (projectId : Uuid)
  | environmentMeta (projectId environmentId : Uuid)
  | folderMeta (projectId folderId : Uuid)
  | secretMeta (projectId secretId : Uuid)
  | secretValue (projectId secretId environmentId : Uuid)
  deriving DecidableEq, Repr

/-- The metadata of an entry of a project is bound to its type and both ids. -/
def metaAad (projectId : Uuid) : EntryType → Uuid → Aad
  | .environment, id => .environmentMeta projectId id
  | .folder, id => .folderMeta projectId id
  | .secret, id => .secretMeta projectId id

/-- `Sealed`. -/
structure Sealed where
  nonce : ℕ
  ct : ℕ
  deriving DecidableEq, Repr

/-- A decrypted JSON value: the members that `zv` reads of it, where they are strings. -/
structure Plain where
  slug : Option String
  key : Option String
  folderId : Option Uuid
  value : Option String
  deriving DecidableEq, Repr

/-- The keys of an `AgentToken`: what it unwraps, and what an unwrapped key opens. -/
structure AgentToken (W K : Type) where
  unwrapProjectKey (projectId : Uuid) : W → Option K
  unwrapEnvironmentKey (projectId environmentId : Uuid) (keyVersion : ℕ) : W → Option K
  openPadded : K → Sealed → Aad → Option Plain

/-- `Entry`. -/
structure Entry where
  id : Uuid
  kind : EntryType
  deleted : Bool
  encryptedMeta : Option EncryptedBlob
  values : List (Uuid × EncryptedBlob)
  deriving DecidableEq, Repr

/-- `SessionEnvironment`. -/
structure SessionEnvironment (W : Type) where
  environmentId : Uuid
  keyVersion : ℕ
  encryptedKey : W

/-- `Session`. -/
structure Session (W : Type) where
  tokenName : String
  expiresAt : String
  projectId : Uuid
  encryptedMeta : EncryptedBlob
  encryptedKey : W
  environments : List (SessionEnvironment W)

/-- `Secret`: one secret the token can read, with its value in each of its environments. -/
structure Secret where
  folder : Option String
  key : String
  values : Uuid → Option Sealed
  id : Uuid

/-- An environment of a snapshot. -/
structure OpenedEnvironment (K : Type) where
  id : Uuid
  slug : String
  key : K

/-- `Snapshot`: what a token opens, decrypted except for the values. -/
structure Snapshot (K : Type) where
  tokenName : String
  expiresAt : String
  projectId : Uuid
  projectSlug : String
  /-- The token's environments, nearest first. -/
  environments : List (OpenedEnvironment K)
  secrets : List Secret

variable {W K : Type}

/-- `Blob::sealed`: a ciphertext under the key id that is expected. -/
def sealedBy (b : EncryptedBlob) (kid : Uuid) : Except CloudError Sealed :=
  if b.kid = .record kid then .ok ⟨b.nonce, b.ct⟩ else .error .decrypt

/-- `slug_of`. -/
def slugOf (m : Plain) : Except CloudError String :=
  match m.slug with
  | some slug => .ok slug
  | none => .error .decrypt

/-- The value that a later entry of a map takes the place of an earlier one in. -/
def lastOf {V : Type} (entries : List (Uuid × V)) (id : Uuid) : Option V := entries.reverse.lookup id

section Open

variable (token : AgentToken W K)

/-- `open_json`. -/
def openJson (key : K) (b : EncryptedBlob) (kid : Uuid) (aad : Aad) : Except CloudError Plain := do
  let sealed' ← sealedBy b kid
  match token.openPadded key sealed' aad with
  | some plain => .ok plain
  | none => .error .decrypt

/-- `meta_of`: the metadata of the first entry of its type and id. -/
def metaOf (key : K) (projectId : Uuid) (live : List Entry) (kind : EntryType) (id : Uuid) :
    Except CloudError (Option Plain) :=
  match (live.find? fun e => e.kind = kind ∧ e.id = id).bind (·.encryptedMeta) with
  | none => .ok none
  | some b => (openJson token key b id (metaAad projectId kind id)).map some

/-- One of the token's environments, with its key and its slug. -/
def openEnvironment (key : K) (projectId : Uuid) (live : List Entry) (env : SessionEnvironment W) :
    Except CloudError (OpenedEnvironment K) :=
  match token.unwrapEnvironmentKey projectId env.environmentId env.keyVersion env.encryptedKey with
  | none => .error .decrypt
  | some environmentKey => do
    match ← metaOf token key projectId live .environment env.environmentId with
    | none => .error (.rejected "the token's environment was deleted")
    | some plain => return ⟨env.environmentId, ← slugOf plain, environmentKey⟩

/-- A folder's slug under its id. -/
def openFolder (key : K) (projectId : Uuid) (live : List Entry) (e : Entry) :
    Except CloudError (Option (Uuid × String)) := do
  match ← metaOf token key projectId live .folder e.id with
  | none => return none
  | some plain => return some (e.id, ← slugOf plain)

/-- A secret entry, its name opened. A secret in a folder that no longer exists shows at the top. -/
def openSecret (key : K) (projectId : Uuid) (live : List Entry) (folders : List (Uuid × String))
    (e : Entry) : Except CloudError (Option Secret) := do
  match ← metaOf token key projectId live .secret e.id with
  | none => return none
  | some plain =>
    match plain.key with
    | none => .error .decrypt
    | some name =>
      let values ← e.values.mapM fun v => (sealedBy v.2 v.1).map (v.1, ·)
      return some ⟨plain.folderId.bind (lastOf folders), name, lastOf values, e.id⟩

/-- The entries that are not deleted. -/
def liveOf (entries : List Entry) : List Entry := entries.filter fun e => !e.deleted

/-- The entries of one type among the live ones. -/
def ofKind (kind : EntryType) (live : List Entry) : List Entry := live.filter fun e => e.kind = kind

/-- `Snapshot::open`: unwraps the token's keys and opens every name the token can see. -/
def openSnapshot (session : Session W) (entries : List Entry) : Except CloudError (Snapshot K) :=
  match token.unwrapProjectKey session.projectId session.encryptedKey with
  | none => .error .decrypt
  | some key => do
    let projectId := session.projectId
    let project ← openJson token key session.encryptedMeta projectId (.projectMeta projectId)
    let live := liveOf entries
    let environments ← session.environments.mapM (openEnvironment token key projectId live)
    if environments.isEmpty then .error (.unexpected "a token without environments")
    else
      let folders ← (ofKind .folder live).mapM (openFolder token key projectId live)
      let secrets ← (ofKind .secret live).mapM
        (openSecret token key projectId live folders.reduceOption)
      let slug ← slugOf project
      return ⟨session.tokenName, session.expiresAt, projectId, slug, environments,
        secrets.reduceOption⟩

end Open

namespace Snapshot

variable (snapshot : Snapshot K)

/-- `source`: where a secret's value comes from, the token's environment, else the nearest one it
inherits from. -/
def source (s : Secret) : Option (OpenedEnvironment K × Sealed) :=
  snapshot.environments.findSome? fun env => (s.values env.id).map (env, ·)

/-- `open_value`. -/
def openValue (token : AgentToken W K) (s : Secret) : Except CloudError String :=
  match snapshot.source s with
  | none => .error .decrypt
  | some (env, sealed') =>
    match (token.openPadded env.key sealed' (.secretValue snapshot.projectId s.id env.id)).bind
        (·.value) with
    | none => .error .decrypt
    | some value => .ok value

end Snapshot

/-- What a snapshot was opened from, with the project's key and the folders' slugs. -/
structure Opened (token : AgentToken W K) (session : Session W) (entries : List Entry)
    (key : K) (folders : List (Option (Uuid × String))) (snapshot : Snapshot K) : Prop where
  unwrapped : token.unwrapProjectKey session.projectId session.encryptedKey = some key
  projectId : snapshot.projectId = session.projectId
  ofEnvironments : List.Forall₂
    (fun env out => openEnvironment token key session.projectId (liveOf entries) env = .ok out)
    session.environments snapshot.environments
  ofFolders : List.Forall₂
    (fun e out => openFolder token key session.projectId (liveOf entries) e = .ok out)
    (ofKind .folder (liveOf entries)) folders
  ofSecrets : ∃ opened, snapshot.secrets = opened.reduceOption ∧ List.Forall₂
    (fun e out =>
      openSecret token key session.projectId (liveOf entries) folders.reduceOption e = .ok out)
    (ofKind .secret (liveOf entries)) opened

/-- No entry was listed twice. -/
def Distinct (entries : List Entry) : Prop := (entries.map fun e => (e.kind, e.id)).Nodup

section Spec

variable {token : AgentToken W K} {session : Session W} {entries live : List Entry}
  {snapshot : Snapshot K} {key : K} {projectId id : Uuid}

theorem lastOf_eq_some {V : Type} {l : List (Uuid × V)} (h : (l.map Prod.fst).Nodup) {v : V} :
    lastOf l id = some v ↔ (id, v) ∈ l := by
  rw [lastOf, List.lookup_eq_some_iff]
  constructor
  · rintro ⟨before, after, hl, -⟩
    rw [← List.mem_reverse, hl]
    exact List.mem_append_right _ List.mem_cons_self
  · intro hmem
    obtain ⟨before, after, hl⟩ := List.append_of_mem (List.mem_reverse.mpr hmem)
    refine ⟨before, after, hl, fun x hx => ?_⟩
    rw [← List.nodup_reverse, ← List.map_reverse, hl, List.map_append, List.map_cons,
      List.nodup_append] at h
    have hne := h.2.2 x.1 (List.mem_map_of_mem hx) id List.mem_cons_self
    simpa using hne.symm

theorem openSnapshot_ok (h : openSnapshot token session entries = .ok snapshot) :
    ∃ key folders, Opened token session entries key folders snapshot := by
  unfold openSnapshot at h
  split at h
  · cases h
  rename_i key hkey
  obtain ⟨project, hproject, h⟩ := Fallible.bind_eq_ok.mp h
  obtain ⟨environments, henvironments, h⟩ := Fallible.bind_eq_ok.mp h
  split at h
  · cases h
  obtain ⟨folders, hfolders, h⟩ := Fallible.bind_eq_ok.mp h
  obtain ⟨secrets, hsecrets, h⟩ := Fallible.bind_eq_ok.mp h
  obtain ⟨slug, hslug, h⟩ := Fallible.bind_eq_ok.mp h
  cases h
  exact ⟨key, folders, hkey, rfl, Fallible.mapM_eq_ok.mp henvironments,
    Fallible.mapM_eq_ok.mp hfolders, secrets, rfl, Fallible.mapM_eq_ok.mp hsecrets⟩

/-- An entry that is listed once is found by its type and id. -/
theorem find_eq_self (hdistinct : Distinct live) {e : Entry} (he : e ∈ live) :
    (live.find? fun x => x.kind = e.kind ∧ x.id = e.id) = some e := by
  cases hfind : live.find? fun x => x.kind = e.kind ∧ x.id = e.id with
  | none =>
    have := List.find?_eq_none.mp hfind e he
    simp at this
  | some x =>
    have hx := List.find?_some hfind
    simp only [decide_eq_true_eq] at hx
    have hmem := List.mem_of_find?_eq_some hfind
    rw [List.inj_on_of_nodup_map hdistinct hmem he (Prod.ext hx.1 hx.2)]

theorem metaOf_self (hdistinct : Distinct live) {e : Entry} (he : e ∈ live) {b : EncryptedBlob}
    (hmeta : e.encryptedMeta = some b) : metaOf token key projectId live e.kind e.id =
      (openJson token key b e.id (metaAad projectId e.kind e.id)).map some := by
  rw [metaOf, find_eq_self hdistinct he, Option.bind_some, hmeta]

/-- What a secret of a snapshot was opened from. -/
theorem openSecret_ok {folders : List (Uuid × String)} {e : Entry} {secret : Secret}
    (h : openSecret token key projectId live folders e = .ok (some secret)) :
    ∃ plain values, metaOf token key projectId live .secret e.id = .ok (some plain) ∧
      plain.key = some secret.key ∧ secret.id = e.id ∧
      secret.folder = plain.folderId.bind (lastOf folders) ∧ secret.values = lastOf values ∧
      List.Forall₂ (fun v out => sealedBy v.2 v.1 = .ok out.2 ∧ out.1 = v.1) e.values values := by
  unfold openSecret at h
  obtain ⟨plain, hplain, h⟩ := Fallible.bind_eq_ok.mp h
  split at h
  · cases h
  rename_i plain
  split at h
  · cases h
  rename_i name hname
  obtain ⟨values, hvalues, h⟩ := Fallible.bind_eq_ok.mp h
  cases h
  refine ⟨plain, values, hplain, hname, rfl, rfl, rfl, ?_⟩
  refine (Fallible.mapM_eq_ok.mp hvalues).imp fun v out hout => ?_
  obtain ⟨s, hs, rfl⟩ := Fallible.map_eq_ok.mp hout
  exact ⟨hs, rfl⟩

/-- Where all live entries have metadata, it is found for each of them. -/
theorem exists_metaOf (hmeta : ∀ e ∈ live, e.encryptedMeta.isSome = true) {e : Entry} (he : e ∈ live) :
    ∃ b, metaOf token key projectId live e.kind e.id =
      (openJson token key b e.id (metaAad projectId e.kind e.id)).map some := by
  cases hfind : live.find? fun x => x.kind = e.kind ∧ x.id = e.id with
  | none =>
    have := List.find?_eq_none.mp hfind e he
    simp at this
  | some x =>
    obtain ⟨b, hb⟩ := Option.isSome_iff_exists.mp (hmeta x (List.mem_of_find?_eq_some hfind))
    exact ⟨b, by rw [metaOf, hfind, Option.bind_some, hb]⟩

/-- A live secret entry is opened to a secret. -/
theorem openSecret_isSome {folders : List (Uuid × String)} {e : Entry}
    (hmeta : ∀ e ∈ live, e.encryptedMeta.isSome = true) (he : e ∈ ofKind .secret live)
    {out : Option Secret} (h : openSecret token key projectId live folders e = .ok out) :
    out.map (·.id) = some e.id := by
  obtain ⟨hlive, hkind⟩ := List.mem_filter.mp he
  have hfound : ∃ b, metaOf token key projectId live e.kind e.id =
      (openJson token key b e.id (metaAad projectId e.kind e.id)).map some :=
    exists_metaOf hmeta hlive
  obtain ⟨b, hfound⟩ := hfound
  rw [of_decide_eq_true hkind] at hfound
  cases out with
  | some secret =>
    obtain ⟨-, -, -, -, hid, -⟩ := openSecret_ok h
    rw [Option.map_some, hid]
  | none =>
    unfold openSecret at h
    rw [hfound] at h
    obtain ⟨plain, hplain, h⟩ := Fallible.bind_eq_ok.mp h
    obtain ⟨p, -, rfl⟩ := Fallible.map_eq_ok.mp hplain
    dsimp only at h
    split at h
    · cases h
    · obtain ⟨values, -, h⟩ := Fallible.bind_eq_ok.mp h
      cases h

/-- The secrets of a snapshot are those of the live entries, in their order. -/
theorem Opened.secret_ids {folders : List (Option (Uuid × String))}
    (h : Opened token session entries key folders snapshot)
    (hmeta : ∀ e ∈ liveOf entries, e.encryptedMeta.isSome = true) :
    snapshot.secrets.map (·.id) = (ofKind .secret (liveOf entries)).map (·.id) := by
  obtain ⟨opened, hsecrets, hopened⟩ := h.ofSecrets
  rw [hsecrets]
  refine Fallible.reduceOption_map_eq hopened fun e he out hout => ?_
  exact openSecret_isSome hmeta he hout

theorem Opened.mem_secrets {folders : List (Option (Uuid × String))}
    (h : Opened token session entries key folders snapshot) {secret : Secret}
    (hsecret : secret ∈ snapshot.secrets) : ∃ e ∈ ofKind .secret (liveOf entries),
      openSecret token key session.projectId (liveOf entries) folders.reduceOption e =
        .ok (some secret) := by
  obtain ⟨opened, hsecrets, hopened⟩ := h.ofSecrets
  rw [hsecrets, List.reduceOption_mem_iff] at hsecret
  exact Fallible.exists_left hopened hsecret

/-- The environments of a snapshot are the token's, in their order. -/
theorem Opened.environment_ids {folders : List (Option (Uuid × String))}
    (h : Opened token session entries key folders snapshot) :
    snapshot.environments.map (·.id) = session.environments.map (·.environmentId) := by
  refine Fallible.map_eq_map h.ofEnvironments fun env _ out hout => ?_
  unfold openEnvironment at hout
  split at hout
  · cases hout
  obtain ⟨plain, -, hout⟩ := Fallible.bind_eq_ok.mp hout
  split at hout
  · cases hout
  · obtain ⟨slug, -, hout⟩ := Fallible.bind_eq_ok.mp hout
    cases hout
    rfl

/-- Where a value comes from: the first of the token's environments that has one. -/
theorem Snapshot.source_eq (snapshot : Snapshot K) (s : Secret) :
    (snapshot.source s).map (fun x => (x.1.id, x.2)) =
      ((snapshot.environments.map (·.id)).find? fun id => (s.values id).isSome).bind fun id =>
        (s.values id).map (id, ·) := by
  unfold Snapshot.source
  induction snapshot.environments with
  | nil => rfl
  | cons env rest ih =>
    rw [List.findSome?_cons, List.map_cons, List.find?_cons]
    cases hvalue : s.values env.id with
    | none => exact ih
    | some b => simp [hvalue]

end Spec

end Zvault.Cli
