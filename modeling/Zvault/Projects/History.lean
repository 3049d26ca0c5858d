import Zvault.Projects.Recorded
import Zvault.Versions.Record

/-!
# Earlier versions of a secret

What the requests do to one entry of a project, its values and its versions is what
happens to a record. Only secrets have content that is kept: a version has the values that
the secret had, without those of environments that were deleted or got a new key since.
-/

namespace Zvault

open Relational ProjectsStore EnvironmentsService Versions
open Function (update)

/-- What a secret holds: its metadata, and a value for some environments. -/
@[ext] structure SecretContent where
  encryptedMeta : EncryptedBlob
  value : Uuid → Option EncryptedBlob

namespace SecretContent

/-- The value of one environment is replaced, or goes. -/
def setValue (environmentId : Uuid) (value : Option EncryptedBlob) (c : SecretContent) : SecretContent :=
  { c with value := update c.value environmentId value }

end SecretContent

/-- The stored values of a secret. -/
def valueOf (db : Db) (projectId secretId environmentId : Uuid) : Option EncryptedBlob :=
  (db.secretValues.find (projectId, secretId, environmentId)).map SecretValueRow.encryptedValue

/-- What a live secret and its values hold. -/
def EntryRow.content (db : Db) (e : EntryRow) : Option SecretContent :=
  match e.type, e.deleted, e.encryptedMeta with
  | .secret, false, some encryptedMeta => some ⟨encryptedMeta, valueOf db e.projectId e.id⟩
  | _, _, _ => none

def SecretVersionRow.content (v : SecretVersionRow) : SecretContent :=
  ⟨v.encryptedMeta, fun environmentId => v.values.lookup environmentId⟩

/-- The entry and its versions. -/
def entryRecord (db : Db) (projectId id : Uuid) : Record SecretContent where
  revision := ((db.projectEntries.find (projectId, id)).map EntryRow.revision).getD 0
  content := (db.projectEntries.find (projectId, id)).bind (EntryRow.content db)
  kept k := (db.secretVersions.find (projectId, id, k)).map SecretVersionRow.content

/-- What a write makes of the values that a secret had. -/
def EntryWrite.content (w : EntryWrite) (value : Uuid → Option EncryptedBlob) : Option SecretContent :=
  match w.type, w.encryptedMeta with
  | .secret, some encryptedMeta =>
    some ⟨encryptedMeta, w.values.foldl (fun value v => update value v.1 v.2) value⟩
  | _, _ => none

/-- The write deletes an environment. -/
def EntryWrite.DeletesEnvironment (w : EntryWrite) : Prop :=
  w.type = .environment ∧ w.encryptedMeta = none

instance (w : EntryWrite) : Decidable w.DeletesEnvironment :=
  inferInstanceAs (Decidable (_ ∧ _))

/-- The entry is a tombstone from before. -/
def IsExpired (db : Db) (projectId id : Uuid) (before : Timestamp) : Prop :=
  ∃ e ∈ db.projectEntries.find (projectId, id), e.deleted = true ∧ e.updatedAt < before

instance (db : Db) (projectId id : Uuid) (before : Timestamp) :
    Decidable (IsExpired db projectId id before) :=
  inferInstanceAs (Decidable (∃ e ∈ _, _))

/-- The second statement of `purgeTrash`, with what the first one found. -/
def purgeVersions (db : Db) (projectId : Uuid) (deleted : List Uuid) : Db :=
  { db with
    secretVersions := db.secretVersions.delete fun v =>
      v.projectId = projectId ∧ v.secretId ∈ deleted }

/-- What an accepted write means for an entry. -/
def EntryWrite.events (projectId id : Uuid) (db : Db) (w : EntryWrite) : List (Event SecretContent) :=
  (if (w.projectId, w.id) = (projectId, id) then [.write (w.content (valueOf db projectId id))]
    else []) ++
  if w.projectId = projectId ∧ w.DeletesEnvironment then
    [.amend (SecretContent.setValue w.id none) (SecretContent.setValue w.id none)]
  else []

/-- A step of the server, and what it means for one entry of a project. -/
inductive EntryStep (projectId id : Uuid) : Db → List (Event SecretContent) → Db → Prop
  | accepted {db db' : Db} {w : EntryWrite} {entry : ProjectEntry}
      (h : writeEntry db w = (.ok entry, db')) :
      EntryStep projectId id db (w.events projectId id db) db'
  | refused {db : Db} {w : EntryWrite} (h : ∀ entry, (writeEntry db w).1 ≠ .ok entry) :
      EntryStep projectId id db [] (writeEntry db w).2
  /-- An environment gets a new key. -/
  | rotate {db db' : Db} {env : Env} {accountId : Uuid} {req : RotateEnvironmentKeyRequest}
      {now : Timestamp} (h : rotateTx db env accountId req now = (.ok (), db')) :
      EntryStep projectId id db
        (if env.projectId = projectId then
          [.amend (SecretContent.setValue env.environmentId
              (valueOf db' projectId id env.environmentId))
            (SecretContent.setValue env.environmentId none)]
        else []) db'
  /-- What is purged was looked for earlier. -/
  | purge (db : Db) (projectId' : Uuid) (deleted : List Uuid) :
      EntryStep projectId id db
        (if projectId' = projectId ∧ id ∈ deleted then [.purge] else [])
        (purgeVersions db projectId' deleted)
  | purgeExpired (db : Db) (before : Timestamp) :
      EntryStep projectId id db
        (if IsExpired db projectId id before then [.purge] else []) (purgeExpired db before)
  | create {db db' : Db} {p : NewProject} (hid : p.id ≠ projectId)
      (h : createProject db p = some db') : EntryStep projectId id db [] db'
  | deleteProject (db : Db) {projectId' : Uuid} (hid : projectId' ≠ projectId) :
      EntryStep projectId id db [] (deleteProject db projectId')
  /-- Everything else leaves entries, values and versions alone. -/
  | other {db db' : Db} (hentries : db'.projectEntries = db.projectEntries)
      (hvalues : db'.secretValues = db.secretValues)
      (hversions : db'.secretVersions = db.secretVersions) : EntryStep projectId id db [] db'

/-- A run of the server, and what it means for one entry. -/
inductive EntryRun (projectId id : Uuid) : Db → List (Event SecretContent) → Db → Prop
  | refl (db : Db) : EntryRun projectId id db [] db
  | tail {db db' db'' : Db} {events events' : List (Event SecretContent)}
      (h : EntryRun projectId id db events db') (hstep : EntryStep projectId id db' events' db'') :
      EntryRun projectId id db (events ++ events') db''

theorem EntryRun.single {projectId id : Uuid} {db db' : Db} {events : List (Event SecretContent)}
    (h : EntryStep projectId id db events db') : EntryRun projectId id db events db' :=
  .tail (.refl db) h

section Content

variable {db db' : Db} {projectId secretId id : Uuid} {w : EntryWrite} {seq : ℕ}

/-- The values that a version is made of. -/
theorem lookup_valueRows (db : Db) (projectId secretId environmentId : Uuid) :
    ((db.secretValues.select fun v => v.projectId = projectId ∧ v.secretId = secretId).map
      fun v => (v.environmentId, v.encryptedValue)).lookup environmentId =
        valueOf db projectId secretId environmentId := by
  unfold valueOf Table.find Table.select
  induction db.secretValues.rows with
  | nil => rfl
  | cons v rows ih =>
    by_cases hsecret : v.projectId = projectId ∧ v.secretId = secretId
    · obtain ⟨rfl, rfl⟩ := hsecret
      rw [List.filter_cons_of_pos (by simp), List.map_cons, List.lookup_cons, List.find?_cons]
      by_cases henv : v.environmentId = environmentId
      · subst henv
        simp [SecretValueRow.key]
      · have hkey : decide (v.key = (v.projectId, v.secretId, environmentId)) = false := by
          simp [SecretValueRow.key, henv]
        have hbeq : (environmentId == v.environmentId) = false := by
          simpa using Ne.symm henv
        rw [hkey, hbeq]
        exact ih
    · have hkey : decide (v.key = (projectId, secretId, environmentId)) = false := by
        simp only [SecretValueRow.key, Prod.mk.injEq, decide_eq_false_iff_not]
        exact fun h => hsecret ⟨h.1, h.2.1⟩
      rw [List.filter_cons_of_neg (by simpa using hsecret), List.find?_cons, hkey]
      exact ih

/-- The entry that a write leaves, and the others. -/
theorem Written.find_entries (hw : Written db db' w seq) (key : Uuid × Uuid) :
    db'.projectEntries.find key =
      if (w.projectId, w.id) = key then some (writtenRow w seq) else db.projectEntries.find key := by
  ext e
  rw [Table.find_eq_some, hw.entries]
  split
  · rename_i hkey
    subst hkey
    constructor
    · rintro ⟨⟨-, hne⟩ | rfl, hkey⟩
      · exact absurd hkey hne
      · rfl
    · rintro ⟨⟩
      exact ⟨Or.inr rfl, rfl⟩
  · rename_i hkey
    rw [Table.find_eq_some]
    constructor
    · rintro ⟨⟨he, -⟩ | rfl, hsame⟩
      · exact ⟨he, hsame⟩
      · exact absurd hsame hkey
    · rintro ⟨he, rfl⟩
      exact ⟨Or.inl ⟨he, fun heq => hkey heq.symm⟩, rfl⟩

/-- The version that keeps what an entry and its values hold. -/
def keptVersion (db : Db) (current : EntryRow) (encryptedMeta : EncryptedBlob) : SecretVersionRow where
  projectId := current.projectId
  secretId := current.id
  revision := current.revision
  encryptedMeta := encryptedMeta
  values := (db.secretValues.select fun v =>
    v.projectId = current.projectId ∧ v.secretId = current.id).map fun v =>
      (v.environmentId, v.encryptedValue)
  savedAt := current.updatedAt

theorem keepSecretVersion_eq_some {current : EntryRow} {encryptedMeta : EncryptedBlob}
    (h : keepSecretVersion db current encryptedMeta = some db') :
    (∀ v ∈ db.secretVersions, v.key ≠ (keptVersion db current encryptedMeta).key) ∧
      db' = { db with
        secretVersions := (db.secretVersions.insertNew
          (keptVersion db current encryptedMeta)).delete fun v =>
            v.projectId = current.projectId ∧ v.secretId = current.id ∧
              v.revision + maxVersionsPerRecord ≤ current.revision } := by
  unfold keepSecretVersion at h
  dsimp only at h
  split at h
  · cases h
  rename_i inserted hinsert
  obtain ⟨hnew, rfl⟩ := Table.insertAll_singleton hinsert
  exact ⟨hnew, (Option.some_inj.mp h).symm⟩

theorem content_keptVersion (db : Db) (current : EntryRow) (encryptedMeta : EncryptedBlob) :
    (keptVersion db current encryptedMeta).content =
      ⟨encryptedMeta, valueOf db current.projectId current.id⟩ :=
  SecretContent.ext rfl (funext fun environmentId =>
    lookup_valueRows db current.projectId current.id environmentId)

/-- The versions that keeping one leaves: the new one, and of its secret those within the limit. -/
theorem find_keepSecretVersion (projectId secretId : Uuid) {current : EntryRow}
    {encryptedMeta : EncryptedBlob} (h : keepSecretVersion db current encryptedMeta = some db') (k : ℕ) :
    (db'.secretVersions.find (projectId, secretId, k)).map SecretVersionRow.content =
      if (current.projectId, current.id) = (projectId, secretId) then
        if k = current.revision then some ⟨encryptedMeta, valueOf db projectId secretId⟩
        else if k + maxVersionsPerRecord ≤ current.revision then none
        else (db.secretVersions.find (projectId, secretId, k)).map SecretVersionRow.content
      else (db.secretVersions.find (projectId, secretId, k)).map SecretVersionRow.content := by
  obtain ⟨hnew, rfl⟩ := keepSecretVersion_eq_some h
  have hgone : ∀ v : SecretVersionRow, v.key = (projectId, secretId, k) →
      (decide (v.projectId = current.projectId ∧ v.secretId = current.id ∧
        v.revision + maxVersionsPerRecord ≤ current.revision) = true ↔
          (current.projectId, current.id) = (projectId, secretId) ∧
            k + maxVersionsPerRecord ≤ current.revision) := by
    intro v hv
    simp only [SecretVersionRow.key, Prod.mk.injEq] at hv
    obtain ⟨rfl, rfl, rfl⟩ := hv
    rw [decide_eq_true_eq, Prod.mk.injEq, eq_comm, @eq_comm _ v.secretId, and_assoc]
  have hkey : (keptVersion db current encryptedMeta).key =
      (current.projectId, current.id, current.revision) := rfl
  dsimp only
  rw [Table.find_delete_iff hgone, Table.find_insertNew hnew, hkey]
  by_cases hsecret : (current.projectId, current.id) = (projectId, secretId)
  · obtain ⟨rfl, rfl⟩ := Prod.mk.inj hsecret
    rw [if_pos rfl]
    by_cases hk : k = current.revision
    · subst hk
      have hlimit : ¬ current.revision + maxVersionsPerRecord ≤ current.revision := by
        simp [maxVersionsPerRecord]
      rw [if_neg fun h => hlimit h.2, if_pos rfl, if_pos rfl, Option.map_some, content_keptVersion]
    · rw [if_neg hk, apply_ite (Option.map SecretVersionRow.content),
        if_neg fun heq => hk (Prod.mk.inj (Prod.mk.inj heq).2).2.symm]
      simp only [true_and, Option.map_none]
  · rw [if_neg fun h => hsecret h.1, if_neg hsecret, if_neg]
    intro heq
    exact hsecret (Prod.ext (Prod.mk.inj heq).1 (Prod.mk.inj (Prod.mk.inj heq).2).1)

/-- What a write keeps, and what becomes of it when the write deletes an environment. -/
theorem writeEntry_keeps {entry : ProjectEntry} (h : writeEntry db w = (.ok entry, db')) :
    ∃ projects db₁, keepReplaced { db with projects } w
        (db.projectEntries.find (w.projectId, w.id)) = some db₁ ∧
      db'.secretVersions = if w.DeletesEnvironment then
        (dropVersionValues db₁ w.projectId w.id).secretVersions else db₁.secretVersions := by
  unfold writeEntry at h
  split at h
  · cases h
  rename_i p hfind
  dsimp only at h
  split at h
  · rename_i r hr
    exact absurd (congrArg Prod.fst h) (entryRefusal_ne_ok hr entry)
  split at h
  · cases h
  rename_i db₂ happly
  obtain rfl : db₂ = db' := congrArg Prod.snd h
  unfold applyEntryWrite at happly
  dsimp only at happly
  split at happly
  · cases happly
  rename_i db₁ hkeep
  obtain rfl := Option.some_inj.mp happly
  refine ⟨_, db₁, hkeep, ?_⟩
  unfold writeContent
  split
  · rename_i htype hmeta
    rw [if_pos ⟨htype, hmeta⟩]
    rfl
  all_goals
    rename_i htype hmeta
    rw [if_neg fun hdeletes => by simp_all [EntryWrite.DeletesEnvironment]]

theorem content_entryRecord {e : EntryRow} (h : db.projectEntries.find (projectId, id) = some e) :
    (entryRecord db projectId id).content = e.content db := by
  rw [entryRecord, h, Option.bind_some]

theorem content_eq_some {e : EntryRow} {content : SecretContent} :
    e.content db = some content ↔ e.type = .secret ∧ e.deleted = false ∧
      e.encryptedMeta = some content.encryptedMeta ∧ content.value = valueOf db e.projectId e.id := by
  unfold EntryRow.content
  split
  · rename_i encryptedMeta htype hdeleted hmeta
    rw [htype, hdeleted, hmeta, Option.some_inj, Option.some_inj, SecretContent.ext_iff]
    simp only [true_and, eq_comm]
  · rename_i hnot
    constructor
    · intro h
      cases h
    · rintro ⟨htype, hdeleted, hmeta, -⟩
      exact absurd hmeta (hnot _ htype hdeleted)

/-- What is kept of the entry that is written, and of the others. -/
theorem find_keepReplaced {projects : Table ProjectRow.id} {db₁ : Db}
    (htypes : ∀ c, db.projectEntries.find (w.projectId, w.id) = some c → c.type = w.type)
    (hkeep : keepReplaced { db with projects } w
      (db.projectEntries.find (w.projectId, w.id)) = some db₁) (k : ℕ) :
    (db₁.secretVersions.find (projectId, id, k)).map SecretVersionRow.content =
      if (w.projectId, w.id) = (projectId, id) then
        (entryRecord db projectId id).keep maxVersionsPerRecord k
      else (entryRecord db projectId id).kept k := by
  -- a write that replaces nothing keeps nothing
  have hsame : (entryRecord db w.projectId w.id).content = none → some { db with projects } = some db₁ →
      (db₁.secretVersions.find (projectId, id, k)).map SecretVersionRow.content =
        if (w.projectId, w.id) = (projectId, id) then
          (entryRecord db projectId id).keep maxVersionsPerRecord k
        else (entryRecord db projectId id).kept k := by
    intro hnone hdb
    obtain rfl := Option.some_inj.mp hdb
    split
    · rename_i hentry
      obtain ⟨rfl, rfl⟩ := Prod.mk.inj hentry
      simp only [Record.keep, hnone]
      rfl
    · rfl
  unfold keepReplaced at hkeep
  split at hkeep
  · rename_i current c htype hfind
    have hkey : (c.projectId, c.id) = (w.projectId, w.id) := (Table.find_eq_some.mp hfind).2
    obtain ⟨hproject, hid⟩ := Prod.mk.inj hkey
    split at hkeep
    · rename_i encryptedMeta hdeleted hmeta
      rw [find_keepSecretVersion projectId id hkeep k, hkey]
      split
      · rename_i hentry
        obtain ⟨rfl, rfl⟩ := Prod.mk.inj hentry
        have hcontent : (entryRecord db w.projectId w.id).content =
            some ⟨encryptedMeta, valueOf db w.projectId w.id⟩ := by
          rw [content_entryRecord hfind, content_eq_some, hproject, hid]
          exact ⟨(htypes c hfind).trans htype, hdeleted, hmeta, rfl⟩
        have hrevision : (entryRecord db w.projectId w.id).revision = c.revision := by
          rw [entryRecord, hfind, Option.map_some, Option.getD_some]
        simp only [Record.keep, hcontent, hrevision]
        rfl
      · rfl
    · rename_i hnot
      refine hsame (Option.eq_none_iff_forall_ne_some.mpr fun content hcontent => ?_) hkeep
      rw [content_entryRecord hfind, content_eq_some] at hcontent
      exact hnot _ hcontent.2.1 hcontent.2.2.1
  · rename_i hnot
    refine hsame (Option.eq_none_iff_forall_ne_some.mpr fun content hcontent => ?_) hkeep
    cases hfind : db.projectEntries.find (w.projectId, w.id) with
    | none =>
      rw [entryRecord, hfind] at hcontent
      cases hcontent
    | some c =>
      rw [content_entryRecord hfind, content_eq_some, htypes c hfind] at hcontent
      exact hnot c hcontent.1 hfind

theorem find_foldl_putValue {now : Timestamp} {values : List (Uuid × Option EncryptedBlob)}
    {id projectId' : Uuid} (hother : (projectId', id) ≠ (projectId, secretId)) (environmentId : Uuid)
    (t : Table SecretValueRow.key) :
    (values.foldl (putValue projectId' id now) t).find (projectId, secretId, environmentId) =
      t.find (projectId, secretId, environmentId) := by
  induction values generalizing t with
  | nil => rfl
  | cons v values ih =>
    rw [List.foldl_cons, ih, putValue]
    split
    · refine Table.find_delete fun r _ hr => ?_
      obtain ⟨hproject, hrest⟩ := Prod.mk.inj hr
      obtain ⟨hid, -⟩ := Prod.mk.inj hrest
      simp only [decide_eq_false_iff_not]
      rintro ⟨rfl, rfl, -⟩
      exact hother (by rw [hproject, hid])
    · rename_i encryptedValue _
      rw [Table.find_upsert, if_neg]
      · intro heq
        simp only [SecretValueRow.key, Prod.mk.injEq] at heq
        exact hother (Prod.ext heq.1 heq.2.1)
      · intro r hr
        simp only [SecretValueRow.key, Prod.mk.injEq] at hr
        obtain ⟨hproject, hid, henv⟩ := hr
        simp only [hproject, hid, henv]

/-- A write of another entry leaves the values of the secret, but for a deleted environment's. -/
theorem Written.valueOf_of_ne (hw : Written db db' w seq)
    (hother : (w.projectId, w.id) ≠ (projectId, secretId)) (environmentId : Uuid) :
    valueOf db' projectId secretId environmentId =
      if (w.projectId = projectId ∧ w.DeletesEnvironment) ∧
        environmentId = w.id then none else valueOf db projectId secretId environmentId := by
  have hsame : db'.secretValues.find (projectId, secretId, environmentId) =
      db.secretValues.find (projectId, secretId, environmentId) →
      ¬ (w.projectId = projectId ∧ w.DeletesEnvironment) →
      valueOf db' projectId secretId environmentId =
        if (w.projectId = projectId ∧ w.DeletesEnvironment) ∧
          environmentId = w.id then none else valueOf db projectId secretId environmentId := by
    intro hfind hnot
    rw [if_neg fun h => hnot h.1, valueOf, hfind, valueOf]
  have hvalues := hw.secretValues
  unfold writeContent at hvalues
  split at hvalues
  · rename_i htype hmeta
    have hfind : db'.secretValues.find (projectId, secretId, environmentId) =
        (db.secretValues.find (projectId, secretId, environmentId)).filter fun v =>
          !decide (v.projectId = w.projectId ∧ v.environmentId = w.id) := by
      rw [hvalues]
      exact Table.find_delete_eq _
    rw [valueOf, hfind]
    cases hvalue : db.secretValues.find (projectId, secretId, environmentId) with
    | none => simp [valueOf, hvalue]
    | some v =>
      obtain ⟨rfl, hrest⟩ := Prod.mk.inj (Table.find_eq_some.mp hvalue).2
      obtain ⟨rfl, rfl⟩ := Prod.mk.inj hrest
      by_cases hdeleted : v.projectId = w.projectId ∧ v.environmentId = w.id
      · rw [if_pos ⟨⟨hdeleted.1.symm, htype, hmeta⟩, hdeleted.2⟩]
        simp [hdeleted]
      · have hkept : (!decide (v.projectId = w.projectId ∧ v.environmentId = w.id)) = true := by
          rw [decide_eq_false hdeleted, Bool.not_false]
        rw [if_neg fun h => hdeleted ⟨h.1.1.symm, h.2⟩, Option.filter_some, if_pos hkept,
          valueOf, hvalue]
  · rename_i htype hmeta
    exact hsame (by rw [hvalues]) fun h => by simp_all [EntryWrite.DeletesEnvironment]
  · rename_i htype hmeta
    exact hsame (by rw [hvalues]) fun h => by simp_all [EntryWrite.DeletesEnvironment]
  · rename_i htype hmeta
    refine hsame ?_ fun h => by simp_all [EntryWrite.DeletesEnvironment]
    rw [hvalues]
    refine Table.find_delete fun r _ hr => ?_
    obtain ⟨hproject, hrest⟩ := Prod.mk.inj hr
    obtain ⟨hid, -⟩ := Prod.mk.inj hrest
    simp only [decide_eq_false_iff_not]
    rintro ⟨hproject', hid'⟩
    exact hother (by rw [← hproject', ← hid', hproject, hid])
  · rename_i htype hmeta
    refine hsame ?_ fun h => by simp_all [EntryWrite.DeletesEnvironment]
    rw [hvalues]
    exact find_foldl_putValue hother environmentId _
  · rename_i htype hmeta
    exact hsame (by rw [hvalues]) fun h => by simp_all [EntryWrite.DeletesEnvironment]

/-- Putting values one after another. -/
theorem valueOf_foldl_putValue {now : Timestamp} (values : List (Uuid × Option EncryptedBlob))
    (t : Table SecretValueRow.key) :
    (fun environmentId => ((values.foldl (putValue projectId secretId now) t).find
        (projectId, secretId, environmentId)).map SecretValueRow.encryptedValue) =
      values.foldl (fun value v => update value v.1 v.2) fun environmentId =>
        (t.find (projectId, secretId, environmentId)).map SecretValueRow.encryptedValue := by
  induction values generalizing t with
  | nil => rfl
  | cons v values ih =>
    rw [List.foldl_cons, List.foldl_cons, ih]
    congr 1
    funext environmentId
    rw [putValue]
    split
    · rename_i hvalue
      rw [Table.find_delete_eq, hvalue, Function.update_apply]
      cases hfind : t.find (projectId, secretId, environmentId) with
      | none =>
        split <;> rfl
      | some r =>
        obtain ⟨hproject, hrest⟩ := Prod.mk.inj (Table.find_eq_some.mp hfind).2
        obtain ⟨hid, henv⟩ := Prod.mk.inj hrest
        by_cases heq : environmentId = v.1
        · simp [hproject, hid, henv, heq]
        · simp [henv, heq]
    · rename_i encryptedValue hvalue
      rw [Table.find_upsert, hvalue, Function.update_apply]
      · by_cases heq : environmentId = v.1
        · rw [if_pos heq, if_pos (by rw [SecretValueRow.key, heq]), Option.map_some]
        · rw [if_neg heq, if_neg]
          intro hkey
          simp only [SecretValueRow.key, Prod.mk.injEq] at hkey
          exact heq hkey.2.2.symm
      · intro r hr
        simp only [SecretValueRow.key, Prod.mk.injEq] at hr
        obtain ⟨hproject, hid, henv⟩ := hr
        simp only [hproject, hid, henv]

/-- A write leaves its content, with the values that it does not mention. -/
theorem Written.content (hw : Written db db' w seq) :
    (entryRecord db' w.projectId w.id).content = w.content (valueOf db w.projectId w.id) := by
  have hfind := hw.find_entries (w.projectId, w.id)
  rw [if_pos rfl] at hfind
  rw [content_entryRecord hfind]
  have hvalues := hw.secretValues
  unfold writeContent at hvalues
  unfold EntryRow.content EntryWrite.content writtenRow
  dsimp only
  cases htype : w.type with
  | environment | folder => rfl
  | secret =>
    cases hmeta : w.encryptedMeta with
    | none => rfl
    | some encryptedMeta =>
      simp only [htype, hmeta] at hvalues
      simp only [reduceCtorEq, decide_false, Option.some_inj]
      refine SecretContent.ext rfl ?_
      dsimp only
      unfold valueOf
      rw [hvalues]
      exact valueOf_foldl_putValue w.values db.secretValues

/-- Of a version's values, those of one environment go. -/
theorem lookup_filter_ne (values : List (Uuid × EncryptedBlob)) (environmentId id : Uuid) :
    (values.filter fun v => v.1 ≠ environmentId).lookup id =
      update (fun id => values.lookup id) environmentId none id := by
  rw [Function.update_apply]
  induction values with
  | nil => split <;> rfl
  | cons v values ih =>
    by_cases hgone : v.1 = environmentId
    · rw [List.filter_cons_of_neg (by simpa using hgone), ih, List.lookup_cons]
      by_cases heq : id = environmentId
      · rw [if_pos heq, if_pos heq]
      · have hne : (id == v.1) = false := by
          rw [hgone]
          simpa using heq
        rw [if_neg heq, if_neg heq, hne]
    · rw [List.filter_cons_of_pos (by simpa using hgone), List.lookup_cons, List.lookup_cons, ih]
      by_cases hv : id = v.1
      · subst hv
        rw [if_neg hgone, if_neg hgone, beq_self_eq_true]
      · have hne : (id == v.1) = false := by simpa using hv
        rw [hne]

/-- What versions forget. -/
theorem find_forgetValues {versions versions' : Table SecretVersionRow.key}
    {projectId' environmentId : Uuid}
    (h : ∀ v, v ∈ versions' ↔ ∃ v₀ ∈ versions, v = forgetValues projectId' environmentId v₀) (k : ℕ) :
    (versions'.find (projectId, id, k)).map SecretVersionRow.content =
      ((versions.find (projectId, id, k)).map SecretVersionRow.content).map fun c =>
        if projectId' = projectId then c.setValue environmentId none else c := by
  have hkey : ∀ v, (forgetValues projectId' environmentId v).key = v.key := by
    intro v
    unfold forgetValues
    split <;> rfl
  rw [Table.find_of_mem_iff hkey h, Option.map_map, Option.map_map]
  cases hfind : versions.find (projectId, id, k) with
  | none => rfl
  | some v =>
    obtain ⟨rfl, -⟩ := Prod.mk.inj (Table.find_eq_some.mp hfind).2
    rw [Option.map_some, Option.map_some, Option.some_inj, Function.comp_apply, Function.comp_apply,
      forgetValues]
    by_cases hproject : v.projectId = projectId'
    · rw [if_pos hproject, if_pos hproject.symm]
      exact SecretContent.ext rfl (funext fun id => lookup_filter_ne v.values environmentId id)
    · rw [if_neg hproject, if_neg (Ne.symm hproject)]

theorem Written.revision_entryRecord (hw : Written db db' w seq) (projectId id : Uuid) :
    (entryRecord db' projectId id).revision =
      (entryRecord db projectId id).revision +
        if (w.projectId, w.id) = (projectId, id) then 1 else 0 := by
  simp only [entryRecord, hw.find_entries]
  split
  · rename_i hentry
    have hbase := (entryRefusal_eq_none hw.accepted).2.1
    rw [hentry] at hbase
    rw [hbase]
    rfl
  · rfl

/-- What a write leaves of an entry's content: its own has what it says, and another loses the value
of an environment that it deletes. -/
theorem Written.content_entryRecord (hw : Written db db' w seq) (projectId id : Uuid) :
    (entryRecord db' projectId id).content =
      (if (w.projectId, w.id) = (projectId, id) then w.content (valueOf db projectId id)
        else (entryRecord db projectId id).content).map fun c =>
          if w.projectId = projectId ∧ w.DeletesEnvironment then c.setValue w.id none else c := by
  by_cases hentry : (w.projectId, w.id) = (projectId, id)
  · obtain ⟨rfl, rfl⟩ := Prod.mk.inj hentry
    rw [if_pos rfl, hw.content]
    cases hcontent : w.content (valueOf db w.projectId w.id) with
    | none => rfl
    | some content =>
      rw [Option.map_some, if_neg]
      rintro ⟨-, htype, hmeta⟩
      rw [EntryWrite.content, htype, hmeta] at hcontent
      cases hcontent
  · simp only [entryRecord, hw.find_entries, if_neg hentry]
    cases hfind : db.projectEntries.find (projectId, id) with
    | none => rfl
    | some e =>
      obtain ⟨rfl, rfl⟩ := Prod.mk.inj (Table.find_eq_some.mp hfind).2
      rw [Option.bind_some, Option.bind_some]
      unfold EntryRow.content
      split
      · rw [Option.map_some, Option.some_inj]
        refine SecretContent.ext ?_ (funext fun environmentId => ?_)
        · dsimp only
          split <;> rfl
        · dsimp only
          rw [hw.valueOf_of_ne hentry]
          by_cases hdeletes : w.projectId = e.projectId ∧ w.DeletesEnvironment
          · rw [if_pos hdeletes]
            dsimp only [SecretContent.setValue]
            rw [Function.update_apply, if_congr (and_iff_right hdeletes) rfl rfl]
          · rw [if_neg hdeletes, if_neg fun h => hdeletes h.1]
      · rfl

theorem kept_accepted {entry : ProjectEntry} (h : writeEntry db w = (.ok entry, db'))
    (hw : Written db db' w seq) (projectId id : Uuid) (k : ℕ) :
    (entryRecord db' projectId id).kept k =
      (if (w.projectId, w.id) = (projectId, id) then
          (entryRecord db projectId id).keep maxVersionsPerRecord k
        else (entryRecord db projectId id).kept k).map fun c =>
          if w.projectId = projectId ∧ w.DeletesEnvironment then c.setValue w.id none else c := by
  obtain ⟨projects, db₁, hkeep, hversions⟩ := writeEntry_keeps h
  rw [← find_keepReplaced (entryRefusal_eq_none hw.accepted).1 hkeep k]
  change (db'.secretVersions.find _).map _ = _
  rw [hversions]
  by_cases hdeletes : w.DeletesEnvironment
  · rw [if_pos hdeletes, find_forgetValues (fun v => mem_dropVersionValues)]
    simp only [hdeletes, and_true]
  · rw [if_neg hdeletes]
    simp only [hdeletes, and_false, if_false, Option.map_id']

theorem written_of_accepted {entry : ProjectEntry} (h : writeEntry db w = (.ok entry, db')) :
    ∃ seq, Written db db' w seq := by
  rcases writeEntry_cases db w with ⟨seq, hw, -⟩ | ⟨-, hnot⟩
  · rw [h] at hw
    exact ⟨seq, hw⟩
  · exact absurd (congrArg Prod.fst h) (hnot entry)

/-- An accepted write of any entry. -/
theorem entryRecord_accepted (projectId id : Uuid) {entry : ProjectEntry}
    (h : writeEntry db w = (.ok entry, db')) :
    entryRecord db' projectId id =
      (entryRecord db projectId id).run maxVersionsPerRecord (w.events projectId id db) := by
  obtain ⟨seq, hw⟩ := written_of_accepted h
  have hrevision := hw.revision_entryRecord projectId id
  have hcontent := hw.content_entryRecord projectId id
  have hkept := kept_accepted h hw projectId id
  unfold EntryWrite.events
  by_cases hdeletes : w.projectId = projectId ∧ w.DeletesEnvironment
  · simp only [if_pos hdeletes] at hcontent hkept ⊢
    split
    all_goals
      rename_i hentry
      simp only [hentry, if_true, if_false] at hrevision hcontent hkept
      exact Record.ext hrevision hcontent (funext hkept)
  · simp only [if_neg hdeletes, Option.map_id'] at hcontent hkept ⊢
    split
    all_goals
      rename_i hentry
      simp only [hentry, if_true, if_false] at hrevision hcontent hkept
      exact Record.ext hrevision hcontent (funext hkept)

theorem entryRecord_congr
    (hentry : db'.projectEntries.find (projectId, id) = db.projectEntries.find (projectId, id))
    (hvalue : valueOf db' projectId id = valueOf db projectId id)
    (hversions : ∀ k,
      db'.secretVersions.find (projectId, id, k) = db.secretVersions.find (projectId, id, k)) :
    entryRecord db' projectId id = entryRecord db projectId id := by
  refine Record.ext ?_ ?_ (funext fun k => ?_)
  · simp only [entryRecord, hentry]
  · simp only [entryRecord, hentry]
    cases hfind : db.projectEntries.find (projectId, id) with
    | none => rfl
    | some e =>
      obtain ⟨rfl, rfl⟩ := Prod.mk.inj (Table.find_eq_some.mp hfind).2
      rw [Option.bind_some, Option.bind_some]
      unfold EntryRow.content
      rw [hvalue]
  · simp only [entryRecord, hversions]

theorem reseal_key (env : Env) (now : Timestamp) (values : List ResealedValue) (v : SecretValueRow) :
    (reseal env now values v).key = v.key := by
  unfold reseal
  split
  · split <;> rfl
  · rfl

/-- A rotation seals the values of its environment again. -/
theorem valueOf_rotated (projectId id : Uuid) {env : Env} {accountId : Uuid}
    {req : RotateEnvironmentKeyRequest} {now : Timestamp} (hr : Rotated db db' env accountId req now) :
    valueOf db' projectId id = fun environmentId =>
      if env.projectId = projectId ∧ environmentId = env.environmentId then
        valueOf db' projectId id env.environmentId
      else valueOf db projectId id environmentId := by
  funext environmentId
  split
  · rename_i hown
    rw [hown.2]
  · rename_i hother
    unfold valueOf
    rw [Table.find_of_mem_iff (reseal_key env now req.values) hr.secretValues]
    cases hfind : db.secretValues.find (projectId, id, environmentId) with
    | none => rfl
    | some v =>
      obtain ⟨rfl, hrest⟩ := Prod.mk.inj (Table.find_eq_some.mp hfind).2
      obtain ⟨rfl, rfl⟩ := Prod.mk.inj hrest
      rw [Option.map_some, reseal, if_neg fun hown => hother ⟨hown.1.symm, hown.2⟩]

/-- An entry that only moves in the feed. -/
theorem find_moved (h : Moved db.projectEntries db'.projectEntries) (key : Uuid × Uuid) :
    ∃ f : EntryRow → EntryRow, db'.projectEntries.find key = (db.projectEntries.find key).map f ∧
      ∀ e, ∃ seq updatedAt, f e = { e with seq := seq, updatedAt := updatedAt } := by
  obtain ⟨f, hf, hfield⟩ := h
  refine ⟨f, Table.find_of_mem_iff (fun e => ?_) (fun e => ?_) key, hfield⟩
  · obtain ⟨seq, updatedAt, he⟩ := hfield e
    rw [he]
    rfl
  · rw [← Table.mem_rows, hf, List.mem_map]
    simp only [Table.mem_rows, eq_comm]

theorem entryRecord_rotated {env : Env} {accountId : Uuid} {req : RotateEnvironmentKeyRequest}
    {now : Timestamp} (hr : Rotated db db' env accountId req now) :
    entryRecord db' projectId id =
      (entryRecord db projectId id).run maxVersionsPerRecord
        (if env.projectId = projectId then
          [.amend (SecretContent.setValue env.environmentId (valueOf db' projectId id env.environmentId))
            (SecretContent.setValue env.environmentId none)]
        else []) := by
  obtain ⟨f, hfind, hfield⟩ := find_moved hr.moved (projectId, id)
  have hrevision : (entryRecord db' projectId id).revision = (entryRecord db projectId id).revision := by
    simp only [entryRecord, hfind, Option.map_map]
    cases db.projectEntries.find (projectId, id) with
    | none => rfl
    | some e =>
      obtain ⟨seq, updatedAt, he⟩ := hfield e
      simp only [Option.map_some, Function.comp_apply, he]
  have hcontent : (entryRecord db' projectId id).content =
      (entryRecord db projectId id).content.map fun c =>
        if env.projectId = projectId then
          c.setValue env.environmentId (valueOf db' projectId id env.environmentId)
        else c := by
    simp only [entryRecord, hfind]
    cases hentry : db.projectEntries.find (projectId, id) with
    | none => rfl
    | some e =>
      obtain ⟨rfl, rfl⟩ := Prod.mk.inj (Table.find_eq_some.mp hentry).2
      obtain ⟨seq, updatedAt, he⟩ := hfield e
      simp only [Option.map_some, Option.bind_some, he]
      unfold EntryRow.content
      dsimp only
      split
      · rw [Option.map_some, Option.some_inj]
        have hvalue := valueOf_rotated e.projectId e.id hr
        split
        · rename_i hproject
          refine SecretContent.ext rfl (hvalue.trans (funext fun environmentId => ?_))
          dsimp only [SecretContent.setValue]
          rw [Function.update_apply, if_congr (and_iff_right hproject) rfl rfl]
        · rename_i hproject
          refine SecretContent.ext rfl (hvalue.trans (funext fun environmentId => ?_))
          rw [if_neg fun h => hproject h.1]
      · rfl
  have hkept : ∀ k, (entryRecord db' projectId id).kept k =
      ((entryRecord db projectId id).kept k).map fun c =>
        if env.projectId = projectId then c.setValue env.environmentId none else c :=
    find_forgetValues hr.secretVersions
  by_cases hproject : env.projectId = projectId
  · simp only [if_pos hproject] at hcontent hkept ⊢
    exact Record.ext hrevision hcontent (funext hkept)
  · simp only [if_neg hproject, Option.map_id'] at hcontent hkept ⊢
    exact Record.ext hrevision hcontent (funext hkept)

/-- What was found to purge goes. -/
theorem entryRecord_purgeVersions (db : Db) (projectId' : Uuid) (deleted : List Uuid) :
    entryRecord (purgeVersions db projectId' deleted) projectId id =
      (entryRecord db projectId id).run maxVersionsPerRecord
        (if projectId' = projectId ∧ id ∈ deleted then [.purge] else []) := by
  have hfind : ∀ k, (purgeVersions db projectId' deleted).secretVersions.find (projectId, id, k) =
      if projectId' = projectId ∧ id ∈ deleted then none
      else db.secretVersions.find (projectId, id, k) := by
    refine fun k => Table.find_delete_iff fun v hv => ?_
    obtain ⟨hproject, hrest⟩ := Prod.mk.inj hv
    rw [decide_eq_true_eq, hproject, (Prod.mk.inj hrest).1, eq_comm]
  split
  · rename_i hpurged
    refine Record.ext rfl rfl (funext fun k => ?_)
    change ((purgeVersions db projectId' deleted).secretVersions.find _).map _ = _
    rw [hfind, if_pos hpurged]
    rfl
  · rename_i hpurged
    refine Record.ext rfl rfl (funext fun k => ?_)
    change ((purgeVersions db projectId' deleted).secretVersions.find _).map _ = _
    rw [hfind, if_neg hpurged]
    rfl

theorem isExpired_iff {before : Timestamp} : IsExpired db projectId id before ↔
    (db.projectEntries.rows.any fun e =>
      e.projectId = projectId ∧ e.id = id ∧ e.deleted ∧ e.updatedAt < before) = true := by
  rw [List.any_eq_true, IsExpired]
  constructor
  · rintro ⟨e, hfind, hdeleted, hbefore⟩
    obtain ⟨he, hkey⟩ := Table.find_eq_some.mp hfind
    obtain ⟨hproject, hid⟩ := Prod.mk.inj hkey
    exact ⟨e, he, decide_eq_true ⟨hproject, hid, hdeleted, hbefore⟩⟩
  · rintro ⟨e, he, hall⟩
    obtain ⟨hproject, hid, hdeleted, hbefore⟩ := of_decide_eq_true hall
    exact ⟨e, Table.find_eq_some.mpr ⟨he, by rw [EntryRow.key, hproject, hid]⟩, hdeleted, hbefore⟩

theorem entryRecord_purgeExpired (db : Db) (before : Timestamp) :
    entryRecord (purgeExpired db before) projectId id =
      (entryRecord db projectId id).run maxVersionsPerRecord
        (if IsExpired db projectId id before then [.purge] else []) := by
  have hfind : ∀ k, (purgeExpired db before).secretVersions.find (projectId, id, k) =
      if IsExpired db projectId id before then none
      else db.secretVersions.find (projectId, id, k) := by
    refine fun k => Table.find_delete_iff fun v hv => ?_
    obtain ⟨hproject, hrest⟩ := Prod.mk.inj hv
    rw [isExpired_iff, hproject, (Prod.mk.inj hrest).1]
  split
  · rename_i hexpired
    refine Record.ext rfl rfl (funext fun k => ?_)
    change ((purgeExpired db before).secretVersions.find _).map _ = _
    rw [hfind, if_pos hexpired]
    rfl
  · rename_i hexpired
    refine Record.ext rfl rfl (funext fun k => ?_)
    change ((purgeExpired db before).secretVersions.find _).map _ = _
    rw [hfind, if_neg hexpired]
    rfl

theorem entryRecord_createProject {p : NewProject} (hid : p.id ≠ projectId)
    (h : createProject db p = some db') : entryRecord db' projectId id = entryRecord db projectId id := by
  have hcreated := createProject_eq_some h
  refine entryRecord_congr ?_ ?_ fun k => ?_
  · ext e
    rw [Table.find_eq_some, Table.find_eq_some, hcreated.entries]
    constructor
    · rintro ⟨he | ⟨i, hi, rfl⟩, hkey⟩
      · exact ⟨he, hkey⟩
      · exact absurd (Prod.mk.inj hkey).1 hid
    · rintro ⟨he, hkey⟩
      exact ⟨Or.inl he, hkey⟩
  · rw [hcreated.frame]
    rfl
  · rw [hcreated.frame]

theorem entryRecord_deleteProject (db : Db) {projectId' : Uuid} (hid : projectId' ≠ projectId) :
    entryRecord (deleteProject db projectId') projectId id = entryRecord db projectId id := by
  refine entryRecord_congr ?_ (funext fun environmentId => ?_) fun k => ?_
  · exact Table.find_delete fun e _ hkey =>
      decide_eq_false fun hproject => hid (hproject.symm.trans (Prod.mk.inj hkey).1)
  · refine congrArg (Option.map SecretValueRow.encryptedValue) (Table.find_delete fun v _ hkey => ?_)
    exact decide_eq_false fun hproject => hid (hproject.symm.trans (Prod.mk.inj hkey).1)
  · exact Table.find_delete fun v _ hkey =>
      decide_eq_false fun hproject => hid (hproject.symm.trans (Prod.mk.inj hkey).1)

theorem writeEntry_refused (h : ∀ entry, (writeEntry db w).1 ≠ .ok entry) :
    (writeEntry db w).2 = db := by
  rcases writeEntry_cases db w with ⟨seq, -, hok⟩ | ⟨hsame, -⟩
  · exact absurd hok (h _)
  · exact hsame

/-- A step of the server does to an entry what happens to the record. -/
theorem EntryStep.entryRecord {events : List (Event SecretContent)}
    (h : EntryStep projectId id db events db') :
    entryRecord db' projectId id =
      (entryRecord db projectId id).run maxVersionsPerRecord events := by
  cases h with
  | accepted h => exact entryRecord_accepted projectId id h
  | refused h =>
    rw [writeEntry_refused h]
    rfl
  | rotate h => exact entryRecord_rotated (rotateTx_ok h)
  | purge projectId' deleted => exact entryRecord_purgeVersions db projectId' deleted
  | purgeExpired before => exact entryRecord_purgeExpired db before
  | create hid h => exact entryRecord_createProject hid h
  | deleteProject hid => exact entryRecord_deleteProject db hid
  | other hentries hvalues hversions =>
    refine entryRecord_congr (congrArg (Table.find · _) hentries) ?_ fun k => by rw [hversions]
    unfold valueOf
    rw [hvalues]

/-- The store refines the record over every run. -/
theorem EntryRun.entryRecord {events : List (Event SecretContent)}
    (h : EntryRun projectId id db events db') :
    entryRecord db' projectId id =
      (entryRecord db projectId id).run maxVersionsPerRecord events := by
  induction h with
  | refl => rfl
  | tail _ hstep ih => rw [Record.run_append, ← ih, hstep.entryRecord]

/-- Among the server's writes no step is missing, but for the deletion of the project. -/
theorem StoreWrite.entryStep (h : StoreWrite db db') (hproject : ∃ p ∈ db.projects, p.id = projectId)
    (id : Uuid) : ∃ events, EntryStep projectId id db events db' := by
  cases h with
  | create p h =>
    refine ⟨_, .create (fun hid => ?_) h⟩
    obtain ⟨row, hrow, hrowId⟩ := hproject
    exact (createProject_eq_some h).free row hrow (hrowId.trans hid.symm)
  | entry w =>
    by_cases haccepted : ∃ entry, (writeEntry db w).1 = .ok entry
    · obtain ⟨entry, haccepted⟩ := haccepted
      exact ⟨_, .accepted (Prod.ext haccepted rfl)⟩
    · exact ⟨_, .refused (not_exists.mp haccepted)⟩
  | update projectId' baseRevision encryptedMeta now h =>
    unfold updateProject at h
    split at h
    · cases h
      exact ⟨_, .other rfl rfl rfl⟩
    · cases h
  | purge projectId' secretId before => exact ⟨_, .purge db projectId' _⟩
  | purgeExpired before => exact ⟨_, .purgeExpired db before⟩
  | access h =>
    cases h with
    | upkeep h => exact ⟨_, .other h.upkept.projectEntries h.upkept.secretValues h.upkept.secretVersions⟩
    | wraps projectId' resourceId keyVersion wrappedBy wraps =>
      unfold insertWraps
      split <;> exact ⟨_, .other rfl rfl rfl⟩
    | rotation env accountId req now =>
      cases hrotate : rotateTx db env accountId req now with
      | mk answer db' =>
        cases answer with
        | ok _ => exact ⟨_, .rotate hrotate⟩
        | error e =>
          rw [rotateTx_error hrotate]
          exact ⟨_, .other rfl rfl rfl⟩

/-- The values of an environment were deleted or sealed with a new key. -/
def Forgets (events : List (Event SecretContent)) (environmentId : Uuid) : Prop :=
  ∃ present, .amend present (SecretContent.setValue environmentId none) ∈ events

/-- What is left of a content that is kept while values are forgotten. -/
structure LeftOf (events : List (Event SecretContent)) (c c' : SecretContent) : Prop where
  encryptedMeta : c'.encryptedMeta = c.encryptedMeta
  forgotten : ∀ environmentId, Forgets events environmentId → c'.value environmentId = none
  remembered : ∀ environmentId, ¬ Forgets events environmentId →
    c'.value environmentId = c.value environmentId

/-- Kept versions only ever lose the values of an environment. -/
theorem EntryRun.drops {events : List (Event SecretContent)} (h : EntryRun projectId id db events db')
    {present past : SecretContent → SecretContent} (hmem : .amend present past ∈ events) :
    ∃ environmentId, past = SecretContent.setValue environmentId none := by
  induction h with
  | refl => cases hmem
  | tail _ hstep ih =>
    rcases List.mem_append.mp hmem with hmem | hmem
    · exact ih hmem
    cases hstep with
    | accepted h =>
      rcases List.mem_append.mp hmem with hmem | hmem
      · split at hmem
        · cases List.mem_singleton.mp hmem
        · cases hmem
      · split at hmem
        · cases List.mem_singleton.mp hmem
          exact ⟨_, rfl⟩
        · cases hmem
    | rotate h =>
      split at hmem
      · cases List.mem_singleton.mp hmem
        exact ⟨_, rfl⟩
      · cases hmem
    | purge | purgeExpired =>
      split at hmem
      · cases List.mem_singleton.mp hmem
      · cases hmem
    | refused | create | deleteProject | other => cases hmem

theorem forgets_cons {e : Event SecretContent} {events : List (Event SecretContent)}
    {environmentId : Uuid} : Forgets (e :: events) environmentId ↔
      (∃ present, e = .amend present (SecretContent.setValue environmentId none)) ∨
        Forgets events environmentId := by
  simp only [Forgets, List.mem_cons, exists_or, eq_comm]

theorem leftOf_amended {events : List (Event SecretContent)}
    (hdrops : ∀ present past, .amend present past ∈ events →
      ∃ environmentId, past = SecretContent.setValue environmentId none) (c : SecretContent) :
    LeftOf events c (amended events c) := by
  induction events generalizing c with
  | nil =>
    refine ⟨rfl, fun environmentId h => ?_, fun _ _ => rfl⟩
    obtain ⟨present, hmem⟩ := h
    cases hmem
  | cons e events ih =>
    have hrest := ih fun present past hmem => hdrops present past (List.mem_cons_of_mem _ hmem)
    cases e with
    | write | purge =>
      refine ⟨(hrest c).encryptedMeta, fun environmentId h => ?_, fun environmentId h => ?_⟩
      · rcases forgets_cons.mp h with ⟨present, he⟩ | h
        · cases he
        · exact (hrest c).forgotten environmentId h
      · exact (hrest c).remembered environmentId fun h' => h (forgets_cons.mpr (Or.inr h'))
    | amend present past =>
      obtain ⟨gone, rfl⟩ := hdrops present past List.mem_cons_self
      have hrest := hrest (c.setValue gone none)
      refine ⟨hrest.encryptedMeta, fun environmentId h => ?_, fun environmentId h => ?_⟩
      · by_cases hlater : Forgets events environmentId
        · exact hrest.forgotten environmentId hlater
        refine (hrest.remembered environmentId hlater).trans ?_
        obtain ⟨present', he⟩ := (forgets_cons.mp h).resolve_right hlater
        have hpast : SecretContent.setValue gone none = SecretContent.setValue environmentId none :=
          (Event.amend.inj he).2
        rw [hpast]
        exact Function.update_self ..
      · have hne : environmentId ≠ gone := by
          rintro rfl
          exact h (forgets_cons.mpr (Or.inl ⟨present, rfl⟩))
        refine (hrest.remembered environmentId fun h' => h (forgets_cons.mpr (Or.inr h'))).trans ?_
        exact Function.update_of_ne hne ..

theorem EntryRun.leftOf {events : List (Event SecretContent)}
    (h : EntryRun projectId id db events db') (c : SecretContent) :
    LeftOf events c (amended events c) :=
  leftOf_amended (fun _ _ => h.drops) c

/-- An accepted write is one of the entry's current revision. -/
theorem revision_of_accepted {entry : ProjectEntry} (h : writeEntry db w = (.ok entry, db')) :
    (entryRecord db w.projectId w.id).revision = w.baseRevision ∧
      (w.DeletesEnvironment → (entryRecord db w.projectId w.id).content = none) := by
  obtain ⟨seq, hw⟩ := written_of_accepted h
  obtain ⟨htypes, hbase, -⟩ := entryRefusal_eq_none hw.accepted
  refine ⟨hbase, fun hdeletes => Option.eq_none_iff_forall_ne_some.mpr fun content hcontent => ?_⟩
  obtain ⟨c, hfind, hc⟩ := Option.bind_eq_some_iff.mp hcontent
  have htype := (content_eq_some.mp hc).1
  rw [htypes c hfind, hdeletes.1] at htype
  cases htype

/-- An accepted write of an entry loses nothing. -/
theorem lossless_writeEntry {db₀ db'' : Db} {before after : List (Event SecretContent)}
    {entry : ProjectEntry} (hfresh : entryRecord db₀ w.projectId w.id = .fresh)
    (hbefore : EntryRun w.projectId w.id db₀ before db) (h : writeEntry db w = (.ok entry, db'))
    (hafter : EntryRun w.projectId w.id db' after db'') :
    Lossless maxVersionsPerRecord before w.baseRevision
      (w.content (valueOf db w.projectId w.id)) (entryRecord db' w.projectId w.id) after
      (entryRecord db'' w.projectId w.id) := by
  have hlimit : 0 < maxVersionsPerRecord := by decide
  obtain ⟨hbase, hnone⟩ := revision_of_accepted h
  have hrecord := hbefore.entryRecord
  rw [hfresh] at hrecord
  have hput := entryRecord_accepted w.projectId w.id h
  rw [EntryWrite.events, if_pos rfl] at hput
  rw [hafter.entryRecord]
  by_cases hdeletes : w.DeletesEnvironment
  · have hcontent : w.content (valueOf db w.projectId w.id) = none := by
      rw [EntryWrite.content, hdeletes.1, hdeletes.2]
    rw [if_pos ⟨rfl, hdeletes⟩, hcontent] at hput
    rw [hcontent, hput]
    have hlossless := Record.lossless_of_none hlimit (SecretContent.setValue w.id none)
      (SecretContent.setValue w.id none) (hrecord ▸ hnone hdeletes) after
    rw [← hrecord, hbase] at hlossless
    exact hlossless
  · rw [if_neg fun h => hdeletes h.2] at hput
    rw [hput]
    have hlossless := Record.lossless hlimit before (w.content (valueOf db w.projectId w.id)) after
    rw [← hrecord, hbase] at hlossless
    exact hlossless

end Content

end Zvault
