import Zvault.Db.Schema
import Zvault.Feed.Page
import Zvault.Projects.Service

/-!
# What a page of `sync` holds

The entries of a project form a feed, of which `sync` serves one page: each
entry of the page as a wire record, with the values the viewer can open.
-/

namespace Zvault

open Relational

/-- A project's entries. -/
def entriesOf (db : Db) (projectId : Uuid) : List EntryRow :=
  db.projectEntries.select fun e => e.projectId = projectId

/-- A project's change counter. -/
def seqOf (db : Db) (projectId : Uuid) : ℕ :=
  match db.projects.find projectId with
  | some p => p.seq
  | none => 0

/-- A stored value as it is sent. -/
def SecretValueRow.record (v : SecretValueRow) : SecretValueRecord :=
  ⟨v.environmentId, v.encryptedValue, v.updatedAt⟩

theorem mem_entriesOf {db : Db} {projectId : Uuid} {e : EntryRow} :
    e ∈ entriesOf db projectId ↔ e ∈ db.projectEntries ∧ e.projectId = projectId := by
  simp only [entriesOf, Table.mem_select, decide_eq_true_eq]

/-- Entries of one project are identified by their ids. -/
theorem eq_of_mem_entriesOf {db : Db} {projectId : Uuid} {e f : EntryRow}
    (he : e ∈ entriesOf db projectId) (hf : f ∈ entriesOf db projectId) (hid : e.id = f.id) :
    e = f := by
  rw [mem_entriesOf] at he hf
  exact Table.eq_of_key_eq he.1 hf.1 (Prod.ext (he.2.trans hf.2.symm) hid)

namespace ProjectsStore

variable {db : Db} {viewer projectId : Uuid}

/-- The environments a read filters by are those whose key the viewer holds. -/
theorem mem_viewerEnvironments {id : Uuid} :
    id ∈ viewerEnvironments db projectId viewer ↔ HoldsEnvironmentKey db projectId id viewer := by
  simp only [viewerEnvironments, List.mem_filter, List.mem_map, Table.mem_select,
    decide_eq_true_eq, HoldsEnvironmentKey]
  constructor
  · rintro ⟨⟨g, ⟨hg, hp, hv⟩, rfl⟩, hne⟩
    exact ⟨hne, g, hg, hp, rfl, hv⟩
  · rintro ⟨hne, g, hg, hp, rfl, hv⟩
    exact ⟨⟨g, ⟨hg, hp, hv⟩, rfl⟩, hne⟩

/-- The values put on a secret: those stored for it in the given environments. -/
theorem mem_valuesOf {envIds : List Uuid} {rows : List EntryRow} {secretId : Uuid}
    {r : SecretValueRecord} :
    r ∈ valuesOf db projectId envIds rows secretId ↔
      (∃ e ∈ rows, e.type = .secret ∧ e.deleted = false ∧ e.id = secretId) ∧
        ∃ v ∈ db.secretValues, v.projectId = projectId ∧ v.secretId = secretId ∧
          v.environmentId ∈ envIds ∧ r = v.record := by
  have hids (id : Uuid) : id ∈ (rows.filter fun r =>
      r.type = .secret ∧ r.deleted = false).map EntryRow.id ↔
        ∃ e ∈ rows, e.type = .secret ∧ e.deleted = false ∧ e.id = id := by
    simp only [List.mem_map, List.mem_filter, decide_eq_true_eq, and_assoc]
  simp only [valuesOf, List.mem_map, List.mem_filter, decide_eq_true_eq]
  constructor
  · rintro ⟨v, ⟨hv, rfl⟩, rfl⟩
    split at hv
    swap
    · cases hv
    simp only [List.mem_insertionSort, Table.mem_select, decide_eq_true_eq] at hv
    exact ⟨(hids _).mp hv.2.2.1, v, hv.1, hv.2.1, rfl, hv.2.2.2, rfl⟩
  · rintro ⟨hrow, v, hv, hproject, rfl, henv, rfl⟩
    have hid := (hids _).mpr hrow
    refine ⟨v, ⟨?_, rfl⟩, rfl⟩
    rw [if_pos ⟨List.ne_nil_of_mem hid, List.ne_nil_of_mem henv⟩]
    simp only [List.mem_insertionSort, Table.mem_select, decide_eq_true_eq]
    exact ⟨hv, hproject, hid, henv⟩

/-- A wire record has the id, project, revision, position and time of its row. -/
@[simp] theorem wireEntry_base (keyOf : Uuid → Option EncryptedBlob)
    (valuesOf : Uuid → List SecretValueRecord) (r : EntryRow) :
    (wireEntry keyOf valuesOf r).base = ⟨r.id, r.projectId, r.revision, r.seq, r.updatedAt⟩ := by
  unfold wireEntry
  dsimp only
  split
  · rfl
  split
  · rfl
  split <;> rfl

/-- Only a live secret's record carries values. -/
theorem mem_wireEntry_values {keyOf : Uuid → Option EncryptedBlob}
    {valuesOf : Uuid → List SecretValueRecord} {row : EntryRow} {r : SecretValueRecord} :
    r ∈ (wireEntry keyOf valuesOf row).values ↔ row.type = .secret ∧ row.deleted = false ∧
      row.encryptedMeta.isSome = true ∧ r ∈ valuesOf row.id := by
  unfold wireEntry
  dsimp only
  split
  · simp_all [ProjectEntry.values]
  split
  · simp_all [ProjectEntry.values]
  split <;> simp_all [ProjectEntry.values]

/-- The rows of `listChanges` are a page of the project's feed. -/
theorem changedRows_eq (db : Db) (projectId : Uuid) (since limit : ℕ) :
    changedRows db projectId since limit =
      Feed.page EntryRow.seq (entriesOf db projectId) since limit := by
  have hfilter : (db.projectEntries.select fun e => e.projectId = projectId ∧ since < e.seq) =
      (entriesOf db projectId).filter fun e => since < e.seq := by
    simp only [entriesOf, Table.select, List.filter_filter]
    congr 1
    funext e
    simp [Bool.and_comm]
  rw [changedRows, hfilter, Feed.page, Feed.after]

end ProjectsStore

namespace ProjectsService

open ProjectsStore

variable {db db' : Db} {viewer projectId : Uuid} {since limit : ℕ} {now : Timestamp}

/-- What passes the access check reads from the database with lapsed grants dropped. -/
theorem access_snd (db : Db) (viewer projectId : Uuid) (now : Timestamp) :
    (access db viewer projectId now).2 = ProjectPolicy.beforeAccess db projectId now := by
  unfold access
  dsimp only
  split
  · rfl
  · split <;> rfl

/-- A served page: the wire records of a page of the feed, the cursor behind it, and
whether another entry follows. -/
structure Page (db : Db) (viewer projectId : Uuid) (since limit : ℕ)
    (res : SyncProjectResponse) : Prop where
  entries : res.entries = (Feed.page EntryRow.seq (entriesOf db projectId) since limit).map
    (wireEntry (keysOf db projectId viewer)
      (valuesOf db projectId (viewerEnvironments db projectId viewer)
        (Feed.page EntryRow.seq (entriesOf db projectId) since (limit + 1))))
  cursor : res.cursor = Feed.cursor EntryRow.seq
    (Feed.page EntryRow.seq (entriesOf db projectId) since limit) since
  hasMore : res.hasMore = decide
    (limit < (Feed.page EntryRow.seq (entriesOf db projectId) since (limit + 1)).length)

/-- `sync` drops lapsed grants and serves a page. -/
theorem sync_ok {res : SyncProjectResponse}
    (h : sync db viewer projectId since limit now = (.ok res, db')) :
    db' = ProjectPolicy.beforeAccess db projectId now ∧
      Page db' viewer projectId since limit res := by
  have hsource := access_snd db viewer projectId now
  unfold sync at h
  split at h
  · cases h
  rename_i haccess
  rw [haccess] at hsource
  cases h
  refine ⟨hsource, ?_, ?_, ?_⟩
  · simp only [listChanges, hydrate, hydrateWith, changedRows_eq, ← List.map_take, Feed.take_page]
  · simp only [listChanges, hydrate, hydrateWith, changedRows_eq, ← List.map_take, Feed.take_page,
      List.getLast?_map, Feed.cursor]
    cases (Feed.page EntryRow.seq (entriesOf _ projectId) since limit).getLast? <;> simp
  · simp only [listChanges, hydrate, hydrateWith, changedRows_eq, List.length_map]

end ProjectsService

end Zvault
