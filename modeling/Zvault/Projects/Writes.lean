import Zvault.Projects.Store

/-!
# What an entry write stores

`writeEntry` either leaves the database alone or writes one entry at the next
position of its project's feed, with the content that goes with it. `Written`
says so table by table.
-/

namespace Zvault

open Relational ProjectsStore

variable {db db' : Db} {w : EntryWrite}

/-- The entry of an environment a project starts with, `i` its place in the list. -/
def firstEntry (p : NewProject) (i : ℕ) (e : NewEnvironment) : EntryRow where
  projectId := p.id
  id := e.id
  type := .environment
  revision := 1
  seq := i + 1
  deleted := false
  encryptedMeta := some e.encryptedMeta
  updatedAt := p.now

/-- The key grant of a project's owner. -/
def ownGrant (p : NewProject) (resourceId : Uuid) (wrappedKey : EncryptedBlob) : KeyGrantRow where
  projectId := p.id
  resourceId := resourceId
  accountId := p.ownerId
  wrappedKey := wrappedKey
  box := none

/-- What creating a project leaves. -/
structure Created (db db' : Db) (p : NewProject) : Prop where
  /-- The id was free. -/
  free : ∀ r ∈ db.projects, r.id ≠ p.id
  projects : ∃ row : ProjectRow, row.id = p.id ∧ row.seq = p.environments.length ∧
    db'.projects = db.projects.insertNew row
  entries : ∀ e, e ∈ db'.projectEntries ↔ e ∈ db.projectEntries ∨
    ∃ i, ∃ hi : i < p.environments.length, e = firstEntry p i p.environments[i]
  keyGrants : ∀ g, g ∈ db'.keyGrants ↔ g ∈ db.keyGrants ∨ g = ownGrant p p.id p.encryptedKey ∨
    ∃ e ∈ p.environments, g = ownGrant p e.id e.encryptedKey
  /-- Nothing else in the state changes. -/
  frame : db' = { db with
    projects := db'.projects, keyGrants := db'.keyGrants, projectEntries := db'.projectEntries }

theorem createProject_eq_some {p : NewProject} (h : createProject db p = some db') :
    Created db db' p := by
  unfold createProject at h
  split at h
  · cases h
  rename_i hfree
  dsimp only at h
  split at h
  swap
  · cases h
  rename_i keyGrants projectEntries hgrants hentries
  cases h
  refine ⟨Table.hasKey_eq_false.mp (by simpa using hfree), ⟨_, rfl, rfl, rfl⟩, fun e => ?_,
    fun g => ?_, rfl⟩
  · change e ∈ projectEntries ↔ _
    rw [Table.mem_insertAll hentries, List.mem_mapIdx]
    exact or_congr_right (exists_congr fun i => exists_congr fun hi => eq_comm)
  · change g ∈ keyGrants ↔ _
    rw [Table.mem_insertAll hgrants, List.mem_cons, List.mem_map]
    exact or_congr_right (or_congr_right (exists_congr fun e => and_congr_right fun _ => eq_comm))

/-- What an accepted entry write leaves, with `seq` the position of the written entry. -/
structure Written (db db' : Db) (w : EntryWrite) (seq : ℕ) : Prop where
  /-- No check refused it. -/
  accepted : entryRefusal db w (db.projectEntries.find (w.projectId, w.id)) = none
  /-- The position is the next one of the project. -/
  next : ∃ p ∈ db.projects, p.id = w.projectId ∧ seq = p.seq + 1
  projects : db'.projects = db.projects.update (fun p => p.id = w.projectId)
    (fun p => { p with seq := seq })
  /-- The written entry takes the place of the one under its id. -/
  entries : ∀ e, e ∈ db'.projectEntries ↔
    (e ∈ db.projectEntries ∧ e.key ≠ (w.projectId, w.id)) ∨ e = writtenRow w seq
  secretValues : db'.secretValues = (writeContent db w).secretValues
  keyGrants : db'.keyGrants = (writeContent db w).keyGrants
  environmentAccess : db'.environmentAccess = (writeContent db w).environmentAccess
  /-- A value in a kept version was in one before, or was a current value of the secret. -/
  versions : ∀ v ∈ db'.secretVersions, ∀ x ∈ v.values,
    (∃ v₀ ∈ db.secretVersions, v₀.projectId = v.projectId ∧ x ∈ v₀.values) ∨
      (v.projectId = w.projectId ∧ ∃ u ∈ db.secretValues, u.projectId = w.projectId ∧
        x = (u.environmentId, u.encryptedValue))
  /-- No kept version holds a value of a deleted environment. -/
  forgotten : w.type = .environment → w.encryptedMeta = none →
    ∀ v ∈ db'.secretVersions, v.projectId = w.projectId → ∀ x ∈ v.values, x.1 ≠ w.id

/-- Writing an entry's row replaces the one under its id. -/
theorem mem_upsert_writtenRow {t : Table EntryRow.key} {seq : ℕ} {e : EntryRow} :
    e ∈ t.upsert (writtenRow w seq)
        (fun e => { writtenRow w seq with projectId := e.projectId, id := e.id }) ↔
      (e ∈ t ∧ e.key ≠ (w.projectId, w.id)) ∨ e = writtenRow w seq := by
  rw [Table.mem_upsert]
  refine or_congr Iff.rfl ?_
  constructor
  · rintro (⟨x, _, hkey, rfl⟩ | ⟨rfl, _⟩)
    · have hproject : x.projectId = w.projectId := congrArg Prod.fst hkey
      have hid : x.id = w.id := congrArg Prod.snd hkey
      simp only [hproject, hid, writtenRow]
    · rfl
  · rintro rfl
    by_cases hold : ∃ x ∈ t, x.key = (writtenRow w seq).key
    · obtain ⟨x, hx, hkey⟩ := hold
      have hproject : x.projectId = w.projectId := congrArg Prod.fst hkey
      have hid : x.id = w.id := congrArg Prod.snd hkey
      exact Or.inl ⟨x, hx, hkey, by simp only [hproject, hid, writtenRow]⟩
    · exact Or.inr ⟨rfl, fun x hx hkey => hold ⟨x, hx, hkey⟩⟩

/-- Keeping a version only touches the kept versions, and keeps the secret's values. -/
theorem keepReplaced_eq_some {current : Option EntryRow}
    (hcurrent : ∀ c, current = some c → c.projectId = w.projectId)
    (h : keepReplaced db w current = some db') :
    (∃ secretVersions, db' = { db with secretVersions := secretVersions }) ∧
      ∀ v ∈ db'.secretVersions, v ∈ db.secretVersions ∨ (v.projectId = w.projectId ∧
        ∀ x ∈ v.values, ∃ u ∈ db.secretValues, u.projectId = w.projectId ∧
          x = (u.environmentId, u.encryptedValue)) := by
  have hsame (h : some db = some db') :
      (∃ secretVersions, db' = { db with secretVersions := secretVersions }) ∧
        ∀ v ∈ db'.secretVersions, v ∈ db.secretVersions ∨ (v.projectId = w.projectId ∧
          ∀ x ∈ v.values, ∃ u ∈ db.secretValues, u.projectId = w.projectId ∧
            x = (u.environmentId, u.encryptedValue)) := by
    cases h
    exact ⟨⟨_, rfl⟩, fun v hv => Or.inl hv⟩
  unfold keepReplaced at h
  split at h
  swap
  · exact hsame h
  rename_i c _
  split at h
  swap
  · exact hsame h
  rename_i encryptedMeta _ _
  unfold keepSecretVersion at h
  dsimp only at h
  split at h
  · cases h
  rename_i secretVersions hinsert
  cases h
  refine ⟨⟨_, rfl⟩, fun v hv => ?_⟩
  have hv := (Table.mem_delete.mp hv).1
  rcases (Table.mem_insertAll hinsert v).mp hv with hold | hnew
  · exact Or.inl hold
  · rw [List.mem_singleton] at hnew
    subst hnew
    refine Or.inr ⟨hcurrent c rfl, fun x hx => ?_⟩
    obtain ⟨u, hu, rfl⟩ := List.mem_map.mp hx
    simp only [Table.mem_select, decide_eq_true_eq] at hu
    exact ⟨u, hu.1, hu.2.1.trans (hcurrent c rfl), rfl⟩

/-- The content of a write does not depend on the feed or the kept versions. -/
theorem writeContent_congr (db : Db) (w : EntryWrite) (projects : Table ProjectRow.id)
    (projectEntries : Table EntryRow.key) (secretVersions : Table SecretVersionRow.key) :
    let db₁ := { db with
      projects := projects, projectEntries := projectEntries, secretVersions := secretVersions }
    (writeContent db₁ w).projects = projects ∧
      (writeContent db₁ w).projectEntries = projectEntries ∧
      (writeContent db₁ w).secretValues = (writeContent db w).secretValues ∧
      (writeContent db₁ w).keyGrants = (writeContent db w).keyGrants ∧
      (writeContent db₁ w).environmentAccess = (writeContent db w).environmentAccess := by
  dsimp only
  unfold writeContent
  split <;> exact ⟨rfl, rfl, rfl, rfl, rfl⟩

/-- Kept versions only forget the values of a deleted environment. -/
theorem mem_writeContent_versions {v : SecretVersionRow}
    (hv : v ∈ (writeContent db w).secretVersions) :
    (∃ v₀ ∈ db.secretVersions, v₀.projectId = v.projectId ∧ ∀ x ∈ v.values, x ∈ v₀.values) ∧
      (w.type = .environment → w.encryptedMeta = none → v.projectId = w.projectId →
        ∀ x ∈ v.values, x.1 ≠ w.id) := by
  unfold writeContent at hv
  split at hv
  · simp only [deleteEnvironment, dropVersionValues, Table.mem_update, decide_eq_true_eq] at hv
    obtain ⟨v₀, hv₀, rfl⟩ := hv
    split
    · refine ⟨⟨v₀, hv₀, rfl, fun x hx => (List.mem_filter.mp hx).1⟩, fun _ _ _ x hx => ?_⟩
      exact of_decide_eq_true (List.mem_filter.mp hx).2
    · rename_i hne
      exact ⟨⟨v₀, hv₀, rfl, fun _ hx => hx⟩, fun _ _ hproject => absurd hproject hne⟩
  all_goals
    refine ⟨⟨v, hv, rfl, fun _ hx => hx⟩, fun htype hmeta => ?_⟩
    simp_all

/-- The writes of an accepted entry write. -/
theorem applyEntryWrite_eq_some {p : ProjectRow} (hp : p ∈ db.projects) (hid : p.id = w.projectId)
    (haccepted : entryRefusal db w (db.projectEntries.find (w.projectId, w.id)) = none)
    (h : applyEntryWrite db w (p.seq + 1) (db.projectEntries.find (w.projectId, w.id)) =
      some db') : Written db db' w (p.seq + 1) := by
  unfold applyEntryWrite at h
  dsimp only at h
  split at h
  · cases h
  rename_i db₁ hkeep
  have hcurrent (c : EntryRow) (hc : db.projectEntries.find (w.projectId, w.id) = some c) :
      c.projectId = w.projectId :=
    congrArg Prod.fst (Table.find_eq_some.mp hc).2
  obtain ⟨⟨secretVersions, rfl⟩, hversions⟩ := keepReplaced_eq_some hcurrent hkeep
  dsimp only at hversions
  cases h
  obtain ⟨hprojects, hentries, hvalues, hgrants, haccess⟩ :=
    writeContent_congr db w (db.projects.update (fun p => p.id = w.projectId)
      (fun x => { x with seq := p.seq + 1 }))
      (db.projectEntries.upsert (writtenRow w (p.seq + 1))
        (fun e => { writtenRow w (p.seq + 1) with projectId := e.projectId, id := e.id }))
      secretVersions
  refine ⟨haccepted, ⟨p, hp, hid, rfl⟩, hprojects, fun e => ?_, hvalues, hgrants, haccess,
    fun v hv x hx => ?_, fun htype hmeta v hv hproject x hx => ?_⟩
  · rw [hentries, mem_upsert_writtenRow]
  · obtain ⟨⟨v₀, hv₀, hproject, hsub⟩, _⟩ := mem_writeContent_versions hv
    rcases hversions v₀ hv₀ with hold | ⟨hkept, hvalue⟩
    · exact Or.inl ⟨v₀, hold, hproject, hsub x hx⟩
    · exact Or.inr ⟨hproject ▸ hkept, hvalue x (hsub x hx)⟩
  · exact (mem_writeContent_versions hv).2 htype hmeta hproject x hx

/-- What passing the checks says of the entry a write replaces. -/
theorem entryRefusal_eq_none {current : Option EntryRow} (h : entryRefusal db w current = none) :
    (∀ c, current = some c → c.type = w.type) ∧
      (current.map EntryRow.revision).getD 0 = w.baseRevision ∧
      (w.values ≠ [] → (db.projectEntries.select fun e => e.projectId = w.projectId ∧
        e.isLiveEnvironment ∧ e.id ∈ w.values.map Prod.fst).length = w.values.length) := by
  unfold entryRefusal at h
  split_ifs at h with htype hrevision _ _ hvalues
  · split at h <;> cases h
  refine ⟨?_, by simpa using hrevision, fun hne => ?_⟩
  · rintro c rfl
    simpa using htype
  · by_contra hlength
    exact hvalues ⟨hne, hlength⟩

/-- The environments that an accepted write has values for are live ones of its project, each
with one value. -/
theorem Written.values_perm {seq : ℕ} (h : Written db db' w seq) (hne : w.values ≠ []) :
    ∃ rows : List EntryRow, (∀ e ∈ rows, e ∈ db.projectEntries ∧ e.projectId = w.projectId ∧
        e.isLiveEnvironment = true) ∧
      (rows.map EntryRow.id).Nodup ∧ (rows.map EntryRow.id).Perm (w.values.map Prod.fst) := by
  have hlength := (entryRefusal_eq_none h.accepted).2.2 hne
  generalize hrows : (db.projectEntries.select fun e => e.projectId = w.projectId ∧
    e.isLiveEnvironment ∧ e.id ∈ w.values.map Prod.fst) = rows at hlength
  have hmem (e : EntryRow) : e ∈ rows ↔ e ∈ db.projectEntries ∧ e.projectId = w.projectId ∧
      e.isLiveEnvironment = true ∧ e.id ∈ w.values.map Prod.fst := by
    rw [← hrows, Table.mem_select, decide_eq_true_eq]
  have hids : (rows.map EntryRow.id).Nodup := by
    have hkeys : (rows.map EntryRow.key).Nodup := by
      rw [← hrows]
      exact db.projectEntries.nodup_select _
    refine (List.nodup_map_iff_inj_on (List.Nodup.of_map _ hkeys)).mpr fun e he f hf heq => ?_
    exact List.inj_on_of_nodup_map hkeys he hf
      (Prod.ext (((hmem e).mp he).2.1.trans ((hmem f).mp hf).2.1.symm) heq)
  have hsubset : rows.map EntryRow.id ⊆ w.values.map Prod.fst := by
    intro x hx
    obtain ⟨e, he, rfl⟩ := List.mem_map.mp hx
    exact ((hmem e).mp he).2.2.2
  refine ⟨rows, fun e he => ?_, hids,
    (List.subperm_of_subset hids hsubset).perm_of_length_le (by simp [hlength])⟩
  obtain ⟨he, hproject, hlive, -⟩ := (hmem e).mp he
  exact ⟨he, hproject, hlive⟩

/-- Every environment an accepted write has a value for is a live one of its project. -/
theorem Written.values_live {seq : ℕ} (h : Written db db' w seq) {id : Uuid}
    (hid : id ∈ w.values.map Prod.fst) :
    ∃ e ∈ db.projectEntries, e.projectId = w.projectId ∧ e.isLiveEnvironment = true ∧
      e.id = id := by
  obtain ⟨rows, hrows, -, hperm⟩ := h.values_perm (by rintro heq; simp [heq] at hid)
  obtain ⟨e, he, heq⟩ := List.mem_map.mp (hperm.mem_iff.mpr hid)
  obtain ⟨he, hproject, hlive⟩ := hrows e he
  exact ⟨e, he, hproject, hlive, heq⟩

/-- An accepted write has one value for an environment. -/
theorem Written.nodup_values {seq : ℕ} (h : Written db db' w seq) :
    (w.values.map Prod.fst).Nodup := by
  by_cases hne : w.values = []
  · rw [hne]
    exact List.nodup_nil
  · obtain ⟨rows, -, hnodup, hperm⟩ := h.values_perm hne
    exact hperm.nodup_iff.mp hnodup

/-- A refusal is never an answer with an entry. -/
theorem entryRefusal_ne_ok {current : Option EntryRow} {r : EntryWriteResult}
    (h : entryRefusal db w current = some r) (entry : ProjectEntry) : r ≠ .ok entry := by
  rintro rfl
  unfold entryRefusal at h
  split_ifs at h
  all_goals first | cases h | (split at h <;> cases h)

/-- A write is stored as `Written` says, or the database stays as it was. -/
theorem writeEntry_cases (db : Db) (w : EntryWrite) :
    (∃ seq, Written db (writeEntry db w).2 w seq ∧ (writeEntry db w).1 =
      .ok (hydrateRow (writeEntry db w).2 w.projectId w.viewer (writtenRow w seq))) ∨
      ((writeEntry db w).2 = db ∧ ∀ entry, (writeEntry db w).1 ≠ .ok entry) := by
  unfold writeEntry
  split
  · exact Or.inr ⟨rfl, fun _ h => by cases h⟩
  rename_i p hfind
  obtain ⟨hp, hid⟩ := Table.find_eq_some.mp hfind
  dsimp only
  split
  · rename_i r hr
    exact Or.inr ⟨rfl, entryRefusal_ne_ok hr⟩
  rename_i haccepted
  split
  · exact Or.inr ⟨rfl, fun _ h => by cases h⟩
  rename_i db' happly
  exact Or.inl ⟨p.seq + 1, applyEntryWrite_eq_some hp hid haccepted happly, rfl⟩

end Zvault
