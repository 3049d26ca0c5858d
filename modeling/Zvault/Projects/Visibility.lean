import Zvault.Access.Upkeep
import Zvault.Db.Schema
import Zvault.Projects.Reads

/-!
# What a viewer can read

Two databases that differ only in values of environments whose key a viewer does
not hold answer every read of that viewer alike, and a read returns values of
environments whose key the viewer holds and of no other.
-/

namespace Zvault

open Relational

/-- A kept version without the values its viewer holds no key for. -/
def SecretVersionRow.masked (db : Db) (viewer : Uuid) (v : SecretVersionRow) : SecretVersionRow :=
  { v with values := v.values.filter fun e => HoldsEnvironmentKey db v.projectId e.1 viewer }

/-- Two databases that differ only in values, and kept version values, of environments whose
key the viewer holds no grant of. -/
structure SameForViewer (db db' : Db) (viewer : Uuid) : Prop where
  rest : db' = { db with secretValues := db'.secretValues, secretVersions := db'.secretVersions }
  values : (db'.secretValues.select fun v =>
      HoldsEnvironmentKey db v.projectId v.environmentId viewer) =
    db.secretValues.select fun v => HoldsEnvironmentKey db v.projectId v.environmentId viewer
  versions : db'.secretVersions.rows.map (SecretVersionRow.masked db viewer) =
    db.secretVersions.rows.map (SecretVersionRow.masked db viewer)

/-- The reads of the projects API that return values. -/
inductive ProjectRead where
  | sync (since limit : ℕ)
  | listChanges (since limit : ℕ)
  | secretHistory (secretId : Uuid)
  | trash

/-- The answer to a read. -/
inductive ReadAnswer where
  | page (page : SyncProjectResponse)
  | changes (entries : List ProjectEntry)
  | history (versions : List SecretVersion)
  | trash (secrets : List TrashedSecret)

/-- The values of an entry, by environment. -/
def ProjectEntry.sealedValues (e : ProjectEntry) : List (Uuid × EncryptedBlob) :=
  e.values.map fun v => (v.environmentId, v.encryptedValue)

/-- Every value an answer carries, with its environment. -/
def ReadAnswer.values : ReadAnswer → List (Uuid × EncryptedBlob)
  | .page response => response.entries.flatMap ProjectEntry.sealedValues
  | .changes es => es.flatMap ProjectEntry.sealedValues
  | .history vs => vs.flatMap SecretVersion.values
  | .trash ts => ts.flatMap fun t => t.lastVersion.values

/-- Serves a read. -/
def ProjectRead.serve (db : Db) (viewer projectId : Uuid) (now : Timestamp) :
    ProjectRead → Except ApiError ReadAnswer
  | .sync since limit =>
    (ProjectsService.sync db viewer projectId since limit now).1.map ReadAnswer.page
  | .listChanges since limit =>
    .ok (.changes (ProjectsStore.listChanges db projectId viewer since limit))
  | .secretHistory secretId =>
    (ProjectsService.secretHistory db viewer projectId secretId now).1.map ReadAnswer.history
  | .trash => (ProjectsService.trash db viewer projectId now).1.map ReadAnswer.trash

/-- The database a read takes its answer from: requests drop lapsed key grants first. -/
def ProjectRead.source (db : Db) (projectId : Uuid) (now : Timestamp) : ProjectRead → Db
  | .listChanges _ _ => db
  | _ => ProjectPolicy.beforeAccess db projectId now

namespace SameForViewer

open ProjectsStore

variable {db db' : Db} {viewer : Uuid}

theorem keyGrants (h : SameForViewer db db' viewer) : db'.keyGrants = db.keyGrants := by
  rw [h.rest]

theorem holds (h : SameForViewer db db' viewer) (projectId environmentId : Uuid) :
    HoldsEnvironmentKey db' projectId environmentId viewer ↔
      HoldsEnvironmentKey db projectId environmentId viewer := by
  simp only [HoldsEnvironmentKey, h.keyGrants]

end SameForViewer

namespace ProjectsStore

variable {db db' : Db} {viewer projectId : Uuid}

/-- A hydrated entry carries values of environments the viewer holds only. -/
theorem mem_hydrate_values {rows : List EntryRow} {e : ProjectEntry}
    (he : e ∈ hydrate db projectId viewer rows) {x : Uuid × EncryptedBlob}
    (hx : x ∈ e.sealedValues) : HoldsEnvironmentKey db projectId x.1 viewer := by
  simp only [hydrate, hydrateWith, List.mem_map] at he
  obtain ⟨row, _, rfl⟩ := he
  simp only [ProjectEntry.sealedValues, List.mem_map] at hx
  obtain ⟨r, hr, rfl⟩ := hx
  obtain ⟨_, v, _, _, _, henv, rfl⟩ := mem_valuesOf.mp (mem_wireEntry_values.mp hr).2.2.2
  exact mem_viewerEnvironments.mp henv

/-- A kept version is sent with values of environments the viewer holds only. -/
theorem mem_toSecretVersion_values {v : SecretVersionRow} {x : Uuid × EncryptedBlob}
    (h : x ∈ (toSecretVersion v (viewerEnvironments db projectId viewer)).values) :
    HoldsEnvironmentKey db projectId x.1 viewer := by
  simp only [toSecretVersion, List.mem_insertionSort, List.mem_filter, decide_eq_true_eq] at h
  exact mem_viewerEnvironments.mp h.2

/-- A kept version is sent as if its hidden values were not there. -/
theorem toSecretVersion_masked (db : Db) (viewer : Uuid) (v : SecretVersionRow) :
    toSecretVersion (v.masked db viewer) (viewerEnvironments db v.projectId viewer) =
      toSecretVersion v (viewerEnvironments db v.projectId viewer) := by
  have hvalues : (v.masked db viewer).values.filter
      (fun e => e.1 ∈ viewerEnvironments db v.projectId viewer) =
      v.values.filter fun e => e.1 ∈ viewerEnvironments db v.projectId viewer := by
    simp only [SecretVersionRow.masked, List.filter_filter, mem_viewerEnvironments, Bool.and_self]
  simp only [toSecretVersion, hvalues]
  rfl

variable (h : SameForViewer db db' viewer)
include h

theorem viewerEnvironments_eq : viewerEnvironments db' projectId viewer =
    viewerEnvironments db projectId viewer := by
  simp only [viewerEnvironments, h.keyGrants]

theorem valuesOf_eq (rows : List EntryRow) :
    valuesOf db' projectId (viewerEnvironments db' projectId viewer) rows =
      valuesOf db projectId (viewerEnvironments db projectId viewer) rows := by
  have hselect (ids : List Uuid) : (db'.secretValues.select fun v => v.projectId = projectId ∧
        v.secretId ∈ ids ∧ v.environmentId ∈ viewerEnvironments db projectId viewer) =
      db.secretValues.select fun v => v.projectId = projectId ∧ v.secretId ∈ ids ∧
        v.environmentId ∈ viewerEnvironments db projectId viewer := by
    have hvisible (t : Table SecretValueRow.key) : (t.select fun v => v.projectId = projectId ∧
        v.secretId ∈ ids ∧ v.environmentId ∈ viewerEnvironments db projectId viewer) =
        (t.select fun v => HoldsEnvironmentKey db v.projectId v.environmentId viewer).filter
          fun v => v.projectId = projectId ∧ v.secretId ∈ ids := by
      simp only [Table.select, List.filter_filter]
      apply List.filter_congr
      intro v _
      rw [← Bool.decide_and, decide_eq_decide, mem_viewerEnvironments]
      constructor
      · rintro ⟨rfl, hid, hheld⟩
        exact ⟨⟨rfl, hid⟩, hheld⟩
      · rintro ⟨⟨rfl, hid⟩, hheld⟩
        exact ⟨rfl, hid, hheld⟩
    rw [hvisible, hvisible, h.values]
  funext secretId
  simp only [valuesOf, viewerEnvironments_eq h, hselect]

/-- `hydrate` does not depend on hidden values. -/
theorem hydrate_eq (rows : List EntryRow) :
    hydrate db' projectId viewer rows = hydrate db projectId viewer rows := by
  have hkeys : keysOf db' projectId viewer = keysOf db projectId viewer := by
    funext id
    simp only [keysOf, h.keyGrants]
  simp only [hydrate, hydrateWith, hkeys, valuesOf_eq h]

theorem listChanges_eq (since limit : ℕ) :
    listChanges db' projectId viewer since limit = listChanges db projectId viewer since limit := by
  have hrows : changedRows db' projectId since limit = changedRows db projectId since limit := by
    rw [h.rest]
    rfl
  rw [listChanges, hrows, hydrate_eq h, listChanges]

/-- The kept versions of a secret, newest first, as the viewer may see them. -/
theorem sortedVersions_eq (secretId : Uuid) :
    ((db'.secretVersions.select fun v => v.projectId = projectId ∧ v.secretId = secretId).insertionSort
        fun a b => b.revision ≤ a.revision).map
        (fun v => toSecretVersion v (viewerEnvironments db projectId viewer)) =
      ((db.secretVersions.select fun v => v.projectId = projectId ∧ v.secretId = secretId).insertionSort
        fun a b => b.revision ≤ a.revision).map
        fun v => toSecretVersion v (viewerEnvironments db projectId viewer) := by
  have hmasked (t : Table SecretVersionRow.key) :
      ((t.select fun v => v.projectId = projectId ∧ v.secretId = secretId).insertionSort
          fun a b => b.revision ≤ a.revision).map
          (fun v => toSecretVersion v (viewerEnvironments db projectId viewer)) =
        (((t.rows.map (SecretVersionRow.masked db viewer)).filter fun v =>
            v.projectId = projectId ∧ v.secretId = secretId).insertionSort
          fun a b => b.revision ≤ a.revision).map
          fun v => toSecretVersion v (viewerEnvironments db projectId viewer) := by
    have hfilter : (t.rows.map (SecretVersionRow.masked db viewer)).filter (fun v =>
        v.projectId = projectId ∧ v.secretId = secretId) =
        (t.select fun v => v.projectId = projectId ∧ v.secretId = secretId).map
          (SecretVersionRow.masked db viewer) := by
      rw [List.filter_map]
      rfl
    have hsort (rows : List SecretVersionRow) :
        (rows.insertionSort fun a b => b.revision ≤ a.revision).map
            (SecretVersionRow.masked db viewer) =
          (rows.map (SecretVersionRow.masked db viewer)).insertionSort
            fun a b => b.revision ≤ a.revision :=
      List.map_insertionSort _ _ _ rows fun _ _ _ _ => Iff.rfl
    rw [hfilter, ← hsort, List.map_map]
    apply List.map_congr_left
    intro v hv
    simp only [List.mem_insertionSort, Table.mem_select, decide_eq_true_eq] at hv
    rw [Function.comp_apply, ← hv.2.1, toSecretVersion_masked]
  rw [hmasked, hmasked, h.versions]

theorem listSecretVersions_eq (secretId : Uuid) :
    listSecretVersions db' projectId secretId viewer =
      listSecretVersions db projectId secretId viewer := by
  simp only [listSecretVersions, viewerEnvironments_eq h, sortedVersions_eq h]

theorem listTrash_eq (since : Timestamp) :
    listTrash db' projectId since viewer = listTrash db projectId since viewer := by
  have hentries : db'.projectEntries = db.projectEntries := by rw [h.rest]
  have hlast {e : EntryRow} (hp : e.projectId = projectId) :
      (lastVersion db' e).map (fun v => toSecretVersion v (viewerEnvironments db projectId viewer)) =
        (lastVersion db e).map
          fun v => toSecretVersion v (viewerEnvironments db projectId viewer) := by
    simp only [lastVersion, ← List.head?_map, hp, sortedVersions_eq h]
  simp only [listTrash, hentries, viewerEnvironments_eq h, List.map_filterMap]
  congr 1
  apply List.filterMap_congr
  intro e he
  simp only [List.mem_insertionSort, Table.mem_select, decide_eq_true_eq] at he
  have hrecord := congrArg (Option.map fun version => (⟨e.id, e.revision, e.updatedAt, version⟩ :
    StoredTrashedSecret)) (hlast he.2.1)
  simpa only [Option.map_map, Function.comp_def] using hrecord

end ProjectsStore

/-- A database with other values and kept versions. -/
def Db.withValues (db : Db) (values : Table SecretValueRow.key)
    (versions : Table SecretVersionRow.key) : Db :=
  { db with secretValues := values, secretVersions := versions }

namespace AccessFacts

variable {db : Db} {values : Table SecretValueRow.key} {versions : Table SecretVersionRow.key}
  {project : LinkedProject} {now : Timestamp}

theorem register_withValues : register (db.withValues values versions) project now =
    ((register db project now).1, (register db project now).2.withValues values versions) := by
  have hids : environmentIds (db.withValues values versions) project.projectId =
      environmentIds db project.projectId := rfl
  have hnew : unregistered (db.withValues values versions) project.projectId =
      unregistered db project.projectId := rfl
  unfold register
  rw [hids, hnew]
  dsimp only
  split
  · rfl
  · dsimp only
    split <;> rfl

theorem projectLevels_withValues : projectLevels (db.withValues values versions) project now =
    ((projectLevels db project now).1,
      (projectLevels db project now).2.withValues values versions) := by
  unfold projectLevels
  rw [register_withValues]
  rfl

theorem projectKeyHolders_withValues :
    projectKeyHolders (db.withValues values versions) project now =
      ((projectKeyHolders db project now).1,
        (projectKeyHolders db project now).2.withValues values versions) := by
  unfold projectKeyHolders
  rw [projectLevels_withValues]
  rfl

/-- Reconciling does not read values. -/
theorem reconcileProject_withValues (projectId : Uuid) :
    reconcileProject (db.withValues values versions) projectId now =
      (reconcileProject db projectId now).withValues values versions := by
  have hlinked : linkedProject (db.withValues values versions) projectId =
      linkedProject db projectId := rfl
  unfold reconcileProject
  rw [hlinked]
  cases linkedProject db projectId with
  | none => rfl
  | some project =>
    simp only [projectLevels_withValues, projectKeyHolders_withValues]
    rw [apply_ite fun db => Db.withValues db values versions]
    rfl

end AccessFacts

namespace SameForViewer

variable {db db' : Db} {viewer : Uuid}

/-- Reconciling before a read keeps two databases alike for the viewer. -/
theorem reconcileProject (h : SameForViewer db db' viewer) (projectId : Uuid) (now : Timestamp) :
    SameForViewer (AccessFacts.reconcileProject db projectId now)
      (AccessFacts.reconcileProject db' projectId now) viewer := by
  have hupkept := Upkept.reconcile db projectId now
  have hheld {p e : Uuid} (hheld : HoldsEnvironmentKey
      (AccessFacts.reconcileProject db projectId now) p e viewer) :
      HoldsEnvironmentKey db p e viewer := by
    obtain ⟨hne, g, hg, hkey⟩ := hheld
    exact ⟨hne, g, hupkept.keyGrants g hg, hkey⟩
  have heq : AccessFacts.reconcileProject db' projectId now =
      (AccessFacts.reconcileProject db projectId now).withValues db'.secretValues
        db'.secretVersions := by
    rw [h.rest]
    exact AccessFacts.reconcileProject_withValues projectId
  refine ⟨by rw [heq]; rfl, ?_, ?_⟩
  · have hfilter (t : Table SecretValueRow.key) : (t.select fun v => HoldsEnvironmentKey
        (AccessFacts.reconcileProject db projectId now) v.projectId v.environmentId viewer) =
        (t.select fun v => HoldsEnvironmentKey db v.projectId v.environmentId viewer).filter
          fun v => HoldsEnvironmentKey (AccessFacts.reconcileProject db projectId now) v.projectId
            v.environmentId viewer := by
      simp only [Table.select, List.filter_filter]
      apply List.filter_congr
      intro v _
      rw [← Bool.decide_and, decide_eq_decide]
      exact ⟨fun hnew => ⟨hnew, hheld hnew⟩, And.left⟩
    rw [heq, hupkept.secretValues]
    exact (hfilter _).trans ((congrArg _ h.values).trans (hfilter _).symm)
  · have hmask (v : SecretVersionRow) :
        v.masked (AccessFacts.reconcileProject db projectId now) viewer =
          (v.masked db viewer).masked (AccessFacts.reconcileProject db projectId now) viewer := by
      have hvalues : v.values.filter (fun e => HoldsEnvironmentKey
          (AccessFacts.reconcileProject db projectId now) v.projectId e.1 viewer) =
          (v.values.filter fun e => HoldsEnvironmentKey db v.projectId e.1 viewer).filter fun e =>
            HoldsEnvironmentKey (AccessFacts.reconcileProject db projectId now) v.projectId e.1
              viewer := by
        rw [List.filter_filter]
        apply List.filter_congr
        intro e _
        rw [← Bool.decide_and, decide_eq_decide]
        exact ⟨fun hnew => ⟨hnew, hheld hnew⟩, And.left⟩
      simp only [SecretVersionRow.masked, hvalues]
      rfl
    have hrows (rows : List SecretVersionRow) :
        rows.map (SecretVersionRow.masked (AccessFacts.reconcileProject db projectId now) viewer) =
          (rows.map (SecretVersionRow.masked db viewer)).map
            (SecretVersionRow.masked (AccessFacts.reconcileProject db projectId now) viewer) := by
      rw [List.map_map]
      exact List.map_congr_left fun v _ => hmask v
    rw [heq, hupkept.secretVersions, hrows db.secretVersions.rows, ← h.versions, ← hrows]
    rfl

/-- The access check before a read answers alike, and leaves databases alike for the
viewer. -/
theorem access (h : SameForViewer db db' viewer) (projectId : Uuid) (now : Timestamp) :
    (ProjectsService.access db' viewer projectId now).1 =
        (ProjectsService.access db viewer projectId now).1 ∧
      SameForViewer (ProjectsService.access db viewer projectId now).2
        (ProjectsService.access db' viewer projectId now).2 viewer := by
  have hsame := h.reconcileProject projectId now
  have haccess : ProjectsStore.getAccess (AccessFacts.reconcileProject db' projectId now) projectId
      viewer = ProjectsStore.getAccess (AccessFacts.reconcileProject db projectId now) projectId
        viewer := by
    rw [hsame.rest]
    rfl
  unfold ProjectsService.access ProjectPolicy.beforeAccess
  simp only [haccess]
  split
  · exact ⟨rfl, hsame⟩
  · split <;> exact ⟨rfl, hsame⟩

/-- Every read answers alike. -/
theorem serve_eq (h : SameForViewer db db' viewer) (projectId : Uuid) (now : Timestamp)
    (read : ProjectRead) :
    read.serve db' viewer projectId now = read.serve db viewer projectId now := by
  obtain ⟨hanswer, hsame⟩ := h.access projectId now
  cases hold : ProjectsService.access db viewer projectId now with
  | mk answer db₁ =>
    cases hnew : ProjectsService.access db' viewer projectId now with
    | mk answer' db₁' =>
      rw [hold, hnew] at hanswer hsame
      dsimp only at hanswer hsame
      subst hanswer
      cases read with
      | listChanges since limit =>
        simp only [ProjectRead.serve, ProjectsStore.listChanges_eq h]
      | sync since limit =>
        simp only [ProjectRead.serve, ProjectsService.sync, hold, hnew]
        cases answer' with
        | error e => rfl
        | ok _ => simp only [ProjectsStore.listChanges_eq hsame]
      | secretHistory secretId =>
        simp only [ProjectRead.serve, ProjectsService.secretHistory, hold, hnew]
        cases answer' with
        | error e => rfl
        | ok _ => simp only [ProjectsStore.listSecretVersions_eq hsame]
      | trash =>
        simp only [ProjectRead.serve, ProjectsService.trash, hold, hnew]
        cases answer' with
        | error e => rfl
        | ok _ => simp only [ProjectsStore.listTrash_eq hsame]

end SameForViewer

open ProjectsStore in
/-- Every value a read returns is of an environment whose key the viewer holds. -/
theorem ProjectRead.values_held {db : Db} {viewer projectId : Uuid} {now : Timestamp}
    {read : ProjectRead} {answer : ReadAnswer}
    (h : read.serve db viewer projectId now = .ok answer) {x : Uuid × EncryptedBlob}
    (hx : x ∈ answer.values) : HoldsEnvironmentKey (read.source db projectId now) projectId x.1
      viewer := by
  have hsource := ProjectsService.access_snd db viewer projectId now
  cases hserved : ProjectsService.access db viewer projectId now with
  | mk access db₁ =>
    rw [hserved] at hsource
    dsimp only at hsource
    subst hsource
    cases read with
    | listChanges since limit =>
      cases h
      obtain ⟨e, he, hx⟩ := List.mem_flatMap.mp hx
      exact mem_hydrate_values he hx
    | sync since limit =>
      simp only [serve, ProjectsService.sync, hserved] at h
      cases access with
      | error e => cases h
      | ok _ =>
        cases h
        obtain ⟨e, he, hx⟩ := List.mem_flatMap.mp hx
        exact mem_hydrate_values (List.mem_of_mem_take he) hx
    | secretHistory secretId =>
      simp only [serve, ProjectsService.secretHistory, hserved] at h
      cases access with
      | error e => cases h
      | ok _ =>
        cases h
        obtain ⟨version, hversion, hx⟩ := List.mem_flatMap.mp hx
        simp only [listSecretVersions, List.mem_map] at hversion
        obtain ⟨v, _, rfl⟩ := hversion
        exact mem_toSecretVersion_values hx
    | trash =>
      simp only [serve, ProjectsService.trash, hserved] at h
      cases access with
      | error e => cases h
      | ok _ =>
        cases h
        obtain ⟨secret, hsecret, hx⟩ := List.mem_flatMap.mp hx
        simp only [listTrash, List.mem_map, List.mem_insertionSort, List.mem_filterMap] at hsecret
        obtain ⟨_, ⟨⟨e, v⟩, _, rfl⟩, rfl⟩ := hsecret
        exact mem_toSecretVersion_values hx

/-- **Server visibility is noninterfering.** Databases that differ only in values, and kept
version values, of environments whose key the viewer holds no grant of answer every read of
that viewer alike, and every value in an answer is of an environment whose key the viewer
holds. -/
theorem reads_noninterfering (db db' : Db) (viewer projectId : Uuid) (now : Timestamp)
    (read : ProjectRead) (h : SameForViewer db db' viewer) :
    read.serve db' viewer projectId now = read.serve db viewer projectId now ∧
      ∀ answer, read.serve db viewer projectId now = .ok answer →
        ∀ x ∈ answer.values,
          HoldsEnvironmentKey (read.source db projectId now) projectId x.1 viewer :=
  ⟨h.serve_eq projectId now read, fun _ hserve _ hx => ProjectRead.values_held hserve hx⟩

/-- `teamProject` with a second environment, 3, whose key account 11 does not hold, and a
secret with a value and a kept version in both; `ct` is what is stored in environment 3. -/
def hiddenValue (ct : ℕ) : Db :=
  { AccessFacts.teamProject with
    projectEntries := ⟨[⟨1, 2, .environment, 1, 1, false, some ⟨.record 2, 0, 0⟩, 0⟩,
      ⟨1, 3, .environment, 1, 2, false, some ⟨.record 3, 0, 0⟩, 0⟩,
      ⟨1, 4, .secret, 2, 4, false, some ⟨.record 4, 0, 0⟩, 0⟩], by decide⟩
    secretValues := ⟨[⟨1, 4, 2, ⟨.record 2, 0, 0⟩, 0⟩, ⟨1, 4, 3, ⟨.record 3, 0, ct⟩, 0⟩],
      by simp [SecretValueRow.key]⟩
    secretVersions := ⟨[⟨1, 4, 1, ⟨.record 4, 0, 0⟩,
      [(2, ⟨.record 2, 0, 1⟩), (3, ⟨.record 3, 0, ct⟩)], 0⟩], by simp⟩ }

/-- Account 11's sync of `hiddenValue` is the same whatever environment 3 holds, and every
value in it is of an environment whose key the account holds. -/
theorem hiddenValue_sync_alike :
    (ProjectRead.sync 0 10).serve (hiddenValue 7) 11 1 0 =
        (ProjectRead.sync 0 10).serve (hiddenValue 6) 11 1 0 ∧
      ∀ answer, (ProjectRead.sync 0 10).serve (hiddenValue 6) 11 1 0 = .ok answer →
        ∀ x ∈ answer.values,
          HoldsEnvironmentKey ((ProjectRead.sync 0 10).source (hiddenValue 6) 1 0) 1 x.1 11 :=
  reads_noninterfering (hiddenValue 6) (hiddenValue 7) 11 1 0 (.sync 0 10)
    ⟨rfl, by decide, by decide⟩

end Zvault
