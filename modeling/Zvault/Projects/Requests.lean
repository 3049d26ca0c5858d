import Zvault.Projects.Recorded

/-!
# The requests of the projects service

Every request of the projects service is a chain of upkeep, followed by at most
one write of the store.
-/

namespace Zvault

open Relation ProjectsService

/-- A request to the projects service, with the time it is served at. -/
inductive ProjectRequest where
  | get (user projectId : Uuid) (now : Timestamp)
  | create (user : Uuid) (req : CreateProjectRequest) (now : Timestamp)
  | update (user projectId : Uuid) (req : UpdateProjectRequest) (now : Timestamp)
  | sync (user projectId : Uuid) (since limit : ℕ) (now : Timestamp)
  | putEnvironment (user projectId id : Uuid) (req : PutEnvironmentRequest) (now : Timestamp)
  | putFolder (user projectId id : Uuid) (req : PutFolderRequest) (now : Timestamp)
  | putSecret (user projectId id : Uuid) (req : PutSecretRequest) (now : Timestamp)
  | deleteEntry (user projectId : Uuid) (type : EntryType) (id : Uuid) (baseRevision : ℕ)
      (now : Timestamp)
  | secretHistory (user projectId secretId : Uuid) (now : Timestamp)
  | trash (user projectId : Uuid) (now : Timestamp)
  | purge (user projectId : Uuid) (secretId : Option Uuid) (now : Timestamp)

/-- The database a request leaves. -/
def ProjectRequest.serve (db : Db) : ProjectRequest → Db
  | .get user projectId now => (ProjectsService.get db user projectId now).2
  | .create user req now => (ProjectsService.create db user req now).2
  | .update user projectId req now => (ProjectsService.update db user projectId req now).2
  | .sync user projectId since limit now =>
    (ProjectsService.sync db user projectId since limit now).2
  | .putEnvironment user projectId id req now =>
    (ProjectsService.putEnvironment db user projectId id req now).2
  | .putFolder user projectId id req now =>
    (ProjectsService.putFolder db user projectId id req now).2
  | .putSecret user projectId id req now =>
    (ProjectsService.putSecret db user projectId id req now).2
  | .deleteEntry user projectId type id baseRevision now =>
    (ProjectsService.deleteEntry db user projectId type id baseRevision now).2
  | .secretHistory user projectId secretId now =>
    (ProjectsService.secretHistory db user projectId secretId now).2
  | .trash user projectId now => (ProjectsService.trash db user projectId now).2
  | .purge user projectId secretId now => (ProjectsService.purge db user projectId secretId now).2

/-- The requests that write entries. -/
def ProjectRequest.writesEntries : ProjectRequest → Bool
  | .create .. | .putEnvironment .. | .putFolder .. | .putSecret .. | .deleteEntry .. => true
  | _ => false

/-- A write that leaves the entries, their values and their keys alone, but for dropping
kept versions and lapsed grants. -/
inductive PlainWrite : Db → Db → Prop
  | upkeep {db db' : Db} (h : Upkeep db db') : PlainWrite db db'
  | update {db db' : Db} (projectId : Uuid) (baseRevision : ℕ) (encryptedMeta : EncryptedBlob)
      (now : Timestamp)
      (h : ProjectsStore.updateProject db projectId baseRevision encryptedMeta now = some db') :
      PlainWrite db db'
  | purge (db : Db) (projectId : Uuid) (secretId : Option Uuid) (before : Timestamp) :
      PlainWrite db (ProjectsStore.purgeTrash db projectId secretId before).2

/-- A chain of writes. -/
abbrev StoreWrites : Db → Db → Prop := ReflTransGen StoreWrite

/-- A chain of plain writes. -/
abbrev PlainWrites : Db → Db → Prop := ReflTransGen PlainWrite

variable {db : Db} {user projectId id : Uuid} {now : Timestamp}

theorem PlainWrite.storeWrite {db db' : Db} (h : PlainWrite db db') : StoreWrite db db' := by
  cases h with
  | upkeep h => exact .access (.upkeep h)
  | update projectId baseRevision encryptedMeta now h => exact .update _ _ _ _ h
  | purge projectId secretId before => exact .purge _ _ _ _

theorem PlainWrites.storeWrites {db db' : Db} (h : PlainWrites db db') : StoreWrites db db' :=
  h.lift (fun db => db) fun _ _ => PlainWrite.storeWrite

theorem Upkeeps.plain {db db' : Db} (h : Upkeeps db db') : PlainWrites db db' :=
  h.lift (fun db => db) fun _ _ => PlainWrite.upkeep

theorem Upkeeps.storeWrites {db db' : Db} (h : Upkeeps db db') : StoreWrites db db' :=
  h.plain.storeWrites

theorem AccessRequest.serve_storeWrites (db : Db) (req : AccessRequest) :
    StoreWrites db (req.serve db) :=
  (req.serve_writes db).lift (fun db => db) fun _ _ => StoreWrite.access

/-- The access check drops lapsed grants. -/
theorem access_upkeep (db : Db) (user projectId : Uuid) (now : Timestamp) :
    Upkeeps db (access db user projectId now).2 := by
  rw [access_snd]
  exact Upkeeps.reconcile db projectId now

/-- Checking a secret write registers environments at most. -/
theorem assertSecretWrite_upkeep (db : Db) (projectId accountId : Uuid)
    (environmentIds : List Uuid) (now : Timestamp) :
    Upkeeps db (ProjectPolicy.assertSecretWrite db projectId accountId environmentIds now).2 := by
  unfold ProjectPolicy.assertSecretWrite
  split
  · exact .refl
  rename_i project _
  split
  · exact .refl
  have hregister : Upkeeps db (AccessFacts.projectLevels db project now).2 :=
    Upkeeps.register db project now
  dsimp only
  split_ifs <;> exact hregister

theorem admitEnvironment_upkeep (db : Db) (user projectId id : Uuid) (req : PutEnvironmentRequest)
    (now : Timestamp) : Upkeeps db (admitEnvironment db user projectId id req now).2 := by
  have haccess := access_upkeep db user projectId now
  unfold admitEnvironment
  split <;> rename_i heq <;> rw [heq] at haccess
  · exact haccess
  split
  · exact haccess
  split_ifs <;> exact haccess

theorem admitFolder_upkeep (db : Db) (user projectId id : Uuid) (req : PutFolderRequest)
    (now : Timestamp) : Upkeeps db (admitFolder db user projectId id req now).2 := by
  have haccess := access_upkeep db user projectId now
  unfold admitFolder
  split <;> rename_i heq <;> rw [heq] at haccess
  · exact haccess
  split
  · exact haccess
  split_ifs <;> exact haccess

theorem admitSecret_upkeep (db : Db) (user projectId id : Uuid) (req : PutSecretRequest)
    (now : Timestamp) : Upkeeps db (admitSecret db user projectId id req now).2 := by
  have haccess := access_upkeep db user projectId now
  unfold admitSecret
  split <;> rename_i heq <;> rw [heq] at haccess
  · exact haccess
  rename_i db₁
  split
  · exact haccess
  split
  · exact haccess
  have hassert := haccess.trans
    (assertSecretWrite_upkeep db₁ projectId user (req.values.map Prod.fst) now)
  split <;> rename_i heq₂ <;> rwa [heq₂] at hassert

theorem admitDelete_upkeep (db : Db) (user projectId : Uuid) (type : EntryType) (id : Uuid)
    (baseRevision : ℕ) (now : Timestamp) :
    Upkeeps db (admitDelete db user projectId type id baseRevision now).2 := by
  have haccess := access_upkeep db user projectId now
  unfold admitDelete
  split <;> rename_i heq <;> rw [heq] at haccess
  · exact haccess
  rename_i access db₁
  have hassert : Upkeeps db (if type ≠ .secret then
      (ProjectPolicy.assertStructure db₁ projectId user access.ownerId, db₁)
      else ProjectPolicy.assertSecretWrite db₁ projectId user [] now).2 := by
    split
    · exact haccess
    · exact haccess.trans (assertSecretWrite_upkeep db₁ projectId user [] now)
  dsimp only
  split <;> rename_i heq₂ <;> rwa [heq₂] at hassert

/-- An admitted write is one write of the store. -/
theorem serveWrite_writes {admitted : Served EntryWrite} (h : Upkeeps db admitted.2) :
    StoreWrites db (serveWrite admitted).2 := by
  obtain ⟨answer, db₁⟩ := admitted
  cases answer with
  | error e => exact h.storeWrites
  | ok w =>
    have hwrite := h.storeWrites.tail (.entry db₁ w)
    simp only [serveWrite, write]
    split <;> rename_i heq <;> rwa [heq] at hwrite

theorem get_upkeep (db : Db) (user projectId : Uuid) (now : Timestamp) :
    Upkeeps db (ProjectsService.get db user projectId now).2 := by
  have hreconcile := Upkeeps.reconcile db projectId now
  unfold ProjectsService.get
  dsimp only
  split <;> exact hreconcile

theorem update_plain (db : Db) (user projectId : Uuid) (req : UpdateProjectRequest)
    (now : Timestamp) : PlainWrites db (ProjectsService.update db user projectId req now).2 := by
  have haccess := (access_upkeep db user projectId now).plain
  unfold ProjectsService.update
  split <;> rename_i heq <;> rw [heq] at haccess
  · exact haccess
  rename_i db₁
  split
  · exact haccess
  split
  · exact haccess
  split
  · rename_i db₂ hupdate
    have hwritten : PlainWrites db db₂ :=
      haccess.tail (.update projectId _ _ _ hupdate)
    have hget := hwritten.trans (get_upkeep db₂ user projectId now).plain
    unfold getChanged
    split <;> rename_i heq₂ <;> rwa [heq₂] at hget
  · have hget := haccess.trans (get_upkeep db₁ user projectId now).plain
    split <;> rename_i heq₂ <;> rwa [heq₂] at hget

theorem purge_plain (db : Db) (user projectId : Uuid) (secretId : Option Uuid) (now : Timestamp) :
    PlainWrites db (ProjectsService.purge db user projectId secretId now).2 := by
  have haccess := access_upkeep db user projectId now
  unfold ProjectsService.purge
  split <;> rename_i heq <;> rw [heq] at haccess
  · exact haccess.plain
  rename_i db₁
  have hassert := haccess.trans (assertSecretWrite_upkeep db₁ projectId user [] now)
  split <;> rename_i heq₂ <;> rw [heq₂] at hassert
  · exact Upkeeps.plain hassert
  rename_i db₂
  have hpurge : PlainWrites db (ProjectsStore.purgeTrash db₂ projectId secretId now).2 :=
    (Upkeeps.plain hassert).tail (.purge db₂ projectId secretId now)
  dsimp only
  split <;> exact hpurge

/-- A request that writes no entries is a chain of plain writes. -/
theorem ProjectRequest.serve_plain (db : Db) (req : ProjectRequest)
    (h : req.writesEntries = false) : PlainWrites db (req.serve db) := by
  cases req with
  | get user projectId now => exact (get_upkeep db user projectId now).plain
  | update user projectId req now => exact update_plain db user projectId req now
  | sync user projectId since limit now =>
    have haccess := (access_upkeep db user projectId now).plain
    simp only [serve, ProjectsService.sync]
    split <;> rename_i heq <;> rwa [heq] at haccess
  | secretHistory user projectId secretId now =>
    have haccess := (access_upkeep db user projectId now).plain
    simp only [serve, ProjectsService.secretHistory]
    split <;> rename_i heq <;> rwa [heq] at haccess
  | trash user projectId now =>
    have haccess := (access_upkeep db user projectId now).plain
    simp only [serve, ProjectsService.trash]
    split <;> rename_i heq <;> rwa [heq] at haccess
  | purge user projectId secretId now => exact purge_plain db user projectId secretId now
  | create | putEnvironment | putFolder | putSecret | deleteEntry => cases h

/-- What creating a project leaves: the new project, with lapsed grants dropped, or nothing
new. -/
theorem create_cases (db : Db) (user : Uuid) (req : CreateProjectRequest) (now : Timestamp) :
    (ProjectsService.create db user req now).2 = db ∨ ∃ db₁, ProjectsStore.createProject db
      ⟨req.id, user, req.encryptedMeta, req.encryptedKey, req.environments, now⟩ = some db₁ ∧
        Upkeeps db₁ (ProjectsService.create db user req now).2 := by
  unfold ProjectsService.create
  split
  · exact Or.inl rfl
  split
  · exact Or.inl rfl
  · rename_i db₁ hcreate
    exact Or.inr ⟨db₁, hcreate, get_upkeep db₁ user req.id now⟩

/-- Serving a request is a chain of writes. -/
theorem ProjectRequest.serve_writes (db : Db) (req : ProjectRequest) :
    StoreWrites db (req.serve db) := by
  cases hwrites : req.writesEntries with
  | false => exact (req.serve_plain db hwrites).storeWrites
  | true =>
    cases req with
    | create user req now =>
      rcases create_cases db user req now with heq | ⟨db₁, hcreate, hget⟩
      · rw [serve, heq]
      · have hfirst : StoreWrites db db₁ := .single (.create _ hcreate)
        exact hfirst.trans hget.storeWrites
    | putEnvironment user projectId id req now =>
      exact serveWrite_writes (admitEnvironment_upkeep db user projectId id req now)
    | putFolder user projectId id req now =>
      exact serveWrite_writes (admitFolder_upkeep db user projectId id req now)
    | putSecret user projectId id req now =>
      exact serveWrite_writes (admitSecret_upkeep db user projectId id req now)
    | deleteEntry user projectId type id baseRevision now =>
      exact serveWrite_writes (admitDelete_upkeep db user projectId type id baseRevision now)
    | _ => cases hwrites

end Zvault
