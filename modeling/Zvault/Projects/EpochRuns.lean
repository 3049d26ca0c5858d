import Zvault.Access.RotationExact
import Zvault.Projects.KeyEpoch

/-!
# Key versions over interleaved requests

Clients read the server, seal what they send with the key version they last
read, and send the revision they last read; the server checks a request and
stores it later, with other requests in between. The stored ciphertexts stay at
their environments' key versions as long as no request is stored for an
environment whose version moved on since its client read it.
-/

namespace Zvault

open Relational Relation ProjectsService EnvironmentsService ProjectsStore

/-- What a client knows from its last reads. -/
structure ClientView where
  /-- The key version of each environment. -/
  keyVersion : Uuid → ℕ
  /-- The revision of each entry of each project, 0 for one it has not seen. -/
  revision : Uuid → Uuid → ℕ
  /-- Values of kept versions: environment, value, and the environment's key version when
  they were read. -/
  kept : List (Uuid × EncryptedBlob × ℕ)

/-- A client that has not read anything. -/
def ClientView.blank : ClientView := ⟨fun _ => 1, fun _ _ => 0, []⟩

/-- A request on its way: sent, or checked and not stored yet. `sealedAt` is the key version
its client had read for each environment when it sealed, or when it read the kept version
it restores. -/
inductive Job where
  | putSecret (user projectId id : Uuid) (req : PutSecretRequest) (sealedAt : Uuid → ℕ)
  | putEnvironment (user projectId id : Uuid) (req : PutEnvironmentRequest)
  | putFolder (user projectId id : Uuid) (req : PutFolderRequest)
  | deleteEntry (user projectId : Uuid) (type : EntryType) (id : Uuid) (baseRevision : ℕ)
  | write (w : EntryWrite) (sealedAt : Uuid → ℕ)
  | addEnvironmentWraps (accountId environmentId : Uuid) (req : AddEnvironmentWrapsRequest)
  | insertWraps (env : Env) (accountId : Uuid) (req : AddEnvironmentWrapsRequest)
  | rotate (accountId environmentId : Uuid) (req : RotateEnvironmentKeyRequest)
  | rotateTx (env : Env) (accountId : Uuid) (req : RotateEnvironmentKeyRequest)

/-- The server and its clients. -/
structure World where
  db : Db
  views : Uuid → ClientView
  jobs : List Job

/-- The world before the first request. -/
def World.start : World := ⟨Db.empty, fun _ => .blank, []⟩

/-- What can happen. -/
inductive Action where
  | readKeyVersion (client environmentId : Uuid)
  | readRevision (client projectId id : Uuid)
  /-- `secretHistory` or the trash: the kept versions of a secret. -/
  | readVersions (client projectId secretId : Uuid)
  | send (client : Uuid) (job : Job)
  /-- The server checks the `i`-th request on its way, or stores it when it has. -/
  | proceed (i : ℕ) (now : Timestamp)
  | createProject (user : Uuid) (req : CreateProjectRequest) (now : Timestamp)
  | removeProject (user projectId : Uuid) (now : Timestamp)
  /-- A request to the access service that stores no environment's key. -/
  | access (req : AccessRequest)
  /-- A request to the projects service that writes no entry. -/
  | projects (req : ProjectRequest)

/-- Answers of a check, as what is left to do. -/
def admitted {α : Type} (next : α → Job) : Served α → Option Job × Db
  | (.error _, db) => (none, db)
  | (.ok a, db) => (some (next a), db)

/-- Checks a sent request, or stores a checked one. -/
def Job.proceed (db : Db) (now : Timestamp) : Job → Option Job × Db
  | .putSecret user projectId id req sealedAt =>
    admitted (.write · sealedAt) (admitSecret db user projectId id req now)
  | .putEnvironment user projectId id req =>
    admitted (.write · fun _ => 1) (admitEnvironment db user projectId id req now)
  | .putFolder user projectId id req =>
    admitted (.write · fun _ => 1) (admitFolder db user projectId id req now)
  | .deleteEntry user projectId type id baseRevision =>
    admitted (.write · fun _ => 1) (admitDelete db user projectId type id baseRevision now)
  | .write w _ => (none, (writeEntry db w).2)
  | .addEnvironmentWraps accountId environmentId req =>
    admitted (.insertWraps · accountId req)
      (admitEnvironmentWraps db accountId environmentId req now)
  | .insertWraps env accountId req =>
    (none, (EnvironmentsService.insertWraps db env.projectId env.environmentId
      (some env.keyVersion) accountId req.wraps).2)
  | .rotate accountId environmentId req =>
    admitted (.rotateTx · accountId req) (admitRotation db accountId environmentId req now)
  | .rotateTx env accountId req => (none, (EnvironmentsService.rotateTx db env accountId req now).2)

/-- What an action leaves. -/
def World.act (w : World) : Action → World
  | .readKeyVersion client environmentId =>
    { w with views := Function.update w.views client { w.views client with
      keyVersion := Function.update (w.views client).keyVersion environmentId
        (keyVersionOf w.db environmentId) } }
  | .readRevision client projectId id =>
    { w with views := Function.update w.views client { w.views client with
      revision := Function.update (w.views client).revision projectId
        (Function.update ((w.views client).revision projectId) id
          (((w.db.projectEntries.find (projectId, id)).map EntryRow.revision).getD 0)) } }
  | .readVersions client projectId secretId =>
    let values := (w.db.secretVersions.select fun v =>
      v.projectId = projectId ∧ v.secretId = secretId).flatMap SecretVersionRow.values
    { w with views := Function.update w.views client { w.views client with
      kept := values.map (fun x => (x.1, x.2, keyVersionOf w.db x.1)) ++
        (w.views client).kept } }
  | .send _ job => { w with jobs := job :: w.jobs }
  | .proceed i now =>
    match w.jobs[i]? with
    | none => w
    | some job =>
      let (next, db) := job.proceed w.db now
      { w with db := db, jobs := next.toList ++ w.jobs.eraseIdx i }
  | .createProject user req now => { w with db := (ProjectsService.create w.db user req now).2 }
  | .removeProject user projectId now =>
    { w with db := (ProjectsService.remove w.db user projectId now).2 }
  | .access req => { w with db := req.serve w.db }
  | .projects req => { w with db := req.serve w.db }

/-- What an honest client sends: it seals new values and keys under the key version it last
read, or sends a kept version's value again; it sends the revision it last read; and it
draws the ids of new environments. -/
def Job.Honest (epoch : EncryptedBlob → ℕ) (home : Uuid → Uuid) (view : ClientView) : Job → Prop
  | .putSecret _ projectId id req sealedAt =>
    req.baseRevision = view.revision projectId id ∧ ∀ env blob, (env, some blob) ∈ req.values →
      (sealedAt env = view.keyVersion env ∧ epoch blob = view.keyVersion env) ∨
        (env, blob, sealedAt env) ∈ view.kept
  | .putEnvironment _ projectId id req =>
    req.baseRevision = view.revision projectId id ∧ (req.baseRevision = 0 →
      home id = projectId ∧ id ≠ projectId ∧ ∀ key, req.encryptedKey = some key → epoch key = 1)
  | .putFolder _ projectId id req => req.baseRevision = view.revision projectId id
  | .deleteEntry _ projectId _ id baseRevision =>
    baseRevision = view.revision projectId id ∧ 0 < baseRevision
  | .addEnvironmentWraps _ environmentId req =>
    req.keyVersion = view.keyVersion environmentId ∧
      ∀ wrap ∈ req.wraps, epoch wrap.blob = req.keyVersion
  | .rotate _ environmentId req =>
    req.fromVersion = view.keyVersion environmentId ∧
      (∀ v ∈ req.values, epoch v.encryptedValue = req.fromVersion + 1) ∧
        ∀ wrap ∈ req.wraps, epoch wrap.blob = req.fromVersion + 1
  -- A request is sent before it is checked.
  | .write .. | .insertWraps .. | .rotateTx .. => False

/-- What clients and the server do. -/
def Action.Honest (epoch : EncryptedBlob → ℕ) (home : Uuid → Uuid) (w : World) : Action → Prop
  | .send client job => job.Honest epoch home (w.views client)
  | .createProject _ req _ => ∀ e ∈ req.environments,
    FreshEnvironment epoch home req.id e.id e.encryptedKey
  | .access req => req.storesKeys = false ∨
    ∃ accountId projectId wraps now, req = .addProjectWraps accountId projectId wraps now
  | .projects req => req.writesEntries = false
  | _ => True

/-- The environments a request is about to store something for are still at the key version
its client had read. -/
def Job.UpToDate (db : Db) : Job → Prop
  | .write w sealedAt => ∀ env blob, (env, some blob) ∈ w.values →
    keyVersionOf db env = sealedAt env
  | .insertWraps env _ req => keyVersionOf db env.environmentId = req.keyVersion
  | _ => True

/-- Nothing is stored for an environment whose key was rotated since the client read it. -/
def Action.UpToDate (w : World) : Action → Prop
  | .proceed i _ => ∀ job, w.jobs[i]? = some job → job.UpToDate w.db
  | _ => True

/-- Where actions lead. -/
def World.run (w : World) (actions : List Action) : World := actions.foldl World.act w

/-- Actions of honest clients. -/
def HonestRun (epoch : EncryptedBlob → ℕ) (home : Uuid → Uuid) : World → List Action → Prop
  | _, [] => True
  | w, a :: actions => a.Honest epoch home w ∧ HonestRun epoch home (w.act a) actions

/-- Actions that are all up to date. -/
def UpToDateRun : World → List Action → Prop
  | _, [] => True
  | w, a :: actions => a.UpToDate w ∧ UpToDateRun (w.act a) actions

/-- Everything stored for a live environment carries its current key version. -/
structure EpochConsistent (epoch : EncryptedBlob → ℕ) (db : Db) : Prop where
  values : ∀ e ∈ db.projectEntries, e.isLiveEnvironment = true → ∀ v ∈ db.secretValues,
    v.projectId = e.projectId → v.environmentId = e.id →
      epoch v.encryptedValue = keyVersionOf db e.id
  versions : ∀ e ∈ db.projectEntries, e.isLiveEnvironment = true → ∀ v ∈ db.secretVersions,
    v.projectId = e.projectId → ∀ x ∈ v.values, x.1 = e.id → epoch x.2 = keyVersionOf db e.id
  grants : ∀ e ∈ db.projectEntries, e.isLiveEnvironment = true → ∀ g ∈ db.keyGrants,
    g.projectId = e.projectId → g.resourceId = e.id → epoch g.wrappedKey = keyVersionOf db e.id

/-- What is known of a request on its way. -/
def Job.Sound (epoch : EncryptedBlob → ℕ) (home : Uuid → Uuid) : Job → Prop
  | .putSecret _ _ _ req sealedAt => ∀ env blob, (env, some blob) ∈ req.values →
    epoch blob = sealedAt env
  | .putEnvironment _ projectId id req => req.baseRevision = 0 →
    home id = projectId ∧ id ≠ projectId ∧ ∀ key, req.encryptedKey = some key → epoch key = 1
  | .putFolder .. => True
  | .deleteEntry _ _ _ _ baseRevision => 0 < baseRevision
  | .write w sealedAt => HonestWrite epoch home w ∧ ∀ env blob, (env, some blob) ∈ w.values →
    epoch blob = sealedAt env
  | .addEnvironmentWraps _ _ req => ∀ wrap ∈ req.wraps, epoch wrap.blob = req.keyVersion
  | .insertWraps env _ req => home env.environmentId = env.projectId ∧
    ∀ wrap ∈ req.wraps, epoch wrap.blob = req.keyVersion
  | .rotate _ _ req => (∀ v ∈ req.values, epoch v.encryptedValue = req.fromVersion + 1) ∧
    ∀ wrap ∈ req.wraps, epoch wrap.blob = req.fromVersion + 1
  | .rotateTx env _ req => home env.environmentId = env.projectId ∧
    (∀ v ∈ req.values, epoch v.encryptedValue = env.keyVersion + 1) ∧
      ∀ wrap ∈ req.wraps, epoch wrap.blob = env.keyVersion + 1

/-- What holds in every state of an up-to-date run. -/
structure World.Sound (epoch : EncryptedBlob → ℕ) (home : Uuid → Uuid) (w : World) : Prop where
  reachable : Reachable w.db
  atEpoch : AtEpoch epoch home w.db
  kept : ∀ client, ∀ x ∈ (w.views client).kept, epoch x.2.1 = x.2.2
  jobs : ∀ job ∈ w.jobs, job.Sound epoch home

section Admitted

variable {db db' : Db} {user projectId id : Uuid} {now : Timestamp} {w : EntryWrite}

/-- The write of an admitted request. -/
theorem admitSecret_ok {req : PutSecretRequest}
    (h : admitSecret db user projectId id req now = (.ok w, db')) :
    w = entryWrite user projectId id .secret req.baseRevision (some req.encryptedMeta) req.values
      none now := by
  unfold admitSecret at h
  split at h
  · cases h
  split at h
  · cases h
  split at h
  · cases h
  split at h
  · cases h
  · cases h
    rfl

theorem admitEnvironment_ok {req : PutEnvironmentRequest}
    (h : admitEnvironment db user projectId id req now = (.ok w, db')) :
    w = entryWrite user projectId id .environment req.baseRevision (some req.encryptedMeta) []
      (if req.baseRevision = 0 then req.encryptedKey.map (user, ·) else none) now := by
  unfold admitEnvironment at h
  split at h
  · cases h
  split at h
  · cases h
  split_ifs at h <;> cases h <;> simp_all

theorem admitFolder_ok {req : PutFolderRequest}
    (h : admitFolder db user projectId id req now = (.ok w, db')) :
    w = entryWrite user projectId id .folder req.baseRevision (some req.encryptedMeta) [] none
      now := by
  unfold admitFolder at h
  split at h
  · cases h
  split at h
  · cases h
  split at h <;> cases h
  rfl

theorem admitDelete_ok {type : EntryType} {baseRevision : ℕ}
    (h : admitDelete db user projectId type id baseRevision now = (.ok w, db')) :
    w = entryWrite user projectId id type baseRevision none [] none now := by
  unfold admitDelete at h
  split at h
  · cases h
  dsimp only at h
  split at h <;> cases h
  rfl

/-- Admitted wraps are of the environment's key version at the time, for an environment with
an access row. -/
theorem admitEnvironmentWraps_ok {accountId environmentId : Uuid}
    {req : AddEnvironmentWrapsRequest} {env : Env}
    (h : admitEnvironmentWraps db accountId environmentId req now = (.ok env, db')) :
    env.toEnvironmentAccessRow ∈ db'.environmentAccess := by
  unfold admitEnvironmentWraps at h
  split at h
  · cases h
  rename_i hvisible
  dsimp only at h
  split at h
  · cases h
  split at h
  · cases h
  split at h <;> cases h
  exact (visible_loaded hvisible).row

end Admitted

section Runs

variable {epoch : EncryptedBlob → ℕ} {home : Uuid → Uuid} {db db' : Db} {now : Timestamp}

/-- Chains of writes keep states reachable. -/
theorem Reachable.writes (h : Reachable db) (hwrites : StoreWrites db db') : Reachable db' := by
  induction hwrites with
  | refl => exact h
  | tail _ hwrite ih => exact ih.write hwrite

/-- Plain writes store no ciphertext. -/
theorem AtEpoch.plain (h : AtEpoch epoch home db) (hwrites : PlainWrites db db') :
    AtEpoch epoch home db' := by
  induction hwrites with
  | refl => exact h
  | tail _ hwrite ih =>
    cases hwrite with
    | upkeep hupkeep => exact ih.upkept hupkeep.upkept
    | update projectId baseRevision encryptedMeta now hupdate =>
      unfold updateProject at hupdate
      split at hupdate <;> cases hupdate
      exact ih.of_shrunk rfl rfl (fun _ hv => hv) (fun _ hv => hv) fun _ hg => hg
    | purge projectId secretId before =>
      exact ih.of_shrunk rfl rfl (fun _ hv => hv) (fun _ hv => (Table.mem_delete.mp hv).1)
        fun _ hg => hg

/-- A check writes upkeep at most. -/
theorem admitted_sound {α : Type} {next : α → Job} {served : Served α}
    (hdb : Reachable db) (h : AtEpoch epoch home db) (hupkeep : Upkeeps db served.2)
    (hnext : ∀ a, AtEpoch epoch home served.2 → served = (.ok a, served.2) →
      (next a).Sound epoch home) :
    Reachable (admitted next served).2 ∧ AtEpoch epoch home (admitted next served).2 ∧
      ∀ job ∈ (admitted next served).1, job.Sound epoch home := by
  obtain ⟨answer, db'⟩ := served
  have hdb' := hdb.writes hupkeep.storeWrites
  have h' := h.upkept hupkeep.upkept
  cases answer with
  | error e => exact ⟨hdb', h', nofun⟩
  | ok a =>
    refine ⟨hdb', h', fun job hjob => ?_⟩
    cases hjob
    exact hnext a h' rfl

/-- Storing an admitted entry write. -/
theorem AtEpoch.writeEntry (h : AtEpoch epoch home db) {w : EntryWrite}
    (hhonest : HonestWrite epoch home w) (hsealed : SealedNow epoch db w.values) :
    AtEpoch epoch home (writeEntry db w).2 := by
  rcases writeEntry_cases db w with ⟨seq, hw, _⟩ | ⟨hsame, _⟩
  · exact h.written hw hhonest hsealed
  · rwa [hsame]

/-- Checking or storing a request. -/
theorem Job.Sound.proceed {job : Job} (hjob : job.Sound epoch home) (hdb : Reachable db)
    (h : AtEpoch epoch home db) (hupToDate : job.UpToDate db) (now : Timestamp) :
    Reachable (job.proceed db now).2 ∧ AtEpoch epoch home (job.proceed db now).2 ∧
      ∀ next ∈ (job.proceed db now).1, next.Sound epoch home := by
  have hdone {db' : Db} (hwrites : StoreWrite db db') (h' : AtEpoch epoch home db') :
      Reachable db' ∧ AtEpoch epoch home db' ∧
        ∀ next ∈ (none : Option Job), next.Sound epoch home :=
    ⟨hdb.write hwrites, h', nofun⟩
  cases job with
  | putSecret user projectId id req sealedAt =>
    refine admitted_sound hdb h (admitSecret_upkeep db user projectId id req now)
      fun w _ hw => ?_
    rw [admitSecret_ok hw]
    exact ⟨⟨nofun, nofun⟩, hjob⟩
  | putEnvironment user projectId id req =>
    refine admitted_sound hdb h (admitEnvironment_upkeep db user projectId id req now)
      fun w _ hw => ?_
    rw [admitEnvironment_ok hw]
    refine ⟨⟨fun _ hbase => ?_, fun grant hgrant => ?_⟩, nofun⟩
    · exact ⟨(hjob hbase).1, (hjob hbase).2.1⟩
    · change (if req.baseRevision = 0 then req.encryptedKey.map (user, ·) else none) =
        some grant at hgrant
      split at hgrant
      · rename_i hbase
        obtain ⟨key, hkey, rfl⟩ := Option.map_eq_some_iff.mp hgrant
        exact ⟨hbase, (hjob hbase).2.2 key hkey⟩
      · cases hgrant
  | putFolder user projectId id req =>
    refine admitted_sound hdb h (admitFolder_upkeep db user projectId id req now) fun w _ hw => ?_
    rw [admitFolder_ok hw]
    exact ⟨⟨nofun, nofun⟩, nofun⟩
  | deleteEntry user projectId type id baseRevision =>
    refine admitted_sound hdb h (admitDelete_upkeep db user projectId type id baseRevision now)
      fun w _ hw => ?_
    rw [admitDelete_ok hw]
    exact ⟨⟨fun _ hbase => absurd hbase (Nat.pos_iff_ne_zero.mp hjob), nofun⟩, nofun⟩
  | write w sealedAt =>
    refine hdone (.entry db w) (h.writeEntry hjob.1 fun env blob hmem => ?_)
    exact (hjob.2 env blob hmem).trans (hupToDate env blob hmem).symm
  | addEnvironmentWraps accountId environmentId req =>
    refine admitted_sound hdb h (admitEnvironmentWraps_upkeep db accountId environmentId req now)
      fun env h' henv => ?_
    exact ⟨(h'.rows _ (admitEnvironmentWraps_ok henv)).1, hjob⟩
  | insertWraps env accountId req =>
    refine hdone (.access (.wraps db _ _ _ _ _)) (h.insertWraps fun _ => ⟨hjob.1, fun w hw => ?_⟩)
    exact (hjob.2 w hw).trans hupToDate.symm
  | rotate accountId environmentId req =>
    refine admitted_sound hdb h (admitRotation_upkeep db accountId environmentId req now)
      fun env h' henv => ?_
    obtain ⟨v, rfl, -, hloaded, hpassed⟩ := admitRotation_ok henv
    refine ⟨(h'.rows _ hloaded.row).1, ?_⟩
    rw [← hpassed.fromVersion]
    exact hjob
  | rotateTx env accountId req =>
    refine hdone (.access (.rotation db env accountId req now)) ?_
    obtain ⟨hhome, hvalues, hwraps⟩ := hjob
    change AtEpoch epoch home (EnvironmentsService.rotateTx db env accountId req now).2
    cases htx : EnvironmentsService.rotateTx db env accountId req now with
    | mk answer db' =>
      cases answer with
      | error e =>
        obtain rfl := rotateTx_error htx
        exact h
      | ok _ => exact h.rotated (rotateTx_ok htx) hhome hvalues hwraps

end Runs

namespace World.Sound

variable {epoch : EncryptedBlob → ℕ} {home : Uuid → Uuid} {w : World}

theorem start (epoch : EncryptedBlob → ℕ) (home : Uuid → Uuid) :
    World.Sound epoch home .start where
  reachable := .empty
  atEpoch := .empty epoch home
  kept _ _ hx := absurd hx List.not_mem_nil
  jobs _ hjob := absurd hjob List.not_mem_nil

/-- What an honest client sends is sound. -/
theorem send (h : w.Sound epoch home) {client : Uuid} {job : Job}
    (honest : job.Honest epoch home (w.views client)) : job.Sound epoch home := by
  cases job with
  | putSecret user projectId id req sealedAt =>
    intro env blob hmem
    rcases honest.2 env blob hmem with ⟨hsealed, hepoch⟩ | hkept
    · exact hepoch.trans hsealed.symm
    · exact h.kept client _ hkept
  | putEnvironment user projectId id req => exact honest.2
  | putFolder user projectId id req => trivial
  | deleteEntry user projectId type id baseRevision => exact honest.2
  | addEnvironmentWraps accountId environmentId req => exact honest.2
  | rotate accountId environmentId req => exact honest.2
  | write | insertWraps | rotateTx => exact honest.elim

/-- What a client reads of kept versions is at the key version it reads along. -/
theorem readVersions (h : w.Sound epoch home) (client projectId secretId : Uuid) :
    (w.act (.readVersions client projectId secretId)).Sound epoch home := by
  refine ⟨h.reachable, h.atEpoch, fun other x hx => ?_, h.jobs⟩
  simp only [World.act] at hx
  by_cases hclient : other = client
  · subst hclient
    rw [Function.update_self, List.mem_append] at hx
    rcases hx with hx | hx
    · obtain ⟨y, hy, rfl⟩ := List.mem_map.mp hx
      obtain ⟨v, hv, hy⟩ := List.mem_flatMap.mp hy
      exact (h.atEpoch.versions v (Table.mem_select.mp hv).1 y hy).2
    · exact h.kept other x hx
  · rw [Function.update_of_ne hclient] at hx
    exact h.kept other x hx

/-- Reading key versions or revisions adds no kept value. -/
theorem of_views (h : w.Sound epoch home) {client : Uuid} {view : ClientView}
    (hkept : view.kept = (w.views client).kept) :
    World.Sound epoch home { w with views := Function.update w.views client view } := by
  refine ⟨h.reachable, h.atEpoch, fun other x hx => ?_, h.jobs⟩
  dsimp only at hx
  by_cases hclient : other = client
  · subst hclient
    rw [Function.update_self, hkept] at hx
    exact h.kept other x hx
  · rw [Function.update_of_ne hclient] at hx
    exact h.kept other x hx

/-- A write that concerns no request on its way. -/
theorem of_db (h : w.Sound epoch home) {db : Db} (hdb : Reachable db)
    (hepoch : AtEpoch epoch home db) : World.Sound epoch home { w with db := db } :=
  ⟨hdb, hepoch, h.kept, h.jobs⟩

/-- Every up-to-date step of honest clients and the server. -/
theorem act (h : w.Sound epoch home) {a : Action} (honest : a.Honest epoch home w)
    (hupToDate : a.UpToDate w) : (w.act a).Sound epoch home := by
  cases a with
  | readKeyVersion client environmentId => exact h.of_views rfl
  | readRevision client projectId id => exact h.of_views rfl
  | readVersions client projectId secretId => exact h.readVersions client projectId secretId
  | send client job =>
    refine ⟨h.reachable, h.atEpoch, h.kept, fun j hj => ?_⟩
    rcases List.mem_cons.mp hj with rfl | hj
    · exact h.send honest
    · exact h.jobs j hj
  | proceed i now =>
    cases hjob : w.jobs[i]? with
    | none => simpa only [World.act, hjob] using h
    | some job =>
      obtain ⟨hdb, hepoch, hnext⟩ := (h.jobs job (List.mem_of_getElem? hjob)).proceed h.reachable
        h.atEpoch (hupToDate job hjob) now
      simp only [World.act, hjob]
      refine ⟨hdb, hepoch, h.kept, fun j hj => ?_⟩
      rcases List.mem_append.mp hj with hj | hj
      · exact hnext j (Option.mem_toList.mp hj)
      · exact h.jobs j (List.mem_of_mem_eraseIdx hj)
  | createProject user req now =>
    rcases create_cases w.db user req now with heq | ⟨db₁, hcreate, hget⟩
    · exact h.of_db (heq.symm ▸ h.reachable) (heq.symm ▸ h.atEpoch)
    · have hcreated := createProject_eq_some hcreate
      have hempty (e : EntryRow) (he : e ∈ w.db.projectEntries) : e.projectId ≠ req.id := by
        intro hproject
        exact entriesOf_eq_nil (h.reachable.feedOrdered req.id) hcreated.free e
          (mem_entriesOf.mpr ⟨he, hproject⟩)
      refine h.of_db ((h.reachable.write (.create _ hcreate)).writes hget.storeWrites) ?_
      exact (h.atEpoch.created hcreated honest hempty).upkept hget.upkept
  | removeProject user projectId now =>
    have haccess := access_upkeep w.db user projectId now
    have hdb := h.reachable.writes haccess.storeWrites
    have hepoch := h.atEpoch.upkept haccess.upkept
    have hremoved : (ProjectsService.remove w.db user projectId now).2 =
        (access w.db user projectId now).2 ∨
        (ProjectsService.remove w.db user projectId now).2 =
          deleteProject (access w.db user projectId now).2 projectId := by
      unfold ProjectsService.remove
      split <;> rename_i heq <;> rw [heq]
      · exact Or.inl rfl
      · split
        · exact Or.inl rfl
        · exact Or.inr rfl
    simp only [World.act]
    rcases hremoved with heq | heq <;> rw [heq]
    · exact h.of_db hdb hepoch
    · exact h.of_db (hdb.deleteProject projectId) (hepoch.deleteProject projectId)
  | access req =>
    rcases honest with hkeys | ⟨accountId, projectId, wraps, now, rfl⟩
    · have hupkeep := req.serve_upkeep w.db hkeys
      exact h.of_db (h.reachable.writes hupkeep.storeWrites) (h.atEpoch.upkept hupkeep.upkept)
    · obtain ⟨db₁, hupkeep, heq | heq⟩ := addProjectWraps_cases w.db accountId projectId wraps now
      all_goals
        simp only [World.act, AccessRequest.serve]
        rw [heq]
      · exact h.of_db (h.reachable.writes hupkeep.storeWrites) (h.atEpoch.upkept hupkeep.upkept)
      · refine h.of_db ((h.reachable.writes hupkeep.storeWrites).write (.access (.wraps _ _ _ _ _ _)))
          ((h.atEpoch.upkept hupkeep.upkept).insertWraps fun hne => absurd rfl hne)
  | projects req =>
    have hplain := req.serve_plain w.db honest
    exact h.of_db (h.reachable.writes hplain.storeWrites) (h.atEpoch.plain hplain)

/-- Every up-to-date run. -/
theorem run {actions : List Action} (h : w.Sound epoch home)
    (honest : HonestRun epoch home w actions) (hupToDate : UpToDateRun w actions) :
    (w.run actions).Sound epoch home := by
  induction actions generalizing w with
  | nil => exact h
  | cons a actions ih => exact ih (h.act honest.1 hupToDate.1) honest.2 hupToDate.2

/-- What is stored for live environments. -/
theorem consistent (h : w.Sound epoch home) : EpochConsistent epoch w.db := by
  have hlive {e : EntryRow} (hlive : e.isLiveEnvironment = true) : e.type = .environment := by
    simp only [EntryRow.isLiveEnvironment, decide_eq_true_eq] at hlive
    exact hlive.1
  refine ⟨fun e _ _ v hv _ hid => ?_, fun e _ _ v hv _ x hx hid => ?_,
    fun e he helive g hg hproject hid => ?_⟩
  · rw [← hid]
    exact (h.atEpoch.values v hv).2
  · rw [← hid]
    exact (h.atEpoch.versions v hv x hx).2
  · rw [← hid]
    refine (h.atEpoch.grants g hg ?_).2
    rw [hproject, hid]
    exact (h.atEpoch.environments e he (hlive helive)).2

end World.Sound

/-- **Key-epoch consistency.** In every run of honest clients in which nothing is stored for
an environment whose key was rotated since the client read it, every current value, every
kept value and every key grant of a live environment carries its current key version. -/
theorem epoch_consistent (epoch : EncryptedBlob → ℕ) (home : Uuid → Uuid) (actions : List Action)
    (honest : HonestRun epoch home .start actions) (hupToDate : UpToDateRun .start actions) :
    EpochConsistent epoch (World.start.run actions).db :=
  ((World.Sound.start epoch home).run honest hupToDate).consistent

/-- In the runs below a ciphertext's nonce is the version it was sealed under. -/
def nonceEpoch (blob : EncryptedBlob) : ℕ := blob.nonce

/-- Account 10 creates project 1 with environment 2, shares it with its organization 5, and
stores a secret, 4, with a value. -/
def firstSecret : List Action :=
  [.access (.createOrg 10 5 77),
    .createProject 10 ⟨1, ⟨.record 1, 0, 0⟩, ⟨.account, 1, 0⟩,
      [⟨2, ⟨.record 2, 0, 0⟩, ⟨.account, 1, 0⟩⟩]⟩ 0,
    .access (.linkProject 10 1 5 0),
    .send 10 (.putSecret 10 1 4 ⟨0, ⟨.record 4, 0, 0⟩, [(2, some ⟨.record 2, 1, 0⟩)]⟩ fun _ => 1),
    .proceed 0 1, .proceed 0 1]

/-- It then rotates the key, reads version 2, and stores a new value sealed at it. -/
def rotatedSecret : List Action :=
  firstSecret ++
    [.readKeyVersion 10 2,
      .send 10 (.rotate 10 2 ⟨1, [⟨10, 77, 77, 0, ⟨.memberKeyWrap, 2, 0⟩⟩],
        [⟨4, ⟨.record 2, 2, 0⟩⟩]⟩),
      .proceed 0 2, .proceed 0 2, .readKeyVersion 10 2, .readRevision 10 1 4,
      .send 10 (.putSecret 10 1 4 ⟨1, ⟨.record 4, 0, 1⟩, [(2, some ⟨.record 2, 2, 1⟩)]⟩ fun _ => 2),
      .proceed 0 3, .proceed 0 3]

/-- Or it sends a new value, sealed at version 1, and a rotation to version 2; the
rotation is served first. -/
def staleValue : List Action :=
  [.readKeyVersion 10 2, .readRevision 10 1 4,
    .send 10 (.putSecret 10 1 4 ⟨1, ⟨.record 4, 0, 1⟩, [(2, some ⟨.record 2, 1, 1⟩)]⟩ fun _ => 1),
    .send 10 (.rotate 10 2 ⟨1, [⟨10, 77, 77, 0, ⟨.memberKeyWrap, 2, 0⟩⟩],
      [⟨4, ⟨.record 2, 2, 0⟩⟩]⟩),
    .proceed 0 2, .proceed 0 2, .proceed 0 3, .proceed 0 3]

/-- A put of one value for environment 2, sealed at its key version. -/
theorem honest_put {view : ClientView} {baseRevision version ct : ℕ}
    (hrevision : baseRevision = view.revision 1 4) (hversion : view.keyVersion 2 = version) :
    Job.Honest nonceEpoch (fun _ => 1) view (.putSecret 10 1 4 ⟨baseRevision,
      ⟨.record 4, 0, baseRevision⟩, [(2, some ⟨.record 2, version, ct⟩)]⟩ fun _ => version) := by
  refine ⟨hrevision, fun env blob hmem => Or.inl ?_⟩
  rw [List.mem_singleton, Prod.mk.injEq, Option.some.injEq] at hmem
  obtain ⟨rfl, rfl⟩ := hmem
  exact ⟨hversion.symm, hversion.symm⟩

/-- A rotation to version 2. -/
theorem honest_rotate {view : ClientView} (hversion : view.keyVersion 2 = 1) :
    Job.Honest nonceEpoch (fun _ => 1) view (.rotate 10 2
      ⟨1, [⟨10, 77, 77, 0, ⟨.memberKeyWrap, 2, 0⟩⟩], [⟨4, ⟨.record 2, 2, 0⟩⟩]⟩) := by
  refine ⟨hversion.symm, fun v hv => ?_, fun wrap hwrap => ?_⟩
  · rw [List.mem_singleton.mp hv]
    rfl
  · rw [List.mem_singleton.mp hwrap]
    rfl

theorem rotatedSecret_honest : HonestRun nonceEpoch (fun _ => 1) .start rotatedSecret := by
  refine ⟨Or.inl rfl, fun e he => ?_, Or.inl rfl, honest_put rfl rfl, trivial, trivial, trivial,
    honest_rotate rfl, trivial, trivial, trivial, trivial, honest_put rfl rfl, trivial, trivial,
    trivial⟩
  rw [List.mem_singleton] at he
  subst he
  exact ⟨rfl, by decide, rfl⟩

theorem rotatedSecret_upToDate : UpToDateRun .start rotatedSecret := by
  refine ⟨trivial, trivial, trivial, trivial, fun job hjob => ?_, fun job hjob => ?_, trivial,
    trivial, fun job hjob => ?_, fun job hjob => ?_, trivial, trivial, trivial, fun job hjob => ?_,
    fun job hjob => ?_, trivial⟩ <;> obtain rfl := Option.some.inj hjob
  · trivial
  · intro env blob hmem
    obtain rfl : env = 2 := congrArg Prod.fst (List.mem_singleton.mp hmem)
    decide
  · trivial
  · trivial
  · trivial
  · intro env blob hmem
    obtain rfl : env = 2 := congrArg Prod.fst (List.mem_singleton.mp hmem)
    decide

/-- Both values were stored at the environment's version, which is 2 by now. -/
theorem rotatedSecret_consistent : EpochConsistent nonceEpoch (World.start.run rotatedSecret).db ∧
    keyVersionOf (World.start.run rotatedSecret).db 2 = 2 ∧
    (World.start.run rotatedSecret).db.secretValues.rows.map SecretValueRow.encryptedValue =
      [⟨.record 2, 2, 1⟩] :=
  ⟨epoch_consistent nonceEpoch (fun _ => 1) rotatedSecret rotatedSecret_honest
    rotatedSecret_upToDate, by decide, by decide⟩

/-- The value sealed at version 1 is stored after the rotation: the rotation kept the
secret's revision, and the revision is all that a put checks. -/
theorem staleValue_inconsistent : ¬ ∀ actions, HonestRun nonceEpoch (fun _ => 1) .start actions →
    EpochConsistent nonceEpoch (World.start.run actions).db := by
  intro h
  have honest : HonestRun nonceEpoch (fun _ => 1) .start (firstSecret ++ staleValue) := by
    refine ⟨Or.inl rfl, fun e he => ?_, Or.inl rfl, honest_put rfl rfl, trivial, trivial, trivial,
      trivial, honest_put rfl rfl, honest_rotate rfl, trivial, trivial, trivial, trivial, trivial⟩
    rw [List.mem_singleton] at he
    subst he
    exact ⟨rfl, by decide, rfl⟩
  have hvalue := (h _ honest).values ⟨1, 2, .environment, 1, 3, false, some ⟨.record 2, 0, 0⟩, 2⟩
    (by decide) rfl ⟨1, 4, 2, ⟨.record 2, 1, 1⟩, 3⟩ (by decide) rfl rfl
  revert hvalue
  decide

end Zvault
