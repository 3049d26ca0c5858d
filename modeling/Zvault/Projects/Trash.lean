import Zvault.Projects.EpochRuns
import Zvault.Projects.History

/-!
# The trash of a project

A deleted secret is listed with the newest version kept of it. The client writes that
version back, with the values of the environments that it can open.
-/

namespace Zvault

open Relational ProjectsStore ProjectsService EnvironmentsService AccessFacts Versions
open Function (update)

/-- `restoreFromTrash` of the client: a deleted secret with the values it had in environments that
are there and unlocked. -/
def restoreFromTrash (unlocked : Uuid → Bool) (secret : TrashedSecret) : PutSecretRequest where
  baseRevision := secret.revision
  encryptedMeta := secret.lastVersion.encryptedMeta
  values := (secret.lastVersion.values.filter fun v => unlocked v.1).map fun v => (v.1, some v.2)

/-- The first statement of `purgeTrash`: the deleted secrets whose versions will go. -/
def purgeable (db : Db) (projectId : Uuid) (secretId : Option Uuid) (before : Timestamp) : List Uuid :=
  (db.projectEntries.select fun e => (e.projectId = projectId ∧ e.type = .secret ∧ e.deleted) &&
    match secretId with
    | none => decide (e.updatedAt < before)
    | some id => decide (e.id = id)).map EntryRow.id

theorem purgeTrash_eq (db : Db) (projectId : Uuid) (secretId : Option Uuid) (before : Timestamp) :
    (purgeTrash db projectId secretId before).2 =
      purgeVersions db projectId (purgeable db projectId secretId before) := rfl

/-- The secret is there and not deleted. -/
def IsLiveSecret (db : Db) (projectId secretId : Uuid) : Prop :=
  (entryRecord db projectId secretId).content.isSome = true

/-- A purge takes no entry, and no version of a secret that is live. -/
structure SparesLive (db db' : Db) : Prop where
  entries : db'.projectEntries = db.projectEntries
  versions : ∀ v ∈ db.secretVersions, IsLiveSecret db v.projectId v.secretId → v ∈ db'.secretVersions

section Trash

variable {db db' : Db} {projectId id user : Uuid} {now since before : Timestamp} {w : EntryWrite}
  {events : List (Event SecretContent)}

/-- A listed secret is its tombstone, with the newest version kept. -/
theorem mem_listTrash {t : StoredTrashedSecret} (h : t ∈ listTrash db projectId since user) :
    t.revision = (entryRecord db projectId t.id).revision ∧
      ∃ v, db.secretVersions.find (projectId, t.id, v.revision) = some v ∧
        t.lastVersion = toSecretVersion v (viewerEnvironments db projectId user) ∧
        ∀ k, ((entryRecord db projectId t.id).kept k).isSome = true → k ≤ v.revision := by
  unfold listTrash at h
  dsimp only at h
  obtain ⟨⟨e, v⟩, hrow, rfl⟩ := List.mem_map.mp ((List.mem_insertionSort _).mp h)
  obtain ⟨e', he', hlast⟩ := List.mem_filterMap.mp hrow
  obtain ⟨v', hv', heq⟩ := Option.map_eq_some_iff.mp hlast
  obtain ⟨rfl, rfl⟩ := Prod.mk.inj heq
  simp only [List.mem_insertionSort, Table.mem_select, decide_eq_true_eq] at he'
  obtain ⟨he', rfl, -⟩ := he'
  obtain ⟨hmem, hnewest⟩ := newestFirst hv'
  simp only [Table.mem_select, decide_eq_true_eq] at hmem
  obtain ⟨hmem, hproject, hsecret⟩ := hmem
  refine ⟨?_, v', Table.find_eq_some.mpr ⟨hmem, by rw [SecretVersionRow.key, hproject, hsecret]⟩, rfl,
    fun k hk => ?_⟩
  · have hfind : db.projectEntries.find (e'.projectId, e'.id) = some e' :=
      Table.find_eq_some.mpr ⟨he', rfl⟩
    simp only [entryRecord, hfind, Option.map_some, Option.getD_some]
  · rw [entryRecord, Option.isSome_map] at hk
    obtain ⟨v, hfind⟩ := Option.isSome_iff_exists.mp hk
    obtain ⟨hv, hkey⟩ := Table.find_eq_some.mp hfind
    obtain ⟨hproject', hrest⟩ := Prod.mk.inj hkey
    obtain ⟨hsecret', rfl⟩ := Prod.mk.inj hrest
    exact hnewest v (Table.mem_select.mpr ⟨hv, decide_eq_true ⟨hproject', hsecret'⟩⟩)

theorem foldl_update_of_not_mem {values : List (Uuid × Option EncryptedBlob)}
    {value : Uuid → Option EncryptedBlob} {environmentId : Uuid}
    (hnot : environmentId ∉ values.map Prod.fst) :
    values.foldl (fun value v => update value v.1 v.2) value environmentId = value environmentId := by
  induction values generalizing value with
  | nil => rfl
  | cons v values ih =>
    rw [List.map_cons, List.mem_cons, not_or] at hnot
    rw [List.foldl_cons, ih hnot.2, Function.update_of_ne hnot.1]

/-- A value that is listed once is put. -/
theorem foldl_update_of_mem {values : List (Uuid × Option EncryptedBlob)}
    (hnodup : (values.map Prod.fst).Nodup) (value : Uuid → Option EncryptedBlob)
    {environmentId : Uuid} {x : Option EncryptedBlob} (hmem : (environmentId, x) ∈ values) :
    values.foldl (fun value v => update value v.1 v.2) value environmentId = x := by
  induction values generalizing value with
  | nil => cases hmem
  | cons v values ih =>
    rw [List.map_cons, List.nodup_cons] at hnodup
    rcases List.mem_cons.mp hmem with rfl | hmem
    · rw [List.foldl_cons, foldl_update_of_not_mem hnodup.1]
      exact Function.update_self ..
    · exact ih hnodup.2 _ hmem

/-- A deletion clears the values of the secret. -/
theorem valueOf_deleted {seq : ℕ} (hw : Written db db' w seq) (htype : w.type = .secret)
    (hmeta : w.encryptedMeta = none) (environmentId : Uuid) :
    valueOf db' w.projectId w.id environmentId = none := by
  have hvalues := hw.secretValues
  unfold writeContent at hvalues
  simp only [htype, hmeta] at hvalues
  rw [valueOf, hvalues, Option.map_eq_none_iff, Table.find_eq_none]
  intro v hv hkey
  obtain ⟨hproject, hrest⟩ := Prod.mk.inj hkey
  have hkept := (Table.mem_delete.mp hv).2
  exact of_decide_eq_false hkept ⟨hproject, (Prod.mk.inj hrest).1⟩

/-- Only a put of the secret gives it a value. -/
theorem EntryStep.valueOf_eq_none (h : EntryStep projectId id db events db')
    (hwrites : writes events = 0) {environmentId : Uuid}
    (hnone : valueOf db projectId id environmentId = none) :
    valueOf db' projectId id environmentId = none := by
  cases h with
  | accepted h =>
    rename_i w entry
    have hother : (w.projectId, w.id) ≠ (projectId, id) := by
      intro hown
      rw [EntryWrite.events, if_pos hown] at hwrites
      cases hwrites
    obtain ⟨seq, hw⟩ := written_of_accepted h
    rw [hw.valueOf_of_ne hother, hnone]
    exact ite_self none
  | refused h => rwa [writeEntry_refused h]
  | rotate h =>
    rw [valueOf, Table.find_of_mem_iff (fun v => reseal_key _ _ _ v) (rotateTx_ok h).secretValues,
      Option.map_map, Option.map_eq_none_iff]
    exact Option.map_eq_none_iff.mp hnone
  | purge | purgeExpired => exact hnone
  | create hid h =>
    rw [(createProject_eq_some h).frame]
    exact hnone
  | deleteProject hid =>
    rw [← hnone]
    refine congrArg (Option.map SecretValueRow.encryptedValue) (Table.find_delete fun v _ hkey => ?_)
    exact decide_eq_false fun hproject => hid (hproject.symm.trans (Prod.mk.inj hkey).1)
  | other hentries hvalues hversions => rwa [valueOf, hvalues]

theorem EntryRun.valueOf_eq_none (h : EntryRun projectId id db events db')
    (hwrites : writes events = 0) {environmentId : Uuid}
    (hnone : valueOf db projectId id environmentId = none) :
    valueOf db' projectId id environmentId = none := by
  induction h with
  | refl => exact hnone
  | tail _ hstep ih =>
    rw [Record.writes_append] at hwrites
    exact hstep.valueOf_eq_none (by omega) (ih (by omega))

theorem Upkept.entryRecord (h : Upkept db db') (projectId id : Uuid) :
    entryRecord db' projectId id = entryRecord db projectId id :=
  EntryStep.entryRecord (.other h.projectEntries h.secretValues h.secretVersions)

theorem Upkept.valueOf (h : Upkept db db') (projectId id : Uuid) :
    valueOf db' projectId id = valueOf db projectId id := by
  unfold Zvault.valueOf
  rw [h.secretValues]

/-- An accepted put of a secret is an accepted write, after some upkeep. -/
theorem putSecret_ok {req : PutSecretRequest} {entry : ProjectEntry}
    (h : putSecret db user projectId id req now = (.ok entry, db')) :
    ∃ db₁ seq, Upkept db db₁ ∧ Written db₁ db' (entryWrite user projectId id .secret
      req.baseRevision (some req.encryptedMeta) req.values none now) seq := by
  unfold putSecret serveWrite at h
  split at h
  · cases h
  rename_i w db₁ hadmitted
  have hupkept := (admitSecret_upkeep db user projectId id req now).upkept
  rw [hadmitted] at hupkept
  rw [← admitSecret_ok hadmitted]
  unfold ProjectsService.write at h
  rcases writeEntry_cases db₁ w with ⟨seq, hw, hanswer⟩ | ⟨-, hnot⟩
  · split at h <;> rename_i heq
    · rw [heq] at hw
      obtain ⟨-, rfl⟩ := Prod.mk.inj h
      exact ⟨db₁, seq, hupkept, hw⟩
    all_goals
      rw [heq] at hanswer
      cases hanswer
  · split at h <;> rename_i heq
    · exact absurd (congrArg Prod.fst heq) (hnot _)
    all_goals cases h

/-- What the trash answers is listed in a state that some upkeep led to. -/
theorem trash_ok {secrets : List TrashedSecret} {secret : TrashedSecret}
    (h : trash db user projectId now = (.ok secrets, db')) (hmem : secret ∈ secrets) :
    Upkept db db' ∧ ∃ t ∈ listTrash db' projectId (trashCutoff now) user, t.id = secret.id ∧
      t.revision = secret.revision ∧ t.lastVersion = secret.lastVersion := by
  have hupkept := (access_upkeep db user projectId now).upkept
  unfold trash at h
  split at h
  · cases h
  · rename_i haccess
    rw [haccess] at hupkept
    obtain ⟨hsecrets, rfl⟩ := Prod.mk.inj h
    obtain rfl := Except.ok.inj hsecrets
    obtain ⟨t, ht, rfl⟩ := List.mem_map.mp hmem
    exact ⟨hupkept, t, ht, rfl, rfl, rfl⟩

/-- The values that are put back are those of the version, in every environment that the account
has a key of and the client can open. -/
theorem value_restored {v : SecretVersionRow} {secret : TrashedSecret} {unlocked : Uuid → Bool}
    {environments : List Uuid} {value : Uuid → Option EncryptedBlob} {environmentId : Uuid}
    (hversion : secret.lastVersion = toSecretVersion v environments)
    (hnodup : ((restoreFromTrash unlocked secret).values.map Prod.fst).Nodup)
    (hkey : environmentId ∈ environments) (hunlocked : unlocked environmentId = true)
    (hnone : value environmentId = none) :
    (restoreFromTrash unlocked secret).values.foldl (fun value v => update value v.1 v.2) value
      environmentId = v.content.value environmentId := by
  have hmem : ∀ {x : EncryptedBlob}, (environmentId, x) ∈ v.values →
      (environmentId, some x) ∈ (restoreFromTrash unlocked secret).values := by
    intro x hx
    refine List.mem_map.mpr ⟨(environmentId, x), List.mem_filter.mpr ⟨?_, hunlocked⟩, rfl⟩
    rw [hversion, toSecretVersion, List.mem_insertionSort]
    exact List.mem_filter.mpr ⟨hx, decide_eq_true hkey⟩
  change _ = v.values.lookup environmentId
  cases hlookup : v.values.lookup environmentId with
  | some x =>
    obtain ⟨l₁, l₂, hsplit, -⟩ := List.lookup_eq_some_iff.mp hlookup
    exact foldl_update_of_mem hnodup value (hmem (by simp [hsplit]))
  | none =>
    rw [foldl_update_of_not_mem, hnone]
    intro hput
    obtain ⟨p, hp, hfst⟩ := List.mem_map.mp hput
    obtain ⟨q, hq, rfl⟩ := List.mem_map.mp hp
    rw [hversion, toSecretVersion] at hq
    have hq := (List.mem_filter.mp ((List.mem_insertionSort _).mp (List.mem_filter.mp hq).1)).1
    have hne := List.lookup_eq_none_iff.mp hlookup q hq
    exact absurd hfst.symm (by simpa using hne)

/-- A run in which a secret is deleted, is found in the trash by an account and is put back. -/
structure Restoration where
  /-- The state in which the secret is new, before and after it is deleted, when the account looks and
  once it has looked, and before and after the account puts the secret back. -/
  (start held deleted looking found putting final : Db)
  delete : EntryWrite
  user : Uuid
  unlocked : Uuid → Bool
  secrets : List TrashedSecret
  secret : TrashedSecret
  (before after between : List (Event SecretContent))
  (tombstone entry : ProjectEntry)
  (lookedAt now : Timestamp)
  fresh : entryRecord start delete.projectId delete.id = .fresh
  past : EntryRun delete.projectId delete.id start before held
  isDelete : delete.encryptedMeta = none
  accepted : writeEntry held delete = (.ok tombstone, deleted)
  future : EntryRun delete.projectId delete.id deleted after looking
  /-- The secret is not written before it is found. -/
  unwritten : writes after = 0
  listed : trash looking user delete.projectId lookedAt = (.ok secrets, found)
  secret_mem : secret ∈ secrets
  id_eq : secret.id = delete.id
  later : EntryRun delete.projectId delete.id found between putting
  putBack : putSecret putting user delete.projectId secret.id (restoreFromTrash unlocked secret) now =
    (.ok entry, final)

/-- A restored secret has what it held when it was deleted, in every environment that the account
could open when it looked, but for those that lost their values in between. -/
theorem Restoration.content_final (r : Restoration) {content : SecretContent}
    (hcontent : (entryRecord r.held r.delete.projectId r.delete.id).content = some content) :
    ∃ content', (entryRecord r.final r.delete.projectId r.delete.id).content = some content' ∧
      content'.encryptedMeta = content.encryptedMeta ∧
      ∀ environmentId ∈ viewerEnvironments r.found r.delete.projectId r.user,
        r.unlocked environmentId = true → ¬ Forgets r.after environmentId →
          content'.value environmentId = content.value environmentId := by
  have hlimit : 0 < maxVersionsPerRecord := by decide
  obtain ⟨seq, hw⟩ := written_of_accepted r.accepted
  have htype : r.delete.type = .secret := by
    obtain ⟨c, hfind, hc⟩ := Option.bind_eq_some_iff.mp hcontent
    exact ((entryRefusal_eq_none hw.accepted).1 c hfind).symm.trans (content_eq_some.mp hc).1
  -- the delete keeps the content
  have hnone : r.delete.content (valueOf r.held r.delete.projectId r.delete.id) = none := by
    rw [EntryWrite.content, htype, r.isDelete]
  have hdeleted := entryRecord_accepted r.delete.projectId r.delete.id r.accepted
  rw [EntryWrite.events, if_pos rfl, hnone, if_neg fun h => by simp [h.2.1] at htype] at hdeleted
  have hwithin : (entryRecord r.held r.delete.projectId r.delete.id).Within maxVersionsPerRecord := by
    rw [r.past.entryRecord, r.fresh]
    exact Record.within_run_fresh hlimit
  -- the trash lists it
  obtain ⟨hupkept, t, ht, htid, htrevision, htversion⟩ := trash_ok r.listed r.secret_mem
  obtain ⟨hrevision, v, hv, hversion, hnewest⟩ := mem_listTrash ht
  rw [htid, r.id_eq] at hrevision hv hnewest
  have hrecord := (hupkept.entryRecord r.delete.projectId r.delete.id).trans r.future.entryRecord
  have hkept : (entryRecord r.found r.delete.projectId r.delete.id).kept v.revision =
      some v.content := by
    simp only [entryRecord, hv, Option.map_some]
  rw [hrecord, hdeleted] at hkept hnewest
  have hlast := hwithin.newest hlimit hcontent none r.unwritten hkept hnewest
  have hleft := r.future.leftOf content
  rw [← hlast] at hleft
  -- and the client puts it back
  obtain ⟨db₁, seq', hupkept', hw'⟩ := putSecret_ok r.putBack
  rw [r.id_eq] at hw'
  have hbase : (entryRecord db₁ r.delete.projectId r.delete.id).revision = r.secret.revision :=
    (entryRefusal_eq_none hw'.accepted).2.1
  have hunwritten : writes r.between = 0 := by
    rw [hupkept'.entryRecord, r.later.entryRecord, Record.revision_run, ← hrevision, htrevision]
      at hbase
    omega
  refine ⟨_, hw'.content, ?_, fun environmentId hkey hunlocked hforgets => ?_⟩
  · change r.secret.lastVersion.encryptedMeta = _
    rw [← htversion, hversion]
    exact hleft.encryptedMeta
  · rw [← hleft.remembered environmentId hforgets]
    refine value_restored (htversion.symm.trans hversion) hw'.nodup_values hkey hunlocked ?_
    change valueOf db₁ r.delete.projectId r.delete.id environmentId = none
    rw [hupkept'.valueOf]
    refine r.later.valueOf_eq_none hunwritten ?_
    rw [hupkept.valueOf]
    exact r.future.valueOf_eq_none r.unwritten (valueOf_deleted hw htype r.isDelete environmentId)

/-- What was found to purge was deleted. -/
theorem content_of_mem_purgeable {secretId : Option Uuid}
    (h : id ∈ purgeable db projectId secretId before) : (entryRecord db projectId id).content = none := by
  obtain ⟨e, he, rfl⟩ := List.mem_map.mp h
  simp only [Table.mem_select, Bool.and_eq_true, decide_eq_true_eq] at he
  obtain ⟨he, ⟨rfl, -, hdeleted⟩, -⟩ := he
  rw [content_entryRecord (Table.find_eq_some.mpr ⟨he, rfl⟩)]
  refine Option.eq_none_iff_forall_ne_some.mpr fun content hcontent => ?_
  rw [(content_eq_some.mp hcontent).2.1] at hdeleted
  cases hdeleted

/-- Emptying the trash spares what is live exactly when each secret that it found, and that is live
again, has no version. -/
theorem sparesLive_iff {secretId : Option Uuid} {events : Uuid → List (Event SecretContent)}
    (hrun : ∀ id ∈ purgeable db projectId secretId before, EntryRun projectId id db (events id) db') :
    SparesLive db' (purgeVersions db' projectId (purgeable db projectId secretId before)) ↔
      ∀ id ∈ purgeable db projectId secretId before, (written (events id) none).isSome = true →
        ∀ k, ((entryRecord db projectId id).run maxVersionsPerRecord (events id)).kept k = none := by
  have hlive : ∀ id ∈ purgeable db projectId secretId before, IsLiveSecret db' projectId id ↔
      (written (events id) none).isSome = true := by
    intro id hid
    rw [IsLiveSecret, (hrun id hid).entryRecord, Record.content_run, content_of_mem_purgeable hid]
  constructor
  · intro h id hid hwritten k
    rw [← (hrun id hid).entryRecord]
    refine Option.eq_none_iff_forall_ne_some.mpr fun content hkept => ?_
    obtain ⟨v, hfind, -⟩ := Option.map_eq_some_iff.mp hkept
    obtain ⟨hv, hkey⟩ := Table.find_eq_some.mp hfind
    obtain ⟨rfl, hrest⟩ := Prod.mk.inj hkey
    obtain ⟨rfl, -⟩ := Prod.mk.inj hrest
    have hspared := (Table.mem_delete.mp (h.versions v hv ((hlive _ hid).mpr hwritten))).2
    exact of_decide_eq_false hspared ⟨rfl, hid⟩
  · intro h
    refine ⟨rfl, fun v hv hvlive => Table.mem_delete.mpr ⟨hv, decide_eq_false ?_⟩⟩
    rintro ⟨rfl, hid⟩
    have hnone := h _ hid ((hlive _ hid).mp hvlive) v.revision
    rw [← (hrun _ hid).entryRecord, entryRecord, Option.map_eq_none_iff] at hnone
    exact Table.find_eq_none.mp hnone v hv rfl

/-- Dropping what has expired spares what is live. -/
theorem sparesLive_purgeExpired (db : Db) (before : Timestamp) :
    SparesLive db (purgeExpired db before) := by
  refine ⟨rfl, fun v hv hlive => Table.mem_delete.mpr ⟨hv, Bool.eq_false_iff.mpr fun hexpired => ?_⟩⟩
  obtain ⟨e, hfind, hdeleted, -⟩ := isExpired_iff.mpr hexpired
  obtain ⟨content, hcontent⟩ := Option.isSome_iff_exists.mp hlive
  rw [content_entryRecord hfind] at hcontent
  rw [(content_eq_some.mp hcontent).2.1] at hdeleted
  cases hdeleted

end Trash

end Zvault
