import Zvault.Projects.Requests

/-!
# The key version behind every ciphertext

`epoch` tags a ciphertext with the version of the environment key its client
sealed it under, as that client knew the version; `home` is the project an
environment's id was drawn for. `AtEpoch` says that everything stored for an
environment is at its current key version. Each write keeps it, provided that
what the write stores was sealed under the current version.
-/

namespace Zvault

open Relational Relation AccessFacts EnvironmentsService ProjectsStore

/-- Every stored value, kept value and key grant of an environment is at the environment's
key version, and every environment is in the project its id was drawn for. -/
structure AtEpoch (epoch : EncryptedBlob → ℕ) (home : Uuid → Uuid) (db : Db) : Prop where
  environments : ∀ e ∈ db.projectEntries, e.type = .environment →
    home e.id = e.projectId ∧ e.id ≠ e.projectId
  revisions : ∀ e ∈ db.projectEntries, 0 < e.revision
  rows : ∀ r ∈ db.environmentAccess, home r.environmentId = r.projectId ∧
    ∃ e ∈ db.projectEntries, e.key = (r.projectId, r.environmentId)
  values : ∀ v ∈ db.secretValues, home v.environmentId = v.projectId ∧
    epoch v.encryptedValue = keyVersionOf db v.environmentId
  versions : ∀ v ∈ db.secretVersions, ∀ x ∈ v.values, home x.1 = v.projectId ∧
    epoch x.2 = keyVersionOf db x.1
  grants : ∀ g ∈ db.keyGrants, g.resourceId ≠ g.projectId → home g.resourceId = g.projectId ∧
    epoch g.wrappedKey = keyVersionOf db g.resourceId

/-- The values of a write were sealed under the current key versions. -/
def SealedNow (epoch : EncryptedBlob → ℕ) (db : Db) (values : List (Uuid × Option EncryptedBlob)) :
    Prop :=
  ∀ id blob, (id, some blob) ∈ values → epoch blob = keyVersionOf db id

/-- A new environment's id was drawn for its project, and its key is its first one. -/
def FreshEnvironment (epoch : EncryptedBlob → ℕ) (home : Uuid → Uuid) (projectId id : Uuid)
    (wrappedKey : EncryptedBlob) : Prop :=
  home id = projectId ∧ id ≠ projectId ∧ epoch wrappedKey = 1

/-- What an entry write of an honest client looks like: the id of a new environment was
drawn for the project, and only a new environment comes with a key, its first one. -/
structure HonestWrite (epoch : EncryptedBlob → ℕ) (home : Uuid → Uuid) (w : EntryWrite) : Prop where
  drawn : w.type = .environment → w.baseRevision = 0 → home w.id = w.projectId ∧
    w.id ≠ w.projectId
  firstKey : ∀ grant, w.keyGrant = some grant → w.baseRevision = 0 ∧ epoch grant.2 = 1

namespace AtEpoch

variable {epoch : EncryptedBlob → ℕ} {home : Uuid → Uuid} {db db' : Db}

theorem empty (epoch : EncryptedBlob → ℕ) (home : Uuid → Uuid) : AtEpoch epoch home Db.empty where
  environments _ h := absurd h (Table.not_mem_empty _)
  revisions _ h := absurd h (Table.not_mem_empty _)
  rows _ h := absurd h (Table.not_mem_empty _)
  values _ h := absurd h (Table.not_mem_empty _)
  versions _ h := absurd h (Table.not_mem_empty _)
  grants _ h := absurd h (Table.not_mem_empty _)

/-- Entries that stay, with rows taken away and key versions unchanged. -/
theorem of_shrunk (h : AtEpoch epoch home db) (hentries : db'.projectEntries = db.projectEntries)
    (hrows : db'.environmentAccess = db.environmentAccess)
    (hvalues : ∀ v ∈ db'.secretValues, v ∈ db.secretValues)
    (hversions : ∀ v ∈ db'.secretVersions, v ∈ db.secretVersions)
    (hgrants : ∀ g ∈ db'.keyGrants, g ∈ db.keyGrants) : AtEpoch epoch home db' := by
  have hversion (id : Uuid) : keyVersionOf db' id = keyVersionOf db id := by
    rw [keyVersionOf, hrows, keyVersionOf]
  refine ⟨?_, ?_, ?_, fun v hv => ?_, fun v hv x hx => ?_, fun g hg hne => ?_⟩
  · rw [hentries]
    exact h.environments
  · rw [hentries]
    exact h.revisions
  · rw [hentries, hrows]
    exact h.rows
  · rw [hversion]
    exact h.values v (hvalues v hv)
  · rw [hversion]
    exact h.versions v (hversions v hv) x hx
  · rw [hversion]
    exact h.grants g (hgrants g hg) hne

/-- Upkeep moves no key version and stores no ciphertext. -/
theorem upkept (h : AtEpoch epoch home db) (hupkept : Upkept db db') : AtEpoch epoch home db' := by
  refine ⟨?_, ?_, fun r' hr' => ?_, fun v hv => ?_, fun v hv x hx => ?_, fun g hg hne => ?_⟩
  · rw [hupkept.projectEntries]
    exact h.environments
  · rw [hupkept.projectEntries]
    exact h.revisions
  · rw [hupkept.projectEntries]
    rcases hupkept.fresh r' hr' with ⟨r, hr, hid⟩ | ⟨_, hlive⟩
    · rw [(hupkept.row_eq hr hr' hid.symm).1]
      exact h.rows r hr
    · obtain ⟨e, he, hproject, hlive, hid⟩ := mem_environmentIds.mp hlive
      have htype : e.type = .environment := by
        simp only [EntryRow.isLiveEnvironment, decide_eq_true_eq] at hlive
        exact hlive.1
      have hhome := (h.environments e he htype).1
      rw [hid, hproject] at hhome
      exact ⟨hhome, e, he, Prod.ext hproject hid⟩
  · rw [hupkept.keyVersionOf]
    exact h.values v (hupkept.secretValues ▸ hv)
  · rw [hupkept.keyVersionOf]
    exact h.versions v (hupkept.secretVersions ▸ hv) x hx
  · rw [hupkept.keyVersionOf]
    exact h.grants g (hupkept.keyGrants g hg) hne

/-- Wraps of an environment's current key. -/
theorem insertWraps (h : AtEpoch epoch home db) {projectId resourceId : Uuid}
    {keyVersion : Option ℕ} {wrappedBy : Uuid} {wraps : List MemberKeyWrap}
    (hwraps : resourceId ≠ projectId → home resourceId = projectId ∧
      ∀ w ∈ wraps, epoch w.blob = keyVersionOf db resourceId) :
    AtEpoch epoch home
      (EnvironmentsService.insertWraps db projectId resourceId keyVersion wrappedBy wraps).2 := by
  unfold EnvironmentsService.insertWraps
  split
  swap
  · exact h
  refine ⟨h.environments, h.revisions, h.rows, h.values, h.versions, fun g hg hne => ?_⟩
  rcases Table.mem_or_mem_of_mem_insertNewAll hg with hg | ⟨hg, _⟩
  · exact h.grants g hg hne
  · obtain ⟨w, hw, rfl⟩ := List.mem_map.mp hg
    obtain ⟨hhome, hepoch⟩ := hwraps hne
    exact ⟨hhome, hepoch w hw⟩

/-- A rotation whose values and wraps are under the next key. -/
theorem rotated (h : AtEpoch epoch home db) {env : Env} {accountId : Uuid}
    {req : RotateEnvironmentKeyRequest} {now : Timestamp}
    (hrotated : Rotated db db' env accountId req now)
    (hhome : home env.environmentId = env.projectId)
    (hvalues : ∀ v ∈ req.values, epoch v.encryptedValue = env.keyVersion + 1)
    (hwraps : ∀ w ∈ req.wraps, epoch w.blob = env.keyVersion + 1) : AtEpoch epoch home db' := by
  have hversion (id : Uuid) : keyVersionOf db' id =
      if id = env.environmentId then env.keyVersion + 1 else keyVersionOf db id := by
    split
    · rename_i heq
      rw [heq]
      exact hrotated.keyVersionOf_self.2
    · rename_i hne
      exact hrotated.keyVersionOf_ne hne
  obtain ⟨f, hf, hfield⟩ := hrotated.moved
  have hrow (e : EntryRow) (he : e ∈ db.projectEntries) : f e ∈ db'.projectEntries := by
    rw [← Table.mem_rows, hf]
    exact List.mem_map_of_mem he
  refine ⟨fun e' he' htype => ?_, fun e' he' => ?_, fun r' hr' => ?_, fun v hv => ?_,
    fun v hv x hx => ?_, fun g hg hne => ?_⟩
  · rw [← Table.mem_rows, hf] at he'
    obtain ⟨e, he, rfl⟩ := List.mem_map.mp he'
    obtain ⟨seq, updatedAt, heq⟩ := hfield e
    rw [heq] at htype ⊢
    exact h.environments e he htype
  · rw [← Table.mem_rows, hf] at he'
    obtain ⟨e, he, rfl⟩ := List.mem_map.mp he'
    obtain ⟨seq, updatedAt, heq⟩ := hfield e
    rw [heq]
    exact h.revisions e he
  · obtain ⟨r, hr, rfl⟩ := (hrotated.environmentAccess r').mp hr'
    obtain ⟨hr₁, e, he, hkey⟩ := h.rows r hr
    obtain ⟨seq, updatedAt, heq⟩ := hfield e
    have hkey' : (f e).key = e.key := by
      rw [heq]
      rfl
    refine ⟨?_, f e, hrow e he, ?_⟩
    · split <;> exact hr₁
    · rw [hkey', hkey]
      split <;> rfl
  · obtain ⟨v₀, hv₀, rfl⟩ := (hrotated.secretValues v).mp hv
    obtain ⟨hv₀home, hepoch⟩ := h.values v₀ hv₀
    unfold reseal
    split
    · rename_i hof
      have hsent := (hrotated.sent v₀.secretId).mp ⟨v₀, hv₀, hof, rfl⟩
      obtain ⟨r, hr, hid⟩ := List.mem_map.mp hsent
      split
      · rename_i r' hfind
        refine ⟨hv₀home, ?_⟩
        rw [hversion, if_pos hof.2]
        exact hvalues r' (List.mem_of_find?_eq_some hfind)
      · rename_i hnone
        exact absurd hid (by simpa using List.find?_eq_none.mp hnone r hr)
    · rename_i hof
      rw [hversion, if_neg]
      · exact ⟨hv₀home, hepoch⟩
      · intro heq
        exact hof ⟨(heq ▸ hv₀home).symm.trans hhome, heq⟩
  · obtain ⟨v₀, hv₀, rfl⟩ := (hrotated.secretVersions v).mp hv
    have hne : x ∈ v₀.values ∧ (forgetValues env.projectId env.environmentId v₀).projectId =
        v₀.projectId ∧ x.1 ≠ env.environmentId := by
      unfold forgetValues at hx ⊢
      split at hx
      · rename_i hproject
        obtain ⟨hx, hid⟩ := List.mem_filter.mp hx
        rw [if_pos hproject]
        exact ⟨hx, rfl, of_decide_eq_true hid⟩
      · rename_i hproject
        rw [if_neg hproject]
        refine ⟨hx, rfl, fun heq => hproject ?_⟩
        rw [← (h.versions v₀ hv₀ x hx).1, heq, hhome]
    rw [hne.2.1, hversion, if_neg hne.2.2]
    exact h.versions v₀ hv₀ x hne.1
  · rcases (hrotated.keyGrants g).mp hg with ⟨hg, hnot⟩ | ⟨w, hw, rfl⟩
    · obtain ⟨hghome, hepoch⟩ := h.grants g hg hne
      rw [hversion, if_neg]
      · exact ⟨hghome, hepoch⟩
      · intro heq
        exact hnot ⟨(heq ▸ hghome).symm.trans hhome, heq⟩
    · refine ⟨hhome, ?_⟩
      rw [hversion]
      exact (hwraps w hw).trans (if_pos rfl).symm

/-- A new project whose environments come with their first keys. -/
theorem created (h : AtEpoch epoch home db) {p : NewProject} (hcreated : Created db db' p)
    (hfresh : ∀ e ∈ p.environments, FreshEnvironment epoch home p.id e.id e.encryptedKey)
    (hempty : ∀ e ∈ db.projectEntries, e.projectId ≠ p.id) : AtEpoch epoch home db' := by
  have hrows : db'.environmentAccess = db.environmentAccess := by
    rw [hcreated.frame]
  have hvalues : db'.secretValues = db.secretValues := by
    rw [hcreated.frame]
  have hversions : db'.secretVersions = db.secretVersions := by
    rw [hcreated.frame]
  have hversion (id : Uuid) : keyVersionOf db' id = keyVersionOf db id := by
    rw [keyVersionOf, hrows, keyVersionOf]
  have hfirst (id : Uuid) (hid : home id = p.id) : keyVersionOf db id = 1 := by
    refine keyVersionOf_eq_one fun r hr hrid => ?_
    obtain ⟨hhome, e, he, hkey⟩ := h.rows r hr
    have hproject : e.projectId = r.projectId := congrArg Prod.fst hkey
    apply hempty e he
    rw [hproject, ← hhome, hrid, hid]
  refine ⟨fun e he htype => ?_, fun e he => ?_, fun r hr => ?_, fun v hv => ?_,
    fun v hv x hx => ?_, fun g hg hne => ?_⟩
  · rcases (hcreated.entries e).mp he with he | ⟨i, hi, rfl⟩
    · exact h.environments e he htype
    · obtain ⟨hhome, hne, _⟩ := hfresh _ (List.getElem_mem hi)
      exact ⟨hhome, hne⟩
  · rcases (hcreated.entries e).mp he with he | ⟨i, hi, rfl⟩
    · exact h.revisions e he
    · exact Nat.one_pos
  · rw [hrows] at hr
    obtain ⟨hhome, e, he, hkey⟩ := h.rows r hr
    exact ⟨hhome, e, (hcreated.entries e).mpr (Or.inl he), hkey⟩
  · rw [hversion]
    exact h.values v (hvalues ▸ hv)
  · rw [hversion]
    exact h.versions v (hversions ▸ hv) x hx
  · rw [hversion]
    rcases (hcreated.keyGrants g).mp hg with hg | rfl | ⟨e, he, rfl⟩
    · exact h.grants g hg hne
    · exact absurd rfl hne
    · obtain ⟨hhome, _, hepoch⟩ := hfresh e he
      exact ⟨hhome, hepoch.trans (hfirst e.id hhome).symm⟩

/-- Deleting a project takes its environments and everything stored for them. -/
theorem deleteProject (h : AtEpoch epoch home db) (projectId : Uuid) :
    AtEpoch epoch home (deleteProject db projectId) := by
  have hversion (id : Uuid) (hid : home id ≠ projectId) :
      keyVersionOf (ProjectsStore.deleteProject db projectId) id = keyVersionOf db id := by
    refine keyVersionOf_congr fun r hr => ?_
    simp only [ProjectsStore.deleteProject, Table.mem_delete, decide_eq_false_iff_not,
      and_iff_left_iff_imp]
    exact fun hmem hproject => hid (hr ▸ (h.rows r hmem).1.trans hproject)
  refine ⟨fun e he htype => ?_, fun e he => ?_, fun r hr => ?_, fun v hv => ?_,
    fun v hv x hx => ?_, fun g hg hne => ?_⟩
  · exact h.environments e (Table.mem_delete.mp he).1 htype
  · exact h.revisions e (Table.mem_delete.mp he).1
  · obtain ⟨hr, hproject⟩ := Table.mem_delete.mp hr
    obtain ⟨hhome, e, he, hkey⟩ := h.rows r hr
    have heproject : e.projectId = r.projectId := congrArg Prod.fst hkey
    refine ⟨hhome, e, Table.mem_delete.mpr ⟨he, ?_⟩, hkey⟩
    rw [heproject]
    exact hproject
  · obtain ⟨hv, hproject⟩ := Table.mem_delete.mp hv
    obtain ⟨hhome, hepoch⟩ := h.values v hv
    refine ⟨hhome, hepoch.trans (hversion _ ?_).symm⟩
    rw [hhome]
    exact of_decide_eq_false hproject
  · obtain ⟨hv, hproject⟩ := Table.mem_delete.mp hv
    obtain ⟨hhome, hepoch⟩ := h.versions v hv x hx
    refine ⟨hhome, hepoch.trans (hversion _ ?_).symm⟩
    rw [hhome]
    exact of_decide_eq_false hproject
  · obtain ⟨hg, hproject⟩ := Table.mem_delete.mp hg
    obtain ⟨hhome, hepoch⟩ := h.grants g hg hne
    refine ⟨hhome, hepoch.trans (hversion _ ?_).symm⟩
    rw [hhome]
    exact of_decide_eq_false hproject

end AtEpoch

section Written

variable {epoch : EncryptedBlob → ℕ} {home : Uuid → Uuid} {db db' : Db} {w : EntryWrite} {seq : ℕ}

/-- What a write stores for a secret, value by value. -/
theorem mem_foldl_putValue {projectId secretId : Uuid} {now : Timestamp}
    {values : List (Uuid × Option EncryptedBlob)} {t : Table SecretValueRow.key}
    {v : SecretValueRow} (hv : v ∈ values.foldl (putValue projectId secretId now) t) :
    v ∈ t ∨ (v.projectId = projectId ∧ (v.environmentId, some v.encryptedValue) ∈ values) := by
  induction values generalizing t with
  | nil => exact Or.inl hv
  | cons x values ih =>
    rcases ih hv with hmid | ⟨hproject, hmem⟩
    · obtain ⟨id, blob⟩ := x
      cases blob with
      | none => exact Or.inl (Table.mem_delete.mp hmid).1
      | some blob =>
        rcases Table.mem_upsert.mp hmid with ⟨hold, _⟩ | ⟨r, _, hkey, rfl⟩ | ⟨rfl, _⟩
        · exact Or.inl hold
        · have hproject : r.projectId = projectId := congrArg Prod.fst hkey
          have hid : r.environmentId = id := congrArg (fun k => k.2.2) hkey
          exact Or.inr ⟨hproject, hid ▸ List.mem_cons_self⟩
        · exact Or.inr ⟨rfl, List.mem_cons_self⟩
    · exact Or.inr ⟨hproject, List.mem_cons_of_mem _ hmem⟩

/-- A write deletes an environment. -/
def EntryWrite.Deletes (w : EntryWrite) (projectId environmentId : Uuid) : Prop :=
  w.type = .environment ∧ w.encryptedMeta = none ∧ projectId = w.projectId ∧ environmentId = w.id

/-- A stored value was there and its environment stays, or is one of the write's values. -/
theorem mem_writeContent_secretValues {v : SecretValueRow}
    (hv : v ∈ (writeContent db w).secretValues) :
    (v ∈ db.secretValues ∧ ¬w.Deletes v.projectId v.environmentId) ∨
      (w.type = .secret ∧ v.projectId = w.projectId ∧
        (v.environmentId, some v.encryptedValue) ∈ w.values) := by
  unfold writeContent at hv
  unfold EntryWrite.Deletes
  split at hv
  · simp only [deleteEnvironment, dropVersionValues, Table.mem_delete,
      decide_eq_false_iff_not] at hv
    exact Or.inl ⟨hv.1, fun hgone => hv.2 hgone.2.2⟩
  · rename_i hmeta _
    exact Or.inl ⟨hv, fun hgone => by simp [hgone.2.1] at hmeta⟩
  · rename_i hmeta _
    exact Or.inl ⟨hv, fun hgone => by simp [hgone.2.1] at hmeta⟩
  · rename_i htype _
    exact Or.inl ⟨(Table.mem_delete.mp hv).1, fun hgone => by simp [hgone.1] at htype⟩
  · rename_i htype _
    rcases mem_foldl_putValue hv with hold | hnew
    · exact Or.inl ⟨hold, fun hgone => by simp [hgone.1] at htype⟩
    · exact Or.inr ⟨htype, hnew⟩
  · rename_i htype
    exact Or.inl ⟨hv, fun hgone => by simp [hgone.1] at htype⟩

/-- A stored key grant was there and its environment stays, or is the write's own. -/
theorem mem_writeContent_keyGrants {g : KeyGrantRow} (hg : g ∈ (writeContent db w).keyGrants) :
    (g ∈ db.keyGrants ∧ ¬w.Deletes g.projectId g.resourceId) ∨
      (w.type = .environment ∧ g.projectId = w.projectId ∧ g.resourceId = w.id ∧
        w.keyGrant = some (g.accountId, g.wrappedKey)) := by
  unfold writeContent at hg
  unfold EntryWrite.Deletes
  split at hg
  · simp only [deleteEnvironment, dropVersionValues, Table.mem_delete,
      decide_eq_false_iff_not] at hg
    exact Or.inl ⟨hg.1, fun hgone => hg.2 hgone.2.2⟩
  · rename_i htype hmeta hgrant
    rcases Table.mem_upsert.mp hg with ⟨hold, _⟩ | ⟨x, _, hkey, rfl⟩ | ⟨rfl, _⟩
    · exact Or.inl ⟨hold, fun hgone => by simp [hgone.2.1] at hmeta⟩
    · have hproject : x.projectId = w.projectId := congrArg Prod.fst hkey
      have hid : x.resourceId = w.id := congrArg (fun k => k.2.1) hkey
      have haccount : x.accountId = _ := congrArg (fun k => k.2.2) hkey
      exact Or.inr ⟨htype, hproject, hid, by rw [haccount]; exact hgrant⟩
    · exact Or.inr ⟨htype, rfl, rfl, hgrant⟩
  · rename_i hmeta _
    exact Or.inl ⟨hg, fun hgone => by simp [hgone.2.1] at hmeta⟩
  · rename_i htype _
    exact Or.inl ⟨hg, fun hgone => by simp [hgone.1] at htype⟩
  · rename_i htype _
    exact Or.inl ⟨hg, fun hgone => by simp [hgone.1] at htype⟩
  · rename_i htype
    exact Or.inl ⟨hg, fun hgone => by simp [hgone.1] at htype⟩

/-- The access rows of environments that stay. -/
theorem mem_writeContent_environmentAccess {r : EnvironmentAccessRow} :
    r ∈ (writeContent db w).environmentAccess ↔
      r ∈ db.environmentAccess ∧ ¬w.Deletes r.projectId r.environmentId := by
  unfold writeContent
  unfold EntryWrite.Deletes
  split <;> simp_all [deleteEnvironment, dropVersionValues, Table.mem_delete]

/-- A write of values sealed under the current keys. -/
theorem AtEpoch.written (h : AtEpoch epoch home db) (hw : Written db db' w seq)
    (hhonest : HonestWrite epoch home w) (hsealed : SealedNow epoch db w.values) :
    AtEpoch epoch home db' := by
  obtain ⟨htype, hrevision, _⟩ := entryRefusal_eq_none hw.accepted
  have hown (henv : w.type = .environment) : home w.id = w.projectId ∧ w.id ≠ w.projectId := by
    cases hfind : db.projectEntries.find (w.projectId, w.id) with
    | none =>
      rw [hfind] at hrevision
      exact hhonest.drawn henv hrevision.symm
    | some c =>
      obtain ⟨hc, hkey⟩ := Table.find_eq_some.mp hfind
      have hproject : c.projectId = w.projectId := congrArg Prod.fst hkey
      have hid : c.id = w.id := congrArg Prod.snd hkey
      have hcurrent := h.environments c hc ((htype c hfind).trans henv)
      rwa [hproject, hid] at hcurrent
  have hkept {id : Uuid} (hnot : ¬w.Deletes (home id) id) :
      keyVersionOf db' id = keyVersionOf db id := by
    refine keyVersionOf_congr fun r hr => ?_
    rw [hw.environmentAccess, mem_writeContent_environmentAccess, and_iff_left_iff_imp]
    intro hmem
    rwa [← (h.rows r hmem).1, hr]
  refine ⟨fun e he henv => ?_, fun e he => ?_, fun r hr => ?_, fun v hv => ?_,
    fun v hv x hx => ?_, fun g hg hne => ?_⟩
  · rcases (hw.entries e).mp he with ⟨he, _⟩ | rfl
    · exact h.environments e he henv
    · exact hown henv
  · rcases (hw.entries e).mp he with ⟨he, _⟩ | rfl
    · exact h.revisions e he
    · exact Nat.succ_pos _
  · rw [hw.environmentAccess, mem_writeContent_environmentAccess] at hr
    obtain ⟨hhome, e, he, hkey⟩ := h.rows r hr.1
    refine ⟨hhome, ?_⟩
    by_cases hsame : e.key = (w.projectId, w.id)
    · exact ⟨writtenRow w seq, (hw.entries _).mpr (Or.inr rfl), hsame.symm.trans hkey⟩
    · exact ⟨e, (hw.entries e).mpr (Or.inl ⟨he, hsame⟩), hkey⟩
  · rw [hw.secretValues] at hv
    rcases mem_writeContent_secretValues hv with ⟨hold, hnot⟩ | ⟨hsecret, hproject, hnew⟩
    · obtain ⟨hhome, hepoch⟩ := h.values v hold
      exact ⟨hhome, hepoch.trans (hkept (hhome ▸ hnot)).symm⟩
    · obtain ⟨e, he, heproject, hlive, hid⟩ := hw.values_live (List.mem_map_of_mem hnew)
      simp only [EntryRow.isLiveEnvironment, decide_eq_true_eq] at hlive
      have hhome := (h.environments e he hlive.1).1
      rw [hid, heproject] at hhome
      refine ⟨hhome.trans hproject.symm, (hsealed _ _ hnew).trans (hkept ?_).symm⟩
      exact fun hgone => by simp [hgone.1] at hsecret
  · obtain ⟨hhome, hepoch⟩ : home x.1 = v.projectId ∧ epoch x.2 = keyVersionOf db x.1 := by
      rcases hw.versions v hv x hx with ⟨v₀, hv₀, hproject, hx₀⟩ | ⟨hproject, u, hu, huproject, rfl⟩
      · exact hproject ▸ h.versions v₀ hv₀ x hx₀
      · obtain ⟨hhome, hepoch⟩ := h.values u hu
        exact ⟨hhome.trans (huproject.trans hproject.symm), hepoch⟩
    refine ⟨hhome, hepoch.trans (hkept fun hgone => ?_).symm⟩
    obtain ⟨henv, hmeta, hproject, hid⟩ := hgone
    exact hw.forgotten henv hmeta v hv (hhome.symm.trans hproject) x hx hid
  · rw [hw.keyGrants] at hg
    rcases mem_writeContent_keyGrants hg with ⟨hold, hnot⟩ | ⟨henv, hproject, hid, hgrant⟩
    · obtain ⟨hhome, hepoch⟩ := h.grants g hold hne
      exact ⟨hhome, hepoch.trans (hkept (hhome ▸ hnot)).symm⟩
    · obtain ⟨hbase, hepoch⟩ := hhonest.firstKey _ hgrant
      have hhome := (hown henv).1
      rw [hproject, hid]
      refine ⟨hhome, hepoch.trans (keyVersionOf_eq_one fun r hr hrid => ?_).symm⟩
      rw [hw.environmentAccess, mem_writeContent_environmentAccess] at hr
      obtain ⟨hrhome, e, he, hkey⟩ := h.rows r hr.1
      rw [← hrhome, hrid, hhome] at hkey
      rw [Table.find_eq_some.mpr ⟨he, hkey⟩] at hrevision
      have hpositive := h.revisions e he
      simp only [Option.map_some, Option.getD_some] at hrevision
      omega

end Written

end Zvault
