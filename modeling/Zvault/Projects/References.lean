import Zvault.Projects.EpochRuns

/-!
# What the rows of a project refer to

Nothing in the schema ties a value, a kept version or a key grant to the entry
it is for: deletion clears four tables by hand, and a write checks what it
refers to when it is stored. `Referential` says that this keeps every reference
alive, and the live entries of a project within their limits.
-/

namespace Zvault

open Relational Relation AccessFacts EnvironmentsService ProjectsStore

/-- The live entries of one type, as `writeEntry` counts them. -/
def liveEntries (db : Db) (projectId : Uuid) (type : EntryType) : List EntryRow :=
  db.projectEntries.select fun e =>
    e.projectId = projectId ∧ e.type = type ∧ e.deleted = false

/-- An entry of a type is live. -/
def Live (db : Db) (type : EntryType) (projectId id : Uuid) : Prop :=
  id ∈ (liveEntries db projectId type).map EntryRow.id

instance (db : Db) (type : EntryType) (projectId id : Uuid) : Decidable (Live db type projectId id) :=
  inferInstanceAs (Decidable (id ∈ _))

/-- An environment was deleted. -/
def IsTombstone (db : Db) (projectId id : Uuid) : Prop :=
  ∃ e ∈ db.projectEntries, e.key = (projectId, id) ∧ e.type = .environment ∧ e.deleted = true

/-- What rows refer to is there, and the live entries of a project are within their limits. -/
structure Referential (db : Db) : Prop where
  values : ∀ v ∈ db.secretValues, Live db .secret v.projectId v.secretId ∧
    Live db .environment v.projectId v.environmentId
  versions : ∀ v ∈ db.secretVersions, ∀ x ∈ v.values, Live db .environment v.projectId x.1
  /-- Of a project's key or of one of its environments', with every member wrap among them. -/
  grants : ∀ g ∈ db.keyGrants, ¬ IsTombstone db g.projectId g.resourceId
  rows : ∀ r ∈ db.environmentAccess, Live db .environment r.projectId r.environmentId
  limits : ∀ projectId type, (liveEntries db projectId type).length ≤ entryLimit type

section Live

variable {db db' : Db} {type type' : EntryType} {projectId id : Uuid}

theorem live_iff : Live db type projectId id ↔ ∃ e ∈ db.projectEntries,
    e.key = (projectId, id) ∧ e.type = type ∧ e.deleted = false := by
  simp only [Live, liveEntries, List.mem_map, Table.mem_select, decide_eq_true_eq]
  constructor
  · rintro ⟨e, ⟨he, hproject, htype, hlive⟩, hid⟩
    exact ⟨e, he, Prod.ext hproject hid, htype, hlive⟩
  · rintro ⟨e, he, hkey, htype, hlive⟩
    exact ⟨e, ⟨he, congrArg Prod.fst hkey, htype, hlive⟩, congrArg Prod.snd hkey⟩

theorem live_environment_iff : Live db .environment projectId id ↔
    id ∈ environmentIds db projectId := by
  rw [live_iff, mem_environmentIds]
  simp only [EntryRow.isLiveEnvironment, decide_eq_true_eq]
  constructor
  · rintro ⟨e, he, hkey, hlive⟩
    exact ⟨e, he, congrArg Prod.fst hkey, hlive, congrArg Prod.snd hkey⟩
  · rintro ⟨e, he, hproject, hlive, hid⟩
    exact ⟨e, he, Prod.ext hproject hid, hlive⟩

theorem Live.not_tombstone (h : Live db type projectId id) : ¬ IsTombstone db projectId id := by
  rintro ⟨e', he', hkey', -, hdeleted⟩
  obtain ⟨e, he, hkey, -, hlive⟩ := live_iff.mp h
  rw [Table.eq_of_key_eq he he' (hkey.trans hkey'.symm), hdeleted] at hlive
  cases hlive

theorem nodup_liveEntries (db : Db) (projectId : Uuid) (type : EntryType) :
    ((liveEntries db projectId type).map EntryRow.id).Nodup := by
  have hkeys : ((liveEntries db projectId type).map EntryRow.key).Nodup :=
    db.projectEntries.nodup_select _
  refine (List.nodup_map_iff_inj_on (List.Nodup.of_map _ hkeys)).mpr fun e he f hf hid => ?_
  simp only [liveEntries, Table.mem_select, decide_eq_true_eq] at he hf
  exact Table.eq_of_key_eq he.1 hf.1 (Prod.ext (he.2.1.trans hf.2.1.symm) hid)

/-- Live entries that are all among some ids are no more than these. -/
theorem length_liveEntries_le {ids : List Uuid} (h : ∀ id, Live db type projectId id → id ∈ ids) :
    (liveEntries db projectId type).length ≤ ids.length := by
  rw [← List.length_map (f := EntryRow.id)]
  exact (List.subperm_of_subset (nodup_liveEntries db projectId type) fun id hid => h id hid).length_le

theorem length_liveEntries_mono (h : ∀ id, Live db' type projectId id → Live db type projectId id) :
    (liveEntries db' projectId type).length ≤ (liveEntries db projectId type).length := by
  have hle := length_liveEntries_le h
  rwa [List.length_map] at hle

theorem liveEntries_congr (h : db'.projectEntries = db.projectEntries) :
    liveEntries db' projectId type = liveEntries db projectId type := by
  rw [liveEntries, h, liveEntries]

end Live

namespace Referential

variable {db db' : Db}

theorem empty : Referential Db.empty where
  values _ h := absurd h (Table.not_mem_empty _)
  versions _ h := absurd h (Table.not_mem_empty _)
  grants _ h := absurd h (Table.not_mem_empty _)
  rows _ h := absurd h (Table.not_mem_empty _)
  limits _ _ := Nat.zero_le _

/-- Entries that stay, with rows taken away. -/
theorem of_shrunk (h : Referential db) (hentries : db'.projectEntries = db.projectEntries)
    (hvalues : ∀ v ∈ db'.secretValues, v ∈ db.secretValues)
    (hversions : ∀ v ∈ db'.secretVersions, v ∈ db.secretVersions)
    (hgrants : ∀ g ∈ db'.keyGrants, g ∈ db.keyGrants)
    (hrows : ∀ r ∈ db'.environmentAccess, Live db .environment r.projectId r.environmentId) :
    Referential db' := by
  have hlive {type : EntryType} {projectId id : Uuid} (hold : Live db type projectId id) :
      Live db' type projectId id := by
    rwa [Live, liveEntries_congr hentries]
  refine ⟨fun v hv => ?_, fun v hv x hx => ?_, fun g hg => ?_, fun r hr => ?_, fun projectId type => ?_⟩
  · obtain ⟨hsecret, henv⟩ := h.values v (hvalues v hv)
    exact ⟨hlive hsecret, hlive henv⟩
  · exact hlive (h.versions v (hversions v hv) x hx)
  · rw [IsTombstone, hentries]
    exact h.grants g (hgrants g hg)
  · exact hlive (hrows r hr)
  · rw [liveEntries_congr hentries]
    exact h.limits projectId type

/-- Upkeep takes key grants away and registers live environments. -/
theorem upkept (h : Referential db) (hupkept : Upkept db db') : Referential db' := by
  refine h.of_shrunk hupkept.projectEntries (fun v hv => hupkept.secretValues ▸ hv)
    (fun v hv => hupkept.secretVersions ▸ hv) hupkept.keyGrants fun r' hr' => ?_
  rcases hupkept.fresh r' hr' with ⟨r, hr, hid⟩ | ⟨-, hlive⟩
  · rw [(hupkept.row_eq hr hr' hid.symm).1]
    exact h.rows r hr
  · exact live_environment_iff.mpr hlive

/-- Wraps of the key of a resource that was not deleted. -/
theorem insertWraps (h : Referential db) {projectId resourceId : Uuid} {keyVersion : Option ℕ}
    {wrappedBy : Uuid} {wraps : List MemberKeyWrap} (hresource : ¬ IsTombstone db projectId resourceId) :
    Referential
      (EnvironmentsService.insertWraps db projectId resourceId keyVersion wrappedBy wraps).2 := by
  unfold EnvironmentsService.insertWraps
  split
  swap
  · exact h
  refine ⟨h.values, h.versions, fun g hg => ?_, h.rows, h.limits⟩
  rcases Table.mem_or_mem_of_mem_insertNewAll hg with hg | ⟨hg, _⟩
  · exact h.grants g hg
  · obtain ⟨w, _, rfl⟩ := List.mem_map.mp hg
    exact hresource

/-- Moving entries in the feed keeps them as they are. -/
theorem moved {projectId id : Uuid} (hmoved : Moved db.projectEntries db'.projectEntries) :
    (∀ type, Live db' type projectId id ↔ Live db type projectId id) ∧
      (IsTombstone db' projectId id ↔ IsTombstone db projectId id) := by
  obtain ⟨f, hf, hfield⟩ := hmoved
  have hsame (e : EntryRow) : (f e).key = e.key ∧ (f e).type = e.type ∧
      (f e).deleted = e.deleted := by
    obtain ⟨seq, updatedAt, he⟩ := hfield e
    rw [he]
    exact ⟨rfl, rfl, rfl⟩
  have hrow (type : EntryType) (deleted : Bool) :
      (∃ e ∈ db'.projectEntries, e.key = (projectId, id) ∧ e.type = type ∧ e.deleted = deleted) ↔
        ∃ e ∈ db.projectEntries, e.key = (projectId, id) ∧ e.type = type ∧ e.deleted = deleted := by
    simp only [← Table.mem_rows, hf, List.mem_map]
    constructor
    · rintro ⟨_, ⟨e, he, rfl⟩, hkey, htype, hdeleted⟩
      obtain ⟨hkey', htype', hdeleted'⟩ := hsame e
      exact ⟨e, he, hkey' ▸ hkey, htype' ▸ htype, hdeleted' ▸ hdeleted⟩
    · rintro ⟨e, he, hkey, htype, hdeleted⟩
      obtain ⟨hkey', htype', hdeleted'⟩ := hsame e
      exact ⟨f e, ⟨e, he, rfl⟩, hkey'.trans hkey, htype'.trans htype, hdeleted'.trans hdeleted⟩
  exact ⟨fun type => by rw [live_iff, live_iff, hrow], hrow _ _⟩

/-- A rotation of a live environment. -/
theorem rotated (h : Referential db) {env : Env} {accountId : Uuid}
    {req : RotateEnvironmentKeyRequest} {now : Timestamp}
    (hrotated : Rotated db db' env accountId req now)
    (henv : Live db .environment env.projectId env.environmentId) : Referential db' := by
  have hlive {type : EntryType} {projectId id : Uuid} (hold : Live db type projectId id) :
      Live db' type projectId id :=
    ((moved hrotated.moved).1 type).mpr hold
  refine ⟨fun v hv => ?_, fun v hv x hx => ?_, fun g hg => ?_, fun r hr => ?_, fun projectId type => ?_⟩
  · obtain ⟨v₀, hv₀, rfl⟩ := (hrotated.secretValues v).mp hv
    have hkey : (reseal env now req.values v₀).key = v₀.key := reseal_key env now req.values v₀
    obtain ⟨hsecret, hvalue⟩ := h.values v₀ hv₀
    have hproject : (reseal env now req.values v₀).projectId = v₀.projectId := congrArg Prod.fst hkey
    have hid : (reseal env now req.values v₀).secretId = v₀.secretId :=
      congrArg (fun k => k.2.1) hkey
    have henvironment : (reseal env now req.values v₀).environmentId = v₀.environmentId :=
      congrArg (fun k => k.2.2) hkey
    rw [hproject, hid, henvironment]
    exact ⟨hlive hsecret, hlive hvalue⟩
  · obtain ⟨v₀, hv₀, rfl⟩ := (hrotated.secretVersions v).mp hv
    unfold forgetValues at hx ⊢
    split at hx
    · rename_i hproject
      rw [if_pos hproject]
      exact hlive (h.versions v₀ hv₀ x (List.mem_filter.mp hx).1)
    · rename_i hproject
      rw [if_neg hproject]
      exact hlive (h.versions v₀ hv₀ x hx)
  · rw [(moved hrotated.moved).2]
    rcases (hrotated.keyGrants g).mp hg with ⟨hold, -⟩ | ⟨w, -, rfl⟩
    · exact h.grants g hold
    · exact henv.not_tombstone
  · obtain ⟨r₀, hr₀, rfl⟩ := (hrotated.environmentAccess r).mp hr
    have hrow := hlive (h.rows r₀ hr₀)
    split <;> exact hrow
  · exact (length_liveEntries_mono fun id hid => ((moved hrotated.moved).1 type).mp hid).trans
      (h.limits projectId type)

/-- A new project, whose environments are within their limit. -/
theorem created (h : Referential db) {p : NewProject} (hcreated : Created db db' p)
    (hlimit : p.environments.length ≤ entryLimit .environment)
    (hempty : ∀ e ∈ db.projectEntries, e.projectId ≠ p.id) : Referential db' := by
  have hlive {type : EntryType} {projectId id : Uuid} (hold : Live db type projectId id) :
      Live db' type projectId id := by
    obtain ⟨e, he, hrest⟩ := live_iff.mp hold
    exact live_iff.mpr ⟨e, (hcreated.entries e).mpr (Or.inl he), hrest⟩
  have htombstone {projectId id : Uuid} (hgone : IsTombstone db' projectId id) :
      IsTombstone db projectId id := by
    obtain ⟨e, he, hkey, htype, hdeleted⟩ := hgone
    rcases (hcreated.entries e).mp he with hold | ⟨i, hi, rfl⟩
    · exact ⟨e, hold, hkey, htype, hdeleted⟩
    · cases hdeleted
  have hframe := hcreated.frame
  refine ⟨fun v hv => ?_, fun v hv x hx => ?_, fun g hg hgone => ?_, fun r hr => ?_,
    fun projectId type => ?_⟩
  · rw [hframe] at hv
    obtain ⟨hsecret, henv⟩ := h.values v hv
    exact ⟨hlive hsecret, hlive henv⟩
  · rw [hframe] at hv
    exact hlive (h.versions v hv x hx)
  · have hold := htombstone hgone
    have hnew (hproject : g.projectId = p.id) : False := by
      obtain ⟨e, he, hkey, -⟩ := hold
      exact hempty e he ((congrArg Prod.fst hkey).trans hproject)
    rcases (hcreated.keyGrants g).mp hg with hg | rfl | ⟨e, _, rfl⟩
    · exact h.grants g hg hold
    · exact hnew rfl
    · exact hnew rfl
  · rw [hframe] at hr
    exact hlive (h.rows r hr)
  · have hids (id : Uuid) (hid : Live db' type projectId id) : Live db type projectId id ∨
        (type = .environment ∧ projectId = p.id ∧ id ∈ p.environments.map NewEnvironment.id) := by
      obtain ⟨e, he, hkey, htype, hlive⟩ := live_iff.mp hid
      rcases (hcreated.entries e).mp he with hold | ⟨i, hi, rfl⟩
      · exact Or.inl (live_iff.mpr ⟨e, hold, hkey, htype, hlive⟩)
      · refine Or.inr ⟨htype.symm, (congrArg Prod.fst hkey).symm, ?_⟩
        have hsame : p.environments[i].id = id := congrArg Prod.snd hkey
        rw [← hsame]
        exact List.mem_map_of_mem (List.getElem_mem hi)
    by_cases hproject : projectId = p.id
    · have hnone (id : Uuid) : ¬ Live db type projectId id := by
        intro hid
        obtain ⟨e, he, hkey, -⟩ := live_iff.mp hid
        exact hempty e he ((congrArg Prod.fst hkey).trans hproject)
      by_cases htype : type = .environment
      · subst htype
        have hle : (liveEntries db' projectId .environment).length ≤
            (p.environments.map NewEnvironment.id).length :=
          length_liveEntries_le fun id hid => ((hids id hid).resolve_left (hnone id)).2.2
        rw [List.length_map] at hle
        exact hle.trans hlimit
      · have hle : (liveEntries db' projectId type).length ≤ ([] : List Uuid).length :=
          length_liveEntries_le fun id hid =>
            absurd ((hids id hid).resolve_left (hnone id)).1 htype
        exact hle.trans (Nat.zero_le _)
    · exact (length_liveEntries_mono fun id hid =>
        (hids id hid).resolve_right fun hnew => hproject hnew.2.1).trans (h.limits projectId type)

/-- Deleting a project takes everything stored for it. -/
theorem deleteProject (h : Referential db) (projectId : Uuid) :
    Referential (deleteProject db projectId) := by
  have hother {type : EntryType} {id resource : Uuid} (hne : id ≠ projectId)
      (hold : Live db type id resource) :
      Live (ProjectsStore.deleteProject db projectId) type id resource := by
    obtain ⟨e, he, hkey, hrest⟩ := live_iff.mp hold
    refine live_iff.mpr
      ⟨e, Table.mem_delete.mpr ⟨he, decide_eq_false fun hproject => hne ?_⟩, hkey, hrest⟩
    exact (congrArg Prod.fst hkey).symm.trans hproject
  refine ⟨fun v hv => ?_, fun v hv x hx => ?_, fun g hg => ?_, fun r hr => ?_, fun id type => ?_⟩
  · obtain ⟨hv, hproject⟩ := Table.mem_delete.mp hv
    obtain ⟨hsecret, henv⟩ := h.values v hv
    have hne := of_decide_eq_false hproject
    exact ⟨hother hne hsecret, hother hne henv⟩
  · obtain ⟨hv, hproject⟩ := Table.mem_delete.mp hv
    exact hother (of_decide_eq_false hproject) (h.versions v hv x hx)
  · rintro ⟨e, he, hgone⟩
    exact h.grants g (Table.mem_delete.mp hg).1 ⟨e, (Table.mem_delete.mp he).1, hgone⟩
  · obtain ⟨hr, hproject⟩ := Table.mem_delete.mp hr
    exact hother (of_decide_eq_false hproject) (h.rows r hr)
  · refine (length_liveEntries_mono fun resource hlive => ?_).trans (h.limits id type)
    obtain ⟨e, he, hrest⟩ := live_iff.mp hlive
    exact live_iff.mpr ⟨e, (Table.mem_delete.mp he).1, hrest⟩

end Referential

section Written

variable {db db' : Db} {w : EntryWrite} {seq : ℕ} {type : EntryType} {projectId id : Uuid}

/-- Making an entry live that is not needs room for it. -/
theorem Written.room (hw : Written db db' w seq) (hmeta : w.encryptedMeta ≠ none)
    (hdead : ¬ Live db w.type w.projectId w.id) :
    (liveEntries db w.projectId w.type).length < w.limit := by
  have haccepted := hw.accepted
  have hcurrent : (db.projectEntries.find (w.projectId, w.id)).all EntryRow.deleted = true := by
    cases hfind : db.projectEntries.find (w.projectId, w.id) with
    | none => rfl
    | some c =>
      obtain ⟨hc, hkey⟩ := Table.find_eq_some.mp hfind
      by_contra hlive
      have htype := (entryRefusal_eq_none haccepted).1 c hfind
      exact hdead (live_iff.mpr ⟨c, hc, hkey, htype, by simpa using hlive⟩)
  by_contra hfull
  unfold entryRefusal at haccepted
  split_ifs at haccepted with _ _ _ hlimit
  · split at haccepted <;> cases haccepted
  · exact hlimit ⟨hmeta, hcurrent, not_lt.mp hfull⟩

/-- The entry a write finds has the write's type. -/
theorem Written.live_type (hw : Written db db' w seq) (h : Live db type w.projectId w.id) :
    type = w.type := by
  obtain ⟨e, he, hkey, rfl, -⟩ := live_iff.mp h
  exact (entryRefusal_eq_none hw.accepted).1 e (Table.find_eq_some.mpr ⟨he, hkey⟩)

/-- What is live after a write: what was, but for the written entry, and this one if it was put. -/
theorem Written.live_iff (hw : Written db db' w seq) : Live db' type projectId id ↔
    (Live db type projectId id ∧ (projectId, id) ≠ (w.projectId, w.id)) ∨
      (w.encryptedMeta ≠ none ∧ w.type = type ∧ (w.projectId, w.id) = (projectId, id)) := by
  rw [Zvault.live_iff, Zvault.live_iff]
  constructor
  · rintro ⟨e, he, hkey, htype, hlive⟩
    rcases (hw.entries e).mp he with ⟨hold, hne⟩ | rfl
    · exact Or.inl ⟨⟨e, hold, hkey, htype, hlive⟩, fun heq => hne (hkey.trans heq)⟩
    · exact Or.inr ⟨of_decide_eq_false hlive, htype, hkey⟩
  · rintro (⟨⟨e, he, hkey, hrest⟩, hne⟩ | ⟨hmeta, htype, hkey⟩)
    · exact ⟨e, (hw.entries e).mpr (Or.inl ⟨he, fun heq => hne (hkey.symm.trans heq)⟩), hkey, hrest⟩
    · exact ⟨writtenRow w seq, (hw.entries _).mpr (Or.inr rfl), hkey, htype, decide_eq_false hmeta⟩

/-- A live entry stays unless the write deletes it. -/
theorem Written.live (hw : Written db db' w seq) (h : Live db type projectId id)
    (hkept : (projectId, id) = (w.projectId, w.id) → w.encryptedMeta ≠ none) :
    Live db' type projectId id := by
  refine hw.live_iff.mpr ?_
  by_cases hsame : (projectId, id) = (w.projectId, w.id)
  · obtain ⟨rfl, rfl⟩ := Prod.mk.inj hsame
    exact Or.inr ⟨hkept rfl, (hw.live_type h).symm, rfl⟩
  · exact Or.inl ⟨h, hsame⟩

/-- A live environment stays unless the write deletes it. -/
theorem Written.live_environment (hw : Written db db' w seq)
    (h : Live db .environment projectId id) (hkept : ¬ w.Deletes projectId id) :
    Live db' .environment projectId id := by
  refine hw.live h fun hsame hmeta => hkept ?_
  obtain ⟨rfl, rfl⟩ := Prod.mk.inj hsame
  exact ⟨(hw.live_type h).symm, hmeta, rfl, rfl⟩

/-- A deleted secret has no values. -/
theorem Written.values_deleted (hw : Written db db' w seq) (hsecret : w.type = .secret)
    (hmeta : w.encryptedMeta = none) {v : SecretValueRow} (hv : v ∈ db'.secretValues) :
    ¬ (v.projectId = w.projectId ∧ v.secretId = w.id) := by
  rw [hw.secretValues] at hv
  unfold writeContent at hv
  simp only [hsecret, hmeta, Table.mem_delete, decide_eq_false_iff_not] at hv
  exact hv.2

/-- A deleted environment has no key grants. -/
theorem Written.grants_deleted (hw : Written db db' w seq) (henv : w.type = .environment)
    (hmeta : w.encryptedMeta = none) {g : KeyGrantRow} (hg : g ∈ db'.keyGrants) :
    ¬ (g.projectId = w.projectId ∧ g.resourceId = w.id) := by
  rw [hw.keyGrants] at hg
  unfold writeContent at hg
  simp only [henv, hmeta, deleteEnvironment, dropVersionValues, Table.mem_delete,
    decide_eq_false_iff_not] at hg
  exact hg.2

/-- A value after a write is of a live secret and a live environment. -/
theorem Written.values_referential (hw : Written db db' w seq) (h : Referential db)
    {v : SecretValueRow} (hv : v ∈ db'.secretValues) :
    Live db' .secret v.projectId v.secretId ∧ Live db' .environment v.projectId v.environmentId := by
  have hdeleted := fun hsecret hmeta => hw.values_deleted hsecret hmeta hv
  rw [hw.secretValues] at hv
  rcases mem_writeContent_secretValues hv with ⟨hold, hkept⟩ | ⟨hsecret, hproject, hnew⟩
  · obtain ⟨hs, he⟩ := h.values v hold
    refine ⟨hw.live hs fun hsame hmeta => ?_, hw.live_environment he hkept⟩
    obtain ⟨hp, hid⟩ := Prod.mk.inj hsame
    rw [hp, hid] at hs
    exact hdeleted (hw.live_type hs).symm hmeta ⟨hp, hid⟩
  · obtain ⟨e, he, heproject, hlive, hid⟩ := hw.values_live (List.mem_map_of_mem hnew)
    have henv : Live db .environment v.projectId v.environmentId := by
      rw [live_environment_iff, hproject, mem_environmentIds]
      exact ⟨e, he, heproject, hlive, hid⟩
    have hother : ¬ w.Deletes v.projectId v.environmentId := by
      rintro ⟨htype, -⟩
      rw [htype] at hsecret
      cases hsecret
    refine ⟨?_, hw.live_environment henv hother⟩
    by_cases hof : v.secretId = w.id
    · refine hw.live_iff.mpr (Or.inr ⟨fun hmeta => ?_, hsecret, by rw [hproject, hof]⟩)
      exact hdeleted hsecret hmeta ⟨hproject, hof⟩
    · have hkept := (mem_writeContent_values fun hsame => hof hsame.2).mp hv
      refine hw.live (h.values v hkept.1).1 fun hsame => absurd (Prod.mk.inj hsame).2 hof

/-- An accepted write within its type's limit. -/
theorem Referential.written (h : Referential db) (hw : Written db db' w seq)
    (hlimit : w.limit = entryLimit w.type) : Referential db' := by
  refine ⟨fun v hv => hw.values_referential h hv, fun v hv x hx => ?_, fun g hg => ?_, fun r hr => ?_,
    fun projectId type => ?_⟩
  · have hlive : Live db .environment v.projectId x.1 := by
      rcases hw.versions v hv x hx with ⟨v₀, hv₀, hproject, hx₀⟩ | ⟨hproject, u, hu, huproject, rfl⟩
      · exact hproject ▸ h.versions v₀ hv₀ x hx₀
      · rw [hproject, ← huproject]
        exact (h.values u hu).2
    refine hw.live_environment hlive fun hdeletes => ?_
    obtain ⟨henv, hmeta, hproject, hid⟩ := hdeletes
    exact hw.forgotten henv hmeta v hv hproject x hx hid
  · rintro ⟨e, he, hkey, htype, hdeleted⟩
    have hgone := fun henv hmeta => hw.grants_deleted henv hmeta hg
    rcases (hw.entries e).mp he with ⟨hold, hne⟩ | rfl
    · rw [hw.keyGrants] at hg
      rcases mem_writeContent_keyGrants hg with ⟨hg, -⟩ | ⟨-, hproject, hid, -⟩
      · exact h.grants g hg ⟨e, hold, hkey, htype, hdeleted⟩
      · rw [hproject, hid] at hkey
        exact hne hkey
    · obtain ⟨hproject, hid⟩ := Prod.mk.inj hkey
      exact hgone htype (of_decide_eq_true hdeleted) ⟨hproject.symm, hid.symm⟩
  · rw [hw.environmentAccess, mem_writeContent_environmentAccess] at hr
    exact hw.live_environment (h.rows r hr.1) hr.2
  · by_cases hnew : w.type = type ∧ w.projectId = projectId ∧ w.encryptedMeta ≠ none ∧
        ¬ Live db type projectId w.id
    · obtain ⟨rfl, rfl, hmeta, hdead⟩ := hnew
      have hroom := hw.room hmeta hdead
      have hle : (liveEntries db' w.projectId w.type).length ≤
          (w.id :: (liveEntries db w.projectId w.type).map EntryRow.id).length := by
        refine length_liveEntries_le fun id hid => ?_
        rcases hw.live_iff.mp hid with ⟨hold, -⟩ | ⟨-, -, hkey⟩
        · exact List.mem_cons_of_mem _ hold
        · rw [(Prod.mk.inj hkey).2]
          exact List.mem_cons_self
      rw [List.length_cons, List.length_map] at hle
      omega
    · refine (length_liveEntries_mono fun id hid => ?_).trans (h.limits projectId type)
      rcases hw.live_iff.mp hid with ⟨hold, -⟩ | ⟨hmeta, htype, hkey⟩
      · exact hold
      · obtain ⟨hproject, rfl⟩ := Prod.mk.inj hkey
        by_contra hdead
        exact hnew ⟨htype, hproject, hmeta, hdead⟩

end Written

/-- A request to the projects or the access service. -/
inductive ApiRequest where
  | projects (req : ProjectRequest)
  | removeProject (user projectId : Uuid) (now : Timestamp)
  | access (req : AccessRequest)

/-- The database a request leaves. -/
def ApiRequest.serve (db : Db) : ApiRequest → Db
  | .projects req => req.serve db
  | .removeProject user projectId now => (ProjectsService.remove db user projectId now).2
  | .access req => req.serve db

/-- What `CreateProjectRequest` lets through. -/
def ApiRequest.Parsed : ApiRequest → Prop
  | .projects (.create _ req _) => req.environments.length ≤ entryLimit .environment
  | _ => True

section Requests

variable {db db' : Db}

theorem Referential.plain (h : Referential db) (hwrites : PlainWrites db db') : Referential db' := by
  induction hwrites with
  | refl => exact h
  | tail _ hwrite ih =>
    cases hwrite with
    | upkeep hupkeep => exact ih.upkept hupkeep.upkept
    | update projectId baseRevision encryptedMeta now hupdate =>
      unfold updateProject at hupdate
      split at hupdate <;> cases hupdate
      exact ih.of_shrunk rfl (fun _ hv => hv) (fun _ hv => hv) (fun _ hg => hg) ih.rows
    | purge projectId secretId before =>
      exact ih.of_shrunk rfl (fun _ hv => hv) (fun _ hv => (Table.mem_delete.mp hv).1)
        (fun _ hg => hg) ih.rows

/-- A checked write with the limit of its type, stored. -/
theorem Referential.serveWrite (h : Referential db) {admitted : Served EntryWrite}
    (hupkeep : Upkeeps db admitted.2)
    (hlimit : ∀ w db', admitted = (.ok w, db') → w.limit = entryLimit w.type) :
    Referential (ProjectsService.serveWrite admitted).2 := by
  obtain ⟨answer, db₁⟩ := admitted
  have h₁ : Referential db₁ := h.upkept hupkeep.upkept
  cases answer with
  | error e => exact h₁
  | ok w =>
    have hstored : Referential (writeEntry db₁ w).2 := by
      rcases writeEntry_cases db₁ w with ⟨seq, hw, _⟩ | ⟨hsame, _⟩
      · exact h₁.written hw (hlimit w db₁ rfl)
      · rwa [hsame]
    simp only [ProjectsService.serveWrite, ProjectsService.write]
    split <;> rename_i heq <;> rwa [heq] at hstored

/-- Who hands out the project key holds it. -/
theorem addProjectWraps_held (db : Db) (accountId projectId : Uuid) (req : AddProjectWrapsRequest)
    (now : Timestamp) :
    Upkeeps db (EnvironmentsService.addProjectWraps db accountId projectId req now).2 ∨
      ∃ db₁ db₂, Upkeeps db db₁ ∧ db₁.keyGrants.hasKey (projectId, projectId, accountId) = true ∧
        Upkeeps db₁ db₂ ∧ (EnvironmentsService.addProjectWraps db accountId projectId req now).2 =
          (insertWraps db₂ projectId projectId none accountId req.wraps).2 := by
  have hvisible := visibleProject_upkeep db accountId projectId now
  unfold EnvironmentsService.addProjectWraps
  split
  · rename_i heq
    rw [heq] at hvisible
    exact Or.inl hvisible
  rename_i project me db₁ heq
  rw [heq] at hvisible
  have hwrap := canWrapProjectKey_upkeep db₁ project accountId me.role now
  split
  · rename_i heq₂
    rw [heq₂] at hwrap
    exact Or.inl (hvisible.trans hwrap)
  rename_i db₂ heq₂
  rw [heq₂] at hwrap
  have hholders := hwrap.trans (Upkeeps.register db₂ project now)
  have hproject : project.projectId = projectId := by
    unfold visibleProject at heq
    split at heq
    · cases heq
    rename_i linked hlinked
    split at heq
    · cases heq
    · obtain ⟨hpair, -⟩ := Prod.mk.inj heq
      obtain ⟨rfl, -⟩ := Prod.mk.inj (Except.ok.inj hpair)
      exact linkedProject_projectId hlinked
  dsimp only
  split
  · exact Or.inl (hvisible.trans hholders)
  · refine Or.inr ⟨db₁, _, hvisible, ?_, hholders, rfl⟩
    by_contra hnone
    unfold canWrapProjectKey at heq₂
    rw [hproject] at heq₂
    rw [Bool.not_eq_true] at hnone
    simp only [hnone, Bool.not_false, if_true, Prod.mk.injEq, Bool.false_eq_true, false_and] at heq₂

theorem Referential.access (h : Referential db) (req : AccessRequest) :
    Referential (req.serve db) := by
  cases hkeys : req.storesKeys with
  | false => exact h.upkept (req.serve_upkeep db hkeys).upkept
  | true =>
    cases req with
    | addProjectWraps accountId projectId req now =>
      rcases addProjectWraps_held db accountId projectId req now with
        hupkeep | ⟨db₁, db₂, hbefore, hheld, hafter, heq⟩
      · exact h.upkept hupkeep.upkept
      · have h₁ := h.upkept hbefore.upkept
        obtain ⟨g, hg, hkey⟩ := Table.hasKey_iff.mp hheld
        have hgone := h₁.grants g hg
        rw [show g.projectId = projectId from congrArg Prod.fst hkey,
          show g.resourceId = projectId from congrArg (fun k => k.2.1) hkey, IsTombstone,
          ← hafter.upkept.projectEntries] at hgone
        rw [AccessRequest.serve, heq]
        exact (h₁.upkept hafter.upkept).insertWraps hgone
    | addEnvironmentWraps accountId environmentId req now =>
      have hchecked := admitEnvironmentWraps_upkeep db accountId environmentId req now
      simp only [AccessRequest.serve, EnvironmentsService.addEnvironmentWraps]
      split <;> rename_i heq <;> rw [heq] at hchecked
      · exact h.upkept hchecked.upkept
      · rename_i env db₁
        have h₁ := h.upkept hchecked.upkept
        have hlive := h₁.rows _ (admitEnvironmentWraps_ok heq)
        have hid : env.environmentId = environmentId := by
          unfold admitEnvironmentWraps at heq
          split at heq
          · cases heq
          rename_i hvisible
          dsimp only at heq
          split at heq
          · cases heq
          split at heq
          · cases heq
          split at heq <;> cases heq
          exact (visible_loaded hvisible).id
        exact h₁.insertWraps (hid ▸ hlive.not_tombstone)
    | rotate accountId environmentId req now =>
      have hchecked := admitRotation_upkeep db accountId environmentId req now
      simp only [AccessRequest.serve, EnvironmentsService.rotate]
      split <;> rename_i heq <;> rw [heq] at hchecked
      · exact h.upkept hchecked.upkept
      · rename_i env db₁
        have h₁ := h.upkept hchecked.upkept
        obtain ⟨v, rfl, -, hloaded, -⟩ := admitRotation_ok heq
        split
        · rename_i heq₂
          rw [rotateTx_error heq₂]
          exact h₁
        · rename_i db₂ heq₂
          have h₂ := h₁.rotated (rotateTx_ok heq₂) (h₁.rows _ hloaded.row)
          exact h₂.upkept (detail_upkeep db₂ accountId environmentId now).upkept
    | _ => cases hkeys

/-- A parsed request to the projects service. -/
theorem Referential.projects (h : Referential db) (hdb : Reachable db) (req : ProjectRequest)
    (hparsed : (ApiRequest.projects req).Parsed) : Referential (req.serve db) := by
  cases hwrites : req.writesEntries with
  | false => exact h.plain (req.serve_plain db hwrites)
  | true =>
    cases req with
    | create user req now =>
      rcases create_cases db user req now with heq | ⟨db₁, hcreate, hget⟩
      · rwa [ProjectRequest.serve, heq]
      · have hcreated := createProject_eq_some hcreate
        have hempty (e : EntryRow) (he : e ∈ db.projectEntries) : e.projectId ≠ req.id := by
          intro hproject
          exact entriesOf_eq_nil (hdb.feedOrdered req.id) hcreated.free e
            (mem_entriesOf.mpr ⟨he, hproject⟩)
        exact (h.created hcreated hparsed hempty).upkept hget.upkept
    | putEnvironment user projectId id req now =>
      refine h.serveWrite (admitEnvironment_upkeep db user projectId id req now) fun w db' hw => ?_
      rw [admitEnvironment_ok hw]
      rfl
    | putFolder user projectId id req now =>
      refine h.serveWrite (admitFolder_upkeep db user projectId id req now) fun w db' hw => ?_
      rw [admitFolder_ok hw]
      rfl
    | putSecret user projectId id req now =>
      refine h.serveWrite (admitSecret_upkeep db user projectId id req now) fun w db' hw => ?_
      rw [admitSecret_ok hw]
      rfl
    | deleteEntry user projectId type id baseRevision now =>
      refine h.serveWrite (admitDelete_upkeep db user projectId type id baseRevision now)
        fun w db' hw => ?_
      rw [admitDelete_ok hw]
      rfl
    | _ => cases hwrites

theorem Referential.removeProject (h : Referential db) (user projectId : Uuid) (now : Timestamp) :
    Referential (ProjectsService.remove db user projectId now).2 := by
  have hchecked := h.upkept (access_upkeep db user projectId now).upkept
  unfold ProjectsService.remove
  split <;> rename_i heq <;> rw [heq] at hchecked
  · exact hchecked
  · split
    · exact hchecked
    · exact hchecked.deleteProject projectId

/-- Whole requests keep states reachable. -/
theorem ApiRequest.reachable (h : Reachable db) (req : ApiRequest) : Reachable (req.serve db) := by
  cases req with
  | projects req => exact h.writes (req.serve_writes db)
  | removeProject user projectId now =>
    have hchecked := h.writes (access_upkeep db user projectId now).storeWrites
    simp only [serve, ProjectsService.remove]
    split <;> rename_i heq <;> rw [heq] at hchecked
    · exact hchecked
    · split
      · exact hchecked
      · exact hchecked.deleteProject projectId
  | access req =>
    exact h.writes ((req.serve_writes db).lift (fun db => db) fun _ _ => StoreWrite.access)

/-- Every request. -/
theorem Referential.serve (h : Referential db) (hdb : Reachable db) {req : ApiRequest}
    (hparsed : req.Parsed) : Referential (req.serve db) := by
  cases req with
  | projects req => exact h.projects hdb req hparsed
  | removeProject user projectId now => exact h.removeProject user projectId now
  | access req => exact h.access req

/-- The states between whole requests. -/
theorem serve_requests {requests : List ApiRequest} (hparsed : ∀ req ∈ requests, req.Parsed)
    (h : Referential db) (hdb : Reachable db) :
    Referential (requests.foldl ApiRequest.serve db) ∧
      Reachable (requests.foldl ApiRequest.serve db) := by
  induction requests generalizing db with
  | nil => exact ⟨h, hdb⟩
  | cons req requests ih =>
    obtain ⟨hreq, hrest⟩ := List.forall_mem_cons.mp hparsed
    exact ih hrest (h.serve hdb hreq) (req.reachable hdb)

end Requests

/-- **References stay alive.** After any sequence of requests every current value is of a live
secret and a live environment of its project, every kept value is of a live environment, no key
grant is of a deleted one, and every project is within its limits. -/
theorem requests_referential (requests : List ApiRequest) (hparsed : ∀ req ∈ requests, req.Parsed) :
    Referential (requests.foldl ApiRequest.serve Db.empty) :=
  (serve_requests hparsed .empty .empty).1

/-- Account 10 creates project 1 with environment 2, stores secret 4 with a value in it, deletes
the environment and puts it back from its tombstone. -/
def restoredEnvironment : List ApiRequest :=
  [.projects (.create 10 ⟨1, ⟨.record 1, 0, 0⟩, ⟨.account, 0, 0⟩,
      [⟨2, ⟨.record 2, 0, 0⟩, ⟨.account, 0, 0⟩⟩]⟩ 0),
    .projects (.putSecret 10 1 4 ⟨0, ⟨.record 4, 0, 0⟩, [(2, some ⟨.record 2, 0, 0⟩)]⟩ 1),
    .projects (.deleteEntry 10 1 .environment 2 1 2),
    .projects (.putEnvironment 10 1 2 ⟨2, ⟨.record 2, 0, 1⟩, none⟩ 3)]

/-- The environment is live again, without the value it had. -/
theorem restoredEnvironment_referential :
    (Live (restoredEnvironment.foldl ApiRequest.serve Db.empty) .environment 1 2 ∧
      (restoredEnvironment.foldl ApiRequest.serve Db.empty).secretValues.rows = []) ∧
      Referential (restoredEnvironment.foldl ApiRequest.serve Db.empty) := by
  refine ⟨⟨by decide, by decide⟩, requests_referential _ fun req hreq => ?_⟩
  simp only [restoredEnvironment, List.mem_cons, List.not_mem_nil, or_false] at hreq
  rcases hreq with rfl | rfl | rfl | rfl
  · change 1 ≤ 20
    omega
  · trivial
  · trivial
  · trivial

end Zvault
