import Zvault.Access.Facts

/-!
# What registering environments changes

Registration is the only write that reading access facts can make. It adds an
access row for each live environment that has none, and a Manage grant for
whoever holds that environment's key, and leaves every other table alone.
-/

namespace Zvault

open Relational

/-- Two databases that agree outside the access rows and the environment grants. -/
structure SameOutsideAccess (db db' : Db) : Prop where
  projects : db'.projects = db.projects
  keyGrants : db'.keyGrants = db.keyGrants
  projectEntries : db'.projectEntries = db.projectEntries
  secretValues : db'.secretValues = db.secretValues
  secretVersions : db'.secretVersions = db.secretVersions
  orgMembers : db'.orgMembers = db.orgMembers
  orgGroups : db'.orgGroups = db.orgGroups
  groupMembers : db'.groupMembers = db.groupMembers
  agents : db'.agents = db.agents
  projectOrgs : db'.projectOrgs = db.projectOrgs

/-- Nothing changed. -/
theorem SameOutsideAccess.refl (db : Db) : SameOutsideAccess db db :=
  ⟨rfl, rfl, rfl, rfl, rfl, rfl, rfl, rfl, rfl, rfl⟩

namespace AccessFacts

variable {db db' : Db} {project : LinkedProject} {now : Timestamp}

/-- A row is one of a project's live environments. -/
theorem mem_environmentIds {projectId id : Uuid} :
    id ∈ environmentIds db projectId ↔
      ∃ e ∈ db.projectEntries, e.projectId = projectId ∧ e.isLiveEnvironment = true ∧ e.id = id := by
  simp only [environmentIds, List.mem_map, Table.mem_select, decide_eq_true_eq]
  constructor
  · rintro ⟨e, ⟨he, hp, hlive⟩, rfl⟩
    exact ⟨e, he, hp, hlive, rfl⟩
  · rintro ⟨e, he, hp, hlive, rfl⟩
    exact ⟨e, ⟨he, hp, hlive⟩, rfl⟩

/-- A project's live environments have distinct ids. -/
theorem nodup_environmentIds (db : Db) (projectId : Uuid) :
    (environmentIds db projectId).Nodup := by
  have hkeys := db.projectEntries.nodup_select
    fun e => e.projectId = projectId ∧ e.isLiveEnvironment
  unfold environmentIds
  rw [List.nodup_map_iff_inj_on (hkeys.of_map _)]
  intro e he f hf hid
  have he' : e.projectId = projectId := (of_decide_eq_true (Table.mem_select.mp he).2).1
  have hf' : f.projectId = projectId := (of_decide_eq_true (Table.mem_select.mp hf).2).1
  apply List.inj_on_of_nodup_map hkeys he hf
  simp only [EntryRow.key, he', hf', hid]

/-- An environment still to be registered is live and has no access row. -/
theorem mem_unregistered {projectId id : Uuid} :
    id ∈ unregistered db projectId ↔
      id ∈ environmentIds db projectId ∧ ∀ r ∈ db.environmentAccess, r.environmentId ≠ id := by
  simp only [unregistered, List.mem_filter, Bool.not_eq_true', List.any_eq_false,
    Table.mem_select, decide_eq_true_eq, and_congr_right_iff]
  intro hid
  constructor
  · intro h r hr heq
    exact h r ⟨hr, heq ▸ hid⟩ heq
  · rintro h r ⟨hr, _⟩
    exact h r hr

/-- Registering writes nothing but access rows and environment grants. -/
theorem register_same (db : Db) (project : LinkedProject) (now : Timestamp) :
    SameOutsideAccess db (register db project now).2 := by
  unfold register
  dsimp only
  split
  · exact SameOutsideAccess.refl db
  · dsimp only
    split
    · exact SameOutsideAccess.refl db
    · exact ⟨rfl, rfl, rfl, rfl, rfl, rfl, rfl, rfl, rfl, rfl⟩

/-- With no live environment there is nothing to register. -/
theorem unregistered_of_environmentIds_eq_nil {projectId : Uuid}
    (h : environmentIds db projectId = []) : unregistered db projectId = [] := by
  simp [unregistered, h]

/-- The database `register` leaves. -/
theorem register_snd (db : Db) (project : LinkedProject) (now : Timestamp) :
    (register db project now).2 =
      if unregistered db project.projectId = [] then db
      else registerMissing db project (unregistered db project.projectId) now := by
  unfold register
  dsimp only
  split
  · rename_i h
    rw [if_pos (unregistered_of_environmentIds_eq_nil h)]
  · rfl

/-- Access rows after registration: the old ones, and version 1 for each live
environment that had none. -/
theorem mem_register_environmentAccess {r : EnvironmentAccessRow} :
    r ∈ (register db project now).2.environmentAccess ↔
      r ∈ db.environmentAccess ∨
        ∃ id ∈ unregistered db project.projectId, r = newAccessRow project now id := by
  rw [register_snd]
  split
  · rename_i h
    simp [h]
  · change r ∈ db.environmentAccess.insertNewAll _ ↔ _
    have hnodup : (((unregistered db project.projectId).map (newAccessRow project now)).map
        EnvironmentAccessRow.environmentId).Nodup := by
      rw [List.map_map]
      have hid : EnvironmentAccessRow.environmentId ∘ newAccessRow project now = id := rfl
      rw [hid, List.map_id]
      exact (nodup_environmentIds db project.projectId).filter _
    constructor
    · intro hr
      rcases Table.mem_or_mem_of_mem_insertNewAll hr with hr | ⟨hr, _⟩
      · exact Or.inl hr
      · obtain ⟨id, hid, rfl⟩ := List.mem_map.mp hr
        exact Or.inr ⟨id, hid, rfl⟩
    · rintro (hr | ⟨id, hid, rfl⟩)
      · exact Table.mem_insertNewAll_of_mem hr
      · apply Table.mem_insertNewAll_of_new hnodup (List.mem_map_of_mem hid)
        intro x hx
        exact (mem_unregistered.mp hid).2 x hx

/-- Environment grants after registration: the old ones, and Manage for whoever holds
the key of an environment registered now, unless a grant of theirs exists. -/
theorem mem_register_environmentGrants {r : EnvironmentGrantRow} :
    r ∈ (register db project now).2.environmentGrants ↔
      r ∈ db.environmentGrants ∨
        ∃ g ∈ db.keyGrants, g.projectId = project.projectId ∧
          g.resourceId ∈ unregistered db project.projectId ∧ r = holderGrant now g ∧
          ∀ x ∈ db.environmentGrants, x.key ≠ (holderGrant now g).key := by
  rw [register_snd]
  split
  · rename_i h
    simp [h]
  · let holders := (db.keyGrants.select fun g =>
      g.projectId = project.projectId ∧ g.resourceId ∈ unregistered db project.projectId).filter
        fun g => g.resourceId ∈ (unregistered db project.projectId).filter
          fun id => !db.environmentAccess.hasKey id
    have hmem (g : KeyGrantRow) : g ∈ holders ↔ g ∈ db.keyGrants ∧
        g.projectId = project.projectId ∧ g.resourceId ∈ unregistered db project.projectId := by
      simp only [holders, List.mem_filter, Table.mem_select, decide_eq_true_eq, Bool.not_eq_true',
        Table.hasKey_eq_false]
      constructor
      · rintro ⟨hg, _⟩
        exact hg
      · rintro ⟨hg, hp, hid⟩
        exact ⟨⟨hg, hp, hid⟩, hid, (mem_unregistered.mp hid).2⟩
    have hnodup : ((holders.map (holderGrant now)).map EnvironmentGrantRow.key).Nodup := by
      have hkeys : (holders.map KeyGrantRow.key).Nodup :=
        (db.keyGrants.nodup_select _).sublist (List.filter_sublist.map _)
      rw [List.map_map, List.nodup_map_iff_inj_on (hkeys.of_map _)]
      intro g hg h hh heq
      apply List.inj_on_of_nodup_map hkeys hg hh
      simp only [Function.comp_apply, EnvironmentGrantRow.key, holderGrant, Prod.mk.injEq,
        true_and] at heq
      simp only [KeyGrantRow.key, ((hmem g).mp hg).2.1, ((hmem h).mp hh).2.1, heq]
    change r ∈ db.environmentGrants.insertNewAll (holders.map (holderGrant now)) ↔ _
    constructor
    · intro hr
      rcases Table.mem_or_mem_of_mem_insertNewAll hr with hr | ⟨hr, hnew⟩
      · exact Or.inl hr
      · obtain ⟨g, hg, rfl⟩ := List.mem_map.mp hr
        obtain ⟨hg, hp, hid⟩ := (hmem g).mp hg
        exact Or.inr ⟨g, hg, hp, hid, rfl, hnew⟩
    · rintro (hr | ⟨g, hg, hp, hid, rfl, hnew⟩)
      · exact Table.mem_insertNewAll_of_mem hr
      · exact Table.mem_insertNewAll_of_new hnodup
          (List.mem_map_of_mem ((hmem g).mpr ⟨hg, hp, hid⟩)) hnew

/-- The access rows `register` returns are those of the live environments. -/
theorem mem_register_fst {r : EnvironmentAccessRow} :
    r ∈ (register db project now).1 ↔
      r ∈ (register db project now).2.environmentAccess ∧
        r.environmentId ∈ environmentIds db project.projectId := by
  unfold register
  dsimp only
  split
  · rename_i h
    simp [h]
  · simp [List.mem_insertionSort]

/-- Every live environment is registered afterwards. -/
theorem exists_mem_register_fst (now : Timestamp) {id : Uuid}
    (hid : id ∈ environmentIds db project.projectId) :
    ∃ r ∈ (register db project now).1, r.environmentId = id := by
  by_cases hreg : ∃ r ∈ db.environmentAccess, r.environmentId = id
  · obtain ⟨r, hr, rfl⟩ := hreg
    exact ⟨r, mem_register_fst.mpr ⟨mem_register_environmentAccess.mpr (Or.inl hr), hid⟩, rfl⟩
  · have hnew : id ∈ unregistered db project.projectId :=
      mem_unregistered.mpr ⟨hid, fun r hr heq => hreg ⟨r, hr, heq⟩⟩
    exact ⟨newAccessRow project now id,
      mem_register_fst.mpr ⟨mem_register_environmentAccess.mpr (Or.inr ⟨id, hnew, rfl⟩), hid⟩, rfl⟩

/-- A project whose live environments all have access rows is left as it is. -/
theorem register_snd_eq_self (now : Timestamp) (h : unregistered db project.projectId = []) :
    (register db project now).2 = db := by
  rw [register_snd, if_pos h]

/-- Registered environments of a project stay registered while its entries and the access
rows do not change. -/
theorem unregistered_eq_nil_iff {projectId : Uuid} :
    unregistered db projectId = [] ↔
      ∀ id ∈ environmentIds db projectId, ∃ r ∈ db.environmentAccess, r.environmentId = id := by
  rw [List.eq_nil_iff_forall_not_mem]
  simp only [mem_unregistered, not_and, not_forall, ne_eq, not_not]
  constructor
  · intro h id hid
    obtain ⟨r, hr, heq⟩ := h id hid
    exact ⟨r, hr, heq⟩
  · intro h id hid
    obtain ⟨r, hr, heq⟩ := h id hid
    exact ⟨r, hr, heq⟩

/-- Registering leaves nothing to register. -/
theorem unregistered_register (db : Db) (project : LinkedProject) (now : Timestamp) :
    unregistered (register db project now).2 project.projectId = [] := by
  rw [unregistered_eq_nil_iff]
  intro id hid
  have hids : environmentIds (register db project now).2 project.projectId =
      environmentIds db project.projectId := by
    simp only [environmentIds, (register_same db project now).projectEntries]
  rw [hids] at hid
  obtain ⟨r, hr, heq⟩ := exists_mem_register_fst now hid
  exact ⟨r, (mem_register_fst.mp hr).1, heq⟩

end AccessFacts

end Zvault
