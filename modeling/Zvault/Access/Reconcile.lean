import Zvault.Access.Register

/-!
# Reconciling key grants with access

`reconcileProject` keeps exactly the key grants whose account is entitled to
them, flags exactly the environments that lost a holder, and is idempotent. Its
only other effect is to register live environments that have no access row yet.
-/

namespace Zvault

open Relational

namespace AccessFacts

variable {db : Db} {project : LinkedProject} {now : Timestamp}

/-- An account's level in an environment of a linked project. -/
def accountLevel (db : Db) (project : LinkedProject) (now : Timestamp)
    (environmentId accountId : Uuid) : AccessLevel :=
  effectiveLevel (.account accountId) (grants db environmentId)
    (org db project.orgId (some project.ownerId)) now

/-- The reasons to hold the project key. -/
def NeedsProjectKey (db : Db) (project : LinkedProject) (now : Timestamp) (accountId : Uuid) :
    Prop :=
  accountId = project.ownerId ∨ accountId ∈ admins db project.orgId ∨
    ∃ id ∈ environmentIds db project.projectId,
      levelAtLeast (accountLevel db project now id accountId) .needsApproval = true

/-- A key grant its account is entitled to: the account should hold the project key, or
has at least Use in the live environment the key belongs to. -/
def Entitled (db : Db) (project : LinkedProject) (now : Timestamp) (g : KeyGrantRow) : Prop :=
  if g.resourceId = project.projectId then g.accountId ∈ (projectKeyHolders db project now).1
  else g.resourceId ∈ environmentIds db project.projectId →
    holdsKey (accountLevel db project now g.resourceId g.accountId) = true

theorem environmentIds_register (db : Db) (project : LinkedProject) (now : Timestamp)
    (projectId : Uuid) :
    environmentIds (register db project now).2 projectId = environmentIds db projectId := by
  simp only [environmentIds, (register_same db project now).projectEntries]

/-- The levels `projectLevels` finds for one environment. -/
theorem projectLevels_get (db : Db) (project : LinkedProject) (now : Timestamp) (id : Uuid) :
    (projectLevels db project now).1.get id =
      if id ∈ environmentIds db project.projectId then
        some (allLevels (grants (register db project now).2 id)
          (org (register db project now).2 project.orgId (some project.ownerId)) now)
      else none := by
  have hfind : ∀ (envs : List EnvironmentAccessRow) (f : Uuid → List (Holder × AccessLevel)),
      ((envs.map fun env => (env.environmentId, f env.environmentId)).find?
        fun e => e.1 = id).map Prod.snd =
      if ∃ env ∈ envs, env.environmentId = id then some (f id) else none := by
    intro envs f
    induction envs with
    | nil => simp
    | cons env envs ih =>
      by_cases heq : env.environmentId = id
      · simp [heq]
      · rw [List.map_cons, List.find?_cons_of_neg (by simpa using heq), ih]
        simp [heq]
  have hmem : (∃ env ∈ (register db project now).1, env.environmentId = id) ↔
      id ∈ environmentIds db project.projectId := by
    constructor
    · rintro ⟨env, henv, rfl⟩
      exact (mem_register_fst.mp henv).2
    · exact exists_mem_register_fst now
  simp only [projectLevels, ProjectLevels.get]
  rw [hfind _ fun id => allLevels (grants (register db project now).2 id)
    (org (register db project now).2 project.orgId (some project.ownerId)) now]
  simp only [hmem]

/-- `projectKeyHolders` is the set of accounts with a reason to hold the project key. -/
theorem mem_projectKeyHolders {accountId : Uuid} :
    accountId ∈ (projectKeyHolders db project now).1 ↔
      NeedsProjectKey (register db project now).2 project now accountId := by
  let db₁ := (register db project now).2
  have hrated : accountId ∈ project.ownerId :: (admins db₁ project.orgId ++
      ((register db project now).1.map fun env => (env.environmentId,
        allLevels (grants db₁ env.environmentId)
          (org db₁ project.orgId (some project.ownerId)) now)).flatMap fun env =>
        (env.2.filter fun l => l.1.type = .account ∧ levelAtLeast l.2 .needsApproval).map
          fun l => l.1.id) ↔ NeedsProjectKey db₁ project now accountId := by
    rw [List.mem_cons, List.mem_append, NeedsProjectKey]
    refine or_congr Iff.rfl (or_congr Iff.rfl ?_)
    simp only [List.mem_flatMap, List.mem_map, List.mem_filter, decide_eq_true_eq]
    constructor
    · rintro ⟨_, ⟨env, henv, rfl⟩, ⟨⟨type, id⟩, level⟩, ⟨hl, htype, hlevel⟩, rfl⟩
      dsimp only at htype
      subst htype
      obtain ⟨_, rfl⟩ := mem_allLevels_account.mp hl
      refine ⟨env.environmentId, ?_, hlevel⟩
      rw [environmentIds_register]
      exact (mem_register_fst.mp henv).2
    · rintro ⟨id, hid, hlevel⟩
      rw [environmentIds_register] at hid
      obtain ⟨env, henv, rfl⟩ := exists_mem_register_fst now hid
      refine ⟨_, ⟨env, henv, rfl⟩, (Holder.account accountId,
        accountLevel db₁ project now env.environmentId accountId), ⟨?_, rfl, hlevel⟩, rfl⟩
      refine mem_allLevels_account.mpr ⟨?_, rfl⟩
      by_contra hnot
      rw [accountLevel, effectiveLevel_account_eq_none hnot] at hlevel
      cases hlevel
  exact hrated

/-- Registering twice at one moment is registering once. -/
theorem register_register (db : Db) (project : LinkedProject) (now : Timestamp) :
    (register (register db project now).2 project now).2 = (register db project now).2 :=
  register_snd_eq_self now (unregistered_register db project now)

/-- A grant passes the loop's test when its account is entitled to it. The loop uses the
levels read first and the project key holders read after them. -/
theorem lapsed_eq_false_iff {g : KeyGrantRow} :
    lapsed project.projectId (projectKeyHolders (register db project now).2 project now).1
        (projectLevels db project now).1 g = false ↔
      Entitled (register db project now).2 project now g := by
  unfold lapsed Entitled
  split
  · simp only [decide_eq_false_iff_not, not_not]
  · rw [projectLevels_get, environmentIds_register]
    by_cases hid : g.resourceId ∈ environmentIds db project.projectId
    · rw [if_pos hid]
      simp only [levelOr_allLevels_account, Bool.not_eq_false', hid, true_imp_iff, accountLevel]
    · rw [if_neg hid]
      simp only [hid, false_imp_iff]

/-- A linked project is found under its own id. -/
theorem linkedProject_projectId {projectId : Uuid} (h : linkedProject db projectId = some project) :
    project.projectId = projectId := by
  unfold linkedProject at h
  split at h
  · cases h
  · rename_i row hrow
    split at h
    · cases h
    · cases h
      exact (Table.find_eq_some.mp hrow).2

/-- The grants `reconcileProject` deletes from the state with everything registered. -/
def lapsedGrants (db : Db) (project : LinkedProject) (now : Timestamp) : List KeyGrantRow :=
  ((register db project now).2.keyGrants.select fun g => g.projectId = project.projectId).filter
    (lapsed project.projectId (projectKeyHolders (register db project now).2 project now).1
      (projectLevels db project now).1)

/-- The grants deleted are the project's grants whose account is not entitled to them. -/
theorem mem_lapsedGrants {g : KeyGrantRow} :
    g ∈ lapsedGrants db project now ↔ g ∈ (register db project now).2.keyGrants ∧
      g.projectId = project.projectId ∧ ¬Entitled (register db project now).2 project now g := by
  rw [lapsedGrants, List.mem_filter, Table.mem_select, ← lapsed_eq_false_iff, Bool.not_eq_false,
    decide_eq_true_eq, and_assoc]

/-- Reconciling a linked project: register, then drop what lapsed. -/
theorem reconcileProject_eq {projectId : Uuid} (h : linkedProject db projectId = some project) :
    reconcileProject db projectId now =
      if lapsedGrants db project now = [] then (register db project now).2
      else dropGrants (register db project now).2 project.projectId (register db project now).1
        (lapsedGrants db project now) now := by
  have hlevels : (projectLevels db project now).2 = (register db project now).2 := rfl
  have henvs : (projectLevels db project now).1.envs = (register db project now).1 := rfl
  have hstate : (projectKeyHolders (register db project now).2 project now).2 =
      (register db project now).2 := register_register db project now
  have hid := linkedProject_projectId h
  subst hid
  simp only [reconcileProject, h, hlevels, henvs, hstate]
  rfl

/-- Some account lost its grant of an environment's key between two states. -/
def LostHolder (db db' : Db) (projectId environmentId : Uuid) : Prop :=
  ∃ g ∈ db.keyGrants, g.projectId = projectId ∧ g.resourceId = environmentId ∧ g ∉ db'.keyGrants

/-- An environment to flag: it lost a holder and is not flagged yet. -/
def NewlyFlagged (db db' : Db) (projectId : Uuid) (r : EnvironmentAccessRow) : Prop :=
  r.environmentId ≠ projectId ∧ LostHolder db db' projectId r.environmentId ∧
    r.rotationRequiredAt = none

/-- What reconciling a linked project does, from the state `db` in which every live
environment is registered. -/
structure Reconciled (db db' : Db) (project : LinkedProject) (now : Timestamp) : Prop where
  /-- Exactly the project's grants whose account is not entitled to them are deleted. -/
  keyGrants : ∀ g, g ∈ db'.keyGrants ↔
    g ∈ db.keyGrants ∧ (g.projectId = project.projectId → Entitled db project now g)
  /-- Exactly the environments that lost a holder are flagged. -/
  environmentAccess : ∀ r, r ∈ db'.environmentAccess ↔ ∃ r₀ ∈ db.environmentAccess,
    (NewlyFlagged db db' project.projectId r₀ ∧ r = { r₀ with rotationRequiredAt := some now }) ∨
      (¬NewlyFlagged db db' project.projectId r₀ ∧ r = r₀)
  /-- Nothing else in the state changes. -/
  frame : db' =
    { db with keyGrants := db'.keyGrants, environmentAccess := db'.environmentAccess }

/-- Nothing lapsed: the state is reconciled already. -/
theorem Reconciled.refl (h : ∀ g ∈ db.keyGrants, g.projectId = project.projectId →
    Entitled db project now g) : Reconciled db db project now where
  keyGrants g := ⟨fun hg => ⟨hg, h g hg⟩, And.left⟩
  environmentAccess r := by
    have hnot (r₀ : EnvironmentAccessRow) : ¬NewlyFlagged db db project.projectId r₀ := by
      rintro ⟨_, ⟨g, hg, _, _, hlost⟩, _⟩
      exact hlost hg
    constructor
    · intro hr
      exact ⟨r, hr, Or.inr ⟨hnot r, rfl⟩⟩
    · rintro ⟨r₀, hr₀, ⟨hflag, _⟩ | ⟨_, rfl⟩⟩
      · exact absurd hflag (hnot r₀)
      · exact hr₀
  frame := rfl

/-- Dropping exactly the grants without entitlement reconciles the project. -/
theorem dropGrants_reconciled {drop : List KeyGrantRow} {envs : List EnvironmentAccessRow}
    (hdrop : ∀ g, g ∈ drop ↔ g ∈ db.keyGrants ∧ g.projectId = project.projectId ∧
      ¬Entitled db project now g)
    (henvs : ∀ id ∈ environmentIds db project.projectId, ∃ r ∈ envs, r.environmentId = id) :
    Reconciled db (dropGrants db project.projectId envs drop now) project now := by
  have hgrants (g : KeyGrantRow) :
      g ∈ (dropGrants db project.projectId envs drop now).keyGrants ↔
        g ∈ db.keyGrants ∧ (g.projectId = project.projectId → Entitled db project now g) := by
    simp only [dropGrants, Table.mem_delete, decide_eq_false_iff_not, not_and,
      List.any_eq_true, decide_eq_true_eq, not_exists]
    refine and_congr_right fun hg => forall_congr' fun hp => ?_
    constructor
    · intro h
      by_contra hnot
      exact h g ((hdrop g).mpr ⟨hg, hp, hnot⟩) rfl rfl
    · rintro hentitled d hd hres hacc
      obtain ⟨hd, hdp, hnot⟩ := (hdrop d).mp hd
      have heq : d = g := Table.eq_of_key_eq hd hg (by simp [KeyGrantRow.key, hdp, hp, hres, hacc])
      exact hnot (heq ▸ hentitled)
  refine ⟨hgrants, ?_, rfl⟩
  intro r
  have hflag (r₀ : EnvironmentAccessRow) (h₀ : r₀.rotationRequiredAt = none) :
      r₀.environmentId ∈ (envs.map EnvironmentAccessRow.environmentId).filter (fun id =>
        id ∈ (drop.filter fun g => g.resourceId ≠ project.projectId).map KeyGrantRow.resourceId) ↔
      NewlyFlagged db (dropGrants db project.projectId envs drop now) project.projectId r₀ := by
    simp only [List.mem_filter, List.mem_map, decide_eq_true_eq, NewlyFlagged, LostHolder, h₀,
      and_true, hgrants, hdrop]
    constructor
    · rintro ⟨_, g, ⟨⟨hg, hp, hnot⟩, hres⟩, heq⟩
      exact ⟨heq ▸ hres, g, hg, hp, heq, fun h => hnot (h.2 hp)⟩
    · rintro ⟨hne, g, hg, hp, heq, hlost⟩
      have hnot : ¬Entitled db project now g := fun h => hlost ⟨hg, fun _ => h⟩
      have hlive : g.resourceId ∈ environmentIds db project.projectId := by
        by_contra hdead
        apply hnot
        rw [Entitled, if_neg (heq ▸ hne)]
        exact fun h => absurd h hdead
      obtain ⟨env, henv, hid⟩ := henvs _ hlive
      exact ⟨⟨env, henv, hid.trans heq⟩, g, ⟨⟨hg, hp, hnot⟩, heq ▸ hne⟩, heq⟩
  change r ∈ db.environmentAccess.update _ _ ↔ _
  rw [Table.mem_update]
  refine exists_congr fun r₀ => and_congr_right fun _ => ?_
  simp only [decide_eq_true_eq]
  by_cases hnew : NewlyFlagged db (dropGrants db project.projectId envs drop now)
      project.projectId r₀
  · rw [if_pos ⟨(hflag r₀ hnew.2.2).mpr hnew, hnew.2.2⟩]
    simp [hnew]
  · rw [if_neg fun h => hnew ((hflag r₀ h.2).mp h.1)]
    simp [hnew]

/-- Reconciling a linked project, seen from the state with everything registered. -/
theorem reconcileProject_reconciled (now : Timestamp) {projectId : Uuid}
    (h : linkedProject db projectId = some project) :
    Reconciled (register db project now).2 (reconcileProject db projectId now) project now := by
  rw [reconcileProject_eq h]
  split
  · rename_i hnil
    apply Reconciled.refl
    intro g hg hp
    by_contra hnot
    have hmem := mem_lapsedGrants.mpr ⟨hg, hp, hnot⟩
    rw [hnil] at hmem
    exact List.not_mem_nil hmem
  · apply dropGrants_reconciled
    · intro g
      exact mem_lapsedGrants
    · intro id hid
      rw [environmentIds_register] at hid
      exact exists_mem_register_fst now hid

/-- Entitlement depends on the live environments, the org and the environment grants
only. -/
theorem entitled_congr {db db' : Db}
    (hids : environmentIds db' project.projectId = environmentIds db project.projectId)
    (hmembers : db'.orgMembers = db.orgMembers) (hgroups : db'.groupMembers = db.groupMembers)
    (horgGroups : db'.orgGroups = db.orgGroups) (hagents : db'.agents = db.agents)
    (hgrants : db'.environmentGrants = db.environmentGrants)
    (hdb : unregistered db project.projectId = []) (hdb' : unregistered db' project.projectId = [])
    (g : KeyGrantRow) : Entitled db' project now g ↔ Entitled db project now g := by
  have hlevel (id accountId : Uuid) :
      accountLevel db' project now id accountId = accountLevel db project now id accountId := by
    simp only [accountLevel, grants, org, hgrants, hmembers, hgroups, horgGroups, hagents]
  unfold Entitled
  rw [mem_projectKeyHolders, mem_projectKeyHolders, register_snd_eq_self now hdb,
    register_snd_eq_self now hdb']
  simp only [NeedsProjectKey, hids, hlevel, admins, hmembers]

/-- Reconciling leaves nothing to register. -/
theorem Reconciled.unregistered {db' : Db} (h : Reconciled db db' project now)
    (hdb : AccessFacts.unregistered db project.projectId = []) :
    AccessFacts.unregistered db' project.projectId = [] := by
  rw [unregistered_eq_nil_iff] at hdb ⊢
  intro id hid
  have hids : environmentIds db' project.projectId = environmentIds db project.projectId := by
    rw [h.frame]
    rfl
  obtain ⟨r₀, hr₀, hid₀⟩ := hdb id (hids ▸ hid)
  by_cases hnew : NewlyFlagged db db' project.projectId r₀
  · exact ⟨_, (h.environmentAccess _).mpr ⟨r₀, hr₀, Or.inl ⟨hnew, rfl⟩⟩, hid₀⟩
  · exact ⟨r₀, (h.environmentAccess _).mpr ⟨r₀, hr₀, Or.inr ⟨hnew, rfl⟩⟩, hid₀⟩

/-- After a reconcile every remaining grant of the project is one its account is entitled
to. -/
theorem Reconciled.entitled {db' : Db} (h : Reconciled db db' project now)
    (hdb : AccessFacts.unregistered db project.projectId = []) {g : KeyGrantRow}
    (hg : g ∈ db'.keyGrants) (hp : g.projectId = project.projectId) :
    Entitled db' project now g := by
  have hids : environmentIds db' project.projectId = environmentIds db project.projectId := by
    rw [h.frame]
    rfl
  refine (entitled_congr hids (by rw [h.frame]) (by rw [h.frame]) (by rw [h.frame])
    (by rw [h.frame]) (by rw [h.frame]) hdb (h.unregistered hdb) g).mpr ?_
  exact ((h.keyGrants g).mp hg).2 hp

/-- A project is left as it is by a reconcile when its environments are registered and its
grants are ones their accounts are entitled to. -/
theorem reconcileProject_eq_self {projectId : Uuid}
    (hlinked : linkedProject db projectId = some project)
    (hdb : AccessFacts.unregistered db project.projectId = [])
    (hentitled : ∀ g ∈ db.keyGrants, g.projectId = project.projectId →
      Entitled db project now g) :
    reconcileProject db projectId now = db := by
  have hreg := register_snd_eq_self now hdb
  rw [AccessFacts.reconcileProject_eq hlinked, hreg, if_pos]
  rw [List.eq_nil_iff_forall_not_mem]
  intro g hg
  obtain ⟨hmem, hp, hnot⟩ := mem_lapsedGrants.mp hg
  rw [hreg] at hmem hnot
  exact hnot (hentitled g hmem hp)

/-- A reconciled project is left as it is by another reconcile at the same moment. -/
theorem Reconciled.reconcileProject_eq_self {db' : Db} (h : Reconciled db db' project now)
    (hdb : AccessFacts.unregistered db project.projectId = []) {projectId : Uuid}
    (hlinked : linkedProject db' projectId = some project) :
    reconcileProject db' projectId now = db' :=
  AccessFacts.reconcileProject_eq_self hlinked (h.unregistered hdb) fun _ => h.entitled hdb

/-- Reconciling keeps a project's link. -/
theorem linkedProject_reconcileProject {projectId : Uuid}
    (h : linkedProject db projectId = some project) :
    linkedProject (reconcileProject db projectId now) projectId = some project := by
  have hframe := (reconcileProject_reconciled now h).frame
  have hsame := register_same db project now
  rw [← h]
  unfold linkedProject
  rw [hframe]
  simp only [hsame.projectOrgs, hsame.projects]

/-- What registering the environments of a linked project does. -/
structure Registered (db db' : Db) (project : LinkedProject) (now : Timestamp) : Prop where
  /-- Each live environment without an access row gets one, at key version 1, unflagged. -/
  environmentAccess : ∀ r, r ∈ db'.environmentAccess ↔ r ∈ db.environmentAccess ∨
    ∃ id ∈ unregistered db project.projectId, r = newAccessRow project now id
  /-- Whoever holds its key becomes its manager, unless they have a grant already. -/
  environmentGrants : ∀ r, r ∈ db'.environmentGrants ↔ r ∈ db.environmentGrants ∨
    ∃ g ∈ db.keyGrants, g.projectId = project.projectId ∧
      g.resourceId ∈ unregistered db project.projectId ∧ r = holderGrant now g ∧
      ∀ x ∈ db.environmentGrants, x.key ≠ (holderGrant now g).key
  /-- Nothing else in the state changes. -/
  same : SameOutsideAccess db db'

/-- **Reconcile is exact and idempotent.** A project that is not shared is left alone. For
a shared one, live environments that have no access row are registered first; from there
exactly the grants without entitlement go, exactly the environments that lost a holder are
flagged, nothing else changes, and reconciling again at the same moment changes nothing. -/
theorem reconcileProject_exact (db : Db) (projectId : Uuid) (now : Timestamp) :
    match linkedProject db projectId with
    | none => reconcileProject db projectId now = db
    | some project =>
      Registered db (register db project now).2 project now ∧
        Reconciled (register db project now).2 (reconcileProject db projectId now) project now ∧
        reconcileProject (reconcileProject db projectId now) projectId now =
          reconcileProject db projectId now := by
  split
  · rename_i hnone
    simp only [reconcileProject, hnone]
  · rename_i project hlinked
    have hreconciled := reconcileProject_reconciled now hlinked
    refine ⟨⟨fun r => mem_register_environmentAccess, fun r => mem_register_environmentGrants,
      register_same db project now⟩, hreconciled, ?_⟩
    exact hreconciled.reconcileProject_eq_self (unregistered_register db project now)
      (linkedProject_reconcileProject hlinked)

/-- A shared project whose only environment was created after the project was last read,
so that it has no access row yet. -/
def unseenEnvironment : Db :=
  { Db.empty with
    projects := ⟨[⟨1, 10, ⟨.record 1, 0, 0⟩, 1, 1, 0, 0⟩], by decide⟩
    keyGrants := ⟨[⟨1, 1, 10, ⟨.account, 0, 0⟩, none⟩, ⟨1, 2, 10, ⟨.account, 0, 0⟩, none⟩],
      by decide⟩
    projectEntries := ⟨[⟨1, 2, .environment, 1, 1, false, some ⟨.record 2, 0, 0⟩, 0⟩], by decide⟩
    orgMembers := ⟨[⟨5, 10, .owner, some 7⟩], by decide⟩
    projectOrgs := ⟨[⟨1, 5, 10⟩], by decide⟩ }

/-- Reconciling can change more than key grants and flags: here it writes the access row
and the Manage grant of an environment it sees for the first time. -/
theorem reconcileProject_registers_unseen :
    (reconcileProject unseenEnvironment 1 0).keyGrants = unseenEnvironment.keyGrants ∧
      (reconcileProject unseenEnvironment 1 0).environmentAccess.rows =
        [⟨2, 1, 5, 1, none, 0⟩] ∧
      (reconcileProject unseenEnvironment 1 0).environmentGrants.rows =
        [⟨2, .account, 10, .manage, none, 10, 0⟩] ∧
      unseenEnvironment.environmentAccess.rows = [] ∧
      unseenEnvironment.environmentGrants.rows = [] := by
  refine ⟨Table.ext ?_, ?_, ?_, ?_, ?_⟩ <;> decide

/-- A shared project with one environment at key version 1. Account 11's grant in it ends
at 100; the owner, account 10, manages it. -/
def teamProject : Db :=
  { Db.empty with
    projects := ⟨[⟨1, 10, ⟨.record 1, 0, 0⟩, 1, 1, 0, 0⟩], by decide⟩
    keyGrants := ⟨[⟨1, 1, 10, ⟨.account, 0, 0⟩, none⟩, ⟨1, 2, 10, ⟨.account, 0, 0⟩, none⟩,
      ⟨1, 1, 11, ⟨.memberKeyWrap, 0, 0⟩, none⟩,
      ⟨1, 2, 11, ⟨.memberKeyWrap, 0, 0⟩, some ⟨8, 7, 0, some 1, 10⟩⟩], by decide⟩
    projectEntries := ⟨[⟨1, 2, .environment, 1, 1, false, some ⟨.record 2, 0, 0⟩, 0⟩], by decide⟩
    orgMembers := ⟨[⟨5, 10, .owner, some 7⟩, ⟨5, 11, .member, some 8⟩], by decide⟩
    projectOrgs := ⟨[⟨1, 5, 10⟩], by decide⟩
    environmentAccess := ⟨[⟨2, 1, 5, 1, none, 0⟩], by decide⟩
    environmentGrants := ⟨[⟨2, .account, 10, .manage, none, 10, 0⟩,
      ⟨2, .account, 11, .use, some 100, 10, 0⟩], by decide⟩ }

/-- Until its end date the grant keeps both keys; after it a reconcile takes them. -/
example : (reconcileProject teamProject 1 99).keyGrants.rows.length = 4 ∧
    ((reconcileProject teamProject 1 100).keyGrants.rows.map KeyGrantRow.accountId = [10, 10]) := by
  decide

end AccessFacts

end Zvault
