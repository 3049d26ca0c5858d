import Zvault.Access.Rotation
import Zvault.Access.Upkeep

/-!
# Rotation is atomic and exact

A rotate request is refused with no effect beyond the upkeep every request
starts with, or replaces the environment's key for exactly the accounts with
access and every value exactly once.
-/

namespace Zvault

open Relational AccessFacts

namespace EnvironmentsService

variable {db db' : Db} {accountId environmentId : Uuid} {now : Timestamp}

/-- The live environment `environment` finds by id. -/
def FindsEntry (db : Db) (environmentId : Uuid) (entry : EntryRow) : Prop :=
  db.projectEntries.rows.find? (fun e => e.id = environmentId ∧ e.isLiveEnvironment) = some entry

/-- Loading an environment registers its project's environments. -/
theorem environment_ok {env : Env} (h : environment db environmentId now = (.ok env, db')) :
    ∃ entry project, FindsEntry db environmentId entry ∧
      linkedProject db entry.projectId = some project ∧ db' = (register db project now).2 ∧
      env.ownerId = project.ownerId ∧ env.environmentId = environmentId ∧
      env.toEnvironmentAccessRow ∈ db'.environmentAccess := by
  unfold environment at h
  split at h
  · cases h
  rename_i entry hentry
  split at h
  · cases h
  rename_i project hproject
  dsimp only at h
  split at h
  · cases h
  rename_i row hrow
  cases h
  refine ⟨entry, project, hentry, hproject, rfl, rfl, by simpa using List.find?_some hrow, ?_⟩
  exact (mem_register_fst.mp (List.mem_of_find?_eq_some hrow)).1

/-- Loading an environment of a registered project changes nothing. -/
theorem environment_eq (now : Timestamp) {entry : EntryRow} {project : LinkedProject}
    {row : EnvironmentAccessRow}
    (hentry : FindsEntry db environmentId entry)
    (hproject : linkedProject db entry.projectId = some project)
    (hregistered : unregistered db project.projectId = [])
    (hrow : row ∈ db.environmentAccess) (hid : row.environmentId = environmentId) :
    environment db environmentId now = (.ok { row with ownerId := project.ownerId }, db) := by
  have hlive : environmentId ∈ environmentIds db project.projectId := by
    have hfound := List.find?_some hentry
    simp only [decide_eq_true_eq] at hfound
    rw [linkedProject_projectId hproject]
    exact mem_environmentIds.mpr ⟨entry, List.mem_of_find?_eq_some hentry, rfl, hfound.2, hfound.1⟩
  have hreg := register_snd_eq_self now hregistered
  obtain ⟨r, hr, hrid⟩ := exists_mem_register_fst now hlive
  have hfind : (register db project now).1.find? (fun e => e.environmentId = environmentId) =
      some row := by
    cases hfound : (register db project now).1.find? (fun e => e.environmentId = environmentId) with
    | none => exact absurd hrid (by simpa using List.find?_eq_none.mp hfound r hr)
    | some s =>
      have hs := (mem_register_fst.mp (List.mem_of_find?_eq_some hfound)).1
      rw [hreg] at hs
      have hsid : s.environmentId = environmentId := by simpa using List.find?_some hfound
      rw [Table.eq_of_key_eq hs hrow (hsid.trans hid.symm)]
  unfold FindsEntry at hentry
  unfold environment
  simp only [hentry, hproject, hfind, hreg]

/-- An environment that `visible` finds, with everything registered. -/
structure Located (db : Db) (accountId environmentId : Uuid) (v : Visible) : Prop where
  entry : ∃ entry project, FindsEntry db environmentId entry ∧
    linkedProject db entry.projectId = some project ∧ v.env.ownerId = project.ownerId ∧
    unregistered db project.projectId = []
  row : v.env.toEnvironmentAccessRow ∈ db.environmentAccess
  id : v.env.environmentId = environmentId
  me : member db v.env.orgId accountId true = .ok v.me

/-- A state in which `visible` has nothing left to do: the project that the environment's
access row names is reconciled, too. -/
structure Loaded (db : Db) (accountId environmentId : Uuid) (now : Timestamp) (v : Visible) :
    Prop extends Located db accountId environmentId v where
  reconciled : ∀ project, linkedProject db v.env.projectId = some project →
    unregistered db project.projectId = [] ∧
      ∀ g ∈ db.keyGrants, g.projectId = project.projectId → Entitled db project now g

theorem Located.environment_eq {v : Visible} (h : Located db accountId environmentId v) :
    environment db environmentId now = (.ok v.env, db) := by
  obtain ⟨entry, project, hentry, hproject, howner, hregistered⟩ := h.entry
  rw [EnvironmentsService.environment_eq now hentry hproject hregistered h.row h.id, ← howner]

/-- What `visible` returns in such a state. -/
theorem Loaded.visible_eq {v : Visible} (h : Loaded db accountId environmentId now v) :
    visible db accountId environmentId now = (.ok v, db) := by
  have hreconcile : reconcileProject db v.env.projectId now = db := by
    cases hlinked : linkedProject db v.env.projectId with
    | none => rw [reconcileProject, hlinked]
    | some project' =>
      exact reconcileProject_eq_self hlinked (h.reconciled project' hlinked).1
        (h.reconciled project' hlinked).2
  simp only [visible, h.environment_eq, h.me, hreconcile]

/-- The link of a project does not depend on upkeep of the access rows. -/
theorem linkedProject_congr (hprojects : db'.projects = db.projects)
    (horgs : db'.projectOrgs = db.projectOrgs) (projectId : Uuid) :
    linkedProject db' projectId = linkedProject db projectId := by
  simp only [linkedProject, hprojects, horgs]

/-- Reconciling changes key grants, access rows and environment grants only. -/
theorem reconcileProject_same (db : Db) (projectId : Uuid) (now : Timestamp) :
    (reconcileProject db projectId now).orgMembers = db.orgMembers ∧
      (reconcileProject db projectId now).projectOrgs = db.projectOrgs := by
  cases hlinked : linkedProject db projectId with
  | none =>
    rw [reconcileProject, hlinked]
    exact ⟨rfl, rfl⟩
  | some project =>
    have hframe := (reconcileProject_reconciled now hlinked).frame
    have hsame := register_same db project now
    rw [hframe]
    exact ⟨hsame.orgMembers, hsame.projectOrgs⟩

/-- Reconciling leaves a registered project registered. -/
theorem unregistered_upkept (h : Upkept db db') {projectId : Uuid}
    (hregistered : unregistered db projectId = []) : unregistered db' projectId = [] := by
  rw [unregistered_eq_nil_iff] at hregistered ⊢
  intro id hid
  rw [h.environmentIds] at hid
  obtain ⟨r, hr, hrid⟩ := hregistered id hid
  obtain ⟨flag, _, hmem⟩ := h.rows r hr
  exact ⟨_, hmem, hrid⟩

/-- `visible` succeeds when it finds the environment. -/
theorem Located.visible_ok {v : Visible} (h : Located db accountId environmentId v)
    (now : Timestamp) : ∃ v' db', visible db accountId environmentId now = (.ok v', db') := by
  obtain ⟨entry, project, hentry, hproject, _, hregistered⟩ := h.entry
  have hupkept := Upkept.reconcile db v.env.projectId now
  obtain ⟨_, horgs⟩ := reconcileProject_same db v.env.projectId now
  obtain ⟨flag, _, hrow⟩ := hupkept.rows _ h.row
  have hentry' : FindsEntry (reconcileProject db v.env.projectId now) environmentId entry := by
    unfold FindsEntry
    rwa [hupkept.projectEntries]
  have hsecond := EnvironmentsService.environment_eq now hentry'
    ((linkedProject_congr hupkept.projects horgs entry.projectId).trans hproject)
    (unregistered_upkept hupkept hregistered) hrow h.id
  have hvisible : ∃ v', visible db accountId environmentId now =
      (.ok v', reconcileProject db v.env.projectId now) := by
    simp only [visible, h.environment_eq, h.me, hsecond]
    exact ⟨_, rfl⟩
  obtain ⟨v', hvisible⟩ := hvisible
  exact ⟨v', _, hvisible⟩

/-- `visible` leaves a state it would leave alone. -/
theorem visible_loaded {v : Visible} (h : visible db accountId environmentId now = (.ok v, db')) :
    Loaded db' accountId environmentId now v := by
  unfold visible at h
  split at h
  · cases h
  rename_i env₀ db₀ hfirst
  split at h
  · cases h
  rename_i me hme
  obtain ⟨entry, project, hentry, hproject, rfl, _, hid₀, hrow₀⟩ := environment_ok hfirst
  let db₁ := (register db project now).2
  have hsame := register_same db project now
  have hupkept := Upkept.reconcile db₁ env₀.projectId now
  obtain ⟨hmembers, horgs⟩ := reconcileProject_same db₁ env₀.projectId now
  have hentries : (reconcileProject db₁ env₀.projectId now).projectEntries = db.projectEntries :=
    hupkept.projectEntries.trans hsame.projectEntries
  have hlink (projectId : Uuid) : linkedProject (reconcileProject db₁ env₀.projectId now) projectId =
      linkedProject db₁ projectId := linkedProject_congr hupkept.projects horgs projectId
  have hregistered := unregistered_upkept hupkept (unregistered_register db project now)
  split at h
  · cases h
  rename_i env db₂ hsecond
  cases h
  obtain ⟨entry', project', hentry', hproject', rfl, howner, hid, hrow⟩ := environment_ok hsecond
  -- The second load finds the same entry, with everything registered.
  obtain rfl : entry' = entry := by
    unfold FindsEntry at hentry hentry'
    rw [hentries, hentry] at hentry'
    exact (Option.some.inj hentry').symm
  obtain rfl : project' = project := by
    rw [hlink, linkedProject_congr hsame.projects hsame.projectOrgs, hproject] at hproject'
    exact (Option.some.inj hproject').symm
  rw [register_snd_eq_self now hregistered] at hrow ⊢
  have henv := (hupkept.row_eq hrow₀ hrow (hid.trans hid₀.symm)).1
  have hprojectId : env.projectId = env₀.projectId := by rw [henv]
  have horgId : env.orgId = env₀.orgId := by rw [henv]
  refine ⟨⟨⟨entry', project', hentry', hproject', howner, hregistered⟩, hrow, hid, ?_⟩, ?_⟩
  · unfold member at hme ⊢
    rw [horgId, hmembers]
    exact hme
  · intro project'' hlinked
    rw [hprojectId] at hlinked
    have hlinked₁ := (hlink env₀.projectId).symm.trans hlinked
    have hreconciled := reconcileProject_reconciled now hlinked₁
    have hreg := unregistered_register db₁ project'' now
    exact ⟨hreconciled.unregistered hreg, fun g => hreconciled.entitled hreg⟩

/-- The access row names the project the environment is in, and the org that project is
shared with. -/
def AtHome (db : Db) (env : Env) : Prop :=
  linkedProject db env.projectId = some ⟨env.projectId, env.orgId, env.ownerId⟩ ∧
    env.environmentId ∈ environmentIds db env.projectId

variable {env : Env} {req : RotateEnvironmentKeyRequest}

/-- A project's link survives a rotation. -/
theorem Rotated.linkedProject_eq (h : Rotated db db' env accountId req now) (projectId : Uuid) :
    linkedProject db' projectId = linkedProject db projectId := by
  obtain ⟨_, seq, _, _, hprojects⟩ := h.feed
  have horgs : db'.projectOrgs = db.projectOrgs := by rw [h.frame]
  unfold linkedProject
  rw [horgs, hprojects]
  cases db.projectOrgs.find projectId with
  | none => rfl
  | some row =>
    simp only [Table.find_update]
    cases db.projects.find row.projectId with
    | none => rfl
    | some project =>
      simp only [Option.map_some]
      split <;> rfl

/-- Rows of the same environment before and after a rotation differ in version and flag. -/
theorem Rotated.exists_row (h : Rotated db db' env accountId req now) {r : EnvironmentAccessRow}
    (hr : r ∈ db.environmentAccess) :
    ∃ r' ∈ db'.environmentAccess, r'.environmentId = r.environmentId := by
  refine ⟨_, (h.environmentAccess _).mpr ⟨r, hr, rfl⟩, ?_⟩
  split <;> rfl

theorem Rotated.unregistered_eq (h : Rotated db db' env accountId req now) {projectId : Uuid}
    (hregistered : unregistered db projectId = []) : unregistered db' projectId = [] := by
  rw [unregistered_eq_nil_iff] at hregistered ⊢
  intro id hid
  rw [h.moved.environmentIds] at hid
  obtain ⟨r, hr, hrid⟩ := hregistered id hid
  obtain ⟨r', hr', hid'⟩ := h.exists_row hr
  exact ⟨r', hr', hid'.trans hrid⟩

/-- An account that receives the new key is entitled to it. -/
theorem entitled_of_mustReceive {id : Uuid} {g : KeyGrantRow} (hhome : AtHome db env)
    (hregistered : unregistered db env.projectId = []) (hreceive : MustReceive db env now id)
    (hresource : g.resourceId = env.environmentId) (haccount : g.accountId = id) :
    Entitled db ⟨env.projectId, env.orgId, env.ownerId⟩ now g := by
  have hlevel : holdsKey (accountLevel db ⟨env.projectId, env.orgId, env.ownerId⟩ now
      env.environmentId id) = true := hreceive.1
  have hreg : (register db ⟨env.projectId, env.orgId, env.ownerId⟩ now).2 = db :=
    register_snd_eq_self now hregistered
  subst haccount
  unfold Entitled
  rw [hresource]
  split
  · rw [mem_projectKeyHolders, hreg]
    exact Or.inr (Or.inr ⟨env.environmentId, hhome.2,
      levelAtLeast_needsApproval_of_holdsKey hlevel⟩)
  · exact fun _ => hlevel

/-- The environment after a rotation. -/
def Env.rotated (env : Env) : Env :=
  { env with keyVersion := env.keyVersion + 1, rotationRequiredAt := none }

/-- After a rotation the environment is still found. -/
theorem Rotated.located {v : Visible} (h : Rotated db db' v.env accountId req now)
    (hlocated : Located db accountId environmentId v) :
    Located db' accountId environmentId ⟨Env.rotated v.env, v.me⟩ := by
  obtain ⟨entry, project, hentry, hproject, howner, hregistered⟩ := hlocated.entry
  obtain ⟨f, hf, hfield⟩ := h.moved
  have hkept (e : EntryRow) : (f e).projectId = e.projectId ∧ (f e).id = e.id ∧
      (f e).isLiveEnvironment = e.isLiveEnvironment := by
    obtain ⟨seq, updatedAt, he⟩ := hfield e
    rw [he]
    exact ⟨rfl, rfl, rfl⟩
  refine ⟨⟨f entry, project, ?_, ?_, howner, h.unregistered_eq hregistered⟩, ?_, hlocated.id, ?_⟩
  · unfold FindsEntry at hentry ⊢
    rw [hf, List.find?_map]
    have hsame : (fun e : EntryRow => decide (e.id = environmentId ∧ e.isLiveEnvironment = true)) ∘ f =
        fun e => decide (e.id = environmentId ∧ e.isLiveEnvironment = true) := by
      funext e
      simp only [Function.comp_apply, (hkept e).2.1, (hkept e).2.2]
    rw [hsame, hentry, Option.map_some]
  · rw [(hkept entry).1, h.linkedProject_eq]
    exact hproject
  · refine (h.environmentAccess _).mpr ⟨v.env.toEnvironmentAccessRow, hlocated.row, ?_⟩
    rw [if_pos rfl]
    rfl
  · have hme := hlocated.me
    unfold member at hme ⊢
    rw [h.frame]
    exact hme

/-- A rotation of an environment at home leaves a state in which loading it again does
nothing. -/
theorem Rotated.loaded {v : Visible} (h : Rotated db db' v.env accountId req now)
    (hload : Loaded db accountId environmentId now v)
    (hpassed : Admitted db accountId environmentId req v.env now) (hhome : AtHome db v.env) :
    Loaded db' accountId environmentId now ⟨Env.rotated v.env, v.me⟩ := by
  refine ⟨h.located hload.toLocated, ?_⟩
  intro project hlinked
  rw [h.linkedProject_eq] at hlinked
  obtain rfl : project = ⟨v.env.projectId, v.env.orgId, v.env.ownerId⟩ :=
    Option.some.inj (hlinked.symm.trans hhome.1)
  obtain ⟨hregistered, hentitled⟩ := hload.reconciled _ hhome.1
  refine ⟨h.unregistered_eq hregistered, fun g hg hp => ?_⟩
  refine (entitled_congr (h.moved.environmentIds _) (by rw [h.frame]) (by rw [h.frame])
    (by rw [h.frame]) (by rw [h.frame]) (by rw [h.frame]) hregistered
    (h.unregistered_eq hregistered) g).mpr ?_
  rcases (h.keyGrants g).mp hg with ⟨hold, _⟩ | ⟨w, hw, rfl⟩
  · exact hentitled g hold hp
  · exact entitled_of_mustReceive hhome hregistered
      ((hpassed.recipients w.recipientId).mp (List.mem_map_of_mem hw)) rfl rfl

/-- What an accepted rotation leaves, seen from the state its checks read. -/
structure KeyReplaced (db db' : Db) (env : Env) (accountId : Uuid)
    (req : RotateEnvironmentKeyRequest) (now : Timestamp) : Prop where
  /-- The recipients are exactly the accounts with at least Use and a published key. -/
  recipients : ∀ id, id ∈ req.wraps.map MemberKeyWrap.recipientId ↔ MustReceive db env now id
  /-- No recipient is sent two wraps. -/
  nodup : (req.wraps.map MemberKeyWrap.recipientId).Nodup
  /-- The environment's grants are exactly one per recipient, holding the new key. -/
  grants : ∀ g, GrantOf env g → (g ∈ db'.keyGrants ↔ ∃ w ∈ req.wraps,
    g = grantRow env.projectId env.environmentId (some (env.keyVersion + 1)) accountId w)
  /-- Other grants stay. -/
  otherGrants : ∀ g, ¬GrantOf env g → (g ∈ db'.keyGrants ↔ g ∈ db.keyGrants)
  /-- Every value of the environment is the one the request sent for its secret. -/
  values : ∀ v ∈ db'.secretValues, OfEnvironment env v →
    ∃ r ∈ req.values, r.secretId = v.secretId ∧ v.encryptedValue = r.encryptedValue
  /-- The same secrets have a value in the environment as before. -/
  secrets : ∀ id, (∃ v ∈ db'.secretValues, OfEnvironment env v ∧ v.secretId = id) ↔
    ∃ v ∈ db.secretValues, OfEnvironment env v ∧ v.secretId = id
  /-- No other environment's value changed. -/
  otherValues : ∀ v, ¬OfEnvironment env v → (v ∈ db'.secretValues ↔ v ∈ db.secretValues)
  /-- No kept version holds a value of the environment. -/
  versions : ∀ v ∈ db'.secretVersions, v.projectId = env.projectId →
    ∀ e ∈ v.values, e.1 ≠ env.environmentId
  /-- The version rotated from was the stored one, and the one the request named. -/
  fromVersion : req.fromVersion = env.keyVersion ∧ ∃ r ∈ db.environmentAccess,
    r.environmentId = env.environmentId ∧ r.keyVersion = env.keyVersion
  /-- The version grew by exactly one and the flag is cleared. -/
  toVersion : ∃ r ∈ db'.environmentAccess, r.environmentId = env.environmentId ∧
    r.keyVersion = env.keyVersion + 1 ∧ r.rotationRequiredAt = none

/-- Resealing keeps a value's project, secret and environment. -/
theorem reseal_key (env : Env) (now : Timestamp) (values : List ResealedValue)
    (v : SecretValueRow) : (reseal env now values v).key = v.key := by
  unfold reseal
  split
  · split <;> rfl
  · rfl

theorem Rotated.keyReplaced (h : Rotated db db' env accountId req now)
    (hpassed : Admitted db accountId environmentId req env now) :
    KeyReplaced db db' env accountId req now := by
  have hof (v : SecretValueRow) :
      OfEnvironment env (reseal env now req.values v) ↔ OfEnvironment env v := by
    have hkey := reseal_key env now req.values v
    simp only [SecretValueRow.key, Prod.mk.injEq] at hkey
    simp only [OfEnvironment, hkey.1, hkey.2.2]
  have hother {v : SecretValueRow} (hv : ¬OfEnvironment env v) :
      reseal env now req.values v = v := if_neg hv
  refine ⟨hpassed.recipients, hpassed.nodup, ?_, ?_, ?_, ?_, ?_, ?_,
    ⟨hpassed.fromVersion, h.current⟩, ?_⟩
  · intro g hg
    rw [h.keyGrants]
    exact ⟨fun hmem => hmem.resolve_left fun hold => hold.2 hg, Or.inr⟩
  · intro g hg
    rw [h.keyGrants]
    refine ⟨fun hmem => hmem.elim And.left ?_, fun hmem => Or.inl ⟨hmem, hg⟩⟩
    rintro ⟨w, _, rfl⟩
    exact absurd ⟨rfl, rfl⟩ hg
  · intro v hv henv
    obtain ⟨v₀, hv₀, rfl⟩ := (h.secretValues v).mp hv
    rw [hof] at henv
    obtain ⟨r, hr, hid⟩ := List.mem_map.mp ((h.sent v₀.secretId).mp ⟨v₀, hv₀, henv, rfl⟩)
    cases hfind : req.values.find? (fun r => r.secretId = v₀.secretId) with
    | none => exact absurd hid (by simpa using List.find?_eq_none.mp hfind r hr)
    | some r' =>
      have hid' : r'.secretId = v₀.secretId := by simpa using List.find?_some hfind
      have hreseal : reseal env now req.values v₀ =
          { v₀ with encryptedValue := r'.encryptedValue, updatedAt := now } := by
        unfold OfEnvironment at henv
        simp only [reseal, if_pos henv, hfind]
      rw [hreseal]
      exact ⟨r', List.mem_of_find?_eq_some hfind, hid', rfl⟩
  · intro id
    constructor
    · rintro ⟨v, hv, henv, rfl⟩
      obtain ⟨v₀, hv₀, rfl⟩ := (h.secretValues v).mp hv
      have hkey := reseal_key env now req.values v₀
      simp only [SecretValueRow.key, Prod.mk.injEq] at hkey
      exact ⟨v₀, hv₀, (hof v₀).mp henv, hkey.2.1.symm⟩
    · rintro ⟨v₀, hv₀, henv, rfl⟩
      have hkey := reseal_key env now req.values v₀
      simp only [SecretValueRow.key, Prod.mk.injEq] at hkey
      exact ⟨_, (h.secretValues _).mpr ⟨v₀, hv₀, rfl⟩, (hof v₀).mpr henv, hkey.2.1⟩
  · intro v hv
    rw [h.secretValues]
    constructor
    · rintro ⟨v₀, hv₀, rfl⟩
      rw [hof] at hv
      rwa [hother hv]
    · intro hmem
      exact ⟨v, hmem, (hother hv).symm⟩
  · intro v hv hp e he
    obtain ⟨v₀, _, rfl⟩ := (h.secretVersions v).mp hv
    unfold forgetValues at hp he
    split at he
    · simpa using (List.mem_filter.mp he).2
    · rename_i hne
      rw [if_neg hne] at hp
      exact absurd hp hne
  · obtain ⟨r, hr, hid, _⟩ := h.current
    refine ⟨_, (h.environmentAccess _).mpr ⟨r, hr, rfl⟩, ?_⟩
    rw [if_pos hid]
    exact ⟨hid, rfl, rfl⟩

/-- A rotation's checks write nothing but what loading the environment does. -/
theorem admitRotation_snd (db : Db) (accountId environmentId : Uuid)
    (req : RotateEnvironmentKeyRequest) (now : Timestamp) :
    (admitRotation db accountId environmentId req now).2 =
      (visible db accountId environmentId now).2 := by
  unfold admitRotation
  split <;> rename_i heq <;> rw [heq]
  split <;> rfl

/-- An admitted rotation loaded its environment and passed every check. -/
theorem admitRotation_ok (h : admitRotation db accountId environmentId req now = (.ok env, db')) :
    ∃ v, v.env = env ∧ visible db accountId environmentId now = (.ok v, db') ∧
      Loaded db' accountId environmentId now v ∧
      Admitted db' accountId environmentId req env now := by
  unfold admitRotation at h
  split at h
  · cases h
  rename_i v db₁ hvisible
  split at h
  · cases h
  rename_i hrefusal
  cases h
  exact ⟨v, rfl, hvisible, visible_loaded hvisible, rotateRefusal_eq_none hrefusal⟩

/-- **Rotation is atomic and exact.** A rejected request leaves the database as the access
check every request starts with (`visible`) left it. An accepted one replaces the key of the
environment that check found, in one transaction from the state it left; reading the answer
back changes nothing more. -/
theorem rotate_exact (db : Db) (accountId environmentId : Uuid)
    (req : RotateEnvironmentKeyRequest) (now : Timestamp) :
    match rotate db accountId environmentId req now with
    | (.error _, db') => db' = (visible db accountId environmentId now).2
    | (.ok _, db') => ∃ v db₁, (visible db accountId environmentId now).1 = .ok v ∧
      v.env.environmentId = environmentId ∧
      KeyReplaced (visible db accountId environmentId now).2 db₁ v.env accountId req now ∧
      db' = (visible db₁ accountId environmentId now).2 ∧
      (AtHome (visible db accountId environmentId now).2 v.env → db' = db₁) := by
  have hopening := admitRotation_snd db accountId environmentId req now
  unfold rotate
  cases hchecked : admitRotation db accountId environmentId req now with
  | mk answer db₀ =>
    rw [hchecked] at hopening
    rw [← hopening]
    cases answer with
    | error e => rfl
    | ok env =>
      obtain ⟨v, rfl, hopened, hload, hpassed⟩ := admitRotation_ok hchecked
      cases htx : rotateTx db₀ v.env accountId req now with
      | mk answer db₁ =>
        cases answer with
        | error e =>
          simp only [htx]
          exact rotateTx_error htx
        | ok _ =>
          have hrotated := rotateTx_ok htx
          obtain ⟨v', db₂, hvisible⟩ := (hrotated.located hload.toLocated).visible_ok now
          have hdetail : ∃ access, detail db₁ accountId environmentId now = (.ok access, db₂) := by
            simp only [detail, hvisible]
            exact ⟨_, rfl⟩
          obtain ⟨access, hdetail⟩ := hdetail
          simp only [htx, hdetail]
          refine ⟨v, db₁, congrArg Prod.fst hopened, hload.id, hrotated.keyReplaced hpassed,
            by rw [hvisible], ?_⟩
          intro hhome
          have heq := (hrotated.loaded hload hpassed hhome).visible_eq
          rw [hvisible] at heq
          exact (Prod.mk.inj heq).2

/-- A rotate request that names an old key version. -/
def staleRotation : RotateEnvironmentKeyRequest where
  fromVersion := 0
  wraps := [⟨10, 7, 7, 0, ⟨.memberKeyWrap, 0, 0⟩⟩]
  values := []

/-- A rejected rotation can still change the database: here the grant whose end date has
passed goes, and the environment is flagged, before the version is compared. -/
theorem rotate_rejected_reconciles :
    (∃ e, (rotate teamProject 10 2 staleRotation 100).1 = .error e) ∧
      (rotate teamProject 10 2 staleRotation 100).2 ≠ teamProject := by
  refine ⟨⟨_, rfl⟩, fun heq => ?_⟩
  have hrows := congrArg (fun db => db.keyGrants.rows.length) heq
  revert hrows
  decide

end EnvironmentsService

end Zvault
