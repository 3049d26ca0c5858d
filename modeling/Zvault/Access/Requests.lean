import Zvault.Access.Environments
import Zvault.Access.Orgs
import Zvault.Access.Facts
import Mathlib.Logic.Relation

/-!
# The requests of the access service

Every request of the organizations and environments services, served as one
atomic step, and what serving one can do to the database. A request is a chain
of few kinds of writes: changes to the directory (members, groups, agents, links
and environment grants), registration, reconciling, inserted wraps and a
rotation's transaction. Facts about runs follow from facts about these.
-/

namespace Zvault

open Relational Relation AccessFacts EnvironmentsService

/-- A request to the access service, with the time it is served at. -/
inductive AccessRequest where
  | createOrg (accountId orgId : Uuid) (publicKey : PublicKey)
  | invite (orgId accountId : Uuid) (role : OrgRole) (invitee : Option Uuid)
  | accept (orgId accountId : Uuid) (publicKey : PublicKey)
  | changeRole (orgId accountId targetId : Uuid) (role : OrgRole)
  | removeMember (orgId accountId targetId : Uuid) (now : Timestamp)
  | createGroup (orgId accountId groupId : Uuid) (name : String)
  | deleteGroup (orgId accountId groupId : Uuid) (now : Timestamp)
  | addToGroup (orgId accountId groupId targetId : Uuid)
  | removeFromGroup (orgId accountId groupId targetId : Uuid) (now : Timestamp)
  | registerAgent (orgId accountId agentId : Uuid) (publicKey : PublicKey)
  | removeAgent (orgId accountId agentId : Uuid) (now : Timestamp)
  | linkProject (accountId projectId orgId : Uuid) (now : Timestamp)
  | detail (accountId environmentId : Uuid) (now : Timestamp)
  | myKeys (accountId projectId : Uuid) (now : Timestamp)
  | putGrant (accountId environmentId : Uuid) (req : PutGrantRequest) (now : Timestamp)
  | deleteGrant (accountId environmentId : Uuid) (principal : PrincipalRef) (now : Timestamp)
  | addProjectWraps (accountId projectId : Uuid) (req : AddProjectWrapsRequest) (now : Timestamp)
  | addEnvironmentWraps (accountId environmentId : Uuid) (req : AddEnvironmentWrapsRequest)
      (now : Timestamp)
  | rotate (accountId environmentId : Uuid) (req : RotateEnvironmentKeyRequest) (now : Timestamp)
  /-- What every read and write of the projects API runs first. -/
  | beforeAccess (projectId : Uuid) (now : Timestamp)

/-- The database a request leaves. -/
def AccessRequest.serve (db : Db) : AccessRequest → Db
  | .createOrg accountId orgId publicKey => (OrgsService.create db accountId orgId publicKey).2
  | .invite orgId accountId role invitee => (OrgsService.invite db orgId accountId role invitee).2
  | .accept orgId accountId publicKey => (OrgsService.accept db orgId accountId publicKey).2
  | .changeRole orgId accountId targetId role =>
    (OrgsService.changeRole db orgId accountId targetId role).2
  | .removeMember orgId accountId targetId now =>
    (OrgsService.remove db orgId accountId targetId now).2
  | .createGroup orgId accountId groupId name =>
    (OrgsService.createGroup db orgId accountId groupId name).2
  | .deleteGroup orgId accountId groupId now =>
    (OrgsService.deleteGroup db orgId accountId groupId now).2
  | .addToGroup orgId accountId groupId targetId =>
    (OrgsService.addToGroup db orgId accountId groupId targetId).2
  | .removeFromGroup orgId accountId groupId targetId now =>
    (OrgsService.removeFromGroup db orgId accountId groupId targetId now).2
  | .registerAgent orgId accountId agentId publicKey =>
    (OrgsService.registerAgent db orgId accountId agentId publicKey).2
  | .removeAgent orgId accountId agentId now =>
    (OrgsService.removeAgent db orgId accountId agentId now).2
  | .linkProject accountId projectId orgId now =>
    (EnvironmentsService.linkProject db accountId projectId orgId now).2
  | .detail accountId environmentId now =>
    (EnvironmentsService.detail db accountId environmentId now).2
  | .myKeys accountId projectId now => (EnvironmentsService.myKeys db accountId projectId now).2
  | .putGrant accountId environmentId req now =>
    (EnvironmentsService.putGrant db accountId environmentId req now).2
  | .deleteGrant accountId environmentId principal now =>
    (EnvironmentsService.deleteGrant db accountId environmentId principal now).2
  | .addProjectWraps accountId projectId req now =>
    (EnvironmentsService.addProjectWraps db accountId projectId req now).2
  | .addEnvironmentWraps accountId environmentId req now =>
    (EnvironmentsService.addEnvironmentWraps db accountId environmentId req now).2
  | .rotate accountId environmentId req now =>
    (EnvironmentsService.rotate db accountId environmentId req now).2
  | .beforeAccess projectId now => ProjectPolicy.beforeAccess db projectId now

/-- Two databases that agree outside the directory: members, groups, agents, links and
environment grants. -/
structure SameOutsideDirectory (db db' : Db) : Prop where
  projects : db'.projects = db.projects
  keyGrants : db'.keyGrants = db.keyGrants
  projectEntries : db'.projectEntries = db.projectEntries
  secretValues : db'.secretValues = db.secretValues
  secretVersions : db'.secretVersions = db.secretVersions
  environmentAccess : db'.environmentAccess = db.environmentAccess

/-- One write that keeps access in step: to the directory, a registration, or a
reconcile. -/
inductive Upkeep : Db → Db → Prop
  | directory {db db' : Db} (h : SameOutsideDirectory db db') : Upkeep db db'
  | register (db : Db) (project : LinkedProject) (now : Timestamp) :
      Upkeep db (register db project now).2
  | reconcile (db : Db) (projectId : Uuid) (now : Timestamp) :
      Upkeep db (reconcileProject db projectId now)

/-- One write of the access service. -/
inductive AccessWrite : Db → Db → Prop
  | upkeep {db db' : Db} (h : Upkeep db db') : AccessWrite db db'
  | wraps (db : Db) (projectId resourceId : Uuid) (keyVersion : Option ℕ) (wrappedBy : Uuid)
      (wraps : List MemberKeyWrap) :
      AccessWrite db (insertWraps db projectId resourceId keyVersion wrappedBy wraps).2
  | rotation (db : Db) (env : Env) (accountId : Uuid) (req : RotateEnvironmentKeyRequest)
      (now : Timestamp) : AccessWrite db (rotateTx db env accountId req now).2

variable {db : Db} {now : Timestamp}

/-- A chain of upkeep. -/
abbrev Upkeeps : Db → Db → Prop := ReflTransGen Upkeep

theorem Upkeeps.register (db : Db) (project : LinkedProject) (now : Timestamp) :
    Upkeeps db (register db project now).2 :=
  .single (.register db project now)

theorem Upkeeps.reconcile (db : Db) (projectId : Uuid) (now : Timestamp) :
    Upkeeps db (reconcileProject db projectId now) :=
  .single (.reconcile db projectId now)

theorem Upkeeps.directory {db' : Db} (h : SameOutsideDirectory db db') : Upkeeps db db' :=
  .single (.directory h)

/-- Reconciling an org reconciles its projects one by one. -/
theorem reconcileOrg_upkeep (db : Db) (orgId : Uuid) (now : Timestamp) :
    Upkeeps db (reconcileOrg db orgId now) := by
  unfold reconcileOrg
  generalize (db.projectOrgs.select fun p => p.orgId = orgId) = links
  induction links generalizing db with
  | nil => exact .refl
  | cons p links ih => exact (Upkeeps.reconcile db p.projectId now).trans (ih _)

theorem dropGrantsTo_same (db : Db) (type : PrincipalType) (ids : List Uuid) (orgId : Uuid) :
    SameOutsideDirectory db (dropGrantsTo db type ids orgId) := by
  unfold dropGrantsTo
  split <;> exact ⟨rfl, rfl, rfl, rfl, rfl, rfl⟩

theorem dropGrantsTo_upkeep (db : Db) (type : PrincipalType) (ids : List Uuid) (orgId : Uuid) :
    Upkeeps db (dropGrantsTo db type ids orgId) :=
  Upkeeps.directory (dropGrantsTo_same db type ids orgId)

theorem environment_upkeep (db : Db) (environmentId : Uuid) (now : Timestamp) :
    Upkeeps db (environment db environmentId now).2 := by
  unfold environment
  split
  · exact .refl
  · split
    · exact .refl
    · rename_i project _
      dsimp only
      split <;> exact Upkeeps.register db project now

theorem visible_upkeep (db : Db) (accountId environmentId : Uuid) (now : Timestamp) :
    Upkeeps db (visible db accountId environmentId now).2 := by
  have hfirst := environment_upkeep db environmentId now
  unfold visible
  split
  · rename_i heq
    rwa [heq] at hfirst
  · rename_i env db₁ heq
    rw [heq] at hfirst
    split
    · exact hfirst
    · have hsecond := (hfirst.trans (Upkeeps.reconcile db₁ env.projectId now)).trans
        (environment_upkeep (reconcileProject db₁ env.projectId now) environmentId now)
      split <;> rename_i heq₂ <;> rwa [heq₂] at hsecond

theorem visibleProject_upkeep (db : Db) (accountId projectId : Uuid) (now : Timestamp) :
    Upkeeps db (visibleProject db accountId projectId now).2 := by
  unfold visibleProject
  split
  · exact .refl
  · split
    · exact .refl
    · exact Upkeeps.reconcile db projectId now

theorem canWrapProjectKey_upkeep (db : Db) (project : LinkedProject) (accountId : Uuid)
    (role : OrgRole) (now : Timestamp) :
    Upkeeps db (canWrapProjectKey db project accountId role now).2 := by
  unfold canWrapProjectKey
  split
  · exact .refl
  · split
    · exact .refl
    · exact Upkeeps.register db project now

theorem linkProject_upkeep (db : Db) (accountId projectId orgId : Uuid) (now : Timestamp) :
    Upkeeps db (EnvironmentsService.linkProject db accountId projectId orgId now).2 := by
  unfold EnvironmentsService.linkProject
  split
  · exact .refl
  · split
    · exact .refl
    · split
      · exact .refl
      · split
        · exact .refl
        · rename_i projectOrgs _
          have hlink : Upkeeps db { db with projectOrgs := projectOrgs } :=
            Upkeeps.directory ⟨rfl, rfl, rfl, rfl, rfl, rfl⟩
          have hvisible := hlink.trans (visibleProject_upkeep _ accountId projectId now)
          split
          · rename_i heq
            rwa [heq] at hvisible
          · rename_i project _ db₁ heq
            rw [heq] at hvisible
            exact hvisible.trans (Upkeeps.register db₁ project now)

theorem detail_upkeep (db : Db) (accountId environmentId : Uuid) (now : Timestamp) :
    Upkeeps db (EnvironmentsService.detail db accountId environmentId now).2 := by
  have hvisible := visible_upkeep db accountId environmentId now
  unfold EnvironmentsService.detail
  split <;> rename_i heq <;> rwa [heq] at hvisible

theorem myKeys_upkeep (db : Db) (accountId projectId : Uuid) (now : Timestamp) :
    Upkeeps db (EnvironmentsService.myKeys db accountId projectId now).2 := by
  have hvisible := visibleProject_upkeep db accountId projectId now
  unfold EnvironmentsService.myKeys
  split
  · rename_i heq
    rwa [heq] at hvisible
  · rename_i project _ db₁ heq
    rw [heq] at hvisible
    exact hvisible.trans (Upkeeps.register db₁ project now)

theorem requireGrantManager_upkeep (db : Db) (accountId environmentId : Uuid) (now : Timestamp) :
    Upkeeps db (requireGrantManager db accountId environmentId now).2 := by
  have hvisible := visible_upkeep db accountId environmentId now
  unfold requireGrantManager
  split
  · rename_i heq
    rwa [heq] at hvisible
  · rename_i heq
    rw [heq] at hvisible
    split <;> exact hvisible

theorem putGrant_upkeep (db : Db) (accountId environmentId : Uuid) (req : PutGrantRequest)
    (now : Timestamp) :
    Upkeeps db (EnvironmentsService.putGrant db accountId environmentId req now).2 := by
  have hmanager := requireGrantManager_upkeep db accountId environmentId now
  unfold EnvironmentsService.putGrant
  split
  · rename_i heq
    rwa [heq] at hmanager
  · rename_i env db₁ heq
    rw [heq] at hmanager
    split
    · exact hmanager
    · split
      · exact hmanager
      · refine (hmanager.trans (Upkeeps.directory ?_)).trans (Upkeeps.reconcile _ env.projectId now)
        exact ⟨rfl, rfl, rfl, rfl, rfl, rfl⟩

theorem deleteGrant_upkeep (db : Db) (accountId environmentId : Uuid) (principal : PrincipalRef)
    (now : Timestamp) :
    Upkeeps db (EnvironmentsService.deleteGrant db accountId environmentId principal now).2 := by
  have hmanager := requireGrantManager_upkeep db accountId environmentId now
  unfold EnvironmentsService.deleteGrant
  split
  · rename_i heq
    rwa [heq] at hmanager
  · rename_i env db₁ heq
    rw [heq] at hmanager
    split
    · exact hmanager
    · refine (hmanager.trans (Upkeeps.directory ?_)).trans (Upkeeps.reconcile _ env.projectId now)
      exact ⟨rfl, rfl, rfl, rfl, rfl, rfl⟩

theorem admitEnvironmentWraps_upkeep (db : Db) (accountId environmentId : Uuid)
    (req : AddEnvironmentWrapsRequest) (now : Timestamp) :
    Upkeeps db (admitEnvironmentWraps db accountId environmentId req now).2 := by
  have hvisible := visible_upkeep db accountId environmentId now
  unfold admitEnvironmentWraps
  split
  · rename_i heq
    rwa [heq] at hvisible
  · rename_i heq
    rw [heq] at hvisible
    dsimp only
    split_ifs
    · exact hvisible
    · exact hvisible
    · split <;> exact hvisible

theorem admitRotation_upkeep (db : Db) (accountId environmentId : Uuid)
    (req : RotateEnvironmentKeyRequest) (now : Timestamp) :
    Upkeeps db (admitRotation db accountId environmentId req now).2 := by
  have hvisible := visible_upkeep db accountId environmentId now
  unfold admitRotation
  split
  · rename_i heq
    rwa [heq] at hvisible
  · rename_i heq
    rw [heq] at hvisible
    split <;> exact hvisible

theorem removeMember_upkeep (db : Db) (orgId accountId targetId : Uuid) (now : Timestamp) :
    Upkeeps db (OrgsService.remove db orgId accountId targetId now).2 := by
  unfold OrgsService.remove
  dsimp only
  split
  · exact .refl
  · split
    · exact .refl
    · split
      · exact .refl
      · have hmember : Upkeeps db (OrgsService.dropMember db orgId targetId) :=
          Upkeeps.directory ⟨rfl, rfl, rfl, rfl, rfl, rfl⟩
        exact ((hmember.trans (dropGrantsTo_upkeep _ _ _ _)).trans
          (dropGrantsTo_upkeep _ _ _ _)).trans (reconcileOrg_upkeep _ orgId now)

theorem deleteGroup_upkeep (db : Db) (orgId accountId groupId : Uuid) (now : Timestamp) :
    Upkeeps db (OrgsService.deleteGroup db orgId accountId groupId now).2 := by
  unfold OrgsService.deleteGroup
  split
  · exact .refl
  · split
    · exact .refl
    · refine ((dropGrantsTo_upkeep db .group [groupId] orgId).trans (Upkeeps.directory ?_)).trans
        (reconcileOrg_upkeep _ orgId now)
      exact ⟨rfl, rfl, rfl, rfl, rfl, rfl⟩

theorem removeFromGroup_upkeep (db : Db) (orgId accountId groupId targetId : Uuid)
    (now : Timestamp) :
    Upkeeps db (OrgsService.removeFromGroup db orgId accountId groupId targetId now).2 := by
  unfold OrgsService.removeFromGroup
  split
  · exact .refl
  · split
    · exact .refl
    · split
      · exact .refl
      · refine (Upkeeps.directory ?_).trans (reconcileOrg_upkeep _ orgId now)
        exact ⟨rfl, rfl, rfl, rfl, rfl, rfl⟩

theorem removeAgent_upkeep (db : Db) (orgId accountId agentId : Uuid) (now : Timestamp) :
    Upkeeps db (OrgsService.removeAgent db orgId accountId agentId now).2 := by
  unfold OrgsService.removeAgent
  split
  · exact .refl
  · split
    · exact .refl
    · split_ifs
      · exact .refl
      · exact .refl
      · have hagent : Upkeeps db { db with agents := db.agents.delete fun a => a.id = agentId } :=
          Upkeeps.directory ⟨rfl, rfl, rfl, rfl, rfl, rfl⟩
        exact (hagent.trans (dropGrantsTo_upkeep _ _ _ _)).trans (reconcileOrg_upkeep _ orgId now)

/-- A chain of the access service's writes. -/
abbrev AccessWrites : Db → Db → Prop := ReflTransGen AccessWrite

theorem Upkeeps.writes {db db' : Db} (h : Upkeeps db db') : AccessWrites db db' :=
  h.lift id fun _ _ => AccessWrite.upkeep

/-- Handing out the project key is upkeep, followed by at most one insert of its wraps. -/
theorem addProjectWraps_cases (db : Db) (accountId projectId : Uuid)
    (req : AddProjectWrapsRequest) (now : Timestamp) : ∃ db₁, Upkeeps db db₁ ∧
      ((EnvironmentsService.addProjectWraps db accountId projectId req now).2 = db₁ ∨
        (EnvironmentsService.addProjectWraps db accountId projectId req now).2 =
          (insertWraps db₁ projectId projectId none accountId req.wraps).2) := by
  have hvisible := visibleProject_upkeep db accountId projectId now
  unfold EnvironmentsService.addProjectWraps
  split
  · rename_i heq
    rw [heq] at hvisible
    exact ⟨_, hvisible, Or.inl rfl⟩
  · rename_i project me db₁ heq
    rw [heq] at hvisible
    have hwrap := hvisible.trans (canWrapProjectKey_upkeep db₁ project accountId me.role now)
    split
    · rename_i heq₂
      rw [heq₂] at hwrap
      exact ⟨_, hwrap, Or.inl rfl⟩
    · rename_i db₂ heq₂
      rw [heq₂] at hwrap
      have hholders := hwrap.trans (Upkeeps.register db₂ project now)
      dsimp only
      split
      · exact ⟨_, hholders, Or.inl rfl⟩
      · exact ⟨_, hholders, Or.inr rfl⟩

theorem addEnvironmentWraps_writes (db : Db) (accountId environmentId : Uuid)
    (req : AddEnvironmentWrapsRequest) (now : Timestamp) :
    AccessWrites db
      (EnvironmentsService.addEnvironmentWraps db accountId environmentId req now).2 := by
  have hchecked := (admitEnvironmentWraps_upkeep db accountId environmentId req now).writes
  unfold EnvironmentsService.addEnvironmentWraps
  split
  · rename_i heq
    rwa [heq] at hchecked
  · rename_i env db₁ heq
    rw [heq] at hchecked
    exact hchecked.tail (.wraps db₁ env.projectId environmentId (some env.keyVersion) accountId
      req.wraps)

theorem rotate_writes (db : Db) (accountId environmentId : Uuid)
    (req : RotateEnvironmentKeyRequest) (now : Timestamp) :
    AccessWrites db (EnvironmentsService.rotate db accountId environmentId req now).2 := by
  have hchecked := (admitRotation_upkeep db accountId environmentId req now).writes
  unfold EnvironmentsService.rotate
  split
  · rename_i heq
    rwa [heq] at hchecked
  · rename_i env db₁ heq
    rw [heq] at hchecked
    have hrotate := hchecked.tail (.rotation db₁ env accountId req now)
    split
    · rename_i heq₂
      rwa [heq₂] at hrotate
    · rename_i db₂ heq₂
      rw [heq₂] at hrotate
      exact hrotate.trans (detail_upkeep db₂ accountId environmentId now).writes

/-- The requests that store wrapped keys. -/
def AccessRequest.storesKeys : AccessRequest → Bool
  | .addProjectWraps .. => true
  | .addEnvironmentWraps .. => true
  | .rotate .. => true
  | _ => false

/-- Every other request is a chain of upkeep. -/
theorem AccessRequest.serve_upkeep (db : Db) (req : AccessRequest) (h : req.storesKeys = false) :
    Upkeeps db (req.serve db) := by
  cases req with
  | createOrg accountId orgId publicKey =>
    apply Upkeeps.directory
    simp only [serve, OrgsService.create]
    repeat' split
    all_goals exact ⟨rfl, rfl, rfl, rfl, rfl, rfl⟩
  | invite orgId accountId role invitee =>
    apply Upkeeps.directory
    simp only [serve, OrgsService.invite]
    repeat' split
    all_goals exact ⟨rfl, rfl, rfl, rfl, rfl, rfl⟩
  | accept orgId accountId publicKey =>
    apply Upkeeps.directory
    simp only [serve, OrgsService.accept]
    repeat' split
    all_goals exact ⟨rfl, rfl, rfl, rfl, rfl, rfl⟩
  | changeRole orgId accountId targetId role =>
    apply Upkeeps.directory
    simp only [serve, OrgsService.changeRole]
    repeat' split
    all_goals exact ⟨rfl, rfl, rfl, rfl, rfl, rfl⟩
  | removeMember orgId accountId targetId now =>
    exact removeMember_upkeep db orgId accountId targetId now
  | createGroup orgId accountId groupId name =>
    apply Upkeeps.directory
    simp only [serve, OrgsService.createGroup]
    repeat' split
    all_goals exact ⟨rfl, rfl, rfl, rfl, rfl, rfl⟩
  | deleteGroup orgId accountId groupId now =>
    exact deleteGroup_upkeep db orgId accountId groupId now
  | addToGroup orgId accountId groupId targetId =>
    apply Upkeeps.directory
    simp only [serve, OrgsService.addToGroup]
    repeat' split
    all_goals exact ⟨rfl, rfl, rfl, rfl, rfl, rfl⟩
  | removeFromGroup orgId accountId groupId targetId now =>
    exact removeFromGroup_upkeep db orgId accountId groupId targetId now
  | registerAgent orgId accountId agentId publicKey =>
    apply Upkeeps.directory
    simp only [serve, OrgsService.registerAgent]
    repeat' split
    all_goals exact ⟨rfl, rfl, rfl, rfl, rfl, rfl⟩
  | removeAgent orgId accountId agentId now =>
    exact removeAgent_upkeep db orgId accountId agentId now
  | linkProject accountId projectId orgId now =>
    exact linkProject_upkeep db accountId projectId orgId now
  | detail accountId environmentId now =>
    exact detail_upkeep db accountId environmentId now
  | myKeys accountId projectId now => exact myKeys_upkeep db accountId projectId now
  | putGrant accountId environmentId req now =>
    exact putGrant_upkeep db accountId environmentId req now
  | deleteGrant accountId environmentId principal now =>
    exact deleteGrant_upkeep db accountId environmentId principal now
  | addProjectWraps accountId projectId req now => cases h
  | addEnvironmentWraps accountId environmentId req now => cases h
  | rotate accountId environmentId req now => cases h
  | beforeAccess projectId now => exact Upkeeps.reconcile db projectId now

/-- Serving a request is a chain of the access service's writes. -/
theorem AccessRequest.serve_writes (db : Db) (req : AccessRequest) :
    AccessWrites db (req.serve db) := by
  cases hkeys : req.storesKeys with
  | false => exact (req.serve_upkeep db hkeys).writes
  | true =>
    cases req with
    | addProjectWraps accountId projectId req now =>
      obtain ⟨db₁, hupkeep, heq | heq⟩ := addProjectWraps_cases db accountId projectId req now
      · rw [serve, heq]
        exact hupkeep.writes
      · rw [serve, heq]
        exact hupkeep.writes.tail (.wraps db₁ projectId projectId none accountId req.wraps)
    | addEnvironmentWraps accountId environmentId req now =>
      exact addEnvironmentWraps_writes db accountId environmentId req now
    | rotate accountId environmentId req now => exact rotate_writes db accountId environmentId req now
    | _ => cases hkeys

end Zvault
