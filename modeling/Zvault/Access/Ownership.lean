import Zvault.Access.Orgs
import Zvault.Access.Reconcile
import Zvault.Concurrent.Tasks

/-!
# Who owns an organization

The calls of `apps/api/src/access/orgs.service.ts` that change who is in an
organization, each read and each write a step of its own: other calls come
between a check and the write that it is for.
-/

namespace Zvault

open Relational Concurrent AccessFacts

/-- `organizations`, and the tables that their members are in. -/
structure OrgStore where
  organizations : List Uuid
  db : Db

/-- A call of the service, at the step it does next. `counted` only records what the call has
read of its target: the owners that were counted where it was one of them. -/
inductive OrgTask where
  | create (accountId orgId : Uuid) (publicKey : PublicKey)
  | invite (orgId accountId : Uuid) (role : OrgRole) (invitee : Option Uuid)
  | insertInvite (orgId invitee : Uuid) (role : OrgRole)
  | accept (orgId accountId : Uuid) (publicKey : PublicKey)
  | publishKey (orgId accountId : Uuid) (publicKey : PublicKey)
  | changeRole (orgId accountId targetId : Uuid) (role : OrgRole)
  | readTarget (orgId targetId : Uuid) (role : OrgRole) (me : OrgMemberRow)
  | countOwners (orgId targetId : Uuid) (role : OrgRole)
  | setRole (orgId targetId : Uuid) (role : OrgRole) (counted : Option (List Uuid))
  | remove (orgId accountId targetId : Uuid)
  | readRemoved (orgId targetId : Uuid) (me : OrgMemberRow)
  | countRemaining (orgId targetId : Uuid)
  | readAgents (orgId targetId : Uuid) (counted : Option (List Uuid))
  | dropMember (orgId targetId : Uuid) (ownedAgents : List Uuid) (counted : Option (List Uuid))
  | dropAccountGrants (orgId targetId : Uuid) (ownedAgents : List Uuid)
  | dropAgentGrants (orgId : Uuid) (ownedAgents : List Uuid)
  | reconcile (orgId : Uuid)
  deriving DecidableEq, Repr

namespace OrgTask

/-- What comes after the checks of `remove`: the owners are counted before an owner goes. -/
def afterChecks (orgId targetId : Uuid) (leaving : Bool) (me target : OrgMemberRow) :
    Option OrgTask :=
  if leaving = false ∧ me.role ∉ adminRoles then none
  else if leaving = false ∧ target.role ≠ .member ∧ me.role ≠ .owner then none
  else if target.role = .owner then some (.countRemaining orgId targetId)
  else some (.readAgents orgId targetId none)

/-- The rows that `ownerCount` counts. -/
def countedOwners (db : Db) (orgId : Uuid) : List Uuid :=
  (db.orgMembers.select fun m => m.orgId = orgId ∧ m.role = .owner).map OrgMemberRow.accountId

theorem key_published (publicKey : PublicKey) (m : OrgMemberRow) :
    OrgMemberRow.key { m with publicKey := some publicKey } = m.key := rfl

theorem key_promoted (role : OrgRole) (m : OrgMemberRow) :
    OrgMemberRow.key { m with role := role } = m.key := rfl

/-- The key that an invited member accepts with is stored. -/
def publish (db : Db) (orgId accountId : Uuid) (publicKey : PublicKey) : Db :=
  { db with
    orgMembers := db.orgMembers.update (fun m => m.orgId = orgId ∧ m.accountId = accountId)
      (fun m => { m with publicKey := some publicKey }) (key_published publicKey) }

/-- The role of a member is stored. -/
def storeRole (db : Db) (orgId targetId : Uuid) (role : OrgRole) : Db :=
  { db with
    orgMembers := db.orgMembers.update (fun m => m.orgId = orgId ∧ m.accountId = targetId)
      (fun m => { m with role := role }) (key_promoted role) }

/-- One step of a call, and how it goes on. -/
def step (s : OrgStore) (now : Timestamp) : OrgTask → OrgStore × Option OrgTask
  | .create accountId orgId publicKey =>
    -- The id is generated.
    if orgId ∈ s.organizations then (s, none)
    else
      match OrgsService.create s.db accountId orgId publicKey with
      | (.error _, _) => (s, none)
      | (.ok (), db) => (⟨orgId :: s.organizations, db⟩, none)
  | .invite orgId accountId role invitee =>
    match OrgsService.requireAdmin s.db orgId accountId, invitee with
    | .ok me, some id =>
      if role = .admin ∧ me.role ≠ .owner then (s, none)
      else (s, some (.insertInvite orgId id role))
    | _, _ => (s, none)
  | .insertInvite orgId invitee role =>
    if orgId ∉ s.organizations then (s, none)
    else
      match s.db.orgMembers.insertAll [⟨orgId, invitee, role, none⟩] with
      | none => (s, none)
      | some orgMembers => ({ s with db := { s.db with orgMembers := orgMembers } }, none)
  | .accept orgId accountId publicKey =>
    match member s.db orgId accountId false with
    | .error _ => (s, none)
    | .ok me =>
      if me.publicKey ≠ none then (s, none) else (s, some (.publishKey orgId accountId publicKey))
  | .publishKey orgId accountId publicKey =>
    ({ s with db := publish s.db orgId accountId publicKey }, none)
  | .changeRole orgId accountId targetId role =>
    match OrgsService.requireAdmin s.db orgId accountId with
    | .error _ => (s, none)
    | .ok me => (s, some (.readTarget orgId targetId role me))
  | .readTarget orgId targetId role me =>
    match member s.db orgId targetId false with
    | .error _ => (s, none)
    | .ok target =>
      let touchesOwner := role = .owner ∨ target.role = .owner
      let touchesAdmin := role = .admin ∨ target.role = .admin
      if (touchesOwner ∨ touchesAdmin) ∧ me.role ≠ .owner then (s, none)
      else if target.role = .owner ∧ role ≠ .owner then (s, some (.countOwners orgId targetId role))
      else (s, some (.setRole orgId targetId role none))
  | .countOwners orgId targetId role =>
    if OrgsService.ownerCount s.db orgId ≤ 1 then (s, none)
    else (s, some (.setRole orgId targetId role (some (countedOwners s.db orgId))))
  | .setRole orgId targetId role _ =>
    ({ s with db := storeRole s.db orgId targetId role }, none)
  | .remove orgId accountId targetId =>
    let leaving : Bool := accountId = targetId
    match member s.db orgId accountId (!leaving) with
    | .error _ => (s, none)
    | .ok me =>
      if leaving then (s, afterChecks orgId targetId leaving me me)
      else (s, some (.readRemoved orgId targetId me))
  | .readRemoved orgId targetId me =>
    match member s.db orgId targetId false with
    | .error _ => (s, none)
    | .ok target => (s, afterChecks orgId targetId false me target)
  | .countRemaining orgId targetId =>
    if OrgsService.ownerCount s.db orgId ≤ 1 then (s, none)
    else (s, some (.readAgents orgId targetId (some (countedOwners s.db orgId))))
  | .readAgents orgId targetId counted =>
    (s, some (.dropMember orgId targetId
      ((s.db.agents.select fun a => a.orgId = orgId ∧ a.ownerId = targetId).map AgentRow.id)
      counted))
  | .dropMember orgId targetId ownedAgents _ =>
    ({ s with db := OrgsService.dropMember s.db orgId targetId },
      some (.dropAccountGrants orgId targetId ownedAgents))
  | .dropAccountGrants orgId targetId ownedAgents =>
    ({ s with db := dropGrantsTo s.db .account [targetId] orgId },
      some (.dropAgentGrants orgId ownedAgents))
  | .dropAgentGrants orgId ownedAgents =>
    ({ s with db := dropGrantsTo s.db .agent ownedAgents orgId }, some (.reconcile orgId))
  | .reconcile orgId => ({ s with db := reconcileOrg s.db orgId now }, none)

/-- The steps of a call that no other step comes between. -/
def alone (now : Timestamp) : ℕ → OrgStore → Option OrgTask → OrgStore × Option OrgTask
  | _, s, none => (s, none)
  | 0, s, some t => (s, some t)
  | n + 1, s, some t => alone now n (t.step s now).1 (t.step s now).2

/-- The calls. An invite is for an admin or a member. -/
def IsCall : OrgTask → Prop
  | .create .. | .accept .. | .changeRole .. | .remove .. => True
  | .invite _ _ role _ => role ≠ .owner
  | _ => False

end OrgTask

/-- Any calls, in any order of steps. -/
def orgProgram : Program OrgStore OrgTask where
  start _ t := t.IsCall
  act s t s' next := ∃ now, t.step s now = (s', next)

/-- An owner of an organization who has accepted. -/
def ActiveOwner (orgId : Uuid) (m : OrgMemberRow) : Prop :=
  m.orgId = orgId ∧ m.role = .owner ∧ m.publicKey.isSome = true

instance (orgId : Uuid) (m : OrgMemberRow) : Decidable (ActiveOwner orgId m) :=
  inferInstanceAs (Decidable (_ ∧ _))

/-- Every organization has an owner who has accepted. -/
def Owned (s : OrgStore) : Prop :=
  ∀ orgId ∈ s.organizations, ∃ m ∈ s.db.orgMembers, ActiveOwner orgId m

/-- Of the owners who have accepted, the target is not the only one. -/
def LeavesOwner (db : Db) (orgId targetId : Uuid) : Prop :=
  (∃ m ∈ db.orgMembers, ActiveOwner orgId m ∧ m.accountId = targetId) →
    ∃ m ∈ db.orgMembers, ActiveOwner orgId m ∧ m.accountId ≠ targetId

/-- The last owner who has accepted is not taken by a step. -/
def OrgTask.Spares (s : OrgStore) : OrgTask → Prop
  | .setRole orgId targetId role _ => role ≠ .owner → LeavesOwner s.db orgId targetId
  | .dropMember orgId targetId _ _ => LeavesOwner s.db orgId targetId
  | _ => True

/-- A member has a row with the role of an owner. -/
def IsOwner (db : Db) (orgId accountId : Uuid) : Prop :=
  ∃ m ∈ db.orgMembers, m.orgId = orgId ∧ m.accountId = accountId ∧ m.role = .owner

instance (db : Db) (orgId accountId : Uuid) : Decidable (IsOwner db orgId accountId) :=
  inferInstanceAs (Decidable (∃ m ∈ db.orgMembers.rows, _))

/-- What a call has read of its target still holds: the owners that it counted are owners, and a
target that was none is none. -/
def StillOwners (db : Db) (orgId targetId : Uuid) : Option (List Uuid) → Prop
  | some counted => ∀ id ∈ counted, IsOwner db orgId id
  | none => ¬ IsOwner db orgId targetId

instance (db : Db) (orgId targetId : Uuid) :
    (counted : Option (List Uuid)) → Decidable (StillOwners db orgId targetId counted)
  | some counted => inferInstanceAs (Decidable (∀ id ∈ counted, IsOwner db orgId id))
  | none => inferInstanceAs (Decidable (¬ _))

/-- A member becomes an owner after accepting, and between what a call reads and its write no
other call makes or unmakes an owner that it has read. -/
def OrgTask.Careful (s : OrgStore) : OrgTask → Prop
  | .setRole orgId targetId role counted =>
    (role = .owner → ∀ m ∈ s.db.orgMembers, m.orgId = orgId → m.accountId = targetId →
      m.publicKey.isSome = true) ∧
    (role ≠ .owner → StillOwners s.db orgId targetId counted)
  | .dropMember orgId targetId _ counted => StillOwners s.db orgId targetId counted
  | _ => True

instance (s : OrgStore) : (t : OrgTask) → Decidable (t.Careful s)
  | .setRole orgId targetId role _ =>
    inferInstanceAs (Decidable ((role = .owner → ∀ m ∈ s.db.orgMembers.rows, m.orgId = orgId →
      m.accountId = targetId → m.publicKey.isSome = true) ∧ _))
  | .dropMember orgId targetId _ counted =>
    inferInstanceAs (Decidable (StillOwners s.db orgId targetId counted))
  | .create .. | .invite .. | .insertInvite .. | .accept .. | .publishKey .. | .changeRole ..
  | .readTarget .. | .countOwners .. | .remove .. | .readRemoved .. | .countRemaining ..
  | .readAgents .. | .dropAccountGrants .. | .dropAgentGrants .. | .reconcile .. => .isTrue trivial

/-- Every member is in an organization that was created. -/
def Joined (s : OrgStore) : Prop := ∀ m ∈ s.db.orgMembers, m.orgId ∈ s.organizations

/-- Every owner has accepted. -/
def OwnersAccepted (db : Db) : Prop :=
  ∀ m ∈ db.orgMembers, m.role = .owner → m.publicKey.isSome = true

/-- What a waiting call has found: more than one owner, where it counted them. -/
def OrgTask.Found : OrgTask → Prop
  | .invite _ _ role _ | .insertInvite _ _ role => role ≠ .owner
  | .setRole _ _ _ counted | .readAgents _ _ counted | .dropMember _ _ _ counted =>
    ∀ owners ∈ counted, owners.Nodup ∧ 1 < owners.length
  | _ => True

section Steps

variable {s s' : OrgStore} {t : OrgTask} {next : Option OrgTask} {now : Timestamp}

/-- Reconciling leaves the members alone. -/
theorem reconcileOrg_orgMembers (db : Db) (orgId : Uuid) (now : Timestamp) :
    (reconcileOrg db orgId now).orgMembers = db.orgMembers := by
  unfold reconcileOrg
  generalize db.projectOrgs.select (fun p => p.orgId = orgId) = projects
  induction projects generalizing db with
  | nil => rfl
  | cons p projects ih =>
    rw [List.foldl_cons, ih]
    cases hlinked : linkedProject db p.projectId with
    | none => rw [reconcileProject, hlinked]
    | some project =>
      rw [(reconcileProject_reconciled now hlinked).frame]
      exact (register_same db project now).orgMembers

/-- The steps of `changeRole` make up the call. -/
theorem alone_changeRole (orgId accountId targetId : Uuid) (role : OrgRole) :
    OrgTask.alone now 4 s (some (.changeRole orgId accountId targetId role)) =
      ({ s with db := (OrgsService.changeRole s.db orgId accountId targetId role).2 }, none) := by
  unfold OrgsService.changeRole
  rw [OrgTask.alone]
  dsimp only [OrgTask.step]
  cases OrgsService.requireAdmin s.db orgId accountId with
  | error e => rfl
  | ok me =>
    dsimp only
    rw [OrgTask.alone]
    dsimp only [OrgTask.step]
    cases member s.db orgId targetId false with
    | error e => rfl
    | ok target =>
      dsimp only
      by_cases hforbidden : ((role = .owner ∨ target.role = .owner) ∨ role = .admin ∨
          target.role = .admin) ∧ me.role ≠ .owner
      · rw [if_pos hforbidden, if_pos hforbidden]
        rfl
      rw [if_neg hforbidden, if_neg hforbidden]
      by_cases howner : target.role = .owner ∧ role ≠ .owner
      · rw [if_pos howner]
        dsimp only
        rw [OrgTask.alone]
        dsimp only [OrgTask.step]
        by_cases hcount : OrgsService.ownerCount s.db orgId ≤ 1
        · rw [if_pos hcount, if_pos ⟨howner.1, howner.2, hcount⟩]
          rfl
        · rw [if_neg hcount, if_neg fun h => hcount h.2.2]
          rfl
      · rw [if_neg howner, if_neg fun h => howner ⟨h.1, h.2.1⟩]
        rfl

/-- The steps of `remove` after its checks. -/
theorem alone_afterChecks (orgId targetId : Uuid) (leaving : Bool) (me target : OrgMemberRow)
    (n : ℕ) :
    OrgTask.alone now (n + 6) s (OrgTask.afterChecks orgId targetId leaving me target) =
      match OrgsService.removeRefusal s.db orgId leaving me target with
      | some _ => (s, none)
      | none =>
        let ownedAgents := (s.db.agents.select fun a => a.orgId = orgId ∧ a.ownerId = targetId).map
          AgentRow.id
        let db := OrgsService.dropMember s.db orgId targetId
        let db := dropGrantsTo db .account [targetId] orgId
        let db := dropGrantsTo db .agent ownedAgents orgId
        ({ s with db := reconcileOrg db orgId now }, none) := by
  unfold OrgTask.afterChecks OrgsService.removeRefusal
  by_cases hrole : leaving = false ∧ me.role ∉ adminRoles
  · rw [if_pos hrole, if_pos hrole]
    rfl
  rw [if_neg hrole, if_neg hrole]
  by_cases hadmin : leaving = false ∧ target.role ≠ .member ∧ me.role ≠ .owner
  · rw [if_pos hadmin, if_pos hadmin]
    rfl
  rw [if_neg hadmin, if_neg hadmin]
  by_cases howner : target.role = .owner
  · rw [if_pos howner]
    by_cases hcount : OrgsService.ownerCount s.db orgId ≤ 1
    · rw [if_pos ⟨howner, hcount⟩]
      simp only [OrgTask.alone, OrgTask.step, if_pos hcount]
    · rw [if_neg fun h => hcount h.2]
      simp only [OrgTask.alone, OrgTask.step, if_neg hcount]
  · rw [if_neg howner, if_neg fun h => howner h.1]
    simp only [OrgTask.alone, OrgTask.step]

/-- The steps of `remove` make up the call. -/
theorem alone_remove (orgId accountId targetId : Uuid) :
    OrgTask.alone now 8 s (some (.remove orgId accountId targetId)) =
      ({ s with db := (OrgsService.remove s.db orgId accountId targetId now).2 }, none) := by
  unfold OrgsService.remove
  rw [OrgTask.alone]
  dsimp only [OrgTask.step]
  cases member s.db orgId accountId (!decide (accountId = targetId)) with
  | error e => rfl
  | ok me =>
    dsimp only
    by_cases hleaving : accountId = targetId
    · rw [if_pos (decide_eq_true hleaving), if_pos (decide_eq_true hleaving)]
      dsimp only
      rw [alone_afterChecks _ _ _ _ _ 1]
      cases OrgsService.removeRefusal s.db orgId (decide (accountId = targetId)) me me <;> rfl
    · rw [if_neg (by simpa using hleaving), if_neg (by simpa using hleaving)]
      dsimp only
      rw [OrgTask.alone]
      dsimp only [OrgTask.step]
      cases member s.db orgId targetId false with
      | error e => rfl
      | ok target =>
        dsimp only
        rw [decide_eq_false hleaving, alone_afterChecks _ _ _ _ _ 0]
        cases OrgsService.removeRefusal s.db orgId false me target <;> rfl

/-- What a step does to the members. -/
inductive Changed (s s' : OrgStore) : OrgTask → Prop
  | same {t : OrgTask} (horgs : s'.organizations = s.organizations)
      (hmembers : s'.db.orgMembers = s.db.orgMembers) (hspares : t.Spares s) : Changed s s' t
  | created {accountId orgId : Uuid} {publicKey : PublicKey}
      (horgs : s'.organizations = orgId :: s.organizations)
      (hmembers : ∀ m, m ∈ s'.db.orgMembers ↔
        m ∈ s.db.orgMembers ∨ m = ⟨orgId, accountId, .owner, some publicKey⟩) :
      Changed s s' (.create accountId orgId publicKey)
  | invited {orgId invitee : Uuid} {role : OrgRole} (horg : orgId ∈ s.organizations)
      (horgs : s'.organizations = s.organizations)
      (hmembers : ∀ m, m ∈ s'.db.orgMembers ↔ m ∈ s.db.orgMembers ∨ m = ⟨orgId, invitee, role, none⟩) :
      Changed s s' (.insertInvite orgId invitee role)
  | published {orgId accountId : Uuid} {publicKey : PublicKey}
      (horgs : s'.organizations = s.organizations)
      (hmembers : s'.db.orgMembers = s.db.orgMembers.update
        (fun m => m.orgId = orgId ∧ m.accountId = accountId)
        (fun m => { m with publicKey := some publicKey })) :
      Changed s s' (.publishKey orgId accountId publicKey)
  | roleSet {orgId targetId : Uuid} {role : OrgRole} {counted : Option (List Uuid)}
      (horgs : s'.organizations = s.organizations)
      (hmembers : s'.db.orgMembers = s.db.orgMembers.update
        (fun m => m.orgId = orgId ∧ m.accountId = targetId) (fun m => { m with role := role })) :
      Changed s s' (.setRole orgId targetId role counted)
  | dropped {orgId targetId : Uuid} {ownedAgents : List Uuid} {counted : Option (List Uuid)}
      (horgs : s'.organizations = s.organizations)
      (hmembers : s'.db.orgMembers = s.db.orgMembers.delete
        fun m => m.orgId = orgId ∧ m.accountId = targetId) :
      Changed s s' (.dropMember orgId targetId ownedAgents counted)

theorem step_changed (h : t.step s now = (s', next)) : Changed s s' t := by
  cases t with
  | create accountId orgId publicKey =>
    dsimp only [OrgTask.step] at h
    split at h
    · cases h
      exact .same rfl rfl trivial
    split at h
    · cases h
      exact .same rfl rfl trivial
    rename_i db hcreate
    cases h
    unfold OrgsService.create at hcreate
    split at hcreate
    · cases hcreate
    rename_i orgMembers hinsert
    cases hcreate
    exact .created rfl fun m => (Table.mem_insertAll hinsert m).trans (by rw [List.mem_singleton])
  | insertInvite orgId invitee role =>
    dsimp only [OrgTask.step] at h
    split at h
    · cases h
      exact .same rfl rfl trivial
    rename_i horg
    split at h
    · cases h
      exact .same rfl rfl trivial
    rename_i orgMembers hinsert
    cases h
    exact .invited (not_not.mp horg) rfl
      fun m => (Table.mem_insertAll hinsert m).trans (by rw [List.mem_singleton])
  | publishKey orgId accountId publicKey =>
    cases h
    exact .published rfl rfl
  | setRole orgId targetId role counted =>
    cases h
    exact .roleSet rfl rfl
  | dropMember orgId targetId ownedAgents counted =>
    cases h
    exact .dropped rfl rfl
  | dropAccountGrants orgId targetId ownedAgents =>
    cases h
    refine .same rfl ?_ trivial
    unfold dropGrantsTo
    split <;> rfl
  | dropAgentGrants orgId ownedAgents =>
    cases h
    refine .same rfl ?_ trivial
    unfold dropGrantsTo
    split <;> rfl
  | reconcile orgId =>
    cases h
    exact .same rfl (reconcileOrg_orgMembers _ _ _) trivial
  | invite | accept | changeRole | readTarget | countOwners | remove | readRemoved | countRemaining
  | readAgents =>
    -- these only read
    have hsame : s' = s := by
      dsimp only [OrgTask.step] at h
      repeat' split at h
      all_goals
        cases h
        rfl
    rw [hsame]
    exact .same rfl rfl trivial

/-- Members only join organizations that were created. -/
theorem Joined.step (hjoined : Joined s) (h : t.step s now = (s', next)) : Joined s' := by
  intro m hm
  cases step_changed h with
  | same horgs hmembers =>
    rw [hmembers] at hm
    rw [horgs]
    exact hjoined m hm
  | created horgs hmembers =>
    rw [horgs, List.mem_cons]
    rcases (hmembers m).mp hm with hold | rfl
    · exact Or.inr (hjoined m hold)
    · exact Or.inl rfl
  | invited horg horgs hmembers =>
    rw [horgs]
    rcases (hmembers m).mp hm with hold | rfl
    · exact hjoined m hold
    · exact horg
  | published horgs hmembers =>
    rw [hmembers] at hm
    obtain ⟨m₀, hm₀, rfl⟩ := Table.mem_update.mp hm
    rw [horgs]
    split <;> exact hjoined m₀ hm₀
  | roleSet horgs hmembers =>
    rw [hmembers] at hm
    obtain ⟨m₀, hm₀, rfl⟩ := Table.mem_update.mp hm
    rw [horgs]
    split <;> exact hjoined m₀ hm₀
  | dropped horgs hmembers =>
    rw [hmembers] at hm
    rw [horgs]
    exact hjoined m (Table.mem_delete.mp hm).1

/-- A step keeps every organization owned exactly when it leaves an owner who has accepted. -/
theorem owned_step_iff (howned : Owned s) (hjoined : Joined s) (h : t.step s now = (s', next)) :
    Owned s' ↔ t.Spares s := by
  cases step_changed h with
  | same horgs hmembers hspares =>
    refine iff_of_true (fun orgId horg => ?_) hspares
    rw [horgs] at horg
    rw [hmembers]
    exact howned orgId horg
  | created horgs hmembers =>
    refine iff_of_true (fun orgId horg => ?_) trivial
    rw [horgs, List.mem_cons] at horg
    rcases horg with rfl | horg
    · exact ⟨_, (hmembers _).mpr (Or.inr rfl), rfl, rfl, rfl⟩
    · obtain ⟨m, hm, hactive⟩ := howned orgId horg
      exact ⟨m, (hmembers m).mpr (Or.inl hm), hactive⟩
  | invited horg' horgs hmembers =>
    refine iff_of_true (fun orgId horg => ?_) trivial
    rw [horgs] at horg
    obtain ⟨m, hm, hactive⟩ := howned orgId horg
    exact ⟨m, (hmembers m).mpr (Or.inl hm), hactive⟩
  | published horgs hmembers =>
    refine iff_of_true (fun orgId horg => ?_) trivial
    rw [horgs] at horg
    obtain ⟨m, hm, hactive⟩ := howned orgId horg
    rw [hmembers]
    refine ⟨_, Table.mem_update_of_mem _ hm, ?_⟩
    split
    · exact ⟨hactive.1, hactive.2.1, rfl⟩
    · exact hactive
  | @roleSet orgId targetId role counted horgs hmembers =>
    constructor
    · rintro howned' hrole ⟨m, hm, hactive, -⟩
      obtain ⟨m', hm', hactive'⟩ := howned' orgId (horgs ▸ hactive.1 ▸ hjoined m hm)
      rw [hmembers] at hm'
      obtain ⟨m₀, hm₀, rfl⟩ := Table.mem_update.mp hm'
      split at hactive'
      · exact absurd hactive'.2.1 hrole
      · rename_i hother
        simp only [decide_eq_true_eq, not_and] at hother
        exact ⟨m₀, hm₀, hactive', hother hactive'.1⟩
    · intro hspares orgId' horg
      rw [horgs] at horg
      obtain ⟨m, hm, hactive⟩ := howned orgId' horg
      rw [hmembers]
      by_cases htarget : m.orgId = orgId ∧ m.accountId = targetId
      · obtain rfl : orgId' = orgId := hactive.1.symm.trans htarget.1
        by_cases hrole : role = .owner
        · refine ⟨_, Table.mem_update_of_mem _ hm, ?_⟩
          rw [if_pos (decide_eq_true htarget)]
          exact ⟨hactive.1, hrole, hactive.2.2⟩
        · obtain ⟨m', hm', hactive', hother⟩ := hspares hrole ⟨m, hm, hactive, htarget.2⟩
          refine ⟨_, Table.mem_update_of_mem _ hm', ?_⟩
          rw [if_neg (by simp [hother])]
          exact hactive'
      · refine ⟨_, Table.mem_update_of_mem _ hm, ?_⟩
        rw [if_neg (by simpa using htarget)]
        exact hactive
  | @dropped orgId targetId ownedAgents counted horgs hmembers =>
    constructor
    · rintro howned' ⟨m, hm, hactive, -⟩
      obtain ⟨m', hm', hactive'⟩ := howned' orgId (horgs ▸ hactive.1 ▸ hjoined m hm)
      rw [hmembers, Table.mem_delete] at hm'
      have hother := hm'.2
      simp only [decide_eq_false_iff_not, not_and] at hother
      exact ⟨m', hm'.1, hactive', hother hactive'.1⟩
    · intro hspares orgId' horg
      rw [horgs] at horg
      obtain ⟨m, hm, hactive⟩ := howned orgId' horg
      rw [hmembers]
      by_cases htarget : m.orgId = orgId ∧ m.accountId = targetId
      · obtain rfl : orgId' = orgId := hactive.1.symm.trans htarget.1
        obtain ⟨m', hm', hactive', hother⟩ := hspares ⟨m, hm, hactive, htarget.2⟩
        exact ⟨m', Table.mem_delete.mpr ⟨hm', by simp [hother]⟩, hactive'⟩
      · exact ⟨m, Table.mem_delete.mpr ⟨hm, by simpa using htarget⟩, hactive⟩

/-- Members become owners by creating an organization or, once they have accepted, by a change of
their role. -/
theorem OwnersAccepted.step (haccepted : OwnersAccepted s.db) (hfound : t.Found)
    (hcareful : t.Careful s) (h : t.step s now = (s', next)) : OwnersAccepted s'.db := by
  intro m hm hrole
  cases step_changed h with
  | same horgs hmembers =>
    rw [hmembers] at hm
    exact haccepted m hm hrole
  | created horgs hmembers =>
    rcases (hmembers m).mp hm with hold | rfl
    · exact haccepted m hold hrole
    · rfl
  | invited horg horgs hmembers =>
    rcases (hmembers m).mp hm with hold | rfl
    · exact haccepted m hold hrole
    · exact absurd hrole hfound
  | @published orgId accountId publicKey horgs hmembers =>
    rw [hmembers] at hm
    obtain ⟨m₀, hm₀, rfl⟩ := Table.mem_update.mp hm
    by_cases haccount : m₀.orgId = orgId ∧ m₀.accountId = accountId
    · rw [if_pos (decide_eq_true haccount)]
      rfl
    · rw [if_neg (by simpa using haccount)] at hrole ⊢
      exact haccepted m₀ hm₀ hrole
  | @roleSet orgId targetId role counted horgs hmembers =>
    rw [hmembers] at hm
    obtain ⟨m₀, hm₀, rfl⟩ := Table.mem_update.mp hm
    by_cases htarget : m₀.orgId = orgId ∧ m₀.accountId = targetId
    · rw [if_pos (decide_eq_true htarget)] at hrole ⊢
      exact hcareful.1 hrole m₀ hm₀ htarget.1 htarget.2
    · rw [if_neg (by simpa using htarget)] at hrole ⊢
      exact haccepted m₀ hm₀ hrole
  | dropped horgs hmembers =>
    rw [hmembers] at hm
    exact haccepted m (Table.mem_delete.mp hm).1 hrole

/-- The owners that are counted differ. -/
theorem nodup_countedOwners (db : Db) (orgId : Uuid) :
    (OrgTask.countedOwners db orgId).Nodup := by
  have hkeys := db.orgMembers.nodup_select fun m => m.orgId = orgId ∧ m.role = .owner
  rw [OrgTask.countedOwners]
  refine List.Nodup.of_map (fun id => (orgId, id)) ?_
  rw [List.map_map]
  rwa [List.map_congr_left]
  intro m hm
  have horg := (Table.mem_select.mp hm).2
  simp only [decide_eq_true_eq] at horg
  simp only [Function.comp_apply, OrgMemberRow.key, horg.1]

theorem length_countedOwners (db : Db) (orgId : Uuid) :
    (OrgTask.countedOwners db orgId).length = OrgsService.ownerCount db orgId :=
  List.length_map _

/-- A call has counted nothing when it starts. -/
theorem OrgTask.IsCall.found (hcall : t.IsCall) : t.Found := by
  cases t with
  | invite orgId accountId role invitee => exact hcall
  | create | accept | changeRole | remove => trivial
  | _ => exact hcall.elim

/-- A call that counted the owners found more than one. -/
theorem found_next {u : OrgTask} (hfound : t.Found) (h : t.step s now = (s', some u)) :
    u.Found := by
  have hcounted (orgId : Uuid) (hmany : ¬ OrgsService.ownerCount s.db orgId ≤ 1) :
      ∀ owners ∈ some (OrgTask.countedOwners s.db orgId), owners.Nodup ∧ 1 < owners.length := by
    rintro _ ⟨⟩
    rw [length_countedOwners]
    exact ⟨nodup_countedOwners s.db orgId, Nat.lt_of_not_le hmany⟩
  have hchecks {orgId targetId : Uuid} {leaving : Bool} {me target : OrgMemberRow}
      (h : OrgTask.afterChecks orgId targetId leaving me target = some u) : u.Found := by
    unfold OrgTask.afterChecks at h
    split_ifs at h
    · cases h
      trivial
    · cases h
      exact fun _ h => absurd h (Option.not_mem_none _)
  cases t with
  | invite orgId accountId role invitee =>
    dsimp only [OrgTask.step] at h
    split at h
    · split at h
      · cases h
      · cases h
        exact hfound
    · cases h
  | readTarget orgId targetId role me =>
    dsimp only [OrgTask.step] at h
    split at h
    · cases h
    · split at h
      · cases h
      · split at h
        · cases h
          trivial
        · cases h
          exact fun _ h => absurd h (Option.not_mem_none _)
  | countOwners orgId targetId role =>
    dsimp only [OrgTask.step] at h
    split at h
    · cases h
    · rename_i hmany
      cases h
      exact hcounted orgId hmany
  | remove orgId accountId targetId =>
    dsimp only [OrgTask.step] at h
    split at h
    · cases h
    · split at h
      · exact hchecks (Prod.mk.inj h).2
      · cases h
        trivial
  | readRemoved orgId targetId me =>
    dsimp only [OrgTask.step] at h
    split at h
    · cases h
    · exact hchecks (Prod.mk.inj h).2
  | countRemaining orgId targetId =>
    dsimp only [OrgTask.step] at h
    split at h
    · cases h
    · rename_i hmany
      cases h
      exact hcounted orgId hmany
  | readAgents orgId targetId counted =>
    cases h
    exact hfound
  | create | insertInvite | publishKey | setRole | reconcile | accept | changeRole | dropMember
  | dropAccountGrants | dropAgentGrants =>
    dsimp only [OrgTask.step] at h
    repeat' split at h
    all_goals cases h <;> trivial

/-- **A careful write spares an owner who has accepted.** Where its call counted the owners, more
than one of them is left, and all of them have accepted. -/
theorem OrgTask.Careful.spares (hcareful : t.Careful s) (haccepted : OwnersAccepted s.db)
    (hfound : t.Found) : t.Spares s := by
  have hleaves : ∀ orgId targetId counted, (∀ owners ∈ counted, owners.Nodup ∧ 1 < owners.length) →
      StillOwners s.db orgId targetId counted → LeavesOwner s.db orgId targetId := by
    rintro orgId targetId counted hcount hstill ⟨m, hm, ⟨horg, hrole, -⟩, htarget⟩
    cases counted with
    | none => exact absurd ⟨m, hm, horg, htarget, hrole⟩ hstill
    | some owners =>
      obtain ⟨hnodup, hlength⟩ := hcount owners rfl
      obtain ⟨id, hid, hother⟩ : ∃ id ∈ owners, id ≠ targetId := by
        by_contra hall
        push Not at hall
        rw [List.eq_replicate_of_mem hall, List.nodup_replicate] at hnodup
        omega
      obtain ⟨m', hm', horg', rfl, hrole'⟩ := hstill id hid
      exact ⟨m', hm', ⟨horg', hrole', haccepted m' hm' hrole'⟩, hother⟩
  cases t with
  | setRole orgId targetId role counted =>
    exact fun hrole => hleaves orgId targetId counted hfound (hcareful.2 hrole)
  | dropMember orgId targetId ownedAgents counted =>
    exact hleaves orgId targetId counted hfound hcareful
  | _ => trivial

end Steps

/-- **An organization keeps an owner who has accepted** in every run in which members become
owners after accepting, and no owner is made or unmade between what a call reads of the owners
and its write. -/
theorem organizations_owned {start : OrgStore} {s : System OrgStore OrgTask}
    (horgs : start.organizations = []) (hmembers : start.db.orgMembers = Table.empty)
    (hrun : Run (orgProgram.when OrgTask.Careful) ⟨start, []⟩ s) : Owned s.shared := by
  have houtline : Outline (orgProgram.when OrgTask.Careful)
      (fun s => Owned s ∧ Joined s ∧ OwnersAccepted s.db) (fun _ t => t.Found) fun _ _ => True := by
    refine .of_free (fun _ hcall => ?_) (fun hinv hfound hact => ?_) (fun _ hfound hact => ?_)
      fun _ _ hfound _ => hfound
    · exact hcall.found
    · obtain ⟨howned, hjoined, haccepted⟩ := hinv
      obtain ⟨hcareful, now, hstep⟩ := hact
      exact ⟨(owned_step_iff howned hjoined hstep).mpr (hcareful.spares haccepted hfound),
        hjoined.step hstep, haccepted.step hfound hcareful hstep⟩
    · obtain ⟨-, now, hstep⟩ := hact
      exact found_next hfound hstep
  have hstart : Owned start ∧ Joined start ∧ OwnersAccepted start.db := by
    refine ⟨fun orgId horg => ?_, fun m hm => ?_, fun m hm => ?_⟩
    · rw [horgs] at horg
      cases horg
    · rw [hmembers] at hm
      exact absurd hm (Table.not_mem_empty m)
    · rw [hmembers] at hm
      exact absurd hm (Table.not_mem_empty m)
  exact (houtline.run_idle hstart hrun).inv.1

/-- Every step meets a condition, in a call that no other step comes between. -/
def OrgTask.AloneWhen (condition : OrgStore → OrgTask → Prop) (now : Timestamp) :
    ℕ → OrgStore → Option OrgTask → Prop
  | 0, _, _ => True
  | _ + 1, _, none => True
  | n + 1, s, some t => condition s t ∧ AloneWhen condition now n (t.step s now).1 (t.step s now).2

instance decidableAloneWhen (now : Timestamp) : (n : ℕ) → (s : OrgStore) →
    (next : Option OrgTask) → Decidable (OrgTask.AloneWhen OrgTask.Careful now n s next)
  | 0, _, _ => .isTrue trivial
  | _ + 1, _, none => .isTrue trivial
  | n + 1, s, some t =>
    have := decidableAloneWhen now n (t.step s now).1 (t.step s now).2
    inferInstanceAs (Decidable (_ ∧ _))

theorem OrgTask.aloneWhen_true (now : Timestamp) (n : ℕ) (s : OrgStore) (next : Option OrgTask) :
    AloneWhen (fun _ _ => True) now n s next := by
  induction n generalizing s next with
  | zero => trivial
  | succ n ih =>
    cases next with
    | none => trivial
    | some t => exact ⟨trivial, ih _ _⟩

/-- A call that no other step comes between is part of a run. -/
theorem reaches_alone {condition : OrgStore → OrgTask → Prop} {start : System OrgStore OrgTask}
    {s s' : OrgStore} (now : Timestamp) (n : ℕ) {t : OrgTask}
    (hrun : Run (orgProgram.when condition) start ⟨s, []⟩) (hcall : t.IsCall)
    (hwhen : OrgTask.AloneWhen condition now n s (some t))
    (halone : OrgTask.alone now n s (some t) = (s', none)) :
    Run (orgProgram.when condition) start ⟨s', []⟩ := by
  have hsteps : ∀ n s (next : Option OrgTask),
      Run (orgProgram.when condition) start ⟨s, next.toList⟩ →
      OrgTask.AloneWhen condition now n s next → OrgTask.alone now n s next = (s', none) →
      Run (orgProgram.when condition) start ⟨s', []⟩ := by
    intro n
    induction n with
    | zero =>
      intro s next hrun _ halone
      cases next with
      | none =>
        cases halone
        exact hrun
      | some t => cases halone
    | succ n ih =>
      intro s next hrun hwhen halone
      cases next with
      | none =>
        cases halone
        exact hrun
      | some t =>
        have hact : (orgProgram.when condition).act s t (t.step s now).1 (t.step s now).2 :=
          ⟨hwhen.1, now, rfl⟩
        have hnext := Run.proceeds hrun hact
        rw [List.append_nil] at hnext
        exact ih _ _ hnext hwhen.2 halone
  exact hsteps n s (some t) (hrun.tail (.start hcall)) hwhen halone

/-- Before the first organization. -/
def noOrganizations : OrgStore := ⟨[], Db.empty⟩

/-- An organization with some members. -/
def organizationOf (members : List OrgMemberRow)
    (hkeys : (members.map OrgMemberRow.key).Nodup) : OrgStore :=
  ⟨[5], { Db.empty with orgMembers := ⟨members, hkeys⟩ }⟩

/-- Account 11 is made an owner after it has accepted, and account 10 leaves. -/
theorem organizations_owned_handedOver :
    Owned (organizationOf [⟨5, 11, .owner, some 8⟩] (by decide)) := by
  have hcreated : Run (orgProgram.when OrgTask.Careful) ⟨noOrganizations, []⟩
      ⟨organizationOf [⟨5, 10, .owner, some 7⟩] (by decide), []⟩ := by
    have hcall : (OrgTask.create 10 5 7).IsCall := trivial
    exact reaches_alone 0 1 .refl hcall (by decide) rfl
  have hinvited : Run (orgProgram.when OrgTask.Careful) ⟨noOrganizations, []⟩
      ⟨organizationOf [⟨5, 10, .owner, some 7⟩, ⟨5, 11, .member, none⟩] (by decide), []⟩ := by
    have hcall : (OrgTask.invite 5 10 .member (some 11)).IsCall :=
      (by decide : OrgRole.member ≠ .owner)
    exact reaches_alone 0 2 hcreated hcall (by decide) rfl
  have haccepted : Run (orgProgram.when OrgTask.Careful) ⟨noOrganizations, []⟩
      ⟨organizationOf [⟨5, 10, .owner, some 7⟩, ⟨5, 11, .member, some 8⟩] (by decide), []⟩ := by
    have hcall : (OrgTask.accept 5 11 8).IsCall := trivial
    exact reaches_alone 0 2 hinvited hcall (by decide) rfl
  have hpromoted : Run (orgProgram.when OrgTask.Careful) ⟨noOrganizations, []⟩
      ⟨organizationOf [⟨5, 10, .owner, some 7⟩, ⟨5, 11, .owner, some 8⟩] (by decide), []⟩ := by
    have hcall : (OrgTask.changeRole 5 10 11 .owner).IsCall := trivial
    exact reaches_alone 0 4 haccepted hcall (by decide) rfl
  have hleft : Run (orgProgram.when OrgTask.Careful) ⟨noOrganizations, []⟩
      ⟨organizationOf [⟨5, 11, .owner, some 8⟩] (by decide), []⟩ := by
    have hcall : (OrgTask.remove 5 10 10).IsCall := trivial
    exact reaches_alone 0 8 hpromoted hcall (by decide) rfl
  exact organizations_owned rfl rfl hleft

/-- An organization whose owner 10 has accepted, and an invited owner. -/
def twoOwners : OrgStore :=
  organizationOf [⟨5, 10, .owner, some 7⟩, ⟨5, 11, .owner, none⟩] (by decide)

/-- Account 10 creates the organization, invites account 11 and makes it an owner. -/
theorem run_twoOwners :
    Run (orgProgram.when fun _ _ => True) ⟨noOrganizations, []⟩ ⟨twoOwners, []⟩ := by
  have hcreated : Run (orgProgram.when fun _ _ => True) ⟨noOrganizations, []⟩
      ⟨organizationOf [⟨5, 10, .owner, some 7⟩] (by decide), []⟩ := by
    have hcall : (OrgTask.create 10 5 7).IsCall := trivial
    exact reaches_alone 0 1 .refl hcall (OrgTask.aloneWhen_true _ _ _ _) rfl
  have hinvited : Run (orgProgram.when fun _ _ => True) ⟨noOrganizations, []⟩
      ⟨organizationOf [⟨5, 10, .owner, some 7⟩, ⟨5, 11, .member, none⟩] (by decide), []⟩ := by
    have hcall : (OrgTask.invite 5 10 .member (some 11)).IsCall :=
      (by decide : OrgRole.member ≠ .owner)
    exact reaches_alone 0 2 hcreated hcall (OrgTask.aloneWhen_true _ _ _ _) rfl
  have hcall : (OrgTask.changeRole 5 10 11 .owner).IsCall := trivial
  exact reaches_alone 0 4 hinvited hcall (OrgTask.aloneWhen_true _ _ _ _) rfl

/-- An owner who was only invited counts as one, so the one who has accepted may leave. -/
theorem organizations_not_owned :
    ¬ ∀ (start : OrgStore) (s : System OrgStore OrgTask), start.organizations = [] →
      start.db.orgMembers = Table.empty → Run orgProgram ⟨start, []⟩ s → Owned s.shared := by
  intro h
  have hcall : (OrgTask.remove 5 10 10).IsCall := trivial
  have hleft := reaches_alone 0 8 run_twoOwners hcall (OrgTask.aloneWhen_true _ _ _ _)
    (alone_remove 5 10 10)
  obtain ⟨m, hm, hactive⟩ := h noOrganizations _ rfl rfl hleft.of_when 5 (List.mem_singleton.mpr rfl)
  have hmembers : ∀ m ∈ (OrgsService.remove twoOwners.db 5 10 10 0).2.orgMembers.rows,
      m.publicKey = none := by decide
  rw [ActiveOwner, hmembers m hm] at hactive
  cases hactive.2.2

end Zvault
