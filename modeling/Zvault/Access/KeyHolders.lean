import Zvault.Access.Orgs
import Zvault.Access.RotationExact

/-!
# Whom a device wraps a new key for

`keyHolders` of `apps/desktop/src/projects/teamModel.ts` works out who keeps an
environment's key from what the API lists: the environment's grants and the
organization's members. The API works it out from its tables, and refuses a
rotation that leaves one of them out. The two agree.
-/

namespace Zvault

open Relational AccessFacts

/-- `status` of a member. -/
inductive MemberStatus where
  | invited
  | active
  deriving DecidableEq, Repr

/-- `OrgMember`, without the email. -/
structure OrgMember where
  accountId : Uuid
  role : OrgRole
  status : MemberStatus
  /-- `none` until the member accepts. -/
  publicKey : Option PublicKey
  groupIds : List Uuid
  deriving DecidableEq, Repr

/-- `OrgDetail`, as far as members go. -/
structure OrgDetail where
  id : Uuid
  role : OrgRole
  members : List OrgMember
  deriving DecidableEq, Repr

/-- `detail`: an organization as its active members see it. -/
def OrgsService.detail (db : Db) (orgId accountId : Uuid) : Except ApiError OrgDetail :=
  match member db orgId accountId true with
  | .error e => .error e
  | .ok me =>
    let memberRows := db.orgMembers.select fun m => m.orgId = orgId
    let membershipRows := db.groupMembers.select fun m =>
      db.orgGroups.rows.any fun g => g.id = m.groupId ∧ g.orgId = orgId
    .ok
      { id := orgId
        role := me.role
        members := memberRows.map fun m =>
          { accountId := m.accountId
            role := m.role
            status := if m.publicKey.isSome then .active else .invited
            publicKey := m.publicKey
            groupIds := (membershipRows.filter fun g => g.accountId = m.accountId).map
              GroupMemberRow.groupId } }

namespace TeamModel

/-- `levelOf` of `keyHolders`: a member's own live grant, or else their groups' strongest. -/
def levelOf (live : List Grant) (accountId : Uuid) (groupIds : List Uuid) : AccessLevel :=
  match live.find? fun g => g.principal.type = .account ∧ g.principal.id = accountId with
  | some direct => direct.level
  | none =>
    (live.filter fun g => g.principal.type = .group ∧ g.principal.id ∈ groupIds).foldl
      (fun best g => strongerLevel best g.level) .none

/-- `keyHolders`: everyone who keeps the key when an environment is rotated. `always` adds
accounts that manage regardless of grants. -/
def keyHolders (env : EnvironmentAccess) (org : OrgDetail) (always : List Uuid)
    (now : Timestamp) : List PendingWrap :=
  let live := env.grants.filter fun g => g.expiresAt.all fun t => now < t
  org.members.flatMap fun m =>
    match m.publicKey with
    | none => []
    | some publicKey =>
      let keeps := m.accountId ∈ always ∨
        (m.status = .active ∧ holdsKey (levelOf live m.accountId m.groupIds))
      if keeps then [⟨m.accountId, publicKey⟩] else []

end TeamModel

namespace EnvironmentsService

variable {db db' : Db} {accountId environmentId orgId id : Uuid} {now : Timestamp}

/-- What is loaded again later is the same environment. Upkeep takes key grants and flags
environments, and leaves the organization and the environment's grants alone. -/
theorem Loaded.visible_again {before : Timestamp} {v v' : Visible}
    (h : Loaded db accountId environmentId before v)
    (hvisible : visible db accountId environmentId now = (.ok v', db')) :
    v'.env.orgId = v.env.orgId ∧ v'.env.ownerId = v.env.ownerId ∧
      v'.env.environmentId = environmentId ∧
      db' = { db with keyGrants := db'.keyGrants, environmentAccess := db'.environmentAccess } := by
  obtain ⟨entry, project, hentry, hproject, howner, hregistered⟩ := h.entry
  have hupkept := Upkept.reconcile db v.env.projectId now
  obtain ⟨-, horgs⟩ := reconcileProject_same db v.env.projectId now
  have hframe : reconcileProject db v.env.projectId now = { db with
      keyGrants := (reconcileProject db v.env.projectId now).keyGrants
      environmentAccess := (reconcileProject db v.env.projectId now).environmentAccess } := by
    cases hlinked : linkedProject db v.env.projectId with
    | none =>
      rw [reconcileProject, hlinked]
    | some linked =>
      have hreconciled := reconcileProject_reconciled now hlinked
      rw [register_snd_eq_self now (h.reconciled linked hlinked).1] at hreconciled
      exact hreconciled.frame
  simp only [visible, h.environment_eq, h.me] at hvisible
  split at hvisible
  · cases hvisible
  rename_i env db₁ hsecond
  cases hvisible
  obtain ⟨entry', project', hentry', hproject', rfl, howner', hid, hrow⟩ := environment_ok hsecond
  -- The second load finds the same entry, with everything registered.
  obtain rfl : entry' = entry := by
    unfold FindsEntry at hentry hentry'
    rw [hupkept.projectEntries, hentry] at hentry'
    exact (Option.some.inj hentry').symm
  obtain rfl : project' = project := by
    rw [linkedProject_congr hupkept.projects horgs, hproject] at hproject'
    exact (Option.some.inj hproject').symm
  rw [register_snd_eq_self now (unregistered_upkept hupkept hregistered)] at hrow ⊢
  have henv := (hupkept.row_eq h.row hrow (hid.trans h.id.symm)).1
  refine ⟨?_, howner'.trans howner.symm, hid, hframe⟩
  rw [henv]

/-- The key on file of an account is that of its membership. -/
theorem keys_account_eq_some {owner : Option Uuid} {publicKey : PublicKey} :
    (org db orgId owner).keys (.account id) = some publicKey ↔
      ∃ m ∈ db.orgMembers, m.key = (orgId, id) ∧ m.publicKey = some publicKey := by
  simp only [org, Option.bind_eq_some_iff]
  constructor
  · rintro ⟨m, hfind, hkey⟩
    have hid := List.find?_some hfind
    have hmem := List.mem_of_find?_eq_some hfind
    simp only [Table.mem_select, decide_eq_true_eq] at hid hmem
    exact ⟨m, hmem.1, Prod.ext hmem.2.1 hid, hkey⟩
  · rintro ⟨m, hm, hkey, hpublic⟩
    have horg : m.orgId = orgId := congrArg Prod.fst hkey
    have hid : m.accountId = id := congrArg Prod.snd hkey
    have hselected : m ∈ db.orgMembers.select fun m => m.orgId = orgId ∧ m.publicKey.isSome := by
      simp only [Table.mem_select, decide_eq_true_eq]
      exact ⟨hm, horg, by rw [hpublic]; rfl⟩
    cases hfind : (db.orgMembers.select fun m => m.orgId = orgId ∧ m.publicKey.isSome).find?
        fun m => m.accountId = id with
    | none => exact absurd hid (by simpa using List.find?_eq_none.mp hfind m hselected)
    | some m' =>
      have hid' := List.find?_some hfind
      have hmem := List.mem_of_find?_eq_some hfind
      simp only [Table.mem_select, decide_eq_true_eq] at hid' hmem
      have heq : m' = m := Table.eq_of_key_eq hmem.1 hm
        (Prod.ext (hmem.2.1.trans horg.symm) (hid'.trans hid.symm))
      exact ⟨m', rfl, heq ▸ hpublic⟩

/-- The same rule, over the grants as they are listed. -/
theorem effectiveLevel_listed {owner : Option Uuid} (hnot : some id ≠ owner)
    (hactive : id ∈ (org db orgId owner).activeMembers) :
    effectiveLevel (.account id) (grants db environmentId) (org db orgId owner) now =
      TeamModel.levelOf (((db.environmentGrants.select fun g =>
          g.environmentId = environmentId).map toGrant).filter fun g =>
            g.expiresAt.all fun t => now < t) id ((org db orgId owner).groupsOf id) := by
  have hlive : ((grants db environmentId).filter fun g => live g now) =
      ((db.environmentGrants.select fun g => g.environmentId = environmentId).filter
        fun g => live g.facts now).map EnvironmentGrantRow.facts := by
    rw [grants, List.filter_map]
    rfl
  have hlisted : (((db.environmentGrants.select fun g => g.environmentId = environmentId).map
      toGrant).filter fun g => g.expiresAt.all fun t => now < t) =
        ((db.environmentGrants.select fun g => g.environmentId = environmentId).filter
          fun g => live g.facts now).map toGrant := by
    rw [List.filter_map]
    congr 1
    refine List.filter_congr fun g _ => ?_
    simp only [Function.comp_apply, toGrant, live, EnvironmentGrantRow.facts]
    cases g.expiresAt <;> rfl
  rw [hlisted]
  unfold effectiveLevel TeamModel.levelOf
  rw [if_neg (by rintro ⟨-, heq⟩; exact hnot heq), if_neg (by rintro ⟨-, hout⟩; exact hout hactive),
    if_neg (by rintro ⟨htype, -⟩; cases htype)]
  dsimp only
  rw [hlive]
  generalize (db.environmentGrants.select fun g => g.environmentId = environmentId).filter
    (fun g => live g.facts now) = rows
  rw [List.find?_map, List.find?_map, List.filter_map, List.filter_map, List.foldl_map,
    List.foldl_map]
  have hdirect : rows.find? ((fun g : Grant => decide (g.principal.type = .account ∧
      g.principal.id = id)) ∘ toGrant) =
        rows.find? ((fun g : GrantFacts => decide (g.principalType = HolderType.principal .account ∧
          g.principalId = id)) ∘ EnvironmentGrantRow.facts) := rfl
  rw [hdirect]
  cases rows.find? ((fun g : GrantFacts => decide (g.principalType = HolderType.principal .account ∧
      g.principalId = id)) ∘ EnvironmentGrantRow.facts) with
  | none => rfl
  | some g => rfl

end EnvironmentsService

theorem TeamModel.mem_keyHolders {env : EnvironmentAccess} {org : OrgDetail} {always : List Uuid}
    {now : Timestamp} {w : PendingWrap} : w ∈ keyHolders env org always now ↔
      ∃ m ∈ org.members, m.accountId = w.accountId ∧ m.publicKey = some w.publicKey ∧
        (m.accountId ∈ always ∨ m.status = .active ∧ holdsKey (levelOf
          (env.grants.filter fun g => g.expiresAt.all fun t => now < t) m.accountId m.groupIds)
            = true) := by
  unfold keyHolders
  dsimp only
  rw [List.mem_flatMap]
  refine exists_congr fun m => and_congr_right fun _ => ?_
  cases hkey : m.publicKey with
  | none => simp
  | some publicKey =>
    dsimp only
    split
    · rename_i hkeeps
      rw [List.mem_singleton]
      constructor
      · rintro rfl
        exact ⟨rfl, rfl, hkeeps⟩
      · rintro ⟨hid, heq, -⟩
        cases heq
        cases w
        cases hid
        rfl
    · rename_i hkeeps
      constructor
      · intro hw
        cases hw
      · rintro ⟨-, -, hkeeps'⟩
        exact absurd hkeeps' hkeeps

namespace EnvironmentsService

variable {db db' : Db} {accountId environmentId : Uuid} {now : Timestamp}

/-- Of the members that are listed, a device wraps for those whom the API requires. -/
theorem mem_keyHolders_iff {env : Env} {access : EnvironmentAccess} {detail : OrgDetail}
    (hgrants : access.grants = (db.environmentGrants.select fun g =>
      g.environmentId = env.environmentId).map toGrant)
    (hdetail : OrgsService.detail db env.orgId accountId = .ok detail)
    (hmanages : levelAtLeast (AccessFacts.levelOf db env (.account accountId) now) .manage = true)
    {w : PendingWrap} : w ∈ TeamModel.keyHolders access detail [env.ownerId, accountId] now ↔
      w.accountId ∈ rotationHolders db env now ∧
        (org db env.orgId (some env.ownerId)).keys (.account w.accountId) = some w.publicKey := by
  -- A recipient has a key on file, so it is an active member.
  have hkeeps {m : OrgMemberRow} (hm : m ∈ db.orgMembers) (horg : m.orgId = env.orgId)
      (hkey : m.publicKey = some w.publicKey) :
      (m.accountId ∈ [env.ownerId, accountId] ∨ holdsKey (TeamModel.levelOf
        (access.grants.filter fun g => g.expiresAt.all fun t => now < t) m.accountId
          ((org db env.orgId (some env.ownerId)).groupsOf m.accountId)) = true) ↔
        holdsKey (AccessFacts.levelOf db env (.account m.accountId) now) = true := by
    have hactive : m.accountId ∈ (org db env.orgId (some env.ownerId)).activeMembers := by
      refine List.mem_map.mpr ⟨m, Table.mem_select.mpr ⟨hm, ?_⟩, rfl⟩
      rw [decide_eq_true_eq, hkey]
      exact ⟨horg, rfl⟩
    by_cases howner : m.accountId = env.ownerId
    · have hmanage : AccessFacts.levelOf db env (.account m.accountId) now = .manage := by
        unfold AccessFacts.levelOf effectiveLevel
        exact if_pos ⟨rfl, congrArg some howner⟩
      rw [hmanage, howner]
      exact iff_of_true (Or.inl List.mem_cons_self) rfl
    by_cases hcaller : m.accountId = accountId
    · rw [hcaller]
      exact iff_of_true (Or.inl (List.mem_cons_of_mem _ List.mem_cons_self))
        (holdsKey_of_manage hmanages)
    · rw [AccessFacts.levelOf, effectiveLevel_listed (fun heq => howner (Option.some.inj heq)) hactive,
        hgrants, or_iff_right]
      simp only [List.mem_cons, List.not_mem_nil, or_false, not_or]
      exact ⟨howner, hcaller⟩
  have hmembers : detail.members = (db.orgMembers.select fun m => m.orgId = env.orgId).map fun m =>
      ⟨m.accountId, m.role, if m.publicKey.isSome then .active else .invited, m.publicKey,
        (org db env.orgId (some env.ownerId)).groupsOf m.accountId⟩ := by
    unfold OrgsService.detail at hdetail
    split at hdetail
    · cases hdetail
    · cases hdetail
      rfl
  rw [TeamModel.mem_keyHolders, mem_rotationHolders, MustReceive, keys_account_eq_some, hmembers]
  simp only [List.mem_map, exists_exists_and_eq_and]
  constructor
  · rintro ⟨m, hm, hid, hkey, hkeep⟩
    obtain ⟨hm, horg⟩ := Table.mem_select.mp hm
    have horg := of_decide_eq_true horg
    have hkeep := (hkeeps hm horg hkey).mp (hkeep.imp_right And.right)
    have hfile : (org db env.orgId (some env.ownerId)).keys (.account w.accountId) =
        some w.publicKey :=
      keys_account_eq_some.mpr ⟨m, hm, Prod.ext horg hid, hkey⟩
    exact ⟨⟨hid ▸ hkeep, by rw [hfile]; rfl⟩, m, hm, Prod.ext horg hid, hkey⟩
  · rintro ⟨⟨hkeep, -⟩, m, hm, hmkey, hkey⟩
    have horg : m.orgId = env.orgId := congrArg Prod.fst hmkey
    have hid : m.accountId = w.accountId := congrArg Prod.snd hmkey
    refine ⟨m, Table.mem_select.mpr ⟨hm, decide_eq_true horg⟩, hid, hkey, ?_⟩
    refine ((hkeeps hm horg hkey).mpr (hid ▸ hkeep)).imp_right fun hlevel => ⟨?_, hlevel⟩
    rw [hkey]
    rfl

/-- **A device and the API agree on who keeps a key.** From what it is listed, a manager's
device wraps an environment's new key for exactly the accounts whom the API requires at the same
moment, with the public keys that the API has on file. -/
theorem keyHolders_agree {before : Timestamp} {access : EnvironmentAccess} {detail : OrgDetail}
    {db'' : Db} {v : Visible}
    (haccess : EnvironmentsService.detail db accountId environmentId before = (.ok access, db'))
    (hdetail : OrgsService.detail db' access.orgId accountId = .ok detail)
    (hvisible : visible db' accountId environmentId now = (.ok v, db''))
    (hmanages : levelAtLeast (AccessFacts.levelOf db'' v.env (.account accountId) now) .manage = true) :
    (∀ id, id ∈ (TeamModel.keyHolders access detail [v.env.ownerId, accountId] now).map
        PendingWrap.accountId ↔ id ∈ rotationHolders db'' v.env now) ∧
      ∀ w ∈ TeamModel.keyHolders access detail [v.env.ownerId, accountId] now,
        (org db'' v.env.orgId (some v.env.ownerId)).keys (.account w.accountId) =
          some w.publicKey := by
  unfold EnvironmentsService.detail at haccess
  split at haccess
  · cases haccess
  rename_i env me db₁ hfirst
  obtain ⟨hlisted, horgId, rfl⟩ : access.grants = (db'.environmentGrants.select fun g =>
      g.environmentId = environmentId).map toGrant ∧ access.orgId = env.orgId ∧ db₁ = db' := by
    cases haccess
    exact ⟨rfl, rfl, rfl⟩
  have hloaded := visible_loaded hfirst
  obtain ⟨horg, -, hid, hframe⟩ := hloaded.visible_again hvisible
  have hgrants : access.grants = (db''.environmentGrants.select fun g =>
      g.environmentId = v.env.environmentId).map toGrant := by
    rw [hframe, hid]
    exact hlisted
  have hdetail' : OrgsService.detail db'' v.env.orgId accountId = .ok detail := by
    rw [hframe, horg, ← horgId]
    exact hdetail
  have hmem {w : PendingWrap} := mem_keyHolders_iff (w := w) hgrants hdetail' hmanages
  refine ⟨fun id => ?_, fun w hw => (hmem.mp hw).2⟩
  rw [List.mem_map]
  constructor
  · rintro ⟨w, hw, rfl⟩
    exact (hmem.mp hw).1
  · intro hrequired
    obtain ⟨publicKey, hkey⟩ := Option.isSome_iff_exists.mp (mem_rotationHolders.mp hrequired).2
    exact ⟨⟨id, publicKey⟩, hmem.mpr ⟨hrequired, hkey⟩, rfl⟩

/-- While account 11 has access, the new key is wrapped for it, too. -/
theorem keyHolders_agree_team : ∃ access detail v,
    EnvironmentsService.detail teamProject 10 2 0 = (.ok access, teamProject) ∧
      OrgsService.detail teamProject 5 10 = .ok detail ∧
      visible teamProject 10 2 50 = (.ok v, teamProject) ∧
      (TeamModel.keyHolders access detail [v.env.ownerId, 10] 50).map PendingWrap.accountId =
        [10, 11] ∧
      ∀ id, id ∈ (TeamModel.keyHolders access detail [v.env.ownerId, 10] 50).map
        PendingWrap.accountId ↔ id ∈ rotationHolders teamProject v.env 50 := by
  have hagree {access : EnvironmentAccess} {detail : OrgDetail} {v : Visible}
      (haccess : EnvironmentsService.detail teamProject 10 2 0 = (.ok access, teamProject))
      (hdetail : OrgsService.detail teamProject access.orgId 10 = .ok detail)
      (hvisible : visible teamProject 10 2 50 = (.ok v, teamProject))
      (hmanages : levelAtLeast (AccessFacts.levelOf teamProject v.env (.account 10) 50) .manage =
        true) := (keyHolders_agree haccess hdetail hvisible hmanages).1
  exact ⟨_, _, _, rfl, rfl, rfl, rfl, hagree rfl rfl rfl rfl⟩

end EnvironmentsService

end Zvault
