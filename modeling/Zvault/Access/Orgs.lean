import Zvault.Access.Facts

/-!
# The organizations service

`apps/api/src/access/orgs.service.ts`: organizations, their members, groups and
agents. Names of organizations and agents are left out. An invite carries the
account its email resolves to, and a row's generated id is an argument.
-/

namespace Zvault

open Relational

/-- `ACCESS_LIMITS.groupsPerOrg`. -/
def groupsPerOrg : ℕ := 100

/-- `ACCESS_LIMITS.agentsPerOrg`. -/
def agentsPerOrg : ℕ := 100

namespace OrgsService

open AccessFacts

/-- `requireAdmin`. -/
def requireAdmin (db : Db) (orgId accountId : Uuid) : Except ApiError OrgMemberRow :=
  match member db orgId accountId true with
  | .error e => .error e
  | .ok me =>
    if me.role ∉ adminRoles then .error (.forbidden "Only owners and admins can do that")
    else .ok me

/-- `create`. -/
def create (db : Db) (accountId orgId : Uuid) (publicKey : PublicKey) : Served Unit :=
  match db.orgMembers.insertAll [⟨orgId, accountId, .owner, some publicKey⟩] with
  | none => (.error .internal, db)
  | some orgMembers => (.ok (), { db with orgMembers := orgMembers })

/-- `invite`, of the account that uses the email, if one does. -/
def invite (db : Db) (orgId accountId : Uuid) (role : OrgRole) (invitee : Option Uuid) :
    Served Unit :=
  match requireAdmin db orgId accountId with
  | .error e => (.error e, db)
  | .ok me =>
    if role = .admin ∧ me.role ≠ .owner then
      (.error (.forbidden "Only owners can invite admins"), db)
    else
      match invitee with
      | none => (.error (.notFound "No Zvault account uses that email yet"), db)
      | some id =>
        match db.orgMembers.insertAll [⟨orgId, id, role, none⟩] with
        | none => (.error (.conflict "Already a member or invited"), db)
        | some orgMembers => (.ok (), { db with orgMembers := orgMembers })

/-- `accept`: the invitee accepts and publishes the key environment keys will be wrapped
to. -/
def accept (db : Db) (orgId accountId : Uuid) (publicKey : PublicKey) : Served Unit :=
  match member db orgId accountId false with
  | .error e => (.error e, db)
  | .ok me =>
    if me.publicKey ≠ none then (.error (.conflict "Already a member"), db)
    else
      (.ok (), { db with
        orgMembers := db.orgMembers.update (fun m => m.orgId = orgId ∧ m.accountId = accountId)
          (fun m => { m with publicKey := some publicKey }) })

/-- `ownerCount`. -/
def ownerCount (db : Db) (orgId : Uuid) : ℕ :=
  (db.orgMembers.select fun m => m.orgId = orgId ∧ m.role = .owner).length

/-- `changeRole`. -/
def changeRole (db : Db) (orgId accountId targetId : Uuid) (role : OrgRole) : Served Unit :=
  match requireAdmin db orgId accountId with
  | .error e => (.error e, db)
  | .ok me =>
    match member db orgId targetId false with
    | .error e => (.error e, db)
    | .ok target =>
      let touchesOwner := role = .owner ∨ target.role = .owner
      let touchesAdmin := role = .admin ∨ target.role = .admin
      if (touchesOwner ∨ touchesAdmin) ∧ me.role ≠ .owner then
        (.error (.forbidden "Only owners can change owners and admins"), db)
      else if target.role = .owner ∧ role ≠ .owner ∧ ownerCount db orgId ≤ 1 then
        (.error (.conflict "An organization needs at least one owner"), db)
      else
        (.ok (), { db with
          orgMembers := db.orgMembers.update (fun m => m.orgId = orgId ∧ m.accountId = targetId)
            (fun m => { m with role := role }) })

/-- Why `remove` refuses to remove `target`. -/
def removeRefusal (db : Db) (orgId : Uuid) (leaving : Bool) (me target : OrgMemberRow) :
    Option ApiError :=
  if leaving = false ∧ me.role ∉ adminRoles then some (.forbidden "Forbidden")
  else if leaving = false ∧ target.role ≠ .member ∧ me.role ≠ .owner then
    some (.forbidden "Only owners can remove owners and admins")
  else if target.role = .owner ∧ ownerCount db orgId ≤ 1 then
    some (.conflict "An organization needs at least one owner")
  else none

/-- The transaction of `remove`: the member's group memberships, agents and membership. -/
def dropMember (db : Db) (orgId targetId : Uuid) : Db :=
  { db with
    groupMembers := db.groupMembers.delete fun m =>
      m.accountId = targetId ∧ db.orgGroups.rows.any fun g => g.id = m.groupId ∧ g.orgId = orgId
    agents := db.agents.delete fun a => a.orgId = orgId ∧ a.ownerId = targetId
    orgMembers := db.orgMembers.delete fun m => m.orgId = orgId ∧ m.accountId = targetId }

/-- `remove`: removes a member (or lets one leave). Their group memberships, direct
grants, agents and key wraps go with them, and every environment they held a key to is
flagged for rotation. -/
def remove (db : Db) (orgId accountId targetId : Uuid) (now : Timestamp) : Served Unit :=
  let leaving : Bool := accountId = targetId
  match member db orgId accountId (!leaving) with
  | .error e => (.error e, db)
  | .ok me =>
    match if leaving then .ok me else member db orgId targetId false with
    | .error e => (.error e, db)
    | .ok target =>
      match removeRefusal db orgId leaving me target with
      | some e => (.error e, db)
      | none =>
        let ownedAgents := (db.agents.select fun a => a.orgId = orgId ∧ a.ownerId = targetId).map
          AgentRow.id
        let db := dropMember db orgId targetId
        let db := dropGrantsTo db .account [targetId] orgId
        let db := dropGrantsTo db .agent ownedAgents orgId
        (.ok (), reconcileOrg db orgId now)

/-- `createGroup`. -/
def createGroup (db : Db) (orgId accountId groupId : Uuid) (name : String) : Served Unit :=
  match requireAdmin db orgId accountId with
  | .error e => (.error e, db)
  | .ok _ =>
    if groupsPerOrg ≤ (db.orgGroups.select fun g => g.orgId = orgId).length then
      (.error (.unprocessable "Too many groups"), db)
    else if db.orgGroups.rows.any fun g => g.orgId = orgId ∧ g.name = name then
      (.error (.conflict "A group with that name exists"), db)
    else
      match db.orgGroups.insertAll [⟨groupId, orgId, name⟩] with
      | none => (.error .internal, db)
      | some orgGroups => (.ok (), { db with orgGroups := orgGroups })

/-- `group`. -/
def group (db : Db) (orgId groupId : Uuid) : Except ApiError OrgGroupRow :=
  match db.orgGroups.find groupId with
  | none => .error (.notFound "Not Found")
  | some g => if g.orgId = orgId then .ok g else .error (.notFound "Not Found")

/-- `deleteGroup`, with the memberships that cascade from the group's row. -/
def deleteGroup (db : Db) (orgId accountId groupId : Uuid) (now : Timestamp) : Served Unit :=
  match requireAdmin db orgId accountId with
  | .error e => (.error e, db)
  | .ok _ =>
    match group db orgId groupId with
    | .error e => (.error e, db)
    | .ok _ =>
      let db := dropGrantsTo db .group [groupId] orgId
      let db := { db with
        orgGroups := db.orgGroups.delete fun g => g.id = groupId
        groupMembers := db.groupMembers.delete fun m => m.groupId = groupId }
      (.ok (), reconcileOrg db orgId now)

/-- `addToGroup`. -/
def addToGroup (db : Db) (orgId accountId groupId targetId : Uuid) : Served Unit :=
  match requireAdmin db orgId accountId with
  | .error e => (.error e, db)
  | .ok _ =>
    match group db orgId groupId with
    | .error e => (.error e, db)
    | .ok _ =>
      match member db orgId targetId false with
      | .error e => (.error e, db)
      | .ok _ =>
        (.ok (), { db with groupMembers := db.groupMembers.insertNew ⟨groupId, targetId⟩ })

/-- `removeFromGroup`. -/
def removeFromGroup (db : Db) (orgId accountId groupId targetId : Uuid) (now : Timestamp) :
    Served Unit :=
  match requireAdmin db orgId accountId with
  | .error e => (.error e, db)
  | .ok _ =>
    match group db orgId groupId with
    | .error e => (.error e, db)
    | .ok _ =>
      if !db.groupMembers.hasKey (groupId, targetId) then (.error (.notFound "Not Found"), db)
      else
        let db := { db with
          groupMembers := db.groupMembers.delete fun m =>
            m.groupId = groupId ∧ m.accountId = targetId }
        (.ok (), reconcileOrg db orgId now)

/-- `registerAgent`: pairs an agent as a principal. -/
def registerAgent (db : Db) (orgId accountId agentId : Uuid) (publicKey : PublicKey) :
    Served Unit :=
  match member db orgId accountId true with
  | .error e => (.error e, db)
  | .ok _ =>
    if agentsPerOrg ≤ (db.agents.select fun a => a.orgId = orgId).length then
      (.error (.unprocessable "Too many agents"), db)
    else
      match db.agents.insertAll [⟨agentId, orgId, accountId, publicKey⟩] with
      | none => (.error .internal, db)
      | some agents => (.ok (), { db with agents := agents })

/-- `removeAgent`. -/
def removeAgent (db : Db) (orgId accountId agentId : Uuid) (now : Timestamp) : Served Unit :=
  match member db orgId accountId true with
  | .error e => (.error e, db)
  | .ok me =>
    match db.agents.find agentId with
    | none => (.error (.notFound "Not Found"), db)
    | some a =>
      if a.orgId ≠ orgId then (.error (.notFound "Not Found"), db)
      else if a.ownerId ≠ accountId ∧ me.role ∉ adminRoles then (.error (.forbidden "Forbidden"), db)
      else
        let db := { db with agents := db.agents.delete fun a => a.id = agentId }
        let db := dropGrantsTo db .agent [agentId] orgId
        (.ok (), reconcileOrg db orgId now)

end OrgsService

end Zvault
