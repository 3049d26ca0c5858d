import Zvault.Db.Schema

/-!
# Effective access levels

`apps/api/src/access/levels.ts` and the level order of
`packages/shared/src/access.ts`. A member's or agent's level in one environment
is computed from the project's owner, the active members, the groups and the
unexpired grants.
-/

namespace Zvault

/-- `RANK`. -/
def AccessLevel.rank : AccessLevel → ℕ
  | .none => 0
  | .needsApproval => 1
  | .use => 2
  | .edit => 3
  | .manage => 4

/-- `levelAtLeast`: `level` includes everything `required` allows. -/
def levelAtLeast (level required : AccessLevel) : Bool := required.rank ≤ level.rank

/-- `strongerLevel`. -/
def strongerLevel (a b : AccessLevel) : AccessLevel := if b.rank ≤ a.rank then a else b

/-- `holdsKey`: the level comes with the environment's key. -/
def holdsKey (level : AccessLevel) : Bool := levelAtLeast level .use

@[simp] theorem holdsKey_none : holdsKey .none = false := rfl

@[simp] theorem holdsKey_manage : holdsKey .manage = true := rfl

/-- A level that comes with the key is enough to hold the project key. -/
theorem levelAtLeast_needsApproval_of_holdsKey {l : AccessLevel} (h : holdsKey l = true) :
    levelAtLeast l .needsApproval = true := by
  cases l <;> first | rfl | cases h

/-- Managers hold the key. -/
theorem holdsKey_of_manage {l : AccessLevel} (h : levelAtLeast l .manage = true) :
    holdsKey l = true := by
  cases l <;> first | rfl | cases h

/-- The principals with keys of their own. -/
inductive HolderType where
  | account
  | agent
  deriving DecidableEq, Repr

/-- A member or agent. It doubles as `holderKey`, the key `type:id` of the level and
public key maps. -/
structure Holder where
  type : HolderType
  id : Uuid
  deriving DecidableEq, Repr

/-- `{ type: 'account', id }`. -/
abbrev Holder.account (id : Uuid) : Holder := ⟨.account, id⟩

/-- `{ type: 'agent', id }`. -/
abbrev Holder.agent (id : Uuid) : Holder := ⟨.agent, id⟩

/-- The principal type of a holder's direct grants. -/
def HolderType.principal : HolderType → PrincipalType
  | .account => .account
  | .agent => .agent

/-- `GrantFacts`: a grant as the resolver needs it. -/
structure GrantFacts where
  principalType : PrincipalType
  principalId : Uuid
  level : AccessLevel
  expiresAt : Option Timestamp
  deriving DecidableEq, Repr

/-- `OrgFacts` with the public keys `AccessFacts.org` adds: everyone in an org who
could hold an environment key. -/
structure OrgFacts where
  /-- The project's owner, who always has Manage on its environments. -/
  projectOwnerId : Option Uuid
  /-- Active members (accepted, key published). -/
  activeMembers : List Uuid
  /-- Account id to group ids. -/
  groupsOf : Uuid → List Uuid
  agents : List Uuid
  /-- The key on file of each active member and agent. -/
  keys : Holder → Option PublicKey

/-- `live`: the grant has no end date or one in the future. -/
def live (g : GrantFacts) (now : Timestamp) : Bool :=
  match g.expiresAt with
  | none => true
  | some t => now < t

/-- `effectiveLevel`: a principal's effective level in one environment. -/
def effectiveLevel (holder : Holder) (grants : List GrantFacts) (org : OrgFacts)
    (now : Timestamp) : AccessLevel :=
  if holder.type = .account ∧ some holder.id = org.projectOwnerId then .manage
  else if holder.type = .account ∧ holder.id ∉ org.activeMembers then .none
  else if holder.type = .agent ∧ holder.id ∉ org.agents then .none
  else
    let active := grants.filter fun g => live g now
    let direct := active.find? fun g =>
      g.principalType = holder.type.principal ∧ g.principalId = holder.id
    match holder.type, direct with
    | .agent, some g => if g.level ≠ .none then .needsApproval else .none
    | .agent, none => .none
    | .account, some g => g.level
    | .account, none =>
      (active.filter fun g => g.principalType = .group ∧ g.principalId ∈ org.groupsOf holder.id).foldl
        (fun best g => strongerLevel best g.level) .none

/-- The accounts `allLevels` rates: the active members and the project's owner. -/
def OrgFacts.accounts (org : OrgFacts) : List Uuid :=
  match org.projectOwnerId with
  | some owner => if owner ∈ org.activeMembers then org.activeMembers else org.activeMembers ++ [owner]
  | none => org.activeMembers

/-- `allLevels`: effective levels for every member and agent of the org, in the
insertion order of the map it returns. -/
def allLevels (grants : List GrantFacts) (org : OrgFacts) (now : Timestamp) :
    List (Holder × AccessLevel) :=
  (org.accounts.map fun id => (Holder.account id, effectiveLevel (.account id) grants org now)) ++
    org.agents.map fun id => (Holder.agent id, effectiveLevel (.agent id) grants org now)

/-- `levels.get(key) ?? 'none'`. -/
def levelOr (levels : List (Holder × AccessLevel)) (holder : Holder) : AccessLevel :=
  match levels.find? fun l => l.1 = holder with
  | some l => l.2
  | none => .none

/-- An account outside the rated ones has no access. -/
theorem effectiveLevel_account_eq_none {id : Uuid} {grants : List GrantFacts} {org : OrgFacts}
    {now : Timestamp} (h : id ∉ org.accounts) :
    effectiveLevel (.account id) grants org now = .none := by
  unfold OrgFacts.accounts at h
  unfold effectiveLevel
  cases howner : org.projectOwnerId with
  | none => simp_all
  | some owner =>
    simp only [howner] at h
    split at h
    · rename_i hmem
      have hne : id ≠ owner := fun heq => h (heq ▸ hmem)
      simp [hne, h]
    · simp only [List.mem_append, List.mem_singleton, not_or] at h
      simp [h.1, h.2]

/-- Looking an account up among all levels gives its effective level, also when the
account is not rated at all. -/
theorem levelOr_allLevels_account (id : Uuid) (grants : List GrantFacts) (org : OrgFacts)
    (now : Timestamp) :
    levelOr (allLevels grants org now) (.account id) =
      effectiveLevel (.account id) grants org now := by
  have hagents : (org.agents.map fun a =>
      (Holder.agent a, effectiveLevel (.agent a) grants org now)).find?
        (fun l => l.1 = Holder.account id) = none := by
    simp [List.find?_eq_none]
  by_cases hmem : id ∈ org.accounts
  · have hfind : (org.accounts.map fun a =>
        (Holder.account a, effectiveLevel (.account a) grants org now)).find?
          (fun l => l.1 = Holder.account id) =
        some (Holder.account id, effectiveLevel (.account id) grants org now) := by
      generalize org.accounts = accounts at hmem
      induction accounts with
      | nil => cases hmem
      | cons a accounts ih =>
        by_cases heq : a = id
        · simp [heq]
        · rcases List.mem_cons.mp hmem with rfl | hmem
          · exact absurd rfl heq
          · simpa [heq] using ih hmem
    simp only [levelOr, allLevels, List.find?_append, hfind, Option.some_or]
  · have hnone : (org.accounts.map fun a =>
        (Holder.account a, effectiveLevel (.account a) grants org now)).find?
          (fun l => l.1 = Holder.account id) = none := by
      simp only [List.find?_eq_none, List.mem_map, decide_eq_true_eq]
      rintro _ ⟨a, ha, rfl⟩ heq
      cases heq
      exact hmem ha
    simp only [levelOr, allLevels, List.find?_append, hnone, hagents, Option.or_none,
      effectiveLevel_account_eq_none hmem]

/-- Who `allLevels` lists as an account, and with which level. -/
theorem mem_allLevels_account {id : Uuid} {l : AccessLevel} {grants : List GrantFacts}
    {org : OrgFacts} {now : Timestamp} :
    (Holder.account id, l) ∈ allLevels grants org now ↔
      id ∈ org.accounts ∧ l = effectiveLevel (.account id) grants org now := by
  simp only [allLevels, List.mem_append, List.mem_map, Prod.mk.injEq]
  constructor
  · rintro (⟨a, ha, heq, rfl⟩ | ⟨a, _, heq, _⟩)
    · cases heq
      exact ⟨ha, rfl⟩
    · cases heq
  · rintro ⟨hmem, rfl⟩
    exact Or.inl ⟨id, hmem, rfl, rfl⟩

end Zvault
