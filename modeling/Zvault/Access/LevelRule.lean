import Mathlib.Order.Bounds.Defs
import Mathlib.Order.Lattice
import Zvault.Access.Facts

/-!
# The rule of access levels

Who has which level, stated for a set of live grants: the project's owner
manages, a direct grant decides, and otherwise the highest grant of a group
counts. The functions of `levels.ts` compute it from a list.
-/

namespace Zvault

theorem AccessLevel.rank_injective : Function.Injective AccessLevel.rank := by
  intro a b h
  cases a <;> cases b <;> first | rfl | cases h

/-- The order of the levels. -/
instance : LinearOrder AccessLevel := LinearOrder.lift' AccessLevel.rank AccessLevel.rank_injective

theorem AccessLevel.le_iff {a b : AccessLevel} : a ≤ b ↔ levelAtLeast b a = true :=
  (decide_eq_true_iff (p := a.rank ≤ b.rank)).symm

theorem AccessLevel.none_le (l : AccessLevel) : .none ≤ l := AccessLevel.le_iff.mpr (by cases l <;> rfl)

theorem strongerLevel_eq_max (a b : AccessLevel) : strongerLevel a b = max a b := by
  rcases le_total b a with h | h
  · rw [max_eq_left h]
    exact if_pos h
  · rw [max_eq_right h]
    unfold strongerLevel
    split
    · rename_i hle
      exact AccessLevel.rank_injective (Nat.le_antisymm h hle)
    · rfl

namespace GrantFacts

/-- A direct grant to a member or an agent. -/
def IsFor (g : GrantFacts) (holder : Holder) : Prop :=
  g.principalType = holder.type.principal ∧ g.principalId = holder.id

/-- A grant to a group that an account is in. -/
def IsForGroupOf (g : GrantFacts) (org : OrgFacts) (id : Uuid) : Prop :=
  g.principalType = .group ∧ g.principalId ∈ org.groupsOf id

end GrantFacts

/-- The grants that count. -/
def liveGrants (grants : List GrantFacts) (now : Timestamp) : Set GrantFacts :=
  {g | g ∈ grants ∧ live g now = true}

/-- The rule: a holder's level under a set of live grants. -/
inductive Granted (grants : Set GrantFacts) (org : OrgFacts) : Holder → AccessLevel → Prop
  | owner {id} (h : some id = org.projectOwnerId) : Granted grants org (.account id) .manage
  | inactive {id} (howner : some id ≠ org.projectOwnerId) (h : id ∉ org.activeMembers) :
      Granted grants org (.account id) .none
  | direct {id g} (howner : some id ≠ org.projectOwnerId) (hactive : id ∈ org.activeMembers)
      (hg : g ∈ grants) (hfor : g.IsFor (.account id)) : Granted grants org (.account id) g.level
  | groups {id l} (howner : some id ≠ org.projectOwnerId) (hactive : id ∈ org.activeMembers)
      (hnone : ∀ g ∈ grants, ¬g.IsFor (.account id))
      (h : IsGreatest {l | l = .none ∨ ∃ g ∈ grants, g.IsForGroupOf org id ∧ l = g.level} l) :
      Granted grants org (.account id) l
  | approval {id g} (hagent : id ∈ org.agents) (hg : g ∈ grants) (hfor : g.IsFor (.agent id))
      (h : g.level ≠ .none) : Granted grants org (.agent id) .needsApproval
  | denied {id} (h : id ∈ org.agents → ∀ g ∈ grants, g.IsFor (.agent id) → g.level = .none) :
      Granted grants org (.agent id) .none

/-- Direct grants to the same member or agent agree, as in a table with one row for each
principal. -/
def DirectAgree (grants : Set GrantFacts) : Prop :=
  ∀ g ∈ grants, ∀ g' ∈ grants, ∀ holder, g.IsFor holder → g'.IsFor holder → g.level = g'.level

/-- The table has one grant for each principal of an environment. -/
theorem directAgree_grants (db : Db) (environmentId : Uuid) (now : Timestamp) :
    DirectAgree (liveGrants (AccessFacts.grants db environmentId) now) := by
  rintro g ⟨hg, -⟩ g' ⟨hg', -⟩ holder hfor hfor'
  obtain ⟨r, hr, rfl⟩ := List.mem_map.mp hg
  obtain ⟨r', hr', rfl⟩ := List.mem_map.mp hg'
  rw [Relational.Table.mem_select, decide_eq_true_eq] at hr hr'
  have htype : r.principalType = r'.principalType := hfor.1.trans hfor'.1.symm
  have hid : r.principalId = r'.principalId := hfor.2.trans hfor'.2.symm
  have hsame : r = r' := Relational.Table.eq_of_key_eq hr.1 hr'.1 (by
    rw [EnvironmentGrantRow.key, EnvironmentGrantRow.key, hr.2, hr'.2, htype, hid])
  rw [hsame]

section Rule

variable {grants : Set GrantFacts} {org : OrgFacts} {holder : Holder} {l l' : AccessLevel}

/-- The rule gives a holder one level. -/
theorem Granted.unique (hagree : DirectAgree grants) (h : Granted grants org holder l)
    (h' : Granted grants org holder l') : l = l' := by
  cases h with
  | owner howner =>
    cases h' with
    | owner _ => rfl
    | inactive hnot _ => exact absurd howner hnot
    | direct hnot _ _ _ => exact absurd howner hnot
    | groups hnot _ _ _ => exact absurd howner hnot
  | inactive hnot hinactive =>
    cases h' with
    | owner howner => exact absurd howner hnot
    | inactive _ _ => rfl
    | direct _ hactive _ _ => exact absurd hactive hinactive
    | groups _ hactive _ _ => exact absurd hactive hinactive
  | direct hnot hactive hg hfor =>
    cases h' with
    | owner howner => exact absurd howner hnot
    | inactive _ hinactive => exact absurd hactive hinactive
    | direct _ _ hg' hfor' => exact hagree _ hg _ hg' _ hfor hfor'
    | groups _ _ hnone _ => exact absurd hfor (hnone _ hg)
  | groups hnot hactive hnone hgreatest =>
    cases h' with
    | owner howner => exact absurd howner hnot
    | inactive _ hinactive => exact absurd hactive hinactive
    | direct _ _ hg' hfor' => exact absurd hfor' (hnone _ hg')
    | groups _ _ _ hgreatest' =>
      exact le_antisymm (hgreatest'.2 hgreatest.1) (hgreatest.2 hgreatest'.1)
  | approval hagent hg hfor hlevel =>
    cases h' with
    | approval _ _ _ _ => rfl
    | denied hdenied => exact absurd (hdenied hagent _ hg hfor) hlevel
  | denied hdenied =>
    cases h' with
    | approval hagent hg hfor hlevel => exact absurd (hdenied hagent _ hg hfor) hlevel
    | denied _ => rfl

theorem Granted.agent_le {id : Uuid} (h : Granted grants org (.agent id) l) : l ≤ .needsApproval := by
  cases h with
  | approval _ _ _ _ => exact le_refl _
  | denied _ => exact AccessLevel.none_le _

end Rule

section Computed

variable {grants : List GrantFacts} {org : OrgFacts} {now : Timestamp}

/-- What the loop over the groups' grants computes. -/
theorem isGreatest_foldl (grants : List GrantFacts) (best : AccessLevel) :
    IsGreatest {l | l = best ∨ ∃ g ∈ grants, l = g.level}
      (grants.foldl (fun best g => strongerLevel best g.level) best) := by
  induction grants generalizing best with
  | nil => exact ⟨Or.inl rfl, by rintro l (rfl | ⟨g, hg, -⟩); exacts [le_refl _, by cases hg]⟩
  | cons g grants ih =>
    obtain ⟨hmem, hupper⟩ := ih (strongerLevel best g.level)
    rw [List.foldl_cons]
    have hmax : max best g.level ≤
        grants.foldl (fun best g => strongerLevel best g.level) (strongerLevel best g.level) :=
      strongerLevel_eq_max best g.level ▸ hupper (Or.inl rfl)
    refine ⟨?_, ?_⟩
    · rcases hmem with hmem | ⟨g', hg', hmem⟩
      · rw [hmem, strongerLevel_eq_max]
        rcases le_total g.level best with hle | hle
        · exact Or.inl (max_eq_left hle)
        · exact Or.inr ⟨g, List.mem_cons_self, max_eq_right hle⟩
      · exact Or.inr ⟨g', List.mem_cons_of_mem _ hg', hmem⟩
    · rintro l (rfl | ⟨g', hg', rfl⟩)
      · exact (le_max_left _ _).trans hmax
      · rcases List.mem_cons.mp hg' with rfl | hg'
        · exact (le_max_right _ _).trans hmax
        · exact hupper (Or.inr ⟨g', hg', rfl⟩)

/-- The first live direct grant. -/
def directGrant (holder : Holder) (grants : List GrantFacts) (now : Timestamp) :
    Option GrantFacts :=
  (grants.filter fun g => live g now).find? fun g =>
    g.principalType = holder.type.principal ∧ g.principalId = holder.id

theorem directGrant_eq_some {holder : Holder} {g : GrantFacts}
    (h : directGrant holder grants now = some g) : g ∈ liveGrants grants now ∧ g.IsFor holder := by
  unfold directGrant at h
  have hfor := List.find?_some h
  rw [decide_eq_true_eq] at hfor
  exact ⟨List.mem_filter.mp (List.mem_of_find?_eq_some h), hfor⟩

theorem directGrant_eq_none {holder : Holder} (h : directGrant holder grants now = none) :
    ∀ g ∈ liveGrants grants now, ¬g.IsFor holder := by
  intro g hg hfor
  exact List.find?_eq_none.mp h g (List.mem_filter.mpr hg) (decide_eq_true hfor)

theorem effectiveLevel_agent (id : Uuid) (grants : List GrantFacts) (org : OrgFacts)
    (now : Timestamp) : effectiveLevel (.agent id) grants org now =
      if id ∉ org.agents then .none
      else match directGrant (.agent id) grants now with
        | some g => if g.level ≠ .none then .needsApproval else .none
        | none => .none := by
  rw [effectiveLevel, if_neg (by rintro ⟨h, -⟩; cases h), if_neg (by rintro ⟨h, -⟩; cases h)]
  by_cases hagent : id ∈ org.agents
  · rw [if_neg (fun h => h.2 hagent), if_neg (not_not.mpr hagent)]
    dsimp only [directGrant]
    generalize List.find? _ (grants.filter fun g => live g now) = direct
    cases direct with
    | none => rfl
    | some g => rfl
  · rw [if_pos ⟨rfl, hagent⟩, if_pos hagent]

theorem effectiveLevel_active {id : Uuid} (grants : List GrantFacts) {org : OrgFacts}
    (now : Timestamp) (howner : some id ≠ org.projectOwnerId) (hactive : id ∈ org.activeMembers) :
    effectiveLevel (.account id) grants org now =
      match directGrant (.account id) grants now with
        | some g => g.level
        | none =>
          ((grants.filter fun g => live g now).filter fun g =>
            g.principalType = .group ∧ g.principalId ∈ org.groupsOf id).foldl
              (fun best g => strongerLevel best g.level) .none := by
  rw [effectiveLevel, if_neg (fun h => howner h.2), if_neg (fun h => h.2 hactive),
    if_neg (by rintro ⟨h, -⟩; cases h)]
  dsimp only [directGrant]
  generalize List.find? _ (grants.filter fun g => live g now) = direct
  cases direct with
  | none => rfl
  | some g => rfl

theorem granted_agent (id : Uuid) (grants : List GrantFacts) (org : OrgFacts) (now : Timestamp)
    (hagree : DirectAgree (liveGrants grants now)) :
    Granted (liveGrants grants now) org (.agent id) (effectiveLevel (.agent id) grants org now) := by
  rw [effectiveLevel_agent]
  by_cases hagent : id ∈ org.agents
  · rw [if_neg (not_not.mpr hagent)]
    cases hdirect : directGrant (.agent id) grants now with
    | some g =>
      obtain ⟨hg, hfor⟩ := directGrant_eq_some hdirect
      dsimp only
      by_cases hlevel : g.level = .none
      · rw [if_neg (not_not.mpr hlevel)]
        exact .denied fun _ g' hg' hfor' => (hagree g' hg' g hg _ hfor' hfor).trans hlevel
      · rw [if_pos hlevel]
        exact .approval hagent hg hfor hlevel
    | none =>
      exact .denied fun _ g hg hfor => absurd hfor (directGrant_eq_none hdirect g hg)
  · rw [if_pos hagent]
    exact .denied fun h => absurd h hagent

theorem granted_account (id : Uuid) (grants : List GrantFacts) (org : OrgFacts) (now : Timestamp) :
    Granted (liveGrants grants now) org (.account id)
      (effectiveLevel (.account id) grants org now) := by
  by_cases howner : some id = org.projectOwnerId
  · rw [effectiveLevel, if_pos ⟨rfl, howner⟩]
    exact .owner howner
  · by_cases hactive : id ∈ org.activeMembers
    · rw [effectiveLevel_active grants now howner hactive]
      cases hdirect : directGrant (.account id) grants now with
      | some g =>
        obtain ⟨hg, hfor⟩ := directGrant_eq_some hdirect
        exact .direct howner hactive hg hfor
      | none =>
        refine .groups howner hactive (directGrant_eq_none hdirect) ?_
        have hgreatest := isGreatest_foldl ((grants.filter fun g => live g now).filter fun g =>
          g.principalType = .group ∧ g.principalId ∈ org.groupsOf id) .none
        have hset : ∀ l, (∃ g ∈ (grants.filter fun g => live g now).filter fun g =>
              g.principalType = .group ∧ g.principalId ∈ org.groupsOf id, l = g.level) ↔
            ∃ g ∈ liveGrants grants now, g.IsForGroupOf org id ∧ l = g.level := by
          intro l
          constructor
          · rintro ⟨g, hg, rfl⟩
            obtain ⟨hg, hgroup⟩ := List.mem_filter.mp hg
            rw [decide_eq_true_eq] at hgroup
            exact ⟨g, List.mem_filter.mp hg, hgroup, rfl⟩
          · rintro ⟨g, hg, ⟨htype, hmem⟩, rfl⟩
            exact ⟨g, List.mem_filter.mpr
              ⟨List.mem_filter.mpr hg, decide_eq_true ⟨htype, hmem⟩⟩, rfl⟩
        simp only [hset] at hgreatest
        exact hgreatest
    · rw [effectiveLevel, if_neg (fun h => howner h.2), if_pos ⟨rfl, hactive⟩]
      exact .inactive howner hactive

/-- `effectiveLevel` computes the rule. -/
theorem effectiveLevel_eq_iff (hagree : DirectAgree (liveGrants grants now)) {holder : Holder}
    {l : AccessLevel} : effectiveLevel holder grants org now = l ↔
      Granted (liveGrants grants now) org holder l := by
  have hgranted : Granted (liveGrants grants now) org holder
      (effectiveLevel holder grants org now) := by
    obtain ⟨type, id⟩ := holder
    cases type with
    | account => exact granted_account id grants org now
    | agent => exact granted_agent id grants org now hagree
  constructor
  · rintro rfl
    exact hgranted
  · exact hgranted.unique hagree

/-- Looking an agent up among all levels gives its effective level. -/
theorem levelOr_allLevels_agent (id : Uuid) (grants : List GrantFacts) (org : OrgFacts)
    (now : Timestamp) :
    levelOr (allLevels grants org now) (.agent id) = effectiveLevel (.agent id) grants org now := by
  have haccounts : (org.accounts.map fun a =>
      (Holder.account a, effectiveLevel (.account a) grants org now)).find?
        (fun l => l.1 = Holder.agent id) = none := by
    simp [List.find?_eq_none]
  rw [levelOr, allLevels, List.find?_append, haccounts, Option.none_or, List.find?_map]
  cases hfind : org.agents.find? ((fun l : Holder × AccessLevel => decide (l.1 = Holder.agent id)) ∘
      fun a => (Holder.agent a, effectiveLevel (.agent a) grants org now)) with
  | none =>
    have hnot : id ∉ org.agents := fun hmem => by
      simpa using List.find?_eq_none.mp hfind id hmem
    rw [effectiveLevel_agent, if_pos hnot]
    rfl
  | some a =>
    have hsome := List.find?_some hfind
    rw [Function.comp_apply, decide_eq_true_eq] at hsome
    cases hsome
    rfl

theorem levelOr_allLevels (holder : Holder) (grants : List GrantFacts) (org : OrgFacts)
    (now : Timestamp) :
    levelOr (allLevels grants org now) holder = effectiveLevel holder grants org now := by
  obtain ⟨type, id⟩ := holder
  cases type with
  | account => exact levelOr_allLevels_account id grants org now
  | agent => exact levelOr_allLevels_agent id grants org now

/-- When direct grants agree, both functions give the level of the rule, whatever the order and
the repetition of the grants and whatever has expired, and no agent is above `needsApproval`. -/
theorem levels_follow_rule (hagree : DirectAgree (liveGrants grants now)) :
    (∀ holder, levelOr (allLevels grants org now) holder = effectiveLevel holder grants org now) ∧
      (∀ holder l, effectiveLevel holder grants org now = l ↔
        Granted (liveGrants grants now) org holder l) ∧
      (∀ grants', liveGrants grants' now = liveGrants grants now → ∀ holder,
        effectiveLevel holder grants' org now = effectiveLevel holder grants org now) ∧
      ∀ id, effectiveLevel (.agent id) grants org now ≤ .needsApproval := by
  refine ⟨fun holder => levelOr_allLevels holder grants org now,
    fun holder l => effectiveLevel_eq_iff hagree, fun grants' hsame holder => ?_, fun id => ?_⟩
  · rw [effectiveLevel_eq_iff (hsame.symm ▸ hagree), hsame]
    exact (effectiveLevel_eq_iff hagree).mp rfl
  · exact Granted.agent_le ((effectiveLevel_eq_iff hagree).mp rfl)

/-- The level that an environment's grants in the database give is the rule's. -/
theorem levelOf_eq_iff {db : Db} {env : Env} {holder : Holder} {l : AccessLevel} :
    AccessFacts.levelOf db env holder now = l ↔
      Granted (liveGrants (AccessFacts.grants db env.environmentId) now)
        (AccessFacts.org db env.orgId (some env.ownerId)) holder l :=
  effectiveLevel_eq_iff (directAgree_grants db env.environmentId now)

end Computed

section Examples

/-- Riya is in a group, and Claude is an agent. -/
def smallOrg : OrgFacts where
  projectOwnerId := some 1
  activeMembers := [1, 2]
  groupsOf := fun id => if id = 2 then [7] else []
  agents := [3]
  keys := fun _ => none

theorem levels_follow_rule_example :
    Granted (liveGrants [⟨.group, 7, .edit, none⟩, ⟨.account, 2, .use, some 10⟩] 20) smallOrg
      (.account 2) .edit := by
  have hagree : DirectAgree
      (liveGrants [⟨.group, 7, .edit, none⟩, ⟨.account, 2, .use, some 10⟩] 20) := by
    rintro g ⟨hg, hlive⟩ g' - holder ⟨htype, -⟩ -
    simp only [List.mem_cons, List.not_mem_nil, or_false] at hg
    rcases hg with rfl | rfl
    · obtain ⟨_ | _, _⟩ := holder <;> cases htype
    · cases hlive
  exact ((levels_follow_rule hagree).2.1 (.account 2) .edit).mp rfl

/-- Two direct grants that differ: the first one decides. -/
theorem order_decides :
    [⟨.account, 2, .use, none⟩, ⟨.account, 2, .edit, none⟩].Perm
      [⟨.account, 2, .edit, none⟩, (⟨.account, 2, .use, none⟩ : GrantFacts)] ∧
    effectiveLevel (.account 2) [⟨.account, 2, .use, none⟩, ⟨.account, 2, .edit, none⟩] smallOrg 0 =
      .use ∧
    effectiveLevel (.account 2) [⟨.account, 2, .edit, none⟩, ⟨.account, 2, .use, none⟩] smallOrg 0 =
      .edit :=
  ⟨.swap _ _ _, rfl, rfl⟩

end Examples

end Zvault
