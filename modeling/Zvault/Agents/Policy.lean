import Mathlib.Data.Int.Notation
import Mathlib.Data.Nat.Notation

/-!
# What agents and terminals may do

`policy.rs` and the patterns of `reference.rs`. An approval that is kept also
records how often Zvault had been locked when the prompts it rests on were asked;
no function reads that.
-/

namespace Zvault.Agents

/-- A `zv://` path. -/
structure SecretRef where
  project : String
  environment : String
  folder : Option String
  key : String
  deriving DecidableEq, Repr

/-- Project, environment and folder. -/
def SecretRef.places (r : SecretRef) : List String := r.project :: r.environment :: r.folder.toList

inductive ScopePattern where
  | exact (r : SecretRef)
  | under (prefixes : List String)
  deriving DecidableEq, Repr

def ScopePattern.allows (r : SecretRef) : ScopePattern → Bool
  | .exact p => p = r
  | .under prefixes => prefixes.isPrefixOf r.places

inductive ApprovalMode where
  | askEveryTime
  | session15m
  | whileUnlocked
  deriving DecidableEq, Repr

inductive AgentKind where
  | agent
  | browser
  deriving DecidableEq, Repr

structure AgentRecord where
  id : String
  kind : AgentKind
  paused : Bool
  approval : ApprovalMode
  scopes : List ScopePattern
  deriving DecidableEq, Repr

inductive ErrorCode where
  | badRequest
  | unauthorized
  | paused
  | outOfScope
  | locked
  deriving DecidableEq, Repr

inductive Decision where
  | allow
  | ask (touchId : Bool)
  | deny (code : ErrorCode)
  deriving DecidableEq, Repr

def sessionGrantSecs : ℕ := 15 * 60

def maxAgents : ℕ := 32

def maxScopes : ℕ := 64

/-- A session approval of one reference. -/
structure Grant where
  reference : SecretRef
  expiresAt : ℕ
  asked : List ℕ
  deriving DecidableEq, Repr

structure Registry where
  agents : List AgentRecord
  grants : String → Option (List Grant)

namespace Registry

def get (registry : Registry) (id : String) : Option AgentRecord :=
  registry.agents.find? (·.id = id)

/-- `pair_kind`, with the new agent's random id. -/
def pairKind (registry : Registry) (id : String) (kind : AgentKind) (approval : ApprovalMode)
    (scopes : List ScopePattern) : Option Registry :=
  if maxAgents ≤ registry.agents.length then none
  else if maxScopes < scopes.length then none
  else some { registry with agents := registry.agents ++ [⟨id, kind, false, approval, scopes⟩] }

/-- `grants.remove`. -/
def forget (registry : Registry) (id : String) : Registry :=
  { registry with grants := fun i => if i = id then none else registry.grants i }

def unpair (registry : Registry) (id : String) : Registry :=
  { registry.forget id with agents := registry.agents.eraseP (·.id = id) }

/-- `update`, without the name. Narrowing access drops the approvals. -/
def update (registry : Registry) (id : String) (paused : Option Bool)
    (approval : Option ApprovalMode) (scopes : Option (List ScopePattern)) : Option Registry :=
  if scopes.any (maxScopes < ·.length) then none
  else (registry.get id).map fun agent =>
    let record := { agent with
      paused := paused.getD agent.paused
      approval := approval.getD agent.approval
      scopes := scopes.getD agent.scopes }
    let i := registry.agents.findIdx (·.id = id)
    { registry.forget id with agents := registry.agents.set i record }

/-- The approvals of the references that have not expired. -/
def live (registry : Registry) (id : String) (refs : List SecretRef) (now : ℕ) : List Grant :=
  ((registry.grants id).getD []).filter fun g => g.reference ∈ refs ∧ now < g.expiresAt

def granted (registry : Registry) (id : String) (refs : List SecretRef) (now : ℕ) : Bool :=
  match registry.grants id with
  | none => false
  | some grants => refs.all fun r => grants.any fun g => g.reference = r ∧ now < g.expiresAt

def decide (registry : Registry) (id : String) (refs : List SecretRef) (unlocked : Bool)
    (now : ℕ) : Decision :=
  match registry.get id with
  | none => .deny .unauthorized
  | some agent =>
    if agent.paused then .deny .paused
    else if refs.isEmpty then .deny .badRequest
    else if !refs.all fun r => agent.scopes.any (·.allows r) then .deny .outOfScope
    else if !unlocked then .deny .locked
    else match agent.approval with
      | .whileUnlocked => .allow
      | .session15m => if registry.granted id refs now then .allow else .ask false
      | .askEveryTime => .ask true

/-- Records an approval of the user, so that a session-mode agent is not asked again. -/
def approved (registry : Registry) (id : String) (refs : List SecretRef) (now : ℕ)
    (asked : List ℕ) : Registry :=
  match registry.get id with
  | none => registry
  | some agent =>
    if agent.approval = .session15m then
      let kept := ((registry.grants id).getD []).filter fun g =>
        now < g.expiresAt ∧ g.reference ∉ refs
      let added := refs.map fun r => ⟨r, now + sessionGrantSecs, asked⟩
      { registry with grants := fun i => if i = id then some (kept ++ added) else registry.grants i }
    else registry

def onLock (registry : Registry) : Registry := { registry with grants := fun _ => none }

/-- A session approval is kept that rests on a prompt asked after so many locks. -/
def Keeps (registry : Registry) (n : ℕ) : Prop :=
  ∃ id, ∃ grants ∈ registry.grants id, ∃ g ∈ grants, n ∈ g.asked

section Kept

variable {registry : Registry} {id : String} {n : ℕ}

theorem keeps_of_forget (h : (registry.forget id).Keeps n) : registry.Keeps n := by
  obtain ⟨i, grants, hgrants, hmem⟩ := h
  refine ⟨i, grants, ?_, hmem⟩
  simp only [forget, Option.mem_def] at hgrants ⊢
  split at hgrants
  · cases hgrants
  · exact hgrants

theorem keeps_of_pairKind {registry' : Registry} {kind : AgentKind} {approval : ApprovalMode}
    {scopes : List ScopePattern} (hpair : registry.pairKind id kind approval scopes = some registry')
    (h : registry'.Keeps n) : registry.Keeps n := by
  unfold pairKind at hpair
  split at hpair
  · cases hpair
  · split at hpair
    · cases hpair
    · obtain rfl := Option.some_inj.mp hpair
      exact h

theorem keeps_of_unpair (h : (registry.unpair id).Keeps n) : registry.Keeps n :=
  keeps_of_forget h

theorem keeps_of_update {registry' : Registry} {paused : Option Bool}
    {approval : Option ApprovalMode} {scopes : Option (List ScopePattern)}
    (hupdate : registry.update id paused approval scopes = some registry')
    (h : registry'.Keeps n) : registry.Keeps n := by
  unfold update at hupdate
  split at hupdate
  · cases hupdate
  · obtain ⟨agent, -, rfl⟩ := Option.map_eq_some_iff.mp hupdate
    exact keeps_of_forget h

theorem keeps_of_mem {g : Grant} (h : g ∈ (registry.grants id).getD []) (hn : n ∈ g.asked) :
    registry.Keeps n := by
  cases hgrants : registry.grants id with
  | none => simp [hgrants] at h
  | some grants => exact ⟨id, grants, hgrants, g, by simpa [hgrants] using h, hn⟩

theorem keeps_of_live {refs : List SecretRef} {now : ℕ} {g : Grant}
    (h : g ∈ registry.live id refs now) (hn : n ∈ g.asked) : registry.Keeps n :=
  keeps_of_mem (List.mem_filter.mp h).1 hn

/-- What is kept after an approval was kept before, or rests on its prompts. -/
theorem keeps_of_approved {refs : List SecretRef} {now : ℕ} {asked : List ℕ}
    (h : (registry.approved id refs now asked).Keeps n) : registry.Keeps n ∨ n ∈ asked := by
  unfold approved at h
  split at h
  · exact Or.inl h
  · split at h
    · obtain ⟨i, grants, hgrants, g, hmem, hn⟩ := h
      simp only [Option.mem_def] at hgrants
      split at hgrants
      · obtain rfl := Option.some_inj.mp hgrants
        rcases List.mem_append.mp hmem with hkept | hadded
        · exact Or.inl (keeps_of_mem (List.mem_filter.mp hkept).1 hn)
        · obtain ⟨r, -, rfl⟩ := List.mem_map.mp hadded
          exact Or.inr hn
      · exact Or.inl ⟨i, grants, hgrants, g, hmem, hn⟩
    · exact Or.inl h

theorem not_keeps_onLock : ¬ registry.onLock.Keeps n := by
  rintro ⟨i, grants, hgrants, -⟩
  cases hgrants

end Kept

/-- An approval covers the references for the session, for fifteen minutes. -/
theorem granted_approved {registry : Registry} {id : String} {agent : AgentRecord}
    {refs : List SecretRef} {now later : ℕ} {asked : List ℕ} (hagent : registry.get id = some agent)
    (hmode : agent.approval = .session15m) (hlater : later < now + sessionGrantSecs) :
    (registry.approved id refs now asked).granted id refs later = true := by
  simp only [approved, hagent, if_pos hmode, granted, if_true, List.all_eq_true,
    List.any_eq_true]
  intro r hr
  refine ⟨⟨r, now + sessionGrantSecs, asked⟩, List.mem_append_right _ ?_, by simpa using hlater⟩
  exact List.mem_map_of_mem hr

end Registry

def signinIdleSecs : ℕ := 10 * 60

def signinMaxSecs : ℕ := 60 * 60

/-- A signed-in terminal: since when, and when it was last used. -/
structure SignIn where
  since : ℕ
  used : ℕ
  asked : List ℕ
  deriving DecidableEq, Repr

/-- The sign-ins by session id. -/
structure TerminalGrants where
  grants : ℤ → Option SignIn

namespace TerminalGrants

def set (terminals : TerminalGrants) (sid : ℤ) (signIn : Option SignIn) : TerminalGrants where
  grants s := if s = sid then signIn else terminals.grants s

def grant (terminals : TerminalGrants) (sid : ℤ) (now : ℕ) (asked : List ℕ) : TerminalGrants :=
  terminals.set sid (some ⟨now, now, asked⟩)

def revoke (terminals : TerminalGrants) (sid : ℤ) : TerminalGrants := terminals.set sid none

def clear (_ : TerminalGrants) : TerminalGrants where
  grants _ := none

def remaining (terminals : TerminalGrants) (sid : ℤ) (now : ℕ) : Option ℕ :=
  (terminals.grants sid).bind fun signIn =>
    let stop := min (signIn.used + signinIdleSecs) (signIn.since + signinMaxSecs)
    if now < stop then some (stop - now) else none

/-- `use_grant`: the sign-in that was used, if the terminal is signed in. -/
def useGrant (terminals : TerminalGrants) (sid : ℤ) (now : ℕ) : TerminalGrants × Option SignIn :=
  match terminals.grants sid with
  | none => (terminals, none)
  | some signIn =>
    if (terminals.remaining sid now).isSome then
      (terminals.set sid (some { signIn with used := now }), some signIn)
    else (terminals.revoke sid, none)

/-- A sign-in is kept that rests on a prompt asked after so many locks. -/
def Keeps (terminals : TerminalGrants) (n : ℕ) : Prop :=
  ∃ sid, ∃ signIn ∈ terminals.grants sid, n ∈ signIn.asked

section Kept

variable {terminals : TerminalGrants} {sid : ℤ} {n : ℕ}

theorem keeps_of_set {signIn : Option SignIn} (h : (terminals.set sid signIn).Keeps n) :
    terminals.Keeps n ∨ ∃ s ∈ signIn, n ∈ s.asked := by
  obtain ⟨i, s, hs, hn⟩ := h
  simp only [set, Option.mem_def] at hs
  split at hs
  · exact Or.inr ⟨s, hs, hn⟩
  · exact Or.inl ⟨i, s, hs, hn⟩

theorem keeps_of_revoke (h : (terminals.revoke sid).Keeps n) : terminals.Keeps n :=
  (keeps_of_set h).resolve_right nofun

theorem keeps_of_grant {now : ℕ} {asked : List ℕ} (h : (terminals.grant sid now asked).Keeps n) :
    terminals.Keeps n ∨ n ∈ asked := by
  rcases keeps_of_set h with h | ⟨s, hs, hn⟩
  · exact Or.inl h
  · obtain rfl := Option.some_inj.mp hs
    exact Or.inr hn

theorem not_keeps_clear (terminals : TerminalGrants) : ¬ terminals.clear.Keeps n := by
  rintro ⟨i, s, hs, -⟩
  cases hs

/-- A use keeps no sign-in that was not kept, and hands out one of them. -/
theorem keeps_of_useGrant (terminals : TerminalGrants) (sid : ℤ) (now : ℕ) :
    (∀ n, (terminals.useGrant sid now).1.Keeps n → terminals.Keeps n) ∧
      ∀ s ∈ (terminals.useGrant sid now).2, ∀ n ∈ s.asked, terminals.Keeps n := by
  unfold useGrant
  split
  · exact ⟨fun _ h => h, nofun⟩
  · rename_i signIn hsignIn
    split
    · refine ⟨fun n h => ?_, fun s hs n hn => ?_⟩
      · rcases keeps_of_set h with h | ⟨s, hs, hn⟩
        · exact h
        · obtain rfl := Option.some_inj.mp hs
          exact ⟨sid, signIn, hsignIn, hn⟩
      · obtain rfl := Option.some_inj.mp hs
        exact ⟨sid, signIn, hsignIn, hn⟩
    · exact ⟨fun _ h => keeps_of_revoke h, nofun⟩

end Kept

end TerminalGrants

end Zvault.Agents
