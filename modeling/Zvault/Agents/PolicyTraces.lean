import Mathlib.Data.List.Chain
import Mathlib.Logic.Basic
import Zvault.Agents.Policy
import Zvault.Past.Since

/-!
# What a decision rests on

Any sequence of operations of the registry and of the terminal sign-ins. A
decision to allow rests on approvals of every reference that no later operation
ended, and a sign-in that is used was granted and used recently.
-/

namespace Zvault.Agents

open Past

/-- An operation of the registry. `touch` only changes when an agent was last used, and is left
out of the record. -/
inductive RegistryOp where
  | pair (id : String) (approval : ApprovalMode) (scopes : List ScopePattern)
  | pairBrowser (id : String) (approval : ApprovalMode)
  | update (id : String) (paused : Option Bool) (approval : Option ApprovalMode)
      (scopes : Option (List ScopePattern))
  | unpair (id : String)
  | approved (id : String) (refs : List SecretRef)
  | touch (id : String)
  | onLock
  deriving DecidableEq, Repr

/-- An operation at a time; one that is refused changes nothing. -/
def RegistryOp.run (registry : Registry) (now : ℕ) : RegistryOp → Registry
  | .pair id approval scopes => (registry.pairKind id .agent approval scopes).getD registry
  | .pairBrowser id approval => (registry.pairKind id .browser approval []).getD registry
  | .update id paused approval scopes =>
    (registry.update id paused approval scopes).getD registry
  | .unpair id => registry.unpair id
  | .approved id refs => registry.approved id refs now []
  | .touch _ => registry
  | .onLock => registry.onLock

/-- The registry after a sequence of operations, from the agents that were saved. -/
def Registry.after (agents : List AgentRecord) (ops : List (ℕ × RegistryOp)) : Registry :=
  ops.foldl (fun registry op => op.2.run registry op.1) ⟨agents, fun _ => none⟩

/-- A lock, or an unpairing or an update of the agent, unless the update is refused. -/
def RegistryOp.Ends (id : String) : RegistryOp → Prop
  | .onLock => True
  | .unpair i => i = id
  | .update i _ _ scopes => i = id ∧ scopes.any (maxScopes < ·.length) = false
  | _ => False

/-- An operation that approves a reference for the agent. -/
def RegistryOp.Approves (id : String) (r : SecretRef) : RegistryOp → Prop
  | .approved i refs => i = id ∧ r ∈ refs
  | _ => False

/-- The reference was approved for the agent less than fifteen minutes ago, and nothing has ended
that. -/
def ApprovedSince (ops : List (ℕ × RegistryOp)) (id : String) (r : SecretRef) (now : ℕ) : Prop :=
  Since (fun op => op.2.Approves id r ∧ op.1 ≤ now ∧ now < op.1 + sessionGrantSecs)
    (fun op => op.2.Ends id) ops

section Registry

variable {registry : Registry} {id : String} {agents : List AgentRecord}

/-- Every approval that is kept rests on an operation that nothing has ended, of an agent that is
paired. -/
def Registry.Rests (ops : List (ℕ × RegistryOp)) (registry : Registry) : Prop :=
  ∀ id, ∀ grants ∈ registry.grants id, (registry.get id).isSome = true ∧ ∀ g ∈ grants,
    Since (fun op => op.2.Approves id g.reference ∧ g.expiresAt = op.1 + sessionGrantSecs)
      (fun op => op.2.Ends id) ops

/-- A pairing adds an agent, and changes no approval. -/
theorem Registry.pairKind_eq_some {registry' : Registry} {newId : String} {kind : AgentKind}
    {approval : ApprovalMode} {scopes : List ScopePattern}
    (h : registry.pairKind newId kind approval scopes = some registry') :
    registry' = { registry with
      agents := registry.agents ++ [⟨newId, kind, false, approval, scopes⟩] } := by
  unfold pairKind at h
  split at h
  · cases h
  · split at h
    · cases h
    · exact (Option.some_inj.mp h).symm

theorem Registry.get_of_mem {a : AgentRecord} (h : a ∈ registry.agents) (hid : a.id = id) :
    (registry.get id).isSome = true :=
  List.find?_isSome.mpr ⟨a, h, decide_eq_true hid⟩

/-- Another agent's approvals are not touched, and it stays paired. -/
theorem Registry.get_unpair {i : String} (hne : i ≠ id) (hget : (registry.get id).isSome = true) :
    ((registry.unpair i).get id).isSome = true := by
  obtain ⟨a, ha, hid⟩ := List.find?_isSome.mp hget
  have hid : a.id = id := of_decide_eq_true hid
  refine get_of_mem ((List.mem_eraseP_of_neg ?_).mpr ha) hid
  simpa [hid] using hne.symm

/-- An update keeps every agent paired. -/
theorem Registry.get_update {registry' : Registry} {i : String} {paused : Option Bool}
    {approval : Option ApprovalMode} {scopes : Option (List ScopePattern)}
    (h : registry.update i paused approval scopes = some registry')
    (hget : (registry.get id).isSome = true) : (registry'.get id).isSome = true := by
  unfold update at h
  split at h
  · cases h
  · obtain ⟨agent, hagent, rfl⟩ := Option.map_eq_some_iff.mp h
    have hi : agent.id = i := by simpa using List.find?_some hagent
    have hlt : registry.agents.findIdx (·.id = i) < registry.agents.length :=
      List.findIdx_lt_length_of_exists ⟨agent, List.mem_of_find?_eq_some hagent, decide_eq_true hi⟩
    have hat : registry.agents[registry.agents.findIdx (·.id = i)].id = i :=
      of_decide_eq_true (List.findIdx_getElem (w := hlt))
    obtain ⟨a, ha, hid⟩ := List.find?_isSome.mp hget
    have hid : a.id = id := of_decide_eq_true hid
    rcases eq_or_ne i id with rfl | hne
    · exact get_of_mem (List.mem_set hlt ..) hi
    · obtain ⟨k, hk, rfl⟩ := List.mem_iff_getElem.mp ha
      refine get_of_mem (List.mem_iff_getElem.mpr ⟨k, by simpa using hk, ?_⟩) hid
      refine List.getElem_set_ne (fun heq => hne ?_) ..
      subst heq
      exact hat.symm.trans hid

/-- What an update leaves. -/
theorem Registry.grants_update {registry' : Registry} {i : String} {paused : Option Bool}
    {approval : Option ApprovalMode} {scopes : Option (List ScopePattern)}
    (h : registry.update i paused approval scopes = some registry') :
    registry'.grants = (registry.forget i).grants := by
  unfold update at h
  split at h
  · cases h
  · obtain ⟨agent, -, rfl⟩ := Option.map_eq_some_iff.mp h
    rfl

/-- An update that is refused is refused for its scopes, or names no agent. -/
theorem Registry.update_eq_none {i : String} {paused : Option Bool}
    {approval : Option ApprovalMode} {scopes : Option (List ScopePattern)}
    (h : registry.update i paused approval scopes = none) :
    scopes.any (maxScopes < ·.length) = true ∨ registry.get i = none := by
  unfold update at h
  split at h
  · exact Or.inl ‹_›
  · exact Or.inr (Option.map_eq_none_iff.mp h)

variable {ops : List (ℕ × RegistryOp)} {now : ℕ} {op : RegistryOp}

/-- Approvals of other agents, when nothing was added to the registry's approvals. -/
theorem Registry.Rests.later {registry' : Registry} (h : registry.Rests ops)
    (hget : ∀ id, registry'.grants id ≠ none → (registry.get id).isSome = true →
      (registry'.get id).isSome = true)
    (hgrants : ∀ id, ∀ grants ∈ registry'.grants id, registry.grants id = some grants ∧ ¬ op.Ends id) :
    registry'.Rests (ops ++ [(now, op)]) := by
  intro id grants hmem
  obtain ⟨hbefore, hends⟩ := hgrants id grants hmem
  obtain ⟨hpaired, hsince⟩ := h id grants hbefore
  refine ⟨hget id ?_ hpaired, fun g hg => (hsince g hg).later hends⟩
  rw [Option.mem_def.mp hmem]
  exact nofun

theorem Registry.Rests.forget {registry' : Registry} {i : String} (h : registry.Rests ops)
    (hget : ∀ id ≠ i, (registry.get id).isSome = true → (registry'.get id).isSome = true)
    (hgrants : registry'.grants = (registry.forget i).grants)
    (hends : ∀ id ≠ i, ¬ op.Ends id) : registry'.Rests (ops ++ [(now, op)]) := by
  have hne : ∀ id, ∀ grants ∈ registry'.grants id, id ≠ i ∧ registry.grants id = some grants := by
    intro id grants hmem
    rw [hgrants] at hmem
    simp only [Registry.forget, Option.mem_def] at hmem
    split at hmem
    · cases hmem
    · exact ⟨‹_›, hmem⟩
  refine h.later (fun id hsome hpaired => ?_) fun id grants hmem => ?_
  · obtain ⟨grants, hmem⟩ := Option.ne_none_iff_exists'.mp hsome
    exact hget id (hne id grants hmem).1 hpaired
  · exact ⟨(hne id grants hmem).2, hends id (hne id grants hmem).1⟩

/-- Every operation keeps what the approvals rest on. -/
theorem RegistryOp.run_rests (op : RegistryOp) (h : registry.Rests ops) :
    (op.run registry now).Rests (ops ++ [(now, op)]) := by
  have hsame : ∀ {op : RegistryOp}, (∀ id, registry.grants id ≠ none → ¬ op.Ends id) →
      registry.Rests (ops ++ [(now, op)]) := fun hends =>
    h.later (fun _ _ hpaired => hpaired) fun id grants hmem =>
      ⟨hmem, hends id (by rw [Option.mem_def.mp hmem]; exact nofun)⟩
  have hpair : ∀ {op : RegistryOp} {newId kind approval scopes}, (∀ id, ¬ op.Ends id) →
      ((registry.pairKind newId kind approval scopes).getD registry).Rests (ops ++ [(now, op)]) := by
    intro op newId kind approval scopes hends
    cases hpair : registry.pairKind newId kind approval scopes with
    | none => exact hsame fun id _ => hends id
    | some registry' =>
      obtain rfl := Registry.pairKind_eq_some hpair
      refine h.later (fun id _ hpaired => ?_) fun id grants hmem => ⟨hmem, hends id⟩
      obtain ⟨a, ha, hid⟩ := List.find?_isSome.mp hpaired
      exact Registry.get_of_mem (List.mem_append_left _ ha) (of_decide_eq_true hid)
  cases op with
  | pair id approval scopes => exact hpair fun _ h => h
  | pairBrowser id approval => exact hpair fun _ h => h
  | update i paused approval scopes =>
    cases hupdate : registry.update i paused approval scopes with
    | none =>
      simp only [run, hupdate, Option.getD_none]
      refine hsame fun id hsome hends => ?_
      obtain ⟨rfl, hscopes⟩ := hends
      rcases Registry.update_eq_none hupdate with hmany | hget
      · rw [hscopes] at hmany
        cases hmany
      · obtain ⟨grants, hmem⟩ := Option.ne_none_iff_exists'.mp hsome
        have hpaired := (h i grants hmem).1
        rw [hget] at hpaired
        cases hpaired
    | some registry' =>
      simp only [run, hupdate, Option.getD_some]
      exact h.forget (fun id _ => Registry.get_update hupdate) (Registry.grants_update hupdate)
        fun id hne hends => hne hends.1.symm
  | unpair i =>
    exact h.forget (fun id hne => Registry.get_unpair hne.symm) rfl fun id hne hends => hne hends.symm
  | approved i refs =>
    simp only [run, Registry.approved]
    split
    · exact hsame fun _ _ h => h
    · rename_i agent hagent
      split
      · intro id grants hmem
        simp only [Option.mem_def] at hmem
        split at hmem
        · rename_i heq
          subst heq
          obtain rfl := Option.some_inj.mp hmem
          refine ⟨congrArg Option.isSome hagent, fun g hg => ?_⟩
          rcases List.mem_append.mp hg with hkept | hadded
          · -- an approval from before
            have hbefore := (List.mem_filter.mp hkept).1
            cases hgrants : registry.grants id with
            | none => simp [hgrants] at hbefore
            | some before =>
              exact ((h id before hgrants).2 g (by simpa [hgrants] using hbefore)).later fun h => h
          · obtain ⟨r, hr, rfl⟩ := List.mem_map.mp hadded
            exact .now ⟨⟨rfl, hr⟩, rfl⟩
        · obtain ⟨hpaired, hsince⟩ := h id grants hmem
          exact ⟨hpaired, fun g hg => (hsince g hg).later fun h => h⟩
      · exact hsame fun _ _ h => h
  | touch id => exact hsame fun _ _ h => h
  | onLock => exact fun id grants hmem => by cases hmem

theorem Registry.after_rests (agents : List AgentRecord) (ops : List (ℕ × RegistryOp)) :
    (Registry.after agents ops).Rests ops :=
  foldl_induction (fun id grants hmem => by cases hmem) (fun _ _ op h => op.2.run_rests h) ops

/-- What a granted request rests on. -/
theorem approvedSince_of_granted {refs : List SecretRef} {time : ℕ}
    (htimes : ∀ op ∈ ops, op.1 ≤ time)
    (h : (Registry.after agents ops).granted id refs time = true) :
    ∀ r ∈ refs, ApprovedSince ops id r time := by
  intro r hr
  unfold Registry.granted at h
  split at h
  · cases h
  · rename_i grants hgrants
    obtain ⟨g, hg, hlive⟩ := List.any_eq_true.mp (List.all_eq_true.mp h r hr)
    obtain ⟨rfl, hexpires⟩ := of_decide_eq_true hlive
    refine ((Registry.after_rests agents ops id grants hgrants).2 g hg).mono fun op hop hgranted => ?_
    obtain ⟨happroves, hat⟩ := hgranted
    exact ⟨happroves, htimes op hop, hat ▸ hexpires⟩

/-- What a decision to allow says about the registry. -/
theorem Registry.decide_allow {refs : List SecretRef} {unlocked : Bool} {time : ℕ}
    (h : registry.decide id refs unlocked time = .allow) :
    unlocked = true ∧ ∃ agent, registry.get id = some agent ∧ agent.paused = false ∧
      (∀ r ∈ refs, ∃ scope ∈ agent.scopes, scope.allows r = true) ∧
      agent.approval ≠ .askEveryTime ∧
      (agent.approval = .session15m → registry.granted id refs time = true) := by
  unfold decide at h
  split at h
  · cases h
  · rename_i agent hagent
    split at h
    · cases h
    · rename_i hpaused
      split at h
      · cases h
      · split at h
        · cases h
        · rename_i hscopes
          split at h
          · cases h
          · rename_i hunlocked
            refine ⟨by simpa using hunlocked, agent, hagent, by simpa using hpaused, ?_, ?_⟩
            · simpa using hscopes
            · cases hmode : agent.approval with
              | whileUnlocked => exact ⟨nofun, nofun⟩
              | session15m =>
                simp only [hmode] at h
                split at h
                · rename_i hgranted
                  exact ⟨nofun, fun _ => hgranted⟩
                · cases h
              | askEveryTime =>
                simp only [hmode] at h
                cases h

end Registry

/-- An operation of the terminal sign-ins. -/
inductive TerminalOp where
  | grant (sid : ℤ)
  | useGrant (sid : ℤ)
  | revoke (sid : ℤ)
  | clear
  deriving DecidableEq, Repr

def TerminalOp.run (terminals : TerminalGrants) (now : ℕ) : TerminalOp → TerminalGrants
  | .grant sid => terminals.grant sid now []
  | .useGrant sid => (terminals.useGrant sid now).1
  | .revoke sid => terminals.revoke sid
  | .clear => terminals.clear

/-- The sign-ins after a sequence of operations. -/
def TerminalGrants.after (ops : List (ℕ × TerminalOp)) : TerminalGrants :=
  ops.foldl (fun terminals op => op.2.run terminals op.1) ⟨fun _ => none⟩

/-- When a terminal used its sign-in. -/
def uses (sid : ℤ) (ops : List (ℕ × TerminalOp)) : List ℕ :=
  (ops.filter fun op => op.2 = .useGrant sid).map Prod.fst

/-- A lock, or a sign-out or another sign-in of the terminal. -/
def TerminalOp.Ends (sid : ℤ) (op : TerminalOp) : Prop :=
  op = .clear ∨ op = .revoke sid ∨ op = .grant sid

/-- The terminal signed in at a time, used that since at the given times, and nothing ended it. -/
def SignedInAt (ops : List (ℕ × TerminalOp)) (sid : ℤ) (time : ℕ) (used : List ℕ) : Prop :=
  ∃ before after, ops = before ++ (time, .grant sid) :: after ∧ uses sid after = used ∧
    ∀ op ∈ after, ¬ op.2.Ends sid

/-- No two consecutive times are ten minutes or more apart. -/
def Close (times : List ℕ) : Prop := times.IsChain fun a b => b < a + signinIdleSecs

section Terminals

variable {terminals : TerminalGrants} {ops : List (ℕ × TerminalOp)} {sid : ℤ} {now : ℕ}

/-- Every sign-in that is kept was granted, and used since without a pause. -/
def TerminalGrants.Rests (ops : List (ℕ × TerminalOp)) (terminals : TerminalGrants) : Prop :=
  ∀ sid, ∀ signIn ∈ terminals.grants sid, ∃ used, SignedInAt ops sid signIn.since used ∧
    Close (signIn.since :: used) ∧ (signIn.since :: used).getLast? = some signIn.used

theorem SignedInAt.later {time : ℕ} {used : List ℕ} {op : TerminalOp}
    (h : SignedInAt ops sid time used) (now : ℕ) (hends : ¬ op.Ends sid) :
    SignedInAt (ops ++ [(now, op)]) sid time (used ++ uses sid [(now, op)]) := by
  obtain ⟨before, after, rfl, rfl, hafter⟩ := h
  refine ⟨before, after ++ [(now, op)], by simp, by simp [uses], fun x hx => ?_⟩
  rcases List.mem_append.mp hx with hx | hx
  · exact hafter x hx
  · obtain rfl := List.mem_singleton.mp hx
    exact hends

/-- What `use_grant` does for a terminal that is signed in. -/
theorem TerminalGrants.useGrant_some {signIn : SignIn}
    (h : (terminals.useGrant sid now).2 = some signIn) :
    terminals.grants sid = some signIn ∧ now < signIn.used + signinIdleSecs ∧
      now < signIn.since + signinMaxSecs ∧
      (terminals.useGrant sid now).1 = terminals.set sid (some { signIn with used := now }) := by
  unfold useGrant at h ⊢
  cases hgrants : terminals.grants sid with
  | none => simp [hgrants] at h
  | some before =>
    simp only [hgrants] at h ⊢
    split at h
    · rename_i hremaining
      obtain rfl := Option.some_inj.mp h
      rw [if_pos hremaining]
      have hstop : now < min (before.used + signinIdleSecs) (before.since + signinMaxSecs) := by
        simpa [remaining, hgrants] using hremaining
      exact ⟨rfl, by omega, by omega, rfl⟩
    · cases h

/-- A use leaves the other terminals alone, and this one signed in or not. -/
theorem TerminalGrants.useGrant_none (h : (terminals.useGrant sid now).2 = none) :
    ∀ i, ∀ signIn ∈ (terminals.useGrant sid now).1.grants i,
      i ≠ sid ∧ terminals.grants i = some signIn := by
  intro i signIn hmem
  unfold useGrant at h hmem
  cases hgrants : terminals.grants sid with
  | none =>
    simp only [hgrants] at hmem
    refine ⟨?_, hmem⟩
    rintro rfl
    rw [hgrants] at hmem
    cases hmem
  | some before =>
    simp only [hgrants] at h hmem
    split at h
    · cases h
    · rename_i hremaining
      rw [if_neg hremaining] at hmem
      simp only [revoke, set, Option.mem_def] at hmem
      split at hmem
      · cases hmem
      · exact ⟨‹_›, hmem⟩

/-- A use right after the last one keeps the times close. -/
theorem Close.later {time : ℕ} {used : List ℕ} {last : ℕ} (h : Close (time :: used))
    (hlast : (time :: used).getLast? = some last) (hnow : now < last + signinIdleSecs) :
    Close (time :: (used ++ [now])) := by
  refine List.isChain_append.mpr ⟨h, .singleton now, fun x hx y hy => ?_⟩
  obtain rfl := Option.some_inj.mp (hlast.symm.trans hx)
  obtain rfl := Option.some_inj.mp hy
  exact hnow

/-- Sign-ins that an operation leaves as they are. -/
theorem TerminalGrants.Rests.same (h : terminals.Rests ops) {op : TerminalOp} {signIn : SignIn}
    (hmem : terminals.grants sid = some signIn) (hends : ¬ op.Ends sid)
    (huses : op ≠ .useGrant sid) :
    ∃ used, SignedInAt (ops ++ [(now, op)]) sid signIn.since used ∧
      Close (signIn.since :: used) ∧ (signIn.since :: used).getLast? = some signIn.used := by
  obtain ⟨used, hsigned, hclose, hlast⟩ := h sid signIn hmem
  refine ⟨used, ?_, hclose, hlast⟩
  have hlater := hsigned.later now hends
  rwa [show uses sid [(now, op)] = [] by simp [uses, huses], List.append_nil] at hlater

/-- Every operation keeps what the sign-ins rest on. -/
theorem TerminalOp.run_rests (op : TerminalOp) (h : terminals.Rests ops) :
    (op.run terminals now).Rests (ops ++ [(now, op)]) := by
  cases op with
  | grant i =>
    intro sid signIn hmem
    simp only [run, TerminalGrants.grant, TerminalGrants.set, Option.mem_def] at hmem
    split at hmem
    · rename_i heq
      subst heq
      obtain rfl := Option.some_inj.mp hmem
      exact ⟨[], ⟨ops, [], rfl, rfl, by rintro _ ⟨⟩⟩, .singleton _, rfl⟩
    · rename_i hne
      exact h.same hmem (by simp [Ends, Ne.symm hne]) (by rintro ⟨⟩)
  | useGrant i =>
    intro sid signIn hmem
    simp only [run] at hmem
    cases hused : (terminals.useGrant i now).2 with
    | none =>
      obtain ⟨hne, hbefore⟩ := TerminalGrants.useGrant_none hused sid signIn hmem
      exact h.same hbefore (by simp [Ends]) (by simpa using Ne.symm hne)
    | some before =>
      obtain ⟨hbefore, hidle, -, hafter⟩ := TerminalGrants.useGrant_some hused
      rw [hafter] at hmem
      simp only [TerminalGrants.set, Option.mem_def] at hmem
      split at hmem
      · rename_i heq
        subst heq
        obtain rfl := Option.some_inj.mp hmem
        obtain ⟨used, hsigned, hclose, hlast⟩ := h sid before hbefore
        have hends : ¬ (TerminalOp.useGrant sid).Ends sid := by simp [Ends]
        have hlater := hsigned.later now hends
        rw [show uses sid [(now, .useGrant sid)] = [now] by simp [uses]] at hlater
        have hnow : ((before.since :: used) ++ [now]).getLast? = some now := List.getLast?_concat
        exact ⟨_, hlater, hclose.later hlast hidle, hnow⟩
      · rename_i hne
        exact h.same hmem (by simp [Ends]) (by simpa using Ne.symm hne)
  | revoke i =>
    intro sid signIn hmem
    simp only [run, TerminalGrants.revoke, TerminalGrants.set, Option.mem_def] at hmem
    split at hmem
    · cases hmem
    · rename_i hne
      exact h.same hmem (by simp [Ends, Ne.symm hne]) (by rintro ⟨⟩)
  | clear => exact fun sid signIn hmem => by cases hmem

theorem TerminalGrants.after_rests (ops : List (ℕ × TerminalOp)) :
    (TerminalGrants.after ops).Rests ops :=
  foldl_induction (fun sid signIn hmem => by cases hmem) (fun _ _ op h => op.2.run_rests h) ops

end Terminals

/-- After any operations of the registry, a request is allowed only when Zvault is unlocked and the
agent is paired, not paused and within its scopes; in the session mode every reference was approved
less than fifteen minutes ago and nothing has ended that. After any operations of the terminals, a
sign-in is used only when the terminal signed in at most an hour ago, has used that since without
a pause of ten minutes, and nothing has ended it. -/
theorem agent_policy_safe :
    (∀ (agents : List AgentRecord) (ops : List (ℕ × RegistryOp)) (id : String)
      (refs : List SecretRef) (unlocked : Bool) (now : ℕ),
      (ops.map Prod.fst ++ [now]).Pairwise (· ≤ ·) →
      (Registry.after agents ops).decide id refs unlocked now = .allow →
        unlocked = true ∧ ∃ agent, (Registry.after agents ops).get id = some agent ∧
          agent.paused = false ∧ (∀ r ∈ refs, ∃ scope ∈ agent.scopes, scope.allows r = true) ∧
          agent.approval ≠ .askEveryTime ∧
          (agent.approval = .session15m → ∀ r ∈ refs, ApprovedSince ops id r now)) ∧
    ∀ (ops : List (ℕ × TerminalOp)) (sid : ℤ) (now : ℕ),
      (ops.map Prod.fst ++ [now]).Pairwise (· ≤ ·) →
      ((TerminalGrants.after ops).useGrant sid now).2.isSome = true →
        ∃ time used, SignedInAt ops sid time used ∧ time ≤ now ∧ now < time + signinMaxSecs ∧
          Close (time :: (used ++ [now])) := by
  constructor
  · intro agents ops id refs unlocked now htimes hallow
    obtain ⟨hunlocked, agent, hagent, hpaused, hscopes, hmode, hgranted⟩ :=
      Registry.decide_allow hallow
    have hpast : ∀ op ∈ ops, op.1 ≤ now := fun op hop =>
      (List.pairwise_append.mp htimes).2.2 op.1 (List.mem_map_of_mem hop) now (by simp)
    exact ⟨hunlocked, agent, hagent, hpaused, hscopes, hmode, fun hsession =>
      approvedSince_of_granted hpast (hgranted hsession)⟩
  · intro ops sid now htimes hused
    obtain ⟨signIn, hsignIn⟩ := Option.isSome_iff_exists.mp hused
    obtain ⟨hmem, hidle, hmax, -⟩ := TerminalGrants.useGrant_some hsignIn
    obtain ⟨used, hsigned, hclose, hlast⟩ := TerminalGrants.after_rests ops sid signIn hmem
    refine ⟨signIn.since, used, hsigned, ?_, hmax, hclose.later hlast hidle⟩
    obtain ⟨before, after, rfl, -⟩ := hsigned
    exact (List.pairwise_append.mp htimes).2.2 signIn.since (by simp) now (by simp)

/-- One approval covers a read ten minutes later, and one sign-in a use five minutes after another. -/
theorem agent_policy_safe_allowed :
    ApprovedSince [(0, .pair "agt_1" .session15m [.under ["web"]]),
      (60, .approved "agt_1" [⟨"web", "dev", none, "KEY"⟩])] "agt_1" ⟨"web", "dev", none, "KEY"⟩ 660 ∧
    ∃ time used, SignedInAt [(0, .grant 7), (300, .useGrant 7)] 7 time used ∧ time ≤ 600 ∧
      600 < time + signinMaxSecs ∧ Close (time :: (used ++ [600])) := by
  refine ⟨?_, agent_policy_safe.2 [(0, .grant 7), (300, .useGrant 7)] 7 600 (by decide) (by decide)⟩
  obtain ⟨-, agent, hagent, -, -, -, happroved⟩ := agent_policy_safe.1 []
    [(0, .pair "agt_1" .session15m [.under ["web"]]),
      (60, .approved "agt_1" [⟨"web", "dev", none, "KEY"⟩])] "agt_1" [⟨"web", "dev", none, "KEY"⟩]
    true 660 (by decide) (by decide)
  obtain rfl : ⟨"agt_1", .agent, false, .session15m, [.under ["web"]]⟩ = agent :=
    Option.some_inj.mp hagent
  exact happroved rfl _ (by simp)

end Zvault.Agents
