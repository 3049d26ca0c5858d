import Zvault.ProjectSync.View

/-!
# Fallbacks under locked environments

An account that holds no key of an environment is sent none of its values, so a value
that it has looks like one that it does not have. The theorem says when that makes no
difference to where a value is taken from.
-/

namespace Zvault.ProjectSync

open Walks

variable {V : Type}

/-- A secret as the API stores it. -/
structure StoredSecret (V : Type) where
  id : RecordId
  metadata : SecretMeta
  values : RecordId → Option V

/-- What the API stores of a project. -/
structure StoredProject (V : Type) where
  id : RecordId
  metadata : ProjectMeta
  environments : List (RecordId × EnvironmentMeta)
  folders : List (RecordId × FolderMeta)
  secrets : List (StoredSecret V)
  nodup_environments : (environments.map Prod.fst).Nodup
  nodup_folders : (folders.map Prod.fst).Nodup
  nodup_secrets : (secrets.map StoredSecret.id).Nodup

namespace StoredProject

variable (p : StoredProject V)

/-- What a device keeps of the records it is sent for the environment keys it holds: an
environment that it has no key for is locked, and a secret has no value of it. -/
def state (owner : Bool) (keys : RecordId → Bool) : ProjectState V where
  id := p.id
  owner := owner
  metadata := p.metadata
  environments := p.environments.map fun e => ⟨e.1, e.2, keys e.1⟩
  folders := p.folders
  secrets := p.secrets.map fun s =>
    ⟨s.id, s.metadata, fun id => if keys id then s.values id else none⟩

section Seen

variable (localeLE : String → String → Bool) (owner : Bool) (keys : RecordId → Bool)

/-- The project as the holder of some environment keys sees it. -/
def seen : Project := (p.state owner keys).project localeLE

@[simp] theorem seen_id : (p.seen localeLE owner keys).id = p.id := rfl

/-- A secret as the holder of some environment keys sees it. -/
def seenSecret (s : StoredSecret V) : ProjectSecret V :=
  (p.state owner keys).viewSecret localeLE
    ⟨s.id, s.metadata, fun id => if keys id then s.values id else none⟩

/-- The environments that one falls back to, from itself on. -/
def chain (envId : RecordId) : List RecordId :=
  fallbacks (p.seen localeLE true fun _ => true).environments envId

/-- Where a holder of all keys takes a value from. -/
def fullSource (s : StoredSecret V) (envId : RecordId) : Option RecordId :=
  valueSource (p.seen localeLE true fun _ => true) (p.seenSecret localeLE true (fun _ => true) s)
    envId

/-- An environment with a value that the account has no key for overrides one with a value that it
has the key for, and nothing overrides the first. -/
def HidesOverride (s : StoredSecret V) (envId : RecordId) : Prop :=
  ∃ before hidden after, p.chain localeLE envId = before ++ hidden :: after ∧
    (∀ id ∈ before, (s.values id).isSome = false) ∧
    ((s.values hidden).isSome = true ∧ keys hidden = false) ∧
    ∃ id ∈ after, (s.values id).isSome = true ∧ keys id = true

end Seen

end StoredProject

/-- The projects that a device keeps, each under its id. -/
structure KnownProjects (V : Type) where
  states : List (ProjectState V)
  nodup : (states.map ProjectState.id).Nodup

/-- The account takes a secret's value from where a holder of all keys does, or from nowhere: on
the screen, in `zv`, in a release, and in what it pushes. -/
structure KeepsSource (localeLE : String → String → Bool) (known : KnownProjects V)
    (p : StoredProject V) (owner : Bool) (keys : RecordId → Bool) (s : StoredSecret V)
    (envId : RecordId) : Prop where
  source : ∀ id ∈ valueSource (p.seen localeLE owner keys) (p.seenSecret localeLE owner keys s)
    envId, p.fullSource localeLE s envId = some id
  shown : ∀ env ∈ (p.seen localeLE owner keys).environments, env.id = envId →
    ∀ id ∈ shownSource (p.seen localeLE owner keys) env (p.seenSecret localeLE owner keys s),
      p.fullSource localeLE s envId = some id
  found : ∀ reference, ∀ r ∈ findSecret (toView localeLE known.states) reference,
    r.projectId = p.id → r.secretId = some s.id → r.environmentId = envId →
      ∀ id ∈ r.valueEnvironmentId, p.fullSource localeLE s envId = some id
  released : ∀ items, ∀ item ∈ releaseItems (p.seen localeLE owner keys)
      (toView localeLE known.states).secrets envId items,
    item.secretId = s.id → p.fullSource localeLE s envId = some item.environmentId
  pushed : ∀ env ∈ (p.seen localeLE owner keys).environments, env.id = envId →
    ∀ item ∈ itemsFor localeLE (toView localeLE known.states).secrets
        (p.seen localeLE owner keys) env,
      item.secretId = s.id → p.fullSource localeLE s envId = some item.environmentId

section Sources

variable {localeLE : String → String → Bool} {known : KnownProjects V} {p : StoredProject V}
  {owner : Bool} {keys : RecordId → Bool} {s : StoredSecret V} {envId : RecordId}

namespace StoredProject

/-- The keys make no difference to what falls back to what. -/
theorem fallbacks_seen :
    fallbacks (p.seen localeLE owner keys).environments envId = p.chain localeLE envId := by
  let relock : Environment → Environment := fun e => { e with locked := !keys e.id }
  have hsorted : (p.seen localeLE owner keys).environments =
      (p.seen localeLE true fun _ => true).environments.map relock := by
    simp only [seen, ProjectState.project, state, List.map_map]
    rw [List.map_mergeSort (r := Environment.le localeLE) (s := Environment.le localeLE)
      (f := relock) (fun _ _ _ _ => rfl), List.map_map]
    rfl
  have hinherited : inherited (p.seen localeLE owner keys).environments =
      inherited (p.seen localeLE true fun _ => true).environments := by
    funext id
    rw [inherited, hsorted, List.find?_map]
    change (Option.map relock (List.find? (fun e => decide (e.id = id)) _)).bind _ = _
    rw [Option.bind_map]
    rfl
  rw [chain, fallbacks, fallbacks, hinherited, walkSteps, walkSteps, hsorted, List.length_map]

theorem valueSource_seen :
    valueSource (p.seen localeLE owner keys) (p.seenSecret localeLE owner keys s) envId =
      (p.chain localeLE envId).find? fun id => (s.values id).isSome && keys id := by
  rw [valueSource_eq, fallbacks_seen]
  congr 1
  funext id
  cases hkey : keys id <;> simp [seenSecret, ProjectState.viewSecret, hkey]

theorem fullSource_eq : p.fullSource localeLE s envId =
    (p.chain localeLE envId).find? fun id => (s.values id).isSome := by
  rw [fullSource, valueSource_seen]
  simp

end StoredProject

/-- A secret of the project in a device's view is one that the API stores. -/
theorem KnownProjects.mem_secrets (hstate : p.state owner keys ∈ known.states)
    {seen : ProjectSecret V} (hseen : seen ∈ (toView localeLE known.states).secrets)
    (hproject : seen.projectId = p.id) :
    ∃ stored ∈ p.secrets, seen = p.seenSecret localeLE owner keys stored := by
  simp only [toView, List.mem_mergeSort, List.mem_flatMap, List.mem_map] at hseen
  obtain ⟨state, hmem, secret, hsecret, rfl⟩ := hseen
  have hsame : state = p.state owner keys :=
    List.inj_on_of_nodup_map known.nodup hmem hstate hproject
  subst hsame
  obtain ⟨stored, hstored, rfl⟩ := List.mem_map.mp hsecret
  exact ⟨stored, hstored, rfl⟩

theorem KnownProjects.eq_seenSecret (hstate : p.state owner keys ∈ known.states)
    (hs : s ∈ p.secrets) {seen : ProjectSecret V}
    (hseen : seen ∈ (toView localeLE known.states).secrets) (hproject : seen.projectId = p.id)
    (hid : seen.id = s.id) : seen = p.seenSecret localeLE owner keys s := by
  obtain ⟨stored, hstored, rfl⟩ := known.mem_secrets hstate hseen hproject
  rw [List.inj_on_of_nodup_map p.nodup_secrets hstored hs hid]

theorem KnownProjects.eq_seen (hstate : p.state owner keys ∈ known.states) {seen : Project}
    (hseen : seen ∈ (toView localeLE known.states).projects) (hid : seen.id = p.id) :
    seen = p.seen localeLE owner keys := by
  simp only [toView, List.mem_mergeSort, List.mem_map] at hseen
  obtain ⟨state, hmem, rfl⟩ := hseen
  rw [List.inj_on_of_nodup_map known.nodup hmem hstate hid]
  rfl

/-- What reads through a fallback reads at `valueSource`. -/
theorem KeepsSource.of_source (hstate : p.state owner keys ∈ known.states) (hs : s ∈ p.secrets)
    (hsource : ∀ id ∈ valueSource (p.seen localeLE owner keys)
      (p.seenSecret localeLE owner keys s) envId, p.fullSource localeLE s envId = some id) :
    KeepsSource localeLE known p owner keys s envId where
  source := hsource
  shown env henv hid id hshown := by
    unfold shownSource at hshown
    split at hshown
    · cases hshown
    · exact hsource id (hid ▸ hshown)
  found reference r hr hproject hsecret henv id hid := by
    simp only [findSecret, Option.bind_eq_bind, Option.mem_def, Option.bind_eq_some_iff,
      Option.pure_def, Option.some_inj] at hr
    obtain ⟨path, -, project, hfound, env, -, _, -, folder, -, rfl⟩ := hr
    have hseen := known.eq_seen hstate (List.mem_of_find?_eq_some hfound) hproject
    subst hseen
    obtain ⟨secret, hfind, hid'⟩ := Option.map_eq_some_iff.mp hsecret
    have hof := List.find?_some hfind
    simp only [decide_eq_true_eq] at hof
    obtain rfl := known.eq_seenSecret hstate hs (List.mem_of_find?_eq_some hfind) hof.1 hid'
    simp only [hfind, Option.bind_some] at hid
    exact hsource id (henv ▸ hid)
  released items item hitem hsecret := by
    obtain ⟨reference, -, hmade⟩ := List.mem_filterMap.mp hitem
    simp only [releaseItem, Option.bind_eq_bind, Option.bind_eq_some_iff, Option.pure_def,
      Option.some_inj] at hmade
    obtain ⟨env, -, path, -, _, -, secret, hfind, source, hfrom, value, -, rfl⟩ := hmade
    have hof := List.find?_some hfind
    simp only [decide_eq_true_eq] at hof
    obtain rfl := known.eq_seenSecret hstate hs (List.mem_of_find?_eq_some hfind) hof.1 hsecret
    exact hsource source hfrom
  pushed env henv hid item hitem hsecret := by
    rw [itemsFor, List.mem_mergeSort] at hitem
    obtain ⟨secret, hmem, hmade⟩ := List.mem_filterMap.mp hitem
    simp only [Option.bind_eq_bind, Option.bind_eq_some_iff, Option.pure_def,
      Option.some_inj, Option.guard_eq_some'] at hmade
    obtain ⟨_, hof, source, hfrom, value, -, rfl⟩ := hmade
    obtain rfl := known.eq_seenSecret hstate hs hmem hof hsecret
    exact hsource source (hid ▸ hfrom)

/-- An account takes a secret's value from where a holder of all keys does, or from nowhere, unless
an environment that it has no key for overrides one that it has the key for. -/
theorem keepsSource_iff (hstate : p.state owner keys ∈ known.states) (hs : s ∈ p.secrets) :
    KeepsSource localeLE known p owner keys s envId ↔ ¬ p.HidesOverride localeLE keys s envId := by
  have hiff := Walks.find?_and_iff (l := p.chain localeLE envId)
    (fun id => (s.values id).isSome) keys
  have hseen : valueSource (p.seen localeLE owner keys) (p.seenSecret localeLE owner keys s) envId =
      _ := StoredProject.valueSource_seen
  rw [← hseen, ← StoredProject.fullSource_eq] at hiff
  constructor
  · intro h
    refine hiff.mp ?_
    cases hsource : valueSource (p.seen localeLE owner keys)
        (p.seenSecret localeLE owner keys s) envId with
    | none => exact Or.inr rfl
    | some id => exact Or.inl (h.source id hsource).symm
  · intro hhides
    refine .of_source hstate hs fun id hid => ?_
    rcases hiff.mpr hhides with hsame | hnone
    · exact hsame ▸ hid
    · cases hnone.symm.trans hid

end Sources

/-- A database that staging does not share with production. -/
def databaseSecret : StoredSecret String where
  id := 7
  metadata := ⟨"Database", "DATABASE_URL", none, [], none⟩
  values id := if id = 1 then some "production" else if id = 2 then some "staging" else none

/-- Development falls back to staging, which falls back to production. -/
def shopProject (s : StoredSecret V) : StoredProject V where
  id := 0
  metadata := ⟨"Shop", "shop", none, none⟩
  environments := [
    (3, ⟨"Development", "dev", .development, 0, none, some 2, none⟩),
    (2, ⟨"Staging", "staging", .staging, 1, none, some 1, none⟩),
    (1, ⟨"Production", "production", .production, 2, none, none, none⟩)]
  folders := []
  secrets := [s]
  nodup_environments := by decide
  nodup_folders := List.nodup_nil
  nodup_secrets := List.nodup_singleton _

/-- A device that knows the project with some of its environment keys. -/
def shopKnown (keys : RecordId → Bool) : KnownProjects String where
  states := [(shopProject databaseSecret).state false keys]
  nodup := by simp

theorem shopProject_chain (s : StoredSecret V) (localeLE : String → String → Bool) :
    (shopProject s).chain localeLE 3 = [3, 2, 1] := by
  simp [StoredProject.chain, StoredProject.seen, StoredProject.state, ProjectState.project,
    shopProject, List.mergeSort_of_pairwise, KnownEnvironment.view, Environment.le, fallbacks,
    walkSteps, follow, inherited]

/-- With the keys of development and production, not of staging, a value of production takes the
place of staging's. -/
theorem staging_value_hidden :
    let localeLE := fun a b : String => decide (a ≤ b)
    let keys := fun id : RecordId => decide (id ≠ 2)
    let shop := shopProject databaseSecret
    shop.fullSource localeLE databaseSecret 3 = some 2 ∧
      valueSource (shop.seen localeLE false keys)
        (shop.seenSecret localeLE false keys databaseSecret) 3 = some 1 ∧
      ¬ KeepsSource localeLE (shopKnown keys) shop false keys databaseSecret 3 := by
  intro localeLE keys shop
  have hfull : shop.fullSource localeLE databaseSecret 3 = some 2 := by
    rw [StoredProject.fullSource_eq, shopProject_chain]
    decide
  have hseen : valueSource (shop.seen localeLE false keys)
      (shop.seenSecret localeLE false keys databaseSecret) 3 = some 1 := by
    rw [StoredProject.valueSource_seen, shopProject_chain]
    decide
  refine ⟨hfull, hseen, fun hkeeps => ?_⟩
  have hsame := hkeeps.source 1 hseen
  rw [hfull] at hsame
  cases hsame

/-- Without the key of production, staging's value is found where it is. -/
theorem keepsSource_without_production :
    let localeLE := fun a b : String => decide (a ≤ b)
    let keys := fun id : RecordId => decide (id ≠ 1)
    KeepsSource localeLE (shopKnown keys) (shopProject databaseSecret) false keys databaseSecret 3 := by
  intro localeLE keys
  apply (keepsSource_iff (List.mem_singleton_self _) (List.mem_singleton_self _)).mpr
  rintro ⟨before, hidden, after, hchain, hbefore, ⟨hvalue, hkey⟩, id, hid, -, -⟩
  rw [shopProject_chain] at hchain
  obtain rfl : hidden = 1 := by simpa [keys] using hkey
  have hlast : after = [] := by
    rcases before with _ | ⟨a, _ | ⟨b, _ | ⟨c, before⟩⟩⟩ <;> simp_all
  simp [hlast] at hid

end Zvault.ProjectSync
