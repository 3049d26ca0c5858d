import Zvault.ProjectSync.Environments
import Zvault.Relational.Table

/-!
# What environments fall back to

No call of a client closes a chain of fallbacks, and none is left to an environment that
is gone. A value that was taken from a deleted environment is taken from further along
its chain.
-/

namespace Zvault.ProjectSync

open Relation Walks

variable {V : Type}

/-- One entry of a map is found under its key. -/
theorem find?_key_eq_some {α κ : Type*} [DecidableEq κ] {key : α → κ} {l : List α}
    (hnodup : (l.map key).Nodup) {k : κ} {x : α} :
    l.find? (fun y => key y = k) = some x ↔ x ∈ l ∧ key x = k :=
  Relational.Table.find_eq_some (t := ⟨l, hnodup⟩)

namespace StoredProject

variable {p : StoredProject V} {a b : RecordId}

theorem inheritsFrom_eq_some : p.inheritsFrom a = some b ↔
    ∃ m, (a, m) ∈ p.environments ∧ m.inheritsFrom = some b := by
  rw [inheritsFrom, Option.bind_eq_some_iff]
  simp only [find?_key_eq_some p.nodup_environments]
  constructor
  · rintro ⟨e, ⟨he, rfl⟩, hb⟩
    exact ⟨e.2, he, hb⟩
  · rintro ⟨m, hm, hb⟩
    exact ⟨(a, m), ⟨hm, rfl⟩, hb⟩

theorem inheritsFrom_setMetas {f : RecordId × EnvironmentMeta → EnvironmentMeta} :
    (p.setMetas f).inheritsFrom a = some b ↔
      ∃ m, (a, m) ∈ p.environments ∧ (f (a, m)).inheritsFrom = some b := by
  rw [inheritsFrom_eq_some, setMetas]
  simp only [List.mem_map, Prod.mk.injEq]
  constructor
  · rintro ⟨_, ⟨e, he, rfl, rfl⟩, hb⟩
    exact ⟨e.2, he, hb⟩
  · rintro ⟨m, hm, hb⟩
    exact ⟨_, ⟨(a, m), hm, rfl, rfl⟩, hb⟩

theorem inheritsFrom_removeEnvironment {id : RecordId} :
    (p.removeEnvironment id).inheritsFrom a = some b ↔ a ≠ id ∧ p.inheritsFrom a = some b := by
  rw [inheritsFrom_eq_some, inheritsFrom_eq_some, removeEnvironment]
  simp only [List.mem_filter, decide_eq_true_eq]
  constructor
  · rintro ⟨m, ⟨hm, hid⟩, hb⟩
    exact ⟨hid, m, hm, hb⟩
  · rintro ⟨hid, m, hm, hb⟩
    exact ⟨m, ⟨hm, hid⟩, hb⟩

theorem isSome_inheritsFrom (h : (p.inheritsFrom a).isSome = true) :
    a ∈ p.environments.map Prod.fst := by
  obtain ⟨b, hb⟩ := Option.isSome_iff_exists.mp h
  obtain ⟨m, hm, -⟩ := inheritsFrom_eq_some.mp hb
  exact List.mem_map.mpr ⟨_, hm, rfl⟩

/-- What falls back to what does not depend on who looks. -/
theorem inherited_seen (localeLE : String → String → Bool) (owner : Bool) (keys : RecordId → Bool)
    (id : RecordId) : inherited (p.seen localeLE owner keys).environments id = p.inheritsFrom id := by
  have hperm : (p.seen localeLE owner keys).environments.Perm
      (p.environments.map fun e => KnownEnvironment.view ⟨e.1, e.2, keys e.1⟩) := by
    refine (List.mergeSort_perm _ _).trans (List.Perm.of_eq ?_)
    rw [state, List.map_map]
    rfl
  have hnodup : ((p.seen localeLE owner keys).environments.map Environment.id).Nodup := by
    refine (hperm.map _).nodup_iff.mpr ?_
    rw [List.map_map]
    exact p.nodup_environments
  ext b
  rw [inherited, Option.bind_eq_some_iff, inheritsFrom_eq_some]
  simp only [find?_key_eq_some hnodup, hperm.mem_iff, List.mem_map]
  constructor
  · rintro ⟨_, ⟨⟨e, he, rfl⟩, rfl⟩, hb⟩
    exact ⟨e.2, he, hb⟩
  · rintro ⟨m, hm, hb⟩
    exact ⟨_, ⟨⟨(id, m), hm, rfl⟩, rfl⟩, hb⟩

theorem known_inheritsFrom (owner : Bool) (keys : RecordId → Bool) (id : RecordId) :
    (p.state owner keys).inheritsFrom id = p.inheritsFrom id := by
  rw [ProjectState.inheritsFrom, ProjectState.environment, state, List.find?_map, inheritsFrom]
  change (Option.map _ (p.environments.find? fun e => decide (e.1 = id))).bind _ = _
  rw [Option.bind_map]
  rfl

end StoredProject

/-- No chain of fallbacks comes back. -/
def StoredProject.Acyclic (p : StoredProject V) : Prop := Walks.Acyclic p.inheritsFrom

/-- Every fallback is an environment of the project. -/
def StoredProject.NoneDangling (p : StoredProject V) : Prop :=
  ∀ a b, p.inheritsFrom a = some b → b ∈ p.environments.map Prod.fst

/-- The client knows the project as it is after a write. -/
theorem Device.known_write (d : Device V) {w : Write}
    (hnew : ∀ id m, w = .newEnvironment id m →
      id ∉ d.project.environments.map Prod.fst ∧ ∀ s ∈ d.project.secrets, s.values id = none) :
    (d.write w).known = d.known.apply w := by
  cases w with
  | newEnvironment id m =>
    obtain ⟨hfree, hvalues⟩ := hnew id m rfl
    have henvs : (d.project.environments.map fun e =>
        (⟨e.1, e.2, decide (e.1 = id) || d.keys e.1⟩ : KnownEnvironment)) =
        d.project.environments.map fun e => ⟨e.1, e.2, d.keys e.1⟩ := by
      refine List.map_congr_left fun e he => ?_
      have hid : e.1 ≠ id := fun hid => hfree (List.mem_map.mpr ⟨e, he, hid⟩)
      rw [decide_eq_false hid, Bool.false_or]
    have hsecrets : (d.project.secrets.map fun s => (⟨s.id, s.metadata, fun env =>
        if decide (env = id) || d.keys env then s.values env else none⟩ : KnownSecret V)) =
        d.project.secrets.map fun s =>
          ⟨s.id, s.metadata, fun env => if d.keys env then s.values env else none⟩ := by
      refine List.map_congr_left fun s hs => ?_
      congr 1
      funext env
      by_cases hid : env = id
      · simp [hid, hvalues s hs]
      · simp [hid]
    simp only [known, write, StoredProject.write, dif_pos hfree, StoredProject.addEnvironment,
      StoredProject.state, ProjectState.apply, List.map_append, henvs, hsecrets]
    simp
  | environment id m =>
    simp only [known, write, StoredProject.write, StoredProject.setMetas, StoredProject.state,
      ProjectState.apply, List.map_map]
    congr 1
    refine List.map_congr_left fun e _ => ?_
    by_cases hid : e.1 = id <;> simp [hid]
  | dropEnvironment id =>
    simp only [known, write, StoredProject.write, StoredProject.removeEnvironment,
      StoredProject.state, ProjectState.apply, List.map_map, List.filter_map]
    congr 1
    refine List.map_congr_left fun s _ => ?_
    rw [Function.comp_apply, Function.comp_apply]
    congr 1
    funext env
    by_cases hid : env = id <;> simp [hid]
  | dropSecret id =>
    simp only [known, write, StoredProject.write, StoredProject.removeSecrets,
      StoredProject.state, ProjectState.apply, List.filter_map]
    congr 2
    refine List.filter_congr fun s _ => ?_
    by_cases hid : s.id = id <;> simp [hid]

section Writes

variable {d : Device V} {envId : RecordId} {env : KnownEnvironment}

/-- Where a deleted environment's heirs fall back to. -/
def repointed (env : KnownEnvironment) (heirs : List KnownEnvironment)
    (e : RecordId × EnvironmentMeta) : EnvironmentMeta :=
  match heirs.find? fun heir => heir.id = e.1 with
  | some heir => ProjectState.heirMeta env heir
  | none => e.2

/-- The first writes of a deletion. -/
theorem foldl_heirs (env : KnownEnvironment) {heirs : List KnownEnvironment}
    (hnodup : (heirs.map KnownEnvironment.id).Nodup) (d : Device V) :
    (heirs.map fun heir => Write.environment heir.id (ProjectState.heirMeta env heir)).foldl
      Device.write d = { d with project := d.project.setMetas (repointed env heirs) } := by
  induction heirs generalizing d with
  | nil =>
    have hsame : d.project.environments.map (fun e => (e.1, repointed env [] e)) =
        d.project.environments := by
      conv_rhs => rw [← List.map_id d.project.environments]
      rfl
    simp only [List.map_nil, List.foldl_nil, StoredProject.setMetas, hsame]
  | cons heir heirs ih =>
    obtain ⟨hnot, hnodup⟩ := List.nodup_cons.mp hnodup
    rw [List.map_cons, List.foldl_cons, ih hnodup]
    have hsame : ∀ e : RecordId × EnvironmentMeta,
        repointed env heirs
          (e.1, if e.1 = heir.id then ProjectState.heirMeta env heir else e.2) =
        repointed env (heir :: heirs) e := by
      intro e
      by_cases hid : e.1 = heir.id
      · have hnone : (heirs.find? fun h => h.id = e.1) = none := by
          rw [List.find?_eq_none]
          intro h hh heq
          refine hnot (List.mem_map.mpr ⟨h, hh, ?_⟩)
          rw [← hid]
          simpa using heq
        simp [repointed, hid ▸ hnone, hid]
      · simp [repointed, hid, Ne.symm hid]
    simp only [Device.write, StoredProject.write, StoredProject.setMetas, List.map_map,
      Function.comp_def, hsame]

/-- The last writes of a deletion. -/
theorem foldl_dropSecret (secrets : List RecordId) (d : Device V) :
    (secrets.map Write.dropSecret).foldl Device.write d =
      { d with project := d.project.removeSecrets fun s => secrets.contains s } := by
  induction secrets generalizing d with
  | nil => simp [StoredProject.removeSecrets]
  | cons id secrets ih =>
    rw [List.map_cons, List.foldl_cons, ih]
    simp only [Device.write, StoredProject.write, StoredProject.removeSecrets, List.filter_filter]
    congr 2
    refine List.filter_congr fun s _ => ?_
    by_cases hid : s.id = id <;> simp [hid]

/-- The environments that fall back to one. -/
def Device.heirs (d : Device V) (envId : RecordId) : List KnownEnvironment :=
  d.known.environments.filter fun e => e.metadata.inheritsFrom = some envId

theorem Device.mem_known {e : KnownEnvironment} : e ∈ d.known.environments ↔
    (e.id, e.metadata) ∈ d.project.environments ∧ e.unlocked = d.keys e.id := by
  rw [Device.known, StoredProject.state, List.mem_map]
  constructor
  · rintro ⟨e, he, rfl⟩
    exact ⟨he, rfl⟩
  · rintro ⟨he, hkey⟩
    exact ⟨_, he, by rw [← hkey]⟩

theorem Device.nodup_known (d : Device V) :
    (d.known.environments.map KnownEnvironment.id).Nodup := by
  rw [Device.known, StoredProject.state, List.map_map]
  exact d.project.nodup_environments

theorem Device.known_environment : d.known.environment envId = some env ↔
    env ∈ d.known.environments ∧ env.id = envId :=
  find?_key_eq_some d.nodup_known

theorem Device.environment_inheritsFrom (henv : d.known.environment envId = some env) :
    env.metadata.inheritsFrom = d.project.inheritsFrom envId := by
  rw [← StoredProject.known_inheritsFrom d.owner d.keys, ProjectState.inheritsFrom]
  change _ = (d.known.environment envId).bind _
  rw [henv]
  rfl

/-- An heir falls back to where the deleted environment did. -/
theorem repointed_cases (env : KnownEnvironment) {heirs : List KnownEnvironment}
    (hsub : ∀ h ∈ heirs, h ∈ d.heirs envId)
    {a : RecordId} {m : EnvironmentMeta} (hm : (a, m) ∈ d.project.environments) :
    ((∃ h ∈ heirs, h.id = a) ∧ m.inheritsFrom = some envId ∧
      (repointed env heirs (a, m)).inheritsFrom =
        if env.metadata.inheritsFrom = some a then none else env.metadata.inheritsFrom) ∨
    (∀ h ∈ heirs, h.id ≠ a) ∧ repointed env heirs (a, m) = m := by
  cases hfind : heirs.find? fun heir => heir.id = a with
  | none =>
    refine Or.inr ⟨fun h hh => by simpa using List.find?_eq_none.mp hfind h hh, ?_⟩
    rw [repointed, hfind]
  | some heir =>
    have hmem := List.mem_of_find?_eq_some hfind
    have hid : heir.id = a := by simpa using List.find?_some hfind
    obtain ⟨hknown, hheir⟩ := List.mem_filter.mp (hsub heir hmem)
    have hsame : heir.metadata = m := by
      have hpair := List.inj_on_of_nodup_map d.project.nodup_environments
        (Device.mem_known.mp hknown).1 hm hid
      exact congrArg Prod.snd hpair
    refine Or.inl ⟨⟨heir, hmem, hid⟩, ?_, ?_⟩
    · rw [← hsame]
      simpa using hheir
    · rw [repointed, hfind]
      simp only [ProjectState.heirMeta, hid]

/-- Heirs that are already repointed skip the environment that goes. -/
theorem inheritsFrom_repointed {heirs : List KnownEnvironment}
    (henv : d.known.environment envId = some env) (hsub : ∀ h ∈ heirs, h ∈ d.heirs envId)
    {a b : RecordId} (h : (d.project.setMetas (repointed env heirs)).inheritsFrom a = some b) :
    d.project.inheritsFrom a = some b ∨
      d.project.inheritsFrom a = some envId ∧ d.project.inheritsFrom envId = some b := by
  obtain ⟨m, hm, hb⟩ := StoredProject.inheritsFrom_setMetas.mp h
  rcases repointed_cases env hsub hm with ⟨-, hheir, hto⟩ | ⟨-, hsame⟩
  · rw [hto, Device.environment_inheritsFrom henv] at hb
    split at hb
    · cases hb
    · exact Or.inr ⟨StoredProject.inheritsFrom_eq_some.mpr ⟨m, hm, hheir⟩, hb⟩
  · rw [hsame] at hb
    exact Or.inl (StoredProject.inheritsFrom_eq_some.mpr ⟨m, hm, hb⟩)

/-- The project once an environment is deleted. -/
theorem Device.deleteEnvironment_project (henv : d.known.environment envId = some env) :
    d.deleteEnvironment envId = { d with
      project := ((d.project.setMetas (repointed env (d.heirs envId))).removeEnvironment envId
        ).removeSecrets fun s => (d.known.orphanedBy envId).contains s } := by
  have hnodup : ((d.heirs envId).map KnownEnvironment.id).Nodup :=
    d.nodup_known.sublist (List.filter_sublist.map _)
  rw [Device.deleteEnvironment, ProjectState.deleteEnvironment, henv]
  dsimp only
  rw [List.foldl_append, List.foldl_cons]
  change ((d.known.orphanedBy envId).map Write.dropSecret).foldl Device.write
    (Device.write (((d.heirs envId).map _).foldl Device.write d) _) = _
  rw [foldl_heirs env hnodup, foldl_dropSecret]
  rfl

/-- Once all heirs are repointed none falls back to the environment that goes. -/
theorem inheritsFrom_removed (henv : d.known.environment envId = some env)
    (hacyclic : d.project.Acyclic) {a b : RecordId} :
    ((d.project.setMetas (repointed env (d.heirs envId))).removeEnvironment envId).inheritsFrom a =
        some b ↔ a ≠ envId ∧
      if d.project.inheritsFrom a = some envId then d.project.inheritsFrom envId = some b
      else d.project.inheritsFrom a = some b := by
  rw [StoredProject.inheritsFrom_removeEnvironment]
  refine and_congr_right fun hne => ?_
  have hsub : ∀ h ∈ d.heirs envId, h ∈ d.heirs envId := fun _ h => h
  constructor
  · intro hb
    obtain ⟨m, hm, hb⟩ := StoredProject.inheritsFrom_setMetas.mp hb
    rcases repointed_cases env hsub hm with ⟨-, hheir, hto⟩ | ⟨hnone, hsame⟩
    · rw [if_pos (StoredProject.inheritsFrom_eq_some.mpr ⟨m, hm, hheir⟩)]
      rw [hto, Device.environment_inheritsFrom henv] at hb
      split at hb
      · cases hb
      · exact hb
    · rw [hsame] at hb
      have hfrom := StoredProject.inheritsFrom_eq_some.mpr ⟨m, hm, hb⟩
      rw [if_neg, hfrom]
      rw [hfrom]
      intro hheir
      refine hnone ⟨a, m, d.keys a⟩ (List.mem_filter.mpr ⟨Device.mem_known.mpr ⟨hm, rfl⟩, ?_⟩) rfl
      rw [decide_eq_true_iff, hb, hheir]
  · intro hb
    rw [StoredProject.inheritsFrom_setMetas]
    by_cases hheir : d.project.inheritsFrom a = some envId
    · rw [if_pos hheir] at hb
      obtain ⟨m, hm, hfrom⟩ := StoredProject.inheritsFrom_eq_some.mp hheir
      refine ⟨m, hm, ?_⟩
      rcases repointed_cases env hsub hm with ⟨-, -, hto⟩ | ⟨hnone, -⟩
      · rw [hto, Device.environment_inheritsFrom henv, if_neg, hb]
        intro hback
        exact hacyclic envId (.tail (.single hback) hheir)
      · refine absurd rfl (hnone ⟨a, m, d.keys a⟩ (List.mem_filter.mpr ⟨?_, ?_⟩))
        · exact Device.mem_known.mpr ⟨hm, rfl⟩
        · rw [decide_eq_true_iff, hfrom]
    · rw [if_neg hheir] at hb
      obtain ⟨m, hm, hfrom⟩ := StoredProject.inheritsFrom_eq_some.mp hb
      refine ⟨m, hm, ?_⟩
      rcases repointed_cases env hsub hm with ⟨-, hheir', -⟩ | ⟨-, hsame⟩
      · exact absurd (StoredProject.inheritsFrom_eq_some.mpr ⟨m, hm, hheir'⟩) hheir
      · rw [hsame, hfrom]

theorem Device.environment_of_mem (h : envId ∈ d.project.environments.map Prod.fst) :
    ∃ env, d.known.environment envId = some env := by
  obtain ⟨⟨_, m⟩, hm, rfl⟩ := List.mem_map.mp h
  exact ⟨⟨_, m, d.keys _⟩, Device.known_environment.mpr ⟨Device.mem_known.mpr ⟨hm, rfl⟩, rfl⟩⟩

/-- A secret that stays loses the value of the environment, and no other. -/
theorem Device.values_deleted (henv : d.known.environment envId = some env)
    {s s' : StoredSecret V} (hs : s ∈ d.project.secrets)
    (hs' : s' ∈ (d.deleteEnvironment envId).project.secrets) (hid : s'.id = s.id)
    (id : RecordId) : s'.values id = if id = envId then none else s.values id := by
  rw [Device.deleteEnvironment_project henv] at hs'
  obtain ⟨hs', -⟩ := List.mem_filter.mp hs'
  obtain ⟨s₀, hs₀, rfl⟩ := List.mem_map.mp hs'
  rw [List.inj_on_of_nodup_map d.project.nodup_secrets hs₀ hs hid]

/-- An environment is deleted with a secret only if no other one has a value of it. -/
theorem Device.orphan_of_deleted (henv : d.known.environment envId = some env)
    {s : StoredSecret V} (hs : s ∈ d.project.secrets)
    (hgone : ∀ s' ∈ (d.deleteEnvironment envId).project.secrets, s'.id ≠ s.id)
    {e : RecordId × EnvironmentMeta} (he : e ∈ d.project.environments) (hne : e.1 ≠ envId) :
    s.values e.1 = none := by
  have horphan : s.id ∈ d.known.orphanedBy envId := by
    by_contra hkept
    rw [Device.deleteEnvironment_project henv] at hgone
    refine hgone { s with values := fun id => if id = envId then none else s.values id }
      (List.mem_filter.mpr ⟨List.mem_map.mpr ⟨s, hs, rfl⟩, ?_⟩) rfl
    simpa using hkept
  have hother : (⟨e.1, e.2, d.keys e.1⟩ : KnownEnvironment) ∈
      d.known.environments.filter fun e => e.id ≠ envId :=
    List.mem_filter.mpr ⟨Device.mem_known.mpr ⟨he, rfl⟩, by simpa using hne⟩
  rw [ProjectState.orphanedBy] at horphan
  split at horphan
  · cases horphan
  · rename_i hlocked
    have hkey : d.keys e.1 = true := by
      by_contra hkey
      exact hlocked (List.any_eq_true.mpr ⟨_, hother, by simpa using hkey⟩)
    obtain ⟨known, hknown, hid⟩ := List.mem_map.mp horphan
    obtain ⟨hknown, hempty⟩ := List.mem_filter.mp hknown
    obtain ⟨s₀, hs₀, rfl⟩ := List.mem_map.mp hknown
    obtain rfl := List.inj_on_of_nodup_map d.project.nodup_secrets hs₀ hs hid
    have hnone := List.all_eq_true.mp (Bool.and_eq_true_iff.mp hempty).2 _ hother
    simpa [hkey] using hnone

/-- Whoever looks, a value is taken from where it was, unless that is the environment that went:
then from the next source further along the chain of that. -/
theorem Device.valueSource_deleted (henv : d.known.environment envId = some env)
    (hacyclic : d.project.Acyclic) (localeLE : String → String → Bool) (owner : Bool)
    (keys : RecordId → Bool) {s s' : StoredSecret V} (hs : s ∈ d.project.secrets)
    (hs' : s' ∈ (d.deleteEnvironment envId).project.secrets) (hid : s'.id = s.id)
    {id : RecordId} (hne : id ≠ envId) :
    let before := valueSource (d.project.seen localeLE owner keys)
      (d.project.seenSecret localeLE owner keys s)
    let after := (d.deleteEnvironment envId).project
    valueSource (after.seen localeLE owner keys) (after.seenSecret localeLE owner keys s') id =
      if before id = some envId then (d.project.inheritsFrom envId).bind before else before id := by
  intro before after
  have hnext : ∀ p : StoredProject V, inherited (p.seen localeLE owner keys).environments =
      p.inheritsFrom := fun p => funext (p.inherited_seen localeLE owner keys)
  have hlength : ∀ p : StoredProject V, (p.environments.map Prod.fst).length + 2 =
      walkSteps (p.seen localeLE owner keys).environments := by
    intro p
    simp [walkSteps, StoredProject.seen, ProjectState.project, StoredProject.state]
  have hafter : after.inheritsFrom = ((d.project.setMetas (repointed env (d.heirs envId))
      ).removeEnvironment envId).inheritsFrom := by
    change (d.deleteEnvironment envId).project.inheritsFrom = _
    rw [Device.deleteEnvironment_project henv]
    rfl
  have hbypass : Bypasses d.project.inheritsFrom
      (fun id => ((d.project.seenSecret localeLE owner keys s).values id).isSome) envId
      after.inheritsFrom
      (fun id => ((after.seenSecret localeLE owner keys s').values id).isSome) := by
    refine ⟨fun a ha hheir => ?_, fun a ha hother => ?_, fun a ha => ?_⟩
    · ext b
      rw [hafter, inheritsFrom_removed henv hacyclic, if_pos hheir, and_iff_right ha]
    · ext b
      rw [hafter, inheritsFrom_removed henv hacyclic, if_neg hother, and_iff_right ha]
    · have hvalue := d.values_deleted henv hs hs' hid a
      rw [if_neg ha] at hvalue
      simp only [StoredProject.seenSecret, ProjectState.viewSecret, hvalue]
  have hacyclic' : Acyclic after.inheritsFrom := by
    refine hbypass.acyclic (fun b hb => ?_) hacyclic
    rw [hafter] at hb
    exact absurd rfl ((inheritsFrom_removed henv hacyclic).mp hb).1
  have hsearch := hbypass.search_eq hacyclic hacyclic'
    (fun a ha => StoredProject.isSome_inheritsFrom ha)
    (fun a ha => StoredProject.isSome_inheritsFrom ha) (hlength d.project).le (hlength after).le hne
  rw [valueSource, hnext, hsearch]
  simp only [before, valueSource, hnext]

/-- How far a deletion gets: some heirs are repointed, or all are and the environment is gone. -/
theorem Device.serve_delete (fold : Char → List Char) (henv : d.known.environment envId = some env)
    (completed : ℕ) :
    (∃ heirs, (∀ h ∈ heirs, h ∈ d.heirs envId) ∧
      (d.serve fold (.delete envId) completed).project =
        d.project.setMetas (repointed env heirs)) ∨
    ∃ gone, (d.serve fold (.delete envId) completed).project =
      ((d.project.setMetas (repointed env (d.heirs envId))).removeEnvironment envId
        ).removeSecrets gone := by
  have hnodup : ((d.heirs envId).map KnownEnvironment.id).Nodup :=
    d.nodup_known.sublist (List.filter_sublist.map _)
  have hserve : d.serve fold (.delete envId) completed =
      (((d.heirs envId).map (fun heir =>
          Write.environment heir.id (ProjectState.heirMeta env heir)) ++
        Write.dropEnvironment envId :: (d.known.orphanedBy envId).map Write.dropSecret).take
          completed).foldl Device.write d := by
    rw [Device.serve, EnvironmentCall.writes, ProjectState.deleteEnvironment, henv]
    rfl
  rw [hserve, List.take_append, List.length_map, List.foldl_append, ← List.map_take,
    foldl_heirs env (hnodup.sublist ((List.take_sublist _ _).map _))]
  cases hrest : completed - (d.heirs envId).length with
  | zero => exact Or.inl ⟨_, fun h hh => List.mem_of_mem_take hh, rfl⟩
  | succ rest =>
    rw [List.take_of_length_le (by omega), List.take_succ_cons, List.foldl_cons, ← List.map_take,
      foldl_dropSecret]
    exact Or.inr ⟨_, rfl⟩

end Writes

section Kept

variable {fold : Char → List Char} {d : Device V}

theorem StoredProject.inheritsFrom_addEnvironment {p : StoredProject V} {id a b : RecordId}
    {m : EnvironmentMeta} (hnew : id ∉ p.environments.map Prod.fst) :
    (p.addEnvironment id m hnew).inheritsFrom a = some b ↔
      a ≠ id ∧ p.inheritsFrom a = some b ∨ a = id ∧ m.inheritsFrom = some b := by
  rw [inheritsFrom_eq_some, inheritsFrom_eq_some, addEnvironment]
  simp only [List.mem_append, List.mem_singleton, Prod.mk.injEq]
  constructor
  · rintro ⟨m', hm | ⟨rfl, rfl⟩, hb⟩
    · exact Or.inl ⟨fun hid => hnew (List.mem_map.mpr ⟨_, hm, hid⟩), m', hm, hb⟩
    · exact Or.inr ⟨rfl, hb⟩
  · rintro (⟨-, m', hm, hb⟩ | ⟨rfl, hb⟩)
    · exact ⟨m', Or.inl hm, hb⟩
    · exact ⟨m, Or.inr ⟨rfl, rfl⟩, hb⟩

/-- What is known to be there is. -/
theorem Device.mem_of_known {id : RecordId} (h : (d.known.environment id).isNone = false) :
    id ∈ d.project.environments.map Prod.fst := by
  cases hknown : d.known.environment id with
  | none => simp [hknown] at h
  | some e =>
    obtain ⟨hmem, rfl⟩ := Device.known_environment.mp hknown
    exact List.mem_map.mpr ⟨_, (Device.mem_known.mp hmem).1, rfl⟩

/-- What a call of a client does to the project. -/
inductive Changed (p : StoredProject V) : StoredProject V → Prop
  | same : Changed p p
  | added {id : RecordId} {m : EnvironmentMeta} (hnew : id ∉ p.environments.map Prod.fst)
      (hunused : ∀ a, p.inheritsFrom a ≠ some id)
      (hsource : ∀ b, m.inheritsFrom = some b → b ∈ p.environments.map Prod.fst) :
      Changed p (p.addEnvironment id m hnew)
  | updated {id : RecordId} {m : EnvironmentMeta}
      (hback : ∀ b, m.inheritsFrom = some b → ¬ ReflTransGen (Step p.inheritsFrom) b id)
      (hsource : ∀ b, m.inheritsFrom = some b → b ∈ p.environments.map Prod.fst) :
      Changed p (p.setMetas fun e => if e.1 = id then m else e.2)
  | repointed {id : RecordId} {f : RecordId × EnvironmentMeta → EnvironmentMeta}
      (hskip : ∀ a b, (p.setMetas f).inheritsFrom a = some b →
        p.inheritsFrom a = some b ∨ p.inheritsFrom a = some id ∧ p.inheritsFrom id = some b) :
      Changed p (p.setMetas f)
  | deleted {id : RecordId} {f : RecordId × EnvironmentMeta → EnvironmentMeta}
      {gone : RecordId → Bool}
      (hskip : ∀ a b, ((p.setMetas f).removeEnvironment id).inheritsFrom a = some b →
        if p.inheritsFrom a = some id then p.inheritsFrom id = some b
        else p.inheritsFrom a = some b) :
      Changed p (((p.setMetas f).removeEnvironment id).removeSecrets gone)

theorem Changed.acyclic {p p' : StoredProject V} (h : Changed p p') (hacyclic : p.Acyclic) :
    p'.Acyclic := by
  cases h with
  | same => exact hacyclic
  | @added id m hnew hunused hsource =>
    refine Walks.Acyclic.redirect (d := id) hacyclic (fun a ha => ?_) fun b hb hback => ?_
    · ext b
      rw [StoredProject.inheritsFrom_addEnvironment hnew, and_iff_right ha, or_iff_left]
      exact fun h => ha h.1
    · rcases (StoredProject.inheritsFrom_addEnvironment hnew).mp hb with ⟨hid, -⟩ | ⟨-, hfrom⟩
      · exact hid rfl
      · rcases ReflTransGen.cases_tail hback with heq | ⟨a, -, ha⟩
        · exact hnew (heq ▸ hsource b hfrom)
        · exact hunused a ha
  | @updated id m hback =>
    refine Walks.Acyclic.redirect (d := id) hacyclic (fun a ha => ?_) fun b hb => ?_
    · ext b
      rw [StoredProject.inheritsFrom_setMetas, StoredProject.inheritsFrom_eq_some]
      simp only [if_neg ha]
    · obtain ⟨m', -, hfrom⟩ := StoredProject.inheritsFrom_setMetas.mp hb
      rw [if_pos rfl] at hfrom
      exact hback b hfrom
  | repointed hskip =>
    refine hacyclic.of_transGen fun a b hab => ?_
    rcases hskip a b hab with hold | ⟨hto, hfrom⟩
    · exact .single hold
    · exact .tail (.single hto) hfrom
  | deleted hskip =>
    refine hacyclic.of_transGen fun a b hab => ?_
    have hold := hskip a b hab
    split at hold
    · rename_i hto
      exact .tail (.single hto) hold
    · exact .single hold

theorem Changed.noneDangling {p p' : StoredProject V} (h : Changed p p') (hacyclic : p.Acyclic)
    (hnone : p.NoneDangling) : p'.NoneDangling := by
  have hmetas : ∀ f b, b ∈ p.environments.map Prod.fst →
      b ∈ (p.setMetas f).environments.map Prod.fst := by
    intro f b hb
    rw [StoredProject.setMetas, List.map_map]
    exact hb
  cases h with
  | same => exact hnone
  | @added id m hnew hunused hsource =>
    intro a b hab
    rw [StoredProject.addEnvironment, List.map_append]
    refine List.mem_append_left _ ?_
    rcases (StoredProject.inheritsFrom_addEnvironment hnew).mp hab with ⟨-, hold⟩ | ⟨-, hfrom⟩
    · exact hnone a b hold
    · exact hsource b hfrom
  | @updated id m _ hsource =>
    intro a b hab
    refine hmetas _ b ?_
    obtain ⟨m', hm, hfrom⟩ := StoredProject.inheritsFrom_setMetas.mp hab
    split at hfrom
    · exact hsource b hfrom
    · exact hnone a b (StoredProject.inheritsFrom_eq_some.mpr ⟨m', hm, hfrom⟩)
  | repointed hskip =>
    intro a b hab
    refine hmetas _ b ?_
    rcases hskip a b hab with hold | ⟨-, hfrom⟩
    · exact hnone a b hold
    · exact hnone _ b hfrom
  | @deleted id f gone hskip =>
    intro a b hab
    have hold := hskip a b hab
    have hleft : b ≠ id ∧ b ∈ p.environments.map Prod.fst := by
      split at hold
      · exact ⟨fun hid => hacyclic id (.single (hid ▸ hold)), hnone _ b hold⟩
      · rename_i hto
        exact ⟨fun hid => hto (hid ▸ hold), hnone a b hold⟩
    obtain ⟨hne, hb⟩ := hleft
    obtain ⟨e, he, rfl⟩ := List.mem_map.mp hb
    refine List.mem_map.mpr ⟨(e.1, f e), List.mem_filter.mpr ⟨?_, by simpa using hne⟩, rfl⟩
    exact List.mem_map.mpr ⟨e, he, rfl⟩

theorem ProjectState.createEnvironment_ok {s : ProjectState V} {draft : EnvironmentDraft}
    {id : RecordId} {writes : List Write} (h : s.createEnvironment fold draft id = .ok writes) :
    ∃ m, writes = [.newEnvironment id m] ∧
      ∀ b, m.inheritsFrom = some b → (s.environment b).isNone = false := by
  unfold createEnvironment at h
  dsimp only at h
  split at h
  · cases h
  · rename_i m _
    split at h
    · cases h
    · rename_i hsource
      cases h
      refine ⟨m, rfl, fun b hb => ?_⟩
      rw [hb, Option.any_some, Bool.not_eq_true] at hsource
      exact hsource

theorem ProjectState.updateEnvironment_ok {s : ProjectState V} {changes : EnvironmentChanges}
    {id : RecordId} {writes : List Write} (h : s.updateEnvironment id changes = .ok writes) :
    ∃ m, writes = [.environment id m] ∧
      comesTo s.inheritsFrom id (s.environments.length + 2) [] m.inheritsFrom = false ∧
      ∀ b, m.inheritsFrom = some b → (s.environment b).isNone = false := by
  unfold updateEnvironment at h
  split at h
  · cases h
  · dsimp only at h
    split at h
    · cases h
    · split at h
      · cases h
      · split at h
        · cases h
        · rename_i hloop
          split at h
          · cases h
          · rename_i hsource
            split at h
            · cases h
              refine ⟨_, rfl, by simpa using hloop, fun b hb => ?_⟩
              dsimp only at hb
              rw [hb, Option.any_some, Bool.not_eq_true] at hsource
              exact hsource
            · cases h

/-- A call changes the project in one of these ways, wherever it is cut short. -/
theorem Device.serve_changed (fold : Char → List Char) {call : EnvironmentCall}
    (hacyclic : d.project.Acyclic)
    (hfresh : call.Fresh d.project) (completed : ℕ) :
    Changed d.project (d.serve fold call completed).project := by
  cases call with
  | create draft id =>
    rw [serve, EnvironmentCall.writes]
    cases hwrites : d.known.createEnvironment fold draft id with
    | error e => exact .same
    | ok writes =>
      obtain ⟨m, rfl, hsource⟩ := ProjectState.createEnvironment_ok hwrites
      cases completed with
      | zero => exact .same
      | succ completed =>
        have hnew : id ∉ d.project.environments.map Prod.fst := by
          intro hid
          obtain ⟨e, he, heq⟩ := List.mem_map.mp hid
          exact (hfresh e he).1 heq
        change Changed d.project ((([] : List Write).take completed).foldl write
          (d.write (.newEnvironment id m))).project
        rw [List.take_nil, List.foldl_nil, write, StoredProject.write, dif_pos hnew]
        refine .added hnew (fun a ha => ?_) fun b hb => d.mem_of_known (hsource b hb)
        obtain ⟨m', hm, hfrom⟩ := StoredProject.inheritsFrom_eq_some.mp ha
        exact (hfresh _ hm).2 hfrom
  | update envId changes =>
    rw [serve, EnvironmentCall.writes]
    cases hwrites : d.known.updateEnvironment envId changes with
    | error e => exact .same
    | ok writes =>
      obtain ⟨m, rfl, hloop, hsource⟩ := ProjectState.updateEnvironment_ok hwrites
      cases completed with
      | zero => exact .same
      | succ completed =>
        change Changed d.project ((([] : List Write).take completed).foldl write
          (d.write (.environment envId m))).project
        rw [List.take_nil, List.foldl_nil]
        refine .updated (fun b hb => ?_) fun b hb => d.mem_of_known (hsource b hb)
        have hknown : d.known.inheritsFrom = d.project.inheritsFrom :=
          funext (StoredProject.known_inheritsFrom d.owner d.keys)
        rw [hb, hknown] at hloop
        refine not_reaches_of_comesTo (fun a ha => StoredProject.isSome_inheritsFrom ha)
          List.nodup_nil (List.nil_subset _) ?_ hloop
        simp [known, StoredProject.state]
  | delete envId =>
    cases henv : d.known.environment envId with
    | none =>
      rw [serve, EnvironmentCall.writes, ProjectState.deleteEnvironment, henv]
      change Changed d.project ((([] : List Write).take completed).foldl write d).project
      rw [List.take_nil]
      exact .same
    | some env =>
      rcases d.serve_delete fold henv completed with ⟨heirs, hsub, hproject⟩ | ⟨gone, hproject⟩
      · rw [hproject]
        exact .repointed fun a b => inheritsFrom_repointed henv hsub
      · rw [hproject]
        exact .deleted fun a b hab => ((inheritsFrom_removed henv hacyclic).mp hab).2

/-- One client's next call. -/
def Device.Next (fold : Char → List Char) (d d' : Device V) : Prop :=
  ∃ (call : EnvironmentCall) (completed : ℕ), call.Fresh d.project ∧
    d' = d.serve fold call completed

theorem Device.inheritance_kept {d d' : Device V} (hrun : ReflTransGen (Device.Next fold) d d')
    (hacyclic : d.project.Acyclic) :
    d'.project.Acyclic ∧ (d.project.NoneDangling → d'.project.NoneDangling) := by
  induction hrun with
  | refl => exact ⟨hacyclic, id⟩
  | tail _ hnext ih =>
    obtain ⟨call, completed, hfresh, rfl⟩ := hnext
    obtain ⟨hold, hnone⟩ := ih
    have hchanged := serve_changed fold hold hfresh completed
    exact ⟨hchanged.acyclic hold, fun h => hchanged.noneDangling hold (hnone h)⟩

/-- One client's calls keep the fallbacks acyclic and among environments that exist. A deletion
keeps every source of a value, but what was taken from the deleted environment is taken from
further along its chain, and drops a secret only if no other environment has a value of it. -/
theorem fallbacks_kept {d d' : Device V} (hrun : ReflTransGen (Device.Next fold) d d')
    (hacyclic : d.project.Acyclic) :
    d'.project.Acyclic ∧ (d.project.NoneDangling → d'.project.NoneDangling) ∧
    ∀ envId ∈ d'.project.environments.map Prod.fst,
      let after := (d'.deleteEnvironment envId).project
      ∀ s ∈ d'.project.secrets,
        (∀ s' ∈ after.secrets, s'.id = s.id →
          ∀ (localeLE : String → String → Bool) (owner : Bool) (keys : RecordId → Bool) (id),
          id ≠ envId →
            let before := valueSource (d'.project.seen localeLE owner keys)
              (d'.project.seenSecret localeLE owner keys s)
            valueSource (after.seen localeLE owner keys)
                (after.seenSecret localeLE owner keys s') id =
              if before id = some envId then (d'.project.inheritsFrom envId).bind before
              else before id) ∧
        ((∀ s' ∈ after.secrets, s'.id ≠ s.id) →
          ∀ e ∈ d'.project.environments, e.1 ≠ envId → s.values e.1 = none) := by
  obtain ⟨hacyclic', hnone⟩ := Device.inheritance_kept hrun hacyclic
  refine ⟨hacyclic', hnone, fun envId hmem s hs => ?_⟩
  obtain ⟨env, henv⟩ := Device.environment_of_mem hmem
  exact ⟨fun s' hs' hid localeLE owner keys id hne =>
      Device.valueSource_deleted henv hacyclic' localeLE owner keys hs hs' hid hne,
    fun hgone e he hne => Device.orphan_of_deleted henv hs hgone he hne⟩

end Kept

/-- The owner's client of the shop. -/
def shopDevice : Device String := ⟨shopProject databaseSecret, true, fun _ => true⟩

theorem shopDevice_inheritsFrom {a b : RecordId} :
    shopDevice.project.inheritsFrom a = some b ↔ a = 3 ∧ b = 2 ∨ a = 2 ∧ b = 1 := by
  rw [StoredProject.inheritsFrom_eq_some]
  simp only [shopDevice, shopProject, List.mem_cons, List.not_mem_nil, or_false, Prod.mk.injEq]
  constructor
  · rintro ⟨m, ⟨rfl, rfl⟩ | ⟨rfl, rfl⟩ | ⟨rfl, rfl⟩, hb⟩
    · exact Or.inl ⟨rfl, (Option.some.inj hb).symm⟩
    · exact Or.inr ⟨rfl, (Option.some.inj hb).symm⟩
    · cases hb
  · rintro (⟨rfl, rfl⟩ | ⟨rfl, rfl⟩)
    · exact ⟨_, Or.inl ⟨rfl, rfl⟩, rfl⟩
    · exact ⟨_, Or.inr (Or.inl ⟨rfl, rfl⟩), rfl⟩

theorem shopDevice_acyclic : shopDevice.project.Acyclic := by
  -- every fallback has a smaller id
  have hless : ∀ {a b : RecordId}, TransGen (Step shopDevice.project.inheritsFrom) a b → b < a := by
    intro a b hab
    have hstep : ∀ {a b : RecordId}, shopDevice.project.inheritsFrom a = some b → b < a := by
      intro a b hab
      rcases shopDevice_inheritsFrom.mp hab with ⟨rfl, rfl⟩ | ⟨rfl, rfl⟩ <;> decide
    induction hab with
    | single hab => exact hstep hab
    | tail _ hbc ih => exact (hstep hbc).trans ih
  exact fun a ha => lt_irrefl a (hless ha)

/-- Staging is deleted: development falls back to production. -/
theorem fallbacks_kept_shop :
    let d := shopDevice.serve (fun c => [c]) (.delete 2) 5
    shopDevice.project.Acyclic ∧ d.project.Acyclic ∧
      (shopDevice.project.NoneDangling → d.project.NoneDangling) := by
  intro d
  have hrun : ReflTransGen (Device.Next fun c => [c]) shopDevice d :=
    .single ⟨.delete 2, 5, trivial, rfl⟩
  obtain ⟨hacyclic, hnone, -⟩ := fallbacks_kept hrun shopDevice_acyclic
  exact ⟨shopDevice_acyclic, hacyclic, hnone⟩

end Zvault.ProjectSync
