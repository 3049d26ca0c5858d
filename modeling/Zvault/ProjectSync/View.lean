import Mathlib.Data.List.Sort
import Zvault.ProjectSync.SecretPath
import Zvault.Walks.Follow

/-!
# Projects as the desktop app shows them

`projects/model.ts`, `projects/tokensModel.ts` and what reads through a fallback: the
screens, `zv`, a release of access requests and a push to a sync target. How a
locale sorts names is left open, and so is what a sealed value is.
-/

namespace Zvault.ProjectSync

open Walks

variable {V : Type}

structure Environment where
  id : RecordId
  name : String
  slug : String
  kind : EnvironmentKind
  position : ℕ
  inheritsFrom : Option RecordId
  locked : Bool
  sync : List SyncTarget
  deriving DecidableEq, Repr

structure Folder where
  id : RecordId
  name : String
  slug : String
  deriving DecidableEq, Repr

structure Project where
  id : RecordId
  slug : String
  name : String
  owner : Bool
  environments : List Environment
  folders : List Folder
  deriving DecidableEq, Repr

structure ProjectSecret (V : Type) where
  id : RecordId
  projectId : RecordId
  name : String
  key : String
  folder : Option Folder
  values : RecordId → Option V

/-- An environment of a `ProjectState`. -/
structure KnownEnvironment where
  id : RecordId
  metadata : EnvironmentMeta
  unlocked : Bool
  deriving DecidableEq, Repr

/-- A secret of a `ProjectState`. -/
structure KnownSecret (V : Type) where
  id : RecordId
  metadata : SecretMeta
  values : RecordId → Option V

/-- `ProjectState`, with the entries of a map in the order they were put in. -/
structure ProjectState (V : Type) where
  id : RecordId
  owner : Bool
  metadata : ProjectMeta
  environments : List KnownEnvironment
  folders : List (RecordId × FolderMeta)
  secrets : List (KnownSecret V)

def KnownEnvironment.view (e : KnownEnvironment) : Environment :=
  ⟨e.id, e.metadata.name, e.metadata.slug, e.metadata.kind, e.metadata.position,
    e.metadata.inheritsFrom, !e.unlocked, e.metadata.sync.getD []⟩

section View

variable (localeLE : String → String → Bool)

/-- The order of environments: by position, then by name. -/
def Environment.le (a b : Environment) : Bool :=
  if a.position = b.position then localeLE a.name b.name else decide (a.position ≤ b.position)

namespace ProjectState

variable (s : ProjectState V)

/-- The project that `toView` makes of a state. -/
def project : Project where
  id := s.id
  slug := s.metadata.slug
  name := s.metadata.name
  owner := s.owner
  environments := (s.environments.map KnownEnvironment.view).mergeSort (Environment.le localeLE)
  folders := (s.folders.map fun f => ⟨f.1, f.2.name, f.2.slug⟩).mergeSort fun a b =>
    localeLE a.name b.name

/-- A secret that `toView` makes of one of a state. -/
def viewSecret (secret : KnownSecret V) : ProjectSecret V where
  id := secret.id
  projectId := s.id
  name := secret.metadata.name
  key := secret.metadata.key
  folder := (s.project localeLE).folders.find? fun f => secret.metadata.folderId = some f.id
  values := secret.values

end ProjectState

structure ProjectsView (V : Type) where
  projects : List Project
  secrets : List (ProjectSecret V)

/-- `toView`. -/
def toView (states : List (ProjectState V)) : ProjectsView V where
  projects := (states.map (ProjectState.project localeLE)).mergeSort fun a b =>
    localeLE a.name b.name
  secrets := (states.flatMap fun s => s.secrets.map (s.viewSecret localeLE)).mergeSort fun a b =>
    localeLE a.name b.name

end View

/-- Where an environment takes the values from that it does not have. -/
def inherited (environments : List Environment) (id : RecordId) : Option RecordId :=
  (environments.find? (·.id = id)).bind (·.inheritsFrom)

/-- Steps enough for a walk through the fallbacks. -/
def walkSteps (environments : List Environment) : ℕ := environments.length + 2

/-- `valueSource`. -/
def valueSource (project : Project) (secret : ProjectSecret V) (envId : RecordId) :
    Option RecordId :=
  search (inherited project.environments) (fun id => (secret.values id).isSome)
    (walkSteps project.environments) [] (some envId)

/-- `tokenChain`. -/
def tokenChain (environments : List Environment) (environmentId : RecordId) : List RecordId :=
  gather (inherited environments)
    (fun id => (environments.find? (·.id = id)).any fun env => !env.locked)
    (walkSteps environments) [] (some environmentId)

/-- What the secret's screen opens in an environment: the environment that holds the value. -/
def shownSource (project : Project) (env : Environment) (secret : ProjectSecret V) :
    Option RecordId :=
  if env.locked then none else valueSource project secret env.id

/-- `SyncItem`. -/
structure SyncItem (V : Type) where
  name : String
  secretId : RecordId
  environmentId : RecordId
  encryptedValue : V

/-- `itemsFor`: what is pushed to an environment's targets. -/
def itemsFor (localeLE : String → String → Bool) (secrets : List (ProjectSecret V))
    (project : Project) (env : Environment) : List (SyncItem V) :=
  (secrets.filterMap fun secret => do
    guard (secret.projectId = project.id)
    let source ← valueSource project secret env.id
    let encryptedValue ← secret.values source
    return ⟨secret.key, secret.id, source, encryptedValue⟩).mergeSort fun a b =>
      localeLE a.name b.name

/-- `ReleaseItem`. -/
structure ReleaseItem (V : Type) where
  item : String
  secretId : RecordId
  environmentId : RecordId
  encryptedValue : V

/-- What one reference of a request releases. -/
def releaseItem (project : Project) (secrets : List (ProjectSecret V)) (envId : RecordId)
    (item : String) : Option (ReleaseItem V) := do
  let env ← project.environments.find? (·.id = envId)
  let path ← parseSecretPath item
  guard (path.project = project.slug ∧ path.environment = env.slug)
  let secret ← secrets.find? fun s =>
    s.projectId = project.id ∧ s.key = path.key ∧ s.folder.map (·.slug) = path.folder
  let source ← valueSource project secret envId
  let encryptedValue ← secret.values source
  return ⟨item, secret.id, source, encryptedValue⟩

/-- `releaseItems`: the values a request asks for, without the references that are missing. -/
def releaseItems (project : Project) (secrets : List (ProjectSecret V)) (envId : RecordId)
    (items : List String) : List (ReleaseItem V) :=
  items.filterMap (releaseItem project secrets envId)

/-- `ResolvedSecret`: where `zv` finds a secret, and its value. -/
structure ResolvedSecret (V : Type) where
  projectId : RecordId
  environmentId : RecordId
  secretId : Option RecordId
  folderId : Option RecordId
  encryptedValue : Option V
  valueEnvironmentId : Option RecordId

/-- The folder of a path, which is none at the top of the project. -/
def folderOf (project : Project) : Option String → Option (Option Folder)
  | none => some none
  | some slug => (project.folders.find? (·.slug = slug)).map some

/-- `find` of `bridge.ts`, on the projects once they are up to date. -/
def findSecret (view : ProjectsView V) (reference : String) : Option (ResolvedSecret V) := do
  let path ← parseSecretPath reference
  let project ← view.projects.find? (·.slug = path.project)
  let env ← project.environments.find? (·.slug = path.environment)
  guard (!env.locked)
  let folder ← folderOf project path.folder
  let secret := view.secrets.find? fun s =>
    s.projectId = project.id ∧ s.key = path.key ∧ s.folder.map (·.id) = folder.map (·.id)
  let source := secret.bind fun s => valueSource project s env.id
  return ⟨project.id, env.id, secret.map (·.id), folder.map (·.id),
    secret.bind fun s => source.bind s.values, source⟩

/-- The environments of a walk through the fallbacks, from one on. -/
def fallbacks (environments : List Environment) (id : RecordId) : List RecordId :=
  follow (inherited environments) (walkSteps environments) [] (some id)

theorem valueSource_eq (project : Project) (secret : ProjectSecret V) (envId : RecordId) :
    valueSource project secret envId =
      (fallbacks project.environments envId).find? fun id => (secret.values id).isSome :=
  search_eq _ _ _ _

theorem tokenChain_eq (environments : List Environment) (id : RecordId) :
    tokenChain environments id = (fallbacks environments id).takeWhile fun id =>
      (environments.find? (·.id = id)).any fun env => !env.locked :=
  gather_eq _ _ _ _

/-- The steps are enough: with more of them a walk through the fallbacks meets the same. -/
theorem follow_fallbacks (environments : List Environment) (id : RecordId) (n : ℕ) :
    follow (inherited environments) (walkSteps environments + n) [] (some id) =
      fallbacks environments id := by
  induction n with
  | zero => rfl
  | succ n ih =>
    have hplaces : ∀ a, (inherited environments a).isSome = true →
        a ∈ environments.map (·.id) := by
      intro a ha
      obtain ⟨b, hb⟩ := Option.isSome_iff_exists.mp ha
      obtain ⟨env, henv, -⟩ := Option.bind_eq_some_iff.mp hb
      have hid : env.id = a := by simpa using List.find?_some henv
      exact List.mem_map.mpr ⟨env, List.mem_of_find?_eq_some henv, hid⟩
    rw [← ih, ← Nat.add_assoc]
    refine follow_succ hplaces List.nodup_nil (List.nil_subset _) ?_ _
    rw [walkSteps, List.length_map, List.length_nil]
    omega

end Zvault.ProjectSync
