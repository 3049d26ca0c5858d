import Mathlib.Data.List.Destutter
import Zvault.Agents.Settings
import Zvault.Agents.Visible
import Zvault.Crypto.Padding
import Zvault.Fallible.Steps
import Zvault.Keyrings.Desktop

/-!
# What the agent server sends back

`handle` of `server.rs`, for an agent that asks for secrets, for their paths or
for the structure of the projects, with the whole reply. The UI's answers, the
user's, and the state of the session, the registry and the key ring at each step
are left open: anything may have happened in between.
-/

namespace Zvault.Agents

open Crypto (Primitives Blob canonicalId secretValueAad)
open Fallible
open Keyrings (DesktopKeyring openText)

deriving instance Ord for SecretRef

/-- The error codes of these replies. -/
inductive Failure where
  | policy (code : ErrorCode)
  | denied
  | timeout
  | notFound
  | busy
  | userOnly
  | internal
  deriving Repr

/-- What the UI answers for a path: `ResolvedSecret`, without the folder of a new secret. -/
structure FoundSecret where
  reference : SecretRef
  projectId : String
  environmentId : String
  secretId : Option String
  encryptedValue : Option Blob
  /-- The environment the value was sealed for, when it is inherited. -/
  valueEnvironmentId : Option String

structure SecretValue where
  reference : SecretRef
  value : String

/-- Requests for the user's own terminal. What they carry is not looked at for an agent. -/
inductive UserRequest where
  | pair
  | browserPair
  | signIn
  | signOut
  | copy
  | set
  | change
  | items
  | itemGet
  | itemPut
  | itemDelete
  deriving Repr

/-- An agent's request, other than those for its own settings and the lock and those of the
browser. -/
inductive ReadRequest where
  | fetch (refs : List SecretRef)
  | list (place : Option ScopePattern)
  | exporting (place : ScopePattern)
  | projects
  | reserved (kind : UserRequest)

inductive Reply where
  | secrets (values : List SecretValue)
  | list (refs : List SecretRef)
  | projects (projects : List ProjectInfo)
  | error (code : Failure)

/-- What a request meets on its way. -/
structure Meets where
  /-- The session is unlocked when the request arrives. -/
  unlocked : Bool
  /-- The UI's answer to `LIST_EVENT`. -/
  listed : Except Failure (List String)
  /-- The UI's answer to `STRUCTURE_EVENT`. -/
  projects : Except Failure (List ProjectInfo)
  /-- The registry, the session and the time when the request is decided. -/
  registry : Registry
  unlockedThen : Bool
  now : ℕ
  /-- How `ask` ends, with or without Touch ID. -/
  asked : Bool → Except Failure Unit
  /-- The UI's answer to `RESOLVE_EVENT`. -/
  resolved : Except Failure (List FoundSecret)
  keys : DesktopKeyring

/-- `sort` and `dedup`. -/
def sorted (refs : List SecretRef) : List SecretRef :=
  (refs.mergeSort fun a b => (compare a b).isLE).destutter (· ≠ ·)

def InScopes (scopes : List ScopePattern) (r : SecretRef) : Bool := scopes.any (·.allows r)

/-- `list_refs`. -/
def listRefs (listed : Except Failure (List String)) (place : Option ScopePattern) :
    Except Failure (List SecretRef) :=
  listed.map fun raw =>
    sorted ((raw.filterMap fun s => (SecretRef.fromStr s).toOption).filter fun r =>
      place.all (·.allows r))

section Decrypt

variable (P : Primitives) (keys : DesktopKeyring)

/-- `vault_error`, of a value that does not open. -/
def vaultError (ids : List String) : Failure :=
  if (ids.all fun id => (canonicalId id).isSome) && keys.account.isNone then .policy .locked
  else .notFound

/-- The environment that the UI says a value was sealed for. -/
def FoundSecret.sealedFor (place : FoundSecret) : String :=
  place.valueEnvironmentId.getD place.environmentId

/-- `decrypt`, of one path. -/
def decryptOne (found : List FoundSecret) (r : SecretRef) : Except Failure SecretValue :=
  match found.find? (·.reference = r) with
  | none => .error .notFound
  | some place =>
    match place.secretId, place.encryptedValue with
    | some secretId, some blob =>
      match keys.openSecretValue P place.projectId secretId place.sealedFor blob with
      | some value => .ok ⟨r, value⟩
      | none => .error (vaultError keys [place.projectId, secretId, place.sealedFor])
    | _, _ => .error .notFound

def decrypt (refs : List SecretRef) (found : List FoundSecret) :
    Except Failure (List SecretValue) :=
  refs.mapM (decryptOne P keys found)

end Decrypt

namespace Meets

variable (P : Primitives) (m : Meets) (a : AgentRecord)

/-- `authorize`. -/
def authorize (refs : List SecretRef) : Except Failure Unit :=
  match m.registry.decide a.id refs m.unlockedThen m.now with
  | .deny code => .error (.policy code)
  | .allow => .ok ()
  | .ask touchId => m.asked touchId

def fetch (refs : List SecretRef) : Except Failure Reply :=
  let refs := sorted refs
  if refs.isEmpty || maxRefs < refs.length then .error (.policy .badRequest)
  else do
    m.authorize a refs
    let found ← m.resolved
    let values ← decrypt P m.keys refs found
    return .secrets values

/-- The agent is paused, or the session is locked. -/
def gate : Except Failure Unit :=
  if a.paused then .error (.policy .paused)
  else if !m.unlocked then .error (.policy .locked)
  else .ok ()

/-- `list`. Names inside an agent's scopes are already approved for it. -/
def list (place : Option ScopePattern) : Except Failure Reply := do
  m.gate a
  let refs ← listRefs m.listed place
  return .list (refs.filter (InScopes a.scopes))

/-- `export`. -/
def exporting (place : ScopePattern) : Except Failure Reply := do
  m.gate a
  let found ← listRefs m.listed (some place)
  let refs := found.filter (InScopes a.scopes)
  if refs.isEmpty then
    if found.isEmpty then return .secrets [] else .error (.policy .outOfScope)
  else m.fetch P a refs

/-- `structure`. -/
def structured : Except Failure Reply := do
  m.gate a
  let projects ← m.projects
  return .projects (visible projects a.scopes)

/-- `handle`, for an agent that is authenticated as it then stands in the registry. -/
def answer : ReadRequest → Except Failure Reply
  | .fetch refs => m.fetch P a refs
  | .list place => m.list a place
  | .exporting place => m.exporting P a place
  | .projects => m.structured a
  | .reserved _ => .error .userOnly

def handle (request : ReadRequest) : Reply :=
  match m.answer P a request with
  | .ok reply => reply
  | .error code => .error code

end Meets

/-- Some path with a property lies in the scopes. -/
def Reaches (scopes : List ScopePattern) (path : SecretRef → Prop) : Prop :=
  ∃ r, InScopes scopes r = true ∧ path r

/-- What is said of a project lies in the scopes: the project, the environments and those they fall
back to, and the folders. -/
structure ProjectInfo.LiesIn (scopes : List ScopePattern) (p : ProjectInfo) : Prop where
  project : Reaches scopes fun r => r.project = p.slug
  environments : ∀ e ∈ p.environments,
    Reaches scopes fun r => r.project = p.slug ∧ r.environment = e.slug
  fallbacks : ∀ e ∈ p.environments, ∀ fallback ∈ e.inheritsFrom,
    Reaches scopes fun r => r.project = p.slug ∧ r.environment = fallback
  folders : ∀ f ∈ p.folders, Reaches scopes fun r => r.project = p.slug ∧ r.folder = some f.slug

/-- The value is what the key of the environment opens of a found secret's ciphertext, bound to the
ids of its project, its secret and the environment. -/
structure FoundSecret.Yields (P : Primitives) (keys : DesktopKeyring) (place : FoundSecret)
    (v : SecretValue) : Prop where
  reference : place.reference = v.reference
  opens : ∃ secretId blob key json, place.secretId = some secretId ∧
    place.encryptedValue = some blob ∧
    keys.environments (place.projectId, place.sealedFor) = some key ∧
    openText P key blob (secretValueAad place.projectId secretId place.sealedFor)
      place.sealedFor = some json ∧
    Json.field Json.asString "value" json = some v.value

/-- A value may be sent: its path was asked for in a request that was decided for the agent within
its scopes, without a prompt or with the user's approval, and it comes from where the UI said. -/
structure Meets.Releases (P : Primitives) (m : Meets) (a : AgentRecord) (v : SecretValue) :
    Prop where
  authorized : ∃ refs, v.reference ∈ refs ∧ m.registry.Admits a.id refs ∧
    (m.registry.decide a.id refs m.unlockedThen m.now = .allow ∨
      ∃ touchId, m.registry.decide a.id refs m.unlockedThen m.now = .ask touchId ∧
        m.asked touchId = .ok ())
  placed : ∃ found, m.resolved = .ok found ∧ ∃ place ∈ found, place.Yields P m.keys v

/-- What a reply to a request may hold. -/
def Meets.Confined (P : Primitives) (m : Meets) (a : AgentRecord) : ReadRequest → Reply → Prop
  | .reserved _, reply => reply = .error .userOnly
  | _, .error _ => True
  | .fetch refs, .secrets values => ∀ v ∈ values, v.reference ∈ refs ∧ m.Releases P a v
  | .exporting place, .secrets values => ∀ v ∈ values, place.allows v.reference = true ∧
      InScopes a.scopes v.reference = true ∧ m.Releases P a v
  | .list place, .list refs => ∀ r ∈ refs, (∀ p ∈ place, p.allows r = true) ∧
      InScopes a.scopes r = true
  | .projects, .projects projects => ∀ p ∈ projects, p.LiesIn a.scopes
  | _, _ => False

/-- The environments that the scopes reach fall back to environments they reach. -/
def FallsInScopes (scopes : List ScopePattern) (projects : List ProjectInfo) : Prop :=
  ∀ p ∈ projects, ∀ e ∈ p.environments,
    (Reaches scopes fun r => r.project = p.slug ∧ r.environment = e.slug) →
    ∀ fallback ∈ e.inheritsFrom,
      Reaches scopes fun r => r.project = p.slug ∧ r.environment = fallback

theorem mem_of_mem_sorted {refs : List SecretRef} {r : SecretRef} (h : r ∈ sorted refs) :
    r ∈ refs := by
  have hsorted := (List.destutter_sublist (· ≠ ·) _).subset h
  exact List.mem_mergeSort.mp hsorted

/-- What is listed under a place was answered by the UI and lies there. -/
theorem allows_of_mem_listRefs {listed : Except Failure (List String)} {place : Option ScopePattern}
    {refs : List SecretRef} (h : listRefs listed place = .ok refs) {r : SecretRef} (hr : r ∈ refs) :
    ∀ p ∈ place, p.allows r = true := by
  obtain ⟨raw, -, rfl⟩ := map_eq_ok.mp h
  have hkept := (List.mem_filter.mp (mem_of_mem_sorted hr)).2
  intro p hp
  rw [Option.mem_def.mp hp, Option.all_some] at hkept
  exact hkept

section Decrypted

variable {P : Primitives} {keys : DesktopKeyring}

/-- What opens is bound to the ids it is opened with. -/
theorem openSecretValue_bound {projectId secretId environmentId value : String} {blob : Blob}
    (h : keys.openSecretValue P projectId secretId environmentId blob = some value) :
    ∃ key json, keys.environments (projectId, environmentId) = some key ∧
      openText P key blob (secretValueAad projectId secretId environmentId) environmentId =
        some json ∧ Json.field Json.asString "value" json = some value := by
  unfold DesktopKeyring.openSecretValue at h
  obtain ⟨projectId', hproject, h⟩ := Option.bind_eq_some_iff.mp h
  obtain ⟨secretId', hsecret, h⟩ := Option.bind_eq_some_iff.mp h
  obtain ⟨environmentId', henvironment, h⟩ := Option.bind_eq_some_iff.mp h
  obtain ⟨account, -, h⟩ := Option.bind_eq_some_iff.mp h
  obtain ⟨key, hkey, h⟩ := Option.bind_eq_some_iff.mp h
  obtain ⟨json, hjson, hvalue⟩ := Option.bind_eq_some_iff.mp h
  obtain rfl := Crypto.canonicalId_eq_some hproject
  obtain rfl := Crypto.canonicalId_eq_some hsecret
  obtain rfl := Crypto.canonicalId_eq_some henvironment
  exact ⟨key, json, hkey, hjson, hvalue⟩

/-- The value of a path comes from the first place that the UI names for it. -/
theorem yields_of_decryptOne {found : List FoundSecret} {r : SecretRef} {v : SecretValue}
    (h : decryptOne P keys found r = .ok v) :
    v.reference = r ∧ ∃ place ∈ found, place.Yields P keys v := by
  unfold decryptOne at h
  split at h
  · cases h
  · rename_i place hplace
    split at h
    · rename_i secretId blob hsecret hblob
      split at h
      · rename_i value hvalue
        cases h
        have hnamed : place.reference = r := by simpa using List.find?_some hplace
        obtain ⟨key, json, hkey, hjson, hopens⟩ := openSecretValue_bound hvalue
        exact ⟨rfl, place, List.mem_of_find?_eq_some hplace, hnamed,
          secretId, blob, key, json, hsecret, hblob, hkey, hjson, hopens⟩
      · cases h
    · cases h

/-- Every value that is decrypted is that of a path that was asked for. -/
theorem yields_of_decrypt {found : List FoundSecret} {refs : List SecretRef}
    {values : List SecretValue} (h : decrypt P keys refs found = .ok values) {v : SecretValue}
    (hv : v ∈ values) : v.reference ∈ refs ∧ ∃ place ∈ found, place.Yields P keys v := by
  obtain ⟨r, hr, hone⟩ := exists_left (mapM_eq_ok.mp h) hv
  obtain ⟨rfl, hyields⟩ := yields_of_decryptOne hone
  exact ⟨hr, hyields⟩

end Decrypted

section Confined

variable {P : Primitives} {m : Meets} {a : AgentRecord} {refs : List SecretRef} {reply : Reply}

theorem gate_eq_ok : m.gate a = .ok () ↔ a.paused = false ∧ m.unlocked = true := by
  unfold Meets.gate
  split
  · simp_all
  · split
    · simp_all
    · simp_all

/-- A request that is authorized lies within the settings of its agent. -/
theorem authorized_of_ok (h : m.authorize a refs = .ok ()) :
    m.registry.Admits a.id refs ∧
      (m.registry.decide a.id refs m.unlockedThen m.now = .allow ∨
        ∃ touchId, m.registry.decide a.id refs m.unlockedThen m.now = .ask touchId ∧
          m.asked touchId = .ok ()) := by
  have hdecided : m.registry.decide a.id refs m.unlockedThen m.now = .allow ∨
      ∃ touchId, m.registry.decide a.id refs m.unlockedThen m.now = .ask touchId ∧
        m.asked touchId = .ok () := by
    unfold Meets.authorize at h
    split at h
    · cases h
    · rename_i hallow
      exact Or.inl hallow
    · rename_i touchId hask
      exact Or.inr ⟨touchId, hask, h⟩
  have hnot : ∀ code, m.registry.decide a.id refs m.unlockedThen m.now ≠ .deny code := by
    rintro code hdeny
    rw [hdeny] at hdecided
    rcases hdecided with hallow | ⟨touchId, hask, -⟩
    · cases hallow
    · cases hask
  exact ⟨Registry.admits_of_decide hnot, hdecided⟩

/-- What `fetch` sends. -/
theorem releases_of_fetch (h : m.fetch P a refs = .ok reply) :
    ∃ values, reply = .secrets values ∧ ∀ v ∈ values, v.reference ∈ refs ∧ m.Releases P a v := by
  unfold Meets.fetch at h
  dsimp only at h
  split at h
  · cases h
  · obtain ⟨⟨⟩, hauthorized, h⟩ := bind_eq_ok.mp h
    obtain ⟨found, hfound, h⟩ := bind_eq_ok.mp h
    obtain ⟨values, hvalues, h⟩ := bind_eq_ok.mp h
    cases h
    refine ⟨values, rfl, fun v hv => ?_⟩
    obtain ⟨hasked, hyields⟩ := yields_of_decrypt hvalues hv
    obtain ⟨hadmits, hdecided⟩ := authorized_of_ok hauthorized
    exact ⟨mem_of_mem_sorted hasked, ⟨_, hasked, hadmits, hdecided⟩, found, hfound, hyields⟩

/-- What `list` sends. -/
theorem inScopes_of_list {place : Option ScopePattern} (h : m.list a place = .ok reply) :
    ∃ refs, reply = .list refs ∧
      ∀ r ∈ refs, (∀ p ∈ place, p.allows r = true) ∧ InScopes a.scopes r = true := by
  obtain ⟨⟨⟩, -, h⟩ := bind_eq_ok.mp h
  obtain ⟨listed, hlisted, h⟩ := bind_eq_ok.mp h
  cases h
  refine ⟨_, rfl, fun r hr => ?_⟩
  obtain ⟨hr, hscopes⟩ := List.mem_filter.mp hr
  exact ⟨allows_of_mem_listRefs hlisted hr, hscopes⟩

/-- What `export` sends. -/
theorem releases_of_exporting {place : ScopePattern} (h : m.exporting P a place = .ok reply) :
    ∃ values, reply = .secrets values ∧ ∀ v ∈ values, place.allows v.reference = true ∧
      InScopes a.scopes v.reference = true ∧ m.Releases P a v := by
  obtain ⟨⟨⟩, -, h⟩ := bind_eq_ok.mp h
  obtain ⟨found, hfound, h⟩ := bind_eq_ok.mp h
  dsimp only at h
  split at h
  · split at h
    · cases h
      exact ⟨[], rfl, fun v hv => by cases hv⟩
    · cases h
  · obtain ⟨values, rfl, hvalues⟩ := releases_of_fetch h
    refine ⟨values, rfl, fun v hv => ?_⟩
    obtain ⟨hasked, hreleases⟩ := hvalues v hv
    obtain ⟨hlisted, hscopes⟩ := List.mem_filter.mp hasked
    exact ⟨allows_of_mem_listRefs hfound hlisted place rfl, hscopes, hreleases⟩

/-- What `structure` sends. -/
theorem structured_eq_ok : m.structured a = .ok reply ↔
    (a.paused = false ∧ m.unlocked = true) ∧
      ∃ projects, m.projects = .ok projects ∧ .projects (visible projects a.scopes) = reply := by
  unfold Meets.structured
  rw [bind_eq_ok]
  constructor
  · rintro ⟨⟨⟩, hgate, h⟩
    obtain ⟨projects, hprojects, h⟩ := bind_eq_ok.mp h
    cases h
    exact ⟨gate_eq_ok.mp hgate, projects, hprojects, rfl⟩
  · rintro ⟨hgate, projects, hprojects, rfl⟩
    exact ⟨(), gate_eq_ok.mpr hgate, bind_eq_ok.mpr ⟨projects, hprojects, rfl⟩⟩

/-- An error says nothing. -/
theorem confined_of_answer {request : ReadRequest} (hread : ∀ kind, request ≠ .reserved kind)
    (h : ∀ reply, m.answer P a request = .ok reply → m.Confined P a request reply) :
    m.Confined P a request (m.handle P a request) := by
  unfold Meets.handle
  cases hanswer : m.answer P a request with
  | error code =>
    cases request with
    | reserved kind => exact absurd rfl (hread kind)
    | _ => trivial
  | ok reply => exact h reply hanswer

end Confined

section Structure

variable {scopes : List ScopePattern} {projects : List ProjectInfo} {p q : ProjectInfo}
  {project environment folder : String}

theorem inScopes_iff {r : SecretRef} :
    InScopes scopes r = true ↔ ∃ s ∈ scopes, s.allows r = true := List.any_eq_true

/-- The slugs of a scope lead to paths it allows. -/
theorem ScopePattern.allowed_of_place {s : ScopePattern} (h : s.IsValid)
    (hproject : s.place.1[0]? = some project) (environment folder : String) :
    ∃ r, s.allows r = true ∧ r.project = project ∧
      ((s.place.1.length = 1 ∨ s.place.1[1]? = some environment) →
        r.environment = environment) ∧
      ((s.place.2 = true ∧ s.place.1.length < 3 ∨ s.place.1[2]? = some folder) →
        r.folder = some folder) := by
  rcases h.cases with ⟨r, -, rfl⟩ | ⟨p, -, rfl⟩ | ⟨p, e, -, -, rfl⟩ | ⟨p, e, f, -, -, -, rfl⟩
  · refine ⟨r, decide_eq_true rfl, Option.some.inj hproject, ?_, ?_⟩
    · rintro (hlength | henvironment)
      · simp [place, SecretRef.places] at hlength
      · exact Option.some.inj henvironment
    · rintro (⟨hunder, -⟩ | hfolder)
      · cases hunder
      · cases hin : r.folder with
        | none => simp [place, SecretRef.places, hin] at hfolder
        | some f => simpa [place, SecretRef.places, hin] using hfolder
  · exact ⟨⟨p, environment, some folder, "A"⟩, by simp [allows, SecretRef.places],
      Option.some.inj hproject, fun _ => rfl, fun _ => rfl⟩
  · refine ⟨⟨p, e, some folder, "A"⟩, by simp [allows, SecretRef.places],
      Option.some.inj hproject, fun henvironment => ?_, fun _ => rfl⟩
    simpa [place] using henvironment
  · refine ⟨⟨p, e, some f, "A"⟩, by simp [allows, SecretRef.places],
      Option.some.inj hproject, fun henvironment => ?_, fun hfolder => ?_⟩
    · simpa [place] using henvironment
    · simpa [place] using hfolder

/-- `visible` keeps the environments that the scopes reach, whatever their slugs are. -/
theorem reaches_environment_iff (hscopes : ∀ s ∈ scopes, s.IsValid) :
    (Reaches scopes fun r => r.project = project ∧ r.environment = environment) ↔
      ((placesOf scopes project).any fun s =>
        s.1.length = 1 || s.1[1]? = some environment) = true := by
  rw [any_placesOf]
  constructor
  · rintro ⟨r, hin, rfl, rfl⟩
    obtain ⟨s, hs, hallows⟩ := inScopes_iff.mp hin
    obtain ⟨hproject, henvironment, -⟩ := ScopePattern.place_of_allows (hscopes s hs) hallows
    exact ⟨s, hs, hproject, by simpa using henvironment⟩
  · rintro ⟨s, hs, hproject, htest⟩
    obtain ⟨r, hallows, hsame, henvironment, -⟩ :=
      ScopePattern.allowed_of_place (hscopes s hs) hproject environment ""
    exact ⟨r, inScopes_iff.mpr ⟨s, hs, hallows⟩, hsame, henvironment (by simpa using htest)⟩

theorem reaches_folder (hscopes : ∀ s ∈ scopes, s.IsValid)
    (h : ((placesOf scopes project).any fun s =>
      (s.2 && s.1.length < 3) || s.1[2]? = some folder) = true) :
    Reaches scopes fun r => r.project = project ∧ r.folder = some folder := by
  obtain ⟨s, hs, hproject, htest⟩ := (any_placesOf _ _ _).mp h
  obtain ⟨r, hallows, hsame, -, hfolder⟩ :=
    ScopePattern.allowed_of_place (hscopes s hs) hproject "" folder
  exact ⟨r, inScopes_iff.mpr ⟨s, hs, hallows⟩, hsame, hfolder (by simpa using htest)⟩

theorem mem_visible : q ∈ visible projects scopes ↔
    ∃ p ∈ projects, (∃ s ∈ scopes, s.place.1[0]? = some p.slug) ∧
      p.keep (placesOf scopes p.slug) = q := by
  have hvisible : visible projects scopes = projects.filterMap fun p =>
      if (placesOf scopes p.slug).isEmpty then none else some (p.keep (placesOf scopes p.slug)) := rfl
  rw [hvisible, List.mem_filterMap]
  refine exists_congr fun p => and_congr_right fun _ => ?_
  have hany := any_placesOf scopes (fun _ => true) p.slug
  cases hplaces : placesOf scopes p.slug with
  | nil =>
    rw [hplaces] at hany
    simp only [List.any_nil, Bool.false_eq_true, false_iff, and_true] at hany
    simp only [List.isEmpty_nil, if_true, reduceCtorEq, false_iff, not_and]
    exact fun hstarts => absurd hstarts hany
  | cons s rest =>
    rw [hplaces] at hany
    simp only [List.any_cons, Bool.true_or, true_iff, and_true] at hany
    rw [List.isEmpty_cons, if_neg Bool.false_ne_true, Option.some_inj, and_iff_right hany]

/-- What is kept of a project lies in the scopes exactly when its environments fall back to what
the scopes reach. -/
theorem liesIn_keep_iff (hscopes : ∀ s ∈ scopes, s.IsValid)
    (hstarts : ∃ s ∈ scopes, s.place.1[0]? = some p.slug) :
    (p.keep (placesOf scopes p.slug)).LiesIn scopes ↔ ∀ e ∈ p.environments,
      (Reaches scopes fun r => r.project = p.slug ∧ r.environment = e.slug) →
      ∀ fallback ∈ e.inheritsFrom,
        Reaches scopes fun r => r.project = p.slug ∧ r.environment = fallback := by
  constructor
  · intro h e he hreaches
    exact h.fallbacks e (List.mem_filter.mpr ⟨he, (reaches_environment_iff hscopes).mp hreaches⟩)
  · intro h
    refine ⟨?_, fun e he => ?_, fun e he => ?_, fun f hf => ?_⟩
    · obtain ⟨s, hs, hproject⟩ := hstarts
      obtain ⟨r, hallows, hsame, -⟩ :=
        ScopePattern.allowed_of_place (hscopes s hs) hproject "" ""
      exact ⟨r, inScopes_iff.mpr ⟨s, hs, hallows⟩, hsame⟩
    · exact (reaches_environment_iff hscopes).mpr (List.mem_filter.mp he).2
    · obtain ⟨he, hkept⟩ := List.mem_filter.mp he
      exact h e he ((reaches_environment_iff hscopes).mpr hkept)
    · exact reaches_folder hscopes (List.mem_filter.mp hf).2

/-- What is kept of the projects lies in the scopes exactly when what the scopes reach falls back
to what they reach. -/
theorem liesIn_visible_iff (hscopes : ∀ s ∈ scopes, s.IsValid) :
    (∀ q ∈ visible projects scopes, q.LiesIn scopes) ↔ FallsInScopes scopes projects := by
  constructor
  · intro h p hp e he hreaches
    have hstarts : ∃ s ∈ scopes, s.place.1[0]? = some p.slug := by
      obtain ⟨s, hs, hproject, -⟩ :=
        (any_placesOf _ _ _).mp ((reaches_environment_iff hscopes).mp hreaches)
      exact ⟨s, hs, hproject⟩
    exact (liesIn_keep_iff hscopes hstarts).mp (h _ (mem_visible.mpr ⟨p, hp, hstarts, rfl⟩)) e he
      hreaches
  · intro h q hq
    obtain ⟨p, hp, hstarts, rfl⟩ := mem_visible.mp hq
    exact (liesIn_keep_iff hscopes hstarts).mpr (h p hp)

end Structure

/-- Whatever the UI answers, a reply holds only what its agent may have, but for the names of the
environments that kept ones fall back to: these lie in the scopes exactly when the UI's answer falls
back within them. -/
theorem handle_confined_iff (P : Primitives) (m : Meets) (a : AgentRecord) (request : ReadRequest)
    (hscopes : ∀ s ∈ a.scopes, s.IsValid) :
    m.Confined P a request (m.handle P a request) ↔
      ∀ projects, request = .projects → a.paused = false → m.unlocked = true →
        m.projects = .ok projects → FallsInScopes a.scopes projects := by
  cases request with
  | fetch refs =>
    refine iff_of_true (confined_of_answer (by rintro kind ⟨⟩) fun reply h => ?_) ?_
    swap
    · rintro projects ⟨⟩
    obtain ⟨values, rfl, hvalues⟩ := releases_of_fetch h
    exact hvalues
  | list place =>
    refine iff_of_true (confined_of_answer (by rintro kind ⟨⟩) fun reply h => ?_) ?_
    swap
    · rintro projects ⟨⟩
    obtain ⟨refs, rfl, hrefs⟩ := inScopes_of_list h
    exact hrefs
  | exporting place =>
    refine iff_of_true (confined_of_answer (by rintro kind ⟨⟩) fun reply h => ?_) ?_
    swap
    · rintro projects ⟨⟩
    obtain ⟨values, rfl, hvalues⟩ := releases_of_exporting h
    exact hvalues
  | projects =>
    constructor
    · intro h projects _ hpaused hunlocked hprojects
      have hanswer : m.answer P a .projects = .ok (.projects (visible projects a.scopes)) :=
        structured_eq_ok.mpr ⟨⟨hpaused, hunlocked⟩, projects, hprojects, rfl⟩
      rw [Meets.handle, hanswer] at h
      exact (liesIn_visible_iff hscopes).mp h
    · intro h
      refine confined_of_answer (by rintro kind ⟨⟩) fun reply hanswer => ?_
      obtain ⟨⟨hpaused, hunlocked⟩, projects, hprojects, rfl⟩ := structured_eq_ok.mp hanswer
      exact (liesIn_visible_iff hscopes).mpr (h projects rfl hpaused hunlocked hprojects)
  | reserved kind => exact iff_of_true rfl fun _ h => by cases h

/-- An agent of the first environment. -/
def webAgent : AgentRecord := ⟨"agent", .agent, false, .whileUnlocked, [.under ["web", "dev"]]⟩

/-- A request of this agent, where the UI shows one project. -/
def webMeets (fallback : Option String) : Meets where
  unlocked := true
  listed := .ok ["zv://web/dev/API_KEY", "zv://web/prod/API_KEY"]
  projects := .ok [webProject fallback]
  registry := ⟨[webAgent], fun _ => none⟩
  unlockedThen := true
  now := 0
  asked _ := .error .denied
  resolved := .ok []
  keys := .locked

theorem webAgent_scopes : ∀ s ∈ webAgent.scopes, s.IsValid := by
  intro s hs
  obtain rfl := List.mem_singleton.mp hs
  exact ⟨by simp, by simp, by decide⟩

theorem handle_confined_web :
    (webMeets none).Confined Crypto.tagging webAgent .projects
      ((webMeets none).handle Crypto.tagging webAgent .projects) := by
  refine (handle_confined_iff _ _ _ _ webAgent_scopes).mpr fun projects _ _ _ h => ?_
  cases h
  intro p hp e he _ fallback hfallback
  obtain rfl := List.mem_singleton.mp hp
  rcases List.mem_cons.mp he with rfl | he
  · cases hfallback
  · obtain rfl := List.mem_singleton.mp he
    cases hfallback

/-- The agent is told of the environment that its own falls back to. -/
theorem fallback_sent : ¬ ∀ (P : Primitives) (m : Meets) (a : AgentRecord) (request : ReadRequest),
    (∀ s ∈ a.scopes, s.IsValid) → m.Confined P a request (m.handle P a request) := by
  intro h
  have hconfined := h Crypto.tagging (webMeets (some "prod")) webAgent .projects webAgent_scopes
  have hlies : ∀ p ∈ visible [webProject (some "prod")] webAgent.scopes,
      p.LiesIn webAgent.scopes := hconfined
  have hkept : (webProject (some "prod")).keep (placesOf webAgent.scopes "web") ∈
      visible [webProject (some "prod")] webAgent.scopes :=
    mem_visible.mpr ⟨_, List.mem_singleton_self _, ⟨_, List.mem_singleton_self _, rfl⟩, rfl⟩
  have hdev : ⟨"dev", "Development", .development, some "prod", false⟩ ∈
      ((webProject (some "prod")).keep (placesOf webAgent.scopes "web")).environments := by
    decide
  obtain ⟨r, hin, hproject, hprod⟩ := (hlies _ hkept).fallbacks _ hdev "prod" rfl
  obtain ⟨s, hs, hallows⟩ := inScopes_iff.mp hin
  obtain rfl := List.mem_singleton.mp hs
  simp [ScopePattern.allows, SecretRef.places, hprod] at hallows

end Zvault.Agents
