import Zvault.ProjectSync.Fallback
import Zvault.Text.Slugs
import Zvault.Walks.Acyclic

/-!
# Changes of environments

`createEnvironment`, `updateEnvironment` and `deleteEnvironment` of `projects/sync.ts`.
A call is the list of writes that it sends, one after the other; the first one that
fails ends it. The device applies what the API answers to each.
-/

namespace Zvault.ProjectSync

open Text (slugify uniqueSlug jsTrim)
open Walks

variable {V : Type}

/-- `EnvironmentDraft`. A draft that is a string has nothing but the name. -/
structure EnvironmentDraft where
  name : String
  slug : Option String
  kind : Option EnvironmentKind
  /-- Left open, `null` or an environment. -/
  inheritsFrom : Option (Option RecordId)
  deriving DecidableEq, Repr

/-- What `updateEnvironment` changes. -/
structure EnvironmentChanges where
  name : String
  slug : String
  kind : Option EnvironmentKind
  inheritsFrom : Option (Option RecordId)
  deriving DecidableEq, Repr

inductive EnvironmentError where
  /-- This environment is no longer available. -/
  | gone
  /-- Use lowercase letters, digits and single dashes in the slug. -/
  | badSlug
  /-- Another environment already uses the slug. -/
  | slugTaken (slug : String)
  /-- That would make these environments fall back to each other. -/
  | loop
  /-- That environment is no longer available. -/
  | sourceGone
  /-- `EnvironmentMeta.parse` fails. -/
  | invalid
  deriving DecidableEq, Repr

/-- What a call sends to the API. -/
inductive Write where
  | newEnvironment (id : RecordId) (metadata : EnvironmentMeta)
  | environment (id : RecordId) (metadata : EnvironmentMeta)
  | dropEnvironment (id : RecordId)
  | dropSecret (id : RecordId)
  deriving DecidableEq, Repr

/-- `environmentMeta`: metadata for a new environment, with a slug that no other one uses. -/
def environmentMeta (fold : Char → List Char) (draft : EnvironmentDraft)
    (existing : List EnvironmentMeta) (position : ℕ) : Except EnvironmentError EnvironmentMeta :=
  let name := jsTrim draft.name
  let taken := existing.map (·.slug)
  let made := slugify fold name
  let result (slug : String) : Except EnvironmentError EnvironmentMeta :=
    let m : EnvironmentMeta :=
      ⟨name, slug, draft.kind.getD .custom, position, none, draft.inheritsFrom.join, none⟩
    if m.IsValid then .ok m else .error .invalid
  match (draft.slug.map jsTrim).filter (· ≠ "") with
  | none => result (uniqueSlug (if made = "" then "environment" else made) taken)
  | some slug =>
    if ¬ IsSlug slug then .error .badSlug
    else if slug ∈ taken then .error (.slugTaken slug)
    else result slug

namespace ProjectState

variable (s : ProjectState V)

def environment (id : RecordId) : Option KnownEnvironment :=
  s.environments.find? fun e => e.id = id

/-- What an environment falls back to. -/
def inheritsFrom (id : RecordId) : Option RecordId :=
  (s.environment id).bind fun e => e.metadata.inheritsFrom

/-- `createEnvironment`, with the id that is generated. -/
def createEnvironment (fold : Char → List Char) (draft : EnvironmentDraft) (id : RecordId) :
    Except EnvironmentError (List Write) :=
  let envs := s.environments.map (·.metadata)
  -- one behind the last position, from 0 on
  let position := min 1000 ((envs.map (·.position + 1)).foldr max 0)
  match environmentMeta fold draft envs position with
  | .error e => .error e
  | .ok m =>
    if m.inheritsFrom.any fun source => (s.environment source).isNone then .error .sourceGone
    else .ok [.newEnvironment id m]

def updateEnvironment (envId : RecordId) (changes : EnvironmentChanges) :
    Except EnvironmentError (List Write) :=
  match s.environment envId with
  | none => .error .gone
  | some current =>
    let others := s.environments.filter fun e => e.id ≠ envId
    let slug := jsTrim changes.slug
    if ¬ IsSlug slug then .error .badSlug
    else if others.any fun e => e.metadata.slug = slug then .error (.slugTaken slug)
    else
      let inheritsFrom := changes.inheritsFrom.getD current.metadata.inheritsFrom
      if comesTo s.inheritsFrom envId (s.environments.length + 2) [] inheritsFrom then .error .loop
      else if inheritsFrom.any fun source => (s.environment source).isNone then .error .sourceGone
      else
        let m : EnvironmentMeta := { current.metadata with
          name := jsTrim changes.name
          slug := slug
          kind := changes.kind.getD current.metadata.kind
          inheritsFrom := inheritsFrom }
        if m.IsValid then .ok [.environment envId m] else .error .invalid

/-- `orphanedBy`: the secrets whose only value is in an environment. -/
def orphanedBy (envId : RecordId) : List RecordId :=
  let others := s.environments.filter fun e => e.id ≠ envId
  if others.any fun e => !e.unlocked then []
  else (s.secrets.filter fun secret =>
    (secret.values envId).isSome && others.all fun e => (secret.values e.id).isNone).map (·.id)

/-- An heir of an environment that goes falls back to what that fell back to. -/
def heirMeta (env : KnownEnvironment) (heir : KnownEnvironment) : EnvironmentMeta :=
  { heir.metadata with
    inheritsFrom := if env.metadata.inheritsFrom = some heir.id then none
      else env.metadata.inheritsFrom }

/-- `deleteEnvironment`. A write about an heir changes no other entry of the map that the loop
goes through. -/
def deleteEnvironment (envId : RecordId) : List Write :=
  match s.environment envId with
  | none => []
  | some env =>
    let heirs := s.environments.filter fun e => e.metadata.inheritsFrom = some envId
    heirs.map (fun heir => .environment heir.id (heirMeta env heir)) ++
      .dropEnvironment envId :: (s.orphanedBy envId).map .dropSecret

/-- `apply`, of what the API answers to a write. -/
def apply : Write → ProjectState V
  | .newEnvironment id m => { s with environments := s.environments ++ [⟨id, m, true⟩] }
  | .environment id m => { s with
      environments := s.environments.map fun e => if e.id = id then { e with metadata := m } else e }
  | .dropEnvironment id => { s with
      environments := s.environments.filter fun e => e.id ≠ id
      secrets := s.secrets.map fun secret =>
        { secret with values := fun env => if env = id then none else secret.values env } }
  | .dropSecret id => { s with secrets := s.secrets.filter fun secret => secret.id ≠ id }

end ProjectState

namespace StoredProject

variable (p : StoredProject V)

/-- What an environment falls back to. -/
def inheritsFrom (id : RecordId) : Option RecordId :=
  (p.environments.find? fun e => e.1 = id).bind fun e => e.2.inheritsFrom

/-- A new environment. -/
def addEnvironment (id : RecordId) (m : EnvironmentMeta)
    (hnew : id ∉ p.environments.map Prod.fst) : StoredProject V :=
  { p with
    environments := p.environments ++ [(id, m)]
    nodup_environments := by
      rw [List.map_append]
      exact p.nodup_environments.append (List.nodup_singleton id) (by simpa using hnew) }

/-- New metadata for environments. -/
def setMetas (f : RecordId × EnvironmentMeta → EnvironmentMeta) : StoredProject V :=
  { p with
    environments := p.environments.map fun e => (e.1, f e)
    nodup_environments := by
      rw [List.map_map]
      exact p.nodup_environments }

/-- An environment goes, with every value sealed with its key. -/
def removeEnvironment (id : RecordId) : StoredProject V :=
  { p with
    environments := p.environments.filter fun e => e.1 ≠ id
    secrets := p.secrets.map fun s =>
      { s with values := fun env => if env = id then none else s.values env }
    nodup_environments := p.nodup_environments.sublist (List.filter_sublist.map Prod.fst)
    nodup_secrets := by
      rw [List.map_map]
      exact p.nodup_secrets }

def removeSecrets (gone : RecordId → Bool) : StoredProject V :=
  { p with
    secrets := p.secrets.filter fun s => !gone s.id
    nodup_secrets := p.nodup_secrets.sublist (List.filter_sublist.map StoredSecret.id) }

/-- What the API does with a write. It refuses an id that is taken. -/
def write : Write → StoredProject V
  | .newEnvironment id m =>
    if hnew : id ∉ p.environments.map Prod.fst then p.addEnvironment id m hnew else p
  | .environment id m => p.setMetas fun e => if e.1 = id then m else e.2
  | .dropEnvironment id => p.removeEnvironment id
  | .dropSecret id => p.removeSecrets fun s => s = id

end StoredProject

/-- One client: what the API stores of its project, and which environment keys it has. -/
structure Device (V : Type) where
  project : StoredProject V
  owner : Bool
  keys : RecordId → Bool

namespace Device

variable (d : Device V)

/-- What the client knows of the project. -/
def known : ProjectState V := d.project.state d.owner d.keys

/-- A write, with the key that is made for a new environment. -/
def write (w : Write) : Device V where
  project := d.project.write w
  owner := d.owner
  keys := match w with
    | .newEnvironment id _ => fun env => env = id || d.keys env
    | _ => d.keys

end Device

inductive EnvironmentCall where
  | create (draft : EnvironmentDraft) (id : RecordId)
  | update (envId : RecordId) (changes : EnvironmentChanges)
  | delete (envId : RecordId)
  deriving DecidableEq, Repr

/-- What a call sends. -/
def EnvironmentCall.writes (fold : Char → List Char) (s : ProjectState V) :
    EnvironmentCall → Except EnvironmentError (List Write)
  | .create draft id => s.createEnvironment fold draft id
  | .update envId changes => s.updateEnvironment envId changes
  | .delete envId => .ok (s.deleteEnvironment envId)

/-- A generated id is new to the project. -/
def EnvironmentCall.Fresh (p : StoredProject V) : EnvironmentCall → Prop
  | .create _ id => ∀ e ∈ p.environments, e.1 ≠ id ∧ e.2.inheritsFrom ≠ some id
  | _ => True

/-- A call gets through so many of its writes; a write that fails ends it. -/
def Device.serve (fold : Char → List Char) (d : Device V) (call : EnvironmentCall)
    (completed : ℕ) : Device V :=
  match call.writes fold d.known with
  | .error _ => d
  | .ok writes => (writes.take completed).foldl Device.write d

/-- The client after a deletion that is not cut short. -/
def Device.deleteEnvironment (d : Device V) (envId : RecordId) : Device V :=
  (d.known.deleteEnvironment envId).foldl Device.write d

end Zvault.ProjectSync
