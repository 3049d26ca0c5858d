import Mathlib.Data.List.Basic
import Zvault.Text.Slugs

/-!
# What is sealed of projects

The plaintext shapes of `packages/shared/src/projects.ts`. They exist on the
client only; every write of the desktop app checks them before it seals, and
every read after it opens.
-/

namespace Zvault.ProjectSync

open Text (isSlugChar)

/-- `RecordId`. -/
abbrev RecordId := ℕ

/-- `z.string().min(min).max(max)`, which counts code points. -/
def IsWithin (min max : ℕ) (s : String) : Prop := min ≤ s.length ∧ s.length ≤ max

instance (min max : ℕ) (s : String) : Decidable (IsWithin min max s) :=
  inferInstanceAs (Decidable (_ ∧ _))

theorem IsWithin.mono {min max min' max' : ℕ} {s : String} (h : IsWithin min max s)
    (hmin : min' ≤ min) (hmax : max ≤ max') : IsWithin min' max' s :=
  ⟨Nat.le_trans hmin h.1, Nat.le_trans h.2 hmax⟩

theorem length_replicate (c : Char) (n : ℕ) : (String.ofList (List.replicate n c)).length = n := by
  rw [String.length_ofList, List.length_replicate]

/-- `Slug`: lowercase letters, digits and single dashes. -/
def IsSlug (s : String) : Prop :=
  IsWithin 1 64 s ∧ ∀ part ∈ s.toList.splitOn '-', part ≠ [] ∧ part.all isSlugChar

instance (s : String) : Decidable (IsSlug s) := inferInstanceAs (Decidable (_ ∧ _))

/-- `SecretKeyName`: an environment variable name. -/
def IsSecretKeyName (s : String) : Prop :=
  IsWithin 1 128 s ∧ (s.toList.all fun c => c.isAlphanum || c == '_') ∧
    s.toList.head?.all fun c => !c.isDigit

instance (s : String) : Decidable (IsSecretKeyName s) := inferInstanceAs (Decidable (_ ∧ _ ∧ _))

/-- `Tag`. -/
def IsTag (s : String) : Prop :=
  IsWithin 1 48 s ∧ (s.toList.all fun c => isSlugChar c || c == '-' || c == '_') ∧
    s.toList.head?.all isSlugChar

instance (s : String) : Decidable (IsTag s) := inferInstanceAs (Decidable (_ ∧ _ ∧ _))

/-- `HexColor`. -/
def IsHexColor (s : String) : Prop :=
  s.toList.length = 7 ∧ s.toList.head? = some '#' ∧
    s.toList.tail.all fun c => c.isDigit || ['a', 'b', 'c', 'd', 'e', 'f'].elem c.toLower

instance (s : String) : Decidable (IsHexColor s) := inferInstanceAs (Decidable (_ ∧ _ ∧ _))

structure ProjectMeta where
  name : String
  slug : String
  description : Option String
  color : Option String
  deriving DecidableEq, Repr

/-- What `ProjectMeta.parse` accepts. -/
def ProjectMeta.IsValid (m : ProjectMeta) : Prop :=
  IsWithin 1 100 m.name ∧ IsSlug m.slug ∧ (∀ d ∈ m.description, IsWithin 0 1000 d) ∧
    ∀ c ∈ m.color, IsHexColor c

instance (m : ProjectMeta) : Decidable m.IsValid := inferInstanceAs (Decidable (_ ∧ _ ∧ _ ∧ _))

inductive EnvironmentKind where
  | development
  | staging
  | production
  | custom
  deriving DecidableEq, Repr

/-- `SyncTarget`: where an environment's secrets are pushed to. -/
inductive SyncTarget where
  | github (id repo : String) (environment : Option String) (auto : Option Bool)
  | aws (id region secretName : String) (auto : Option Bool)
  deriving DecidableEq, Repr

def isRepoChar (c : Char) : Bool := c.isAlphanum || c == '_' || c == '.' || c == '-'

/-- What `SyncTarget.parse` accepts. -/
def SyncTarget.IsValid : SyncTarget → Prop
  | .github id repo environment _ =>
      IsWithin 1 64 id ∧ IsWithin 0 201 repo ∧ (repo.toList.splitOn '/').length = 2 ∧
        (∀ part ∈ repo.toList.splitOn '/', part ≠ [] ∧ part.all isRepoChar) ∧
        ∀ e ∈ environment, IsWithin 1 255 e
  | .aws id region secretName _ =>
      IsWithin 1 64 id ∧ 3 ≤ (region.toList.splitOn '-').length ∧
        (∀ part ∈ region.toList.splitOn '-', part ≠ [] ∧ part.all isSlugChar) ∧
        IsWithin 1 512 secretName ∧
        secretName.toList.all fun c => c.isAlphanum || ['/', '_', '+', '=', '.', '@', '-'].elem c

instance : (t : SyncTarget) → Decidable t.IsValid
  | .github .. => inferInstanceAs (Decidable (_ ∧ _ ∧ _ ∧ _ ∧ _))
  | .aws .. => inferInstanceAs (Decidable (_ ∧ _ ∧ _ ∧ _ ∧ _))

/-- `MAX_SYNC_TARGETS_PER_ENVIRONMENT`. -/
def maxSyncTargetsPerEnvironment : ℕ := 10

structure EnvironmentMeta where
  name : String
  slug : String
  kind : EnvironmentKind
  position : ℕ
  color : Option String
  inheritsFrom : Option RecordId
  sync : Option (List SyncTarget)
  deriving DecidableEq, Repr

/-- What `EnvironmentMeta.parse` accepts. -/
def EnvironmentMeta.IsValid (m : EnvironmentMeta) : Prop :=
  IsWithin 1 64 m.name ∧ IsSlug m.slug ∧ m.position ≤ 1000 ∧ (∀ c ∈ m.color, IsHexColor c) ∧
    ∀ targets ∈ m.sync,
      targets.length ≤ maxSyncTargetsPerEnvironment ∧ ∀ t ∈ targets, t.IsValid

instance (m : EnvironmentMeta) : Decidable m.IsValid :=
  inferInstanceAs (Decidable (_ ∧ _ ∧ _ ∧ _ ∧ _))

structure FolderMeta where
  name : String
  slug : String
  deriving DecidableEq, Repr

/-- What `FolderMeta.parse` accepts. -/
def FolderMeta.IsValid (m : FolderMeta) : Prop := IsWithin 1 64 m.name ∧ IsSlug m.slug

instance (m : FolderMeta) : Decidable m.IsValid := inferInstanceAs (Decidable (_ ∧ _))

structure SecretMeta where
  name : String
  key : String
  folderId : Option RecordId
  tags : List String
  note : Option String
  deriving DecidableEq, Repr

/-- What `SecretMeta.parse` accepts. -/
def SecretMeta.IsValid (m : SecretMeta) : Prop :=
  IsWithin 1 200 m.name ∧ IsSecretKeyName m.key ∧ (m.tags.length ≤ 32 ∧ ∀ t ∈ m.tags, IsTag t) ∧
    ∀ n ∈ m.note, IsWithin 0 4000 n

instance (m : SecretMeta) : Decidable m.IsValid := inferInstanceAs (Decidable (_ ∧ _ ∧ _ ∧ _))

end Zvault.ProjectSync
