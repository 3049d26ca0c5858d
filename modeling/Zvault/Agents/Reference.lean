import Mathlib.Data.List.Infix
import Zvault.Agents.Policy
import Zvault.Fallible.Steps
import Zvault.Text.Separated

/-!
# How paths and scopes are written

The parsers and `Display` of `reference.rs`. A path is accepted exactly when it is
how a path of valid parts is written.
-/

namespace Zvault.Agents

open Text

def scheme : List Char := ['z', 'v', ':', '/', '/']

def maxSlug : ℕ := 64

def maxKey : ℕ := 128

inductive RefError where
  /-- `a secret path starts with zv://` -/
  | scheme
  /-- `a secret path is zv://project/environment/[folder/]KEY` -/
  | shape
  /-- `project, environment and folder names are lowercase letters, digits and dashes` -/
  | slug
  /-- `the last part of a secret path is its variable name, like STRIPE_SECRET_KEY` -/
  | key
  deriving DecidableEq, Repr

/-- What `slug` accepts. The bytes of other characters are no lowercase letters, digits or dashes. -/
def validSlug (s : String) : Bool :=
  s ≠ "" ∧ s.utf8ByteSize ≤ maxSlug ∧ s.toList.head? ≠ some '-' ∧ s.toList.getLast? ≠ some '-' ∧
    ¬ ['-', '-'] <:+: s.toList ∧ s.toList.all fun c => c.isLower || c.isDigit || c == '-'

def slug (s : String) : Except RefError String :=
  if validSlug s then .ok s else .error .slug

def validKey (s : String) : Bool :=
  s.utf8ByteSize ≤ maxKey &&
    match s.toList with
    | [] => false
    | c :: cs => (c.isAlpha || c == '_') && cs.all fun c => c.isAlphanum || c == '_'

/-- `strip_prefix`. -/
def stripPrefix (start text : List Char) : Option (List Char) :=
  if start <+: text then some (text.drop start.length) else none

namespace SecretRef

/-- The parts of a path that is split at its slashes. -/
def ofParts (project environment : String) (folder : Option String) (key : String) :
    Except RefError SecretRef :=
  if !validKey key then .error .key
  else do
    let project ← slug project
    let environment ← slug environment
    let folder ← folder.mapM slug
    return ⟨project, environment, folder, key⟩

/-- `SecretRef::from_str`. -/
def fromStr (s : String) : Except RefError SecretRef :=
  match stripPrefix scheme s.toList with
  | none => .error .scheme
  | some rest =>
    match (rest.splitOn '/').map String.ofList with
    | [project, environment, key] => ofParts project environment none key
    | [project, environment, folder, key] => ofParts project environment (some folder) key
    | _ => .error .shape

/-- `Display`. -/
def display (r : SecretRef) : String :=
  String.ofList scheme ++ String.join (r.places.map (· ++ "/")) ++ r.key

/-- The parts of a path are valid. -/
def IsValid (r : SecretRef) : Prop := (∀ p ∈ r.places, validSlug p = true) ∧ validKey r.key = true

instance (r : SecretRef) : Decidable r.IsValid := inferInstanceAs (Decidable (_ ∧ _))

end SecretRef

theorem slug_eq_ok {s t : String} : slug s = .ok t ↔ validSlug s = true ∧ s = t := by
  unfold slug
  split
  · rename_i hvalid
    simp [hvalid]
  · rename_i hvalid
    simp [hvalid]

/-- A character of a slug. -/
theorem validSlug_chars {s : String} (h : validSlug s = true) :
    s.toList ≠ [] ∧ '/' ∉ s.toList ∧ '*' ∉ s.toList := by
  simp only [validSlug, Bool.decide_and, Bool.and_eq_true, decide_eq_true_eq] at h
  obtain ⟨hne, -, -, -, -, hall⟩ := h
  have hchars := List.all_eq_true.mp hall
  refine ⟨fun hnil => hne (String.toList_injective hnil), fun hc => ?_, fun hc => ?_⟩
  · exact absurd (hchars _ hc) (by decide)
  · exact absurd (hchars _ hc) (by decide)

theorem validKey_chars {s : String} (h : validKey s = true) :
    s.toList ≠ [] ∧ '/' ∉ s.toList ∧ '*' ∉ s.toList := by
  unfold validKey at h
  cases hs : s.toList with
  | nil => simp [hs] at h
  | cons c cs =>
    simp only [hs, Bool.and_eq_true] at h
    obtain ⟨-, hfirst, hrest⟩ := h
    have hnot : ∀ {d : Char}, (d.isAlpha || d == '_') = false → (d.isAlphanum || d == '_') = false →
        d ∉ c :: cs := by
      intro d hd hd' hmem
      rcases List.mem_cons.mp hmem with rfl | hmem
      · rw [hfirst] at hd
        cases hd
      · rw [List.all_eq_true.mp hrest d hmem] at hd'
        cases hd'
    exact ⟨List.cons_ne_nil _ _, hnot (by decide) (by decide), hnot (by decide) (by decide)⟩

theorem stripPrefix_eq_some {start text rest : List Char} :
    stripPrefix start text = some rest ↔ text = start ++ rest := by
  unfold stripPrefix
  split
  · rename_i hprefix
    obtain ⟨tail, rfl⟩ := hprefix
    simp
  · rename_i hprefix
    refine iff_of_false nofun fun h => hprefix ?_
    rw [h]
    exact List.prefix_append _ _

/-- Parts that each end with a separator, and a last one. -/
theorem flatMap_append_eq_intercalate {α : Type*} (sep : α) (parts : List (List α)) (last : List α) :
    parts.flatMap (· ++ [sep]) ++ last = [sep].intercalate (parts ++ [last]) := by
  induction parts with
  | nil => simp
  | cons part parts ih =>
    rw [List.flatMap_cons, List.append_assoc, ih]
    cases parts <;> simp

namespace SecretRef

/-- The segments of a path. -/
def segments (r : SecretRef) : List (List Char) := r.places.map String.toList ++ [r.key.toList]

theorem display_toList (r : SecretRef) :
    r.display.toList = scheme ++ ['/'].intercalate r.segments := by
  rw [segments, ← flatMap_append_eq_intercalate, display]
  simp [List.flatMap_map, String.toList_join]

theorem IsValid.not_mem {r : SecretRef} (h : r.IsValid) :
    ∀ part ∈ r.segments, '/' ∉ part ∧ '*' ∉ part := by
  intro part hpart
  rcases List.mem_append.mp hpart with hpart | hpart
  · obtain ⟨p, hp, rfl⟩ := List.mem_map.mp hpart
    exact (validSlug_chars (h.1 p hp)).2
  · rw [List.mem_singleton.mp hpart]
    exact (validKey_chars h.2).2

theorem mapM_slug_eq_ok {folder folder' : Option String} :
    folder.mapM slug = .ok folder' ↔ (∀ f ∈ folder, validSlug f = true) ∧ folder = folder' := by
  cases folder with
  | none =>
    constructor
    · intro h
      cases h
      exact ⟨fun f hf => absurd hf (by simp), rfl⟩
    · rintro ⟨-, rfl⟩
      rfl
  | some f =>
    have hmap : (some f).mapM slug = slug f >>= fun g => .ok (some g) := rfl
    rw [hmap, Fallible.bind_eq_ok]
    constructor
    · rintro ⟨g, hg, hsome⟩
      obtain ⟨hvalid, rfl⟩ := slug_eq_ok.mp hg
      cases hsome
      refine ⟨fun f' hf' => ?_, rfl⟩
      cases hf'
      exact hvalid
    · rintro ⟨hvalid, rfl⟩
      exact ⟨f, slug_eq_ok.mpr ⟨hvalid f rfl, rfl⟩, rfl⟩

theorem ofParts_eq_ok {project environment key : String} {folder : Option String} {r : SecretRef} :
    ofParts project environment folder key = .ok r ↔
      r.IsValid ∧ r = ⟨project, environment, folder, key⟩ := by
  unfold ofParts
  cases hkey : validKey key with
  | false =>
    refine iff_of_false (fun h => by cases h) ?_
    rintro ⟨hvalid, rfl⟩
    rw [hvalid.2] at hkey
    cases hkey
  | true =>
    rw [if_neg (by simp)]
    constructor
    · intro h
      obtain ⟨project', hproject, h⟩ := Fallible.bind_eq_ok.mp h
      obtain ⟨environment', henvironment, h⟩ := Fallible.bind_eq_ok.mp h
      obtain ⟨folder', hfolder, h⟩ := Fallible.bind_eq_ok.mp h
      obtain ⟨hvalid, rfl⟩ := slug_eq_ok.mp hproject
      obtain ⟨hvalid', rfl⟩ := slug_eq_ok.mp henvironment
      obtain ⟨hvalid'', rfl⟩ := mapM_slug_eq_ok.mp hfolder
      cases h
      refine ⟨⟨fun p hp => ?_, hkey⟩, rfl⟩
      simp only [places, List.mem_cons, Option.mem_toList] at hp
      rcases hp with rfl | rfl | hp
      · exact hvalid
      · exact hvalid'
      · exact hvalid'' p hp
    · rintro ⟨⟨hplaces, -⟩, rfl⟩
      have hproject : slug project = .ok project := slug_eq_ok.mpr ⟨hplaces _ (by simp [places]), rfl⟩
      have henvironment : slug environment = .ok environment :=
        slug_eq_ok.mpr ⟨hplaces _ (by simp [places]), rfl⟩
      have hfolder : folder.mapM slug = .ok folder :=
        mapM_slug_eq_ok.mpr ⟨fun f hf => hplaces f (by simp [places, Option.mem_def.mp hf]), rfl⟩
      refine Fallible.bind_eq_ok.mpr ⟨_, hproject, Fallible.bind_eq_ok.mpr ⟨_, henvironment, ?_⟩⟩
      exact Fallible.bind_eq_ok.mpr ⟨_, hfolder, rfl⟩

/-- The segments that a text is split into are those of one path. -/
theorem splitOn_segments (r : SecretRef) (h : ∀ part ∈ r.segments, '/' ∉ part) :
    ((['/'].intercalate r.segments).splitOn '/').map String.ofList = r.places ++ [r.key] := by
  rw [List.splitOn_intercalate '/' h (by simp [segments]), segments]
  simp [Function.comp_def]

/-- A path is accepted exactly when it is how a path with valid parts is written. -/
theorem fromStr_eq_ok_iff {s : String} {r : SecretRef} :
    fromStr s = .ok r ↔ r.IsValid ∧ r.display = s := by
  constructor
  · intro h
    unfold fromStr at h
    cases hrest : stripPrefix scheme s.toList with
    | none =>
      rw [hrest] at h
      cases h
    | some rest =>
      rw [hrest] at h
      dsimp only at h
      have hwritten : ∀ (project environment : String) (folder : Option String) (key : String),
          (rest.splitOn '/').map String.ofList =
            (⟨project, environment, folder, key⟩ : SecretRef).places ++ [key] →
          ofParts project environment folder key = .ok r → r.IsValid ∧ r.display = s := by
        intro project environment folder key hparts hok
        obtain ⟨hvalid, rfl⟩ := ofParts_eq_ok.mp hok
        refine ⟨hvalid, String.toList_injective ?_⟩
        have hsplit : rest.splitOn '/' =
            SecretRef.segments ⟨project, environment, folder, key⟩ := by
          have hmap := congrArg (List.map String.toList) hparts
          rw [List.map_map] at hmap
          simpa [segments, Function.comp_def] using hmap
        rw [display_toList, ← hsplit, List.intercalate_splitOn, stripPrefix_eq_some.mp hrest]
      split at h
      · rename_i project environment key hparts
        exact hwritten project environment none key hparts h
      · rename_i project environment folder key hparts
        exact hwritten project environment (some folder) key hparts h
      · cases h
  · rintro ⟨hvalid, rfl⟩
    have hrest := stripPrefix_eq_some.mpr (display_toList r)
    have hparts := splitOn_segments r fun part hpart => (hvalid.not_mem part hpart).1
    unfold fromStr
    rw [hrest]
    dsimp only
    rw [hparts]
    obtain ⟨project, environment, folder, key⟩ := r
    cases folder with
    | none => exact ofParts_eq_ok.mpr ⟨hvalid, rfl⟩
    | some folder => exact ofParts_eq_ok.mpr ⟨hvalid, rfl⟩

end SecretRef

end Zvault.Agents
