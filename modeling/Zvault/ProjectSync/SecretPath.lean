import Zvault.ProjectSync.Metas
import Zvault.Text.Regex
import Zvault.Text.Separated

/-!
# Secret paths in the apps

`parseSecretPath` and `formatSecretPath` of `projects.ts`. A path is accepted
exactly when it is how a path of valid parts is written.
-/

namespace Zvault.ProjectSync

open Text

/-- `SecretPath`. -/
structure SecretPath where
  project : String
  environment : String
  /-- `none` for a secret at the top of the project. -/
  folder : Option String
  key : String
  deriving DecidableEq, Repr

/-- `[^/]+`. -/
def segment : Regex Char := .plus (.char (· ≠ '/'))

/-- `PATH`. -/
def pathRegex : Regex Char :=
  .seq (.lit ['z', 'v', ':', '/', '/']) (.seq (.group 1 segment) (.seq (.lit ['/'])
    (.seq (.group 2 segment) (.seq (.lit ['/'])
      (.seq (.opt (.seq (.group 3 segment) (.lit ['/']))) (.group 4 segment))))))

/-- The parts of a path are valid. -/
def SecretPath.IsValid (p : SecretPath) : Prop :=
  IsSlug p.project ∧ IsSlug p.environment ∧ (∀ f ∈ p.folder, IsSlug f) ∧ IsSecretKeyName p.key

instance (p : SecretPath) : Decidable p.IsValid := inferInstanceAs (Decidable (_ ∧ _ ∧ _ ∧ _))

def parseSecretPath (path : String) : Option SecretPath :=
  match pathRegex.fullMatch path.toList with
  | none => none
  | some m =>
    match m 1, m 2, m 4 with
    | some project, some environment, some key =>
      let parsed : SecretPath := ⟨String.ofList project, String.ofList environment,
        (m 3).map String.ofList, String.ofList key⟩
      if parsed.IsValid then some parsed else none
    | _, _, _ => none

def formatSecretPath (p : SecretPath) : String :=
  "zv://" ++ p.project ++ "/" ++ p.environment ++ "/" ++
    (match p.folder with
      | some folder => if folder = "" then "" else folder ++ "/"
      | none => "") ++ p.key

/-- What a segment can be. -/
def IsSegment (text : List Char) : Prop := text ≠ [] ∧ '/' ∉ text

/-- The segments of a path. -/
def segments (project environment : List Char) (folder : Option (List Char)) (key : List Char) :
    List (List Char) :=
  project :: environment :: (folder.toList ++ [key])

/-- What the groups of `PATH` capture. -/
def captured (project environment : List Char) (folder : Option (List Char)) (key : List Char) :
    Captures Char
  | 1 => some project
  | 2 => some environment
  | 3 => folder
  | 4 => some key
  | _ => none

section

variable (project environment : List Char) (folder : Option (List Char)) (key : List Char)

@[simp] theorem captured_one : captured project environment folder key 1 = some project := rfl

@[simp] theorem captured_two : captured project environment folder key 2 = some environment := rfl

@[simp] theorem captured_three : captured project environment folder key 3 = folder := rfl

@[simp] theorem captured_four : captured project environment folder key 4 = some key := rfl

end

theorem matches_segment {groups groups' : Captures Char} {part : List Char} :
    Regex.Matches segment groups part groups' ↔ IsSegment part ∧ groups' = groups := by
  rw [segment, Regex.matches_plus_char, IsSegment, and_assoc]
  refine and_congr_right fun _ => and_congr_left fun _ => ?_
  constructor
  · intro hall hslash
    simpa using hall '/' hslash
  · intro hslash c hc
    refine decide_eq_true fun h => hslash (h ▸ hc)

/-- The groups of a path with a folder. -/
theorem captured_folder (project environment folder key : List Char) :
    Function.update (Function.update (Function.update (Function.update (fun _ => none) 1
      (some project)) 2 (some environment)) 3 (some folder)) 4 (some key) =
    captured project environment (some folder) key := by
  funext n
  rcases n with _ | _ | _ | _ | _ | n <;> simp [captured, Function.update]

/-- The groups of a path at the top of the project. -/
theorem captured_top (project environment key : List Char) :
    Function.update (Function.update (Function.update (fun _ => none) 1 (some project)) 2
      (some environment)) 4 (some key) = captured project environment none key := by
  funext n
  rcases n with _ | _ | _ | _ | _ | n <;> simp [captured, Function.update]

/-- How a path matches. -/
theorem matches_path {text : List Char} {groups : Captures Char} :
    Regex.Matches pathRegex (fun _ => none) text groups ↔
      ∃ project environment folder key, (∀ s ∈ segments project environment folder key, IsSegment s) ∧
        text = ['z', 'v', ':', '/', '/'] ++
          ['/'].intercalate (segments project environment folder key) ∧
        groups = captured project environment folder key := by
  simp only [pathRegex, Regex.matches_seq, Regex.matches_lit, Regex.matches_group, matches_segment,
    Regex.matches_opt]
  constructor
  · rintro ⟨_, _, _, rfl, ⟨rfl, rfl⟩, project, _, _, rfl, ⟨_, ⟨hproject, rfl⟩, rfl⟩, _, _, _, rfl,
      ⟨rfl, rfl⟩, environment, _, _, rfl, ⟨_, ⟨henvironment, rfl⟩, rfl⟩, _, _, _, rfl, ⟨rfl, rfl⟩,
      _, key, _, rfl, hfolder, _, ⟨hkey, rfl⟩, rfl⟩
    rcases hfolder with ⟨folder, _, _, rfl, ⟨_, ⟨hfolder, rfl⟩, rfl⟩, rfl, rfl⟩ | ⟨rfl, rfl⟩
    · refine ⟨project, environment, some folder, key, ?_, ?_, ?_⟩
      · simp [segments, hproject, henvironment, hfolder, hkey]
      · simp [segments]
      · exact captured_folder _ _ _ _
    · refine ⟨project, environment, none, key, ?_, ?_, ?_⟩
      · simp [segments, hproject, henvironment, hkey]
      · simp [segments]
      · exact captured_top _ _ _
  · rintro ⟨project, environment, folder, key, hsegments, rfl, rfl⟩
    simp only [segments, List.mem_cons, List.mem_append, Option.mem_toList, List.not_mem_nil,
      or_false, forall_eq_or_imp] at hsegments
    obtain ⟨hproject, henvironment, hrest⟩ := hsegments
    have hkey := hrest key (Or.inr rfl)
    cases folder with
    | some folder =>
      have hfolder := hrest folder (Or.inl rfl)
      refine ⟨_, _, _, ?_, ⟨rfl, rfl⟩, project, _, _, rfl, ⟨_, ⟨hproject, rfl⟩, rfl⟩, _, _, _, rfl,
        ⟨rfl, rfl⟩, environment, _, _, rfl, ⟨_, ⟨henvironment, rfl⟩, rfl⟩, _, _, _, rfl, ⟨rfl, rfl⟩,
        _, key, _, rfl, Or.inl ⟨folder, _, _, rfl, ⟨_, ⟨hfolder, rfl⟩, rfl⟩, rfl, rfl⟩, _,
        ⟨hkey, rfl⟩, (captured_folder _ _ _ _).symm⟩
      simp [segments]
    | none =>
      refine ⟨_, _, _, ?_, ⟨rfl, rfl⟩, project, _, _, rfl, ⟨_, ⟨hproject, rfl⟩, rfl⟩, _, _, _, rfl,
        ⟨rfl, rfl⟩, environment, _, _, rfl, ⟨_, ⟨henvironment, rfl⟩, rfl⟩, _, _, _, rfl, ⟨rfl, rfl⟩,
        _, key, _, rfl, Or.inr ⟨rfl, rfl⟩, _, ⟨hkey, rfl⟩, (captured_top _ _ _).symm⟩
      simp [segments]

/-- The segments of a path are read off its text. -/
theorem segments_inj {project environment key project' environment' key' : List Char}
    {folder folder' : Option (List Char)}
    (h : segments project environment folder key = segments project' environment' folder' key') :
    project = project' ∧ environment = environment' ∧ folder = folder' ∧ key = key' := by
  cases folder <;> cases folder' <;> simp_all [segments]

/-- A path matches in one way only. -/
theorem fullMatch_path_iff {text : List Char} {groups : Captures Char} :
    pathRegex.fullMatch text = some groups ↔
      Regex.Matches pathRegex (fun _ => none) text groups := by
  refine ⟨Regex.matches_of_fullMatch, fun h => Regex.fullMatch_eq_some h fun groups' h' => ?_⟩
  obtain ⟨project, environment, folder, key, hsegments, rfl, rfl⟩ := matches_path.mp h
  obtain ⟨project', environment', folder', key', hsegments', htext, rfl⟩ := matches_path.mp h'
  have hsplit := congrArg (List.splitOn '/') (List.append_cancel_left htext)
  rw [List.splitOn_intercalate _ (fun s hs => (hsegments s hs).2) (by simp [segments]),
    List.splitOn_intercalate _ (fun s hs => (hsegments' s hs).2) (by simp [segments])] at hsplit
  obtain ⟨rfl, rfl, rfl, rfl⟩ := segments_inj hsplit
  rfl

theorem IsSlug.isSegment {s : String} (h : IsSlug s) : IsSegment s.toList := by
  obtain ⟨-, hparts⟩ := h
  have hne := (forall_splitOn_ne_nil_iff s.toList).mp fun part hpart => (hparts part hpart).1
  have hchars := (forall_splitOn_forall_iff (p := fun c => isSlugChar c = true) s.toList).mp
    fun part hpart => List.all_eq_true.mp (hparts part hpart).2
  refine ⟨hne.1, fun hslash => ?_⟩
  exact absurd (hchars '/' hslash (by decide)) (by decide)

theorem IsSecretKeyName.isSegment {s : String} (h : IsSecretKeyName s) : IsSegment s.toList := by
  obtain ⟨hwithin, hchars, -⟩ := h
  refine ⟨fun hempty => ?_, fun hslash => ?_⟩
  · have hlength := hwithin.1
    rw [← String.length_toList, hempty] at hlength
    exact absurd hlength (by decide)
  · exact absurd (List.all_eq_true.mp hchars '/' hslash) (by decide)

/-- The segments of a path with valid parts. -/
theorem SecretPath.IsValid.isSegment {p : SecretPath} (h : p.IsValid) :
    ∀ s ∈ segments p.project.toList p.environment.toList (p.folder.map String.toList) p.key.toList,
      IsSegment s := by
  obtain ⟨hproject, henvironment, hfolder, hkey⟩ := h
  intro s hs
  simp only [segments, List.mem_cons, List.mem_append, Option.mem_toList,
    Option.map_eq_some_iff, List.not_mem_nil, or_false] at hs
  rcases hs with rfl | rfl | ⟨f, hf, rfl⟩ | rfl
  · exact hproject.isSegment
  · exact henvironment.isSegment
  · exact (hfolder f hf).isSegment
  · exact hkey.isSegment

/-- The text of a path whose folder, if it has one, has a name. -/
theorem formatSecretPath_toList {p : SecretPath} (hfolder : ∀ f ∈ p.folder, f ≠ "") :
    (formatSecretPath p).toList = ['z', 'v', ':', '/', '/'] ++ ['/'].intercalate
      (segments p.project.toList p.environment.toList (p.folder.map String.toList) p.key.toList) := by
  unfold formatSecretPath
  cases hf : p.folder with
  | none => simp [segments]
  | some f =>
    dsimp only
    rw [if_neg (hfolder f hf)]
    simp [segments]

/-- A path is accepted exactly when it is how a path with valid parts is written. -/
theorem parseSecretPath_eq_some_iff {s : String} {p : SecretPath} :
    parseSecretPath s = some p ↔ p.IsValid ∧ formatSecretPath p = s := by
  have hname : ∀ {f : String}, IsSlug f → f ≠ "" := by
    rintro f hf rfl
    exact hf.isSegment.1 rfl
  constructor
  · intro h
    unfold parseSecretPath at h
    split at h
    · cases h
    rename_i groups hgroups
    obtain ⟨project, environment, folder, key, -, htext, rfl⟩ :=
      matches_path.mp (fullMatch_path_iff.mp hgroups)
    dsimp only [captured_one, captured_two, captured_three, captured_four] at h
    split at h
    · rename_i hvalid
      cases h
      refine ⟨hvalid, String.toList_injective ?_⟩
      rw [formatSecretPath_toList fun f hf => hname (hvalid.2.2.1 f hf), htext]
      cases folder <;> simp
    · cases h
  · rintro ⟨hvalid, rfl⟩
    have htext := formatSecretPath_toList fun f hf => hname (hvalid.2.2.1 f hf)
    have hgroups := fullMatch_path_iff.mpr (matches_path.mpr
      ⟨_, _, _, _, hvalid.isSegment, htext, rfl⟩)
    unfold parseSecretPath
    rw [hgroups]
    dsimp only [captured_one, captured_two, captured_three, captured_four]
    have hparsed : (⟨String.ofList p.project.toList, String.ofList p.environment.toList,
        (p.folder.map String.toList).map String.ofList, String.ofList p.key.toList⟩ : SecretPath) =
        p := by
      cases p with
      | mk project environment folder key => cases folder <;> simp
    have haccepted : ∀ q : SecretPath, q = p → (if q.IsValid then some q else none) = some p := by
      rintro _ rfl
      exact if_pos hvalid
    exact haccepted _ hparsed

end Zvault.ProjectSync
