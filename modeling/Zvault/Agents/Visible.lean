import Zvault.Agents.Scopes
import Zvault.ProjectSync.Metas

/-!
# The structure an agent sees

`visible` of `manage.rs`, which decides on slugs, compared with what the scopes
allow, which is decided on paths. What remains of an environment still names the
one it falls back to.
-/

namespace Zvault.Agents

structure EnvironmentInfo where
  slug : String
  name : String
  kind : ProjectSync.EnvironmentKind
  /-- Slug of the environment it falls back to. -/
  inheritsFrom : Option String
  /-- This account holds no key for it. -/
  locked : Bool
  deriving DecidableEq, Repr

structure FolderInfo where
  slug : String
  name : String
  deriving DecidableEq, Repr

structure ProjectInfo where
  slug : String
  name : String
  owner : Bool
  environments : List EnvironmentInfo
  folders : List FolderInfo
  deriving DecidableEq, Repr

/-- A scope as slugs, and whether it covers everything below them. -/
def ScopePattern.place : ScopePattern → List String × Bool
  | .exact r => (r.places, false)
  | .under prefixes => (prefixes, true)

/-- What is left of a project for the scopes that start with it. -/
def ProjectInfo.keep (p : ProjectInfo) (mine : List (List String × Bool)) : ProjectInfo :=
  { p with
    environments := p.environments.filter fun e =>
      mine.any fun s => s.1.length = 1 || s.1[1]? = some e.slug
    folders := p.folders.filter fun f =>
      mine.any fun s => (s.2 && s.1.length < 3) || s.1[2]? = some f.slug }

/-- `visible`. -/
def visible (projects : List ProjectInfo) (scopes : List ScopePattern) : List ProjectInfo :=
  let places := scopes.map ScopePattern.place
  projects.filterMap fun p =>
    let mine := places.filter fun s => s.1[0]? = some p.slug
    if mine.isEmpty then none else some (p.keep mine)

/-- The slugs are slugs, as in metadata that was parsed. -/
def ProjectInfo.IsValid (p : ProjectInfo) : Prop :=
  validSlug p.slug = true ∧ (∀ e ∈ p.environments, validSlug e.slug = true) ∧
    ∀ f ∈ p.folders, validSlug f.slug = true

instance (p : ProjectInfo) : Decidable p.IsValid := inferInstanceAs (Decidable (_ ∧ _ ∧ _))

/-- The environments fall back to environments that are listed. -/
def ProjectInfo.FallsWithin (p : ProjectInfo) : Prop :=
  ∀ e ∈ p.environments, ∀ fallback ∈ e.inheritsFrom, ∃ e' ∈ p.environments, e'.slug = fallback

/-- The project without the fallbacks that are not listed. -/
def ProjectInfo.closed (p : ProjectInfo) : ProjectInfo :=
  { p with
    environments := p.environments.map fun e =>
      { e with inheritsFrom := e.inheritsFrom.filter fun fallback =>
          p.environments.any fun e' => e'.slug = fallback } }

/-- A scope allows a possible path with a property. -/
def ScopePattern.Opens (s : ScopePattern) (path : SecretRef → Prop) : Prop :=
  ∃ r : SecretRef, r.IsValid ∧ path r ∧ s.allows r = true

section Reached

variable (scopes : List ScopePattern)

def ReachesProject (project : String) : Prop :=
  ∃ s ∈ scopes, s.Opens fun r => r.project = project

def ReachesEnvironment (project environment : String) : Prop :=
  ∃ s ∈ scopes, s.Opens fun r => r.project = project ∧ r.environment = environment

def ReachesFolder (project folder : String) : Prop :=
  ∃ s ∈ scopes, s.Opens fun r => r.project = project ∧ r.folder = some folder

open Classical in
/-- The projects, environments and folders with a possible path that some scope allows. -/
noncomputable def reached (projects : List ProjectInfo) : List ProjectInfo :=
  (projects.filter fun p => ReachesProject scopes p.slug).map fun p =>
    { p with
      environments := p.environments.filter fun e => ReachesEnvironment scopes p.slug e.slug
      folders := p.folders.filter fun f => ReachesFolder scopes p.slug f.slug }

/-- What a scope reaches falls back to what a scope reaches. -/
def FallsOnReached (projects : List ProjectInfo) : Prop :=
  ∀ p ∈ projects, ∀ e ∈ p.environments, ReachesEnvironment scopes p.slug e.slug →
    ∀ fallback ∈ e.inheritsFrom,
      (∃ e' ∈ p.environments, e'.slug = fallback) ∧ ReachesEnvironment scopes p.slug fallback

end Reached

theorem map_eq_self_iff {α : Type*} {f : α → α} {l : List α} :
    l.map f = l ↔ ∀ x ∈ l, f x = x := by
  have hid : l.map f = l.map id ↔ ∀ x ∈ l, f x = id x := List.map_inj_left
  rwa [List.map_id] at hid

theorem ProjectInfo.closed_eq_self {p : ProjectInfo} : p.closed = p ↔ p.FallsWithin := by
  have hany : ∀ fallback, (p.environments.any fun e' => decide (e'.slug = fallback)) = true ↔
      ∃ e' ∈ p.environments, e'.slug = fallback := by simp
  constructor
  · intro h e he fallback hfallback
    have hsame := congrArg ProjectInfo.environments h
    have hkept := map_eq_self_iff.mp hsame e he
    have hfilter := congrArg EnvironmentInfo.inheritsFrom hkept
    dsimp only at hfilter
    rw [hfallback, Option.filter_some] at hfilter
    by_contra hnot
    rw [if_neg (fun hmem => hnot ((hany fallback).mp hmem))] at hfilter
    cases hfilter
  · intro h
    have hsame : p.closed.environments = p.environments := by
      refine map_eq_self_iff.mpr fun e he => ?_
      cases hfallback : e.inheritsFrom with
      | none => rw [Option.filter_none, ← hfallback]
      | some fallback =>
        rw [Option.filter_some, if_pos ((hany fallback).mpr (h e he fallback hfallback)), ← hfallback]
    calc p.closed = { p with environments := p.closed.environments } := rfl
      _ = p := by rw [hsame]

/-- The shapes of a valid scope. -/
theorem ScopePattern.IsValid.cases {s : ScopePattern} (h : s.IsValid) :
    (∃ r : SecretRef, r.IsValid ∧ s = .exact r) ∨
      (∃ p, validSlug p = true ∧ s = .under [p]) ∨
      (∃ p e, validSlug p = true ∧ validSlug e = true ∧ s = .under [p, e]) ∨
      ∃ p e f, validSlug p = true ∧ validSlug e = true ∧ validSlug f = true ∧
        s = .under [p, e, f] := by
  cases s with
  | exact r => exact Or.inl ⟨r, h, rfl⟩
  | under prefixes =>
    obtain ⟨hne, hlength, hall⟩ := h
    match prefixes, hne, hlength, hall with
    | [p], _, _, hall => exact Or.inr (Or.inl ⟨p, hall p (by simp), rfl⟩)
    | [p, e], _, _, hall =>
      exact Or.inr (Or.inr (Or.inl ⟨p, e, hall p (by simp), hall e (by simp), rfl⟩))
    | [p, e, f], _, _, hall =>
      exact Or.inr (Or.inr (Or.inr
        ⟨p, e, f, hall p (by simp), hall e (by simp), hall f (by simp), rfl⟩))

theorem validKey_a : validKey "A" = true := by decide

/-- A path of valid slugs, to some key. -/
theorem isValid_path {p e : String} {f : Option String} (hp : validSlug p = true)
    (he : validSlug e = true) (hf : ∀ x ∈ f, validSlug x = true) :
    (⟨p, e, f, "A"⟩ : SecretRef).IsValid := by
  refine ⟨fun x hx => ?_, validKey_a⟩
  rcases List.mem_cons.mp hx with rfl | hx
  · exact hp
  · rcases List.mem_cons.mp hx with rfl | hx
    · exact he
    · exact hf x (Option.mem_toList.mp hx)

theorem validSlug_a : validSlug "a" = true := by decide

namespace ScopePattern

variable {s : ScopePattern} {project environment folder : String}

/-- The slugs of a scope lead to the paths it allows. -/
theorem place_of_allows {r : SecretRef} (h : s.IsValid) (hallows : s.allows r = true) :
    s.place.1[0]? = some r.project ∧
      (s.place.1.length = 1 ∨ s.place.1[1]? = some r.environment) ∧
      ∀ folder ∈ r.folder,
        (s.place.2 = true ∧ s.place.1.length < 3) ∨ s.place.1[2]? = some folder := by
  rcases h.cases with ⟨r', -, rfl⟩ | ⟨p, -, rfl⟩ | ⟨p, e, -, -, rfl⟩ | ⟨p, e, f, -, -, -, rfl⟩
  · obtain rfl := of_decide_eq_true hallows
    refine ⟨rfl, Or.inr rfl, fun folder hin => Or.inr ?_⟩
    rw [Option.mem_def] at hin
    simp [place, SecretRef.places, hin]
  · simp only [allows, SecretRef.places, List.isPrefixOf_cons_cons, Bool.and_eq_true, beq_iff_eq]
      at hallows
    exact ⟨congrArg some hallows.1, Or.inl rfl, fun folder _ => Or.inl ⟨rfl, by simp [place]⟩⟩
  · simp only [allows, SecretRef.places, List.isPrefixOf_cons_cons, Bool.and_eq_true, beq_iff_eq]
      at hallows
    exact ⟨congrArg some hallows.1, Or.inr (congrArg some hallows.2.1),
      fun folder _ => Or.inl ⟨rfl, by simp [place]⟩⟩
  · simp only [allows, SecretRef.places, List.isPrefixOf_cons_cons, Bool.and_eq_true, beq_iff_eq]
      at hallows
    refine ⟨congrArg some hallows.1, Or.inr (congrArg some hallows.2.1), fun folder hin => ?_⟩
    rw [Option.mem_def.mp hin, Option.toList_some, List.isPrefixOf_cons_cons, Bool.and_eq_true,
      beq_iff_eq] at hallows
    exact Or.inr (congrArg some hallows.2.2.1)

theorem opens_project_iff (h : s.IsValid) :
    s.Opens (fun r => r.project = project) ↔ s.place.1[0]? = some project := by
  constructor
  · rintro ⟨r, -, rfl, hallows⟩
    exact (place_of_allows h hallows).1
  · intro hplace
    rcases h.cases with ⟨r, hr, rfl⟩ | ⟨p, hp, rfl⟩ | ⟨p, e, hp, he, rfl⟩ |
      ⟨p, e, f, hp, he, hf, rfl⟩
    · exact ⟨r, hr, Option.some.inj hplace, decide_eq_true rfl⟩
    · exact ⟨⟨p, "a", none, "A"⟩, isValid_path hp validSlug_a (by simp), Option.some.inj hplace,
        by simp [allows, SecretRef.places]⟩
    · exact ⟨⟨p, e, none, "A"⟩, isValid_path hp he (by simp), Option.some.inj hplace,
        by simp [allows, SecretRef.places]⟩
    · exact ⟨⟨p, e, some f, "A"⟩, isValid_path hp he (by simpa using hf), Option.some.inj hplace,
        by simp [allows, SecretRef.places]⟩

theorem opens_environment_iff (h : s.IsValid) (he : validSlug environment = true) :
    s.Opens (fun r => r.project = project ∧ r.environment = environment) ↔
      s.place.1[0]? = some project ∧
        (s.place.1.length = 1 ∨ s.place.1[1]? = some environment) := by
  constructor
  · rintro ⟨r, -, ⟨rfl, rfl⟩, hallows⟩
    exact ⟨(place_of_allows h hallows).1, (place_of_allows h hallows).2.1⟩
  · rintro ⟨hproject, henvironment⟩
    rcases h.cases with ⟨r, hr, rfl⟩ | ⟨p, hp, rfl⟩ | ⟨p, e, hp, he', rfl⟩ |
      ⟨p, e, f, hp, he', hf, rfl⟩
    · refine ⟨r, hr, ⟨Option.some.inj hproject, ?_⟩, decide_eq_true rfl⟩
      rcases henvironment with hlength | henvironment
      · simp [place, SecretRef.places] at hlength
      · exact Option.some.inj henvironment
    · exact ⟨⟨p, environment, none, "A"⟩, isValid_path hp he (by simp),
        ⟨Option.some.inj hproject, rfl⟩, by simp [allows, SecretRef.places]⟩
    · have hsame : e = environment := by simpa [place] using henvironment
      exact ⟨⟨p, e, none, "A"⟩, isValid_path hp he' (by simp),
        ⟨Option.some.inj hproject, hsame⟩, by simp [allows, SecretRef.places]⟩
    · have hsame : e = environment := by simpa [place] using henvironment
      exact ⟨⟨p, e, some f, "A"⟩, isValid_path hp he' (by simpa using hf),
        ⟨Option.some.inj hproject, hsame⟩, by simp [allows, SecretRef.places]⟩

theorem opens_folder_iff (h : s.IsValid) (hfolder : validSlug folder = true) :
    s.Opens (fun r => r.project = project ∧ r.folder = some folder) ↔
      s.place.1[0]? = some project ∧
        ((s.place.2 = true ∧ s.place.1.length < 3) ∨ s.place.1[2]? = some folder) := by
  have hvalid : ∀ x ∈ some folder, validSlug x = true := by simpa using hfolder
  constructor
  · rintro ⟨r, -, ⟨rfl, hin⟩, hallows⟩
    exact ⟨(place_of_allows h hallows).1, (place_of_allows h hallows).2.2 folder hin⟩
  · rintro ⟨hproject, hplace⟩
    rcases h.cases with ⟨r, hr, rfl⟩ | ⟨p, hp, rfl⟩ | ⟨p, e, hp, he, rfl⟩ |
      ⟨p, e, f, hp, he, hf, rfl⟩
    · refine ⟨r, hr, ⟨Option.some.inj hproject, ?_⟩, decide_eq_true rfl⟩
      rcases hplace with ⟨hunder, -⟩ | hplace
      · cases hunder
      · cases hin : r.folder with
        | none => simp [place, SecretRef.places, hin] at hplace
        | some f => simpa [place, SecretRef.places, hin] using hplace
    · exact ⟨⟨p, "a", some folder, "A"⟩, isValid_path hp validSlug_a hvalid,
        ⟨Option.some.inj hproject, rfl⟩, by simp [allows, SecretRef.places]⟩
    · exact ⟨⟨p, e, some folder, "A"⟩, isValid_path hp he hvalid,
        ⟨Option.some.inj hproject, rfl⟩, by simp [allows, SecretRef.places]⟩
    · have hsame : f = folder := by simpa [place] using hplace
      exact ⟨⟨p, e, some f, "A"⟩, isValid_path hp he (by simpa using hf),
        ⟨Option.some.inj hproject, congrArg some hsame⟩, by simp [allows, SecretRef.places]⟩

end ScopePattern

section Agree

variable {scopes : List ScopePattern} {projects projects' : List ProjectInfo} {p : ProjectInfo}

/-- The places that start with a project. -/
def placesOf (scopes : List ScopePattern) (project : String) : List (List String × Bool) :=
  (scopes.map ScopePattern.place).filter fun s => s.1[0]? = some project

theorem any_placesOf (scopes : List ScopePattern) (test : List String × Bool → Bool)
    (project : String) :
    (placesOf scopes project).any test = true ↔
      ∃ s ∈ scopes, s.place.1[0]? = some project ∧ test s.place = true := by
  simp only [placesOf, List.any_eq_true, List.mem_filter, List.mem_map, decide_eq_true_eq]
  constructor
  · rintro ⟨_, ⟨⟨s, hs, rfl⟩, hstart⟩, htest⟩
    exact ⟨s, hs, hstart, htest⟩
  · rintro ⟨s, hs, hstart, htest⟩
    exact ⟨s.place, ⟨⟨s, hs, rfl⟩, hstart⟩, htest⟩

theorem isEmpty_placesOf (hscopes : ∀ s ∈ scopes, s.IsValid) (project : String) :
    (placesOf scopes project).isEmpty = true ↔ ¬ReachesProject scopes project := by
  have hany := any_placesOf scopes (fun _ => true) project
  rw [List.isEmpty_iff, ← not_iff_not, not_not]
  refine Iff.trans ?_ (hany.trans ?_)
  · cases placesOf scopes project <;> simp
  · constructor
    · rintro ⟨s, hs, hstart, -⟩
      exact ⟨s, hs, (ScopePattern.opens_project_iff (hscopes s hs)).mpr hstart⟩
    · rintro ⟨s, hs, hopens⟩
      exact ⟨s, hs, (ScopePattern.opens_project_iff (hscopes s hs)).mp hopens, rfl⟩

open Classical in
/-- What `visible` keeps of a project is what the scopes reach of it. -/
theorem keep_placesOf (hscopes : ∀ s ∈ scopes, s.IsValid) (hp : p.IsValid) :
    p.keep (placesOf scopes p.slug) =
      { p with
        environments := p.environments.filter fun e => ReachesEnvironment scopes p.slug e.slug
        folders := p.folders.filter fun f => ReachesFolder scopes p.slug f.slug } := by
  obtain ⟨-, henvironments, hfolders⟩ := hp
  have henv : ∀ e ∈ p.environments,
      ((placesOf scopes p.slug).any fun s => s.1.length = 1 || s.1[1]? = some e.slug) =
        decide (ReachesEnvironment scopes p.slug e.slug) := by
    intro e he
    rw [Bool.eq_iff_iff, any_placesOf, decide_eq_true_eq]
    constructor
    · rintro ⟨s, hs, hstart, htest⟩
      exact ⟨s, hs, (ScopePattern.opens_environment_iff (hscopes s hs) (henvironments e he)).mpr
        ⟨hstart, by simpa using htest⟩⟩
    · rintro ⟨s, hs, hopens⟩
      obtain ⟨hstart, htest⟩ :=
        (ScopePattern.opens_environment_iff (hscopes s hs) (henvironments e he)).mp hopens
      exact ⟨s, hs, hstart, by simpa using htest⟩
  have hfolder : ∀ f ∈ p.folders,
      ((placesOf scopes p.slug).any fun s =>
          (s.2 && s.1.length < 3) || s.1[2]? = some f.slug) =
        decide (ReachesFolder scopes p.slug f.slug) := by
    intro f hf
    rw [Bool.eq_iff_iff, any_placesOf, decide_eq_true_eq]
    constructor
    · rintro ⟨s, hs, hstart, htest⟩
      exact ⟨s, hs, (ScopePattern.opens_folder_iff (hscopes s hs) (hfolders f hf)).mpr
        ⟨hstart, by simpa using htest⟩⟩
    · rintro ⟨s, hs, hopens⟩
      obtain ⟨hstart, htest⟩ :=
        (ScopePattern.opens_folder_iff (hscopes s hs) (hfolders f hf)).mp hopens
      exact ⟨s, hs, hstart, by simpa using htest⟩
  rw [ProjectInfo.keep, List.filter_congr henv, List.filter_congr hfolder]

/-- `visible` keeps exactly what has a possible path that some scope allows. -/
theorem visible_eq_reached (hscopes : ∀ s ∈ scopes, s.IsValid)
    (hprojects : ∀ p ∈ projects, p.IsValid) : visible projects scopes = reached scopes projects := by
  classical
  have hvisible : visible projects scopes = projects.filterMap fun p =>
      if (placesOf scopes p.slug).isEmpty then none else some (p.keep (placesOf scopes p.slug)) := rfl
  rw [hvisible, reached]
  clear hvisible
  induction projects with
  | nil => rfl
  | cons p projects ih =>
    have hrest := ih fun q hq => hprojects q (List.mem_cons_of_mem _ hq)
    by_cases hreach : ReachesProject scopes p.slug
    · have hsome : ¬(placesOf scopes p.slug).isEmpty = true :=
        fun hempty => (isEmpty_placesOf hscopes _).mp hempty hreach
      rw [List.filterMap_cons, if_neg hsome, List.filter_cons, if_pos (decide_eq_true hreach),
        List.map_cons, ← hrest, keep_placesOf hscopes (hprojects p List.mem_cons_self)]
    · have hnone := (isEmpty_placesOf hscopes _).mpr hreach
      rw [List.filterMap_cons, if_pos hnone, List.filter_cons,
        if_neg (fun h => hreach (of_decide_eq_true h)), ← hrest]

theorem ReachesEnvironment.project {project environment : String}
    (h : ReachesEnvironment scopes project environment) : ReachesProject scopes project := by
  obtain ⟨s, hs, r, hr, ⟨hproject, -⟩, hallows⟩ := h
  exact ⟨s, hs, r, hr, hproject, hallows⟩

theorem fallsWithin_reached :
    (∀ q ∈ reached scopes projects, q.FallsWithin) ↔ FallsOnReached scopes projects := by
  classical
  constructor
  · intro h p hp e he hreach fallback hfallback
    have hq := h _ (List.mem_map_of_mem
      (List.mem_filter.mpr ⟨hp, decide_eq_true hreach.project⟩)) e
      (List.mem_filter.mpr ⟨he, decide_eq_true hreach⟩) fallback hfallback
    obtain ⟨e', he', hslug⟩ := hq
    obtain ⟨he', hreach'⟩ := List.mem_filter.mp he'
    exact ⟨⟨e', he', hslug⟩, hslug ▸ of_decide_eq_true hreach'⟩
  · intro h q hq e he fallback hfallback
    obtain ⟨p, hp, rfl⟩ := List.mem_map.mp hq
    obtain ⟨hp, -⟩ := List.mem_filter.mp hp
    obtain ⟨he, hreach⟩ := List.mem_filter.mp he
    obtain ⟨⟨e', he', hslug⟩, hreach'⟩ := h p hp e he (of_decide_eq_true hreach) fallback hfallback
    exact ⟨e', List.mem_filter.mpr ⟨he', decide_eq_true (hslug ▸ hreach')⟩, hslug⟩

theorem closed_reached_eq_self :
    (reached scopes projects).map ProjectInfo.closed = reached scopes projects ↔
      FallsOnReached scopes projects := by
  rw [map_eq_self_iff, ← fallsWithin_reached]
  exact forall₂_congr fun q _ => ProjectInfo.closed_eq_self

/-- The result keeps exactly what the scopes reach, and it names nothing else exactly when what
they reach falls back to what they reach. Then trees that agree on what the scopes reach give the
same result. -/
theorem visible_exact_iff (hscopes : ∀ s ∈ scopes, s.IsValid)
    (hprojects : ∀ p ∈ projects, p.IsValid) :
    visible projects scopes = reached scopes projects ∧
      ((∀ q ∈ visible projects scopes, q.FallsWithin) ↔ FallsOnReached scopes projects) ∧
      ∀ projects', (∀ p ∈ projects', p.IsValid) → FallsOnReached scopes projects →
        (reached scopes projects').map ProjectInfo.closed =
          (reached scopes projects).map ProjectInfo.closed →
        (visible projects' scopes = visible projects scopes ↔ FallsOnReached scopes projects') := by
  refine ⟨visible_eq_reached hscopes hprojects, ?_, fun projects' hprojects' hfalls hagree => ?_⟩
  · rw [visible_eq_reached hscopes hprojects]
    exact fallsWithin_reached
  · rw [visible_eq_reached hscopes hprojects, visible_eq_reached hscopes hprojects',
      ← closed_reached_eq_self, hagree, closed_reached_eq_self.mpr hfalls]
    exact eq_comm

end Agree

section Examples

/-- A project with two environments, one of which falls back to the other. -/
def webProject (fallback : Option String) : ProjectInfo where
  slug := "web"
  name := "Web"
  owner := true
  environments := [⟨"dev", "Development", .development, fallback, false⟩,
    ⟨"prod", "Production", .production, none, false⟩]
  folders := [⟨"stripe", "Stripe"⟩]

theorem visible_exact_example :
    ({ webProject none with
      environments := [⟨"dev", "Development", .development, none, false⟩] } :
      ProjectInfo).FallsWithin := by
  have hscopes : ∀ s ∈ [ScopePattern.under ["web", "dev"]], s.IsValid := by decide
  have hprojects : ∀ p ∈ [webProject none], p.IsValid := by decide
  refine (visible_exact_iff hscopes hprojects).2.1.mpr ?_ _ (by decide)
  intro p hp e he _ fallback hfallback
  rw [List.mem_singleton] at hp
  subst hp
  simp only [webProject, List.mem_cons, List.not_mem_nil, or_false] at he
  rcases he with rfl | rfl
  · cases hfallback
  · cases hfallback

/-- An environment that is kept names one that no scope reaches, and so shows a difference between
two trees in what no scope reaches. -/
theorem fallback_shown :
    visible [webProject (some "prod")] [.under ["web", "dev"]] =
      [{ webProject none with
        environments := [⟨"dev", "Development", .development, some "prod", false⟩] }] ∧
    visible [webProject none] [.under ["web", "dev"]] =
      [{ webProject none with
        environments := [⟨"dev", "Development", .development, none, false⟩] }] ∧
    ¬ReachesEnvironment [.under ["web", "dev"]] "web" "prod" := by
  refine ⟨by decide, by decide, ?_⟩
  rintro ⟨s, hs, r, -, ⟨hproject, henvironment⟩, hallows⟩
  rw [List.mem_singleton] at hs
  subst hs
  simp only [ScopePattern.allows, SecretRef.places, List.isPrefixOf_cons_cons, Bool.and_eq_true,
    beq_iff_eq, henvironment] at hallows
  exact absurd hallows.2.1 (by decide)

end Examples

end Zvault.Agents
