import Mathlib.Data.List.Perm.Basic
import Zvault.ProjectSync.Fallback

/-!
# What an access request is released

`releaseItems` of `teamModel.ts` with its list of what is missing. A request lists
references, and may list one twice.
-/

namespace Zvault.ProjectSync

variable {V : Type}

/-- What `releaseItems` returns. -/
structure Release (V : Type) where
  items : List (ReleaseItem V)
  missing : List String

/-- `releaseItems`, with the references that have no value here. -/
def releaseWithMissing (project : Project) (secrets : List (ProjectSecret V)) (envId : RecordId)
    (items : List String) : Release V :=
  items.foldl (fun r item =>
    match releaseItem project secrets envId item with
    | some released => { r with items := r.items ++ [released] }
    | none => { r with missing := r.missing ++ [item] }) ⟨[], []⟩

section Split

variable {project : Project} {secrets : List (ProjectSecret V)} {envId : RecordId}
  {items : List String} {item : String} {released : ReleaseItem V}

theorem releaseItem_eq_some (h : releaseItem project secrets envId item = some released) :
    ∃ env path secret, project.environments.find? (·.id = envId) = some env ∧
      parseSecretPath item = some path ∧ path.project = project.slug ∧
      path.environment = env.slug ∧ secret ∈ secrets ∧ secret.projectId = project.id ∧
      secret.key = path.key ∧ secret.folder.map (·.slug) = path.folder ∧
      released.item = item ∧ released.secretId = secret.id ∧
      valueSource project secret envId = some released.environmentId ∧
      secret.values released.environmentId = some released.encryptedValue := by
  simp only [releaseItem, Option.bind_eq_bind, Option.bind_eq_some_iff, Option.pure_def,
    Option.some_inj, Option.guard_eq_some'] at h
  obtain ⟨env, henv, path, hpath, _, ⟨hproject, henvironment⟩, secret, hfind, source, hsource,
    value, hvalue, rfl⟩ := h
  have hof := List.find?_some hfind
  simp only [decide_eq_true_eq] at hof
  exact ⟨env, path, secret, henv, hpath, hproject, henvironment, List.mem_of_find?_eq_some hfind,
    hof.1, hof.2.1, hof.2.2, rfl, rfl, hsource, hvalue⟩

/-- The loop splits the request in its order. -/
theorem releaseWithMissing_eq (project : Project) (secrets : List (ProjectSecret V))
    (envId : RecordId) (items : List String) :
    releaseWithMissing project secrets envId items =
      ⟨items.filterMap (releaseItem project secrets envId),
        items.filter fun item => (releaseItem project secrets envId item).isNone⟩ := by
  have hloop : ∀ (start : Release V), items.foldl (fun r item =>
      match releaseItem project secrets envId item with
      | some released => { r with items := r.items ++ [released] }
      | none => { r with missing := r.missing ++ [item] }) start =
      ⟨start.items ++ items.filterMap (releaseItem project secrets envId),
        start.missing ++
          items.filter fun item => (releaseItem project secrets envId item).isNone⟩ := by
    induction items with
    | nil => intro start; simp
    | cons item items ih =>
      intro start
      rw [List.foldl_cons, ih]
      cases hitem : releaseItem project secrets envId item with
      | some released => simp [hitem]
      | none => simp [hitem]
  exact hloop _

/-- Without what is missing it is what the views name. -/
theorem releaseWithMissing_items : (releaseWithMissing project secrets envId items).items =
    releaseItems project secrets envId items := by
  rw [releaseWithMissing_eq, releaseItems]

theorem map_item_filterMap (items : List String) :
    (items.filterMap (releaseItem project secrets envId)).map ReleaseItem.item =
      items.filter fun item => (releaseItem project secrets envId item).isSome := by
  induction items with
  | nil => rfl
  | cons item items ih =>
    cases hitem : releaseItem project secrets envId item with
    | some released =>
      obtain ⟨-, -, -, -, -, -, -, -, -, -, -, hsame, -⟩ := releaseItem_eq_some hitem
      simp [hitem, ih, hsame]
    | none => simp [hitem, ih]

end Split

section Approver

variable {localeLE : String → String → Bool} {known : KnownProjects V} {p : StoredProject V}
  {owner : Bool} {keys : RecordId → Bool} {envId : RecordId} {items : List String} {item : String}
  {released : ReleaseItem V}

/-- What a reference releases is the value of the secret it names, from the environment that the
approver takes it from, whose key the approver holds. -/
structure IsRight (localeLE : String → String → Bool) (p : StoredProject V) (owner : Bool)
    (keys : RecordId → Bool) (envId : RecordId) (released : ReleaseItem V) (s : StoredSecret V)
    (path : SecretPath) : Prop where
  secret : s ∈ p.secrets ∧ released.secretId = s.id
  named : parseSecretPath released.item = some path ∧ path.project = p.metadata.slug ∧
    path.key = s.metadata.key ∧
    path.folder = (p.seenSecret localeLE owner keys s).folder.map (·.slug)
  environment : ∃ env ∈ (p.seen localeLE owner keys).environments,
    env.id = envId ∧ path.environment = env.slug
  source : valueSource (p.seen localeLE owner keys) (p.seenSecret localeLE owner keys s) envId =
    some released.environmentId
  value : s.values released.environmentId = some released.encryptedValue
  key : keys released.environmentId = true

theorem isRight_of_releaseItem (hstate : p.state owner keys ∈ known.states)
    (h : releaseItem (p.seen localeLE owner keys) (toView localeLE known.states).secrets envId item =
      some released) :
    released.item = item ∧ ∃ s path, IsRight localeLE p owner keys envId released s path := by
  obtain ⟨env, path, secret, henv, hpath, hproject, henvironment, hmem, hof, hkey, hfolder, hitem,
    hid, hsource, hvalue⟩ := releaseItem_eq_some h
  obtain ⟨s, hs, rfl⟩ := known.mem_secrets hstate hmem hof
  have hopened : (if keys released.environmentId then s.values released.environmentId else none) =
      some released.encryptedValue := hvalue
  have hkeys : keys released.environmentId = true := by
    by_contra hno
    rw [if_neg hno] at hopened
    cases hopened
  rw [if_pos hkeys] at hopened
  exact ⟨hitem, s, path, ⟨hs, hid⟩, ⟨hitem ▸ hpath, hproject, hkey.symm, hfolder.symm⟩,
    ⟨env, List.mem_of_find?_eq_some henv, by simpa using List.find?_some henv, henvironment⟩,
    hsource, hopened, hkeys⟩

/-- Two references that release one secret are the same text. -/
theorem releaseItem_inj (hstate : p.state owner keys ∈ known.states) {item' : String}
    {released' : ReleaseItem V}
    (h : releaseItem (p.seen localeLE owner keys) (toView localeLE known.states).secrets envId item =
      some released)
    (h' : releaseItem (p.seen localeLE owner keys) (toView localeLE known.states).secrets envId
      item' = some released') (hid : released.secretId = released'.secretId) : item = item' := by
  obtain ⟨env, path, secret, henv, hpath, hproject, henvironment, hmem, hof, hkey, hfolder, -,
    hsecret, -⟩ := releaseItem_eq_some h
  obtain ⟨env', path', secret', henv', hpath', hproject', henvironment', hmem', hof', hkey',
    hfolder', -, hsecret', -⟩ := releaseItem_eq_some h'
  obtain ⟨s, hs, rfl⟩ := known.mem_secrets hstate hmem hof
  have hsame := known.eq_seenSecret hstate hs hmem' hof' (hsecret'.symm.trans (hid.symm.trans hsecret))
  subst hsame
  cases henv.symm.trans henv'
  have hpaths : path = path' := by
    obtain ⟨project, environment, folder, key⟩ := path
    obtain ⟨project', environment', folder', key'⟩ := path'
    cases hproject.trans hproject'.symm
    cases henvironment.trans henvironment'.symm
    cases hkey.symm.trans hkey'
    cases hfolder.symm.trans hfolder'
    rfl
  rw [← (parseSecretPath_eq_some_iff.mp hpath).2, ← (parseSecretPath_eq_some_iff.mp hpath').2, hpaths]

/-- A release splits the request: each reference, in its order and as often as it is listed, is
released or missing. What is released is right, and a request without repetition is released
without repetition. -/
theorem release_splits (hstate : p.state owner keys ∈ known.states) :
    let r := releaseWithMissing (p.seen localeLE owner keys) (toView localeLE known.states).secrets
      envId items
    (∃ has : String → Bool, r.items.map ReleaseItem.item = items.filter has ∧
      r.missing = items.filter fun item => !has item) ∧
    (items.Nodup → (r.items.map ReleaseItem.secretId).Nodup) ∧
    ∀ released ∈ r.items, ∃ s path, IsRight localeLE p owner keys envId released s path := by
  intro r
  have hr : r = _ := releaseWithMissing_eq _ _ _ _
  rw [hr]
  refine ⟨⟨fun item => (releaseItem (p.seen localeLE owner keys)
    (toView localeLE known.states).secrets envId item).isSome, map_item_filterMap items, ?_⟩, ?_, ?_⟩
  · simp
  · intro hnodup
    rw [List.map_filterMap]
    refine hnodup.filterMap fun item item' id hid hid' => ?_
    obtain ⟨released, hreleased, rfl⟩ := Option.map_eq_some_iff.mp hid
    obtain ⟨released', hreleased', hsame⟩ := Option.map_eq_some_iff.mp hid'
    exact releaseItem_inj hstate hreleased hreleased' hsame.symm
  · intro released hreleased
    obtain ⟨item, -, hitem⟩ := List.mem_filterMap.mp hreleased
    exact (isRight_of_releaseItem hstate hitem).2

end Approver

section Examples

/-- A device that knows the shop with all its keys. -/
theorem release_splits_example :
    let localeLE := fun a b : String => decide (a ≤ b)
    let shop := shopProject databaseSecret
    ((releaseWithMissing (shop.seen localeLE false fun _ => true)
      (toView localeLE (shopKnown fun _ => true).states).secrets 3
      ["zv://shop/dev/DATABASE_URL"]).items.map ReleaseItem.secretId).Nodup := by
  intro localeLE shop
  have hstate : shop.state false (fun _ => true) ∈ (shopKnown fun _ => true).states :=
    List.mem_singleton.mpr rfl
  exact (release_splits hstate).2.1 (List.nodup_singleton _)

/-- A reference that a request lists twice is released twice. -/
theorem listed_twice :
    let shop : Project := ⟨0, "shop", "Shop", true, [⟨3, "Development", "dev", .development, 0, none,
      false, []⟩], []⟩
    let secret : ProjectSecret String := ⟨7, 0, "Database", "DATABASE_URL", none, fun _ => "dev"⟩
    (releaseWithMissing shop [secret] 3
      ["zv://shop/dev/DATABASE_URL", "zv://shop/dev/DATABASE_URL"]).items.map
        ReleaseItem.secretId = [7, 7] := by
  intro shop secret
  have hpath : parseSecretPath "zv://shop/dev/DATABASE_URL" =
      some ⟨"shop", "dev", none, "DATABASE_URL"⟩ :=
    parseSecretPath_eq_some_iff.mpr ⟨by decide +kernel, by decide +kernel⟩
  have hitem : releaseItem shop [secret] 3 "zv://shop/dev/DATABASE_URL" =
      some ⟨"zv://shop/dev/DATABASE_URL", 7, 3, "dev"⟩ := by
    unfold releaseItem
    rw [hpath]
    rfl
  simp [releaseWithMissing, hitem]

end Examples

end Zvault.ProjectSync
