import Mathlib.Data.List.Find
import Zvault.Cli.Snapshot
import Zvault.ProjectSync.Fallback

/-!
# What a token reads and what the app shows

A token carries the keys of the environments of its chain, which ends at the
first that its creator has no key for; the app walks on. The theorem says when
`zv` and the app still take a value from the same environment.
-/

namespace Zvault.Cli

open ProjectSync Walks

variable {W K : Type}

/-- A secret as a token of some environments is sent it. -/
def secretEntry (blobs : EntryType → Uuid → EncryptedBlob) (envIds : List Uuid)
    (s : StoredSecret EncryptedBlob) : Entry where
  id := s.id
  kind := .secret
  deleted := false
  encryptedMeta := some (blobs .secret s.id)
  values := envIds.filterMap fun id => (s.values id).map (id, ·)

/-- The live entries that the API answers a token with, their metadata sealed. -/
def tokenEntries (p : StoredProject EncryptedBlob) (blobs : EntryType → Uuid → EncryptedBlob)
    (envIds : List Uuid) : List Entry :=
  p.environments.map (fun e => ⟨e.1, .environment, false, some (blobs .environment e.1), []⟩) ++
    (p.folders.map (fun f => ⟨f.1, .folder, false, some (blobs .folder f.1), []⟩) ++
      p.secrets.map (secretEntry blobs envIds))

/-- The keys of a token open what was sealed for it, and the values are sealed under their
environments' key ids. -/
structure Opens (token : AgentToken W K) (session : Session W) (p : StoredProject EncryptedBlob)
    (blobs : EntryType → Uuid → EncryptedBlob) (key : K) : Prop where
  project : token.unwrapProjectKey p.id session.encryptedKey = some key
  environmentKey : ∀ env ∈ session.environments, ∃ environmentKey,
    token.unwrapEnvironmentKey p.id env.environmentId env.keyVersion env.encryptedKey =
      some environmentKey
  projectMeta : ∃ plain, openJson token key session.encryptedMeta p.id (.projectMeta p.id) =
    .ok plain ∧ plain.slug = some p.metadata.slug
  environment : ∀ e ∈ p.environments, ∃ plain, openJson token key (blobs .environment e.1) e.1
    (metaAad p.id .environment e.1) = .ok plain ∧ plain.slug = some e.2.slug
  folder : ∀ f ∈ p.folders, ∃ plain, openJson token key (blobs .folder f.1) f.1
    (metaAad p.id .folder f.1) = .ok plain ∧ plain.slug = some f.2.slug
  secret : ∀ s ∈ p.secrets, ∃ plain, openJson token key (blobs .secret s.id) s.id
    (metaAad p.id .secret s.id) = .ok plain ∧ plain.key = some s.metadata.key ∧
      plain.folderId = s.metadata.folderId
  values : ∀ s ∈ p.secrets, ∀ id b, s.values id = some b → b.kid = .record id

/-- What a sealed value is without its key id. -/
def sealedOf (b : EncryptedBlob) : Sealed := ⟨b.nonce, b.ct⟩

/-- `zv` opens the entries and takes a secret's value from where the app does. -/
def ReadsSame (token : AgentToken W K) (session : Session W) (entries : List Entry)
    (project : Project) (secret : ProjectSecret EncryptedBlob) (envId : Uuid) : Prop :=
  ∃ snapshot, openSnapshot token session entries = .ok snapshot ∧
    ∃ s ∈ snapshot.secrets, s.id = secret.id ∧
      (snapshot.source s).map (fun x => (x.1.id, x.2)) =
        (valueSource project secret envId).bind fun id =>
          (secret.values id).map fun b => (id, sealedOf b)

section Chains

variable {V : Type} (localeLE : String → String → Bool) (owner : Bool) (keys : Uuid → Bool)
  (p : StoredProject V)

/-- The environments of a token that is made on a device. -/
def tokenEnvironments (envId : Uuid) : List Uuid :=
  tokenChain (p.seen localeLE owner keys).environments envId

/-- An environment of the chain that the device has no key for comes before a value that it has
the key for, and there is none before it. -/
def CutOff (s : StoredSecret V) (envId : Uuid) : Prop :=
  ∃ before closed after, p.chain localeLE envId = before ++ closed :: after ∧
    (∀ id ∈ before, ((s.values id).isSome && keys id) = false) ∧
    ¬ (closed ∈ p.environments.map Prod.fst ∧ keys closed = true) ∧
    ∃ id ∈ closed :: after, ((s.values id).isSome && keys id) = true

variable {localeLE owner keys p}

/-- The environments of a project that a device has the key for. -/
theorem isOpen_seen (id : Uuid) :
    (((p.seen localeLE owner keys).environments.find? (·.id = id)).any fun env => !env.locked) =
      decide (id ∈ p.environments.map Prod.fst ∧ keys id = true) := by
  have hmem (env : Environment) : env ∈ (p.seen localeLE owner keys).environments →
      env.id ∈ p.environments.map Prod.fst ∧ env.locked = !keys env.id := by
    intro henv
    simp only [StoredProject.seen, ProjectState.project, StoredProject.state, List.mem_mergeSort,
      List.map_map, List.mem_map] at henv
    obtain ⟨e, he, rfl⟩ := henv
    exact ⟨List.mem_map_of_mem he, rfl⟩
  cases hfind : (p.seen localeLE owner keys).environments.find? (·.id = id) with
  | some env =>
    have hid : env.id = id := by simpa using List.find?_some hfind
    obtain ⟨hin, hlocked⟩ := hmem env (List.mem_of_find?_eq_some hfind)
    rw [hid] at hin hlocked
    simp [hlocked, hin]
  | none =>
    have hout : id ∉ p.environments.map Prod.fst := by
      intro hin
      obtain ⟨e, he, rfl⟩ := List.mem_map.mp hin
      have hnone := List.find?_eq_none.mp hfind ⟨e.1, e.2.name, e.2.slug, e.2.kind, e.2.position,
        e.2.inheritsFrom, !keys e.1, e.2.sync.getD []⟩
      simp only [StoredProject.seen, ProjectState.project, StoredProject.state, List.mem_mergeSort,
        List.map_map, List.mem_map] at hnone
      exact hnone ⟨e, he, rfl⟩ (by simp)
    simp [hout]

theorem tokenEnvironments_eq (envId : Uuid) : tokenEnvironments localeLE owner keys p envId =
    (p.chain localeLE envId).takeWhile fun id =>
      decide (id ∈ p.environments.map Prod.fst ∧ keys id = true) := by
  rw [tokenEnvironments, tokenChain_eq, StoredProject.fallbacks_seen]
  congr 1
  funext id
  exact isOpen_seen id

/-- A token has the keys of its environments, and no environment twice. -/
theorem mem_tokenEnvironments {envId id : Uuid}
    (h : id ∈ tokenEnvironments localeLE owner keys p envId) :
    id ∈ p.environments.map Prod.fst ∧ keys id = true := by
  rw [tokenEnvironments_eq] at h
  have hopen := List.mem_takeWhile_imp h
  simpa only [decide_eq_true_eq] using hopen

theorem nodup_tokenEnvironments (envId : Uuid) :
    (tokenEnvironments localeLE owner keys p envId).Nodup := by
  rw [tokenEnvironments_eq]
  exact (follow_nodup _ _ _).1.sublist (List.takeWhile_sublist _)

/-- Where the first value of a token's environments is, it is where the app takes it from, unless
the token is cut off. -/
theorem find?_tokenEnvironments_iff {s : StoredSecret V} {envId : Uuid} :
    (tokenEnvironments localeLE owner keys p envId).find? (fun id => (s.values id).isSome) =
      valueSource (p.seen localeLE owner keys) (p.seenSecret localeLE owner keys s) envId ↔
        ¬ CutOff localeLE keys p s envId := by
  have hopen : (tokenEnvironments localeLE owner keys p envId).find?
      (fun id => (s.values id).isSome) = (tokenEnvironments localeLE owner keys p envId).find?
        fun id => (s.values id).isSome && keys id := by
    refine List.find?_congr fun id hid => ?_
    rw [(mem_tokenEnvironments hid).2, Bool.and_true]
  rw [hopen, StoredProject.valueSource_seen, tokenEnvironments_eq, find?_takeWhile_iff, CutOff]
  simp only [decide_eq_false_iff_not]

end Chains

section Reads

variable {token : AgentToken W K} {session : Session W} {entries : List Entry}
  {p : StoredProject EncryptedBlob} {blobs : EntryType → Uuid → EncryptedBlob} {key : K}
  {envIds : List Uuid}

/-- The entries of a token are listed once. -/
theorem distinct_tokenEntries (p : StoredProject EncryptedBlob)
    (blobs : EntryType → Uuid → EncryptedBlob) (envIds : List Uuid) :
    Distinct (tokenEntries p blobs envIds) := by
  have hkind {α : Type} (l : List α) (f : α → Uuid) (kind : EntryType) (h : (l.map f).Nodup) :
      (l.map fun a => (kind, f a)).Nodup := by
    rw [← Function.comp_def (Prod.mk kind) f, ← List.map_map]
    exact h.map fun _ _ heq => (Prod.mk.inj heq).2
  simp only [Distinct, tokenEntries, List.map_append, List.map_map, Function.comp_def,
    List.nodup_append]
  refine ⟨hkind _ _ _ p.nodup_environments, ⟨hkind _ _ _ p.nodup_folders,
    hkind _ _ _ p.nodup_secrets, ?_⟩, ?_⟩
  · intro a ha b hb heq
    obtain ⟨f, -, rfl⟩ := List.mem_map.mp ha
    obtain ⟨s, -, rfl⟩ := List.mem_map.mp hb
    cases heq
  · intro a ha b hb heq
    obtain ⟨e, -, rfl⟩ := List.mem_map.mp ha
    rcases List.mem_append.mp hb with hb | hb
    · obtain ⟨f, -, rfl⟩ := List.mem_map.mp hb
      cases heq
    · obtain ⟨s, -, rfl⟩ := List.mem_map.mp hb
      cases heq

/-- Metadata that is listed once and can be opened. -/
theorem metaOf_ok {live : List Entry} (hdistinct : Distinct live) {e : Entry} (he : e ∈ live)
    {b : EncryptedBlob} (hmeta : e.encryptedMeta = some b) {plain : Plain} {projectId : Uuid}
    (hplain : openJson token key b e.id (metaAad projectId e.kind e.id) = .ok plain) :
    metaOf token key projectId live e.kind e.id = .ok (some plain) := by
  rw [metaOf_self hdistinct he hmeta, hplain]
  rfl

theorem mem_ofKind_secret {live : List Entry} (hserved : live.Perm (tokenEntries p blobs envIds))
    {e : Entry} : e ∈ ofKind .secret live ↔ ∃ s ∈ p.secrets, e = secretEntry blobs envIds s := by
  rw [ofKind, List.mem_filter, hserved.mem_iff, tokenEntries]
  simp only [List.mem_append, List.mem_map, decide_eq_true_eq]
  constructor
  · rintro ⟨⟨x, -, rfl⟩ | ⟨x, -, rfl⟩ | ⟨s, hs, rfl⟩, hkind⟩
    · cases hkind
    · cases hkind
    · exact ⟨s, hs, rfl⟩
  · rintro ⟨s, hs, rfl⟩
    exact ⟨Or.inr (Or.inr ⟨s, hs, rfl⟩), rfl⟩

/-- What a token is answered with can be opened. -/
theorem openSnapshot_isOk (hopens : Opens token session p blobs key)
    (hproject : session.projectId = p.id)
    (hserved : (liveOf entries).Perm (tokenEntries p blobs envIds))
    (henvironments : ∀ env ∈ session.environments,
      env.environmentId ∈ p.environments.map Prod.fst)
    (hsome : session.environments ≠ []) :
    ∃ snapshot, openSnapshot token session entries = .ok snapshot := by
  have hdistinct : Distinct (liveOf entries) :=
    (hserved.map _).nodup_iff.mpr (distinct_tokenEntries p blobs envIds)
  have hopenedEnvironments := Fallible.mapM_ok_of_forall (l := session.environments)
    (f := openEnvironment token key p.id (liveOf entries)) fun env henv => by
      obtain ⟨environmentKey, hkey⟩ := hopens.environmentKey env henv
      obtain ⟨e, he, hid⟩ := List.mem_map.mp (henvironments env henv)
      obtain ⟨plain, hplain, hslug⟩ := hopens.environment e he
      have hlisted : (⟨e.1, .environment, false, some (blobs .environment e.1), []⟩ : Entry) ∈
          liveOf entries :=
        hserved.mem_iff.mpr (List.mem_append_left _ (List.mem_map.mpr ⟨e, he, rfl⟩))
      have hmeta := metaOf_ok hdistinct hlisted rfl hplain
      rw [hid] at hmeta
      refine ⟨⟨env.environmentId, e.2.slug, environmentKey⟩, ?_⟩
      simp only [openEnvironment, hkey]
      refine Fallible.bind_eq_ok.mpr ⟨some plain, hmeta, ?_⟩
      simp only [slugOf, hslug]
      rfl
  have hopenedFolders := Fallible.mapM_ok_of_forall (l := ofKind .folder (liveOf entries))
    (f := openFolder token key p.id (liveOf entries)) fun e he => by
      obtain ⟨hlisted, hkind⟩ := List.mem_filter.mp he
      have hentry := hserved.mem_iff.mp hlisted
      simp only [tokenEntries, List.mem_append, List.mem_map] at hentry
      rcases hentry with ⟨x, -, rfl⟩ | ⟨f, hf, rfl⟩ | ⟨x, -, rfl⟩
      · cases of_decide_eq_true hkind
      · obtain ⟨plain, hplain, hslug⟩ := hopens.folder f hf
        refine ⟨some (f.1, f.2.slug), ?_⟩
        refine Fallible.bind_eq_ok.mpr ⟨some plain, metaOf_ok hdistinct hlisted rfl hplain, ?_⟩
        simp only [slugOf, hslug]
        rfl
      · cases of_decide_eq_true hkind
  obtain ⟨environments, henvs⟩ := hopenedEnvironments
  obtain ⟨folders, hfolders⟩ := hopenedFolders
  have hopenedSecrets := Fallible.mapM_ok_of_forall (l := ofKind .secret (liveOf entries))
    (f := openSecret token key p.id (liveOf entries) folders.reduceOption) fun e he => by
      obtain ⟨s, hs, rfl⟩ := (mem_ofKind_secret hserved).mp he
      obtain ⟨plain, hplain, hkey, -⟩ := hopens.secret s hs
      obtain ⟨values, hvalues⟩ := Fallible.mapM_ok_of_forall (l := (secretEntry blobs envIds s).values)
        (f := fun v => (sealedBy v.2 v.1).map (v.1, ·)) fun v hv => by
          obtain ⟨id, -, hid⟩ := List.mem_filterMap.mp hv
          obtain ⟨b, hb, rfl⟩ := Option.map_eq_some_iff.mp hid
          refine ⟨(id, sealedOf b), ?_⟩
          simp only [sealedBy, hopens.values s hs id b hb, if_true]
          rfl
      have hmeta := metaOf_ok hdistinct (List.mem_filter.mp he).1 rfl hplain
      refine ⟨some ⟨plain.folderId.bind (lastOf folders.reduceOption), s.metadata.key, lastOf values,
        s.id⟩, Fallible.bind_eq_ok.mpr ⟨some plain, hmeta, ?_⟩⟩
      simp only [hkey]
      exact Fallible.bind_eq_ok.mpr ⟨values, hvalues, rfl⟩
  obtain ⟨secrets, hsecrets⟩ := hopenedSecrets
  obtain ⟨plain, hplain, hslug⟩ := hopens.projectMeta
  have hne : environments.isEmpty = false := by
    have hlength := (Fallible.mapM_eq_ok.mp henvs).length_eq
    cases environments with
    | nil => exact absurd (List.length_eq_zero_iff.mp hlength) hsome
    | cons _ _ => rfl
  refine ⟨⟨session.tokenName, session.expiresAt, p.id, p.metadata.slug, environments,
    secrets.reduceOption⟩, ?_⟩
  unfold openSnapshot
  simp only [hproject, hopens.project]
  refine Fallible.bind_eq_ok.mpr ⟨plain, hplain, Fallible.bind_eq_ok.mpr ⟨environments, henvs, ?_⟩⟩
  rw [hne]
  refine Fallible.bind_eq_ok.mpr ⟨folders, hfolders, Fallible.bind_eq_ok.mpr ⟨secrets, hsecrets, ?_⟩⟩
  simp only [slugOf, hslug]
  rfl

theorem map_fst_values {V : Type} (envIds : List Uuid) (values : Uuid → Option V) :
    (envIds.filterMap fun id => (values id).map (id, ·)).map Prod.fst =
      envIds.filter fun id => (values id).isSome := by
  induction envIds with
  | nil => rfl
  | cons id rest ih =>
    rw [List.filterMap_cons, List.filter_cons]
    cases values id with
    | none => exact ih
    | some b => exact congrArg (id :: ·) ih

/-- A place that has a value is told by the place and the value. -/
theorem map_fst_bind {V V' : Type} {place : Option Uuid} {values : Uuid → Option V} (f : V → V')
    (h : ∀ id ∈ place, (values id).isSome = true) :
    (place.bind fun id => (values id).map fun v => (id, f v)).map Prod.fst = place := by
  cases place with
  | none => rfl
  | some id =>
    obtain ⟨v, hv⟩ := Option.isSome_iff_exists.mp (h id rfl)
    simp [hv]

/-- A secret of a snapshot has the values of the token's environments. -/
theorem values_of_mem {folders : List (Option (Uuid × String))} {snapshot : Snapshot K}
    (hopens : Opens token session p blobs key)
    (hserved : (liveOf entries).Perm (tokenEntries p blobs envIds)) (hnodup : envIds.Nodup)
    (hopened : Opened token session entries key folders snapshot) {s : StoredSecret EncryptedBlob}
    (hs : s ∈ p.secrets) {secret : Secret} (hsecret : secret ∈ snapshot.secrets)
    (hid : secret.id = s.id) {id : Uuid} (henv : id ∈ envIds) :
    secret.values id = (s.values id).map sealedOf := by
  obtain ⟨e, he, hopen⟩ := hopened.mem_secrets hsecret
  obtain ⟨s', hs', rfl⟩ := (mem_ofKind_secret hserved).mp he
  obtain ⟨-, values, -, -, hsame, -, hvalues, hsealed⟩ := openSecret_ok hopen
  obtain rfl : s' = s := List.inj_on_of_nodup_map p.nodup_secrets hs' hs (hsame.symm.trans hid)
  have hids : values.map Prod.fst = (secretEntry blobs envIds s').values.map Prod.fst :=
    Fallible.map_eq_map hsealed fun v _ out hout => hout.2
  have hdistinct : (values.map Prod.fst).Nodup := by
    rw [hids]
    refine hnodup.sublist ?_
    rw [secretEntry, map_fst_values]
    exact List.filter_sublist
  rw [hvalues]
  cases hvalue : s'.values id with
  | some b =>
    rw [Option.map_some, lastOf_eq_some hdistinct]
    have hlisted : (id, b) ∈ (secretEntry blobs envIds s').values :=
      List.mem_filterMap.mpr ⟨id, henv, by rw [hvalue]; rfl⟩
    obtain ⟨out, hout, hsealed', hfst⟩ := Fallible.exists_right hsealed hlisted
    simp only [sealedBy, hopens.values s' hs id b hvalue, if_true] at hsealed'
    obtain rfl : out = (id, sealedOf b) := Prod.ext hfst (Except.ok.inj hsealed').symm
    exact hout
  | none =>
    cases hlast : lastOf values id with
    | none => rfl
    | some sealed' =>
      have hmem := (lastOf_eq_some hdistinct).mp hlast
      obtain ⟨v, hv, -, hfst⟩ := Fallible.exists_left hsealed hmem
      obtain ⟨id', -, hid'⟩ := List.mem_filterMap.mp hv
      obtain ⟨b, hb, rfl⟩ := Option.map_eq_some_iff.mp hid'
      obtain rfl : id = id' := hfst
      rw [hvalue] at hb
      cases hb

/-- **What a token reads.** With a token for an environment that its creator can open, `zv` takes
each secret's value from where the app shows it to the creator, and finds none where the app shows
none, unless an environment of the chain that the creator has no key for lies before the value. -/
theorem readsSame_iff {localeLE : String → String → Bool} {owner : Bool} {keys : Uuid → Bool}
    {envId : Uuid} {s : StoredSecret EncryptedBlob} (hopens : Opens token session p blobs key)
    (hproject : session.projectId = p.id)
    (htoken : session.environments.map (·.environmentId) =
      tokenEnvironments localeLE owner keys p envId)
    (henv : envId ∈ p.environments.map Prod.fst) (hkey : keys envId = true)
    (hserved : (liveOf entries).Perm
      (tokenEntries p blobs (tokenEnvironments localeLE owner keys p envId)))
    (hs : s ∈ p.secrets) :
    ReadsSame token session entries (p.seen localeLE owner keys)
      (p.seenSecret localeLE owner keys s) envId ↔ ¬ CutOff localeLE keys p s envId := by
  have henvironments (env) (hin : env ∈ session.environments) :
      env.environmentId ∈ tokenEnvironments localeLE owner keys p envId := by
    rw [← htoken]
    exact List.mem_map_of_mem hin
  have hself : envId ∈ tokenEnvironments localeLE owner keys p envId := by
    have hchain : p.chain localeLE envId = envId :: (p.chain localeLE envId).tail := by
      simp [StoredProject.chain, fallbacks, walkSteps, follow]
    rw [tokenEnvironments_eq, hchain, List.takeWhile_cons_of_pos (by simp [henv, hkey])]
    exact List.mem_cons_self
  have hsome : session.environments ≠ [] := by
    rintro hnil
    rw [← htoken, hnil] at hself
    cases hself
  obtain ⟨snapshot, hsnapshot⟩ := openSnapshot_isOk hopens hproject hserved
    (fun env hin => (mem_tokenEnvironments (henvironments env hin)).1) hsome
  obtain ⟨key', folders, hopened⟩ := openSnapshot_ok hsnapshot
  obtain rfl : key = key' := by
    have hkey' := hopened.unwrapped
    rw [hproject, hopens.project] at hkey'
    exact Option.some.inj hkey'
  have hids := hopened.environment_ids.trans htoken
  -- Where `zv` takes the value from.
  have hsource (secret : Secret) (hsecret : secret ∈ snapshot.secrets) (hid : secret.id = s.id) :
      (snapshot.source secret).map (fun x => (x.1.id, x.2)) =
        ((tokenEnvironments localeLE owner keys p envId).find? fun id => (s.values id).isSome).bind
          fun id => (s.values id).map fun b => (id, sealedOf b) := by
    have hvalues {id : Uuid} (hin : id ∈ tokenEnvironments localeLE owner keys p envId) :
        secret.values id = (s.values id).map sealedOf :=
      values_of_mem hopens hserved (nodup_tokenEnvironments envId) hopened hs hsecret hid hin
    have hfind : (tokenEnvironments localeLE owner keys p envId).find?
        (fun id => (secret.values id).isSome) =
          (tokenEnvironments localeLE owner keys p envId).find? fun id => (s.values id).isSome := by
      refine List.find?_congr fun id hin => ?_
      rw [hvalues hin, Option.isSome_map]
    rw [snapshot.source_eq, hids, hfind]
    cases hfound : (tokenEnvironments localeLE owner keys p envId).find?
        fun id => (s.values id).isSome with
    | none => rfl
    | some id =>
      rw [Option.bind_some, Option.bind_some, hvalues (List.mem_of_find?_eq_some hfound),
        Option.map_map]
      rfl
  have hlisted : ∃ secret ∈ snapshot.secrets, secret.id = s.id := by
    have hmem : s.id ∈ snapshot.secrets.map (·.id) := by
      rw [hopened.secret_ids]
      · exact List.mem_map.mpr ⟨_, (mem_ofKind_secret hserved).mpr ⟨s, hs, rfl⟩, rfl⟩
      · intro e he
        have hentry := hserved.mem_iff.mp he
        simp only [tokenEntries, List.mem_append, List.mem_map] at hentry
        rcases hentry with ⟨x, -, rfl⟩ | ⟨x, -, rfl⟩ | ⟨x, -, rfl⟩ <;> rfl
    obtain ⟨secret, hsecret, hid⟩ := List.mem_map.mp hmem
    exact ⟨secret, hsecret, hid⟩
  -- Where the app does.
  have happ : ((valueSource (p.seen localeLE owner keys) (p.seenSecret localeLE owner keys s) envId).bind
      fun id => ((p.seenSecret localeLE owner keys s).values id).map fun b => (id, sealedOf b)) =
        (valueSource (p.seen localeLE owner keys) (p.seenSecret localeLE owner keys s) envId).bind
          fun id => (s.values id).map fun b => (id, sealedOf b) := by
    rw [StoredProject.valueSource_seen]
    cases hfound : (p.chain localeLE envId).find? fun id => (s.values id).isSome && keys id with
    | none => rfl
    | some id =>
      have hhas := List.find?_some hfound
      simp only [Bool.and_eq_true] at hhas
      simp [StoredProject.seenSecret, ProjectState.viewSecret, hhas.2]
  have hplaces : (tokenEnvironments localeLE owner keys p envId).find?
      (fun id => (s.values id).isSome) =
        valueSource (p.seen localeLE owner keys) (p.seenSecret localeLE owner keys s) envId ↔
          ¬ CutOff localeLE keys p s envId := find?_tokenEnvironments_iff
  rw [← hplaces, ReadsSame, happ]
  constructor
  · rintro ⟨snapshot', hsnapshot', secret, hsecret, hid, hsame⟩
    obtain rfl : snapshot = snapshot' := Except.ok.inj (hsnapshot.symm.trans hsnapshot')
    rw [hsource secret hsecret hid] at hsame
    have hfirst := congrArg (Option.map Prod.fst) hsame
    rwa [map_fst_bind, map_fst_bind] at hfirst
    · intro id hfound
      rw [StoredProject.valueSource_seen] at hfound
      have hhas := List.find?_some hfound
      simp only [Bool.and_eq_true] at hhas
      exact hhas.1
    · intro id hfound
      have hhas := List.find?_some hfound
      exact hhas
  · intro hsame
    obtain ⟨secret, hsecret, hid⟩ := hlisted
    exact ⟨snapshot, hsnapshot, secret, hsecret, hid, by rw [hsource secret hsecret hid, hsame]⟩

end Reads

/-- A key that only production has. -/
def liveKeySecret : StoredSecret EncryptedBlob where
  id := 7
  metadata := ⟨"Live key", "LIVE_KEY", none, [], none⟩
  values id := if id = 1 then some ⟨.record 1, 0, 0⟩ else none

/-- A token whose keys open everything. -/
def shopToken : AgentToken Unit Unit where
  unwrapProjectKey _ _ := some ()
  unwrapEnvironmentKey _ _ _ _ := some ()
  openPadded
    | _, _, .projectMeta _ => some ⟨some "shop", none, none, none⟩
    | _, _, .environmentMeta _ id =>
      some ⟨some (if id = 3 then "dev" else if id = 2 then "staging" else "production"), none, none,
        none⟩
    | _, _, .folderMeta _ _ => none
    | _, _, .secretMeta _ _ => some ⟨none, some "LIVE_KEY", none, none⟩
    | _, _, .secretValue .. => some ⟨none, none, none, some "sk_live"⟩

/-- The session of a token of some environments of the shop. -/
def shopSession (envIds : List Uuid) : Session Unit where
  tokenName := "CI"
  expiresAt := "2027-01-01T00:00:00.000Z"
  projectId := 0
  encryptedMeta := ⟨.record 0, 0, 0⟩
  encryptedKey := ()
  environments := envIds.map fun id => ⟨id, 1, ()⟩

/-- The metadata of the shop's entries, sealed. -/
def shopBlobs (_ : EntryType) (id : Uuid) : EncryptedBlob := ⟨.record id, 0, 0⟩

/-- The app shows production's value for development, past staging, whose key the creator does not
have; the token for development ends before staging, and `zv` finds no value. -/
theorem token_reads_less :
    let localeLE := fun a b : String => decide (a ≤ b)
    let keys := fun id : Uuid => decide (id ≠ 2)
    let shop := shopProject liveKeySecret
    tokenEnvironments localeLE true keys shop 3 = [3] ∧
      valueSource (shop.seen localeLE true keys) (shop.seenSecret localeLE true keys liveKeySecret) 3 =
        some 1 ∧
      ¬ ReadsSame shopToken (shopSession [3]) (tokenEntries shop shopBlobs [3])
        (shop.seen localeLE true keys) (shop.seenSecret localeLE true keys liveKeySecret) 3 := by
  intro localeLE keys shop
  have hshown : valueSource (shop.seen localeLE true keys)
      (shop.seenSecret localeLE true keys liveKeySecret) 3 = some 1 := by
    rw [StoredProject.valueSource_seen, shopProject_chain]
    decide
  refine ⟨?_, hshown, ?_⟩
  · rw [tokenEnvironments_eq, shopProject_chain]
    decide
  · rintro ⟨snapshot, hsnapshot, secret, hsecret, -, hsame⟩
    rw [hshown] at hsame
    have hopened : openSnapshot shopToken (shopSession [3]) (tokenEntries shop shopBlobs [3]) =
        .ok ⟨"CI", "2027-01-01T00:00:00.000Z", 0, "shop", [⟨3, "dev", ()⟩],
          [⟨none, "LIVE_KEY", lastOf [], 7⟩]⟩ := rfl
    obtain rfl := Except.ok.inj (hopened.symm.trans hsnapshot)
    obtain rfl := List.mem_singleton.mp hsecret
    cases hsame

/-- A creator with all keys makes a token that reads production's value for development. -/
theorem token_reads_all :
    let localeLE := fun a b : String => decide (a ≤ b)
    let keys := fun _ : Uuid => true
    let shop := shopProject liveKeySecret
    ReadsSame shopToken (shopSession [3, 2, 1]) (tokenEntries shop shopBlobs [3, 2, 1])
      (shop.seen localeLE true keys) (shop.seenSecret localeLE true keys liveKeySecret) 3 := by
  intro localeLE keys shop
  have htoken : tokenEnvironments localeLE true keys shop 3 = [3, 2, 1] := by
    rw [tokenEnvironments_eq, shopProject_chain]
    decide
  have hopens : Opens shopToken (shopSession [3, 2, 1]) shop shopBlobs () := by
    refine ⟨rfl, fun _ _ => ⟨(), rfl⟩, ⟨_, rfl, rfl⟩, fun e he => ?_, fun f hf => ?_,
      fun s hs => ?_, fun s hs id b hb => ?_⟩
    · simp only [shop, shopProject, List.mem_cons, List.not_mem_nil, or_false] at he
      rcases he with rfl | rfl | rfl <;> exact ⟨_, rfl, rfl⟩
    · cases hf
    · obtain rfl := List.mem_singleton.mp hs
      exact ⟨_, rfl, rfl, rfl⟩
    · obtain rfl := List.mem_singleton.mp hs
      simp only [liveKeySecret] at hb
      split at hb
      · rename_i hid
        cases hb
        rw [hid]
      · cases hb
  have hserved : (liveOf (tokenEntries shop shopBlobs [3, 2, 1])).Perm
      (tokenEntries shop shopBlobs (tokenEnvironments localeLE true keys shop 3)) := by
    rw [htoken]
    exact .refl _
  refine (readsSame_iff hopens rfl htoken.symm (by decide) rfl hserved
    (List.mem_singleton_self _)).mpr ?_
  rintro ⟨before, closed, after, hchain, -, hclosed, -⟩
  rw [shopProject_chain] at hchain
  have hmem : closed ∈ [3, 2, 1] := hchain ▸ List.mem_append_right _ List.mem_cons_self
  exact hclosed ⟨hmem, rfl⟩

end Zvault.Cli
