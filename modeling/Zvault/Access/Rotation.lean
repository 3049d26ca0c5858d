import Zvault.Access.Reconcile
import Zvault.Access.Requests
import Zvault.Db.Schema
import Mathlib.Data.List.Dedup

/-!
# Rotating an environment's key

What the checks of a rotation establish and what its transaction writes. An
accepted rotation replaces the environment's grants and values as the request
says and touches no other environment; a rejected one leaves the database as the
checks that every request starts with left it.
-/

namespace Zvault

open Relational AccessFacts

namespace EnvironmentsService

variable {db db' : Db} {env : Env} {accountId environmentId : Uuid} {now : Timestamp}
  {req : RotateEnvironmentKeyRequest}

/-- A stored value of one environment. -/
def OfEnvironment (env : Env) (v : SecretValueRow) : Prop :=
  v.projectId = env.projectId ∧ v.environmentId = env.environmentId

/-- A grant of one environment's key. -/
def GrantOf (env : Env) (g : KeyGrantRow) : Prop :=
  g.projectId = env.projectId ∧ g.resourceId = env.environmentId

/-- An account a rotation must reach: standing access and a published key. -/
def MustReceive (db : Db) (env : Env) (now : Timestamp) (accountId : Uuid) : Prop :=
  holdsKey (levelOf db env (.account accountId) now) = true ∧
    ((org db env.orgId (some env.ownerId)).keys (.account accountId)).isSome = true

/-- Wraps pass when their recipients are distinct, allowed, and wrapped to the key on file
by the wrapper's own key. -/
theorem checkWraps_eq_none {wrapperKey : Option PublicKey} {keys : Holder → Option PublicKey}
    {allowed : Uuid → Bool} {seen : List Uuid} {wraps : List MemberKeyWrap} :
    checkWraps wrapperKey keys allowed seen wraps = none ↔
      (wraps.map MemberKeyWrap.recipientId).Nodup ∧ ∀ w ∈ wraps, w.recipientId ∉ seen ∧
        allowed w.recipientId = true ∧ keys (.account w.recipientId) = some w.recipientPublicKey ∧
        some w.wrapperPublicKey = wrapperKey := by
  induction wraps generalizing seen with
  | nil => simp [checkWraps]
  | cons w wraps ih =>
    simp only [checkWraps, List.map_cons, List.nodup_cons, List.mem_cons, forall_eq_or_imp]
    by_cases hseen : w.recipientId ∈ seen
    · simp [hseen]
    by_cases hallowed : allowed w.recipientId = true
    swap
    · simp [hseen, hallowed]
    by_cases hkey : keys (.account w.recipientId) = some w.recipientPublicKey
    swap
    · simp [hseen, hallowed, hkey]
    by_cases hwrapper : some w.wrapperPublicKey = wrapperKey
    swap
    · simp [hseen, hallowed, hkey, hwrapper]
    simp only [hseen, hallowed, hkey, hwrapper, if_false, Bool.not_true, Bool.false_eq_true,
      ne_eq, not_true_eq_false, ih, List.mem_cons, not_or]
    constructor
    · rintro ⟨hnodup, hrest⟩
      refine ⟨⟨?_, hnodup⟩, ⟨not_false, trivial, trivial, trivial⟩,
        fun x hx => ⟨(hrest x hx).1.2, (hrest x hx).2⟩⟩
      intro hmem
      obtain ⟨x, hx, heq⟩ := List.mem_map.mp hmem
      exact (hrest x hx).1.1 heq
    · rintro ⟨⟨hnot, hnodup⟩, _, hrest⟩
      refine ⟨hnodup, fun x hx => ⟨⟨?_, (hrest x hx).1⟩, (hrest x hx).2⟩⟩
      intro heq
      exact hnot (List.mem_map.mpr ⟨x, hx, heq⟩)

/-- Whom a rotation must wrap the new key for. -/
theorem mem_rotationHolders {id : Uuid} :
    id ∈ rotationHolders db env now ↔ MustReceive db env now id := by
  simp only [rotationHolders, List.mem_map, List.mem_filter, decide_eq_true_eq, MustReceive]
  constructor
  · rintro ⟨⟨⟨type, a⟩, level⟩, ⟨hl, htype, hlevel, hkey⟩, rfl⟩
    dsimp only at htype
    subst htype
    obtain ⟨_, rfl⟩ := mem_allLevels_account.mp hl
    exact ⟨hlevel, hkey⟩
  · rintro ⟨hlevel, hkey⟩
    refine ⟨(.account id, levelOf db env (.account id) now), ⟨?_, rfl, hlevel, hkey⟩, rfl⟩
    refine mem_allLevels_account.mpr ⟨?_, rfl⟩
    by_contra hnot
    rw [levelOf, effectiveLevel_account_eq_none hnot] at hlevel
    cases hlevel

/-- What passing the checks before the transaction says about a request. -/
structure Admitted (db : Db) (accountId environmentId : Uuid) (req : RotateEnvironmentKeyRequest)
    (env : Env) (now : Timestamp) : Prop where
  /-- The caller manages the environment. -/
  manages : levelAtLeast (levelOf db env (.account accountId) now) .manage = true
  /-- It rotates from the environment's version. -/
  fromVersion : req.fromVersion = env.keyVersion
  /-- No recipient is wrapped for twice. -/
  nodup : (req.wraps.map MemberKeyWrap.recipientId).Nodup
  /-- The recipients are exactly those who must receive the key. -/
  recipients : ∀ id, id ∈ req.wraps.map MemberKeyWrap.recipientId ↔ MustReceive db env now id
  /-- Each wrap is sealed to the key its recipient has on file. -/
  sealedTo : ∀ w ∈ req.wraps, (org db env.orgId (some env.ownerId)).keys (.account w.recipientId) =
    some w.recipientPublicKey
  /-- The values are bound to the environment. -/
  bound : ∀ v ∈ req.values, v.encryptedValue.kid = .record environmentId

/-- The checks before the transaction. -/
theorem rotateRefusal_eq_none {v : Visible}
    (h : rotateRefusal db accountId environmentId req v now = none) :
    Admitted db accountId environmentId req v.env now := by
  unfold rotateRefusal at h
  dsimp only at h
  split at h
  · cases h
  rename_i hmanage
  split at h
  · cases h
  rename_i hversion
  split at h
  · cases h
  rename_i hwraps
  split_ifs at h with hmissing hvalues
  obtain ⟨hnodup, hwraps⟩ := checkWraps_eq_none.mp hwraps
  rw [ne_eq, not_not, List.filter_eq_nil_iff] at hmissing
  refine ⟨by simpa using hmanage, by simpa using hversion, hnodup, ?_, ?_, ?_⟩
  · intro id
    rw [← mem_rotationHolders]
    constructor
    · intro hid
      obtain ⟨w, hw, rfl⟩ := List.mem_map.mp hid
      simpa using (hwraps w hw).2.1
    · intro hid
      obtain ⟨w, hw, heq⟩ : ∃ w ∈ req.wraps, w.recipientId = id := by
        simpa using hmissing id hid
      exact List.mem_map.mpr ⟨w, hw, heq⟩
  · intro w hw
    exact (hwraps w hw).2.2.1
  · intro r hr
    simp only [List.any_eq_true, decide_eq_true_eq, not_exists, not_and, not_not] at hvalues
    exact hvalues r hr

/-- The values compared inside the transaction: one for each secret with a value in the
environment, none twice, none missing. -/
theorem sameValues_iff {values : List ResealedValue} : sameValues db env values = true ↔
    (values.map ResealedValue.secretId).Nodup ∧
      ∀ id, (∃ v ∈ db.secretValues, OfEnvironment env v ∧ v.secretId = id) ↔
        id ∈ values.map ResealedValue.secretId := by
  have hwant (id : Uuid) : id ∈ (db.secretValues.select fun v =>
      v.projectId = env.projectId ∧ v.environmentId = env.environmentId).map
        SecretValueRow.secretId ↔ ∃ v ∈ db.secretValues, OfEnvironment env v ∧ v.secretId = id := by
    simp only [List.mem_map, Table.mem_select, decide_eq_true_eq, OfEnvironment]
    constructor
    · rintro ⟨v, ⟨hv, henv⟩, rfl⟩
      exact ⟨v, hv, henv, rfl⟩
    · rintro ⟨v, hv, henv, rfl⟩
      exact ⟨v, ⟨hv, henv⟩, rfl⟩
  simp only [sameValues, decide_eq_true_eq, List.all_eq_true, ← hwant]
  generalize (db.secretValues.select fun v =>
    v.projectId = env.projectId ∧ v.environmentId = env.environmentId).map
      SecretValueRow.secretId = want
  have hlength : values.length = (values.map ResealedValue.secretId).length := by simp
  rw [hlength]
  generalize values.map ResealedValue.secretId = got
  constructor
  · rintro ⟨hsize, hsubset, hnodup⟩
    have hself : got.dedup = got := (List.dedup_sublist got).eq_of_length hnodup
    refine ⟨List.dedup_eq_self.mp hself, fun id => ?_⟩
    have hperm : want.dedup.Perm got.dedup :=
      (List.subperm_of_subset (List.nodup_dedup want) fun id hid =>
        hsubset id hid).perm_of_length_le hsize.ge
    rw [← List.mem_dedup, hperm.mem_iff, List.mem_dedup]
  · rintro ⟨hnodup, hmem⟩
    have hperm : want.dedup.Perm got.dedup := by
      rw [List.perm_ext_iff_of_nodup (List.nodup_dedup want) (List.nodup_dedup got)]
      intro id
      rw [List.mem_dedup, List.mem_dedup, hmem]
    refine ⟨hperm.length_eq, ?_, by rw [List.dedup_eq_self.mpr hnodup]⟩
    intro id hid
    exact hperm.mem_iff.mp hid

/-- The value a rotation leaves in place of a stored one. -/
def reseal (env : Env) (now : Timestamp) (values : List ResealedValue) (v : SecretValueRow) :
    SecretValueRow :=
  if v.projectId = env.projectId ∧ v.environmentId = env.environmentId then
    match values.find? fun r => r.secretId = v.secretId with
    | some r => { v with encryptedValue := r.encryptedValue, updatedAt := now }
    | none => v
  else v

/-- Replacing values one by one, each secret's once. -/
theorem mem_foldl_resealValue {values : List ResealedValue} {t : Table SecretValueRow.key}
    (hnodup : (values.map ResealedValue.secretId).Nodup) {v : SecretValueRow} :
    v ∈ values.foldl (resealValue env now) t ↔ ∃ v₀ ∈ t, v = reseal env now values v₀ := by
  induction values generalizing t with
  | nil => simp [reseal]
  | cons r values ih =>
    rw [List.map_cons, List.nodup_cons] at hnodup
    rw [List.foldl_cons, ih hnodup.2]
    have hone (v₀ : SecretValueRow) : reseal env now values
        (if v₀.projectId = env.projectId ∧ v₀.secretId = r.secretId ∧
            v₀.environmentId = env.environmentId then
          { v₀ with encryptedValue := r.encryptedValue, updatedAt := now } else v₀) =
        reseal env now (r :: values) v₀ := by
      by_cases henv : v₀.projectId = env.projectId ∧ v₀.environmentId = env.environmentId
      · by_cases hsecret : v₀.secretId = r.secretId
        · have hfind : values.find? (fun x => x.secretId = r.secretId) = none := by
            rw [List.find?_eq_none]
            intro x hx heq
            exact hnodup.1 (List.mem_map.mpr ⟨x, hx, by simpa using heq⟩)
          simp [reseal, henv, hsecret, hfind]
        · have hne : ¬r.secretId = v₀.secretId := fun heq => hsecret heq.symm
          simp [reseal, henv, hsecret, hne]
      · have hnot : ¬(v₀.projectId = env.projectId ∧ v₀.secretId = r.secretId ∧
            v₀.environmentId = env.environmentId) := fun h => henv ⟨h.1, h.2.2⟩
        simp only [reseal, henv, hnot, if_false]
    simp only [resealValue, Table.mem_update, decide_eq_true_eq]
    constructor
    · rintro ⟨_, ⟨v₀, hv₀, rfl⟩, rfl⟩
      exact ⟨v₀, hv₀, hone v₀⟩
    · rintro ⟨v₀, hv₀, rfl⟩
      exact ⟨_, ⟨v₀, hv₀, rfl⟩, (hone v₀).symm⟩

/-- Entries that kept everything but their place in the feed and their time. -/
def Moved (t t' : Table EntryRow.key) : Prop :=
  ∃ f : EntryRow → EntryRow, t'.rows = t.rows.map f ∧
    ∀ e, ∃ seq updatedAt, f e = { e with seq := seq, updatedAt := updatedAt }

theorem Moved.trans {t t' t'' : Table EntryRow.key} (h : Moved t t') (h' : Moved t' t'') :
    Moved t t'' := by
  obtain ⟨f, hf, hfield⟩ := h
  obtain ⟨f', hf', hfield'⟩ := h'
  refine ⟨f' ∘ f, by rw [hf', hf, List.map_map], fun e => ?_⟩
  obtain ⟨seq, updatedAt, he⟩ := hfield e
  obtain ⟨seq', updatedAt', he'⟩ := hfield' (f e)
  exact ⟨seq', updatedAt', by rw [Function.comp_apply, he', he]⟩

/-- Touching an entry moves it. -/
theorem touch_moved (projectId : Uuid) (now : Timestamp) (s : Table EntryRow.key × ℕ) (id : Uuid) :
    Moved s.1 (touch projectId now s id).1 := by
  refine ⟨_, rfl, fun e => ?_⟩
  dsimp only
  split
  · exact ⟨_, _, rfl⟩
  · exact ⟨e.seq, e.updatedAt, rfl⟩

/-- Touching entries one after another moves them. -/
theorem foldl_touch_moved (projectId : Uuid) (now : Timestamp) (ids : List Uuid)
    (s : Table EntryRow.key × ℕ) : Moved s.1 (ids.foldl (touch projectId now) s).1 := by
  induction ids generalizing s with
  | nil => exact ⟨id, by simp, fun e => ⟨e.seq, e.updatedAt, rfl⟩⟩
  | cons id ids ih => exact (touch_moved projectId now s id).trans (ih _)

/-- Moving entries keeps the live environments. -/
theorem Moved.environmentIds (h : Moved db.projectEntries db'.projectEntries) (projectId : Uuid) :
    environmentIds db' projectId = environmentIds db projectId := by
  obtain ⟨f, hf, hfield⟩ := h
  have hrow (e : EntryRow) : (f e).projectId = e.projectId ∧ (f e).id = e.id ∧
      (f e).isLiveEnvironment = e.isLiveEnvironment := by
    obtain ⟨seq, updatedAt, he⟩ := hfield e
    rw [he]
    exact ⟨rfl, rfl, rfl⟩
  simp only [AccessFacts.environmentIds, Table.select, hf]
  generalize db.projectEntries.rows = rows
  induction rows with
  | nil => rfl
  | cons e rows ih =>
    simp only [List.map_cons, List.filter_cons, (hrow e).1, (hrow e).2.2]
    split
    · simp only [List.map_cons, (hrow e).2.1, ih]
    · exact ih

/-- The kept version a rotation leaves in place of a stored one. -/
def forgetValues (projectId environmentId : Uuid) (v : SecretVersionRow) : SecretVersionRow :=
  if v.projectId = projectId then
    { v with values := v.values.filter fun e => e.1 ≠ environmentId }
  else v

theorem mem_dropVersionValues {projectId : Uuid} {v : SecretVersionRow} :
    v ∈ (ProjectsStore.dropVersionValues db projectId environmentId).secretVersions ↔
      ∃ v₀ ∈ db.secretVersions, v = forgetValues projectId environmentId v₀ := by
  simp only [ProjectsStore.dropVersionValues, Table.mem_update, decide_eq_true_eq, forgetValues]

/-- What an accepted rotation's transaction writes. -/
structure Rotated (db db' : Db) (env : Env) (accountId : Uuid) (req : RotateEnvironmentKeyRequest)
    (now : Timestamp) : Prop where
  /-- The environment was still at the version rotated from. -/
  current : ∃ r ∈ db.environmentAccess,
    r.environmentId = env.environmentId ∧ r.keyVersion = env.keyVersion
  /-- Each secret with a value in the environment was sent once, and no other. -/
  nodup : (req.values.map ResealedValue.secretId).Nodup
  sent : ∀ id, (∃ v ∈ db.secretValues, OfEnvironment env v ∧ v.secretId = id) ↔
    id ∈ req.values.map ResealedValue.secretId
  /-- The environment's grants are one per wrap; the other grants stay. -/
  keyGrants : ∀ g, g ∈ db'.keyGrants ↔ (g ∈ db.keyGrants ∧ ¬GrantOf env g) ∨ ∃ w ∈ req.wraps,
    g = grantRow env.projectId env.environmentId (some (env.keyVersion + 1)) accountId w
  /-- The key version grows by one and the flag is cleared. -/
  environmentAccess : ∀ r, r ∈ db'.environmentAccess ↔ ∃ r₀ ∈ db.environmentAccess,
    r = if r₀.environmentId = env.environmentId then
      { r₀ with keyVersion := env.keyVersion + 1, rotationRequiredAt := none } else r₀
  /-- The environment's values are replaced; the other values stay. -/
  secretValues : ∀ v, v ∈ db'.secretValues ↔
    ∃ v₀ ∈ db.secretValues, v = reseal env now req.values v₀
  /-- Kept versions forget the environment's values. -/
  secretVersions : ∀ v, v ∈ db'.secretVersions ↔
    ∃ v₀ ∈ db.secretVersions, v = forgetValues env.projectId env.environmentId v₀
  /-- Entries only move in the feed. -/
  moved : Moved db.projectEntries db'.projectEntries
  /-- The environment and the secrets sent move to the end of the feed, one after another,
  and of the projects only the counter behind them changes. -/
  feed : ∃ p seq, db.projects.find env.projectId = some p ∧
    (env.environmentId :: req.values.map ResealedValue.secretId).foldl (touch env.projectId now)
      (db.projectEntries, p.seq) = (db'.projectEntries, seq) ∧
    db'.projects = db.projects.update (fun p => p.id = env.projectId)
      (fun p => { p with seq := seq })
  /-- Nothing else in the state changes. -/
  frame : db' = { db with
    projects := db'.projects, keyGrants := db'.keyGrants, projectEntries := db'.projectEntries
    secretValues := db'.secretValues, secretVersions := db'.secretVersions
    environmentAccess := db'.environmentAccess }

/-- The writes of an accepted rotation. -/
theorem replaceKey_eq_some {p : ProjectRow} (hproject : db.projects.find env.projectId = some p)
    (hsame : sameValues db env req.values = true)
    (hcurrent : ∃ r ∈ db.environmentAccess,
      r.environmentId = env.environmentId ∧ r.keyVersion = env.keyVersion)
    (h : replaceKey db env p.seq accountId req now = some db') :
    Rotated db db' env accountId req now := by
  obtain ⟨hnodup, hsent⟩ := sameValues_iff.mp hsame
  unfold replaceKey at h
  dsimp only at h
  split at h
  · cases h
  rename_i keyGrants hinsert
  simp only [Option.some.injEq] at h
  subst h
  refine ⟨hcurrent, hnodup, hsent, ?_, ?_, ?_, ?_, foldl_touch_moved _ _ _ _,
    ⟨p, _, hproject, rfl, rfl⟩, rfl⟩
  · intro g
    change g ∈ keyGrants ↔ _
    rw [Table.mem_insertAll hinsert, Table.mem_delete, decide_eq_false_iff_not]
    refine or_congr Iff.rfl ?_
    rw [List.mem_map]
    exact exists_congr fun w => and_congr_right fun _ => eq_comm
  · intro r
    change r ∈ db.environmentAccess.update _ _ ↔ _
    rw [Table.mem_update]
    obtain ⟨r₁, hr₁, hid, hversion⟩ := hcurrent
    refine exists_congr fun r₀ => and_congr_right fun hr₀ => ?_
    simp only [decide_eq_true_eq]
    by_cases heq : r₀.environmentId = env.environmentId
    · have hrow : r₀ = r₁ := Table.eq_of_key_eq hr₀ hr₁ (heq.trans hid.symm)
      rw [if_pos ⟨heq, hrow ▸ hversion⟩, if_pos heq]
    · rw [if_neg fun h => heq h.1, if_neg heq]
  · intro v
    exact mem_foldl_resealValue hnodup
  · intro v
    exact mem_dropVersionValues

namespace Rotated

/-- The rotated environment's version before and after. -/
theorem keyVersionOf_self (h : Rotated db db' env accountId req now) :
    keyVersionOf db env.environmentId = env.keyVersion ∧
      keyVersionOf db' env.environmentId = env.keyVersion + 1 := by
  obtain ⟨r, hr, hid, hversion⟩ := h.current
  have hmem := (h.environmentAccess _).mpr ⟨r, hr, rfl⟩
  rw [if_pos hid] at hmem
  refine ⟨by rw [← hid, Zvault.keyVersionOf_eq hr, hversion], ?_⟩
  rw [← hid]
  exact Zvault.keyVersionOf_eq hmem

/-- The access rows of the other environments stay. -/
theorem mem_row_iff (h : Rotated db db' env accountId req now) {r : EnvironmentAccessRow}
    (hne : r.environmentId ≠ env.environmentId) :
    r ∈ db'.environmentAccess ↔ r ∈ db.environmentAccess := by
  rw [h.environmentAccess]
  constructor
  · rintro ⟨r₀, hr₀, rfl⟩
    split at hne
    · rename_i henv
      exact absurd henv hne
    · rename_i henv
      rwa [if_neg henv]
  · intro hr
    exact ⟨r, hr, by rw [if_neg hne]⟩

theorem keyVersionOf_ne (h : Rotated db db' env accountId req now) {id : Uuid}
    (hne : id ≠ env.environmentId) : keyVersionOf db' id = keyVersionOf db id :=
  keyVersionOf_congr fun _ hid => h.mem_row_iff (hid ▸ hne)

end Rotated

/-- An accepted transaction writes what a rotation should. -/
theorem rotateTx_ok (h : rotateTx db env accountId req now = (.ok (), db')) :
    Rotated db db' env accountId req now := by
  unfold rotateTx at h
  split at h
  · cases h
  rename_i hsame
  split at h
  · cases h
  rename_i hcurrent
  split at h
  · cases h
  rename_i p hproject
  split at h
  · cases h
  rename_i hreplace
  cases h
  refine replaceKey_eq_some hproject (by simpa using hsame) ?_ hreplace
  simpa using hcurrent

/-- A refused transaction writes nothing. -/
theorem rotateTx_error {e : ApiError} (h : rotateTx db env accountId req now = (.error e, db')) :
    db' = db := by
  unfold rotateTx at h
  split at h
  · cases h
    rfl
  split at h
  · cases h
    rfl
  split at h
  · cases h
    rfl
  split at h
  · cases h
    rfl
  · cases h

end EnvironmentsService

end Zvault
