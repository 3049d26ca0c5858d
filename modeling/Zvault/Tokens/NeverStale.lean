import Zvault.Tokens.KeyVersions

/-!
# Tokens are not stale

What is known of a token that authenticates, after any writes of the server and any
requests about tokens; and that no key of it was rotated since it was issued, unless
an environment of it was deleted and put back.
-/

namespace Zvault

open Relational Relation AccessFacts EnvironmentsService ProjectsStore TokensService

theorem StoreWrite.versionKept {db db' : Db} (h : StoreWrite db db') (projectId environmentId : Uuid) :
    VersionKept projectId environmentId db db' := by
  cases h with
  | create p hcreate =>
    have hcreated := createProject_eq_some hcreate
    have hframe := hcreated.frame
    refine ⟨Or.inr (le_of_eq ?_), fun hgone => Or.inl ?_⟩
    · rw [hframe]
      rfl
    · obtain ⟨e, he, hrest⟩ := hgone
      exact ⟨e, (hcreated.entries e).mpr (Or.inl he), hrest⟩
  | entry w =>
    rcases writeEntry_cases db w with ⟨seq, hw, -⟩ | ⟨hsame, -⟩
    · exact .written hw
    · rw [hsame]
      exact .of_same rfl rfl
  | update id baseRevision encryptedMeta now hupdate =>
    unfold updateProject at hupdate
    split at hupdate <;> cases hupdate
    exact .of_same rfl rfl
  | purge => exact .of_same rfl rfl
  | purgeExpired => exact .of_same rfl rfl
  | access haccess =>
    cases haccess with
    | upkeep hupkeep => exact .upkept hupkeep.upkept
    | wraps =>
      unfold insertWraps
      split <;> exact .of_same rfl rfl
    | rotation env accountId req now =>
      cases htx : rotateTx db env accountId req now with
      | mk answer db' =>
        cases answer with
        | error e =>
          rw [rotateTx_error htx]
          exact .of_same rfl rfl
        | ok _ => exact .rotated (rotateTx_ok htx)

theorem canManageTokens_upkeep (db : Db) (projectId accountId ownerId environmentId : Uuid)
    (now : Timestamp) :
    Upkeeps db (ProjectPolicy.canManageTokens db projectId accountId ownerId environmentId now).2 := by
  unfold ProjectPolicy.canManageTokens
  split
  · exact .refl
  split
  · exact .refl
  · exact Upkeeps.register db _ now

namespace TokenServer

variable {Hash : Type} {s s' : TokenServer Hash} {user projectId : Uuid} {now : Timestamp}

theorem listed_upkeep (accountId ownerId : Uuid) (db : Db) (rows : List (StoredToken Hash))
    (acc : List (Uuid × Bool) × List TokenView × Db) (h : Upkeeps db acc.2.2) :
    Upkeeps db (rows.foldl (listed projectId accountId ownerId now) acc).2.2 := by
  induction rows generalizing acc with
  | nil => exact h
  | cons t rows ih =>
    refine ih _ ?_
    obtain ⟨manages, out, db'⟩ := acc
    have hmay := canManageTokens_upkeep db' projectId accountId ownerId (t.row.envIds.headD 0) now
    unfold listed
    dsimp only
    split <;> dsimp only <;> split
    · exact h
    · exact h
    · exact h.trans hmay
    · exact h.trans hmay

theorem list_upkeep (s : TokenServer Hash) (user projectId : Uuid) (now : Timestamp) :
    Upkeeps s.db (s.list user projectId now).2.db := by
  have haccess := access_upkeep s.db user projectId now
  unfold list
  split <;> rename_i heq <;> rw [heq] at haccess
  · exact haccess
  · exact listed_upkeep _ _ _ _ _ haccess

/-- A list keeps the tokens that have not expired. -/
theorem mem_list_tokens {t : StoredToken Hash} (ht : t ∈ s.tokens) (user projectId : Uuid)
    (hnow : now < t.row.expiresAt) : t ∈ (s.list user projectId now).2.tokens := by
  unfold list
  split
  · exact ht
  · refine Table.mem_delete.mpr ⟨ht, ?_⟩
    rw [decide_eq_false_iff_not]
    rintro ⟨-, hexpired⟩
    exact absurd hnow hexpired.asymm

theorem create_upkeep (req : CreateTokenRequest Hash) :
    Upkeeps s.db (s.create user projectId req now).2.db := by
  have haccess := access_upkeep s.db user projectId now
  unfold create
  split <;> rename_i heq <;> rw [heq] at haccess
  · exact haccess
  rename_i access db
  dsimp only
  split
  · exact haccess
  split
  · exact haccess
  have hmay := haccess.trans (canManageTokens_upkeep db projectId user access.ownerId
    ((req.environments.map (·.environmentId)).headD 0) now)
  split <;> rename_i heq <;> rw [heq] at hmay
  · exact hmay
  rename_i db'
  split
  · exact hmay
  split
  · exact hmay
  rename_i tokens _
  have hlist := hmay.trans (list_upkeep ⟨db', tokens⟩ user projectId now)
  split <;> rename_i heq <;> rw [heq] at hlist
  · exact hlist
  · split <;> exact hlist

/-- A token is issued for the current key versions. -/
theorem create_ok {req : CreateTokenRequest Hash} {view : TokenView}
    (h : s.create user projectId req now = (.ok view, s')) :
    req.token user projectId ∈ s'.tokens ∧ ∀ e ∈ req.environments,
      keyVersion s'.db projectId e.environmentId = e.keyVersion := by
  unfold create at h
  split at h
  · cases h
  dsimp only at h
  split at h
  · cases h
  split at h
  · cases h
  split at h
  · cases h
  rename_i db _
  split at h
  · cases h
  rename_i hissue
  split at h
  · cases h
  rename_i tokens hinsert
  have hmem : req.token user projectId ∈ tokens :=
    (Table.mem_insertAll hinsert _).mpr (Or.inr (List.mem_singleton_self _))
  -- the list that the answer is read from only does upkeep, and the token has not expired
  have hlist : req.token user projectId ∈ s'.tokens ∧ Upkeeps db s'.db := by
    have hexpires : now < req.expiresAt := by
      unfold issueRefusal at hissue
      split_ifs at hissue with _ hexpiry
      exact not_le.mp fun hle => hexpiry (Or.inl hle)
    have hupkeep := list_upkeep ⟨db, tokens⟩ user projectId now
    have hkept := mem_list_tokens (s := ⟨db, tokens⟩) hmem user projectId hexpires
    split at h
    · cases h
    · rename_i heq
      rw [heq] at hupkeep hkept
      split at h <;> cases h
      exact ⟨hkept, hupkeep⟩
  refine ⟨hlist.1, fun e he => ?_⟩
  rw [keyVersion_upkept hlist.2.upkept]
  unfold issueRefusal at hissue
  split_ifs at hissue with hversions
  rw [Bool.not_eq_true, List.any_eq_false] at hversions
  simpa using hversions e he

theorem revoke_upkeep (tokenId : Uuid) :
    Upkeeps s.db (s.revoke user projectId tokenId now).2.db := by
  have haccess := access_upkeep s.db user projectId now
  unfold revoke
  split <;> rename_i heq <;> rw [heq] at haccess
  · exact haccess
  rename_i access db
  split
  · exact haccess
  rename_i token _
  have hmay : Upkeeps s.db (if token.row.createdBy = user then (true, db)
      else ProjectPolicy.canManageTokens db projectId user access.ownerId
        (token.row.envIds.headD 0) now).2 := by
    split
    · exact haccess
    · exact haccess.trans (canManageTokens_upkeep _ _ _ _ _ _)
  split <;> rename_i heq <;> rw [heq] at hmay <;> exact hmay

end TokenServer

/-- An account holds a project's key. -/
def HoldsProjectKey (db : Db) (projectId accountId : Uuid) : Prop :=
  ∃ g ∈ db.keyGrants, g.projectId = projectId ∧ g.resourceId = projectId ∧ g.accountId = accountId

theorem getAccess_holds {db : Db} {projectId accountId : Uuid} {access : ProjectAccess}
    (h : getAccess db projectId accountId = some access) :
    (access.member = true → HoldsProjectKey db projectId accountId) ∧
      ∀ id ∈ access.environments, HoldsEnvironmentKey db projectId id accountId := by
  unfold getAccess at h
  split at h
  · cases h
  cases h
  refine ⟨fun hmember => ?_, fun id hid => mem_viewerEnvironments.mp hid⟩
  obtain ⟨g, hg, hresource⟩ := List.mem_map.mp (of_decide_eq_true hmember)
  obtain ⟨hg, hmatch⟩ := Table.mem_select.mp hg
  obtain ⟨hproject, haccount⟩ := of_decide_eq_true hmatch
  exact ⟨g, hg, hproject, hresource, haccount⟩

namespace TokensService

variable {db db' : Db} {row : AgentTokenRow} {now : Timestamp}

theorem authenticate_upkeep (db : Db) (row : AgentTokenRow) (now : Timestamp) :
    Upkeeps db (authenticate db row now).2 := by
  have hreconcile : Upkeeps db (ProjectPolicy.beforeAccess db row.projectId now) :=
    Upkeeps.reconcile db row.projectId now
  unfold authenticate
  split
  · exact .refl
  dsimp only
  split
  · exact .refl
  split
  · exact hreconcile
  split
  · exact hreconcile
  split <;> exact hreconcile

/-- As many live environments as the token has are all of them. -/
theorem live_of_length (hlength : (db.projectEntries.select fun e =>
      e.projectId = row.projectId ∧ e.id ∈ row.envIds ∧ e.isLiveEnvironment).length =
        row.envIds.length) {id : Uuid} (hid : id ∈ row.envIds) :
    Live db .environment row.projectId id := by
  have hproject : ∀ e ∈ db.projectEntries.select fun e =>
      e.projectId = row.projectId ∧ e.id ∈ row.envIds ∧ e.isLiveEnvironment,
      e ∈ db.projectEntries ∧ e.projectId = row.projectId ∧ e.id ∈ row.envIds ∧
        e.isLiveEnvironment = true := by
    intro e he
    obtain ⟨he, hmatch⟩ := Table.mem_select.mp he
    exact ⟨he, of_decide_eq_true hmatch⟩
  have hnodup : ((db.projectEntries.select fun e =>
      e.projectId = row.projectId ∧ e.id ∈ row.envIds ∧ e.isLiveEnvironment).map
        EntryRow.id).Nodup := by
    refine List.Nodup.map_on (fun e he e' he' hsame => ?_)
      (db.projectEntries.nodup_select _).of_map
    obtain ⟨he, hp, -⟩ := hproject e he
    obtain ⟨he', hp', -⟩ := hproject e' he'
    exact Table.eq_of_key_eq he he' (Prod.ext (hp.trans hp'.symm) hsame)
  have hsubset : (db.projectEntries.select fun e =>
      e.projectId = row.projectId ∧ e.id ∈ row.envIds ∧ e.isLiveEnvironment).map EntryRow.id ⊆
        row.envIds := by
    intro id hid
    obtain ⟨e, he, rfl⟩ := List.mem_map.mp hid
    exact (hproject e he).2.2.1
  have hperm := (List.subperm_of_subset hnodup hsubset).perm_of_length_le
    (by rw [List.length_map, hlength])
  obtain ⟨e, he, rfl⟩ := List.mem_map.mp (hperm.mem_iff.mpr hid)
  obtain ⟨he, hp, -, hlive⟩ := hproject e he
  rw [EntryRow.isLiveEnvironment, decide_eq_true_iff] at hlive
  exact live_iff.mpr ⟨e, he, Prod.ext hp rfl, hlive⟩

/-- What a token that authenticates was checked for. -/
theorem authenticate_ok (h : authenticate db row now = (.ok (), db')) :
    Upkeeps db db' ∧ now < row.expiresAt ∧ HoldsProjectKey db' row.projectId row.createdBy ∧
      ∀ e ∈ row.environments, Live db .environment row.projectId e.environmentId ∧
        HoldsEnvironmentKey db' row.projectId e.environmentId row.createdBy ∧
        keyVersion db' row.projectId e.environmentId = e.keyVersion := by
  have hupkeep := authenticate_upkeep db row now
  rw [h] at hupkeep
  unfold authenticate at h
  split at h
  · cases h
  rename_i hexpires
  dsimp only at h
  split at h
  · cases h
  rename_i hlive
  split at h
  · cases h
  rename_i access haccess
  split at h
  · cases h
  rename_i hholds
  split at h
  · cases h
  rename_i hstale
  obtain rfl := (Prod.mk.inj h).2
  obtain ⟨hmember, henvironments⟩ := getAccess_holds haccess
  simp only [Bool.or_eq_true, Bool.not_eq_true', not_or, Bool.not_eq_false, List.all_eq_true,
    decide_eq_true_eq] at hholds
  refine ⟨hupkeep, not_le.mp hexpires, hmember hholds.1, fun e he => ?_⟩
  have hid : e.environmentId ∈ row.envIds := List.mem_map_of_mem he
  refine ⟨live_of_length (not_not.mp hlive) hid, henvironments _ (hholds.2 _ hid), ?_⟩
  rw [isStale, Bool.not_eq_true, List.any_eq_false] at hstale
  simpa using hstale e he

/-- A page holds no value outside a token's environments. -/
theorem changes_confined {since limit : ℕ} {entry : ProjectEntry}
    (h : entry ∈ (changes db row since limit).entries) :
    ∀ v ∈ entry.values, v.environmentId ∈ row.envIds := by
  intro v hv
  rw [changes_eq] at h
  obtain ⟨r, -, rfl⟩ := List.mem_map.mp h
  obtain ⟨-, -, -, hv⟩ := mem_wireEntry_values.mp hv
  obtain ⟨-, value, -, -, -, henv, rfl⟩ := mem_valuesOf.mp hv
  exact henv

end TokensService

namespace TokenServer

variable {Hash : Type} [DecidableEq Hash] {digest : String → Hash} {s s' : TokenServer Hash}
  {t : StoredToken Hash}

/-- One step of the server: any write of the projects and access services, or a request about
tokens. -/
inductive Step (digest : String → Hash) (s : TokenServer Hash) : TokenServer Hash → Prop
  | store {db' : Db} (h : StoreWrite s.db db') : Step digest s ⟨db', s.tokens⟩
  /-- The tokens of a project cascade from its row. -/
  | deleteProject (projectId : Uuid) : Step digest s
      ⟨ProjectsStore.deleteProject s.db projectId,
        s.tokens.delete fun t => t.row.projectId = projectId⟩
  | create (user projectId : Uuid) (req : CreateTokenRequest Hash) (now : Timestamp) :
      Step digest s (s.create user projectId req now).2
  | list (user projectId : Uuid) (now : Timestamp) : Step digest s (s.list user projectId now).2
  | revoke (user projectId tokenId : Uuid) (now : Timestamp) :
      Step digest s (s.revoke user projectId tokenId now).2
  | authenticate (tokenId : Uuid) (authKey : String) (now : Timestamp) :
      Step digest s (s.authenticate digest tokenId authKey now).2

/-- A token is issued, in some run of the server. -/
def Issues (digest : String → Hash) (s : TokenServer Hash) (t : StoredToken Hash)
    (s' : TokenServer Hash) : Prop :=
  ReflTransGen (Step digest) start s ∧ ∃ user projectId req now view,
    s.create user projectId req now = (.ok view, s') ∧ t = req.token user projectId

/-- A step while a token is there. -/
def StepWith (digest : String → Hash) (t : StoredToken Hash) (s s' : TokenServer Hash) : Prop :=
  Step digest s s' ∧ t ∈ s'.tokens

/-- The key of a project's environment is rotated. -/
def RotatesKey (projectId environmentId : Uuid) (s s' : TokenServer Hash) : Prop :=
  ∃ env accountId req now, env.environmentId = environmentId ∧
    (∃ r ∈ s.db.environmentAccess, IsRow projectId environmentId r) ∧
    rotateTx s.db env accountId req now = (.ok (), s'.db) ∧ s'.tokens = s.tokens

/-- A deleted environment of a token is put back. -/
def PutsBack (t : StoredToken Hash) (s s' : TokenServer Hash) : Prop :=
  ∃ id ∈ t.row.envIds, IsTombstone s.db t.row.projectId id ∧
    Live s'.db .environment t.row.projectId id

theorem authenticate_upkeep (tokenId : Uuid) (authKey : String) (now : Timestamp) :
    Upkeeps s.db (s.authenticate digest tokenId authKey now).2.db := by
  unfold authenticate
  split
  · exact .refl
  split
  · exact .refl
  have hupkeep := TokensService.authenticate_upkeep s.db
  rename_i t _ _
  have hupkeep := hupkeep t.row now
  split <;> rename_i heq <;> rw [heq] at hupkeep <;> exact hupkeep

/-- What a step does to the environments of a token that stays. -/
theorem Step.versionKept (h : Step digest s s') (ht : t ∈ s'.tokens) (environmentId : Uuid) :
    VersionKept t.row.projectId environmentId s.db s'.db := by
  cases h with
  | store hwrite => exact hwrite.versionKept _ _
  | deleteProject projectId =>
    obtain ⟨-, hother⟩ := Table.mem_delete.mp ht
    rw [decide_eq_false_iff_not] at hother
    refine ⟨Or.inr (keyVersion_mono (fun r hr his => ⟨r, ?_, his, le_rfl⟩)
      fun r hr his => Or.inl ⟨r, ?_, his⟩), fun hgone => Or.inl ?_⟩
    · refine Table.mem_delete.mpr ⟨hr, ?_⟩
      rw [decide_eq_false_iff_not, his.1]
      exact hother
    · exact (Table.mem_delete.mp hr).1
    · obtain ⟨e, he, hkey, hrest⟩ := hgone
      refine ⟨e, Table.mem_delete.mpr ⟨he, ?_⟩, hkey, hrest⟩
      rw [decide_eq_false_iff_not, show e.projectId = t.row.projectId from congrArg Prod.fst hkey]
      exact hother
  | create user projectId req now => exact .upkept (create_upkeep req).upkept
  | list => exact .upkept (list_upkeep _ _ _ _).upkept
  | revoke => exact .upkept (revoke_upkeep _).upkept
  | authenticate => exact .upkept (authenticate_upkeep _ _ _).upkept

/-- While a token is there and no environment of it is put back, a deleted one stays deleted, and
the key version of one that is not does not go back. -/
theorem versionKept_run {environmentId : Uuid} (henv : environmentId ∈ t.row.envIds)
    (hrun : ReflTransGen (fun s s' => StepWith digest t s s' ∧ ¬ PutsBack t s s') s s') :
    (IsTombstone s.db t.row.projectId environmentId →
      IsTombstone s'.db t.row.projectId environmentId) ∧
    (IsTombstone s'.db t.row.projectId environmentId ∨
      keyVersion s.db t.row.projectId environmentId ≤
        keyVersion s'.db t.row.projectId environmentId) := by
  induction hrun with
  | refl => exact ⟨id, Or.inr le_rfl⟩
  | tail _ hstep ih =>
    obtain ⟨⟨hstep, ht⟩, hnot⟩ := hstep
    have hkept := hstep.versionKept ht environmentId
    have hgone := fun hgone => (hkept.tombstone hgone).resolve_right fun hlive =>
      hnot ⟨environmentId, henv, hgone, hlive⟩
    refine ⟨fun h => hgone (ih.1 h), ?_⟩
    rcases ih.2 with h | hle
    · exact Or.inl (hgone h)
    · exact hkept.version.imp_right hle.trans

omit [DecidableEq Hash] in
theorem RotatesKey.version_lt {projectId environmentId : Uuid}
    (h : RotatesKey projectId environmentId s s') :
    keyVersion s.db projectId environmentId < keyVersion s'.db projectId environmentId := by
  obtain ⟨env, accountId, req, now, hid, ⟨r, hr, his⟩, htx, -⟩ := h
  have hrotated := rotateTx_ok htx
  obtain ⟨r₀, hr₀, hid₀, hversion⟩ := hrotated.current
  obtain rfl := Table.eq_of_key_eq hr hr₀ (his.2.trans (hid.symm.trans hid₀.symm))
  have hr' := (hrotated.environmentAccess _).mpr ⟨r, hr, rfl⟩
  rw [if_pos hid₀] at hr'
  rw [keyVersion_of_mem hr his, keyVersion_of_mem hr' ⟨his.1, his.2⟩, hversion]
  exact Nat.lt_succ_self _

/-- The steps between issuing a token and presenting it: it is there, and no deleted environment
of it is put back. -/
abbrev Kept (digest : String → Hash) (t : StoredToken Hash) (s s' : TokenServer Hash) : Prop :=
  ReflTransGen (fun s s' => StepWith digest t s s' ∧ ¬ PutsBack t s s') s s'

/-- A token that authenticates is there and has not expired, its environments are live, its creator
holds their keys and the project's, and it carries their current versions; it reads no value
outside them. No key of it was rotated since it was issued, if no environment of it was deleted
and put back since. -/
theorem token_never_stale {tokenId : Uuid} {authKey : String} {now : Timestamp}
    (hauth : s.authenticate digest tokenId authKey now = (.ok t, s')) :
    (t ∈ s.tokens ∧ t.id = tokenId ∧ digest authKey = t.verifier ∧ now < t.row.expiresAt ∧
      HoldsProjectKey s'.db t.row.projectId t.row.createdBy ∧
      ∀ e ∈ t.row.environments, Live s'.db .environment t.row.projectId e.environmentId ∧
        HoldsEnvironmentKey s'.db t.row.projectId e.environmentId t.row.createdBy ∧
        keyVersion s'.db t.row.projectId e.environmentId = e.keyVersion) ∧
    (∀ since limit, ∀ entry ∈ (changes s'.db t.row since limit).entries, ∀ v ∈ entry.values,
      v.environmentId ∈ t.row.envIds) ∧
    ∀ (s₀ s₁ before after : TokenServer Hash) (environmentId : Uuid), Issues digest s₀ t s₁ →
      Kept digest t s₁ before → RotatesKey t.row.projectId environmentId before after →
      Kept digest t after s → environmentId ∉ t.row.envIds := by
  have hchecked : t ∈ s.tokens ∧ t.id = tokenId ∧ digest authKey = t.verifier ∧
      TokensService.authenticate s.db t.row now = (.ok (), s'.db) := by
    unfold authenticate at hauth
    split at hauth
    · cases hauth
    rename_i hfind
    split at hauth
    · cases hauth
    rename_i hverifier
    split at hauth
    · cases hauth
    rename_i heq
    cases hauth
    obtain ⟨hmem, hid⟩ := Table.find_eq_some.mp hfind
    exact ⟨hmem, hid, not_not.mp hverifier, heq⟩
  obtain ⟨hmem, hid, hverifier, hok⟩ := hchecked
  obtain ⟨hupkeep, hexpires, hproject, henvironments⟩ := authenticate_ok hok
  have hlive : ∀ id, Live s.db .environment t.row.projectId id →
      Live s'.db .environment t.row.projectId id := by
    intro id hlive
    rwa [Live, liveEntries, hupkeep.upkept.projectEntries]
  refine ⟨⟨hmem, hid, hverifier, hexpires, hproject, fun e he => ?_⟩,
    fun since limit entry hentry => changes_confined hentry, ?_⟩
  · obtain ⟨hlive', hholds, hversion⟩ := henvironments e he
    exact ⟨hlive _ hlive', hholds, hversion⟩
  · intro s₀ s₁ before after environmentId hissues hbefore hrotates hafter henv
    obtain ⟨e, he, rfl⟩ := List.mem_map.mp henv
    obtain ⟨hlive', -, hversion⟩ := henvironments e he
    have hissued : keyVersion s₁.db t.row.projectId e.environmentId = e.keyVersion := by
      obtain ⟨-, user, projectId, req, issuedAt, view, hcreate, rfl⟩ := hissues
      exact (create_ok hcreate).2 e he
    obtain ⟨-, hbeforeVersion⟩ := versionKept_run henv hbefore
    obtain ⟨hstays, hafterVersion⟩ := versionKept_run henv hafter
    have hnotombstone := hlive'.not_tombstone
    have hrotated : ¬ IsTombstone after.db t.row.projectId e.environmentId :=
      fun hgone => hnotombstone (hstays hgone)
    have hmoved : ¬ IsTombstone before.db t.row.projectId e.environmentId := by
      obtain ⟨env, accountId, req, rotatedAt, -, -, htx, -⟩ := hrotates
      exact fun hgone => hrotated ((Referential.moved (rotateTx_ok htx).moved).2.mpr hgone)
    have hlt := hrotates.version_lt
    have hle := hbeforeVersion.resolve_left hmoved
    have hle' := hafterVersion.resolve_left hnotombstone
    rw [keyVersion_upkept hupkeep.upkept] at hversion
    omega

/-- Writes that the tokens do not notice. -/
theorem steps_of_storeWrites {db db' : Db} (h : StoreWrites db db')
    (tokens : Table (StoredToken.id : StoredToken Hash → Uuid)) :
    ReflTransGen (Step digest) ⟨db, tokens⟩ ⟨db', tokens⟩ :=
  h.lift (fun db => (⟨db, tokens⟩ : TokenServer Hash)) fun _ _ hwrite => .store hwrite

theorem stepsWith_of_storeWrites {db db' : Db} (h : StoreWrites db db')
    {tokens : Table (StoredToken.id : StoredToken Hash → Uuid)} (ht : t ∈ tokens) :
    ReflTransGen (StepWith digest t) ⟨db, tokens⟩ ⟨db', tokens⟩ :=
  h.lift (fun db => (⟨db, tokens⟩ : TokenServer Hash)) fun _ _ hwrite => ⟨.store hwrite, ht⟩

/-- Project 1 of account 10, with environment 2. -/
def ownProject : Db :=
  (ProjectsService.create (OrgsService.create Db.empty 10 5 77).2 10
    ⟨1, ⟨.record 1, 0, 0⟩, ⟨.account, 0, 0⟩,
      [⟨2, ⟨.record 2, 0, 0⟩, ⟨.account, 0, 0⟩⟩]⟩ 0).2

/-- Then it is shared with organization 5 of the account. -/
def sharedProject : Db := (EnvironmentsService.linkProject ownProject 10 1 5 0).2

/-- The server with token 9 of the environment issued. -/
def tokenIssued : TokenServer String :=
  (create ⟨sharedProject, .empty⟩ 10 1 ⟨9, "verifier", 1000, [⟨2, 1⟩]⟩ 0).2

/-- Account 10's wrap for itself. -/
def ownWrap (nonce : ℕ) : MemberKeyWrap := ⟨10, 77, 77, 0, ⟨.memberKeyWrap, nonce, 0⟩⟩

/-- Then the environment's key is rotated. -/
def keyRotated : TokenServer String where
  db := (rotateTx tokenIssued.db ⟨⟨2, 1, 5, 1, none, 0⟩, 10⟩ 10 ⟨1, [ownWrap 2], []⟩ 1).2
  tokens := tokenIssued.tokens

/-- Then the environment is deleted. -/
def deletedEnvironment : Db :=
  (ProjectsService.deleteEntry keyRotated.db 10 1 .environment 2 1 2).2

/-- Then it is put back. -/
def environmentPutBack : Db :=
  (ProjectsService.putEnvironment deletedEnvironment 10 1 2 ⟨2, ⟨.record 2, 0, 1⟩, none⟩ 3).2

/-- Then its key is handed out. -/
def putBack : TokenServer String :=
  ⟨(EnvironmentsService.addEnvironmentWraps environmentPutBack 10 2 ⟨1, [ownWrap 1]⟩ 4).2,
    tokenIssued.tokens⟩

def issuedToken : StoredToken String := ⟨9, "verifier", ⟨1, 10, [⟨2, 1⟩], 1000⟩⟩

theorem putBack_authenticates :
    putBack.authenticate id 9 "verifier" 5 =
      (.ok issuedToken, (putBack.authenticate id 9 "verifier" 5).2) :=
  Prod.ext rfl rfl

example : (keyRotated.authenticate id 9 "verifier" 2).1 = .error (.denied .stale) := rfl

theorem tokenIssued_issues : Issues id ⟨sharedProject, .empty⟩ issuedToken tokenIssued := by
  have horg := AccessRequest.serve_storeWrites Db.empty (.createOrg 10 5 77)
  have hcreate := ProjectRequest.serve_writes ((AccessRequest.createOrg 10 5 77).serve Db.empty)
    (.create 10 ⟨1, ⟨.record 1, 0, 0⟩, ⟨.account, 0, 0⟩,
      [⟨2, ⟨.record 2, 0, 0⟩, ⟨.account, 0, 0⟩⟩]⟩ 0)
  have hlink : StoreWrites ownProject sharedProject :=
    AccessRequest.serve_storeWrites ownProject (.linkProject 10 1 5 0)
  exact ⟨steps_of_storeWrites ((horg.trans hcreate).trans hlink) .empty, 10, 1,
    ⟨9, "verifier", 1000, [⟨2, 1⟩]⟩, 0, ⟨9, [2], 10, 1000, false⟩, Prod.ext rfl rfl, rfl⟩

theorem tokenIssued_rotates : RotatesKey 1 2 tokenIssued keyRotated :=
  ⟨⟨⟨2, 1, 5, 1, none, 0⟩, 10⟩, 10, ⟨1, [ownWrap 2], []⟩, 1, rfl,
    ⟨⟨2, 1, 5, 1, none, 0⟩, by decide, rfl, rfl⟩, Prod.ext rfl rfl, rfl⟩

theorem keyRotated_putBack : ReflTransGen (StepWith id issuedToken) keyRotated putBack := by
  have hdelete : StoreWrites keyRotated.db deletedEnvironment :=
    ProjectRequest.serve_writes keyRotated.db (.deleteEntry 10 1 .environment 2 1 2)
  have hput : StoreWrites deletedEnvironment environmentPutBack :=
    ProjectRequest.serve_writes deletedEnvironment
      (.putEnvironment 10 1 2 ⟨2, ⟨.record 2, 0, 1⟩, none⟩ 3)
  have hwraps : StoreWrites environmentPutBack putBack.db :=
    AccessRequest.serve_storeWrites environmentPutBack (.addEnvironmentWraps 10 2 ⟨1, [ownWrap 1]⟩ 4)
  exact stepsWith_of_storeWrites ((hdelete.trans hput).trans hwraps) (by decide)

/-- A token authenticates after its environment's key was rotated: deleting the environment forgot
how often, and putting it back counts from one again. -/
theorem token_after_rotation : ¬ ∀ (s s' s₀ s₁ before after : TokenServer String)
    (t : StoredToken String) (tokenId : Uuid) (authKey : String) (now : Timestamp)
    (environmentId : Uuid),
    s.authenticate id tokenId authKey now = (.ok t, s') → Issues id s₀ t s₁ →
      ReflTransGen (StepWith id t) s₁ before → RotatesKey t.row.projectId environmentId before after →
      ReflTransGen (StepWith id t) after s → environmentId ∉ t.row.envIds := by
  intro hall
  refine hall putBack _ _ tokenIssued tokenIssued keyRotated issuedToken 9 "verifier" 5 2
    putBack_authenticates tokenIssued_issues .refl tokenIssued_rotates keyRotated_putBack ?_
  decide

/-- Before the rotation. -/
theorem token_never_stale_issued :
    tokenIssued.authenticate id 9 "verifier" 5 =
        (.ok issuedToken, (tokenIssued.authenticate id 9 "verifier" 5).2) ∧
      issuedToken ∈ tokenIssued.tokens ∧
      HoldsProjectKey (tokenIssued.authenticate id 9 "verifier" 5).2.db 1 10 := by
  have hauth : tokenIssued.authenticate id 9 "verifier" 5 =
      (.ok issuedToken, (tokenIssued.authenticate id 9 "verifier" 5).2) := Prod.ext rfl rfl
  obtain ⟨⟨hmem, -, -, -, hproject, -⟩, -⟩ := token_never_stale hauth
  exact ⟨hauth, hmem, hproject⟩

end TokenServer

end Zvault
