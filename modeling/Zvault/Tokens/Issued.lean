import Zvault.Projects.Service
import Zvault.Projects.ChangeFeed
import Zvault.Projects.References

/-!
# Access tokens

Tokens of machines, from the table to what they read.
-/

/-! ### What a token reads

`apps/api/src/tokens/tokens.service.ts`, from a token whose verifier matched on:
what `zv` calls with `ZVAULT_TOKEN`. The verifier, the activity log and the time
of the last use are left out. -/

namespace Zvault

open Relational ProjectsStore

/-- `StoredTokenEnvironment`, without the key wrapped for the token. -/
structure StoredTokenEnvironment where
  environmentId : Uuid
  keyVersion : ℕ
  deriving DecidableEq, Repr

/-- `TokenRow`, of what the service checks. -/
structure AgentTokenRow where
  projectId : Uuid
  createdBy : Uuid
  environments : List StoredTokenEnvironment
  expiresAt : Timestamp
  deriving DecidableEq, Repr

/-- The ids of the environments a token carries keys for. -/
def AgentTokenRow.envIds (row : AgentTokenRow) : List Uuid :=
  row.environments.map StoredTokenEnvironment.environmentId

/-- Why a token is denied. -/
inductive Denial where
  | expired
  | environmentDeleted
  | creatorLostAccess
  | stale
  deriving DecidableEq, Repr

namespace TokensService

/-- `keyVersions`: the current key version of an environment, 1 until a rotation bumps it. -/
def keyVersion (db : Db) (projectId environmentId : Uuid) : ℕ :=
  match (db.environmentAccess.select fun r =>
    r.projectId = projectId ∧ r.environmentId = environmentId).getLast? with
  | none => 1
  | some r => r.keyVersion

/-- `isStale`. -/
def isStale (db : Db) (row : AgentTokenRow) : Bool :=
  row.environments.any fun e => keyVersion db row.projectId e.environmentId ≠ e.keyVersion

/-- `authenticate`: that a token has not expired, that its creator still holds every key it
carries, and that no key was rotated since. -/
def authenticate (db : Db) (row : AgentTokenRow) (now : Timestamp) : Except Denial Unit × Db :=
  if row.expiresAt ≤ now then (.error .expired, db)
  else
    let live := db.projectEntries.select fun e =>
      e.projectId = row.projectId ∧ e.id ∈ row.envIds ∧ e.isLiveEnvironment
    if live.length ≠ row.envIds.length then (.error .environmentDeleted, db)
    else
      let db := ProjectPolicy.beforeAccess db row.projectId now
      match getAccess db row.projectId row.createdBy with
      | none => (.error .creatorLostAccess, db)
      | some access =>
        if !access.member || !row.envIds.all fun id => id ∈ access.environments then
          (.error .creatorLostAccess, db)
        else if isStale db row then (.error .stale, db)
        else (.ok (), db)

/-- `changes`, once the token is authenticated: one page of the change feed. -/
def changes (db : Db) (row : AgentTokenRow) (since limit : ℕ) : SyncProjectResponse :=
  let changes := listChangesForToken db row.projectId row.envIds since (limit + 1)
  let entries := changes.take limit
  ⟨entries, (entries.getLast?.map fun e => e.base.seq).getD since, limit < changes.length⟩

/-- A request for a page. -/
def serveChanges (db : Db) (row : AgentTokenRow) (since limit : ℕ) (now : Timestamp) :
    Except Denial SyncProjectResponse × Db :=
  match authenticate db row now with
  | (.error e, db) => (.error e, db)
  | (.ok (), db) => (.ok (changes db row since limit), db)

section Serve

variable {db db' : Db} {row : AgentTokenRow} {since limit : ℕ} {now : Timestamp}

/-- A page is served from the database with lapsed grants dropped. -/
theorem serveChanges_ok {res : SyncProjectResponse}
    (h : serveChanges db row since limit now = (.ok res, db')) :
    db' = ProjectPolicy.beforeAccess db row.projectId now ∧ res = changes db' row since limit := by
  unfold serveChanges at h
  split at h
  · cases h
  rename_i hauth
  cases h
  refine ⟨?_, rfl⟩
  unfold authenticate at hauth
  split at hauth
  · cases hauth
  dsimp only at hauth
  split at hauth
  · cases hauth
  split at hauth
  · cases hauth
  split at hauth
  · cases hauth
  split at hauth
  · cases hauth
  · exact (Prod.mk.inj hauth).2.symm

/-- What a page holds. -/
theorem changes_eq (db : Db) (row : AgentTokenRow) (since limit : ℕ) :
    changes db row since limit =
      ⟨(Feed.page EntryRow.seq (entriesOf db row.projectId) since limit).map
        (wireEntry (fun _ => none) (valuesOf db row.projectId row.envIds
          (Feed.page EntryRow.seq (entriesOf db row.projectId) since (limit + 1)))),
        Feed.cursor EntryRow.seq (Feed.page EntryRow.seq (entriesOf db row.projectId) since limit)
          since,
        decide (limit <
          (Feed.page EntryRow.seq (entriesOf db row.projectId) since (limit + 1)).length)⟩ := by
  simp only [changes, listChangesForToken, hydrateWith, changedRows_eq, ← List.map_take,
    Feed.take_page, List.length_map, List.getLast?_map, Feed.cursor]
  cases (Feed.page EntryRow.seq (entriesOf db row.projectId) since limit).getLast? <;> simp

end Serve

end TokensService

end Zvault

/-! ### Issuing and presenting access tokens

The rest of `apps/api/src/tokens/tokens.service.ts`: the table of tokens, and the
requests that issue, list, revoke and present them. Names, the keys wrapped for a
token and the activity log are left out. -/

namespace Zvault

open Relational

/-- A row of `agent_tokens`. -/
structure StoredToken (Hash : Type) where
  id : Uuid
  /-- `SHA-256` of the auth key. -/
  verifier : Hash
  row : AgentTokenRow
  deriving DecidableEq

/-- `CreateTokenRequest`. -/
structure CreateTokenRequest (Hash : Type) where
  id : Uuid
  verifier : Hash
  expiresAt : Timestamp
  environments : List StoredTokenEnvironment
  deriving DecidableEq

/-- `TokenView`. -/
structure TokenView where
  id : Uuid
  environmentIds : List Uuid
  createdBy : Uuid
  expiresAt : Timestamp
  stale : Bool
  deriving DecidableEq, Repr

/-- Why a presented token is refused. -/
inductive TokenRefusal where
  | invalid
  | denied (reason : Denial)
  deriving DecidableEq, Repr

/-- `DAY_MS`. -/
def dayMs : ℕ := 24 * 60 * 60 * 1000

/-- `MAX_TOKEN_DAYS`. -/
def maxTokenDays : ℕ := 365

/-- `MAX_TOKENS_PER_PROJECT`. -/
def maxTokensPerProject : ℕ := 50

/-- `canManageTokens`: the project's owner, or in an org whoever has Manage in the
environment. -/
def ProjectPolicy.canManageTokens (db : Db) (projectId accountId ownerId environmentId : Uuid)
    (now : Timestamp) : Bool × Db :=
  if accountId = ownerId then (true, db)
  else
    match AccessFacts.linkedProject db projectId with
    | none => (false, db)
    | some project =>
      let (levels, db) := AccessFacts.projectLevels db project now
      (levelAtLeast (levelIn levels accountId environmentId) .manage, db)

/-- The token that a request makes. -/
def CreateTokenRequest.token {Hash : Type} (req : CreateTokenRequest Hash) (user projectId : Uuid) :
    StoredToken Hash :=
  ⟨req.id, req.verifier, ⟨projectId, user, req.environments, req.expiresAt⟩⟩

/-- What the API stores, with its tokens. -/
structure TokenServer (Hash : Type) where
  db : Db
  tokens : Table (StoredToken.id : StoredToken Hash → Uuid)

namespace TokenServer

variable {Hash : Type} [DecidableEq Hash]

/-- No project and no token. -/
def start : TokenServer Hash := ⟨.empty, .empty⟩

variable (s : TokenServer Hash)

/-- One token of a list, with what is known so far of who manages which environment. -/
def listed (projectId accountId ownerId : Uuid) (now : Timestamp)
    (acc : List (Uuid × Bool) × List TokenView × Db) (t : StoredToken Hash) :
    List (Uuid × Bool) × List TokenView × Db :=
  let (manages, out, db) := acc
  let primary := t.row.envIds.headD 0
  let (manages, db) :=
    if manages.any fun m => m.1 = primary then (manages, db)
    else
      let (may, db) := ProjectPolicy.canManageTokens db projectId accountId ownerId primary now
      (manages ++ [(primary, may)], db)
  let view : TokenView :=
    ⟨t.id, t.row.envIds, t.row.createdBy, t.row.expiresAt, TokensService.isStale db t.row⟩
  if manages.any fun m => m.1 = primary ∧ m.2 then (manages, out ++ [view], db)
  else (manages, out, db)

/-- `list`. Expired tokens are dropped. -/
def list (user projectId : Uuid) (now : Timestamp) :
    Except ApiError (List TokenView) × TokenServer Hash :=
  match ProjectsService.access s.db user projectId now with
  | (.error e, db) => (.error e, ⟨db, s.tokens⟩)
  | (.ok access, db) =>
    let tokens := s.tokens.delete fun t => t.row.projectId = projectId ∧ t.row.expiresAt < now
    let rows := tokens.select fun t => t.row.projectId = projectId
    let (_, out, db) := rows.foldl (listed projectId user access.ownerId now) ([], [], db)
    (.ok out, ⟨db, tokens⟩)

/-- What `create` checks last: the key versions, the end date and how many tokens there are. -/
def issueRefusal (projectId : Uuid) (req : CreateTokenRequest Hash) (now : Timestamp) :
    Option ApiError :=
  if req.environments.any fun e =>
      TokensService.keyVersion s.db projectId e.environmentId ≠ e.keyVersion then
    some (.conflict "key_version_changed")
  else if req.expiresAt ≤ now ∨ now + (maxTokenDays * dayMs + dayMs) < req.expiresAt then
    some (.badRequest "invalid_expiry")
  else if maxTokensPerProject ≤ (s.tokens.select fun t => t.row.projectId = projectId).length then
    some (.badRequest "limit_reached")
  else none

/-- `create`. The answer is read back from the list. -/
def create (user projectId : Uuid) (req : CreateTokenRequest Hash) (now : Timestamp) :
    Except ApiError TokenView × TokenServer Hash :=
  match ProjectsService.access s.db user projectId now with
  | (.error e, db) => (.error e, ⟨db, s.tokens⟩)
  | (.ok access, db) =>
    let envIds := req.environments.map (·.environmentId)
    if ¬ envIds.Nodup then (.error (.badRequest "duplicate_id"), ⟨db, s.tokens⟩)
    else if !envIds.all fun id => id ∈ access.environments then
      (.error (.forbidden "no_access"), ⟨db, s.tokens⟩)
    else
      match ProjectPolicy.canManageTokens db projectId user access.ownerId (envIds.headD 0) now with
      | (false, db) => (.error (.forbidden "manage_required"), ⟨db, s.tokens⟩)
      | (true, db) =>
        match issueRefusal ⟨db, s.tokens⟩ projectId req now with
        | some e => (.error e, ⟨db, s.tokens⟩)
        | none =>
          match s.tokens.insertAll [req.token user projectId] with
          | none => (.error (.conflict "token_exists"), ⟨db, s.tokens⟩)
          | some tokens =>
            match list ⟨db, tokens⟩ user projectId now with
            | (.error e, s) => (.error e, s)
            | (.ok views, s) =>
              match views.find? fun v => v.id = req.id with
              | none => (.error (.notFound "Not Found"), s)
              | some view => (.ok view, s)

/-- `revoke`. -/
def revoke (user projectId tokenId : Uuid) (now : Timestamp) :
    Except ApiError Unit × TokenServer Hash :=
  match ProjectsService.access s.db user projectId now with
  | (.error e, db) => (.error e, ⟨db, s.tokens⟩)
  | (.ok access, db) =>
    match (s.tokens.find tokenId).filter fun t => t.row.projectId = projectId with
    | none => (.error (.notFound "Not Found"), ⟨db, s.tokens⟩)
    | some token =>
      match if token.row.createdBy = user then (true, db)
        else ProjectPolicy.canManageTokens db projectId user access.ownerId
          (token.row.envIds.headD 0) now with
      | (false, db) => (.error (.notFound "Not Found"), ⟨db, s.tokens⟩)
      | (true, db) => (.ok (), ⟨db, s.tokens.delete fun t => t.id = tokenId⟩)

/-- `authenticate`: a token is found under its id, and the auth key is the one that its verifier
was made from. -/
def authenticate (digest : String → Hash) (tokenId : Uuid) (authKey : String) (now : Timestamp) :
    Except TokenRefusal (StoredToken Hash) × TokenServer Hash :=
  match s.tokens.find tokenId with
  | none => (.error .invalid, s)
  | some t =>
    if digest authKey ≠ t.verifier then (.error .invalid, s)
    else
      match TokensService.authenticate s.db t.row now with
      | (.error reason, db) => (.error (.denied reason), ⟨db, s.tokens⟩)
      | (.ok (), db) => (.ok t, ⟨db, s.tokens⟩)

end TokenServer

end Zvault
