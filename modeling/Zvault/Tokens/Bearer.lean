import Zvault.Cli.Snapshot
import Zvault.Fallible.Steps
import Zvault.Keyrings.Desktop
import Zvault.Sharing.LinkPage
import Zvault.Text.AsciiCase
import Zvault.Text.Trim
import Zvault.Tokens.NeverStale

/-!
# An access token from end to end

`token.rs` of `zvault-crypto`, `tokens.rs` of the desktop app, what `load` of `zv` sends,
and `token.guard.ts` of the API: a token is issued on a device, copied as text, and
shown to the server by whoever holds the text.
-/

namespace Zvault

open Crypto Relation Relational
open Keyrings (DesktopKeyring)

variable (P : Primitives) (D : Derivations)

/-- A public id, and the secret that only the holder knows. -/
structure Crypto.AgentToken where
  id : Crypto.Uuid
  secret : SymmetricKey
  deriving DecidableEq, Repr

namespace Crypto.AgentToken

/-- `TOKEN_PREFIX`. -/
def tokenPrefix : List Char := "zvt_".toList

variable (t : AgentToken)

/-- The token as the user copies it. -/
def encode : List Char := tokenPrefix ++ Base64.encode (t.id.bytes ++ t.secret.bytes)

/-- The token of an id and a secret, one after the other. -/
def ofBytes (raw : List UInt8) : Option AgentToken :=
  if h : raw.length = 48 then
    some ⟨⟨raw.take 16, by simp [h]⟩, ⟨raw.drop 16, by simp [h]⟩⟩
  else none

/-- White space around the token is ignored. -/
def decode (s : List Char) : Option AgentToken := do
  let body ← (Text.trimmed s).dropPrefix? tokenPrefix
  let raw ← Base64.decode body
  ofBytes raw

def derive (info : List UInt8) : SymmetricKey := D.hkdf (some t.id.bytes) t.secret.bytes info

/-- Proves the token to the server. -/
def authKey : SymmetricKey := t.derive D (Bytes.utf8 "zvault/v1/agent-token/auth")

/-- What the server stores to check the auth key. -/
def verifier : List UInt8 := D.sha256 (t.authKey D).bytes

/-- `wrap_key`. -/
def wrappingKey : SymmetricKey := t.derive D (Bytes.utf8 "zvault/v1/agent-token/wrap")

def wrapProjectKey (projectId : String) (key : SymmetricKey) (nonce : Nonce) : Option Sealed :=
  wrapKey P (t.wrappingKey D) key (tokenProjectAad t.id projectId) nonce

def unwrapProjectKey (projectId : String) (wrapped : Sealed) : Option SymmetricKey :=
  unwrapKey P (t.wrappingKey D) wrapped (tokenProjectAad t.id projectId)

def wrapEnvironmentKey (projectId environmentId : String) (keyVersion : ℕ) (key : SymmetricKey)
    (nonce : Nonce) : Option Sealed :=
  wrapKey P (t.wrappingKey D) key (tokenEnvironmentAad t.id projectId environmentId keyVersion)
    nonce

def unwrapEnvironmentKey (projectId environmentId : String) (keyVersion : ℕ) (wrapped : Sealed) :
    Option SymmetricKey :=
  unwrapKey P (t.wrappingKey D) wrapped
    (tokenEnvironmentAad t.id projectId environmentId keyVersion)

theorem ofBytes_eq_some_iff {raw : List UInt8} {t : AgentToken} :
    ofBytes raw = some t ↔ raw = t.id.bytes ++ t.secret.bytes := by
  unfold ofBytes
  split
  · rename_i h
    rw [Option.some_inj]
    constructor
    · rintro rfl
      exact (List.take_append_drop 16 raw).symm
    · rintro rfl
      obtain ⟨⟨id, hid⟩, ⟨secret, hsecret⟩⟩ := t
      simp only [mk.injEq, Uuid.mk.injEq, SymmetricKey.mk.injEq]
      exact ⟨List.take_left' hid, List.drop_left' hid⟩
  · rename_i h
    refine ⟨fun hnone => (by cases hnone), ?_⟩
    rintro rfl
    exact absurd (by rw [List.length_append, t.id.length_eq, t.secret.length_eq]) h

/-- **A token is read from its own text only**, with whatever white space around it. -/
theorem decode_eq_some_iff {s : List Char} {t : AgentToken} :
    decode s = some t ↔ Text.trimmed s = t.encode := by
  unfold decode
  simp only [Option.bind_eq_bind, Option.bind_eq_some_iff, ofBytes_eq_some_iff,
    List.dropPrefix?_eq_some_iff, beq_iff_eq]
  constructor
  · rintro ⟨body, ⟨start, hbody, rfl⟩, raw, hraw, rfl⟩
    rw [hbody, encode, Base64.encode_of_decode hraw]
  · intro h
    exact ⟨_, ⟨_, h, rfl⟩, _, Base64.decode_encode _, rfl⟩

/-- There is no white space in a token. -/
theorem isWhitespace_of_mem_encode {c : Char} (hc : c ∈ t.encode) :
    Text.isWhitespace c = false := by
  rcases List.mem_append.mp hc with hc | hc
  · have hall : tokenPrefix.all (fun c => !Text.isWhitespace c) = true := by decide
    simpa using List.all_eq_true.mp hall c hc
  · rcases Base64.mem_encode hc with halnum | rfl | rfl
    · rw [Text.isAlphanum_iff] at halnum
      exact Text.isWhitespace_eq_false (by omega) (by omega)
    · decide
    · decide

theorem trimmed_encode : Text.trimmed t.encode = t.encode :=
  Text.trimmed_eq_self (fun _ hc => t.isWhitespace_of_mem_encode (List.mem_of_mem_head? hc))
    fun _ hc => t.isWhitespace_of_mem_encode (List.mem_of_getLast? hc)

/-- A key that was wrapped is unwrapped by the token it was wrapped for. -/
theorem unwrapProjectKey_wrapProjectKey (hP : P.Binds) {projectId : String} {key : SymmetricKey}
    {nonce : Nonce} {s : Sealed} (h : t.wrapProjectKey P D projectId key nonce = some s) :
    t.unwrapProjectKey P D projectId s = some key := by
  have hopen := (hP.openBytes_iff h).mpr ⟨rfl, rfl, rfl⟩
  simp only [unwrapProjectKey, unwrapKey, hopen, Option.bind_some, key.length_eq, dite_true]

theorem unwrapEnvironmentKey_wrapEnvironmentKey (hP : P.Binds) {projectId environmentId : String}
    {keyVersion : ℕ} {key : SymmetricKey} {nonce : Nonce} {s : Sealed}
    (h : t.wrapEnvironmentKey P D projectId environmentId keyVersion key nonce = some s) :
    t.unwrapEnvironmentKey P D projectId environmentId keyVersion s = some key := by
  have hopen := (hP.openBytes_iff h).mpr ⟨rfl, rfl, rfl⟩
  simp only [unwrapEnvironmentKey, unwrapKey, hopen, Option.bind_some, key.length_eq, dite_true]

end Crypto.AgentToken

/-- `TOKEN_KID`. -/
def tokenKid : String := "agent-token"

structure TokenEnvironment where
  environmentId : String
  keyVersion : ℕ
  deriving DecidableEq, Repr

structure TokenEnvironmentKey where
  environmentId : String
  keyVersion : ℕ
  encryptedKey : Blob
  deriving DecidableEq, Repr

/-- A new token: the key material for the API, and the token to show once. -/
structure IssuedToken where
  id : String
  verifier : String
  encryptedProjectKey : Blob
  environments : List TokenEnvironmentKey
  /-- Never sent to the API. -/
  token : List Char
  deriving DecidableEq, Repr

namespace Keyrings.DesktopKeyring

variable (keys : DesktopKeyring)

/-- One environment of a token, whose key must be open here. -/
def wrapForToken (projectId : String) (token : AgentToken) (env : TokenEnvironment × Nonce) :
    Option TokenEnvironmentKey := do
  let envId ← canonicalId env.1.environmentId
  let key ← keys.environments (projectId, envId)
  let s ← token.wrapEnvironmentKey P D projectId envId env.1.keyVersion key env.2
  return ⟨envId, env.1.keyVersion, WireBlob.fromSealed tokenKid s⟩

/-- Makes a token for the environments of a project, the one it reads first and then the ones that
it falls back to. -/
def issueAgentToken (projectId : String) (environments : List (TokenEnvironment × Nonce))
    (token : AgentToken) (nonce : Nonce) : Option IssuedToken := do
  let projectId ← canonicalId projectId
  if environments.isEmpty then none
  else do
    let _ ← keys.account
    let key ← keys.projects projectId
    let wrapped ← token.wrapProjectKey P D projectId key nonce
    let envs ← environments.mapM (keys.wrapForToken P D projectId token)
    return {
      id := token.id.hyphenated
      verifier := b64 (token.verifier D)
      encryptedProjectKey := WireBlob.fromSealed tokenKid wrapped
      environments := envs
      token := token.encode }

end Keyrings.DesktopKeyring

/-- The `Authorization` header of `load`. -/
def bearer (raw : List Char) : Option (List Char) :=
  (AgentToken.decode raw).map fun t =>
    "Bearer ".toList ++ (t.id.hyphenated.toList ++ '.' :: Base64.encode (t.authKey D).bytes)

/-- The class `[0-9a-f-]`. -/
def isIdChar (c : Char) : Bool := ('0' ≤ c && c ≤ '9') || ('a' ≤ c && c ≤ 'f') || c = '-'

/-- `TOKEN_BEARER`: the id and the auth key of a header. -/
def tokenBearer (header : List Char) : Option (List Char × List Char) :=
  (header.dropPrefix? "Bearer ".toList).bind fun rest =>
    if rest.length = 80 ∧ (rest.take 36).all isIdChar ∧ rest[36]? = some '.' ∧
        isBase64Url (rest.drop 37) then
      some (rest.take 36, rest.drop 37)
    else none

/-- Ids in the tables, as text. -/
structure TokenWire where
  text : Uuid → Crypto.Uuid
  /-- The database reads a text as an id. -/
  read : List Char → Option Uuid
  text_of_read : ∀ {id u}, read id.hyphenated.toList = some u → text u = id

namespace TokenWire

variable (W : TokenWire)

/-- An environment of a token, as it is stored. -/
def environment (e : TokenEnvironmentKey) : Option (StoredTokenEnvironment × Blob) :=
  (W.read e.environmentId.toList).map fun id => (⟨id, e.keyVersion⟩, e.encryptedKey)

/-- `CreateTokenRequest`, of an issued token. -/
def request (issued : IssuedToken) (expiresAt : Timestamp) :
    Option (CreateTokenRequest (List UInt8)) := do
  let id ← W.read issued.id.toList
  let environments ← issued.environments.mapM W.environment
  return ⟨id, ShareWire.decoded issued.verifier, expiresAt, environments.map Prod.fst⟩

/-- `session`, of the columns that `create` stores as they are sent. -/
def session (issued : IssuedToken) (row : AgentTokenRow) (name expiresAt : String)
    (encryptedMeta : EncryptedBlob) : Option (Cli.Session Blob) := do
  let environments ← issued.environments.mapM W.environment
  return ⟨name, expiresAt, row.projectId, encryptedMeta, issued.encryptedProjectKey,
    environments.map fun e => ⟨e.1.environmentId, e.1.keyVersion, e.2⟩⟩

/-- What the server compares with the verifier. -/
def digest (authKey : String) : List UInt8 := D.sha256 (ShareWire.decoded authKey)

/-- `canActivate`: nothing where the database cannot read the id. -/
def canActivate (s : TokenServer (List UInt8)) (authorization : Option (List Char))
    (now : Timestamp) :
    Option (Except TokenRefusal (StoredToken (List UInt8)) × TokenServer (List UInt8)) :=
  match tokenBearer (authorization.getD []) with
  | none => some (.error .invalid, s)
  | some (id, key) =>
    (W.read id).map fun id => s.authenticate (digest D) id (.ofList key) now

/-- The keys of a token, in the hands of `zv`. -/
def held (t : AgentToken)
    (openPadded : SymmetricKey → Cli.Sealed → Cli.Aad → Option Cli.Plain) :
    Cli.AgentToken Blob SymmetricKey where
  unwrapProjectKey projectId blob := (WireBlob.toSealed blob tokenKid).bind
    (t.unwrapProjectKey P D (W.text projectId).hyphenated)
  unwrapEnvironmentKey projectId environmentId keyVersion blob :=
    (WireBlob.toSealed blob tokenKid).bind (t.unwrapEnvironmentKey P D
      (W.text projectId).hyphenated (W.text environmentId).hyphenated keyVersion)
  openPadded := openPadded

end TokenWire

section Header

theorem tokenBearer_eq_some_iff {header id key : List Char} :
    tokenBearer header = some (id, key) ↔
      header = "Bearer ".toList ++ (id ++ '.' :: key) ∧ id.length = 36 ∧ key.length = 43 ∧
        id.all isIdChar = true ∧ isBase64Url key = true := by
  simp only [tokenBearer, Option.bind_eq_some_iff, List.dropPrefix?_eq_some_iff, beq_iff_eq]
  constructor
  · rintro ⟨rest, ⟨start, rfl, rfl⟩, h⟩
    split at h
    · rename_i hrest
      obtain ⟨hlength, hid, hpoint, hkey⟩ := hrest
      obtain ⟨rfl, rfl⟩ := Prod.mk.inj (Option.some_inj.mp h)
      refine ⟨?_, by simp [hlength], by simp [hlength], hid, hkey⟩
      rw [← eq_append_cons_of_getElem? hpoint]
    · cases h
  · rintro ⟨rfl, hid, hkey, hids, hkeys⟩
    have htake : (id ++ '.' :: key).take 36 = id := List.take_left' hid
    have hdrop : (id ++ '.' :: key).drop 37 = key := by
      rw [← List.singleton_append, ← List.append_assoc, List.drop_left' (by simp [hid])]
    refine ⟨_, ⟨_, rfl, rfl⟩, ?_⟩
    rw [htake, hdrop, if_pos ⟨by simp [hid, hkey], hids, by simp [hid], hkeys⟩]

theorem all_isIdChar (id : Crypto.Uuid) : id.hyphenated.toList.all isIdChar = true := by
  have hdigit : ∀ n : Fin 16, isIdChar (Nat.digitChar n) = true := by decide
  refine List.all_eq_true.mpr fun c hc => ?_
  rcases Crypto.Uuid.mem_hyphenated hc with rfl | ⟨n, hn, rfl⟩
  · decide
  · exact hdigit ⟨n, hn⟩

/-- The server reads from the header what `zv` put in it. -/
theorem tokenBearer_bearer (t : AgentToken) :
    tokenBearer ("Bearer ".toList ++
        (t.id.hyphenated.toList ++ '.' :: Base64.encode (t.authKey D).bytes)) =
      some (t.id.hyphenated.toList, Base64.encode (t.authKey D).bytes) := by
  refine tokenBearer_eq_some_iff.mpr ⟨rfl, t.id.length_hyphenated, ?_, all_isIdChar t.id, ?_⟩
  · rw [Base64.length_encode, (t.authKey D).length_eq]
  · have hclass := isBase64Url_b64 (t.authKey D).bytes
    rwa [b64, String.toList_ofList] at hclass

end Header

namespace TokenServer

variable {Hash : Type} [DecidableEq Hash] {digest : String → Hash} {s s' : TokenServer Hash}
  {t : StoredToken Hash}

/-- What takes a token away. -/
inductive Ends (t : StoredToken Hash) (s : TokenServer Hash) : TokenServer Hash → Prop
  | revoked {user : Uuid} {now : Timestamp}
      (h : (s.revoke user t.row.projectId t.id now).1 = .ok ()) :
      Ends t s (s.revoke user t.row.projectId t.id now).2
  | projectDeleted : Ends t s ⟨ProjectsStore.deleteProject s.db t.row.projectId,
      s.tokens.delete fun x => x.row.projectId = t.row.projectId⟩
  /-- A list of the tokens of its project drops what has expired, also when one is issued. -/
  | listed {user : Uuid} {now : Timestamp} (h : t.row.expiresAt < now) :
      Ends t s (s.list user t.row.projectId now).2
  | created {user : Uuid} {req : CreateTokenRequest Hash} {now : Timestamp}
      (h : t.row.expiresAt < now) : Ends t s (s.create user t.row.projectId req now).2

omit [DecidableEq Hash] in
theorem mem_list_tokens_or (ht : t ∈ s.tokens) (user projectId : Uuid) (now : Timestamp) :
    t ∈ (s.list user projectId now).2.tokens ∨
      projectId = t.row.projectId ∧ t.row.expiresAt < now := by
  unfold list
  split
  · exact .inl ht
  · by_cases hgone : t.row.projectId = projectId ∧ t.row.expiresAt < now
    · exact .inr ⟨hgone.1.symm, hgone.2⟩
    · exact .inl (Table.mem_delete.mpr ⟨ht, by simpa using hgone⟩)

omit [DecidableEq Hash] in
theorem mem_create_tokens_or (ht : t ∈ s.tokens) (user projectId : Uuid)
    (req : CreateTokenRequest Hash) (now : Timestamp) :
    t ∈ (s.create user projectId req now).2.tokens ∨
      projectId = t.row.projectId ∧ t.row.expiresAt < now := by
  unfold create
  split
  · exact .inl ht
  dsimp only
  split
  · exact .inl ht
  split
  · exact .inl ht
  split
  · exact .inl ht
  split
  · exact .inl ht
  split
  · exact .inl ht
  rename_i db' _ _ _ _ tokens hinsert
  have hinserted : t ∈ tokens := (Table.mem_insertAll hinsert t).mpr (Or.inl ht)
  have hlist := mem_list_tokens_or (s := ⟨db', tokens⟩) hinserted user projectId now
  split <;> rename_i heq <;> rw [heq] at hlist
  · exact hlist
  · split <;> exact hlist

omit [DecidableEq Hash] in
theorem mem_revoke_tokens_or (ht : t ∈ s.tokens) (user projectId tokenId : Uuid) (now : Timestamp) :
    t ∈ (s.revoke user projectId tokenId now).2.tokens ∨
      projectId = t.row.projectId ∧ tokenId = t.id ∧
        (s.revoke user projectId tokenId now).1 = .ok () := by
  unfold revoke
  split
  · exact .inl ht
  split
  · exact .inl ht
  rename_i token hfind
  split
  · exact .inl ht
  · by_cases hid : t.id = tokenId
    · obtain ⟨hfind, hproject⟩ := Option.filter_eq_some_iff.mp hfind
      obtain ⟨hmem, htoken⟩ := Table.find_eq_some.mp hfind
      obtain rfl := Table.eq_of_key_eq ht hmem (hid.trans htoken.symm)
      exact .inr ⟨(of_decide_eq_true hproject).symm, hid.symm, rfl⟩
    · exact .inl (Table.mem_delete.mpr ⟨ht, by simpa using hid⟩)

/-- A token that is there stays there, until something takes it away. -/
theorem Step.mem_tokens (h : Step digest s s') (ht : t ∈ s.tokens) :
    t ∈ s'.tokens ∨ Ends t s s' := by
  cases h with
  | store => exact .inl ht
  | deleteProject projectId =>
    by_cases hproject : t.row.projectId = projectId
    · subst hproject
      exact .inr .projectDeleted
    · exact .inl (Table.mem_delete.mpr ⟨ht, by simpa using hproject⟩)
  | create user projectId req now =>
    rcases mem_create_tokens_or ht user projectId req now with hmem | ⟨rfl, hexpired⟩
    · exact .inl hmem
    · exact .inr (.created hexpired)
  | list user projectId now =>
    rcases mem_list_tokens_or ht user projectId now with hmem | ⟨rfl, hexpired⟩
    · exact .inl hmem
    · exact .inr (.listed hexpired)
  | revoke user projectId tokenId now =>
    rcases mem_revoke_tokens_or ht user projectId tokenId now with hmem | ⟨rfl, rfl, hok⟩
    · exact .inl hmem
    · exact .inr (.revoked hok)
  | authenticate tokenId authKey now =>
    refine .inl ?_
    unfold TokenServer.authenticate
    split
    · exact ht
    split
    · exact ht
    split <;> exact ht

omit [DecidableEq Hash] in
/-- What takes a token away writes no entry of a project. -/
theorem Ends.projectEntries (h : Ends t s s') (ht : t ∈ s'.tokens) :
    s'.db.projectEntries = s.db.projectEntries := by
  cases h with
  | revoked h => exact (revoke_upkeep _).upkept.projectEntries
  | projectDeleted => exact absurd rfl (of_decide_eq_false (Table.mem_delete.mp ht).2)
  | listed h => exact (list_upkeep s _ _ _).upkept.projectEntries
  | created h => exact (create_upkeep _).upkept.projectEntries

/-- A run in which nothing takes a token away. -/
theorem mem_tokens_of_run
    (hrun : ReflTransGen (fun s s' => Step digest s s' ∧ ¬ Ends t s s') s s') (ht : t ∈ s.tokens) :
    t ∈ s'.tokens := by
  induction hrun with
  | refl => exact ht
  | tail _ hstep ih => exact (hstep.1.mem_tokens ih).resolve_right hstep.2

/-- What a token's own id and auth key are answered with while it is there. -/
theorem authenticate_of_mem (ht : t ∈ s.tokens) {authKey : String}
    (hkey : digest authKey = t.verifier) (now : Timestamp) :
    s.authenticate digest t.id authKey now =
      (((TokensService.authenticate s.db t.row now).1.map fun _ => t).mapError .denied,
        ⟨(TokensService.authenticate s.db t.row now).2, s.tokens⟩) := by
  have hfind : s.tokens.find t.id = some t := Table.find_eq_some.mpr ⟨ht, rfl⟩
  unfold authenticate
  rw [hfind]
  dsimp only
  rw [if_neg (not_not.mpr hkey)]
  cases hchecked : TokensService.authenticate s.db t.row now with
  | mk answer db =>
    cases answer with
    | error reason => rfl
    | ok _ => rfl

/-- Whoever is let in as a token shows an auth key that its verifier was made from. -/
theorem mem_of_authenticate {tokenId : Uuid} {authKey : String} {now : Timestamp}
    (h : s.authenticate digest tokenId authKey now = (.ok t, s')) :
    t ∈ s.tokens ∧ t.id = tokenId ∧ digest authKey = t.verifier := by
  unfold authenticate at h
  split at h
  · cases h
  rename_i hfind
  split at h
  · cases h
  rename_i hverifier
  split at h
  · cases h
  cases h
  obtain ⟨hmem, hid⟩ := Table.find_eq_some.mp hfind
  exact ⟨hmem, hid, not_not.mp hverifier⟩

end TokenServer

section EndToEnd

variable {P D} {W : TokenWire} {keys : DesktopKeyring} {projectId : Uuid} {token : AgentToken}
  {environments : List (TokenEnvironment × Nonce)} {nonce : Nonce} {issued : IssuedToken}

/-- What is issued: the token's own text and verifier, the project's key, and the key of each of its
environments. -/
theorem issueAgentToken_eq_some {project : Crypto.Uuid}
    (h : keys.issueAgentToken P D project.hyphenated environments token nonce = some issued) :
    ∃ key wrapped, keys.projects project.hyphenated = some key ∧
      token.wrapProjectKey P D project.hyphenated key nonce = some wrapped ∧
      List.Forall₂ (fun env e => keys.wrapForToken P D project.hyphenated token env = some e)
        environments issued.environments ∧
      issued.id = token.id.hyphenated ∧ issued.verifier = b64 (token.verifier D) ∧
      issued.token = token.encode ∧
      issued.encryptedProjectKey = WireBlob.fromSealed tokenKid wrapped := by
  unfold Keyrings.DesktopKeyring.issueAgentToken at h
  simp only [canonicalId_hyphenated, Option.bind_eq_bind, Option.bind_some] at h
  split at h
  · cases h
  · simp only [Option.bind_eq_some_iff, Option.pure_def, Option.some_inj] at h
    obtain ⟨-, -, key, hkey, wrapped, hwrapped, envs, henvs, rfl⟩ := h
    exact ⟨key, wrapped, hkey, hwrapped, Fallible.mapM_eq_some.mp henvs, rfl, rfl, rfl, rfl⟩

/-- The key that was wrapped for an environment is the one that is unwrapped. -/
theorem unwrapEnvironmentKey_held (hP : P.Binds)
    {openPadded : SymmetricKey → Cli.Sealed → Cli.Aad → Option Cli.Plain}
    {env : TokenEnvironment × Nonce} {e : TokenEnvironmentKey}
    {stored : StoredTokenEnvironment × Blob}
    (hwrap : keys.wrapForToken P D (W.text projectId).hyphenated token env = some e)
    (hstored : W.environment e = some stored) :
    ∃ key, keys.environments ((W.text projectId).hyphenated,
        (W.text stored.1.environmentId).hyphenated) = some key ∧
      (W.held P D token openPadded).unwrapEnvironmentKey projectId stored.1.environmentId
        stored.1.keyVersion stored.2 = some key := by
  simp only [Keyrings.DesktopKeyring.wrapForToken, Option.bind_eq_bind, Option.bind_eq_some_iff,
    Option.pure_def, Option.some_inj] at hwrap
  obtain ⟨envId, henvId, key, hkey, s, hs, rfl⟩ := hwrap
  obtain ⟨id, hread, rfl⟩ := Option.map_eq_some_iff.mp hstored
  obtain ⟨bytes, hbytes, -⟩ := Option.bind_eq_some_iff.mp henvId
  obtain ⟨uuid, huuid, -⟩ := exists_hyphenated_of_uuidBytes hbytes
  obtain rfl := huuid.trans (canonicalId_eq_some henvId).symm
  have htext : W.text id = uuid := W.text_of_read hread
  refine ⟨key, ?_, ?_⟩
  · rw [htext]
    exact hkey
  · simp only [TokenWire.held, WireBlob.toSealed_fromSealed, Option.bind_some, htext]
    exact AgentToken.unwrapEnvironmentKey_wrapEnvironmentKey P D token hP hs

/-- **An access token from end to end.** A device issues a token and the server stores it. Whatever
the server does after that, other than revoking the token, deleting its project or dropping it as
expired, any text that is the token but for white space around it is accepted by `zv`; the server
finds the token by what `zv` sends, and lets it in just when the service finds that it may; and
`zv` unwraps the very keys that the device held. Nobody else is let in as this token, unless they
show a key with the same hash. -/
theorem access_token_works (hP : P.Binds)
    (hissued : keys.issueAgentToken P D (W.text projectId).hyphenated environments token nonce =
      some issued)
    {s₀ s₁ s : TokenServer (List UInt8)} {user : Uuid} {expiresAt created : Timestamp}
    {req : CreateTokenRequest (List UInt8)} {view : TokenView}
    (hreq : W.request issued expiresAt = some req)
    (hcreate : s₀.create user projectId req created = (.ok view, s₁))
    (hrun : ReflTransGen (fun s s' => TokenServer.Step (TokenWire.digest D) s s' ∧
      ¬ TokenServer.Ends (req.token user projectId) s s') s₁ s) :
    (∀ raw, Text.trimmed raw = issued.token → AgentToken.decode raw = some token ∧
      ∃ header, bearer D raw = some header ∧ ∀ now, W.canActivate D s (some header) now = some
        (((TokensService.authenticate s.db (req.token user projectId).row now).1.map
          fun _ => req.token user projectId).mapError .denied,
          ⟨(TokensService.authenticate s.db (req.token user projectId).row now).2, s.tokens⟩)) ∧
    (∀ openPadded name expires encryptedMeta, ∃ session key,
      W.session issued (req.token user projectId).row name expires encryptedMeta = some session ∧
      keys.projects (W.text projectId).hyphenated = some key ∧
      (W.held P D token openPadded).unwrapProjectKey session.projectId session.encryptedKey =
        some key ∧
      session.environments.map (·.environmentId) = (req.token user projectId).row.envIds ∧
      ∀ env ∈ session.environments, ∃ key,
        keys.environments ((W.text projectId).hyphenated,
          (W.text env.environmentId).hyphenated) = some key ∧
        (W.held P D token openPadded).unwrapEnvironmentKey session.projectId env.environmentId
          env.keyVersion env.encryptedKey = some key) ∧
    ∀ header now s', W.canActivate D s header now = some (.ok (req.token user projectId), s') →
      ∃ id key, tokenBearer (header.getD []) = some (id, key) ∧ W.read id = some req.id ∧
        TokenWire.digest D (.ofList key) = token.verifier D := by
  obtain ⟨key, wrapped, hkey, hwrapped, henvs, hid, hverifier, htext, hproject⟩ :=
    issueAgentToken_eq_some hissued
  simp only [TokenWire.request, Option.bind_eq_bind, Option.bind_eq_some_iff, Option.pure_def,
    Option.some_inj] at hreq
  obtain ⟨id, hread, stored, hstored, rfl⟩ := hreq
  have hmem := TokenServer.mem_tokens_of_run hrun (TokenServer.create_ok hcreate).1
  have hdigest : TokenWire.digest D (b64 (token.authKey D).bytes) = token.verifier D := by
    rw [TokenWire.digest, decoded_b64]
    rfl
  refine ⟨fun raw hraw => ?_, fun openPadded name expires encryptedMeta => ?_,
    fun header now s' hadmits => ?_⟩
  · have hdecode : AgentToken.decode raw = some token :=
      AgentToken.decode_eq_some_iff.mpr (hraw.trans htext)
    refine ⟨hdecode, _, congrArg _ hdecode, fun now => ?_⟩
    rw [hid] at hread
    simp only [TokenWire.canActivate, Option.getD_some, tokenBearer_bearer, hread, Option.map_some]
    refine congrArg some (TokenServer.authenticate_of_mem hmem ?_ now)
    rw [hverifier, decoded_b64]
    exact hdigest
  · refine ⟨_, key, by rw [TokenWire.session, hstored]; rfl, hkey, ?_, ?_, fun env henv => ?_⟩
    · simp only [TokenWire.held, hproject, WireBlob.toSealed_fromSealed, Option.bind_some]
      exact AgentToken.unwrapProjectKey_wrapProjectKey P D token hP hwrapped
    · simp only [AgentTokenRow.envIds, CreateTokenRequest.token, List.map_map]
      rfl
    · obtain ⟨e, he, rfl⟩ := List.mem_map.mp henv
      obtain ⟨sent, hsent, hread'⟩ := Fallible.exists_left (Fallible.mapM_eq_some.mp hstored) he
      obtain ⟨env', -, hwrap⟩ := Fallible.exists_left henvs hsent
      exact unwrapEnvironmentKey_held hP hwrap hread'
  · unfold TokenWire.canActivate at hadmits
    split at hadmits
    · cases hadmits
    · rename_i id' key' hheader
      obtain ⟨id'', hread', hauth⟩ := Option.map_eq_some_iff.mp hadmits
      obtain ⟨-, hid', hkey'⟩ := TokenServer.mem_of_authenticate hauth
      refine ⟨id', key', hheader, hread'.trans (congrArg some hid'.symm), ?_⟩
      rw [hkey', hverifier, decoded_b64]
      rfl

/-- Ids of one byte. -/
def oneByte : TokenWire where
  text n := ⟨List.replicate 16 (.ofNat n), List.length_replicate⟩
  read s := (Crypto.uuidBytes (.ofList s)).bind fun bytes =>
    if bytes = List.replicate 16 (bytes.headD 0) then some (bytes.headD 0).toNat else none
  text_of_read {id u} h := by
    rw [String.ofList_toList, Crypto.uuidBytes_hyphenated, Option.bind_some] at h
    split at h
    · rename_i hsame
      obtain rfl := Option.some_inj.mp h
      refine Crypto.Uuid.eq_of_bytes_eq ?_
      rw [UInt8.ofNat_toNat]
      exact hsame.symm
    · cases h

/-- A device with the keys of project 1 and environment 2 open. -/
def openKeys : DesktopKeyring :=
  let key : SymmetricKey := ⟨List.replicate 32 3, rfl⟩
  ⟨some key, fun _ => none, fun _ => some key, fun _ => some key⟩

def newNonce : Nonce := ⟨List.replicate 24 4, rfl⟩

/-- Token 9 of environment 2, as it is issued. -/
def newToken : Option IssuedToken :=
  openKeys.issueAgentToken marking mixing (oneByte.text 1).hyphenated
    [(⟨(oneByte.text 2).hyphenated, 1⟩, newNonce)]
    ⟨oneByte.text 9, ⟨List.replicate 32 5, rfl⟩⟩ newNonce

/-- Secret 3 of the project, before and after its first change. -/
def secretWrite (revision : ℕ) : EntryWrite where
  projectId := 1
  id := 3
  type := .secret
  baseRevision := revision
  encryptedMeta := some ⟨.record 3, revision, 0⟩
  values := [(2, some ⟨.record 2, revision, 0⟩)]
  keyGrant := none
  limit := 10000
  viewer := 10
  now := revision + 1

/-- The server after a write of the secret. -/
def writeSecret (s : TokenServer (List UInt8)) (revision : ℕ) : TokenServer (List UInt8) :=
  ⟨(ProjectsStore.writeEntry s.db (secretWrite revision)).2, s.tokens⟩

/-- The entries of the project, at their revisions. -/
def revisions (s : TokenServer (List UInt8)) : List (Uuid × ℕ) :=
  s.db.projectEntries.rows.map fun e => (e.id, e.revision)

theorem writeSecret_step {t : StoredToken (List UInt8)} {s : TokenServer (List UInt8)}
    {revision : ℕ} (ht : t ∈ s.tokens)
    (hwritten : revisions (writeSecret s revision) ≠ revisions s) :
    TokenServer.Step (TokenWire.digest mixing) s (writeSecret s revision) ∧
      ¬ TokenServer.Ends t s (writeSecret s revision) := by
  refine ⟨.store (.entry s.db _), fun hends => hwritten ?_⟩
  rw [revisions, hends.projectEntries ht]
  rfl

/-- A token lets `zv` in after a secret was added and changed. -/
theorem access_token_works_later : ∃ issued header s s' t, newToken = some issued ∧
    (3, 2) ∈ revisions s ∧ bearer mixing issued.token = some header ∧
    oneByte.canActivate mixing s (some header) 5 = some (.ok t, s') := by
  obtain ⟨issued, req, s₁, hissued, hreq, hcreate, hs₁, hbefore, hadded, hchanged, hmay⟩ :
      ∃ issued req s₁, newToken = some issued ∧ oneByte.request issued 1000 = some req ∧
        (TokenServer.create ⟨TokenServer.sharedProject, .empty⟩ 10 1 req 0).1 =
          .ok ⟨9, [2], 10, 1000, false⟩ ∧
        (TokenServer.create ⟨TokenServer.sharedProject, .empty⟩ 10 1 req 0).2 = s₁ ∧
        revisions s₁ = [(2, 1)] ∧ revisions (writeSecret s₁ 0) = [(2, 1), (3, 1)] ∧
        revisions (writeSecret (writeSecret s₁ 0) 1) = [(2, 1), (3, 2)] ∧
        (TokensService.authenticate (writeSecret (writeSecret s₁ 0) 1).db
          (req.token 10 1).row 5).1 = .ok () :=
    ⟨_, _, _, rfl, rfl, rfl, rfl, rfl, rfl, rfl, rfl⟩
  have hcreated : TokenServer.create ⟨TokenServer.sharedProject, .empty⟩ 10 1 req 0 =
      (.ok ⟨9, [2], 10, 1000, false⟩, s₁) := Prod.ext hcreate hs₁
  have hmem := (TokenServer.create_ok hcreated).1
  have hfirst := writeSecret_step hmem (by rw [hbefore, hadded]; decide)
  have hsecond := writeSecret_step (s := writeSecret s₁ 0) hmem (by rw [hadded, hchanged]; decide)
  have hrun : ReflTransGen (fun s s' => TokenServer.Step (TokenWire.digest mixing) s s' ∧
      ¬ TokenServer.Ends (req.token 10 1) s s') s₁ (writeSecret (writeSecret s₁ 0) 1) :=
    .tail (.single hfirst) hsecond
  obtain ⟨hsent, -⟩ := access_token_works marking_binds hissued hreq hcreated hrun
  obtain ⟨-, -, -, -, -, -, -, htext, -⟩ := issueAgentToken_eq_some hissued
  obtain ⟨-, header, hheader, hanswer⟩ := hsent issued.token
    (by rw [htext, AgentToken.trimmed_encode])
  have hadmits := hanswer 5
  rw [hmay] at hadmits
  refine ⟨issued, header, _, _, _, hissued, ?_, hheader, hadmits⟩
  rw [hchanged]
  decide

end EndToEnd

end Zvault
