import Zvault.Db.Schema
import Zvault.Concurrent.Tasks

/-!
# Share links

`apps/api/src/sharing/share-links.service.ts` and the link half of
`share.store.ts`. `consumeLinkView` and `issueLinkCode` are transactions that
lock the link's row first, and `revokeLink` is one update of that row, so each
is one step; a request reads the clock before it and may wait in between.
Emails, listing and the recipients' keys are left out; nothing sweeps links.
-/

namespace Zvault

open Relational

/-- 16 random bytes, chosen by the sender's device. -/
abbrev ShareId := ℕ

/-- A ciphertext the server hands out unread. -/
abbrev ShareBlob := ℕ

/-- `LinkRecord`. -/
structure LinkRecord where
  id : ShareId
  ownerId : Uuid
  /-- Dropped as soon as the link can no longer be opened. -/
  blob : Option ShareBlob
  verifier : ℕ
  /-- Keyed hashes of the emails allowed to open it; none means anyone with the link. -/
  allowedEmails : Option (List ℕ)
  createdAt : Timestamp
  expiresAt : Timestamp
  maxViews : ℕ
  viewCount : ℕ
  revokedAt : Option Timestamp
  deriving DecidableEq, Repr

/-- A row of `share_link_codes`. -/
structure LinkCode where
  id : Uuid
  linkId : ShareId
  emailHash : ℕ
  codeHash : ℕ
  attempts : ℕ
  expiresAt : Timestamp
  /-- Spent (a view was counted) or closed (superseded, too many wrong tries). -/
  closedAt : Option Timestamp
  createdAt : Timestamp
  deriving DecidableEq, Repr

/-- `PresentedCode`: a one-time code presented for an email-restricted link, as keyed hashes. -/
structure PresentedCode where
  emailHash : ℕ
  codeHash : ℕ
  deriving DecidableEq, Repr

/-- `CODE_LIMITS.cooldownMs`. -/
def codeCooldown : ℕ := 30000

/-- `CODE_LIMITS.perHour`. -/
def codesPerHour : ℕ := 5

/-- `CODE_LIMITS.maxAttempts`: wrong guesses before a code stops working. -/
def maxLinkCodeAttempts : ℕ := 5

/-- The hour in which codes are counted, in milliseconds. -/
def countedHour : ℕ := 3600000

/-- `SHARE_LIMITS.codeTtlMinutes` in milliseconds. -/
def linkCodeTtl : ℕ := 10 * 60000

/-- `SHARE_LIMITS.maxActiveLinksPerUser`. -/
def maxActiveLinksPerUser : ℕ := 200

/-- What has happened to links and codes. -/
inductive ShareEvent where
  /-- `open` answered with the blob; it had read the clock at `now`, and spent `code`. -/
  | opened (linkId : ShareId) (now : Timestamp) (code : Option Uuid)
  | wrongCode (code : Uuid)
  | revoked (linkId : ShareId)
  deriving DecidableEq, Repr

/-- The tables, the clock, and what has happened, the last event first. -/
structure ShareDb where
  links : Table LinkRecord.id
  codes : Table LinkCode.id
  now : Timestamp
  events : List ShareEvent

def ShareDb.initial : ShareDb := ⟨Table.empty, Table.empty, 0, []⟩

def isLinkOpen (link : LinkRecord) (now : Timestamp) : Bool :=
  link.revokedAt = none ∧ now < link.expiresAt ∧ link.viewCount < link.maxViews

/-- `ConsumeResult`. A successful one names the code it spent. -/
inductive ConsumeResult where
  | ok (link : LinkRecord) (spent : Option Uuid)
  | notFound
  | emailRequired
  | invalidCode
  deriving DecidableEq, Repr

namespace ShareStore

def insertLink (db : ShareDb) (link : LinkRecord) : Bool × ShareDb :=
  if db.links.hasKey link.id then (false, db)
  else (true, { db with links := db.links.insertNew link })

/-- The link if it can still be opened at `now`. -/
def getOpenLink (db : ShareDb) (id : ShareId) (now : Timestamp) : Option LinkRecord :=
  (db.links.find id).filter fun link => isLinkOpen link now

def countActiveLinks (db : ShareDb) (ownerId : Uuid) (now : Timestamp) : ℕ :=
  (db.links.select fun link => link.ownerId = ownerId ∧ isLinkOpen link now).length

/-- The live code for a link and an email: the newest one. -/
def pendingCode (db : ShareDb) (id : ShareId) (emailHash : ℕ) (now : Timestamp) : Option LinkCode :=
  ((db.codes.select fun c => c.linkId = id ∧ c.emailHash = emailHash ∧ c.closedAt = none ∧
    now < c.expiresAt).mergeSort fun a b => b.createdAt ≤ a.createdAt).head?

/-- Counts one view, dropping the ciphertext if that was the last one. -/
def countView (db : ShareDb) (link : LinkRecord) : ShareDb :=
  { db with links := db.links.update (fun r => r.id = link.id) fun r => { r with
      viewCount := link.viewCount + 1
      blob := if link.maxViews ≤ link.viewCount + 1 then none else link.blob } }

/-- Compares a presented code with a live one and counts a wrong try. -/
def tryCode (db : ShareDb) (pending : LinkCode) (codeHash : ℕ) (now : Timestamp) : Bool × ShareDb :=
  let isMatch : Bool := pending.codeHash = codeHash
  let attempts := pending.attempts + if isMatch then 0 else 1
  let codes := db.codes.update (fun c => c.id = pending.id) fun c => { c with
    attempts := attempts
    closedAt := if isMatch || maxLinkCodeAttempts ≤ attempts then some now else none }
  (isMatch,
    { db with codes, events := if isMatch then db.events else .wrongCode pending.id :: db.events })

/-- Atomically: if the link is open at `now`, `check` accepts it and (for an email-restricted link)
`code` matches a live code, spend the code, count one view and return the record as it was before
the view was counted. -/
def consumeLinkView (db : ShareDb) (id : ShareId) (now : Timestamp) (check : LinkRecord → Bool)
    (code : Option PresentedCode) : ConsumeResult × ShareDb :=
  match db.links.find id with
  | none => (.notFound, db)
  | some link =>
    if ¬ isLinkOpen link now then
      let links := db.links.update (fun r => r.id = id) fun r => { r with blob := none }
      (.notFound, { db with links })
    else if ¬ check link then (.notFound, db)
    else if link.allowedEmails = none then (.ok link none, countView db link)
    else
      match code with
      | none => (.emailRequired, db)
      | some code =>
        match pendingCode db id code.emailHash now with
        | none => (.invalidCode, db)
        | some pending =>
          match tryCode db pending code.codeHash now with
          | (false, db) => (.invalidCode, db)
          | (true, db) => (.ok link (some pending.id), countView db link)

def revokeLink (db : ShareDb) (id : ShareId) (ownerId : Uuid) (now : Timestamp) : Bool × ShareDb :=
  if (db.links.select fun r => r.id = id ∧ r.ownerId = ownerId).isEmpty then (false, db)
  else
    let links := db.links.update (fun r => r.id = id ∧ r.ownerId = ownerId) fun r =>
      { r with revokedAt := r.revokedAt.or (some now), blob := none }
    (true, { db with links, events := .revoked id :: db.events })

/-- Stores a new code for a link and email, replacing any earlier one. Returns false, storing
nothing, when that pair is over its sending limits. -/
def issueLinkCode (db : ShareDb) (id : Uuid) (linkId : ShareId) (emailHash codeHash : ℕ)
    (now expiresAt : Timestamp) : Bool × ShareDb :=
  let recent := (db.codes.select fun c => c.linkId = linkId ∧ c.emailHash = emailHash ∧
    now < c.createdAt + countedHour).map LinkCode.createdAt
  if codesPerHour ≤ recent.length ∨ ∃ last ∈ recent.max?, now < last + codeCooldown then (false, db)
  -- the row's id is drawn; one that is taken aborts the transaction
  else if db.codes.hasKey id then (false, db)
  else
    let closed := db.codes.update
      (fun c => c.linkId = linkId ∧ c.emailHash = emailHash ∧ c.closedAt = none)
      fun c => { c with closedAt := some now }
    let code := ⟨id, linkId, emailHash, codeHash, 0, expiresAt, none, now⟩
    (true, { db with codes := closed.insertNew code })

end ShareStore

/-- The hashes the service compares by. -/
structure ShareHashes where
  verifierOf : String → ℕ
  emailHash : ShareId → String → ℕ
  codeHash : ShareId → String → String → ℕ

/-- `CreateShareLinkRequest`. -/
structure CreateShareLinkRequest where
  id : ShareId
  blob : ShareBlob
  verifier : ℕ
  expiresInSeconds : ℕ
  maxViews : ℕ
  maxViews_pos : 1 ≤ maxViews
  allowedEmails : Option (List String)

/-- Where a request stands. Each has read the clock at `now` when it arrived. -/
inductive ShareTask where
  | create (ownerId : Uuid) (req : CreateShareLinkRequest) (now : Timestamp)
  /-- The active links are counted; the link is inserted next. -/
  | insert (ownerId : Uuid) (req : CreateShareLinkRequest) (now : Timestamp)
  | open (id : ShareId) (accessToken : String) (email code : Option String) (now : Timestamp)
  | revoke (ownerId : Uuid) (id : ShareId) (now : Timestamp)
  | requestCode (id : ShareId) (accessToken email : String) (now : Timestamp)
  /-- The clock is read again, at `read`; the link is looked up next. -/
  | openLinkFor (id : ShareId) (accessToken email : String) (now read : Timestamp)
  /-- The link was open and the email is allowed; the code is stored next. -/
  | issueCode (id : ShareId) (emailHash codeHash : ℕ) (now : Timestamp)
  /-- Time passes. -/
  | clock (now : Timestamp)

namespace ShareLinksService

variable (hashes : ShareHashes)

/-- The record `create` stores. -/
def newLink (ownerId : Uuid) (req : CreateShareLinkRequest) (now : Timestamp) : LinkRecord where
  id := req.id
  ownerId
  blob := some req.blob
  verifier := req.verifier
  allowedEmails := req.allowedEmails.map fun emails => emails.map (hashes.emailHash req.id)
  createdAt := now
  expiresAt := now + req.expiresInSeconds * 1000
  maxViews := req.maxViews
  viewCount := 0
  revokedAt := none

/-- The code `open` presents, if the request names an email and a code. -/
def presentedCode (id : ShareId) (email code : Option String) : Option PresentedCode :=
  match email.filter (· ≠ ""), code.filter (· ≠ "") with
  | some email, some code => some ⟨hashes.emailHash id email, hashes.codeHash id email code⟩
  | _, _ => none

/-- `open`: returns the ciphertext and counts a view. -/
def openLink (db : ShareDb) (id : ShareId) (accessToken : String)
    (email code : Option String) (now : Timestamp) : Option ShareBlob × ShareDb :=
  let presented := hashes.verifierOf accessToken
  let code := presentedCode hashes id email code
  match ShareStore.consumeLinkView db id now (fun l => l.verifier = presented) code with
  | (.ok link spent, db) =>
    match link.blob with
    | none => (none, db)
    | some blob => (some blob, { db with events := .opened id now spent :: db.events })
  | (_, db) => (none, db)

/-- The lookup of `requestCode`: whether a code is to be stored, and for which email. -/
def openLinkFor (db : ShareDb) (id : ShareId) (accessToken email : String) (clock : Timestamp) :
    Option ℕ :=
  match ShareStore.getOpenLink db id clock with
  | none => none
  | some link =>
    if link.verifier = hashes.verifierOf accessToken ∧
        ∃ allowed ∈ link.allowedEmails, hashes.emailHash id email ∈ allowed then
      some (hashes.emailHash id email)
    else none

end ShareLinksService

/-- The next step of a request. `id` and `code` are what it draws for a code. -/
def ShareTask.proceed (hashes : ShareHashes) (db : ShareDb) (id : Uuid) (code : String) :
    ShareTask → ShareDb × Option ShareTask
  | .create ownerId req now =>
    if maxActiveLinksPerUser ≤ ShareStore.countActiveLinks db ownerId now then (db, none)
    else (db, some (.insert ownerId req now))
  | .insert ownerId req now =>
    ((ShareStore.insertLink db (ShareLinksService.newLink hashes ownerId req now)).2, none)
  | .open id accessToken email emailed now =>
    ((ShareLinksService.openLink hashes db id accessToken email emailed now).2, none)
  | .revoke ownerId id now => ((ShareStore.revokeLink db id ownerId now).2, none)
  | .requestCode linkId accessToken email now =>
    (db, some (.openLinkFor linkId accessToken email now db.now))
  | .openLinkFor linkId accessToken email now read =>
    match ShareLinksService.openLinkFor hashes db linkId accessToken email read with
    | none => (db, none)
    | some emailHash =>
      (db, some (.issueCode linkId emailHash (hashes.codeHash linkId email code) now))
  | .issueCode linkId emailHash codeHash now =>
    ((ShareStore.issueLinkCode db id linkId emailHash codeHash now (now + linkCodeTtl)).2, none)
  | .clock now => ({ db with now := max db.now now }, none)

/-- Whether this is a request, or time passing, rather than the middle of a request. -/
def ShareTask.isRequest : ShareTask → Bool
  | .insert .. => false
  | .openLinkFor .. => false
  | .issueCode .. => false
  | _ => true

/-- The clock a request has read. -/
def ShareTask.arrival : ShareTask → Option Timestamp
  | .create _ _ now => some now
  | .insert _ _ now => some now
  | .open _ _ _ _ now => some now
  | .revoke _ _ now => some now
  | .requestCode _ _ _ now => some now
  | .openLinkFor _ _ _ now _ => some now
  | .issueCode _ _ _ now => some now
  | .clock _ => none

/-- Any requests, in any order; each reads the clock when it arrives. -/
def shareProgram (hashes : ShareHashes) : Concurrent.Program ShareDb ShareTask where
  start db task := task.isRequest ∧ ∀ now ∈ task.arrival, now = db.now
  act db task db' next := ∃ id code, task.proceed hashes db id code = (db', next)

end Zvault
