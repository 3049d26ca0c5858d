import Zvault.Sharing.Device
import Zvault.Sharing.Limits
import Zvault.Text.Separated

/-!
# A share link from end to end

`apps/share-web/src/link.ts`, the browser's half of a share link, and what it comes to with
the device that made the link and the server that keeps it. The page asks the server
with what it derives from the fragment, and opens what it gets.
-/

namespace Zvault

open Crypto Relational Concurrent

variable {P : Primitives} {D : Derivations}

/-- `location.hash`: the URL from its first `#` on. -/
def locationHash (url : List Char) : List Char := url.dropWhile (· ≠ '#')

/-- The part of the URL that a browser asks for. -/
def requestedUrl (url : List Char) : List Char := url.takeWhile (· ≠ '#')

/-- `fromBase64Url`: `atob` drops bits that are left over. -/
def fromBase64Url (s : List Char) : Option (List UInt8) := Base64.forgive s

/-- The class `[A-Za-z0-9_-]`. -/
def isBase64Url (s : List Char) : Bool := s.all fun c => (Base64.index c).isSome

structure ParsedLink where
  id : List Char
  idBytes : List UInt8
  key : List UInt8
  deriving DecidableEq, Repr

/-- `#?`, 22 characters, a point and 43 characters, to the end. -/
def parseFragment (hash : List Char) : Option ParsedLink := do
  let body := if hash.head? = some '#' then hash.tail else hash
  let (id, key) ← Text.splitOnce '.' body
  if id.length = 22 ∧ key.length = 43 ∧ isBase64Url id ∧ isBase64Url key then
    let idBytes ← fromBase64Url id
    let keyBytes ← fromBase64Url key
    some ⟨id, idBytes, keyBytes⟩
  else none

namespace ParsedLink

variable (P D) (l : ParsedLink)

def accessToken : SymmetricKey :=
  D.hkdf (some l.idBytes) l.key (Bytes.utf8 "zvault/v1/share-link/auth")

def encKey : SymmetricKey := D.hkdf (some l.idBytes) l.key (Bytes.utf8 "zvault/v1/share-link/enc")

/-- Throws if the ciphertext was altered or does not belong to this link. -/
def openBlob (blob : Blob) : Option (List UInt8) := do
  let nonce ← fromBase64Url blob.nonce.toList
  let ct ← fromBase64Url blob.ct.toList
  if h : nonce.length = 24 then
    P.decrypt (l.encKey D) ⟨nonce, h⟩ (Bytes.utf8 "zvault/v1/share-link:" ++ l.idBytes) ct
  else none

/-- What the page sends as its access token. -/
def sentToken : String := b64 (l.accessToken D).bytes

end ParsedLink

/-- How the server's tables name what goes over the wire: ids, ciphertexts and hashes. -/
structure ShareWire where
  id : List Char → ShareId
  blob : Blob → ShareBlob
  verifier : List UInt8 → ℕ
  emailHash : ShareId → String → ℕ
  codeHash : ShareId → String → String → ℕ

namespace ShareWire

variable (W : ShareWire) (D : Derivations)

/-- `Buffer.from(.., 'base64url')`, of what the schema has let through. -/
def decoded (s : String) : List UInt8 := (Base64.forgive s.toList).getD []

/-- What the service compares by. -/
def hashes : ShareHashes where
  verifierOf token := W.verifier (D.sha256 (decoded token))
  emailHash := W.emailHash
  codeHash := W.codeHash

/-- The request that stores a new link. -/
def request (new : NewShareLink) (expiresInSeconds maxViews : ℕ) (h : 1 ≤ maxViews)
    (allowedEmails : Option (List String)) : CreateShareLinkRequest where
  id := W.id new.id.toList
  blob := W.blob new.blob
  verifier := W.verifier (decoded new.verifier)
  expiresInSeconds
  maxViews
  maxViews_pos := h
  allowedEmails

end ShareWire

/-- The link as the page reads it. -/
def ParsedLink.ofShare (link : LinkShare) : ParsedLink :=
  ⟨(b64 link.id.bytes).toList, link.id.bytes, link.key.bytes⟩

section Fragment

theorem isBase64Url_b64 (bytes : List UInt8) : isBase64Url (b64 bytes).toList = true := by
  simp only [isBase64Url, b64, String.toList_ofList, List.all_eq_true]
  exact fun _ => Base64.isSome_index_of_mem_encode

theorem fromBase64Url_b64 (bytes : List UInt8) :
    fromBase64Url (b64 bytes).toList = some bytes := by
  simp [fromBase64Url, b64, Base64.forgive_encode]

theorem decoded_b64 (bytes : List UInt8) : ShareWire.decoded (b64 bytes) = bytes := by
  have h := fromBase64Url_b64 bytes
  unfold fromBase64Url at h
  rw [ShareWire.decoded, h, Option.getD_some]

/-- The page reads the id and the key that the URL was made with. -/
theorem parseFragment_eq (link : LinkShare) :
    parseFragment ('#' :: (b64 link.id.bytes).toList ++ '.' :: (b64 link.key.bytes).toList) =
      some (.ofShare link) := by
  have hpoint : '.' ∉ (b64 link.id.bytes).toList := by
    simpa [b64] using Base64.not_mem_encode (by decide) link.id.bytes
  have hid : (b64 link.id.bytes).toList.length = 22 := by rw [length_b64, link.id.length_eq]
  have hkey : (b64 link.key.bytes).toList.length = 43 := by rw [length_b64, link.key.length_eq]
  simp only [parseFragment, List.cons_append, List.head?_cons, if_true, List.tail_cons,
    Text.splitOnce_append_cons hpoint, Option.bind_eq_bind, Option.bind_some, fromBase64Url_b64,
    isBase64Url_b64, hid, hkey, and_self]
  rfl

theorem locationHash_append {before after : List Char} (h : '#' ∉ before) :
    locationHash (before ++ '#' :: after) = '#' :: after := by
  induction before with
  | nil => rfl
  | cons c before ih =>
    obtain ⟨hc, hbefore⟩ := List.ne_and_not_mem_of_not_mem_cons h
    rw [locationHash, List.cons_append, List.dropWhile_cons_of_pos (by simpa using Ne.symm hc)]
    exact ih hbefore

theorem requestedUrl_append {before after : List Char} (h : '#' ∉ before) :
    requestedUrl (before ++ '#' :: after) = before := by
  induction before with
  | nil => rfl
  | cons c before ih =>
    obtain ⟨hc, hbefore⟩ := List.ne_and_not_mem_of_not_mem_cons h
    rw [requestedUrl, List.cons_append, List.takeWhile_cons_of_pos (by simpa using Ne.symm hc)]
    exact congrArg _ (ih hbefore)

end Fragment

section Server

variable {db db' : ShareDb} {hashes : ShareHashes} {link₀ : LinkRecord}

/-- What a link keeps: everything but its views, its revocation and its ciphertext, which is
dropped but never replaced. -/
structure SameLink (link₀ link : LinkRecord) : Prop where
  id : link.id = link₀.id
  verifier : link.verifier = link₀.verifier
  allowedEmails : link.allowedEmails = link₀.allowedEmails
  expiresAt : link.expiresAt = link₀.expiresAt
  maxViews : link.maxViews = link₀.maxViews
  blob : ∀ b ∈ link.blob, b ∈ link₀.blob

/-- The link is still stored. -/
def StillStored (link₀ : LinkRecord) (db : ShareDb) : Prop := ∃ link ∈ db.links, SameLink link₀ link

theorem SameLink.refl (link : LinkRecord) : SameLink link link :=
  ⟨rfl, rfl, rfl, rfl, rfl, fun _ hb => hb⟩

theorem SameLink.trans {link link' : LinkRecord} (h : SameLink link₀ link)
    (h' : SameLink link link') : SameLink link₀ link' where
  id := h'.id.trans h.id
  verifier := h'.verifier.trans h.verifier
  allowedEmails := h'.allowedEmails.trans h.allowedEmails
  expiresAt := h'.expiresAt.trans h.expiresAt
  maxViews := h'.maxViews.trans h.maxViews
  blob b hb := h.blob b (h'.blob b hb)

/-- A row after an update that keeps this. -/
theorem SameLink.of_update {links : Table LinkRecord.id} {p : LinkRecord → Bool}
    {f : LinkRecord → LinkRecord} (hf : ∀ r, (f r).id = r.id) {r : LinkRecord} (hr : r ∈ links)
    (hsame : p r = true → SameLink r (f r)) : ∃ r' ∈ links.update p f hf, SameLink r r' := by
  refine ⟨_, Table.mem_update_of_mem hf hr, ?_⟩
  split
  · rename_i hp
    exact hsame hp
  · exact .refl r

/-- No step of any request takes a link away or changes what it keeps. -/
theorem ShareStep.sameLink (hstep : ShareStep db db') {r : LinkRecord} (hr : r ∈ db.links) :
    ∃ r' ∈ db'.links, SameLink r r' := by
  cases hstep with
  | nothing => exact ⟨r, hr, .refl r⟩
  | clock now hle => exact ⟨r, hr, .refl r⟩
  | insert link hnew hviews hmax hblob hrevoked =>
    exact ⟨r, Table.mem_insertNew.mpr (Or.inl hr), .refl r⟩
  | drop link now hlink hnow hclosed =>
    refine SameLink.of_update ?_ hr fun _ => ?_
    · exact fun _ => rfl
    · exact ⟨rfl, rfl, rfl, rfl, rfl, fun _ hb => absurd hb (Option.not_mem_none _)⟩
  | revoke link now hlink =>
    refine SameLink.of_update ?_ hr fun _ => ?_
    · exact fun _ => rfl
    · exact ⟨rfl, rfl, rfl, rfl, rfl, fun _ hb => absurd hb (Option.not_mem_none _)⟩
  | wrong c now hc hlive => exact ⟨r, hr, .refl r⟩
  | view link now spent hlink hopen hspent hrestricted =>
    have hlinks : ((ShareStore.countView (db.spend now spent) link).answer link now
        (spent.map LinkCode.id)).links =
          (ShareStore.countView (db.spend now spent) link).links := by
      unfold ShareDb.answer
      split <;> rfl
    have hr' : r ∈ (db.spend now spent).links := by
      rw [ShareDb.spend_links]
      exact hr
    rw [hlinks]
    simp only [ShareStore.countView]
    refine SameLink.of_update ?_ hr' fun hp => ?_
    obtain rfl := Table.eq_of_key_eq hr hlink (by simpa using hp)
    refine ⟨rfl, rfl, rfl, rfl, rfl, fun b hb => ?_⟩
    simp only [Option.mem_def] at hb
    split at hb
    · cases hb
    · exact hb
  | issue c hnew hattempts hcount hlast => exact ⟨r, hr, .refl r⟩

theorem StillStored.step (h : StillStored link₀ db) (hstep : ShareStep db db') :
    StillStored link₀ db' := by
  obtain ⟨link, hlink, hsame⟩ := h
  obtain ⟨link', hlink', hsame'⟩ := hstep.sameLink hlink
  exact ⟨link', hlink', hsame.trans hsame'⟩

/-- What a link keeps, it keeps in every run. -/
theorem stillStored_outline (hashes : ShareHashes) (link₀ : LinkRecord) :
    Outline (shareProgram hashes) (fun db => WithinLimits db ∧ StillStored link₀ db)
      (fun db task => ∀ now ∈ task.arrival, now ≤ db.now) fun _ _ => True := by
  have h := share_outline hashes
  refine .of_free (fun hinv hstart => h.start hinv.1 hstart) (fun hinv hwaits hact => ?_)
    (fun hinv hwaits hact => h.leads hinv.1 hwaits hact)
    (fun hinv hwaits hu hact => h.free hinv.1 hwaits hu trivial hact)
  refine ⟨h.keeps hinv.1 hwaits hact, ?_⟩
  obtain ⟨id, code, hact⟩ := hact
  exact hinv.2.step (proceed_step hwaits hact).1

section Opens

variable {link : LinkRecord} {id : ShareId} {token : String} {email code : Option String}
  {now : Timestamp}

/-- A code that `open` presents for a restricted link is the live one; anyone may open the
others. -/
def MayOpen (hashes : ShareHashes) (db : ShareDb) (link : LinkRecord) (email code : Option String)
    (now : Timestamp) : Prop :=
  link.allowedEmails = none ∨
    ∃ shown ∈ ShareLinksService.presentedCode hashes link.id email code,
      ∃ pending ∈ ShareStore.pendingCode db link.id shown.emailHash now,
        pending.codeHash = shown.codeHash

theorem consumeLinkView_ok_iff (check : LinkRecord → Bool) (code : Option PresentedCode)
    (now : Timestamp) (hfind : db.links.find id = some link) (l : LinkRecord) :
    (∃ spent, (ShareStore.consumeLinkView db id now check code).1 = .ok l spent) ↔
      l = link ∧ isLinkOpen link now = true ∧ check link = true ∧
        (link.allowedEmails = none ∨ ∃ shown ∈ code,
          ∃ pending ∈ ShareStore.pendingCode db id shown.emailHash now,
            pending.codeHash = shown.codeHash) := by
  unfold ShareStore.consumeLinkView
  simp only [hfind]
  by_cases hopen : isLinkOpen link now = true
  · by_cases hcheck : check link = true
    · by_cases hanyone : link.allowedEmails = none
      · simp [hopen, hcheck, hanyone, eq_comm]
      · cases code with
        | none => simp [hopen, hcheck, hanyone]
        | some shown =>
          cases hpending : ShareStore.pendingCode db id shown.emailHash now with
          | none => simp [hopen, hcheck, hanyone, hpending]
          | some pending =>
            by_cases hmatch : pending.codeHash = shown.codeHash
            · simp [hopen, hcheck, hanyone, hpending, ShareStore.tryCode, hmatch, eq_comm]
            · simp [hopen, hcheck, hanyone, hpending, ShareStore.tryCode, hmatch]
    · simp [hopen, hcheck]
  · simp [hopen]

/-- **Exactly what `open` answers.** -/
theorem openLink_eq_some_iff (hlink : link ∈ db.links) {blob : ShareBlob} :
    (ShareLinksService.openLink hashes db link.id token email code now).1 = some blob ↔
      isLinkOpen link now = true ∧ link.verifier = hashes.verifierOf token ∧
        MayOpen hashes db link email code now ∧ link.blob = some blob := by
  have hfind : db.links.find link.id = some link := Table.find_eq_some.mpr ⟨hlink, rfl⟩
  have hok := consumeLinkView_ok_iff (fun l => l.verifier = hashes.verifierOf token)
    (ShareLinksService.presentedCode hashes link.id email code) now hfind
  unfold ShareLinksService.openLink MayOpen
  extract_lets presented shown
  cases hconsume : ShareStore.consumeLinkView db link.id now (fun l => l.verifier = presented)
      shown with
  | mk result db' =>
    have hresult : (ShareStore.consumeLinkView db link.id now
        (fun l => l.verifier = hashes.verifierOf token) shown).1 = result := by
      rw [hconsume]
    simp only [hresult, shown] at hok
    cases result with
    | ok l spent =>
      obtain ⟨rfl, hopen, hcheck, hmay⟩ := (hok l).mp ⟨spent, rfl⟩
      have hverifier : l.verifier = hashes.verifierOf token := by simpa using hcheck
      cases hblob : l.blob with
      | none => simp only [hblob, reduceCtorEq, and_false]
      | some b => simp only [hblob, hopen, hverifier, hmay, true_and]
    | _ =>
      refine ⟨fun h => (by cases h), fun ⟨hopen, hverifier, hmay, _⟩ => ?_⟩
      obtain ⟨spent, hspent⟩ := (hok link).mpr ⟨rfl, hopen, by simpa using hverifier, hmay⟩
      cases hspent

end Opens

end Server

section EndToEnd

variable {db₀ db : ShareDb} {tasks₀ tasks : List ShareTask} {W : ShareWire} {payload : String}
  {shareOrigin : List Char} {link : LinkShare} {nonce : Nonce} {new : NewShareLink}

/-- The page opens what the device sealed. -/
theorem openBlob_shareLinkCreate (hP : P.Binds)
    (hnew : shareLinkCreate P D payload shareOrigin link nonce = some new) :
    (ParsedLink.ofShare link).openBlob P D new.blob = some (Bytes.utf8 payload) := by
  obtain ⟨origin, s, -, hs, rfl⟩ := shareLinkCreate_eq_some_iff.mp hnew
  have hopen : link.openText P D s = some (Bytes.utf8 payload) := LinkShare.openText_sealText hP hs
  simp only [ParsedLink.openBlob, WireBlob.fromSealed, fromBase64Url_b64, Option.bind_eq_bind,
    Option.bind_some, s.nonce.length_eq, dite_true]
  exact hopen

/-- The page shows the server the token whose hash the device sent. -/
theorem verifierOf_sentToken (W : ShareWire) (D : Derivations) (link : LinkShare) :
    (W.hashes D).verifierOf ((ParsedLink.ofShare link).sentToken D) =
      W.verifier (link.verifier D) := by
  have htoken : (ParsedLink.ofShare link).sentToken D = b64 (link.accessToken D).bytes := rfl
  rw [htoken]
  simp only [ShareWire.hashes, decoded_b64]
  rfl

/-- **A share link from end to end.** A device makes a link and the server stores it. Whatever
requests come after that, however their steps interleave, the page that is given the URL reads the
id and the key from the part that browsers keep to themselves, and opens the ciphertext to the
payload. As long as the link can still be opened, the server answers it with the ciphertext;
it answers nobody else, other than one whose token has the same hash, and nobody once it is over. -/
theorem share_link_opens (hP : P.Binds)
    (hnew : shareLinkCreate P D payload shareOrigin link nonce = some new) {ownerId : Uuid}
    {expiresInSeconds maxViews : ℕ} {hviews : 1 ≤ maxViews} {allowedEmails : Option (List String)}
    {stored : Timestamp}
    (hrun₀ : Run (shareProgram (W.hashes D)) ⟨ShareDb.initial, []⟩ ⟨db₀, tasks₀⟩)
    (hstored : ShareLinksService.newLink (W.hashes D) ownerId
      (W.request new expiresInSeconds maxViews hviews allowedEmails) stored ∈ db₀.links)
    (hrun : Run (shareProgram (W.hashes D)) ⟨db₀, tasks₀⟩ ⟨db, tasks⟩) :
    ∃ page row, parseFragment (locationHash new.url) = some page ∧
      (∃ origin, checkOrigin shareOrigin = some origin ∧ requestedUrl new.url = origin ++ ['/']) ∧
      page.openBlob P D new.blob = some (Bytes.utf8 payload) ∧
      row ∈ db.links ∧ row.id = W.id page.id ∧
      row.expiresAt = stored + expiresInSeconds * 1000 ∧ row.maxViews = maxViews ∧
      ∀ token email code, ∀ now ≤ db.now,
        (isLinkOpen row db.now = true → token = page.sentToken D →
          MayOpen (W.hashes D) db row email code now →
          (ShareLinksService.openLink (W.hashes D) db (W.id page.id) token email code now).1 =
            some (W.blob new.blob)) ∧
        ∀ blob, (ShareLinksService.openLink (W.hashes D) db (W.id page.id) token email code now).1 =
            some blob →
          blob = W.blob new.blob ∧ isLinkOpen row now = true ∧
            (W.hashes D).verifierOf token = (W.hashes D).verifierOf (page.sentToken D) ∧
            MayOpen (W.hashes D) db row email code now := by
  have hholds := (share_outline (W.hashes D)).run_idle .initial hrun₀
  have hkept := (stillStored_outline (W.hashes D) _).run
    ⟨⟨hholds.inv, _, hstored, .refl _⟩, hholds.waits, hholds.apart⟩ hrun
  obtain ⟨hlimits, row, hrow, hsame⟩ := hkept.inv
  have hopens := openBlob_shareLinkCreate hP hnew
  obtain ⟨origin, s, horigin, hs, rfl⟩ := shareLinkCreate_eq_some_iff.mp hnew
  have hplain : '#' ∉ origin ++ ['/'] := by
    simpa using not_mem_of_checkOrigin horigin
  have hurl : origin ++ "/#".toList ++ (b64 link.id.bytes).toList ++ '.' ::
      (b64 link.key.bytes).toList = (origin ++ ['/']) ++ '#' ::
        ((b64 link.id.bytes).toList ++ '.' :: (b64 link.key.bytes).toList) := by
    simp
  refine ⟨.ofShare link, row, ?_, ⟨origin, horigin, ?_⟩, hopens, hrow, hsame.id, hsame.expiresAt,
    hsame.maxViews, fun token email code now hnow => ⟨fun hopen htoken hmay => ?_,
      fun blob hblob => ?_⟩⟩
  · rw [hurl, locationHash_append hplain]
    exact parseFragment_eq link
  · rw [hurl, requestedUrl_append hplain]
  · -- an open link still has its ciphertext
    have hsome : row.blob.isSome = true := by
      rw [Option.isSome_iff_ne_none]
      intro hnone
      rw [(hlimits.links row hrow).blob_none hnone] at hopen
      cases hopen
    obtain ⟨blob, hblob⟩ := Option.isSome_iff_exists.mp hsome
    have heq : blob = _ := (Option.some_inj.mp (hsame.blob blob hblob)).symm
    have hid : row.id = W.id (ParsedLink.ofShare link).id := hsame.id
    rw [← hid, openLink_eq_some_iff hrow]
    refine ⟨isLinkOpen_of_le hnow hopen, ?_, hmay, hblob.trans (congrArg some heq)⟩
    rw [hsame.verifier, htoken, verifierOf_sentToken]
    exact congrArg W.verifier (decoded_b64 _)
  · have hid : row.id = W.id (ParsedLink.ofShare link).id := hsame.id
    rw [← hid, openLink_eq_some_iff hrow] at hblob
    obtain ⟨hopen, hverifier, hmay, hblob⟩ := hblob
    refine ⟨(Option.some_inj.mp (hsame.blob blob hblob)).symm, hopen, ?_, hmay⟩
    rw [← hverifier, hsame.verifier, verifierOf_sentToken]
    exact congrArg W.verifier (decoded_b64 _)

/-- Bytes as a number. -/
def bytesNumber (bytes : List UInt8) : ℕ := bytes.foldl (fun n b => 256 * n + b.toNat) 1

def countingWire : ShareWire where
  id s := bytesNumber (Bytes.utf8 (String.ofList s))
  blob b := bytesNumber (Bytes.utf8 b.ct)
  verifier := bytesNumber
  emailHash _ email := bytesNumber (Bytes.utf8 email)
  codeHash _ _ code := bytesNumber (Bytes.utf8 code)

def madeShare : LinkShare := ⟨⟨List.replicate 16 21, rfl⟩, ⟨List.replicate 32 22, rfl⟩⟩

def madeLink : Option NewShareLink :=
  shareLinkCreate marking mixing "{}" "https://share.example/".toList madeShare
    ⟨List.replicate 24 23, rfl⟩

/-- A link that may be viewed twice in a minute. -/
def storedOnce (new : NewShareLink) : ShareDb :=
  let req := countingWire.request new 60 2 (Nat.le_succ 1) none
  { ShareDb.initial with
    links := ShareDb.initial.links.insertNew
      (ShareLinksService.newLink (countingWire.hashes mixing) 1 req 0) }

/-- Half a minute later, the link was viewed. -/
def viewedOnce (new : NewShareLink) : ShareDb :=
  (ShareLinksService.openLink (countingWire.hashes mixing) { storedOnce new with now := 30000 }
    (countingWire.id new.id.toList) ((ParsedLink.ofShare madeShare).sentToken mixing) none none
    30000).2

/-- The page opens a link that was viewed before, and the server answers no other token. -/
theorem share_link_opens_viewed : ∃ new page, madeLink = some new ∧
    Run (shareProgram (countingWire.hashes mixing)) ⟨ShareDb.initial, []⟩ ⟨viewedOnce new, []⟩ ∧
    parseFragment (locationHash new.url) = some page ∧
    page.openBlob marking mixing new.blob = some (Bytes.utf8 "{}") ∧
    (ShareLinksService.openLink (countingWire.hashes mixing) (viewedOnce new)
      (countingWire.id page.id) (page.sentToken mixing) none none 30000).1 =
        some (countingWire.blob new.blob) ∧
    ∀ token blob, (ShareLinksService.openLink (countingWire.hashes mixing) (viewedOnce new)
      (countingWire.id page.id) token none none 30000).1 = some blob →
        (countingWire.hashes mixing).verifierOf token =
          (countingWire.hashes mixing).verifierOf (page.sentToken mixing) := by
  have hviewed : madeLink.map (fun new => ((viewedOnce new).now, (viewedOnce new).links.rows.map
      fun row => (row.viewCount, isLinkOpen row 30000, row.allowedEmails))) =
        some (30000, [(1, true, none)]) := by decide +kernel
  obtain ⟨new, hnew, hviewed⟩ := Option.map_eq_some_iff.mp hviewed
  obtain ⟨hnow, hrows⟩ := Prod.mk.inj hviewed
  let req := countingWire.request new 60 2 (Nat.le_succ 1) none
  have hrun₀ : Run (shareProgram (countingWire.hashes mixing)) ⟨ShareDb.initial, []⟩
      ⟨storedOnce new, []⟩ :=
    .tail (.tail (.tail .refl (.start (t := .create 1 req 0) ⟨rfl, by rintro _ ⟨⟩; rfl⟩))
      (.next ⟨0, "", rfl⟩)) (.last ⟨0, "", rfl⟩)
  have hrun : Run (shareProgram (countingWire.hashes mixing)) ⟨storedOnce new, []⟩
      ⟨viewedOnce new, []⟩ := by
    refine .tail (.tail (.tail (.tail .refl (.start (t := .clock 30000) ⟨rfl, by rintro _ ⟨⟩⟩))
      (.last ⟨0, "", rfl⟩)) (.start (t := .open (countingWire.id new.id.toList)
        ((ParsedLink.ofShare madeShare).sentToken mixing) none none 30000) ⟨rfl, ?_⟩))
      (.last ⟨0, "", rfl⟩)
    rintro _ ⟨⟩
    rfl
  obtain ⟨page, row, hpage, -, hopens, hrow, -, -, -, hserver⟩ :=
    share_link_opens marking_binds hnew hrun₀
      (Table.mem_insertNew.mpr (Or.inr ⟨rfl, fun _ h => absurd h (Table.not_mem_empty _)⟩)) hrun
  have hlive : (row.viewCount, isLinkOpen row 30000, row.allowedEmails) = (1, true, none) :=
    List.mem_singleton.mp (hrows ▸ List.mem_map_of_mem hrow)
  obtain ⟨hopen, hanyone⟩ := Prod.mk.inj (Prod.mk.inj hlive).2
  rw [← hnow] at hopen
  refine ⟨new, page, hnew, hrun₀.trans hrun, hpage, hopens, ?_, fun token blob hblob => ?_⟩
  · exact (hserver (page.sentToken mixing) none none 30000 (Nat.le_of_eq hnow.symm)).1 hopen rfl
      (Or.inl hanyone)
  · obtain ⟨-, -, hverifier, -⟩ :=
      (hserver token none none 30000 (Nat.le_of_eq hnow.symm)).2 blob hblob
    exact hverifier

end EndToEnd

end Zvault
