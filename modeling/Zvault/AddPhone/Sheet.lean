import Zvault.Concurrent.Tasks
import Mathlib.Data.Nat.Notation

/-!
# Adding a phone

The two devices, and the sheet on the Mac that shows how far they are.
-/

/-! ### The Mac's and the phone's half

`apps/desktop/src-tauri/src/pairing.rs`, `crates/zvault-crypto/src/pairing.rs`
and `crates/zvault-mobile/src/api/pairing.rs`. Keys, codes and boxes are
symbolic: a code is the values it is the hash of, a box what it was sealed for,
and a drawn value differs from every other one. The account itself is left out
of the grant. -/

namespace Zvault

/-- A public key of a Mac: of the pairing it was drawn for, or one this Mac has not drawn. -/
inductive MacKey where
  | drawn (n : ℕ)
  | other (n : ℕ)
  deriving DecidableEq, Repr

/-- A pairing secret. -/
inductive PairingSecret where
  | drawn (n : ℕ)
  | other (n : ℕ)
  deriving DecidableEq, Repr

/-- A phone's public key: of the scan it was drawn for, or one no scan has drawn. -/
inductive PhoneKey where
  | scanned (n : ℕ)
  | other (n : ℕ)
  deriving DecidableEq, Repr

/-- `PairingOffer`: what the QR code carries. -/
structure PairingOffer where
  api : String
  id : String
  publicKey : MacKey
  secret : PairingSecret
  deriving DecidableEq, Repr

/-- The claim token of a secret. -/
structure ClaimToken where
  secret : PairingSecret
  deriving DecidableEq, Repr

/-- The code both screens show. -/
structure VerificationCode where
  secret : PairingSecret
  macPublic : MacKey
  phonePublic : PhoneKey
  deriving DecidableEq, Repr

/-- `BoxedShare`: a box sealed from a key to a key, for a pairing id. -/
structure BoxedGrant where
  sender : MacKey
  recipient : PhoneKey
  aad : List Char
  deriving DecidableEq, Repr

def isHexDigit (c : Char) : Bool := ('0' ≤ c ∧ c ≤ '9') ∨ ('a' ≤ c ∧ c ≤ 'f')

/-- `uuid_bytes`: the digits of a lowercase hyphenated UUID, so that one pairing has exactly one
id string. -/
def uuidBytes (id : String) : Option (List Char) :=
  let chars := id.toList
  if chars.length ≠ 36 ∨ [8, 13, 18, 23].any fun i => chars[i]? ≠ some '-' then none
  else
    let hex := chars.filter fun c => c ≠ '-'
    if hex.length ≠ 32 ∨ !hex.all isHexDigit then none else some hex

/-- A further field, of a name that `PairingOffer::parse` skips. -/
def isSkippedField (pair : List Char) : Bool :=
  pair.contains '=' && ["v", "api", "id", "k", "s"].all fun field =>
    pair.takeWhile (fun c => c ≠ '=') ≠ field.toList

/-- `PairingOffer::parse` on the text of an offer. The id is written as it is, so that one with an
ampersand brings further fields. -/
def PairingOffer.parse (offer : PairingOffer) : Option PairingOffer :=
  let isApi := ["https://", "http://"].any fun scheme => scheme.toList.isPrefixOf offer.api.toList
  match offer.id.toList.splitOn '&' with
  | [] => none
  | id :: further =>
    if isApi && further.all isSkippedField && (uuidBytes (.ofList id)).isSome then
      some { offer with id := .ofList id }
    else none

theorem PairingOffer.parse_keys {offer parsed : PairingOffer} (h : offer.parse = some parsed) :
    parsed.publicKey = offer.publicKey ∧ parsed.secret = offer.secret := by
  unfold PairingOffer.parse at h
  cases hpairs : offer.id.toList.splitOn '&' with
  | nil => simp [hpairs] at h
  | cons id further =>
    simp only [hpairs] at h
    split at h
    · obtain rfl := Option.some_inj.mp h
      exact ⟨rfl, rfl⟩
    · cases h

/-- `seal_grant`. -/
def sealGrant (mac : MacKey) (phonePublic : PhoneKey) (pairingId : String) : Option BoxedGrant :=
  (uuidBytes pairingId).map fun aad => { sender := mac, recipient := phonePublic, aad }

/-- Whether `open_grant` opens a grant. -/
def openGrant (phone : PhoneKey) (macPublic : MacKey) (pairingId : String) (boxed : BoxedGrant) :
    Bool :=
  uuidBytes pairingId = some boxed.aad ∧ boxed.recipient = phone ∧ boxed.sender = macPublic

/-- `Pending` of the Mac. -/
structure PendingPairing where
  keyPair : MacKey
  secret : PairingSecret
  id : Option String
  deriving DecidableEq, Repr

/-- `Pending` of the phone: the offer it has scanned, and its one-time key. -/
structure ScannedPairing where
  offer : PairingOffer
  keyPair : PhoneKey
  deriving DecidableEq, Repr

/-- The code the phone shows. -/
def ScannedPairing.code (p : ScannedPairing) : VerificationCode :=
  ⟨p.offer.secret, p.offer.publicKey, p.keyPair⟩

/-- `pairing_finish` opens the grant. -/
def ScannedPairing.opens (p : ScannedPairing) (boxed : BoxedGrant) : Bool :=
  openGrant p.keyPair p.offer.publicKey p.offer.id boxed

/-- The commands of the Mac, on the slot of the pairing on screen. -/
abbrev PairingSlot := Option PendingPairing

/-- `pairing_begin`, with the `n`-th values it draws. -/
def pairingBegin (n : ℕ) : ClaimToken × PairingSlot :=
  (⟨.drawn n⟩, some { keyPair := .drawn n, secret := .drawn n, id := none })

/-- `pairing_qr`. -/
def pairingQr (slot : PairingSlot) (id api : String) : Option PairingOffer × PairingSlot :=
  match slot with
  | none => (none, none)
  | some pending =>
    let offer := { api, id, publicKey := pending.keyPair, secret := pending.secret }
    if offer.parse.isSome then (some offer, some { pending with id := some id }) else (none, slot)

/-- `pairing_code`, for a key that decodes. -/
def pairingCode (slot : PairingSlot) (publicKey : Option PhoneKey) : Option VerificationCode :=
  match slot, publicKey with
  | some pending, some phone => some ⟨pending.secret, pending.keyPair, phone⟩
  | _, _ => none

/-- `pairing_grant`: seals the account to the phone, if the vault is unlocked. Takes the pairing
from the slot, whatever comes of it. -/
def pairingGrant (slot : PairingSlot) (publicKey : Option PhoneKey) (unlocked : Bool) :
    Option BoxedGrant × PairingSlot :=
  match publicKey with
  | none => (none, slot)
  | some phone =>
    match slot with
    | none => (none, none)
    | some pending =>
      match pending.id with
      | none => (none, none)
      | some id => (if unlocked then sealGrant pending.keyPair phone id else none, none)

/-- `pairing_scan`, with the `n`-th key it draws. -/
def pairingScan (offer : PairingOffer) (n : ℕ) : Option ScannedPairing :=
  offer.parse.map fun offer => ⟨offer, .scanned n⟩

end Zvault

/-! ### The sheet that adds a phone

`apps/desktop/src/devices/AddPhoneSheet.tsx`. A step that is set is seen by
polls and by the person once it is rendered. The server is hostile: it answers
every request with anything, and names any public key that was drawn. A phone
scans a code with the keys of one that was on screen, or with keys this Mac
never drew, since the key and the secret of a pairing leave the Mac in the code
only. Devices, messages and the countdown are left out. -/

namespace Zvault

/-- `Step`. -/
inductive SheetStep where
  | starting
  | scan (id : String) (offer : PairingOffer)
  | confirm (id : String) (publicKey : Option PhoneKey) (code : VerificationCode)
  | adding
  | done
  | failed
  deriving DecidableEq

def SheetStep.isScan : SheetStep → Bool
  | .scan .. => true
  | _ => false

/-- The code that a step shows. -/
def SheetStep.offer : SheetStep → Option PairingOffer
  | .scan _ offer => some offer
  | _ => none

/-- One sheet: the step that is set, and the one on screen. -/
structure Sheet where
  step : SheetStep
  rendered : SheetStep

/-- A grant, and the code on screen when the person allowed it. -/
structure AllowedGrant where
  code : VerificationCode
  boxed : BoxedGrant
  deriving DecidableEq

/-- The Mac, with its sheets one after another, and the phones in the order they scanned. -/
structure PairingWorld where
  slot : PairingSlot
  /-- How many pairings were begun. -/
  begun : ℕ
  sheets : ℕ → Sheet
  /-- The codes that were on screen. -/
  shown : List PairingOffer
  phones : List ScannedPairing
  grants : List AllowedGrant

def PairingWorld.initial : PairingWorld :=
  ⟨none, 0, fun _ => ⟨.starting, .starting⟩, [], [], []⟩

/-- `PairingView`, with the key as it decodes. -/
structure PairingView where
  claimed : Bool
  publicKey : Option (Option PhoneKey)
  deriving DecidableEq

/-- What the server answers, and whether the vault is unlocked. -/
structure PairingAnswer where
  created : Option String
  view : Option PairingView
  ok : Bool
  /-- The error says that the session has ended. -/
  signedOut : Bool
  unlocked : Bool
  deriving DecidableEq

/-- Where a call of the sheet stands, or what else happens. -/
inductive AddPhoneTask where
  | render (sheet : ℕ)
  | start (sheet : ℕ)
  | begin (sheet : ℕ)
  | create (sheet : ℕ) (claimToken : ClaimToken)
  | qr (sheet : ℕ) (id : String)
  /-- The text of the QR code has come back. -/
  | showQr (sheet : ℕ) (id : String) (offer : Option PairingOffer)
  | poll (sheet : ℕ) (id : String)
  | askCode (sheet : ℕ) (id : String) (publicKey : Option PhoneKey)
  /-- The code has come back. -/
  | showCode (sheet : ℕ) (id : String) (publicKey : Option PhoneKey) (code : VerificationCode)
  | allow (sheet : ℕ) (id : String) (publicKey : Option PhoneKey) (code : VerificationCode)
  | grant (sheet : ℕ) (id : String) (publicKey : Option PhoneKey) (code : VerificationCode)
  | approve (sheet : ℕ) (id : String) (boxed : BoxedGrant)
  | refused (sheet : ℕ)
  | deny (sheet : ℕ) (id : String)
  | cancel
  /-- A phone scans a code, or reads its text. -/
  | pairingScan (offer : PairingOffer)

namespace AddPhoneSheet

def setStep (w : PairingWorld) (sheet : ℕ) (step : SheetStep) : PairingWorld :=
  { w with sheets := fun s => if s = sheet then { w.sheets s with step } else w.sheets s }

def render (w : PairingWorld) (sheet : ℕ) : PairingWorld :=
  let { step, .. } := w.sheets sheet
  { w with
    sheets := fun s => if s = sheet then ⟨step, step⟩ else w.sheets s
    shown := step.offer.toList ++ w.shown }

/-- `fail`. -/
def fail (w : PairingWorld) (sheet : ℕ) (signedOut : Bool) : PairingWorld :=
  if signedOut then w else setStep w sheet .failed

/-- The reply to a poll. Its id is not compared with the one on screen. -/
def polled (w : PairingWorld) (sheet : ℕ) (id : String) (answer : PairingAnswer) :
    PairingWorld × Option AddPhoneTask :=
  match answer.view with
  | none => (if (w.sheets sheet).rendered.isScan then fail w sheet answer.signedOut else w, none)
  | some view =>
    if !(w.sheets sheet).rendered.isScan || !view.claimed then (w, none)
    else (w, view.publicKey.map fun publicKey => .askCode sheet id publicKey)

/-- `pairing_grant` for the phone that was allowed. -/
def grant (w : PairingWorld) (sheet : ℕ) (id : String) (publicKey : Option PhoneKey)
    (code : VerificationCode) (unlocked : Bool) : PairingWorld × Option AddPhoneTask :=
  match pairingGrant w.slot publicKey unlocked with
  | (none, slot) => ({ w with slot }, some (.refused sheet))
  | (some boxed, slot) =>
    ({ w with slot, grants := ⟨code, boxed⟩ :: w.grants }, some (.approve sheet id boxed))

end AddPhoneSheet

open AddPhoneSheet

/-- The next step of a task. -/
def AddPhoneTask.proceed (apiUrl : String) (w : PairingWorld) (answer : PairingAnswer) :
    AddPhoneTask → PairingWorld × Option AddPhoneTask
  | .render sheet => (AddPhoneSheet.render w sheet, none)
  | .start sheet => (setStep w sheet .starting, some (.begin sheet))
  | .begin sheet =>
    let (claimToken, slot) := pairingBegin w.begun
    ({ w with slot, begun := w.begun + 1 }, some (.create sheet claimToken))
  | .create sheet _ =>
    match answer.created with
    | none => (fail w sheet answer.signedOut, none)
    | some id => (w, some (.qr sheet id))
  | .qr sheet id =>
    let (offer, slot) := pairingQr w.slot id apiUrl
    ({ w with slot }, some (.showQr sheet id offer))
  | .showQr sheet id offer =>
    match offer with
    | none => (fail w sheet false, none)
    | some offer => (setStep w sheet (.scan id offer), none)
  | .poll sheet id => polled w sheet id answer
  | .askCode sheet id publicKey =>
    (w, (pairingCode w.slot publicKey).map (.showCode sheet id publicKey))
  | .showCode sheet id publicKey code => (setStep w sheet (.confirm id publicKey code), none)
  | .allow sheet id publicKey code =>
    (setStep w sheet .adding, some (.grant sheet id publicKey code))
  | .grant sheet id publicKey code =>
    AddPhoneSheet.grant w sheet id publicKey code answer.unlocked
  | .approve sheet _ _ =>
    (if answer.ok then setStep w sheet .done else fail w sheet answer.signedOut, none)
  | .refused sheet => (fail w sheet false, none)
  | .deny sheet _ => if answer.ok then (w, some .cancel) else (fail w sheet answer.signedOut, none)
  | .cancel => ({ w with slot := none }, none)
  | .pairingScan offer =>
    match Zvault.pairingScan offer w.phones.length with
    | none => (w, none)
    | some phone => ({ w with phones := w.phones ++ [phone] }, none)

/-- The server can name a phone's key once it was drawn. -/
def PairingAnswer.Possible (w : PairingWorld) (answer : PairingAnswer) : Prop :=
  ∀ view ∈ answer.view, ∀ n, view.publicKey = some (some (.scanned n)) → n < w.phones.length

/-- An offer that was not made from a pairing of this Mac. -/
def PairingOffer.Foreign (offer : PairingOffer) : Prop :=
  (∀ n, offer.publicKey ≠ .drawn n) ∧ ∀ n, offer.secret ≠ .drawn n

/-- What may start: renders, restarts and unmounts at any time, polls while a code is on screen,
the person's answer to the code on screen, and scans. -/
def AddPhoneTask.CanStart (w : PairingWorld) : AddPhoneTask → Prop
  | .render _ => True
  | .start _ => True
  | .poll sheet id => ∃ offer, (w.sheets sheet).rendered = .scan id offer
  | .allow sheet id publicKey code => (w.sheets sheet).rendered = .confirm id publicKey code
  | .deny sheet id => ∃ publicKey code, (w.sheets sheet).rendered = .confirm id publicKey code
  | .cancel => True
  | .pairingScan offer => offer.Foreign ∨
    ∃ shown ∈ w.shown, offer.publicKey = shown.publicKey ∧ offer.secret = shown.secret
  | _ => False

def addPhoneProgram (apiUrl : String) : Concurrent.Program PairingWorld AddPhoneTask where
  start w task := task.CanStart w
  act w task w' next := ∃ answer, answer.Possible w ∧ task.proceed apiUrl w answer = (w', next)

end Zvault
