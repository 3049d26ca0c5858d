import Zvault.Browser.Sites
import Zvault.Text.Utf8Lossy

/-!
# The save banner

The typed login of a tab that waits to be saved, in `background.ts` and `content.ts`
of the extension. A click on the banner names no login: it saves the one that waits
when the click is handled, and what the app answers takes away the one that waits then.
-/

namespace Zvault.Browser

structure SaveOffer where
  host : String
  username : String
  update : Option String
  deriving DecidableEq, Repr

/-- The addresses Zvault matches. -/
structure Page where
  url : String
  topUrl : Option String
  deriving DecidableEq, Repr

/-- A typed login that waits to be saved. The serial is the count of the logins that waited
before it. -/
structure Pending where
  page : Page
  username : String
  password : String
  item : Option String
  offer : SaveOffer
  since : ℕ
  serial : ℕ
  deriving DecidableEq, Repr

/-- A user name sent alone, for the password page that follows it. -/
structure Earlier where
  username : String
  site : String
  since : ℕ
  deriving DecidableEq, Repr

/-- What the browser says of the frame that sends. -/
structure Sender where
  url : Option String
  frameId : ℕ
  tabUrl : Option String
  deriving DecidableEq, Repr

/-- A login the app was asked about. -/
structure Check where
  page : Page
  username : String
  password : String
  deriving DecidableEq, Repr

/-- What the app says of a typed login. A failure is `failed`. -/
inductive CheckAnswer where
  | failed
  | saved
  | new
  | update (item title : String)
  deriving DecidableEq, Repr

/-- What the app says of a save. -/
inductive SaveAnswer where
  | ok
  | denied
  | wrongSite
  | failed
  deriving DecidableEq, Repr

inductive View where
  | offer
  | waiting
  | failed (denied : Bool)
  | done
  deriving DecidableEq, Repr

/-- An offer, with the serial of the login that it is for. The page is sent the offer alone. -/
structure LoginOffer where
  offer : SaveOffer
  serial : ℕ
  deriving DecidableEq, Repr

def Pending.loginOffer (p : Pending) : LoginOffer := ⟨p.offer, p.serial⟩

/-- `SaveBanner`: what it shows, unless it is not connected. -/
structure Banner where
  shown : Option LoginOffer
  view : Option View
  deriving DecidableEq, Repr

/-- An offer on its way to the top frame: to the document that asked, or to any. -/
structure Sending where
  document : Option ℕ
  offer : LoginOffer
  deriving DecidableEq, Repr

/-- A document of the tab can get the offer. -/
def Sending.Reaches (sending : Sending) (document : ℕ) : Prop :=
  ∀ asked ∈ sending.document, asked = document

instance (sending : Sending) (document : ℕ) : Decidable (sending.Reaches document) :=
  inferInstanceAs (Decidable (∀ asked ∈ sending.document, asked = document))

inductive Stage where
  | onItsWay
  | asked (p : Pending)
  | answered (answer : SaveAnswer)
  deriving DecidableEq, Repr

/-- A click on the banner's button, with the offer that the banner showed. -/
structure Save where
  document : ℕ
  clicked : Option LoginOffer
  stage : Stage
  deriving DecidableEq, Repr

/-- What has happened: a login was sent to be saved, the offer that was shown was dismissed, or a
save that ended took a login away. -/
inductive Record where
  | sent (clicked : Option LoginOffer) (login : Pending) (now : ℕ)
  | dismissed (shown : Option LoginOffer)
  | dropped (saved login : Pending)
  deriving DecidableEq, Repr

/-- What there is of one tab. -/
structure Tab where
  now : ℕ
  earlier : Option Earlier
  entry : Option Pending
  written : ℕ
  checks : List Check
  asks : List ℕ
  offers : List Sending
  document : ℕ
  banner : Banner
  saves : List Save
  dismissals : ℕ
  closings : List ℕ
  history : List Record
  deriving DecidableEq, Repr

/-- A tab with nothing in it. -/
def Tab.fresh : Tab where
  now := 0
  earlier := none
  entry := none
  written := 0
  checks := []
  asks := []
  offers := []
  document := 0
  banner := ⟨none, none⟩
  saves := []
  dismissals := 0
  closings := []
  history := []

inductive Button where
  | save
  | retry
  | later
  | close
  deriving DecidableEq, Repr

inductive Event where
  | tick (ms : ℕ)
  | typedUsername (sender : Sender) (username : String)
  | typed (sender : Sender) (username password : String)
  | checked (i : ℕ) (answer : CheckAnswer)
  | load
  | ask (i : ℕ)
  | deliver (i : ℕ)
  | lose (i : ℕ)
  | remove
  | press (button : Button)
  | read (i : ℕ)
  | answer (i : ℕ) (answer : SaveAnswer)
  | report (i : ℕ)
  | dismiss
  | close (i : ℕ)
  deriving DecidableEq, Repr

/-- `PENDING_MS`. -/
def pendingMs : ℕ := 2 * 60 * 1000

/-- `USERNAME_MS`. -/
def usernameMs : ℕ := 10 * 60 * 1000

/-- `hostname` and `origin` of an address. -/
structure Urls where
  hostname : String → String
  origin : String → String

/-- `pageOf`. -/
def pageOf (sender : Sender) : Option Page :=
  sender.url.bind fun url =>
    if "http:".toList <+: url.toList ∨ "https:".toList <+: url.toList then
      some ⟨url, if sender.frameId = 0 then some url else sender.tabUrl⟩
    else none

/-- `pending`. -/
def Tab.pending (t : Tab) : Option Pending := t.entry.filter fun p => t.now < p.since + pendingMs

/-- The user name a login is asked about with: one sent alone before, if it was typed without. -/
def Tab.usernameFor (t : Tab) (site username : String) : String :=
  if username = "" then
    (t.earlier.filter fun e => e.site = site ∧ t.now < e.since + usernameMs).elim "" (·.username)
  else username

/-- The banner is there with an offer of the same host and user name. -/
def Banner.Repeats (b : Banner) (offer : SaveOffer) : Prop :=
  (∃ shown ∈ b.shown, shown.offer.host = offer.host ∧ shown.offer.username = offer.username) ∧
    b.view.isSome

instance (b : Banner) (offer : SaveOffer) : Decidable (b.Repeats offer) :=
  inferInstanceAs (Decidable (_ ∧ _))

/-- `show`. -/
def Banner.show (b : Banner) (offer : LoginOffer) : Banner :=
  if b.Repeats offer.offer then b else ⟨some offer, some .offer⟩

/-- The end of `save` in the banner. -/
def Banner.report (b : Banner) : SaveAnswer → Banner
  | .ok => { b with view := some .done }
  | answer => { b with view := some (.failed (answer = .denied)) }

/-- The item and the title of the login that changes, of an answer that leads to an offer. -/
def CheckAnswer.offered : CheckAnswer → Option (Option String × Option String)
  | failed | saved => none
  | new => some (none, none)
  | update item title => some (some item, some title)

/-- Whether a save takes the login away. -/
def SaveAnswer.ends (answer : SaveAnswer) : Bool := answer ≠ .failed

/-- The offer of a login that was typed. -/
def Check.offer (urls : Urls) (check : Check) (title : Option String) : SaveOffer :=
  ⟨String.ofList (stripWww (urls.hostname check.page.url).toList), check.username, title⟩

/-- A login is written over the one that waits. -/
def Tab.write (urls : Urls) (t : Tab) (check : Check) (item title : Option String) : Tab :=
  let offer := check.offer urls title
  { t with
    entry := some ⟨check.page, check.username, check.password, item, offer, t.now, t.written⟩
    written := t.written + 1
    offers := t.offers ++ [⟨none, offer, t.written⟩] }

/-- A click on Save. -/
def Tab.clickSave (t : Tab) : Tab :=
  { t with
    banner := { t.banner with view := some .waiting }
    saves := t.saves ++ [⟨t.document, t.banner.shown, .onItsWay⟩] }

/-- What an event does. -/
def step (urls : Urls) (t : Tab) : Event → Option Tab
  | .tick ms => some { t with now := t.now + ms }
  | .typedUsername sender username =>
    match pageOf sender with
    | none => some t
    | some page =>
      if username = "" ∨ 512 < Text.utf16Length username then some t
      else some { t with earlier := some ⟨username, urls.origin page.url, t.now⟩ }
  | .typed sender username password =>
    match pageOf sender with
    | none => some t
    | some page =>
      if password = "" then some t
      else
        let username := t.usernameFor (urls.origin page.url) username
        some { t with checks := t.checks ++ [⟨page, username, password⟩] }
  | .checked i answer => do
    let check ← t.checks[i]?
    let t := { t with checks := t.checks.eraseIdx i }
    match answer.offered with
    | none => some t
    | some (item, title) => some (t.write urls check item title)
  | .load =>
    some { t with
      document := t.document + 1
      banner := ⟨none, none⟩
      asks := t.asks ++ [t.document + 1] }
  | .ask i => do
    let document ← t.asks[i]?
    some { t with
      asks := t.asks.eraseIdx i
      offers := t.offers ++ (t.pending.map fun p => ⟨some document, p.loginOffer⟩).toList }
  | .deliver i => do
    let sending ← t.offers[i]?
    if sending.Reaches t.document then
      some { t with offers := t.offers.eraseIdx i, banner := t.banner.show sending.offer }
    else none
  | .lose i => some { t with offers := t.offers.eraseIdx i }
  | .remove => some { t with banner := { t.banner with view := none } }
  | .press button =>
    match button, t.banner.view with
    | .save, some .offer => some t.clickSave
    | .retry, some (.failed false) => some t.clickSave
    | .later, some .offer =>
      some { t with
        banner := ⟨none, none⟩
        dismissals := t.dismissals + 1
        history := .dismissed t.banner.shown :: t.history }
    | .close, some (.failed _) => some { t with banner := ⟨none, none⟩ }
    | _, _ => none
  | .read i => do
    let save ← t.saves[i]?
    match save.stage, t.pending with
    | .onItsWay, none =>
      some { t with saves := t.saves.set i { save with stage := .answered .failed } }
    | .onItsWay, some p =>
      some { t with
        saves := t.saves.set i { save with stage := .asked p }
        history := .sent save.clicked p t.now :: t.history }
    | _, _ => none
  | .answer i answer => do
    let save ← t.saves[i]?
    match save.stage with
    | .asked p =>
      let t := { t with saves := t.saves.set i { save with stage := .answered answer } }
      if answer.ends then
        some { t with
          entry := none
          history := t.entry.toList.map (.dropped p) ++ t.history }
      else some t
    | _ => none
  | .report i => do
    let save ← t.saves[i]?
    match save.stage with
    | .answered answer =>
      let t := { t with saves := t.saves.eraseIdx i }
      if save.document = t.document then
        some { t with
          banner := t.banner.report answer
          closings := t.closings ++ if answer = .ok then [t.document] else [] }
      else some t
    | _ => none
  | .dismiss =>
    if t.dismissals = 0 then none
    else some { t with dismissals := t.dismissals - 1, entry := none }
  | .close i => do
    let document ← t.closings[i]?
    let t := { t with closings := t.closings.eraseIdx i }
    some (if document = t.document then { t with banner := ⟨none, none⟩ } else t)

/-- What was sent is the login whose offer was shown at the click, had not expired and was not
dismissed before, and what a save took away is what it had saved. The history is read from its
end. -/
def Faithful : List Record → Prop
  | [] => True
  | .sent clicked login now :: before =>
    (clicked = some login.loginOffer ∧ now < login.since + pendingMs ∧
      .dismissed (some login.loginOffer) ∉ before) ∧ Faithful before
  | .dismissed _ :: before => Faithful before
  | .dropped saved login :: before => login = saved ∧ Faithful before

/-- A login is written while nothing of an earlier save is left, no offer is on its way and the
banner is not there with an offer of the same host and user name. No offer that can reach the page
is lost while the banner is there. A click on Save is made while no other save is unfinished and
neither the offer of another login nor a dismissal is on its way, a dismissal while no click on
Save is. -/
def Orderly (urls : Urls) (t : Tab) : Event → Prop
  | .checked i answer => ∀ check ∈ t.checks[i]?, ∀ offered ∈ answer.offered,
      t.saves = [] ∧ t.closings = [] ∧ t.offers = [] ∧
        ¬ t.banner.Repeats (check.offer urls offered.2)
  | .lose i => ∀ sending ∈ t.offers[i]?, sending.Reaches t.document → t.banner.view = none
  | .press .save | .press .retry =>
    t.saves = [] ∧ (∀ sending ∈ t.offers, t.banner.shown = some sending.offer) ∧ t.dismissals = 0
  | .press .later => ∀ s ∈ t.saves, s.stage ≠ .onItsWay
  | _ => True

instance (urls : Urls) (t : Tab) : (e : Event) → Decidable (Orderly urls t e)
  | .checked i answer => inferInstanceAs (Decidable (∀ check ∈ t.checks[i]?,
      ∀ offered ∈ answer.offered, t.saves = [] ∧ t.closings = [] ∧ t.offers = [] ∧
        ¬ t.banner.Repeats (check.offer urls offered.2)))
  | .lose i => inferInstanceAs (Decidable
      (∀ sending ∈ t.offers[i]?, sending.Reaches t.document → t.banner.view = none))
  | .press .save | .press .retry => inferInstanceAs (Decidable (_ ∧ _ ∧ _))
  | .press .later => inferInstanceAs (Decidable (∀ s ∈ t.saves, s.stage ≠ .onItsWay))
  | .tick _ | .typedUsername .. | .typed .. | .load | .ask _ | .deliver _ | .remove
  | .press .close | .read _ | .answer .. | .report _ | .dismiss | .close _ =>
    inferInstanceAs (Decidable True)

/-- A step that is orderly. -/
def orderlyStep (urls : Urls) (t : Tab) (e : Event) : Option Tab :=
  if Orderly urls t e then step urls t e else none

section Invariant

/-- What holds while every step is orderly. -/
structure Inv (t : Tab) : Prop where
  history : Faithful t.history
  /-- A click that is on its way finds the login that was shown, or none. -/
  clicked : ∀ s ∈ t.saves, s.stage = .onItsWay → ∀ p ∈ t.pending,
    s.clicked = some p.loginOffer ∧ .dismissed (some p.loginOffer) ∉ t.history
  /-- No other login waits while the app is asked. -/
  asked : ∀ s ∈ t.saves, ∀ p, s.stage = .asked p → ∀ q ∈ t.entry, q = p
  saved : ∀ s ∈ t.saves, s.stage = .answered .ok → t.entry = none
  closing : t.closings ≠ [] → t.entry = none
  /-- A login that was dismissed and still waits is about to be dropped. -/
  dismissed : ∀ p ∈ t.entry, .dismissed (some p.loginOffer) ∈ t.history → 0 < t.dismissals
  /-- The offers on their way are for the login that waits. -/
  offers : ∀ sending ∈ t.offers, ∀ p ∈ t.entry, sending.offer = p.loginOffer
  /-- The banner shows the login that waits, or will, unless it is about to be dropped. -/
  shown : t.banner.view.isSome = true → ∀ p ∈ t.entry, t.banner.shown = some p.loginOffer ∨
    ((∃ sending ∈ t.offers, sending.Reaches t.document) ∧ ¬ t.banner.Repeats p.offer) ∨
    0 < t.dismissals
  /-- The banner comes back after a save with the login that waits. -/
  comes_back : ∀ s ∈ t.saves, s.document = t.document → ∀ p ∈ t.entry,
    t.banner.shown = some p.loginOffer ∨ 0 < t.dismissals
  unfinished : ∀ s ∈ t.saves, s.document = t.document → ∀ denied,
    t.banner.view ≠ some (.failed denied)
  document : ∀ s ∈ t.saves, s.document ≤ t.document
  alone : t.saves.length ≤ 1
  entry_serial : ∀ p ∈ t.entry, p.serial < t.written
  offers_serial : ∀ sending ∈ t.offers, sending.offer.serial < t.written
  shown_serial : ∀ offer ∈ t.banner.shown, offer.serial < t.written
  dismissed_serial : ∀ offer, .dismissed (some offer) ∈ t.history → offer.serial < t.written

variable {urls : Urls} {t t' : Tab}

theorem mem_pending {p : Pending} : p ∈ t.pending ↔ p ∈ t.entry ∧ t.now < p.since + pendingMs := by
  rw [Tab.pending, Option.mem_filter_iff, decide_eq_true_iff]

theorem Inv.fresh : Inv Tab.fresh where
  history := trivial
  clicked _ hs := absurd hs List.not_mem_nil
  asked _ hs := absurd hs List.not_mem_nil
  saved _ hs := absurd hs List.not_mem_nil
  closing h := absurd rfl h
  dismissed p hp := absurd hp (Option.not_mem_none p)
  offers _ hs := absurd hs List.not_mem_nil
  shown h := nomatch h
  comes_back _ hs := absurd hs List.not_mem_nil
  unfinished _ hs := absurd hs List.not_mem_nil
  document _ hs := absurd hs List.not_mem_nil
  alone := Nat.zero_le 1
  entry_serial p hp := absurd hp (Option.not_mem_none p)
  offers_serial _ hs := absurd hs List.not_mem_nil
  shown_serial o ho := absurd ho (Option.not_mem_none o)
  dismissed_serial _ hp := absurd hp List.not_mem_nil

/-- Time passes. -/
theorem Inv.tick (h : Inv t) (ms : ℕ) : Inv { t with now := t.now + ms } :=
  { h with
    clicked := fun s hs hstage p hp => by
      refine h.clicked s hs hstage p ?_
      obtain ⟨hp, hnow⟩ := mem_pending.mp hp
      exact mem_pending.mpr ⟨hp, (Nat.le_add_right t.now ms).trans_lt hnow⟩ }

/-- A login is written while nothing is left of an earlier one but a banner that will give way. -/
theorem Inv.write (h : Inv t) {check : Check} {item title : Option String} (hsaves : t.saves = [])
    (hclosings : t.closings = []) (hoffers : t.offers = [])
    (hbanner : ¬ t.banner.Repeats (check.offer urls title)) :
    Inv (t.write urls check item title) where
  history := h.history
  clicked s hs := absurd (hsaves ▸ hs : s ∈ []) List.not_mem_nil
  asked s hs := absurd (hsaves ▸ hs : s ∈ []) List.not_mem_nil
  saved s hs := absurd (hsaves ▸ hs : s ∈ []) List.not_mem_nil
  closing hne := absurd hclosings hne
  dismissed p hp hdismissed := by
    obtain rfl := Option.some_inj.mp hp
    exact absurd (h.dismissed_serial _ hdismissed) (Nat.lt_irrefl _)
  offers sending hs p hp := by
    obtain rfl := Option.some_inj.mp hp
    rcases List.mem_append.mp hs with hs | hs
    · exact absurd (hoffers ▸ hs : sending ∈ []) List.not_mem_nil
    · obtain rfl := List.mem_singleton.mp hs
      rfl
  shown _ p hp := by
    obtain rfl := Option.some_inj.mp hp
    refine .inr (.inl ⟨⟨_, List.mem_append_right _ (List.mem_singleton_self _), ?_⟩, hbanner⟩)
    exact fun asked hasked => absurd hasked (Option.not_mem_none asked)
  comes_back s hs := absurd (hsaves ▸ hs : s ∈ []) List.not_mem_nil
  unfinished s hs := absurd (hsaves ▸ hs : s ∈ []) List.not_mem_nil
  document s hs := absurd (hsaves ▸ hs : s ∈ []) List.not_mem_nil
  alone := h.alone
  entry_serial p hp := by
    obtain rfl := Option.some_inj.mp hp
    exact Nat.lt_succ_self _
  offers_serial sending hs := by
    rcases List.mem_append.mp hs with hs | hs
    · exact Nat.lt_succ_of_lt (h.offers_serial sending hs)
    · obtain rfl := List.mem_singleton.mp hs
      exact Nat.lt_succ_self _
  shown_serial o ho := Nat.lt_succ_of_lt (h.shown_serial o ho)
  dismissed_serial o ho := Nat.lt_succ_of_lt (h.dismissed_serial o ho)

/-- There is no banner any more. -/
theorem Inv.closed (h : Inv t) (hsaves : ∀ s ∈ t.saves, s.document = t.document → t.entry = none) :
    Inv { t with banner := ⟨none, none⟩ } :=
  { h with
    shown := fun hview => nomatch hview
    comes_back := fun s hs hdocument p hp => by
      rw [hsaves s hs hdocument] at hp
      cases hp
    unfinished := fun _ _ _ _ hview => nomatch hview
    shown_serial := fun o ho => absurd ho (Option.not_mem_none o) }

/-- The page is loaded again. -/
theorem Inv.load (h : Inv t) : Inv { t with
    document := t.document + 1
    banner := ⟨none, none⟩
    asks := t.asks ++ [t.document + 1] } :=
  { h with
    shown := fun hview => nomatch hview
    comes_back := fun s hs hdocument =>
      absurd (h.document s hs) (Nat.not_le_of_lt (hdocument ▸ Nat.lt_succ_self _))
    unfinished := fun _ _ _ _ hview => nomatch hview
    document := fun s hs => (h.document s hs).trans (Nat.le_succ _)
    shown_serial := fun o ho => absurd ho (Option.not_mem_none o) }

/-- The background answers what login waits. -/
theorem Inv.ask (h : Inv t) (asks : List ℕ) (document : ℕ) : Inv { t with
    asks := asks
    offers := t.offers ++ (t.pending.map fun p => ⟨some document, p.loginOffer⟩).toList } where
  __ := h
  offers sending hs p hp := by
    rcases List.mem_append.mp hs with hs | hs
    · exact h.offers sending hs p hp
    · obtain ⟨q, hq, rfl⟩ := Option.map_eq_some_iff.mp (Option.mem_toList.mp hs)
      obtain rfl := Option.mem_unique hp (mem_pending.mp hq).1
      rfl
  shown hview p hp := by
    rcases h.shown hview p hp with hshown | ⟨⟨sending, hs, hreaches⟩, hbanner⟩ | hpos
    · exact .inl hshown
    · exact .inr (.inl ⟨⟨sending, List.mem_append_left _ hs, hreaches⟩, hbanner⟩)
    · exact .inr (.inr hpos)
  offers_serial sending hs := by
    rcases List.mem_append.mp hs with hs | hs
    · exact h.offers_serial sending hs
    · obtain ⟨q, hq, rfl⟩ := Option.map_eq_some_iff.mp (Option.mem_toList.mp hs)
      exact h.entry_serial q (mem_pending.mp hq).1

/-- An offer reaches the banner. -/
theorem Inv.deliver {i : ℕ} {sending : Sending} (h : Inv t) (hi : t.offers[i]? = some sending) :
    Inv { t with offers := t.offers.eraseIdx i, banner := t.banner.show sending.offer } := by
  have hsending := List.mem_of_getElem? hi
  by_cases hrepeats : t.banner.Repeats sending.offer.offer
  · rw [Banner.show, if_pos hrepeats]
    exact { h with
      offers := fun s hs => h.offers s (List.mem_of_mem_eraseIdx hs)
      offers_serial := fun s hs => h.offers_serial s (List.mem_of_mem_eraseIdx hs)
      shown := fun hview p hp => by
        rcases h.shown hview p hp with hshown | ⟨-, hbanner⟩ | hpos
        · exact .inl hshown
        · rw [h.offers sending hsending p hp] at hrepeats
          exact absurd hrepeats hbanner
        · exact .inr (.inr hpos) }
  · rw [Banner.show, if_neg hrepeats]
    exact { h with
      offers := fun s hs => h.offers s (List.mem_of_mem_eraseIdx hs)
      offers_serial := fun s hs => h.offers_serial s (List.mem_of_mem_eraseIdx hs)
      shown := fun _ p hp => .inl (congrArg some (h.offers sending hsending p hp))
      comes_back := fun _ _ _ p hp => .inl (congrArg some (h.offers sending hsending p hp))
      unfinished := fun _ _ _ _ hview => nomatch hview
      shown_serial := fun o ho => by
        obtain rfl := Option.some_inj.mp ho
        exact h.offers_serial sending hsending }

/-- An offer is lost: it was for another document, or there is no banner. -/
theorem Inv.lose {i : ℕ} (h : Inv t) (hlost : ∀ sending ∈ t.offers[i]?,
    sending.Reaches t.document → t.banner.view = none) :
    Inv { t with offers := t.offers.eraseIdx i } :=
  { h with
    offers := fun s hs => h.offers s (List.mem_of_mem_eraseIdx hs)
    offers_serial := fun s hs => h.offers_serial s (List.mem_of_mem_eraseIdx hs)
    shown := fun hview p hp => by
      rcases h.shown hview p hp with hshown | ⟨⟨sending, hs, hreaches⟩, hbanner⟩ | hpos
      · exact .inl hshown
      · refine .inr (.inl ⟨⟨sending, ?_, hreaches⟩, hbanner⟩)
        obtain ⟨j, hj⟩ := List.mem_iff_getElem?.mp hs
        refine List.mem_eraseIdx_iff_getElem?.mpr ⟨j, ?_, hj⟩
        rintro rfl
        rw [hlost sending hj hreaches] at hview
        cases hview
      · exact .inr (.inr hpos) }

/-- The page takes the banner away. -/
theorem Inv.remove (h : Inv t) : Inv { t with banner := { t.banner with view := none } } :=
  { h with
    shown := fun hview => nomatch hview
    unfinished := fun _ _ _ _ hview => nomatch hview }

/-- A click on Save is for the login that waits. -/
theorem Inv.clickSave (h : Inv t) (hview : t.banner.view.isSome = true) (hsaves : t.saves = [])
    (hoffers : ∀ sending ∈ t.offers, t.banner.shown = some sending.offer)
    (hdismissals : t.dismissals = 0) : Inv t.clickSave := by
  have hnew (s : Save) (hs : s ∈ t.clickSave.saves) :
      s = ⟨t.document, t.banner.shown, .onItsWay⟩ := by
    rw [Tab.clickSave, hsaves] at hs
    exact List.mem_singleton.mp hs
  have hshown (p : Pending) (hp : p ∈ t.entry) : t.banner.shown = some p.loginOffer := by
    rcases h.shown hview p hp with hshown | ⟨⟨sending, hs, -⟩, -⟩ | hpos
    · exact hshown
    · rw [hoffers sending hs, h.offers sending hs p hp]
    · omega
  exact { h with
    clicked := fun s hs _ p hp => by
      obtain rfl := hnew s hs
      refine ⟨hshown p (mem_pending.mp hp).1, fun hdismissed => ?_⟩
      have hpos := h.dismissed p (mem_pending.mp hp).1 hdismissed
      omega
    asked := fun s hs p hstage => by
      obtain rfl := hnew s hs
      cases hstage
    saved := fun s hs hstage => by
      obtain rfl := hnew s hs
      cases hstage
    shown := fun _ p hp => .inl (hshown p hp)
    comes_back := fun _ _ _ p hp => .inl (hshown p hp)
    unfinished := fun _ _ _ _ hview => nomatch hview
    document := fun s hs => by
      obtain rfl := hnew s hs
      exact le_rfl
    alone := by
      rw [Tab.clickSave, hsaves]
      exact le_rfl }

/-- A dismissal while no click on Save is on its way. -/
theorem Inv.later (h : Inv t) (hsaves : ∀ s ∈ t.saves, s.stage ≠ .onItsWay) :
    Inv { t with
      banner := ⟨none, none⟩
      dismissals := t.dismissals + 1
      history := .dismissed t.banner.shown :: t.history } :=
  { h with
    history := h.history
    clicked := fun s hs hstage => absurd hstage (hsaves s hs)
    dismissed := fun _ _ _ => Nat.succ_pos _
    shown := fun hview => nomatch hview
    comes_back := fun _ _ _ _ _ => .inr (Nat.succ_pos _)
    unfinished := fun _ _ _ _ hview => nomatch hview
    shown_serial := fun o ho => absurd ho (Option.not_mem_none o)
    dismissed_serial := fun o ho => by
      rcases List.mem_cons.mp ho with heq | ho
      · exact h.shown_serial o (Record.dismissed.inj heq).symm
      · exact h.dismissed_serial o ho }

/-- A click whose login was there is sent to the app. -/
theorem Inv.read {i : ℕ} {save : Save} {p : Pending} (h : Inv t) (hsave : t.saves[i]? = some save)
    (hstage : save.stage = .onItsWay) (hp : p ∈ t.pending) :
    Inv { t with
      saves := t.saves.set i { save with stage := .asked p }
      history := .sent save.clicked p t.now :: t.history } := by
  have hmem := List.mem_of_getElem? hsave
  have hold {s : Save} (hs : s ∈ t.saves.set i { save with stage := .asked p }) :
      s ∈ t.saves ∨ s = { save with stage := .asked p } := List.mem_or_eq_of_mem_set hs
  exact { h with
    history := by
      obtain ⟨hclicked, hdismissed⟩ := h.clicked save hmem hstage p hp
      exact ⟨⟨hclicked, (mem_pending.mp hp).2, hdismissed⟩, h.history⟩
    clicked := fun s hs hs' q hq => by
      rcases hold hs with hs | rfl
      · obtain ⟨hclicked, hdismissed⟩ := h.clicked s hs hs' q hq
        exact ⟨hclicked, List.not_mem_cons_of_ne_of_not_mem (fun heq => nomatch heq) hdismissed⟩
      · cases hs'
    asked := fun s hs q hs' r hr => by
      rcases hold hs with hs | rfl
      · exact h.asked s hs q hs' r hr
      · obtain rfl := Stage.asked.inj hs'
        exact Option.some_inj.mp (hr.symm.trans (mem_pending.mp hp).1)
    saved := fun s hs hs' => by
      rcases hold hs with hs | rfl
      · exact h.saved s hs hs'
      · cases hs'
    dismissed := fun q hq hdismissed => h.dismissed q hq (by simpa using hdismissed)
    comes_back := fun s hs => by
      rcases hold hs with hs | rfl
      · exact h.comes_back s hs
      · exact h.comes_back save hmem
    unfinished := fun s hs => by
      rcases hold hs with hs | rfl
      · exact h.unfinished s hs
      · exact h.unfinished save hmem
    document := fun s hs => by
      rcases hold hs with hs | rfl
      · exact h.document s hs
      · exact h.document save hmem
    alone := by
      rw [List.length_set]
      exact h.alone
    dismissed_serial := fun o ho => h.dismissed_serial o (by simpa using ho) }

/-- The login that waits is taken away. -/
theorem Inv.drop (h : Inv t) (dismissals : ℕ) :
    Inv { t with entry := none, dismissals := dismissals } :=
  { h with
    clicked := fun _ _ _ p hp => absurd (mem_pending.mp hp).1 (Option.not_mem_none p)
    asked := fun _ _ _ _ q hq => absurd hq (Option.not_mem_none q)
    saved := fun _ _ _ => rfl
    closing := fun _ => rfl
    dismissed := fun p hp => absurd hp (Option.not_mem_none p)
    offers := fun _ _ p hp => absurd hp (Option.not_mem_none p)
    shown := fun _ p hp => absurd hp (Option.not_mem_none p)
    comes_back := fun _ _ _ p hp => absurd hp (Option.not_mem_none p)
    entry_serial := fun p hp => absurd hp (Option.not_mem_none p) }

/-- A save that ends takes away what it saved, or nothing. -/
theorem Inv.dropped {saved : Pending} (h : Inv t) (hsaved : ∀ p ∈ t.entry, p = saved) :
    Inv { t with entry := none, history := t.entry.toList.map (.dropped saved) ++ t.history } := by
  have hdrop := h.drop t.dismissals
  cases hentry : t.entry with
  | none => exact hdrop
  | some p =>
    exact { hdrop with
      history := ⟨hsaved p hentry, h.history⟩
      clicked := fun _ _ _ q hq => absurd (mem_pending.mp hq).1 (Option.not_mem_none q)
      dismissed := fun q hq => absurd hq (Option.not_mem_none q)
      dismissed_serial := fun o ho => h.dismissed_serial o (by simpa using ho) }

/-- The app has answered a save, and where the login was saved it is gone. -/
theorem Inv.answered {i : ℕ} {save : Save} (h : Inv t) (hsave : t.saves[i]? = some save)
    {answer : SaveAnswer} (hok : answer = .ok → t.entry = none) :
    Inv { t with saves := t.saves.set i { save with stage := .answered answer } } := by
  have hmem := List.mem_of_getElem? hsave
  have hold {s : Save} (hs : s ∈ t.saves.set i { save with stage := .answered answer }) :
      s ∈ t.saves ∨ s = { save with stage := .answered answer } := List.mem_or_eq_of_mem_set hs
  exact { h with
    clicked := fun s hs hstage => by
      rcases hold hs with hs | rfl
      · exact h.clicked s hs hstage
      · cases hstage
    asked := fun s hs q hstage => by
      rcases hold hs with hs | rfl
      · exact h.asked s hs q hstage
      · cases hstage
    saved := fun s hs hstage => by
      rcases hold hs with hs | rfl
      · exact h.saved s hs hstage
      · exact hok (Stage.answered.inj hstage)
    comes_back := fun s hs => by
      rcases hold hs with hs | rfl
      · exact h.comes_back s hs
      · exact h.comes_back save hmem
    unfinished := fun s hs => by
      rcases hold hs with hs | rfl
      · exact h.unfinished s hs
      · exact h.unfinished save hmem
    document := fun s hs => by
      rcases hold hs with hs | rfl
      · exact h.document s hs
      · exact h.document save hmem
    alone := by
      rw [List.length_set]
      exact h.alone }

/-- A save that has been reported is over. -/
theorem Inv.reported {i : ℕ} {save : Save} (h : Inv t) (hsave : t.saves[i]? = some save) :
    Inv { t with saves := t.saves.eraseIdx i } ∧ t.saves.eraseIdx i = [] := by
  have hnone : t.saves.eraseIdx i = [] := by
    have hi := (List.getElem?_eq_some_iff.mp hsave).1
    have halone := h.alone
    rw [← List.length_eq_zero_iff, List.length_eraseIdx_of_lt hi]
    omega
  have hold {s : Save} (hs : s ∈ t.saves.eraseIdx i) : s ∈ t.saves := List.mem_of_mem_eraseIdx hs
  refine ⟨{ h with
    clicked := fun s hs => h.clicked s (hold hs)
    asked := fun s hs => h.asked s (hold hs)
    saved := fun s hs => h.saved s (hold hs)
    comes_back := fun s hs => h.comes_back s (hold hs)
    unfinished := fun s hs => h.unfinished s (hold hs)
    document := fun s hs => h.document s (hold hs)
    alone := by
      rw [hnone]
      exact Nat.zero_le 1 }, hnone⟩

/-- The banner comes back with what became of the save. -/
theorem Inv.report {i : ℕ} {save : Save} {answer : SaveAnswer} (h : Inv t)
    (hsave : t.saves[i]? = some save) (hstage : save.stage = .answered answer)
    (hdocument : save.document = t.document) :
    Inv { t with
      saves := t.saves.eraseIdx i
      banner := t.banner.report answer
      closings := t.closings ++ if answer = .ok then [t.document] else [] } := by
  obtain ⟨hover, hnone⟩ := h.reported hsave
  have hmem := List.mem_of_getElem? hsave
  have hshown : (t.banner.report answer).shown = t.banner.shown := by cases answer <;> rfl
  exact { hover with
    closing := fun hne => by
      by_cases hok : answer = .ok
      · exact h.saved save hmem (hok ▸ hstage)
      · rw [if_neg hok, List.append_nil] at hne
        exact h.closing hne
    shown := fun _ p hp => by
      rcases h.comes_back save hmem hdocument p hp with hback | hpos
      · exact .inl (hshown.trans hback)
      · exact .inr (.inr hpos)
    comes_back := fun s hs => absurd (hnone ▸ hs : s ∈ []) List.not_mem_nil
    unfinished := fun s hs => absurd (hnone ▸ hs : s ∈ []) List.not_mem_nil
    shown_serial := fun o ho => h.shown_serial o (hshown ▸ ho) }

/-- Every step that is orderly keeps the invariant. -/
theorem Inv.step {e : Event} (h : Inv t) (horderly : Orderly urls t e)
    (hstep : step urls t e = some t') : Inv t' := by
  cases e with
  | tick ms =>
    obtain rfl := Option.some_inj.mp hstep
    exact h.tick ms
  | typedUsername sender username =>
    simp only [Browser.step] at hstep
    split at hstep
    · obtain rfl := Option.some_inj.mp hstep
      exact h
    · split at hstep <;> obtain rfl := Option.some_inj.mp hstep
      · exact h
      · exact { h with }
  | typed sender username password =>
    simp only [Browser.step] at hstep
    split at hstep
    · obtain rfl := Option.some_inj.mp hstep
      exact h
    · split at hstep <;> obtain rfl := Option.some_inj.mp hstep
      · exact h
      · exact { h with }
  | checked i answer =>
    simp only [Browser.step, Option.bind_eq_bind, Option.bind_eq_some_iff] at hstep
    obtain ⟨check, hcheck, hstep⟩ := hstep
    have hsame : Inv { t with checks := t.checks.eraseIdx i } := { h with }
    cases hoffered : answer.offered with
    | none =>
      rw [hoffered] at hstep
      obtain rfl := Option.some_inj.mp hstep
      exact hsame
    | some offered =>
      rw [hoffered] at hstep
      obtain rfl := Option.some_inj.mp hstep
      obtain ⟨hsaves, hclosings, hoffers, hbanner⟩ := horderly check hcheck offered hoffered
      exact hsame.write hsaves hclosings hoffers hbanner
  | load =>
    obtain rfl := Option.some_inj.mp hstep
    exact h.load
  | ask i =>
    simp only [Browser.step, Option.bind_eq_bind, Option.bind_eq_some_iff] at hstep
    obtain ⟨document, -, hstep⟩ := hstep
    obtain rfl := Option.some_inj.mp hstep
    exact h.ask _ document
  | deliver i =>
    simp only [Browser.step, Option.bind_eq_bind, Option.bind_eq_some_iff] at hstep
    obtain ⟨sending, hi, hstep⟩ := hstep
    split at hstep
    · obtain rfl := Option.some_inj.mp hstep
      exact h.deliver hi
    · cases hstep
  | lose i =>
    obtain rfl := Option.some_inj.mp hstep
    exact h.lose horderly
  | remove =>
    obtain rfl := Option.some_inj.mp hstep
    exact h.remove
  | press button =>
    simp only [Browser.step] at hstep
    split at hstep
    · rename_i hview
      obtain rfl := Option.some_inj.mp hstep
      exact h.clickSave (by rw [hview]; rfl) horderly.1 horderly.2.1 horderly.2.2
    · rename_i hview
      obtain rfl := Option.some_inj.mp hstep
      exact h.clickSave (by rw [hview]; rfl) horderly.1 horderly.2.1 horderly.2.2
    · obtain rfl := Option.some_inj.mp hstep
      exact h.later horderly
    · rename_i denied hview
      obtain rfl := Option.some_inj.mp hstep
      exact h.closed fun s hs hdocument => absurd hview (h.unfinished s hs hdocument denied)
    · cases hstep
  | read i =>
    simp only [Browser.step, Option.bind_eq_bind, Option.bind_eq_some_iff] at hstep
    obtain ⟨save, hsave, hstep⟩ := hstep
    split at hstep
    · obtain rfl := Option.some_inj.mp hstep
      exact h.answered hsave fun hok => nomatch hok
    · rename_i hstage hpending
      obtain rfl := Option.some_inj.mp hstep
      exact h.read hsave hstage hpending
    · cases hstep
  | answer i answer =>
    simp only [Browser.step, Option.bind_eq_bind, Option.bind_eq_some_iff] at hstep
    obtain ⟨save, hsave, hstep⟩ := hstep
    split at hstep
    · rename_i p hstage
      split at hstep <;> obtain rfl := Option.some_inj.mp hstep
      · have hdropped := h.dropped (h.asked save (List.mem_of_getElem? hsave) p hstage)
        exact hdropped.answered hsave fun _ => rfl
      · rename_i hends
        refine h.answered hsave fun hok => ?_
        rw [hok] at hends
        exact absurd rfl hends
    · cases hstep
  | report i =>
    simp only [Browser.step, Option.bind_eq_bind, Option.bind_eq_some_iff] at hstep
    obtain ⟨save, hsave, hstep⟩ := hstep
    split at hstep
    · rename_i answer hstage
      split at hstep <;> obtain rfl := Option.some_inj.mp hstep
      · rename_i hdocument
        exact h.report hsave hstage hdocument
      · exact (h.reported hsave).1
    · cases hstep
  | dismiss =>
    simp only [Browser.step] at hstep
    split at hstep
    · cases hstep
    · obtain rfl := Option.some_inj.mp hstep
      exact h.drop _
  | close i =>
    simp only [Browser.step, Option.bind_eq_bind, Option.bind_eq_some_iff] at hstep
    obtain ⟨document, hi, hstep⟩ := hstep
    obtain rfl := Option.some_inj.mp hstep
    -- what a finished save was for is gone, so its timer closes the banner of no other login
    have hnone : t.entry = none :=
      h.closing (List.ne_nil_of_mem (List.mem_of_getElem? hi))
    have hsame : Inv { t with closings := t.closings.eraseIdx i } :=
      { h with closing := fun _ => hnone }
    split
    · exact hsame.closed fun _ _ _ => hnone
    · exact hsame

theorem Inv.run {events : List Event} (h : Inv t)
    (hrun : events.foldlM (orderlyStep urls) t = some t') : Inv t' := by
  induction events generalizing t with
  | nil => exact Option.some_inj.mp hrun ▸ h
  | cons e events ih =>
    rw [List.foldlM_cons, Option.bind_eq_bind, Option.bind_eq_some_iff] at hrun
    obtain ⟨next, hnext, hrun⟩ := hrun
    unfold orderlyStep at hnext
    split at hnext
    · rename_i horderly
      exact ih (h.step horderly hnext) hrun
    · cases hnext

end Invariant

/-- **The login that is saved is the one that was shown.** In every run whose steps are orderly,
each login that was sent to be saved is the one whose offer the banner showed at the click, and had
neither expired nor been dismissed, and no save took away a login other than its own. -/
theorem saves_shown (urls : Urls) (events : List Event) {t : Tab}
    (h : events.foldlM (orderlyStep urls) Tab.fresh = some t) : Faithful t.history :=
  (Inv.fresh.run h).history

def exampleUrls : Urls where
  hostname url := if url = "https://www.example.com/" then "www.example.com" else "ads.test"
  origin url := if url = "https://www.example.com/" then "https://www.example.com" else "https://ads.test"

def topFrame : Sender := ⟨some "https://www.example.com/", 0, some "https://www.example.com/"⟩

def otherFrame : Sender := ⟨some "https://ads.test/", 3, some "https://www.example.com/"⟩

/-- A login is typed and its offer shown. -/
def offered : List Event := [.typed topFrame "ada" "correct horse", .checked 0 .new, .deliver 0]

def otherTyped : List Event := [.typed otherFrame "eve" "hunter2", .checked 0 .new]

/-- A login is saved, and when its banner has closed another one is dismissed. -/
def savedRun : List Event :=
  offered ++ [.press .save, .read 0, .answer 0 .ok, .report 0, .close 0] ++ otherTyped ++
    [.deliver 0, .press .later, .dismiss]

/-- The other login is written before the click, and while the app is asked about the first. -/
def replacedRun : List Event := offered ++ otherTyped ++ [.press .save, .read 0]

def overtakenRun : List Event := offered ++ [.press .save, .read 0] ++ otherTyped ++ [.answer 0 .ok]

/-- The same user types another password, and the banner stays as it is. -/
def retypedRun : List Event :=
  offered ++ [.typed topFrame "ada" "battery staple", .checked 0 .new, .deliver 0, .press .save,
    .read 0]

theorem saves_shown_example : ∃ t, savedRun.foldlM (orderlyStep exampleUrls) Tab.fresh = some t ∧
    t.history.length = 3 ∧ Faithful t.history :=
  ⟨_, rfl, rfl, saves_shown exampleUrls savedRun rfl⟩

/-- A login typed in another frame is saved by a click on the banner of the first, and is dropped
when it waits while the first is saved; a password typed later is saved while the offer of an
earlier one is shown. -/
theorem other_saved :
    (∃ t, replacedRun.foldlM (step exampleUrls) Tab.fresh = some t ∧ ¬ Faithful t.history) ∧
    (∃ t, overtakenRun.foldlM (step exampleUrls) Tab.fresh = some t ∧ ¬ Faithful t.history) ∧
    ∃ t, retypedRun.foldlM (step exampleUrls) Tab.fresh = some t ∧ ¬ Faithful t.history := by
  refine ⟨⟨_, rfl, fun h => ?_⟩, ⟨_, rfl, fun h => ?_⟩, _, rfl, fun h => ?_⟩
  · exact absurd h.1.1 (by decide)
  · exact absurd h.1 (by decide)
  · exact absurd h.1.1 (by decide)

end Zvault.Browser
