import Mathlib.Data.Nat.Notation
import Mathlib.Logic.Function.Basic
import Zvault.Concurrent.Tasks

/-!
# The state of the phone app

`AppState` of `app_state.dart`: who is signed in, and which items and projects the
screens list. A method runs up to its next await, and then other methods may run
before it goes on. A session, a keyset and what they open are named by the account
they are of.
-/

namespace Zvault.Mobile

open Concurrent
open Function (update)

inductive Phase where
  | loading
  | welcome
  | locked
  | unlocked
  deriving DecidableEq, Repr

structure SavedAccount where
  email : String
  quickUnlock : Bool
  deriving DecidableEq, Repr

/-- An item on the screens, with the revision of its record. -/
structure VaultItem where
  id : String
  revision : ℕ
  deriving DecidableEq, Repr

/-- An item as the API sends it. -/
structure ItemRecord where
  id : String
  revision : ℕ
  deleted : Bool
  deriving DecidableEq, Repr

structure AppState where
  phase : Phase
  account : Option SavedAccount
  api : Option String
  /-- Held between pairing and the fingerprint prompt only. -/
  freshKeyset : Option String
  items : List VaultItem
  projects : List String
  syncing : Bool
  deriving DecidableEq, Repr

namespace AppState

/-- `start`: what is saved of an account, if there is one. -/
def start (account : Option SavedAccount) : AppState where
  phase := if account.isSome then .locked else .welcome
  account := account
  api := account.map (·.email)
  freshKeyset := none
  items := []
  projects := []
  syncing := false

variable (app : AppState)

def lock : AppState :=
  { app with
    items := []
    projects := []
    phase := if app.account.any (·.quickUnlock) then .locked else .welcome }

/-- `_forget`, once the store is cleared. -/
def forget : AppState := { app with account := none, api := none, freshKeyset := none }

/-- The end of `signOut`. -/
def signOut : AppState := { app.forget with items := [], projects := [], phase := .welcome }

/-- A pairing is finished: whoever was signed in is replaced. -/
def pair (email : String) : AppState :=
  { app with account := some ⟨email, false⟩, freshKeyset := some email }

/-- The end of `enableQuickUnlock`. -/
def saveKeyset : AppState :=
  { app with
    freshKeyset := none
    account := app.account.map fun account => { account with quickUnlock := true } }

def canSync : Bool := !app.syncing && app.phase == .unlocked

/-- The end of `sync`. -/
def sync (items : List VaultItem) (projects : List String) : AppState :=
  if app.phase ≠ .unlocked then { app with syncing := false }
  else { app with items, projects, syncing := false }

/-- The end of `setItemTotp`. -/
def setItem (updated : VaultItem) : AppState :=
  { app with items := app.items.map fun i => if i.id = updated.id then updated else i }

end AppState

/-- The records of a vault, by id, with one more. -/
def addRecord (byId : List ItemRecord) (record : ItemRecord) : List ItemRecord :=
  let others := byId.filter (·.id ≠ record.id)
  if record.deleted then others else record :: others

/-- The app, the core that holds a keyset, the keyset behind biometrics, the records of the API,
and every item as `setItemTotp` returned it. -/
structure World where
  app : AppState
  core : Option String
  keyset : Option String
  server : String → Option ItemRecord
  saved : List VaultItem

/-- `PUT` of an item that its account edits: a new revision, if the one it is based on is current. -/
def World.putItem (belongs : String → String → Bool) (w : World) (api : String) (item : VaultItem) :
    Option ItemRecord := do
  let record ← w.server item.id
  if belongs api item.id && record.revision == item.revision && !record.deleted then
    some { record with revision := record.revision + 1 }
  else none

/-- What a method does next. A sync knows what was saved before it began. -/
inductive Task where
  | pairingResult (email : String)
  | finishPairing (email : String)
  | paired (email : String)
  | enableQuickUnlock
  | skipQuickUnlock
  | saveKeyset (keyset : String)
  | unlockWithBiometrics
  | readKeyset
  | unlock (keyset : String)
  | lock
  | forget
  | signOut (ofSync : Bool)
  | clear (ofSync : Bool)
  | sync
  | vaults (api : String) (known : List VaultItem) (out : List VaultItem)
  | page (api : String) (known : List VaultItem) (byId : List ItemRecord) (out : List VaultItem)
  | summaries (api : String) (known : List VaultItem) (todo : List ItemRecord) (out : List VaultItem)
  | projects (api : String) (known : List VaultItem) (items : List VaultItem) (out : List String)
  | showLoaded (api : String) (known : List VaultItem) (items : List VaultItem) (projects : List String)
  | setItemTotp (item : VaultItem)
  | putItem (api : String) (item : VaultItem)
  | itemSummary (known : List VaultItem) (updated : VaultItem)
  | others
  deriving DecidableEq, Repr

/-- A sync that has not shown what it loads yet. -/
def Task.loads : Task → Bool
  | .vaults .. | .page .. | .summaries .. | .projects .. => true
  | _ => false

/-- A method that ends where a call fails. -/
def Task.canFail : Task → Bool
  | .lock | .forget | .signOut _ | .clear _ | .sync | .showLoaded .. => false
  | task => !task.loads

/-- A step of a method. `belongs` is which items and projects an account has. -/
inductive Acts (belongs : String → String → Bool) (w : World) : Task → World → Option Task → Prop
  | approved {email : String} : Acts belongs w (.pairingResult email) w (some (.finishPairing email))
  | finishPairing {email : String} :
      Acts belongs w (.finishPairing email)
        { w with core := some email, app := w.app.pair email } (some (.paired email))
  | paired {email : String} (h : w.app.account.isSome) :
      Acts belongs w (.paired email)
        { w with app := { w.app with api := some email, phase := .unlocked } } (some .sync)
  | enableQuickUnlock {keyset : String} (h : w.app.freshKeyset = some keyset) :
      Acts belongs w .enableQuickUnlock w (some (.saveKeyset keyset))
  | skipQuickUnlock :
      Acts belongs w .skipQuickUnlock { w with app := { w.app with freshKeyset := none } } none
  | saveKeyset {keyset : String} :
      Acts belongs w (.saveKeyset keyset) { w with keyset := some keyset, app := w.app.saveKeyset } none
  | unlockWithBiometrics (h : w.app.account.any (·.quickUnlock)) :
      Acts belongs w .unlockWithBiometrics w (some .readKeyset)
  | readKeyset {keyset : String} (h : w.keyset = some keyset) :
      Acts belongs w .readKeyset w (some (.unlock keyset))
  | unlock {keyset : String} :
      Acts belongs w (.unlock keyset)
        { w with core := some keyset, app := { w.app with phase := .unlocked } } (some .sync)
  | lock :
      Acts belongs w .lock { w with core := none, app := w.app.lock }
        (if w.app.lock.phase = .welcome then some .forget else none)
  | forget : Acts belongs w .forget { w with keyset := none, app := w.app.forget } none
  | signOut {ofSync : Bool} :
      Acts belongs w (.signOut ofSync) { w with core := none } (some (.clear ofSync))
  | clear {ofSync : Bool} :
      Acts belongs w (.clear ofSync)
        { w with
          keyset := none
          app := { w.app.signOut with syncing := !ofSync && w.app.syncing } } none
  | sync {api : String} (hapi : w.app.api = some api) (h : w.app.canSync) :
      Acts belongs w .sync { w with app := { w.app with syncing := true } }
        (some (.vaults api w.saved []))
  | vault {api : String} {known out : List VaultItem} :
      Acts belongs w (.vaults api known out) w (some (.page api known [] out))
  | noMoreVaults {api : String} {known out : List VaultItem} :
      Acts belongs w (.vaults api known out) w (some (.projects api known out []))
  /-- A page of the records that the account has, as they are now. -/
  | page {api : String} {known out : List VaultItem} {byId : List ItemRecord}
      (records : List ItemRecord) (hasMore : Bool)
      (h : ∀ record ∈ records, w.server record.id = some record ∧ belongs api record.id = true) :
      Acts belongs w (.page api known byId out) w
        (some (if hasMore then .page api known (records.foldl addRecord byId) out
          else .summaries api known (records.foldl addRecord byId) out))
  /-- The core opens what belongs to the account whose keyset it holds. -/
  | summary {api : String} {known out : List VaultItem} {record : ItemRecord} {todo : List ItemRecord}
      (h : w.core = some api) :
      Acts belongs w (.summaries api known (record :: todo) out) w
        (some (.summaries api known todo (⟨record.id, record.revision⟩ :: out)))
  | unreadable {api : String} {known out : List VaultItem} {record : ItemRecord}
      {todo : List ItemRecord} :
      Acts belongs w (.summaries api known (record :: todo) out) w
        (some (.summaries api known todo out))
  | noMoreItems {api : String} {known out : List VaultItem} :
      Acts belongs w (.summaries api known [] out) w (some (.vaults api known out))
  | project {api : String} {known items : List VaultItem} {out : List String} (id : String)
      (hbelongs : belongs api id = true) (h : w.core = some api) :
      Acts belongs w (.projects api known items out) w (some (.projects api known items (id :: out)))
  | noMoreProjects {api : String} {known items : List VaultItem} {out : List String} :
      Acts belongs w (.projects api known items out) w (some (.showLoaded api known items out))
  | showLoaded {api : String} {known items : List VaultItem} {projects : List String} :
      Acts belongs w (.showLoaded api known items projects)
        { w with app := w.app.sync items projects } none
  /-- A sync whose session the server has ended signs out. -/
  | signedOut {task : Task} (h : task.loads) : Acts belongs w task w (some (.signOut true))
  | syncFails {task : Task} (h : task.loads) :
      Acts belongs w task { w with app := { w.app with syncing := false } } none
  | setItemTotp {item : VaultItem} {api holder : String} (hcore : w.core = some holder)
      (hopens : belongs holder item.id = true) (hapi : w.app.api = some api) :
      Acts belongs w (.setItemTotp item) w (some (.putItem api item))
  | put {api : String} {item : VaultItem} {record : ItemRecord}
      (h : w.putItem belongs api item = some record) :
      Acts belongs w (.putItem api item) { w with server := update w.server item.id (some record) }
        (some (.itemSummary w.saved ⟨item.id, record.revision⟩))
  /-- The API took it, and the answer is lost. -/
  | unanswered {api : String} {item : VaultItem} {record : ItemRecord}
      (h : w.putItem belongs api item = some record) :
      Acts belongs w (.putItem api item) { w with server := update w.server item.id (some record) } none
  | conflict {api : String} {item : VaultItem} (h : w.putItem belongs api item = none) :
      Acts belongs w (.putItem api item) w (some .sync)
  | itemSummary {known : List VaultItem} {updated : VaultItem} :
      Acts belongs w (.itemSummary known updated)
        { w with app := w.app.setItem updated, saved := updated :: w.saved } none
  /-- Another device saves an item. -/
  | others {record : ItemRecord}
      (h : ∀ current ∈ w.server record.id, current.revision ≤ record.revision) :
      Acts belongs w .others { w with server := update w.server record.id (some record) } none
  | noSync (h : w.app.api = none ∨ w.app.canSync = false) : Acts belongs w .sync w none
  /-- A call fails. -/
  | fails {task : Task} (h : task.canFail) : Acts belongs w task w none

/-- What the user, a timer or another device starts. -/
def Task.canStart : Task → Bool
  | .pairingResult _ | .enableQuickUnlock | .skipQuickUnlock | .unlockWithBiometrics | .lock
  | .signOut false | .sync | .setItemTotp _ | .others => true
  | _ => false

def program (belongs : String → String → Bool) : Program World Task where
  start _ task := task.canStart
  act w task w' next := Acts belongs w task w' next

/-- The app after `start`, without a keyset in the core. -/
def World.initial (account : Option SavedAccount) (keyset : Option String)
    (server : String → Option ItemRecord) : World :=
  ⟨.start account, none, keyset, server, []⟩

end Zvault.Mobile
