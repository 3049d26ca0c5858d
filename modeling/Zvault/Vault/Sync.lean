import Mathlib.Logic.Function.Basic
import Zvault.Concurrent.Tasks
import Zvault.Feed.Page
import Zvault.Relational.Table
import Zvault.Vault.Items

/-!
# Edits through the agent server

One vault: its items in the API (`drizzle-vault.store.ts`, `vault.service.ts`), the
copy that the UI keeps for the agent server (`vault/sync.ts`), and the steps of
`item_put` and `browser_save`, of which each asks the UI, which pulls first
(`bridge.ts`). Sealed contents are modelled by the contents. Which item a title
stands for is left open.
-/

namespace Zvault.Vault

open Concurrent Relational
open Function (update)

/-- An item as the API stores and serves it, with its contents unless it is deleted. -/
structure ItemRow where
  id : String
  revision : ℕ
  seq : ℕ
  contents : Option ItemPlaintext
  deriving DecidableEq, Repr

/-- What a write is refused with: `vault_full`, `NotFoundException`, or `conflict` with the present
item. -/
inductive WriteError where
  | vaultFull
  | notFound
  | conflict (current : ItemRow)
  deriving DecidableEq, Repr

/-- The item that came with a `ConflictError`. -/
def WriteError.current : WriteError → Option ItemRow
  | .conflict current => some current
  | _ => none

/-- A vault in the API. -/
structure Api where
  items : Table ItemRow.id
  seq : ℕ

namespace Api

def maxItemsPerVault : ℕ := 10000

def maxSyncPage : ℕ := 500

/-- `putItem`, of the service and the store, with contents or to delete. -/
def putItem (api : Api) (itemId : String) (baseRevision : ℕ) (contents : Option ItemPlaintext) :
    Api × Except WriteError ItemRow :=
  if contents.isSome && baseRevision == 0 && maxItemsPerVault ≤ api.items.rows.length then
    (api, .error .vaultFull)
  else
    let current := api.items.find itemId
    if current.elim 0 (·.revision) ≠ baseRevision then
      (api, .error (current.elim .notFound .conflict))
    else
      let row : ItemRow := ⟨itemId, baseRevision + 1, api.seq + 1, contents⟩
      (⟨api.items.upsert row fun r => { r with
          revision := row.revision
          seq := row.seq
          contents := row.contents }, api.seq + 1⟩, .ok row)

structure Page where
  items : List ItemRow
  cursor : ℕ
  hasMore : Bool

/-- One extra is fetched to learn whether another page follows. -/
def sync (api : Api) (since : ℕ) : Page :=
  let changes := Feed.page ItemRow.seq api.items.rows since (maxSyncPage + 1)
  let items := changes.take maxSyncPage
  ⟨items, Feed.cursor ItemRow.seq items since, maxSyncPage < changes.length⟩

end Api

/-- A record of the local copy. -/
structure Record where
  revision : ℕ
  contents : ItemPlaintext
  deriving DecidableEq, Repr

/-- The upload of an edit: the record that was opened and patched, the item that the API had, what
was sealed, and what the API answered. -/
structure Upload where
  itemId : String
  patch : ItemPatch
  opened : Record
  present : Option ItemRow
  sealed : ItemPlaintext
  answer : Except WriteError ItemRow

/-- The API and the local copy. The last three fields record the past and are never read: how many
edits there were, which item and record was handed out to the ones that are under way, and what
they uploaded. -/
structure World where
  api : Api
  records : String → Option Record
  cursor : ℕ
  edits : ℕ
  handedOut : ℕ → Option (String × Record)
  uploads : List Upload

def World.initial (api : Api) : World := ⟨api, fun _ => none, 0, 0, fun _ => none, []⟩

/-- An edit that was sealed: its number and patch. -/
structure Edit where
  number : ℕ
  patch : ItemPatch
  deriving DecidableEq, Repr

/-- What the UI is asked for, and does after it has pulled. -/
inductive Goal where
  /-- With the patch that will be applied: the one of `zv item edit`, or a new password. -/
  | find (itemId : String) (patch : ItemPatch)
  /-- Of an edit, or a new item. -/
  | upload (edit : Option Edit) (itemId : String) (sealed : ItemPlaintext)
  | delete (itemId : String)
  /-- Names or keys are listed. -/
  | list
  deriving DecidableEq, Repr

/-- What follows when records have been applied: the next page or the goal, or nothing. -/
inductive After where
  | page (cursor : ℕ) (hasMore : Bool) (goal : Goal)
  | done
  deriving DecidableEq, Repr

inductive Task where
  | pull (goal : Goal)
  | fetching (since : ℕ) (goal : Goal)
  | apply (rows : List ItemRow) (after : After)
  /-- A record whose summary is awaited. -/
  | store (row : ItemRow) (rows : List ItemRow) (after : After)
  | reached (goal : Goal)
  | opens (number : ℕ) (itemId : String) (patch : ItemPatch) (existing : Record)
  | seals (number : ℕ) (itemId : String) (patch : ItemPatch) (existing : Record)
      (fields : ItemFields)
  | sends (edit : Option Edit) (itemId : String) (baseRevision : ℕ)
      (contents : Option ItemPlaintext)
  /-- A write of the app's own copy or of another device. -/
  | write (itemId : String) (baseRevision : ℕ) (contents : Option ItemPlaintext)
  deriving DecidableEq, Repr

namespace World

/-- An edit is handed the record of the item. -/
def handOut (w : World) (itemId : String) (record : Record) : World :=
  { w with
    edits := w.edits + 1
    handedOut := update w.handedOut w.edits (some (itemId, record)) }

/-- The edit ends. -/
def finish (w : World) (number : Option ℕ) : World :=
  { w with handedOut := number.elim w.handedOut fun n => update w.handedOut n none }

/-- What is noted of a write that the API answered. -/
def answered (w : World) (api : Api) (edit : Option Edit) (itemId : String)
    (contents : Option ItemPlaintext) (answer : Except WriteError ItemRow) : World :=
  { w with
    api
    uploads := (edit.bind fun e => (w.handedOut e.number).bind fun handed =>
      contents.map fun sealed =>
        ⟨itemId, e.patch, handed.2, w.api.items.find itemId, sealed, answer⟩).toList ++ w.uploads }

end World

/-- The edit that a goal is the last part of. -/
def Goal.edit : Goal → Option Edit
  | .upload edit _ _ => edit
  | _ => none

variable (crates : Crates)

/-- The next step of a task; `ok` says whether what it uses works. -/
def Task.proceed (w : World) (ok : Bool) : Task → World × Option Task
  | .pull goal => (w, some (.fetching w.cursor goal))
  | .fetching since goal =>
    if ok then
      let page := w.api.sync since
      (w, some (.apply page.items (.page page.cursor page.hasMore goal)))
    else (w.finish (goal.edit.map (·.number)), none)
  | .apply [] (.page cursor hasMore goal) =>
    ({ w with cursor }, some (if hasMore then .pull goal else .reached goal))
  | .apply [] .done => (w, none)
  | .apply (row :: rows) after =>
    if (w.records row.id).any (row.revision ≤ ·.revision) then (w, some (.apply rows after))
    else match row.contents with
      | none => ({ w with records := update w.records row.id none }, some (.apply rows after))
      | some _ => (w, some (.store row rows after))
  | .store row rows after =>
    (match row.contents with
      | some contents =>
        if ok then { w with records := update w.records row.id (some ⟨row.revision, contents⟩) }
        else w
      | none => w, some (.apply rows after))
  | .reached (.find itemId patch) =>
    match w.records itemId with
    | none => (w, none)
    | some existing => (w.handOut itemId existing, some (.opens w.edits itemId patch existing))
  | .reached (.upload edit itemId sealed) =>
    (w, some (.sends edit itemId ((w.records itemId).elim 0 (·.revision)) (some sealed)))
  | .reached (.delete itemId) =>
    (w, (w.records itemId).map fun existing => .sends none itemId existing.revision none)
  | .reached .list => (w, none)
  | .opens number itemId patch existing =>
    match if ok then openItem crates existing.contents else none with
    | some fields => (w, some (.seals number itemId patch existing fields))
    | none => (w.finish (some number), none)
  | .seals number itemId patch existing fields =>
    match if ok then sealItem crates (some existing.contents) (applyPatch fields patch) else none with
    | some sealed => (w, some (.pull (.upload (some ⟨number, patch⟩) itemId sealed)))
    | none => (w.finish (some number), none)
  | .sends edit itemId baseRevision contents =>
    if ok then
      match w.api.putItem itemId baseRevision contents with
      | (api, .ok row) =>
        ((w.answered api edit itemId contents (.ok row)).finish (edit.map (·.number)),
          some (.apply [row] .done))
      | (api, .error e) =>
        ((w.answered api edit itemId contents (.error e)).finish (edit.map (·.number)),
          e.current.map fun row => .apply [row] .done)
    else (w.finish (edit.map (·.number)), none)
  | .write itemId baseRevision contents =>
    ({ w with api := (w.api.putItem itemId baseRevision contents).1 }, none)

/-- What may start at any time. -/
def Task.canStart : Task → Bool
  | .pull (.upload edit _ _) => edit.isNone
  | .pull _ | .write .. => true
  | _ => false

def vaultProgram : Program World Task where
  start _ task := task.canStart = true
  act w task w' next := ∃ ok, task.proceed crates w ok = (w', next)

/-- No record of another revision of an item is stored while an edit of the item is under way, and
an edit of an item that was removed from the copy meanwhile is not sent while the vault is full. -/
def StoresBetweenEdits (w : World) : Task → Prop
  | .store row _ _ => ∀ n, ∀ handed ∈ w.handedOut n, handed.1 = row.id →
    handed.2.revision = row.revision
  | .sends (some _) _ baseRevision _ =>
    baseRevision = 0 → w.api.items.rows.length < Api.maxItemsPerVault
  | _ => True

end Zvault.Vault
