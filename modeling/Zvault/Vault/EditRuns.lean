import Mathlib.Logic.Basic
import Zvault.Vault.Sync

/-!
# Edits that replace what they were made from

The local copy keeps the revision that an edit was handed, or has removed the item,
when no other revision is stored until the edit ends. The upload is then based on the
revision that was opened, or on none. The API accepts it only while the opened
revision is the present one, and refuses it with a conflict else.
-/

namespace Zvault.Vault

open Concurrent Relational
open Function (update)

namespace Api

/-- A revision that the item had or has; if it is the present one, with its contents. -/
def Knows (api : Api) (itemId : String) (revision : ℕ) (contents : Option ItemPlaintext) : Prop :=
  ∃ row, api.items.find itemId = some row ∧
    (revision < row.revision ∨ (revision = row.revision ∧ contents = row.contents))

variable {api : Api} {itemId : String} {revision baseRevision : ℕ}
  {contents written : Option ItemPlaintext} {row : ItemRow}

theorem knows_of_find (h : api.items.find itemId = some row) :
    api.Knows row.id row.revision row.contents := by
  have hid : row.id = itemId := (Table.find_eq_some.mp h).2
  exact ⟨row, by rw [hid, h], Or.inr ⟨rfl, rfl⟩⟩

theorem knows_of_mem_sync {since : ℕ} (h : row ∈ (api.sync since).items) :
    api.Knows row.id row.revision row.contents := by
  have hrow := (Feed.mem_of_mem_page (List.mem_of_mem_take h)).1
  exact knows_of_find (Table.find_eq_some.mpr ⟨hrow, rfl⟩)

/-- The item is at a later revision. -/
def Passed (api : Api) (itemId : String) (revision : ℕ) : Prop :=
  ∃ row, api.items.find itemId = some row ∧ revision < row.revision

/-- A write is refused, as the vault is full or with the present item, which is at another revision
than the write is based on; or it replaces the revision it is based on with the next one. -/
theorem putItem_cases (api : Api) (itemId : String) (baseRevision : ℕ)
    (contents : Option ItemPlaintext) :
    (∃ error, api.putItem itemId baseRevision contents = (api, .error error) ∧
      (error = .vaultFull ∧ baseRevision = 0 ∧ maxItemsPerVault ≤ api.items.rows.length ∨
        error = (api.items.find itemId).elim .notFound .conflict ∧
          (api.items.find itemId).elim 0 (·.revision) ≠ baseRevision)) ∨
    ∃ api' row, api.putItem itemId baseRevision contents = (api', .ok row) ∧ row.id = itemId ∧
      row.revision = baseRevision + 1 ∧ row.contents = contents ∧
      (api.items.find itemId).elim 0 (·.revision) = baseRevision ∧
      ∀ id, api'.items.find id = if itemId = id then some row else api.items.find id := by
  simp only [putItem]
  split
  · rename_i hfull
    simp only [Bool.and_eq_true, beq_iff_eq, decide_eq_true_eq] at hfull
    exact Or.inl ⟨_, rfl, Or.inl ⟨rfl, hfull.1.2, hfull.2⟩⟩
  · split
    · rename_i hbase
      exact Or.inl ⟨_, rfl, Or.inr ⟨rfl, hbase⟩⟩
    · rename_i hbase
      refine Or.inr ⟨_, _, rfl, rfl, rfl, rfl, not_not.mp hbase, fun id => ?_⟩
      refine Table.find_upsert (fun s hs => ?_) id
      cases s
      cases hs
      rfl

/-- The item that comes with an error is the present one. -/
theorem find_of_putItem_error {error : WriteError}
    (h : (api.putItem itemId baseRevision written).2 = .error error) :
    ∀ row ∈ error.current, api.items.find itemId = some row := by
  rcases putItem_cases api itemId baseRevision written with
    ⟨error', hput, hcases⟩ | ⟨api', row, hput, -⟩
  · rw [hput] at h
    obtain rfl := Except.error.inj h
    rcases hcases with ⟨rfl, -⟩ | ⟨rfl, -⟩
    · exact nofun
    · cases hfind : api.items.find itemId with
      | none => exact nofun
      | some current =>
        rintro row hrow
        exact hrow
  · rw [hput] at h
    cases h

/-- A write replaces an item by a later revision, or leaves it. -/
theorem putItem_find (id : String) (h : api.items.find itemId = some row) :
    ∃ row', (api.putItem id baseRevision written).1.items.find itemId = some row' ∧
      (row' = row ∨ row.revision < row'.revision) := by
  rcases putItem_cases api id baseRevision written with
    ⟨error, hput, -⟩ | ⟨api', new, hput, -, hrevision, -, hbase, hfind⟩
  · rw [hput]
    exact ⟨row, h, Or.inl rfl⟩
  · rw [hput]
    rcases eq_or_ne id itemId with rfl | hne
    · rw [h, Option.elim_some] at hbase
      exact ⟨new, by rw [hfind, if_pos rfl], Or.inr (by omega)⟩
    · exact ⟨row, by rw [hfind, if_neg hne, h], Or.inl rfl⟩

/-- What was known of an item stays known. -/
theorem Knows.putItem (h : api.Knows itemId revision contents) (id : String) :
    (api.putItem id baseRevision written).1.Knows itemId revision contents := by
  obtain ⟨old, hold, hknown⟩ := h
  obtain ⟨row, hrow, rfl | hlater⟩ := putItem_find id hold
  · exact ⟨row, hrow, hknown⟩
  · exact ⟨row, hrow, Or.inl (by omega)⟩

theorem Passed.putItem (h : api.Passed itemId revision) (id : String) :
    (api.putItem id baseRevision written).1.Passed itemId revision := by
  obtain ⟨old, hold, hlt⟩ := h
  obtain ⟨row, hrow, rfl | hlater⟩ := putItem_find id hold
  · exact ⟨row, hrow, hlt⟩
  · exact ⟨row, hrow, hlt.trans hlater⟩

end Api

/-- The revision that the API has is the one that was opened, with its contents, and the fields that
the patch does not name are kept. -/
structure Upload.Replaces (crates : Crates) (u : Upload) : Prop where
  replaced : ∃ row, u.present = some row ∧ row.revision = u.opened.revision ∧
    row.contents = some u.opened.contents
  keeps : IsCanonical crates u.opened.contents → u.patch.Keeps u.opened.contents u.sealed

/-- An upload is accepted and replaces what was opened, or it is refused with a conflict, and the
item is at a later revision than the one that was opened. -/
def Upload.Settled (crates : Crates) (u : Upload) : Prop :=
  match u.answer with
  | .ok _ => u.Replaces crates
  | .error e => ∃ current, e = .conflict current ∧ u.present = some current ∧
    u.opened.revision < current.revision

/-- The record was opened, patched and sealed. -/
def ItemPatch.Makes (crates : Crates) (patch : ItemPatch) (existing : Record)
    (sealed : ItemPlaintext) : Prop :=
  ∃ fields, openItem crates existing.contents = some fields ∧
    sealItem crates (some existing.contents) (applyPatch fields patch) = some sealed

/-- The goal of a task that has not reached it. -/
def Task.goal : Task → Option Goal
  | .pull goal | .fetching _ goal | .reached goal => some goal
  | .apply _ (.page _ _ goal) | .store _ _ (.page _ _ goal) => some goal
  | _ => none

/-- The edit that a task works for. -/
def Task.number : Task → Option ℕ
  | .opens n .. | .seals n .. => some n
  | .sends edit .. => edit.map (·.number)
  | task => (task.goal.bind Goal.edit).map (·.number)

/-- What is uploaded was made from a record of the item. -/
def Goal.MadeFrom (crates : Crates) (handed : String × Record) : Goal → Prop
  | .upload (some edit) itemId sealed => itemId = handed.1 ∧ edit.patch.Makes crates handed.2 sealed
  | _ => True

/-- A task works with a record of the item. -/
def Task.MadeFrom (crates : Crates) (handed : String × Record) : Task → Prop
  | .opens _ itemId _ existing => (itemId, existing) = handed
  | .seals _ itemId _ existing fields =>
    (itemId, existing) = handed ∧ openItem crates existing.contents = some fields
  | .sends edit itemId _ contents =>
    itemId = handed.1 ∧
      ∀ e ∈ edit, ∃ sealed, contents = some sealed ∧ e.patch.Makes crates handed.2 sealed
  | task => ∀ goal ∈ task.goal, goal.MadeFrom crates handed

/-- A task works with the record that was handed out to its edit. -/
def Task.Relies (crates : Crates) (handedOut : ℕ → Option (String × Record)) (task : Task) : Prop :=
  ∀ n ∈ task.number, ∃ handed, handedOut n = some handed ∧ task.MadeFrom crates handed

/-- The rows that a task is going to apply. -/
def Task.rows : Task → List ItemRow
  | .apply rows _ => rows
  | .store row rows _ => row :: rows
  | _ => []

/-- The local copy has the revision that was handed out, or none since the API has a later one. -/
def World.Follows (w : World) (itemId : String) (revision : ℕ) : Prop :=
  (∀ r ∈ w.records itemId, r.revision = revision) ∧
    (w.records itemId = none → w.api.Passed itemId revision)

/-- An upload is based on the revision that was handed out, or on none since the API has a later
one. -/
def Task.Based (w : World) : Task → Prop
  | .sends (some edit) itemId baseRevision _ => ∀ handed ∈ w.handedOut edit.number,
    baseRevision = handed.2.revision ∨ baseRevision = 0 ∧ w.api.Passed itemId handed.2.revision
  | _ => True

/-- The local copy and the records handed out are known to the API, and the copy follows what was
handed out to the edits that are under way. -/
structure World.Sound (crates : Crates) (w : World) : Prop where
  records : ∀ id, ∀ r ∈ w.records id, w.api.Knows id r.revision (some r.contents)
  handedOut : ∀ n, ∀ handed ∈ w.handedOut n, n < w.edits ∧
    w.api.Knows handed.1 handed.2.revision (some handed.2.contents) ∧
    w.Follows handed.1 handed.2.revision
  uploads : ∀ u ∈ w.uploads, u.Settled crates

structure Task.Waits (crates : Crates) (w : World) (task : Task) : Prop where
  relies : task.Relies crates w.handedOut
  based : task.Based w
  known : ∀ row ∈ task.rows, w.api.Knows row.id row.revision row.contents

/-- Two tasks do not work for one edit. -/
def Task.Apart (t u : Task) : Prop := ∀ n ∈ t.number, n ∉ u.number

section Steps

variable {crates : Crates} {w w' : World} {ok : Bool} {task : Task} {next : Option Task}
  {handedOut handedOut' : ℕ → Option (String × Record)}

theorem Task.Relies.congr (h : task.Relies crates handedOut)
    (hsame : ∀ n ∈ task.number, handedOut' n = handedOut n) : task.Relies crates handedOut' := by
  intro n hn
  obtain ⟨handed, hhanded, hmade⟩ := h n hn
  exact ⟨handed, (hsame n hn).trans hhanded, hmade⟩

/-- Only what is sent has a base. -/
theorem Task.based_of_number (h : task.number = none) : task.Based w := by
  cases task with
  | sends edit itemId baseRevision contents =>
    cases edit with
    | none => trivial
    | some edit => cases h
  | _ => trivial

theorem Task.relies_of_number (h : task.number = none) : task.Relies crates handedOut :=
  fun n hn => by simp [h] at hn

/-- Until a goal is reached, all that counts is what is uploaded. -/
theorem Task.relies_of_goal {goal : Goal} (h : task.goal = some goal) :
    task.Relies crates handedOut ↔ ∀ edit ∈ goal.edit, ∃ handed,
      handedOut edit.number = some handed ∧ goal.MadeFrom crates handed := by
  have hnumber : task.number = goal.edit.map (·.number) := by
    cases task with
    | opens | seals | sends => cases h
    | _ => simp only [number, h, Option.bind_some]
  have hmade : ∀ handed, task.MadeFrom crates handed ↔ goal.MadeFrom crates handed := by
    intro handed
    cases task with
    | opens | seals | sends => cases h
    | _ => simp only [MadeFrom, h, Option.mem_def, Option.some_inj, forall_eq']
  unfold Relies
  rw [hnumber]
  constructor
  · intro hrelies edit hedit
    obtain ⟨handed, hhanded, hmade'⟩ := hrelies edit.number (Option.mem_map_of_mem _ hedit)
    exact ⟨handed, hhanded, (hmade handed).mp hmade'⟩
  · intro hgoal n hn
    obtain ⟨edit, hedit, rfl⟩ := Option.mem_map.mp hn
    obtain ⟨handed, hhanded, hmade'⟩ := hgoal edit hedit
    exact ⟨handed, hhanded, (hmade handed).mpr hmade'⟩

/-- The world after a row is applied to the local copy. -/
def World.applied (w : World) (row : ItemRow) : World :=
  { w with records := update w.records row.id (row.contents.map fun c => ⟨row.revision, c⟩) }

/-- What a step of a task can do. -/
inductive Moves (w : World) (task : Task) : World → Prop
  | copies (cursor : ℕ) : Moves w task { w with cursor }
  | stores {row : ItemRow} {rows : List ItemRow} {after : After}
      (htask : task = .store row rows after) (hlive : row.contents ≠ none) :
      Moves w task (w.applied row)
  | removes {row : ItemRow} (hrow : row ∈ task.rows) (hdeleted : row.contents = none)
      (hnew : (w.records row.id).any (row.revision ≤ ·.revision) = false) :
      Moves w task (w.applied row)
  | handsOut {itemId : String} {patch : ItemPatch} {existing : Record}
      (htask : task = .reached (.find itemId patch)) (hrecord : w.records itemId = some existing) :
      Moves w task (w.handOut itemId existing)
  | finishes : Moves w task (w.finish task.number)
  | answers {edit : Option Edit} {itemId : String} {baseRevision : ℕ}
      {contents : Option ItemPlaintext} (htask : task = .sends edit itemId baseRevision contents) :
      Moves w task ((w.answered (w.api.putItem itemId baseRevision contents).1 edit itemId
        contents (w.api.putItem itemId baseRevision contents).2).finish task.number)
  | writes (itemId : String) (baseRevision : ℕ) (contents : Option ItemPlaintext) :
      Moves w task { w with api := (w.api.putItem itemId baseRevision contents).1 }

theorem Task.proceed_moves (h : task.proceed crates w ok = (w', next)) : Moves w task w' := by
  cases task with
  | pull goal =>
    obtain ⟨rfl, -⟩ := Prod.mk.inj h
    exact .copies _
  | fetching since goal =>
    simp only [proceed] at h
    split at h
    · obtain ⟨rfl, -⟩ := Prod.mk.inj h
      exact .copies _
    · obtain ⟨rfl, -⟩ := Prod.mk.inj h
      exact .finishes
  | apply rows after =>
    cases rows with
    | nil =>
      cases after with
      | page cursor hasMore goal =>
        obtain ⟨rfl, -⟩ := Prod.mk.inj h
        exact .copies _
      | done =>
        obtain ⟨rfl, -⟩ := Prod.mk.inj h
        exact .copies _
    | cons row rows =>
      simp only [proceed] at h
      split at h
      · obtain ⟨rfl, -⟩ := Prod.mk.inj h
        exact .copies _
      · rename_i hnew
        split at h
        · rename_i hdeleted
          obtain ⟨rfl, -⟩ := Prod.mk.inj h
          have hmoves : Moves w (.apply (row :: rows) after) (w.applied row) :=
            .removes List.mem_cons_self hdeleted (by simpa using hnew)
          rwa [World.applied, hdeleted] at hmoves
        · obtain ⟨rfl, -⟩ := Prod.mk.inj h
          exact .copies _
  | store row rows after =>
    obtain ⟨rfl, -⟩ := Prod.mk.inj h
    split
    · rename_i contents hcontents
      split
      · have hmoves : Moves w (.store row rows after) (w.applied row) :=
          .stores rfl (by simp [hcontents])
        rwa [World.applied, hcontents] at hmoves
      · exact .copies _
    · exact .copies _
  | reached goal =>
    cases goal with
    | find itemId patch =>
      simp only [proceed] at h
      split at h
      · obtain ⟨rfl, -⟩ := Prod.mk.inj h
        exact .copies _
      · rename_i existing hrecord
        obtain ⟨rfl, -⟩ := Prod.mk.inj h
        exact .handsOut rfl hrecord
    | _ =>
      obtain ⟨rfl, -⟩ := Prod.mk.inj h
      exact .copies _
  | opens number itemId patch existing =>
    simp only [proceed] at h
    split at h
    · obtain ⟨rfl, -⟩ := Prod.mk.inj h
      exact .copies _
    · obtain ⟨rfl, -⟩ := Prod.mk.inj h
      exact .finishes
  | seals number itemId patch existing fields =>
    simp only [proceed] at h
    split at h
    · obtain ⟨rfl, -⟩ := Prod.mk.inj h
      exact .copies _
    · obtain ⟨rfl, -⟩ := Prod.mk.inj h
      exact .finishes
  | sends edit itemId baseRevision contents =>
    simp only [proceed] at h
    split at h
    · have hmoves : Moves w (.sends edit itemId baseRevision contents) _ := .answers rfl
      split at h <;> rename_i hput <;> rw [hput] at hmoves <;> obtain ⟨rfl, -⟩ := Prod.mk.inj h <;>
        exact hmoves
    · obtain ⟨rfl, -⟩ := Prod.mk.inj h
      exact .finishes
  | write itemId baseRevision contents =>
    obtain ⟨rfl, -⟩ := Prod.mk.inj h
    exact .writes ..

/-- What the API holds after a step still knows what it knew. -/
theorem Moves.knows (h : Moves w task w') {id : String} {revision : ℕ}
    {contents : Option ItemPlaintext} (hknows : w.api.Knows id revision contents) :
    w'.api.Knows id revision contents := by
  cases h with
  | answers => exact hknows.putItem _
  | writes => exact hknows.putItem _
  | _ => exact hknows

theorem Moves.passed (h : Moves w task w') {id : String} {revision : ℕ}
    (hpassed : w.api.Passed id revision) : w'.api.Passed id revision := by
  cases h with
  | answers => exact hpassed.putItem _
  | writes => exact hpassed.putItem _
  | _ => exact hpassed

/-- The record that was handed out to another edit stays. -/
theorem Moves.handedOut_of_ne (h : Moves w task w') {n : ℕ} (hn : n ∉ task.number)
    (hlt : n < w.edits) : w'.handedOut n = w.handedOut n := by
  have hfinish : ∀ w : World, (w.finish task.number).handedOut n = w.handedOut n := by
    intro w
    cases hnumber : task.number with
    | none => rfl
    | some m =>
      exact Function.update_of_ne (fun heq => hn (hnumber.trans (congrArg some heq.symm))) ..
  cases h with
  | handsOut => exact Function.update_of_ne hlt.ne ..
  | finishes => exact hfinish w
  | answers => exact hfinish _
  | _ => rfl

/-- What is handed out after an edit ended was handed out before. -/
theorem World.handedOut_of_finish {number : Option ℕ} {n : ℕ} {handed : String × Record}
    (h : handed ∈ (w.finish number).handedOut n) : handed ∈ w.handedOut n := by
  cases number with
  | none => exact h
  | some m =>
    rcases eq_or_ne n m with rfl | hne
    · have hnone : (w.finish (some n)).handedOut n = none := Function.update_self ..
      rw [hnone] at h
      cases h
    · have hsame : (w.finish (some m)).handedOut n = w.handedOut n := Function.update_of_ne hne ..
      rwa [hsame] at h

/-- How the API answers the upload of an edit. -/
theorem World.Sound.settled (hsound : w.Sound crates) {edit : Edit} {itemId : String}
    {baseRevision : ℕ} {sealed : ItemPlaintext}
    (hcondition : StoresBetweenEdits w (.sends (some edit) itemId baseRevision (some sealed)))
    (hwaits : (Task.sends (some edit) itemId baseRevision (some sealed)).Waits crates w)
    {handed : String × Record} (hhanded : w.handedOut edit.number = some handed) :
    Upload.Settled crates ⟨itemId, edit.patch, handed.2, w.api.items.find itemId, sealed,
      (w.api.putItem itemId baseRevision (some sealed)).2⟩ := by
  obtain ⟨handed', hhanded', hid, hmade⟩ := hwaits.relies edit.number rfl
  obtain rfl := Option.some_inj.mp (hhanded.symm.trans hhanded')
  obtain ⟨sealed', hsealed, fields, hopen, hseal⟩ := hmade edit rfl
  obtain rfl := Option.some_inj.mp hsealed
  obtain ⟨-, ⟨present, hpresent, hcurrent⟩, -⟩ := hsound.handedOut edit.number handed hhanded
  have hbased := hwaits.based handed hhanded
  rw [← hid] at hpresent
  have hpassed : baseRevision ≠ handed.2.revision → baseRevision = 0 ∧
      handed.2.revision < present.revision := by
    intro hne
    obtain ⟨hzero, row, hrow, hlt⟩ := hbased.resolve_left hne
    rw [hpresent] at hrow
    exact ⟨hzero, Option.some_inj.mp hrow ▸ hlt⟩
  rw [Upload.Settled]
  rcases Api.putItem_cases w.api itemId baseRevision (some sealed) with
    ⟨error, hput, hrefused⟩ | ⟨api', row, hput, -, -, -, hreplaced, -⟩
  · rw [hput]
    rcases hrefused with ⟨-, hzero, hfull⟩ | ⟨rfl, hother⟩
    · exact absurd hfull (not_le.mpr (hcondition hzero))
    · rw [hpresent, Option.elim_some] at hother
      refine ⟨present, by rw [hpresent]; rfl, hpresent, ?_⟩
      by_cases hbase : baseRevision = handed.2.revision
      · rcases hcurrent with hlt | ⟨hsame, -⟩
        · exact hlt
        · exact absurd (hsame.symm.trans hbase.symm) hother
      · exact (hpassed hbase).2
  · rw [hput]
    rw [hpresent, Option.elim_some] at hreplaced
    have hsame : present.revision = handed.2.revision := by
      by_contra hne
      rw [hreplaced] at hne
      obtain ⟨hzero, hlt⟩ := hpassed hne
      omega
    refine ⟨⟨present, hpresent, hsame, ?_⟩,
      fun hcanonical => keeps_of_sealItem hcanonical hopen hseal⟩
    rcases hcurrent with hlt | ⟨-, hcontents⟩
    · omega
    · exact hcontents.symm

/-- A step that stores nothing under an edit keeps the copy behind what was handed out. -/
theorem World.Follows.step {itemId : String} {revision : ℕ} (h : w.Follows itemId revision)
    (hmoves : Moves w task w') (hwaits : task.Waits crates w)
    (hstores : ∀ {row rows after}, task = .store row rows after → itemId = row.id →
      revision = row.revision) : w'.Follows itemId revision := by
  have hpassed : w.api.Passed itemId revision → w'.api.Passed itemId revision := hmoves.passed
  cases hmoves with
  | @stores row rows after htask hlive =>
    by_cases hid : itemId = row.id
    · obtain ⟨contents, hcontents⟩ := Option.ne_none_iff_exists'.mp hlive
      have hrecord : (w.applied row).records itemId = some ⟨row.revision, contents⟩ := by
        simp only [World.applied, hid, Function.update_self, hcontents, Option.map_some]
      refine ⟨fun r hr => ?_, fun hnone => ?_⟩
      · rw [hrecord] at hr
        rw [← Option.some_inj.mp hr, hstores htask hid]
      · rw [hrecord] at hnone
        cases hnone
    · have hrecord : (w.applied row).records itemId = w.records itemId :=
        Function.update_of_ne hid ..
      exact ⟨hrecord ▸ h.1, fun hnone => hpassed (h.2 (hrecord ▸ hnone))⟩
  | @removes row hrow hdeleted hnew =>
    by_cases hid : itemId = row.id
    · have hrecord : (w.applied row).records itemId = none := by
        simp only [World.applied, hid, Function.update_self, hdeleted, Option.map_none]
      refine ⟨fun r hr => ?_, fun _ => hpassed ?_⟩
      · rw [hrecord] at hr
        cases hr
      · -- the record that is removed is behind the deleted row, which the API knows
        cases hold : w.records itemId with
        | none => exact h.2 hold
        | some r =>
          have hrevision := h.1 r hold
          rw [← hid, hold, Option.any_some, decide_eq_false_iff_not] at hnew
          obtain ⟨current, hcurrent, hknown⟩ := hwaits.known row hrow
          exact ⟨current, hid ▸ hcurrent, by omega⟩
    · have hrecord : (w.applied row).records itemId = w.records itemId :=
        Function.update_of_ne hid ..
      exact ⟨hrecord ▸ h.1, fun hnone => hpassed (h.2 (hrecord ▸ hnone))⟩
  | _ => exact ⟨h.1, fun hnone => hpassed (h.2 hnone)⟩

/-- A step that stores nothing under an edit keeps the world sound. -/
theorem World.Sound.step (hsound : w.Sound crates) (hcondition : StoresBetweenEdits w task)
    (hwaits : task.Waits crates w) (h : Moves w task w') : w'.Sound crates := by
  refine ⟨fun id r hr => ?_, fun n handed hhanded => ?_, ?_⟩
  · refine h.knows ?_
    have happlied : ∀ {row : ItemRow}, row ∈ task.rows → r ∈ (w.applied row).records id →
        w.api.Knows id r.revision (some r.contents) := by
      intro row hrow hr
      simp only [World.applied, Option.mem_def, Function.update_apply] at hr
      split at hr
      · rename_i hid
        obtain ⟨contents, hcontents, rfl⟩ := Option.map_eq_some_iff.mp hr
        rw [hid, ← hcontents]
        exact hwaits.known row hrow
      · exact hsound.records id r hr
    cases h with
    | stores htask =>
      subst htask
      exact happlied List.mem_cons_self hr
    | removes hrow => exact happlied hrow hr
    | _ => exact hsound.records id r hr
  · have hkept : handed ∈ w.handedOut n → n < w.edits ∧
        w'.api.Knows handed.1 handed.2.revision (some handed.2.contents) ∧
        w'.Follows handed.1 handed.2.revision := by
      intro hmem
      obtain ⟨hlt, hknown, hfollows⟩ := hsound.handedOut n handed hmem
      refine ⟨hlt, h.knows hknown, hfollows.step h hwaits fun htask hid => ?_⟩
      subst htask
      exact hcondition n handed hmem hid
    cases h with
    | @handsOut itemId patch existing htask hrecord =>
      simp only [World.handOut, Option.mem_def, Function.update_apply] at hhanded
      split at hhanded
      · rename_i hn
        obtain rfl := Option.some_inj.mp hhanded
        refine ⟨by simp [World.handOut, hn], hsound.records itemId existing hrecord, ?_, ?_⟩
        · intro r hr
          rw [Option.some_inj.mp (hrecord.symm.trans hr)]
        · intro hnone
          cases hrecord.symm.trans hnone
      · obtain ⟨hlt, hknown, hfollows⟩ := hkept hhanded
        exact ⟨Nat.lt_succ_of_lt hlt, hknown, hfollows⟩
    | finishes => exact hkept (World.handedOut_of_finish hhanded)
    | answers => exact hkept (World.handedOut_of_finish hhanded)
    | _ => exact hkept hhanded
  · cases h with
    | @answers edit itemId baseRevision contents htask =>
      intro u hu
      rcases List.mem_append.mp hu with hu | hu
      · obtain ⟨e, hedit, hu⟩ := Option.bind_eq_some_iff.mp (Option.mem_toList.mp hu)
        obtain ⟨handed, hhanded, hu⟩ := Option.bind_eq_some_iff.mp hu
        obtain ⟨sealed, hsealed, rfl⟩ := Option.map_eq_some_iff.mp hu
        subst hedit hsealed htask
        exact hsound.settled hcondition hwaits hhanded
      · exact hsound.uploads u hu
    | _ => exact hsound.uploads

/-- A step leads to what the next one relies on. -/
theorem Task.waits_of_proceed {n : Task} (hsound : w.Sound crates) (hwaits : task.Waits crates w)
    (h : task.proceed crates w ok = (w', some n)) : n.Waits crates w' := by
  have hmoves := proceed_moves h
  have hknown : ∀ {row : ItemRow}, row ∈ task.rows →
      w'.api.Knows row.id row.revision row.contents := fun hrow => hmoves.knows (hwaits.known _ hrow)
  -- a task that goes on towards its goal
  have hgoal : ∀ {goal}, task.goal = some goal → n.goal = some goal →
      w'.handedOut = w.handedOut → n.Relies crates w'.handedOut := by
    intro goal ht hn hsame
    rw [hsame]
    exact (relies_of_goal hn).mpr ((relies_of_goal ht).mp hwaits.relies)
  cases task with
  | pull goal =>
    obtain ⟨rfl, hn⟩ := Prod.mk.inj h
    obtain rfl := Option.some_inj.mp hn
    exact ⟨hgoal rfl rfl rfl, trivial, nofun⟩
  | fetching since goal =>
    simp only [proceed] at h
    split at h
    · obtain ⟨rfl, hn⟩ := Prod.mk.inj h
      obtain rfl := Option.some_inj.mp hn
      exact ⟨hgoal rfl rfl rfl, trivial, fun row hrow => Api.knows_of_mem_sync hrow⟩
    · cases (Prod.mk.inj h).2
  | apply rows after =>
    cases rows with
    | nil =>
      cases after with
      | page cursor hasMore goal =>
        obtain ⟨rfl, hn⟩ := Prod.mk.inj h
        cases hasMore with
        | true =>
          obtain rfl := Option.some_inj.mp hn
          exact ⟨hgoal rfl rfl rfl, trivial, nofun⟩
        | false =>
          obtain rfl := Option.some_inj.mp hn
          exact ⟨hgoal rfl rfl rfl, trivial, nofun⟩
      | done => cases (Prod.mk.inj h).2
    | cons row rows =>
      have hn : (n = .apply rows after ∨ n = .store row rows after) ∧
          w'.handedOut = w.handedOut := by
        simp only [proceed] at h
        split at h
        · obtain ⟨rfl, hn⟩ := Prod.mk.inj h
          exact ⟨Or.inl (Option.some_inj.mp hn).symm, rfl⟩
        · split at h <;> obtain ⟨rfl, hn⟩ := Prod.mk.inj h
          · exact ⟨Or.inl (Option.some_inj.mp hn).symm, rfl⟩
          · exact ⟨Or.inr (Option.some_inj.mp hn).symm, rfl⟩
      obtain ⟨hn, hsame⟩ := hn
      refine ⟨?_, ?_, ?_⟩
      · cases after with
        | page => rcases hn with rfl | rfl <;> exact hgoal rfl rfl hsame
        | done => rcases hn with rfl | rfl <;> exact relies_of_number rfl
      · rcases hn with rfl | rfl <;> trivial
      · rcases hn with rfl | rfl
        · exact fun row' hrow => hknown (List.mem_cons_of_mem _ hrow)
        · exact fun row' hrow => hknown hrow
  | store row rows after =>
    obtain ⟨hw, hn⟩ := Prod.mk.inj h
    obtain rfl := Option.some_inj.mp hn
    have hsame : w'.handedOut = w.handedOut := by
      rw [← hw]
      split
      · split <;> rfl
      · rfl
    refine ⟨?_, trivial, fun row' hrow => hknown (List.mem_cons_of_mem _ hrow)⟩
    cases after with
    | page => exact hgoal rfl rfl hsame
    | done => exact relies_of_number rfl
  | reached goal =>
    cases goal with
    | find itemId patch =>
      simp only [proceed] at h
      split at h
      · cases (Prod.mk.inj h).2
      · rename_i existing hrecord
        obtain ⟨rfl, hn⟩ := Prod.mk.inj h
        obtain rfl := Option.some_inj.mp hn
        refine ⟨fun m hm => ?_, trivial, nofun⟩
        obtain rfl := Option.some_inj.mp hm
        exact ⟨(itemId, existing), Function.update_self .., rfl⟩
    | upload edit itemId sealed =>
      obtain ⟨rfl, hn⟩ := Prod.mk.inj h
      obtain rfl := Option.some_inj.mp hn
      refine ⟨fun m hm => ?_, ?_, nofun⟩
      · obtain ⟨handed, hhanded, hmade⟩ := hwaits.relies m hm
        obtain ⟨e, rfl, rfl⟩ := Option.map_eq_some_iff.mp hm
        obtain ⟨hid, hmakes⟩ := hmade _ rfl
        refine ⟨handed, hhanded, hid, fun e' he' => ?_⟩
        obtain rfl := Option.some_inj.mp he'
        exact ⟨sealed, rfl, hmakes⟩
      · cases edit with
        | none => trivial
        | some e =>
          intro handed hhanded
          obtain ⟨handed', hhanded', hmade⟩ := hwaits.relies e.number rfl
          obtain rfl := Option.some_inj.mp (hhanded.symm.trans hhanded')
          obtain ⟨hid, -⟩ := hmade _ rfl
          obtain ⟨-, -, hfollows⟩ := hsound.handedOut _ handed hhanded
          rw [← hid] at hfollows
          cases hrecord : w.records itemId with
          | none => exact Or.inr ⟨rfl, hfollows.2 hrecord⟩
          | some r => exact Or.inl (hfollows.1 r hrecord)
    | delete itemId =>
      obtain ⟨rfl, hn⟩ := Prod.mk.inj h
      obtain ⟨existing, -, rfl⟩ := Option.map_eq_some_iff.mp hn
      exact ⟨relies_of_number rfl, trivial, nofun⟩
    | list => cases (Prod.mk.inj h).2
  | opens number itemId patch existing =>
    simp only [proceed] at h
    split at h
    · rename_i fields hopen
      obtain ⟨rfl, hn⟩ := Prod.mk.inj h
      obtain rfl := Option.some_inj.mp hn
      refine ⟨fun m hm => ?_, trivial, nofun⟩
      obtain ⟨handed, hhanded, hmade⟩ := hwaits.relies m hm
      exact ⟨handed, hhanded, hmade, (Option.ite_none_right_eq_some.mp hopen).2⟩
    · cases (Prod.mk.inj h).2
  | seals number itemId patch existing fields =>
    simp only [proceed] at h
    split at h
    · rename_i sealed hseal
      obtain ⟨rfl, hn⟩ := Prod.mk.inj h
      obtain rfl := Option.some_inj.mp hn
      refine ⟨(relies_of_goal rfl).mpr fun e he => ?_, trivial, nofun⟩
      obtain rfl := Option.some_inj.mp he
      obtain ⟨handed, hhanded, rfl, hopen⟩ := hwaits.relies number rfl
      exact ⟨(itemId, existing), hhanded, rfl, fields, hopen,
        (Option.ite_none_right_eq_some.mp hseal).2⟩
    · cases (Prod.mk.inj h).2
  | sends edit itemId baseRevision contents =>
    simp only [proceed] at h
    split at h
    · split at h <;> rename_i hput <;> obtain ⟨rfl, hn⟩ := Prod.mk.inj h
      · rename_i api row
        obtain rfl := Option.some_inj.mp hn
        refine ⟨relies_of_number rfl, trivial, fun row' hrow' => ?_⟩
        obtain rfl := List.mem_singleton.mp hrow'
        rcases Api.putItem_cases w.api itemId baseRevision contents with
          ⟨error, hrefused, -⟩ | ⟨api', row', hput', hid, -, -, -, hfind⟩
        · rw [hrefused] at hput
          cases (Prod.mk.inj hput).2
        · obtain ⟨rfl, hrow'⟩ := Prod.mk.inj (hput'.symm.trans hput)
          obtain rfl := Except.ok.inj hrow'
          have hfound : api'.items.find row'.id = some row' := by rw [hfind, if_pos hid.symm]
          exact Api.knows_of_find hfound
      · rename_i api error
        obtain ⟨row, hrow, rfl⟩ := Option.map_eq_some_iff.mp hn
        refine ⟨relies_of_number rfl, trivial, fun row' hrow' => ?_⟩
        obtain rfl := List.mem_singleton.mp hrow'
        have hfound := Api.find_of_putItem_error (congrArg Prod.snd hput) row' hrow
        exact hmoves.knows (Api.knows_of_find hfound)
    · cases (Prod.mk.inj h).2
  | write itemId baseRevision contents => cases (Prod.mk.inj h).2

/-- A step of another task does not interfere. -/
theorem Task.Waits.of_moves {u : Task} (hsound : w.Sound crates) (hu : u.Waits crates w)
    (hapart : task.Apart u) (h : Moves w task w') : u.Waits crates w' := by
  have hsame : ∀ n ∈ u.number, w'.handedOut n = w.handedOut n := by
    intro n hn
    obtain ⟨handed, hhanded, -⟩ := hu.relies n hn
    exact h.handedOut_of_ne (fun hn' => hapart n hn' hn) (hsound.handedOut n handed hhanded).1
  refine ⟨hu.relies.congr hsame, ?_, fun row hrow => h.knows (hu.known row hrow)⟩
  cases u with
  | sends edit itemId baseRevision contents =>
    cases edit with
    | none => trivial
    | some e =>
      intro handed hhanded
      rw [hsame e.number rfl] at hhanded
      exact (hu.based handed hhanded).imp_right fun hzero => ⟨hzero.1, h.passed hzero.2⟩
  | _ => trivial

/-- The edit that a task goes on with is its own or a new one. -/
theorem Task.number_of_proceed {n : Task} (h : task.proceed crates w ok = (w', some n)) {m : ℕ}
    (hm : m ∈ n.number) : m ∈ task.number ∨ m = w.edits := by
  cases task with
  | pull goal =>
    obtain rfl := Option.some_inj.mp (Prod.mk.inj h).2
    exact Or.inl hm
  | fetching since goal =>
    simp only [proceed] at h
    split at h
    · obtain rfl := Option.some_inj.mp (Prod.mk.inj h).2
      exact Or.inl hm
    · cases (Prod.mk.inj h).2
  | apply rows after =>
    cases rows with
    | nil =>
      cases after with
      | page cursor hasMore goal =>
        obtain rfl := Option.some_inj.mp (Prod.mk.inj h).2
        cases hasMore <;> exact Or.inl hm
      | done => cases (Prod.mk.inj h).2
    | cons row rows =>
      have hn : n = .apply rows after ∨ n = .store row rows after := by
        simp only [proceed] at h
        split at h
        · exact Or.inl (Option.some_inj.mp (Prod.mk.inj h).2).symm
        · split at h
          · exact Or.inl (Option.some_inj.mp (Prod.mk.inj h).2).symm
          · exact Or.inr (Option.some_inj.mp (Prod.mk.inj h).2).symm
      cases after <;> rcases hn with rfl | rfl <;> exact Or.inl hm
  | store row rows after =>
    obtain rfl := Option.some_inj.mp (Prod.mk.inj h).2
    cases after <;> exact Or.inl hm
  | reached goal =>
    cases goal with
    | find itemId patch =>
      simp only [proceed] at h
      split at h
      · cases (Prod.mk.inj h).2
      · obtain rfl := Option.some_inj.mp (Prod.mk.inj h).2
        exact Or.inr (Option.some_inj.mp hm).symm
    | upload edit itemId sealed =>
      obtain rfl := Option.some_inj.mp (Prod.mk.inj h).2
      exact Or.inl hm
    | delete itemId =>
      obtain ⟨existing, -, rfl⟩ := Option.map_eq_some_iff.mp (Prod.mk.inj h).2
      cases hm
    | list => cases (Prod.mk.inj h).2
  | opens number itemId patch existing =>
    simp only [proceed] at h
    split at h
    · obtain rfl := Option.some_inj.mp (Prod.mk.inj h).2
      exact Or.inl hm
    · cases (Prod.mk.inj h).2
  | seals number itemId patch existing fields =>
    simp only [proceed] at h
    split at h
    · obtain rfl := Option.some_inj.mp (Prod.mk.inj h).2
      exact Or.inl hm
    · cases (Prod.mk.inj h).2
  | sends edit itemId baseRevision contents =>
    simp only [proceed] at h
    split at h
    · split at h
      · obtain rfl := Option.some_inj.mp (Prod.mk.inj h).2
        cases hm
      · obtain ⟨row, -, rfl⟩ := Option.map_eq_some_iff.mp (Prod.mk.inj h).2
        cases hm
    · cases (Prod.mk.inj h).2
  | write itemId baseRevision contents => cases (Prod.mk.inj h).2

theorem Task.Waits.lt_edits (hsound : w.Sound crates) (hwaits : task.Waits crates w) {n : ℕ}
    (hn : n ∈ task.number) : n < w.edits := by
  obtain ⟨handed, hhanded, -⟩ := hwaits.relies n hn
  exact (hsound.handedOut n handed hhanded).1

theorem Task.number_of_canStart (h : task.canStart = true) : task.number = none := by
  cases task with
  | pull goal =>
    cases goal with
    | upload edit itemId sealed =>
      cases edit with
      | none => rfl
      | some e => cases h
    | _ => rfl
  | write => rfl
  | _ => cases h

end Steps

theorem editOutline (crates : Crates) :
    Outline ((vaultProgram crates).when StoresBetweenEdits) (World.Sound crates)
      (Task.Waits crates) Task.Apart where
  start := by
    rintro w task - hstart
    have hnumber := Task.number_of_canStart hstart
    refine ⟨Task.relies_of_number hnumber, Task.based_of_number hnumber, ?_⟩
    cases task with
    | pull | write => exact nofun
    | _ => cases hstart
  starts_apart := by
    rintro w task u - hstart - n hn
    rw [Task.number_of_canStart hstart] at hn
    cases hn
  keeps := by
    rintro w task w' next hsound hwaits ⟨hcondition, ok, h⟩
    exact hsound.step hcondition hwaits (Task.proceed_moves h)
  leads := by
    rintro w task w' next hsound hwaits ⟨-, ok, h⟩
    exact Task.waits_of_proceed hsound hwaits h
  leads_apart := by
    rintro w task w' next u hsound - hu hapart ⟨-, ok, h⟩ n hn hun
    rcases Task.number_of_proceed h hn with hn | rfl
    · exact hapart n hn hun
    · exact (hu.lt_edits hsound hun).false
  free := by
    rintro w task w' next u hsound - hu hapart ⟨-, ok, h⟩
    exact hu.of_moves hsound hapart (Task.proceed_moves h)
  symm h n hu ht := h n ht hu

/-- In every run that stores no other revision of an item while an edit of it is under way, an
upload that the API accepts replaces the revision that was opened and patched, and keeps what the
patch does not name. Every other upload is refused with a conflict: the item is at a later
revision. -/
theorem edit_replaces_opened (crates : Crates) {api : Api} {w : World} {tasks : List Task}
    (hrun : Run ((vaultProgram crates).when StoresBetweenEdits) ⟨.initial api, []⟩ ⟨w, tasks⟩) :
    ∀ u ∈ w.uploads, u.Settled crates := by
  have hinitial : (World.initial api).Sound crates := by
    refine ⟨?_, ?_, ?_⟩
    · rintro id r ⟨⟩
    · rintro n handed ⟨⟩
    · rintro u ⟨⟩
  have hholds := (editOutline crates).run_idle hinitial hrun
  exact hholds.inv.uploads

section Runs

variable {crates : Crates} {condition : World → Task → Prop} {s : Concurrent.System World Task}
  {w w' : World} {rest : List Task}

theorem vault_starts (h : Run ((vaultProgram crates).when condition) s ⟨w, rest⟩) (task : Task)
    (hstart : task.canStart = true) :
    Run ((vaultProgram crates).when condition) s ⟨w, task :: rest⟩ :=
  h.tail (.start hstart)

theorem vault_proceeds {task : Task} {next : Option Task} (ok : Bool)
    (h : Run ((vaultProgram crates).when condition) s ⟨w, task :: rest⟩)
    (hproceed : task.proceed crates w ok = (w', next)) (hcondition : condition w task) :
    Run ((vaultProgram crates).when condition) s ⟨w', next.toList ++ rest⟩ := by
  have hact : ((vaultProgram crates).when condition).act w task w' next :=
    ⟨hcondition, ok, hproceed⟩
  exact h.proceeds hact

theorem storesBetweenEdits_of_idle {row : ItemRow} {rows : List ItemRow} {after : After}
    (h : ∀ n, w.handedOut n = none) : StoresBetweenEdits w (.store row rows after) := by
  intro n handed hhanded
  rw [h n] at hhanded
  cases hhanded

end Runs

/-- A vault with one login. -/
def oneLogin : Api :=
  ⟨⟨[⟨"a", 1, 1, some ⟨"Mail", "me", "old", [], "", "", none, none⟩⟩], by decide⟩, 1⟩

/-- The title of a login is changed while nobody else writes it, then its notes while another device
deletes it. The second upload pulls the deletion, is based on none, and is refused. -/
theorem edit_replaces_opened_deleted : ∃ w,
    Run ((vaultProgram plainCrates).when StoresBetweenEdits) ⟨.initial oneLogin, []⟩ ⟨w, []⟩ ∧
      w.uploads = [
        ⟨"a", ⟨none, none, none, none, some "Old", none⟩,
          ⟨2, ⟨"Post", "me", "old", [], "", "", none, none⟩⟩, some ⟨"a", 3, 3, none⟩,
          ⟨"Post", "me", "old", [], "Old", "", none, none⟩, .error (.conflict ⟨"a", 3, 3, none⟩)⟩,
        ⟨"a", ⟨some "Post", none, none, none, none, none⟩,
          ⟨1, ⟨"Mail", "me", "old", [], "", "", none, none⟩⟩,
          some ⟨"a", 1, 1, some ⟨"Mail", "me", "old", [], "", "", none, none⟩⟩,
          ⟨"Post", "me", "old", [], "", "", none, none⟩,
          .ok ⟨"a", 2, 2, some ⟨"Post", "me", "old", [], "", "", none, none⟩⟩⟩] ∧
      ∀ u ∈ w.uploads, u.Settled plainCrates := by
  have hinitial : Run ((vaultProgram plainCrates).when StoresBetweenEdits)
    ⟨.initial oneLogin, []⟩ ⟨.initial oneLogin, []⟩ := .refl
  have hpull := vault_starts hinitial
    (.pull (.find "a" ⟨some "Post", none, none, none, none, none⟩)) rfl
  have hfetching := vault_proceeds true hpull rfl trivial
  have happly := vault_proceeds true hfetching rfl trivial
  have hstore := vault_proceeds true happly rfl trivial
  have hstored := vault_proceeds true hstore rfl (storesBetweenEdits_of_idle fun _ => rfl)
  have hpulled := vault_proceeds true hstored rfl trivial
  have hfound := vault_proceeds true hpulled rfl trivial
  have hopened := vault_proceeds true hfound rfl trivial
  have hsealed := vault_proceeds true hopened rfl trivial
  have hpull' := vault_proceeds true hsealed rfl trivial
  have hfetching' := vault_proceeds true hpull' rfl trivial
  have hpulled' := vault_proceeds true hfetching' rfl trivial
  have hbased := vault_proceeds true hpulled' rfl trivial
  have hsent := vault_proceeds true hbased rfl nofun
  have hstore' := vault_proceeds true hsent rfl trivial
  have hstored' := vault_proceeds true hstore' rfl (storesBetweenEdits_of_idle fun n =>
    match n with
    | 0 => rfl
    | _ + 1 => rfl)
  have hdone := vault_proceeds true hstored' rfl trivial
  -- the second edit, whose item another device deletes
  have hnotes := vault_starts hdone
    (.pull (.find "a" ⟨none, none, none, none, some "Old", none⟩)) rfl
  have hnotes₁ := vault_proceeds true hnotes rfl trivial
  have hnotes₂ := vault_proceeds true hnotes₁ rfl trivial
  have hnotes₃ := vault_proceeds true hnotes₂ rfl trivial
  have hnotes₄ := vault_proceeds true hnotes₃ rfl trivial
  have hnotes₅ := vault_proceeds true hnotes₄ rfl trivial
  have hnotes₆ := vault_proceeds true hnotes₅ rfl trivial
  have hnotes₇ := vault_proceeds true hnotes₆ rfl trivial
  have hdeleted := vault_proceeds true (vault_starts hnotes₇ (.write "a" 2 none) rfl) rfl trivial
  have hremoved := vault_proceeds true hdeleted rfl trivial
  have hremoved₁ := vault_proceeds true hremoved rfl trivial
  have hremoved₂ := vault_proceeds true hremoved₁ rfl trivial
  have hremoved₃ := vault_proceeds true hremoved₂ rfl trivial
  have hremoved₄ := vault_proceeds true hremoved₃ rfl trivial
  have hrefused := vault_proceeds true hremoved₄ rfl fun _ => by decide
  have hend := vault_proceeds true hrefused rfl trivial
  have hend' := vault_proceeds true hend rfl trivial
  exact ⟨_, hend', rfl, edit_replaces_opened plainCrates hend'⟩

/-- Another device saves a new password after the login was opened. The upload pulls it, is based
on it, and puts the old password back. -/
theorem edit_replaces_unopened : ∃ w,
    Run (vaultProgram plainCrates) ⟨.initial oneLogin, []⟩ ⟨w, []⟩ ∧
      ∃ u ∈ w.uploads, u.patch.password = none ∧ u.opened.revision = 1 ∧
        u.present = some ⟨"a", 2, 2, some ⟨"Mail", "me", "new", [], "", "", none, none⟩⟩ ∧
        u.answer = .ok ⟨"a", 3, 3, some ⟨"Post", "me", "old", [], "", "", none, none⟩⟩ ∧
        ¬ u.Settled plainCrates := by
  have hinitial : Run ((vaultProgram plainCrates).when fun _ _ => True)
    ⟨.initial oneLogin, []⟩ ⟨.initial oneLogin, []⟩ := .refl
  have hpull := vault_starts hinitial
    (.pull (.find "a" ⟨some "Post", none, none, none, none, none⟩)) rfl
  have hfetching := vault_proceeds true hpull rfl trivial
  have happly := vault_proceeds true hfetching rfl trivial
  have hstore := vault_proceeds true happly rfl trivial
  have hstored := vault_proceeds true hstore rfl trivial
  have hpulled := vault_proceeds true hstored rfl trivial
  have hfound := vault_proceeds true hpulled rfl trivial
  have hopened := vault_proceeds true hfound rfl trivial
  have hsealed := vault_proceeds true hopened rfl trivial
  have hwritten := vault_proceeds true (vault_starts hsealed
    (.write "a" 1 (some ⟨"Mail", "me", "new", [], "", "", none, none⟩)) rfl) rfl trivial
  have hpull' := vault_proceeds true hwritten rfl trivial
  have hfetching' := vault_proceeds true hpull' rfl trivial
  have happly' := vault_proceeds true hfetching' rfl trivial
  have hstore' := vault_proceeds true happly' rfl trivial
  have hpulled' := vault_proceeds true hstore' rfl trivial
  have hbased := vault_proceeds true hpulled' rfl trivial
  have hsent := vault_proceeds true hbased rfl trivial
  have hstored' := vault_proceeds true hsent rfl trivial
  have hlast := vault_proceeds true hstored' rfl trivial
  have hdone := vault_proceeds true hlast rfl trivial
  refine ⟨_, .of_when hdone, _, List.mem_cons_self, rfl, rfl, rfl, rfl, ?_⟩
  rintro ⟨⟨row, hrow, hrevision, -⟩, -⟩
  obtain rfl := Option.some_inj.mp hrow
  cases hrevision

end Zvault.Vault
