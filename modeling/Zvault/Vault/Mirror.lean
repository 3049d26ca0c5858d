import Zvault.Vault.EditRuns

/-!
# Pulls that overlap

Any number of pulls, saves and removes work on the local copy of a vault while other
devices write. The copy follows the API when no record is stored behind a newer one
of its item. A pull that runs alone then leaves the copy as the API is.
-/

namespace Zvault.Vault

open Concurrent Relational
open Function (update)

/-- The world, and the newest revision of each item that a step was done with. No step reads the
second field. -/
structure Mirror where
  world : World
  applied : String → ℕ

namespace Mirror

/-- A step is done with a row: it is in the local copy, or passed over. -/
def note (m : Mirror) (row : ItemRow) : Mirror :=
  { m with applied := update m.applied row.id (max (m.applied row.id) row.revision) }

end Mirror

/-- The row that a step is done with. -/
def Task.notes (w : World) (ok : Bool) : Task → Option ItemRow
  | .apply (row :: _) _ =>
    if (w.records row.id).any (row.revision ≤ ·.revision) || row.contents.isNone then some row
    else none
  | .store row _ _ => if ok then some row else none
  | _ => none

/-- A record is stored: it is readable, and no newer revision of its item was applied. -/
def StoresNewest (m : Mirror) (ok : Bool) : Task → Prop
  | .store row _ _ => ok = true ∧ m.applied row.id ≤ row.revision
  | _ => True

/-- What the app starts: pulls, saves and removals of its own, and writes of other devices. -/
def Task.startsAlone : Task → Bool
  | .sends edit _ _ _ => edit.isNone
  | task => task.canStart

variable (crates : Crates)

/-- The tasks of the local copy, whose steps meet a condition. -/
def copyProgram (condition : Mirror → Bool → Task → Prop) : Program Mirror Task where
  start _ task := task.startsAlone = true
  act m task m' next := ∃ ok, condition m ok task ∧
    task.proceed crates m.world ok = (m'.world, next) ∧
    m'.applied = ((task.notes m.world ok).elim m m.note).applied

/-- A task that runs alone and fails nowhere, if it ends after so many steps. -/
def runsAlone (w : World) : ℕ → Task → Option World
  | 0, _ => none
  | n + 1, task =>
    match task.proceed crates w true with
    | (w', none) => some w'
    | (w', some next) => runsAlone w' n next

/-- What the local copy should have of an item. -/
def ItemRow.live (row : ItemRow) : Option Record := row.contents.map (⟨row.revision, ·⟩)

/-- The local copy has the live items of the API. -/
def World.Mirrors (w : World) : Prop := ∀ id, w.records id = (w.api.items.find id).bind ItemRow.live

section Api

/-- What the writes of a vault make of it. -/
structure Api.Grows (api api' : Api) : Prop where
  seq : api.seq ≤ api'.seq
  advances : ∀ row ∈ api'.items, row ∈ api.items ∨ api.seq < row.seq
  knows : ∀ id revision contents, api.Knows id revision contents → api'.Knows id revision contents

/-- The items of a vault have positions and revisions of their own. -/
structure Api.Ordered (api : Api) : Prop where
  feed : Feed.Ordered ItemRow.seq api.items.rows api.seq
  revised : ∀ row ∈ api.items, 0 < row.revision

theorem Api.Grows.refl (api : Api) : api.Grows api :=
  ⟨le_rfl, fun _ hrow => Or.inl hrow, fun _ _ _ h => h⟩

/-- An accepted write puts its item behind all others. -/
theorem Api.mem_putItem (api : Api) (itemId : String) (baseRevision : ℕ)
    (contents : Option ItemPlaintext) :
    (api.putItem itemId baseRevision contents).1 = api ∨
      (api.putItem itemId baseRevision contents).1.seq = api.seq + 1 ∧
      ∀ row, row ∈ (api.putItem itemId baseRevision contents).1.items ↔
        row ∈ api.items ∧ row.id ≠ itemId ∨
          row = ⟨itemId, baseRevision + 1, api.seq + 1, contents⟩ := by
  simp only [putItem]
  split
  · exact Or.inl rfl
  · split
    · exact Or.inl rfl
    · refine Or.inr ⟨rfl, fun row => ?_⟩
      rw [Table.mem_upsert]
      refine or_congr Iff.rfl ?_
      constructor
      · rintro (⟨old, -, hid, rfl⟩ | ⟨rfl, -⟩)
        · obtain rfl : old.id = itemId := hid
          rfl
        · rfl
      · rintro rfl
        by_cases hold : ∃ old ∈ api.items, old.id = itemId
        · obtain ⟨old, hmem, hid⟩ := hold
          refine Or.inl ⟨old, hmem, hid, ?_⟩
          rw [← hid]
        · exact Or.inr ⟨rfl, fun old hmem hid => hold ⟨old, hmem, hid⟩⟩

theorem Api.Ordered.putItem {api : Api} (h : api.Ordered) (itemId : String) (baseRevision : ℕ)
    (contents : Option ItemPlaintext) :
    (api.putItem itemId baseRevision contents).1.Ordered ∧
      api.Grows (api.putItem itemId baseRevision contents).1 := by
  rcases api.mem_putItem itemId baseRevision contents with hsame | ⟨hseq, hmem⟩
  · rw [hsame]
    exact ⟨h, .refl api⟩
  · generalize hput : (api.putItem itemId baseRevision contents).1 = api' at hseq hmem
    have hwrite : Feed.Write ItemRow.seq api.items.rows api.seq api'.items.rows api'.seq := by
      apply Feed.Write.append h.feed
      · omega
      · intro row hrow
        rcases (hmem row).mp hrow with ⟨hold, -⟩ | rfl
        · exact Or.inl hold
        · exact Or.inr ⟨Nat.lt_succ_self _, hseq.ge⟩
      · intro row hrow row' hrow' hbehind heq
        have hnew : ∀ r ∈ api'.items, api.seq < r.seq →
            r = ⟨itemId, baseRevision + 1, api.seq + 1, contents⟩ := by
          intro r hr hlt
          rcases (hmem r).mp hr with ⟨hold, -⟩ | hnew
          · have hle := h.feed.bounded r hold
            omega
          · exact hnew
        rw [hnew row hrow hbehind, hnew row' hrow' (heq ▸ hbehind)]
    refine ⟨⟨hwrite.ordered, fun row hrow => ?_⟩, hwrite.counter, hwrite.advances, ?_⟩
    · rcases (hmem row).mp hrow with ⟨hold, -⟩ | rfl
      · exact h.revised row hold
      · exact Nat.succ_pos _
    · intro id revision written hknows
      rw [← hput]
      exact hknows.putItem itemId

end Api

namespace Mirror

/-- What lies up to a position was applied, or is among the rows that are about to be. -/
def Covers (m : Mirror) (position : ℕ) (rows : List ItemRow) : Prop :=
  ∀ row ∈ m.world.api.items, row.seq ≤ position → row.revision ≤ m.applied row.id ∨ row ∈ rows

/-- The local copy has the newest revision of each item that was applied, unless that is its
removal. -/
def Shows (m : Mirror) (id : String) : Prop :=
  m.applied id = 0 ∧ m.world.records id = none ∨
    ∃ contents, m.world.api.Knows id (m.applied id) contents ∧
      m.world.records id = contents.map (⟨m.applied id, ·⟩)

structure Sound (m : Mirror) : Prop where
  ordered : m.world.api.Ordered
  shows : ∀ id, m.Shows id
  cursor : m.world.cursor ≤ m.world.api.seq
  covers : m.Covers m.world.cursor []

end Mirror

/-- Where a pull will be when its rows have been applied. -/
def Task.position : Task → Option ℕ
  | .fetching since _ => some since
  | .apply _ (.page cursor ..) | .store _ _ (.page cursor ..) => some cursor
  | _ => none

/-- What a task relies on while it waits. -/
structure Task.Follows (m : Mirror) (task : Task) : Prop where
  known : ∀ row ∈ task.rows, m.world.api.Knows row.id row.revision row.contents
  covers : ∀ position ∈ task.position,
    position ≤ m.world.api.seq ∧ m.Covers position task.rows
  stores : ∀ row rows after, task = .store row rows after → row.contents.isSome = true

/-- What a step can do that stores no record behind a newer one. -/
inductive Changes (m : Mirror) (task : Task) : Mirror → Prop
  | works {w : World} (hapi : w.api = m.world.api) (hrecords : w.records = m.world.records)
      (hcursor : w.cursor = m.world.cursor ∨ w.cursor ∈ task.position ∧ task.rows = []) :
      Changes m task ⟨w, m.applied⟩
  | writes {w : World} (itemId : String) (baseRevision : ℕ) (contents : Option ItemPlaintext)
      (hapi : w.api = (m.world.api.putItem itemId baseRevision contents).1)
      (hrecords : w.records = m.world.records) (hcursor : w.cursor = m.world.cursor) :
      Changes m task ⟨w, m.applied⟩
  | passes {row : ItemRow} (hrow : row ∈ task.rows)
      (hknown : (m.world.records row.id).any (row.revision ≤ ·.revision) = true) :
      Changes m task (m.note row)
  | applies {row : ItemRow} (hrow : row ∈ task.rows)
      (hnewest : m.applied row.id ≤ row.revision ∨ row.contents = none ∧
        (m.world.records row.id).any (row.revision ≤ ·.revision) = false) :
      Changes m task ⟨m.world.applied row, (m.note row).applied⟩

section Steps

variable {crates} {m m' : Mirror} {ok : Bool} {task : Task} {next : Option Task}

/-- A step is one of these changes. -/
theorem Task.proceed_changes (hfollows : task.Follows m) (hcondition : StoresNewest m ok task)
    (h : task.proceed crates m.world ok = (m'.world, next))
    (happlied : m'.applied = ((task.notes m.world ok).elim m m.note).applied) :
    Changes m task m' := by
  obtain ⟨w, applied⟩ := m'
  dsimp only at h happlied
  -- a step that neither reads a page to its end nor applies a row
  have hworks : ∀ {w' : World}, w' = w → w'.api = m.world.api → w'.records = m.world.records →
      w'.cursor = m.world.cursor → task.notes m.world ok = none → Changes m task ⟨w, applied⟩ := by
    rintro w' rfl hapi hrecords hcursor hnotes
    rw [hnotes] at happlied
    obtain rfl : applied = m.applied := happlied
    exact .works hapi hrecords (Or.inl hcursor)
  cases task with
  | pull goal => exact hworks (Prod.mk.inj h).1 rfl rfl rfl rfl
  | fetching since goal =>
    simp only [proceed] at h
    split at h
    · exact hworks (Prod.mk.inj h).1 rfl rfl rfl rfl
    · exact hworks (Prod.mk.inj h).1 rfl rfl rfl rfl
  | apply rows after =>
    cases rows with
    | nil =>
      obtain rfl : applied = m.applied := happlied
      cases after with
      | page cursor hasMore goal =>
        obtain ⟨rfl, -⟩ := Prod.mk.inj h
        exact .works rfl rfl (Or.inr ⟨rfl, rfl⟩)
      | done => exact hworks (Prod.mk.inj h).1 rfl rfl rfl rfl
    | cons row rows =>
      simp only [proceed] at h
      split at h
      · rename_i hknown
        obtain ⟨rfl, -⟩ := Prod.mk.inj h
        simp only [notes, hknown, Bool.true_or, if_true, Option.elim_some] at happlied
        subst happlied
        exact .passes List.mem_cons_self hknown
      · rename_i hnew
        split at h
        · rename_i hcontents
          obtain ⟨rfl, -⟩ := Prod.mk.inj h
          simp only [notes, hcontents, Option.isNone_none, Bool.or_true, if_true,
            Option.elim_some] at happlied
          subst happlied
          have happlies : Changes m (.apply (row :: rows) after)
              ⟨m.world.applied row, (m.note row).applied⟩ :=
            .applies List.mem_cons_self (Or.inr ⟨hcontents, by simpa using hnew⟩)
          rwa [World.applied, hcontents] at happlies
        · rename_i contents hcontents
          refine hworks (Prod.mk.inj h).1 rfl rfl rfl ?_
          simp only [notes, hcontents, Option.isNone_some, Bool.or_false, if_neg hnew]
  | store row rows after =>
    obtain ⟨rfl, hnewest⟩ := hcondition
    obtain ⟨contents, hcontents⟩ :=
      Option.isSome_iff_exists.mp (hfollows.stores row rows after rfl)
    simp only [proceed, hcontents, if_true] at h
    obtain ⟨rfl, -⟩ := Prod.mk.inj h
    simp only [notes, if_true, Option.elim_some] at happlied
    subst happlied
    have happlies : Changes m (.store row rows after)
        ⟨m.world.applied row, (m.note row).applied⟩ :=
      .applies List.mem_cons_self (Or.inl hnewest)
    rwa [World.applied, hcontents] at happlies
  | reached goal =>
    cases goal with
    | find itemId patch =>
      simp only [proceed] at h
      split at h
      · exact hworks (Prod.mk.inj h).1 rfl rfl rfl rfl
      · exact hworks (Prod.mk.inj h).1 rfl rfl rfl rfl
    | _ => exact hworks (Prod.mk.inj h).1 rfl rfl rfl rfl
  | opens number itemId patch existing =>
    simp only [proceed] at h
    split at h
    · exact hworks (Prod.mk.inj h).1 rfl rfl rfl rfl
    · exact hworks (Prod.mk.inj h).1 rfl rfl rfl rfl
  | seals number itemId patch existing fields =>
    simp only [proceed] at h
    split at h
    · exact hworks (Prod.mk.inj h).1 rfl rfl rfl rfl
    · exact hworks (Prod.mk.inj h).1 rfl rfl rfl rfl
  | sends edit itemId baseRevision contents =>
    obtain rfl : applied = m.applied := happlied
    simp only [proceed] at h
    split at h
    · split at h <;> rename_i hput <;> obtain ⟨rfl, -⟩ := Prod.mk.inj h <;>
        exact .writes itemId baseRevision contents (congrArg Prod.fst hput).symm rfl rfl
    · exact hworks (Prod.mk.inj h).1 rfl rfl rfl rfl
  | write itemId baseRevision contents =>
    obtain rfl : applied = m.applied := happlied
    obtain ⟨rfl, -⟩ := Prod.mk.inj h
    exact .writes itemId baseRevision contents rfl rfl rfl

theorem Mirror.le_note (m : Mirror) (row : ItemRow) (id : String) :
    m.applied id ≤ (m.note row).applied id := by
  rcases eq_or_ne id row.id with rfl | hne
  · simp only [note, Function.update_self, le_max_left]
  · simp only [note, Function.update_of_ne hne, le_refl]

theorem Mirror.revision_le_note (m : Mirror) (row : ItemRow) :
    row.revision ≤ (m.note row).applied row.id := by
  simp only [note, Function.update_self, le_max_right]

theorem Changes.applied_le (h : Changes m task m') (id : String) : m.applied id ≤ m'.applied id := by
  cases h with
  | passes => exact m.le_note _ id
  | applies => exact m.le_note _ id
  | _ => exact le_rfl

theorem Changes.grows (h : Changes m task m') (hordered : m.world.api.Ordered) :
    m'.world.api.Ordered ∧ m.world.api.Grows m'.world.api := by
  cases h with
  | works hapi =>
    rw [hapi]
    exact ⟨hordered, .refl _⟩
  | writes itemId baseRevision contents hapi =>
    rw [hapi]
    exact hordered.putItem itemId baseRevision contents
  | passes => exact ⟨hordered, .refl _⟩
  | applies => exact ⟨hordered, .refl _⟩

/-- What was covered stays so: a write puts its item behind the position. -/
theorem Mirror.Covers.mono {position : ℕ} {rows : List ItemRow} (h : m.Covers position rows)
    (hgrows : m.world.api.Grows m'.world.api) (happlied : ∀ id, m.applied id ≤ m'.applied id)
    (hposition : position ≤ m.world.api.seq) : m'.Covers position rows := by
  intro row hrow hle
  rcases hgrows.advances row hrow with hold | hbehind
  · exact (h row hold hle).imp_left fun hcovered => hcovered.trans (happlied row.id)
  · omega

theorem Task.Follows.mono (h : task.Follows m) (hgrows : m.world.api.Grows m'.world.api)
    (happlied : ∀ id, m.applied id ≤ m'.applied id) : task.Follows m' where
  known row hrow := hgrows.knows _ _ _ (h.known row hrow)
  covers position hposition := by
    obtain ⟨hle, hcovers⟩ := h.covers position hposition
    exact ⟨hle.trans hgrows.seq, hcovers.mono hgrows happlied hle⟩
  stores := h.stores

/-- Where the newest revision is shown, it is what the API has or had. -/
theorem Mirror.Shows.known {id : String} {r : Record} (h : m.Shows id)
    (hr : m.world.records id = some r) : r.revision = m.applied id := by
  rcases h with ⟨-, hnone⟩ | ⟨contents, -, hrecord⟩
  · rw [hnone] at hr
    cases hr
  · rw [hrecord] at hr
    obtain ⟨c, -, rfl⟩ := Option.map_eq_some_iff.mp hr
    rfl

theorem Mirror.Shows.mono {id : String} (h : m.Shows id)
    (hgrows : m.world.api.Grows m'.world.api) (happlied : m'.applied id = m.applied id)
    (hrecords : m'.world.records id = m.world.records id) : m'.Shows id := by
  unfold Shows
  rw [happlied, hrecords]
  exact h.imp_right fun ⟨contents, hknows, hrecord⟩ =>
    ⟨contents, hgrows.knows _ _ _ hknows, hrecord⟩

/-- An item is passed over when its record is as new. -/
theorem Mirror.Shows.pass {row : ItemRow} (h : m.Shows row.id)
    (hknown : (m.world.records row.id).any (row.revision ≤ ·.revision) = true) :
    (m.note row).applied row.id = m.applied row.id := by
  cases hr : m.world.records row.id with
  | none =>
    rw [hr] at hknown
    cases hknown
  | some r =>
    have hrevision := h.known hr
    rw [hr, Option.any_some, decide_eq_true_eq] at hknown
    simp only [note, Function.update_self]
    omega

/-- A row is applied that is the newest one, or the removal of an item without a record. -/
theorem Mirror.Shows.apply {row : ItemRow} (h : m.Shows row.id)
    (hknows : m.world.api.Knows row.id row.revision row.contents)
    (hnewest : m.applied row.id ≤ row.revision ∨ row.contents = none ∧
      (m.world.records row.id).any (row.revision ≤ ·.revision) = false) :
    Mirror.Shows ⟨m.world.applied row, (m.note row).applied⟩ row.id := by
  by_cases hle : m.applied row.id ≤ row.revision
  · refine Or.inr ⟨row.contents, ?_, ?_⟩
    · simp only [note, Function.update_self, max_eq_right hle]
      exact hknows
    · simp only [World.applied, note, Function.update_self, max_eq_right hle]
  · -- the removal of an older revision, where nothing is shown
    obtain ⟨hremoved, hnew⟩ := hnewest.resolve_left hle
    have hnone : m.world.records row.id = none := by
      cases hr : m.world.records row.id with
      | none => rfl
      | some r =>
        have hrevision := h.known hr
        rw [hr, Option.any_some, decide_eq_false_iff_not] at hnew
        omega
    have hsame : Mirror.Shows ⟨m.world.applied row, m.applied⟩ row.id := by
      refine h.mono (.refl _) rfl ?_
      simp only [World.applied, Function.update_self, hremoved, hnone, Option.map_none]
    have hnote : (m.note row).applied row.id = m.applied row.id := by
      simp only [note, Function.update_self]
      omega
    exact hsame.mono (.refl _) hnote rfl

/-- A step that stores nothing behind a newer record keeps the copy sound. -/
theorem Mirror.Sound.step (hsound : m.Sound) (hfollows : task.Follows m) (h : Changes m task m') :
    m'.Sound := by
  obtain ⟨hordered, hgrows⟩ := h.grows hsound.ordered
  have hcovers : ∀ {position rows}, position ≤ m.world.api.seq → m.Covers position rows →
      m'.Covers position rows := fun hle hcovers => hcovers.mono hgrows h.applied_le hle
  have hcursor : m'.world.cursor ≤ m'.world.api.seq ∧ m'.Covers m'.world.cursor [] := by
    have hkept : m'.world.cursor = m.world.cursor →
        m'.world.cursor ≤ m'.world.api.seq ∧ m'.Covers m'.world.cursor [] := by
      intro hsame
      rw [hsame]
      exact ⟨hsound.cursor.trans hgrows.seq, hcovers hsound.cursor hsound.covers⟩
    cases h with
    | works hapi hrecords hcursor =>
      rcases hcursor with hsame | ⟨hposition, hrows⟩
      · exact hkept hsame
      · obtain ⟨hle, hcovered⟩ := hfollows.covers _ hposition
        rw [hrows] at hcovered
        exact ⟨hle.trans hgrows.seq, hcovers hle hcovered⟩
    | writes _ _ _ hapi hrecords hcursor => exact hkept hcursor
    | passes => exact hkept rfl
    | applies => exact hkept rfl
  refine ⟨hordered, fun id => ?_, hcursor.1, hcursor.2⟩
  cases h with
  | works hapi hrecords => exact (hsound.shows id).mono hgrows rfl (congrFun hrecords id)
  | writes _ _ _ hapi hrecords => exact (hsound.shows id).mono hgrows rfl (congrFun hrecords id)
  | @passes row hrow hknown =>
    rcases eq_or_ne id row.id with rfl | hne
    · exact (hsound.shows row.id).mono hgrows ((hsound.shows row.id).pass hknown) rfl
    · exact (hsound.shows id).mono hgrows (Function.update_of_ne hne ..) rfl
  | @applies row hrow hnewest =>
    rcases eq_or_ne id row.id with rfl | hne
    · exact (hsound.shows row.id).apply (hfollows.known row hrow) hnewest
    · exact (hsound.shows id).mono hgrows (Function.update_of_ne hne ..)
        (Function.update_of_ne hne ..)

theorem Task.follows_of_idle (hrows : task.rows = []) (hposition : task.position = none) :
    task.Follows m := by
  refine ⟨?_, ?_, ?_⟩
  · rw [hrows]
    rintro row ⟨⟩
  · rw [hposition]
    rintro position ⟨⟩
  · rintro row rows after rfl
    cases hrows

/-- A step is done with the first row. -/
theorem Task.Follows.rest {row : ItemRow} {rows : List ItemRow} {after : After}
    (h : task.Follows m) (hrows : task.rows = row :: rows)
    (hposition : (Task.apply rows after).position = task.position)
    (hdone : row.revision ≤ m.applied row.id) : (Task.apply rows after).Follows m where
  known r hr := h.known r (by rw [hrows]; exact List.mem_cons_of_mem _ hr)
  covers position hmem := by
    obtain ⟨hle, hcovers⟩ := h.covers position (hposition ▸ hmem)
    refine ⟨hle, fun r hr hseq => ?_⟩
    rcases hcovers r hr hseq with hcovered | hpending
    · exact Or.inl hcovered
    · rw [hrows] at hpending
      rcases List.mem_cons.mp hpending with rfl | hpending
      · exact Or.inl hdone
      · exact Or.inr hpending
  stores _ _ _ h := by cases h

/-- A page is fetched. -/
theorem Mirror.Sound.fetch (hsound : m.Sound) {since : ℕ} {hasMore : Bool} {goal : Goal}
    (hle : since ≤ m.world.api.seq) (hcovers : m.Covers since []) :
    (Task.apply (m.world.api.sync since).items
      (.page (m.world.api.sync since).cursor hasMore goal)).Follows m := by
  have hitems : (m.world.api.sync since).items =
      Feed.page ItemRow.seq m.world.api.items.rows since Api.maxSyncPage := Feed.take_page
  have hcursor : (m.world.api.sync since).cursor =
      Feed.cursor ItemRow.seq (m.world.api.sync since).items since := rfl
  refine ⟨fun row hrow => Api.knows_of_mem_sync hrow, ?_, fun _ _ _ h => by cases h⟩
  rintro position ⟨⟩
  constructor
  · rw [hcursor, hitems]
    rcases Feed.cursor_le since Api.maxSyncPage hsound.ordered.feed.bounded with heq | hlast
    · omega
    · exact hlast
  · intro row hrow hseq
    by_cases hbefore : row.seq ≤ since
    · exact (hcovers row hrow hbefore).imp_right fun hmem => by cases hmem
    · refine Or.inr ?_
      rw [hcursor, hitems] at hseq
      change row ∈ (m.world.api.sync since).items
      rw [hitems]
      exact Feed.mem_page_of_le_cursor hsound.ordered.feed.distinct hrow (by omega) hseq

/-- A step leads to what the next one relies on. -/
theorem Task.follows_of_proceed {n : Task} (hsound : m.Sound) (hfollows : task.Follows m)
    (hcondition : StoresNewest m ok task)
    (h : task.proceed crates m.world ok = (m'.world, some n))
    (happlied : m'.applied = ((task.notes m.world ok).elim m m.note).applied) : n.Follows m' := by
  have hchanges := proceed_changes hfollows hcondition h happlied
  obtain ⟨-, hgrows⟩ := hchanges.grows hsound.ordered
  have hkept : task.Follows m' := hfollows.mono hgrows hchanges.applied_le
  cases task with
  | pull goal =>
    obtain ⟨hworld, hn⟩ := Prod.mk.inj h
    obtain rfl := Option.some_inj.mp hn
    have hsound' := hsound.step hfollows hchanges
    refine ⟨?_, ?_, fun _ _ _ h => by cases h⟩
    · rintro row ⟨⟩
    · rintro position ⟨⟩
      rw [hworld]
      exact ⟨hsound'.cursor, hsound'.covers⟩
  | fetching since goal =>
    simp only [proceed] at h
    split at h
    · obtain ⟨hworld, hn⟩ := Prod.mk.inj h
      obtain rfl := Option.some_inj.mp hn
      obtain ⟨hle, hcovers⟩ := hfollows.covers since rfl
      exact (hsound.fetch hle hcovers).mono hgrows hchanges.applied_le
    · cases (Prod.mk.inj h).2
  | apply rows after =>
    cases rows with
    | nil =>
      cases after with
      | page cursor hasMore goal =>
        obtain rfl := Option.some_inj.mp (Prod.mk.inj h).2
        cases hasMore with
        | true => exact follows_of_idle rfl rfl
        | false => exact follows_of_idle rfl rfl
      | done => cases (Prod.mk.inj h).2
    | cons row rows =>
      have hposition : (Task.apply rows after).position = (Task.apply (row :: rows) after).position := by
        cases after <;> rfl
      simp only [proceed] at h
      split at h
      · rename_i hknown
        obtain rfl := Option.some_inj.mp (Prod.mk.inj h).2
        refine hkept.rest rfl hposition ?_
        simp only [notes, hknown, Bool.true_or, if_true, Option.elim_some] at happlied
        rw [happlied]
        exact m.revision_le_note row
      · split at h
        · rename_i hcontents
          obtain rfl := Option.some_inj.mp (Prod.mk.inj h).2
          refine hkept.rest rfl hposition ?_
          simp only [notes, hcontents, Option.isNone_none, Bool.or_true, if_true,
            Option.elim_some] at happlied
          rw [happlied]
          exact m.revision_le_note row
        · rename_i contents hcontents
          obtain rfl := Option.some_inj.mp (Prod.mk.inj h).2
          refine ⟨hkept.known, fun position hmem => ?_, ?_⟩
          · refine hkept.covers position ?_
            cases after <;> exact hmem
          · rintro row' rows' after' heq
            obtain ⟨rfl, -⟩ := Task.store.inj heq
            rw [hcontents, Option.isSome_some]
  | store row rows after =>
    obtain rfl := Option.some_inj.mp (Prod.mk.inj h).2
    have hposition : (Task.apply rows after).position = (Task.store row rows after).position := by
      cases after <;> rfl
    refine hkept.rest rfl hposition ?_
    obtain ⟨rfl, -⟩ := hcondition
    simp only [notes, if_true, Option.elim_some] at happlied
    rw [happlied]
    exact m.revision_le_note row
  | reached goal =>
    cases goal with
    | find itemId patch =>
      simp only [proceed] at h
      split at h
      · cases (Prod.mk.inj h).2
      · obtain rfl := Option.some_inj.mp (Prod.mk.inj h).2
        exact follows_of_idle rfl rfl
    | upload edit itemId sealed =>
      obtain rfl := Option.some_inj.mp (Prod.mk.inj h).2
      exact follows_of_idle rfl rfl
    | delete itemId =>
      obtain ⟨existing, -, rfl⟩ := Option.map_eq_some_iff.mp (Prod.mk.inj h).2
      exact follows_of_idle rfl rfl
    | list => cases (Prod.mk.inj h).2
  | opens number itemId patch existing =>
    simp only [proceed] at h
    split at h
    · obtain rfl := Option.some_inj.mp (Prod.mk.inj h).2
      exact follows_of_idle rfl rfl
    · cases (Prod.mk.inj h).2
  | seals number itemId patch existing fields =>
    simp only [proceed] at h
    split at h
    · obtain rfl := Option.some_inj.mp (Prod.mk.inj h).2
      exact follows_of_idle rfl rfl
    · cases (Prod.mk.inj h).2
  | sends edit itemId baseRevision contents =>
    -- what the API answers is the item as it is
    have hanswer : ∀ {row : ItemRow}, m'.world.api.items.find itemId = some row →
        (Task.apply [row] .done).Follows m' := by
      intro row hfind
      refine ⟨fun r hr => ?_, ?_, fun _ _ _ h => by cases h⟩
      · obtain rfl := List.mem_singleton.mp hr
        exact Api.knows_of_find hfind
      · rintro position ⟨⟩
    simp only [proceed] at h
    split at h
    · rcases Api.putItem_cases m.world.api itemId baseRevision contents with
        ⟨error, hput, -⟩ | ⟨api, row, hput, -, -, -, -, hfind⟩
      · have hcurrent := Api.find_of_putItem_error (congrArg Prod.snd hput)
        rw [hput] at h
        obtain ⟨hworld, hn⟩ := Prod.mk.inj h
        obtain ⟨row, hrow, rfl⟩ := Option.map_eq_some_iff.mp hn
        refine hanswer ?_
        rw [← hworld]
        exact hcurrent row hrow
      · rw [hput] at h
        obtain ⟨hworld, hn⟩ := Prod.mk.inj h
        obtain rfl := Option.some_inj.mp hn
        refine hanswer ?_
        rw [← hworld]
        exact (hfind itemId).trans (if_pos rfl)
    · cases (Prod.mk.inj h).2
  | write itemId baseRevision contents => cases (Prod.mk.inj h).2

end Steps

theorem copyOutline (crates : Crates) :
    Outline (copyProgram crates StoresNewest) Mirror.Sound (fun m task => task.Follows m)
      fun _ _ => True := by
  refine .of_free ?_ ?_ ?_ ?_
  · intro m task _ hstart
    apply Task.follows_of_idle
    · cases task with
      | pull | write | sends => rfl
      | _ => cases hstart
    · cases task with
      | pull | write | sends => rfl
      | _ => cases hstart
  · rintro m task m' next hsound hfollows ⟨ok, hcondition, h, happlied⟩
    exact hsound.step hfollows (Task.proceed_changes hfollows hcondition h happlied)
  · rintro m task m' next hsound hfollows ⟨ok, hcondition, h, happlied⟩
    exact Task.follows_of_proceed hsound hfollows hcondition h happlied
  · rintro m task m' next u hsound hfollows hu ⟨ok, hcondition, h, happlied⟩
    have hchanges := Task.proceed_changes hfollows hcondition h happlied
    exact hu.mono (hchanges.grows hsound.ordered).2 hchanges.applied_le

section Alone

variable {crates} {m : Mirror}

/-- A task comes to another one by itself, without a write. -/
structure Comes (crates : Crates) (m : Mirror) (task : Task) (m' : Mirror) (task' : Task) : Prop where
  sound : m'.Sound
  follows : task'.Follows m'
  api : m'.world.api = m.world.api
  applied : ∀ id, m.applied id ≤ m'.applied id
  runs : ∃ n, ∀ k, runsAlone crates m.world (n + k) task = runsAlone crates m'.world k task'

theorem Comes.refl (hsound : m.Sound) {task : Task} (hfollows : task.Follows m) :
    Comes crates m task m task :=
  ⟨hsound, hfollows, rfl, fun _ => le_rfl, 0, fun k => by rw [Nat.zero_add]⟩

theorem Comes.trans {m' m'' : Mirror} {task task' task'' : Task}
    (h : Comes crates m task m' task') (h' : Comes crates m' task' m'' task'') :
    Comes crates m task m'' task'' := by
  obtain ⟨n, hruns⟩ := h.runs
  obtain ⟨n', hruns'⟩ := h'.runs
  refine ⟨h'.sound, h'.follows, h'.api.trans h.api, fun id => (h.applied id).trans (h'.applied id),
    n + n', fun k => ?_⟩
  rw [Nat.add_assoc, hruns, hruns']

/-- One step. -/
theorem Comes.step {task task' : Task} {w : World} (hsound : m.Sound) (hfollows : task.Follows m)
    (hcondition : StoresNewest m true task) (hapi : w.api = m.world.api)
    (h : task.proceed crates m.world true = (w, some task')) :
    Comes crates m task ⟨w, ((task.notes m.world true).elim m m.note).applied⟩ task' := by
  have hchanges : Changes m task ⟨w, ((task.notes m.world true).elim m m.note).applied⟩ :=
    Task.proceed_changes hfollows hcondition h rfl
  refine ⟨hsound.step hfollows hchanges,
    Task.follows_of_proceed hsound hfollows hcondition h rfl, hapi, hchanges.applied_le, 1,
    fun k => ?_⟩
  rw [Nat.add_comm, runsAlone, h]

/-- The end of a page. -/
theorem Comes.turn {cursor : ℕ} {hasMore : Bool} {goal : Goal} (hsound : m.Sound)
    (hfollows : (Task.apply [] (.page cursor hasMore goal)).Follows m) :
    Comes crates m (.apply [] (.page cursor hasMore goal)) ⟨{ m.world with cursor }, m.applied⟩
      (if hasMore then .pull goal else .reached goal) :=
  .step hsound hfollows trivial rfl rfl

/-- What was applied of an item is no newer than the item. -/
theorem Mirror.Sound.applied_le (hsound : m.Sound) {row : ItemRow}
    (hrow : row ∈ m.world.api.items) : m.applied row.id ≤ row.revision := by
  rcases hsound.shows row.id with ⟨hnone, -⟩ | ⟨contents, ⟨row', hfind, hrevision⟩, -⟩
  · rw [hnone]
    exact Nat.zero_le _
  · rw [Table.find_eq_some.mpr ⟨hrow, rfl⟩] at hfind
    obtain rfl := Option.some_inj.mp hfind
    omega

/-- The rows of a page are applied. -/
theorem comes_apply (crates : Crates) {rows : List ItemRow} {after : After} (hsound : m.Sound)
    (hfollows : (Task.apply rows after).Follows m) (hrows : ∀ row ∈ rows, row ∈ m.world.api.items) :
    ∃ m', Comes crates m (.apply rows after) m' (.apply [] after) ∧
      ∀ row ∈ rows, row.revision ≤ m'.applied row.id := by
  induction rows generalizing m with
  | nil => exact ⟨m, .refl hsound hfollows, fun row hrow => by cases hrow⟩
  | cons row rows ih =>
    -- the first row, and then the others
    have hfirst : ∃ m', Comes crates m (.apply (row :: rows) after) m' (.apply rows after) ∧
        row.revision ≤ m'.applied row.id := by
      by_cases hknown : (m.world.records row.id).any (row.revision ≤ ·.revision) = true
      · have hproceed : (Task.apply (row :: rows) after).proceed crates m.world true =
            (m.world, some (.apply rows after)) := by
          rw [Task.proceed, if_pos hknown]
        refine ⟨_, .step hsound hfollows trivial rfl hproceed, ?_⟩
        simp only [Task.notes, hknown, Bool.true_or, if_true, Option.elim_some]
        exact m.revision_le_note row
      · cases hcontents : row.contents with
        | none =>
          have hproceed : (Task.apply (row :: rows) after).proceed crates m.world true =
              ({ m.world with records := update m.world.records row.id none },
                some (.apply rows after)) := by
            rw [Task.proceed, if_neg hknown, hcontents]
          refine ⟨_, .step hsound hfollows trivial ?_ hproceed, ?_⟩
          · rfl
          · simp only [Task.notes, hcontents, Option.isNone_none, Bool.or_true, if_true,
              Option.elim_some]
            exact m.revision_le_note row
        | some contents =>
          have hproceed : (Task.apply (row :: rows) after).proceed crates m.world true =
              (m.world, some (.store row rows after)) := by
            rw [Task.proceed, if_neg hknown, hcontents]
          have hcomes := Comes.step hsound hfollows trivial rfl hproceed
          have hnotes : (Task.apply (row :: rows) after).notes m.world true = none := by
            simp only [Task.notes, hcontents, Option.isNone_some, Bool.or_false, if_neg hknown]
          rw [hnotes] at hcomes
          have hproceed' : (Task.store row rows after).proceed crates m.world true =
              ({ m.world with
                  records := update m.world.records row.id (some ⟨row.revision, contents⟩) },
                some (.apply rows after)) := by
            rw [Task.proceed, hcontents]
            rfl
          have hnewest := hsound.applied_le (hrows row List.mem_cons_self)
          refine ⟨_, hcomes.trans (.step hsound hcomes.follows ⟨rfl, hnewest⟩ ?_ hproceed'), ?_⟩
          · rfl
          · exact m.revision_le_note row
    obtain ⟨m', hcomes, hdone⟩ := hfirst
    obtain ⟨m'', hcomes', hothers⟩ := ih hcomes.sound hcomes.follows fun r hr => by
      rw [hcomes.api]
      exact hrows r (List.mem_cons_of_mem _ hr)
    refine ⟨m'', hcomes.trans hcomes', fun r hr => ?_⟩
    rcases List.mem_cons.mp hr with rfl | hr
    · exact hdone.trans (hcomes'.applied r.id)
    · exact hothers r hr

/-- A pull that nothing interrupts ends, and has applied every item. -/
theorem comes_pull (crates : Crates) (goal : Goal) (hsound : m.Sound) :
    ∃ m', Comes crates m (.pull goal) m' (.reached goal) ∧
      ∀ row ∈ m'.world.api.items, row.revision ≤ m'.applied row.id := by
  induction hleft : m.world.api.seq - m.world.cursor using Nat.strongRecOn generalizing m with
  | ind left ih =>
    have hidle : (Task.pull goal).Follows m := Task.follows_of_idle rfl rfl
    have hpull : Comes crates m (.pull goal) m (.fetching m.world.cursor goal) :=
      .step hsound hidle trivial rfl rfl
    generalize hpage : m.world.api.sync m.world.cursor = page
    have hfetch : Comes crates m (.fetching m.world.cursor goal) m
        (.apply page.items (.page page.cursor page.hasMore goal)) := by
      refine .step hsound hpull.follows trivial rfl ?_
      rw [Task.proceed, if_pos rfl, hpage]
    have hitems : page.items =
        Feed.page ItemRow.seq m.world.api.items.rows m.world.cursor Api.maxSyncPage := by
      rw [← hpage]
      exact Feed.take_page
    obtain ⟨m', happly, hdone⟩ := comes_apply crates hsound hfetch.follows fun row hrow => by
      rw [hitems] at hrow
      exact (Feed.mem_of_mem_page hrow).1
    have hsound' := happly.sound
    have hfollows' := happly.follows
    have hapi := happly.api
    have hthrough := (hpull.trans hfetch).trans happly
    cases hmore : page.hasMore with
    | true =>
      rw [hmore] at hthrough hfollows'
      have hnext : Comes crates m' _ _ _ := .turn hsound' hfollows'
      have hsound'' := hnext.sound
      have hforward : m.world.cursor < page.cursor := by
        rw [← hpage] at hmore ⊢
        have hlength := of_decide_eq_true hmore
        have hlt := Feed.lt_cursor_of_more (by decide) hlength
        rwa [← Feed.take_page] at hlt
      have hbounded : page.cursor ≤ m.world.api.seq := by
        rw [← hapi]
        exact hsound''.cursor
      have hless : m'.world.api.seq - page.cursor < left := by
        rw [hapi]
        omega
      obtain ⟨m'', hlast, hall⟩ := ih _ hless hsound'' rfl
      exact ⟨m'', (hthrough.trans hnext).trans hlast, hall⟩
    | false =>
      rw [hmore] at hthrough hfollows'
      have hnext : Comes crates m' _ _ _ := .turn hsound' hfollows'
      refine ⟨_, hthrough.trans hnext, fun row hrow => ?_⟩
      have hlength : (Feed.page ItemRow.seq m.world.api.items.rows m.world.cursor
          (Api.maxSyncPage + 1)).length ≤ Api.maxSyncPage := by
        rw [← hpage] at hmore
        exact Nat.le_of_not_lt (of_decide_eq_false hmore)
      have hrow : row ∈ m.world.api.items := by
        rw [← hapi]
        exact hrow
      by_cases hbefore : row.seq ≤ m.world.cursor
      · rcases hsound.covers row hrow hbefore with hcovered | hmem
        · exact hcovered.trans (happly.applied row.id)
        · cases hmem
      · refine hdone row ?_
        rw [hitems]
        exact Feed.mem_page_of_last hlength hrow (by omega)

/-- When the newest revision of every item was applied, the copy is as the API is. -/
theorem Mirror.Sound.mirrors (hsound : m.Sound)
    (hall : ∀ row ∈ m.world.api.items, row.revision ≤ m.applied row.id) : m.world.Mirrors := by
  intro id
  cases hfind : m.world.api.items.find id with
  | none =>
    rcases hsound.shows id with ⟨-, hnone⟩ | ⟨contents, ⟨row, hrow, -⟩, -⟩
    · exact hnone
    · rw [hfind] at hrow
      cases hrow
  | some row =>
    obtain ⟨hrow, rfl⟩ := Table.find_eq_some.mp hfind
    have hrevision := le_antisymm (hall row hrow) (hsound.applied_le hrow)
    have hpositive := hsound.ordered.revised row hrow
    rcases hsound.shows row.id with ⟨hzero, -⟩ | ⟨contents, ⟨row', hfind', hknown⟩, hrecord⟩
    · omega
    · rw [hfind] at hfind'
      obtain rfl := Option.some_inj.mp hfind'
      obtain ⟨-, rfl⟩ := hknown.resolve_left (by omega)
      rw [hrecord, Option.bind_some, ItemRow.live, hrevision]

end Alone

/-- A vault without items, and nothing pulled of it. -/
def Mirror.initial : Mirror := ⟨.initial ⟨.empty, 0⟩, fun _ => 0⟩

theorem Mirror.sound_initial : Mirror.initial.Sound := by
  have hempty : ∀ row, row ∉ Mirror.initial.world.api.items := fun row h => by cases h
  refine ⟨⟨⟨?_, ?_, ?_⟩, ?_⟩, fun id => Or.inl ⟨rfl, rfl⟩, le_rfl, ?_⟩
  all_goals exact fun row hrow => absurd hrow (hempty row)

/-- In every run in which each stored record is readable and newer than what was applied of its
item, a further pull that runs alone ends, and leaves the live items of the API in the copy. -/
theorem pull_converges (crates : Crates) {m : Mirror}
    (hrun : Run (copyProgram crates StoresNewest) ⟨.initial, []⟩ ⟨m, []⟩) :
    ∃ n w, (∀ k, n ≤ k → runsAlone crates m.world k (.pull .list) = some w) ∧
      w.api = m.world.api ∧ w.Mirrors := by
  have hholds := (copyOutline crates).run_idle Mirror.sound_initial hrun
  obtain ⟨m', hcomes, hall⟩ := comes_pull crates .list hholds.inv
  obtain ⟨n, hruns⟩ := hcomes.runs
  refine ⟨n + 1, m'.world, fun k hk => ?_, hcomes.api, hcomes.sound.mirrors hall⟩
  obtain ⟨k', rfl⟩ := Nat.exists_eq_add_of_le hk
  rw [Nat.add_assoc, hruns, Nat.add_comm]
  rfl

section Runs

variable {crates} {condition : Mirror → Bool → Task → Prop} {s : Concurrent.System Mirror Task}
  {m : Mirror} {w' : World} {task other : Task} {next : Option Task} {rest : List Task}

theorem copy_proceeds (ok : Bool) (h : Run (copyProgram crates condition) s ⟨m, task :: rest⟩)
    (hproceed : task.proceed crates m.world ok = (w', next)) (hcondition : condition m ok task) :
    Run (copyProgram crates condition) s
      ⟨⟨w', ((task.notes m.world ok).elim m m.note).applied⟩, next.toList ++ rest⟩ := by
  have hact : (copyProgram crates condition).act m task
      ⟨w', ((task.notes m.world ok).elim m m.note).applied⟩ next := ⟨ok, hcondition, hproceed, rfl⟩
  exact h.proceeds hact

/-- The task that started before the last one goes on. -/
theorem copy_proceeds_under (ok : Bool)
    (h : Run (copyProgram crates condition) s ⟨m, other :: task :: rest⟩)
    (hproceed : task.proceed crates m.world ok = (w', next)) (hcondition : condition m ok task) :
    Run (copyProgram crates condition) s
      ⟨⟨w', ((task.notes m.world ok).elim m m.note).applied⟩,
        other :: (next.toList ++ rest)⟩ := by
  have hact : (copyProgram crates condition).act m task
      ⟨w', ((task.notes m.world ok).elim m m.note).applied⟩ next := ⟨ok, hcondition, hproceed, rfl⟩
  exact h.proceeds_under hact

end Runs

/-- A login is written by another device and pulled. -/
theorem pull_converges_pulled : ∃ m,
    Run (copyProgram plainCrates StoresNewest) ⟨.initial, []⟩ ⟨m, []⟩ ∧
      m.world.records "a" = some ⟨1, ⟨"Mail", "me", "old", [], "", "", none, none⟩⟩ ∧
      ∃ n w, (∀ k, n ≤ k → runsAlone plainCrates m.world k (.pull .list) = some w) ∧
        w.api = m.world.api ∧ w.Mirrors := by
  have hinitial : Run (copyProgram plainCrates StoresNewest) ⟨.initial, []⟩ ⟨.initial, []⟩ := .refl
  have hwrite := hinitial.starts
    (.write "a" 0 (some ⟨"Mail", "me", "old", [], "", "", none, none⟩)) rfl
  have hwritten := copy_proceeds true hwrite rfl trivial
  have hpull := hwritten.starts (.pull .list) rfl
  have hfetching := copy_proceeds true hpull rfl trivial
  have happly := copy_proceeds true hfetching rfl trivial
  have hstore := copy_proceeds true happly rfl trivial
  have hstored := copy_proceeds true hstore rfl ⟨rfl, Nat.zero_le _⟩
  have hpulled := copy_proceeds true hstored rfl trivial
  have hdone := copy_proceeds true hpulled rfl trivial
  exact ⟨_, hdone, rfl, pull_converges plainCrates hdone⟩

/-- A pull waits for the summary of a login. Another device removes that login and adds one, and
an overlapping pull applies the removal before it waits for the summary of the new one. The
removed login is stored after that, and no later pull removes it. -/
theorem pull_diverges : ∃ m,
    Run (copyProgram plainCrates fun _ _ _ => True) ⟨.initial, []⟩ ⟨m, []⟩ ∧
      ∃ w, runsAlone plainCrates m.world 4 (.pull .list) = some w ∧ w.api = m.world.api ∧
        w.records "a" = some ⟨1, ⟨"Mail", "me", "old", [], "", "", none, none⟩⟩ ∧
        (w.api.items.find "a").map ItemRow.live = some none ∧ ¬ w.Mirrors := by
  have hinitial : Run (copyProgram plainCrates fun _ _ _ => True) ⟨.initial, []⟩ ⟨.initial, []⟩ :=
    .refl
  have hwrite := hinitial.starts
    (.write "a" 0 (some ⟨"Mail", "me", "old", [], "", "", none, none⟩)) rfl
  have hwritten := copy_proceeds true hwrite rfl trivial
  have hpull := hwritten.starts (.pull .list) rfl
  have hfetching := copy_proceeds true hpull rfl trivial
  have happly := copy_proceeds true hfetching rfl trivial
  have hstore := copy_proceeds true happly rfl trivial
  have hremove := hstore.starts (.write "a" 1 none) rfl
  have hremoved := copy_proceeds true hremove rfl trivial
  have hadd := hremoved.starts
    (.write "b" 0 (some ⟨"Post", "me", "new", [], "", "", none, none⟩)) rfl
  have hadded := copy_proceeds true hadd rfl trivial
  have hpull' := hadded.starts (.pull .list) rfl
  have hfetching' := copy_proceeds true hpull' rfl trivial
  have happly' := copy_proceeds true hfetching' rfl trivial
  have hgone := copy_proceeds true happly' rfl trivial
  have hstore' := copy_proceeds true hgone rfl trivial
  -- the summary of the removed login arrives
  have hstored := copy_proceeds_under true hstore' rfl trivial
  have hpulled := copy_proceeds_under true hstored rfl trivial
  have hfirst := copy_proceeds_under true hpulled rfl trivial
  have hstored' := copy_proceeds true hfirst rfl trivial
  have hpulled' := copy_proceeds true hstored' rfl trivial
  have hdone := copy_proceeds true hpulled' rfl trivial
  refine ⟨_, hdone, _, rfl, rfl, rfl, rfl, fun hmirrors => ?_⟩
  have hrecord := hmirrors "a"
  cases hrecord

end Zvault.Vault
