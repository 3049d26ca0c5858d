import Zvault.Vault.Store
import Zvault.Versions.Record

/-!
# Earlier versions of an item

What the calls of the vault store do to one item and its versions is what happens to a
record. Only accepted writes count its revisions, each based on the one before.
-/

namespace Zvault.VaultStore

open Relational Versions

/-- The item and its versions. -/
def recordOf (db : VaultDb) (vaultId itemId : Uuid) : Record ItemBlobs where
  revision := ((db.vaultItems.find (vaultId, itemId)).map VaultItemRow.revision).getD 0
  content := (db.vaultItems.find (vaultId, itemId)).bind VaultItemRow.blobs
  kept k := (db.vaultItemVersions.find (vaultId, itemId, k)).map fun v =>
    ⟨v.encryptedKey, v.encryptedData⟩

/-- A statement or transaction of the store. What is purged was looked for earlier. -/
inductive Call
  | put (w : ItemWrite)
  | purge (vaultId : Uuid) (deleted : List Uuid)
  | purgeExpired (before : Timestamp)

def serve (db : VaultDb) : Call → VaultDb
  | .put w => (putItem db w).2
  | .purge vaultId deleted => purgeVersions db vaultId deleted
  | .purgeExpired before => purgeExpired db before

def ItemWriteResult.isOk : ItemWriteResult → Bool
  | .ok _ => true
  | _ => false

/-- The item was deleted before. -/
def IsExpired (db : VaultDb) (vaultId itemId : Uuid) (before : Timestamp) : Prop :=
  ∃ row ∈ db.vaultItems.find (vaultId, itemId), row.deleted = true ∧ row.updatedAt < before

instance (db : VaultDb) (vaultId itemId : Uuid) (before : Timestamp) :
    Decidable (IsExpired db vaultId itemId before) :=
  inferInstanceAs (Decidable (∃ row ∈ _, _))

/-- What a call means for an item. -/
def events (vaultId itemId : Uuid) (db : VaultDb) : Call → List (Event ItemBlobs)
  | .put w =>
    if (w.vaultId, w.itemId) = (vaultId, itemId) ∧ (ItemWriteResult.isOk (putItem db w).1) then
      [.write w.blobs]
    else []
  | .purge vaultId' deleted => if vaultId' = vaultId ∧ itemId ∈ deleted then [.purge] else []
  | .purgeExpired before => if IsExpired db vaultId itemId before then [.purge] else []

variable {db : VaultDb} {w : ItemWrite} {vaultId itemId : Uuid}

/-- A write is refused and changes nothing, or replaces the item with its next revision. -/
theorem putItem_cases (db : VaultDb) (w : ItemWrite) :
    (ItemWriteResult.isOk (putItem db w).1 = false ∧ (putItem db w).2 = db) ∨
      ∃ seq versions, (putItem db w).1 = .ok (toItem (writtenItem w seq)) ∧
        (recordOf db w.vaultId w.itemId).revision = w.baseRevision ∧
        (∀ key, (putItem db w).2.vaultItems.find key =
          if (w.vaultId, w.itemId) = key then some (writtenItem w seq)
          else db.vaultItems.find key) ∧
        (putItem db w).2.vaultItemVersions = versions ∧
        some versions = match (db.vaultItems.find (w.vaultId, w.itemId)).bind fun c =>
          c.blobs.map fun blobs => (c, blobs) with
          | none => some db.vaultItemVersions
          | some (c, blobs) => keepVersion db.vaultItemVersions c blobs := by
  unfold putItem
  split
  · exact Or.inl ⟨rfl, rfl⟩
  · rename_i vault hvault
    dsimp only
    split
    · exact Or.inl ⟨rfl, rfl⟩
    · rename_i hbase
      split
      · exact Or.inl ⟨rfl, rfl⟩
      · rename_i versions hversions
        refine Or.inr ⟨vault.seq + 1, versions, rfl, not_not.mp hbase, fun key => ?_, rfl,
          hversions.symm⟩
        refine Table.find_upsert (fun r hr => ?_) key
        obtain ⟨hvaultId, hid⟩ := Prod.mk.inj hr
        rw [hvaultId, hid]

theorem blobs_writtenItem (w : ItemWrite) (seq : ℕ) : (writtenItem w seq).blobs = w.blobs := by
  cases hblobs : w.blobs with
  | none => simp only [VaultItemRow.blobs, writtenItem, hblobs, Option.isNone_none]
  | some blobs =>
    simp only [VaultItemRow.blobs, writtenItem, hblobs, Option.isNone_some, Option.map_some]

/-- The versions that a write leaves: the new one, and of its item those within the limit. -/
theorem find_keepVersion {versions versions' : Table VaultItemVersionRow.key} {c : VaultItemRow}
    {blobs : ItemBlobs} (h : keepVersion versions c blobs = some versions') (k : ℕ) :
    versions'.find (vaultId, itemId, k) =
      if (c.vaultId, c.id) = (vaultId, itemId) then
        if k = c.revision then
          some ⟨c.vaultId, c.id, c.revision, blobs.encryptedKey, blobs.encryptedData, c.updatedAt⟩
        else if k + maxVersionsPerRecord ≤ c.revision then none
        else versions.find (vaultId, itemId, k)
      else versions.find (vaultId, itemId, k) := by
  obtain ⟨inserted, hinsert, rfl⟩ := Option.map_eq_some_iff.mp h
  obtain ⟨hnew, rfl⟩ := Table.insertAll_singleton hinsert
  have hgone : ∀ v : VaultItemVersionRow, v.key = (vaultId, itemId, k) →
      (decide (v.vaultId = c.vaultId ∧ v.itemId = c.id ∧
        v.revision + maxVersionsPerRecord ≤ c.revision) = true ↔
          (c.vaultId, c.id) = (vaultId, itemId) ∧ k + maxVersionsPerRecord ≤ c.revision) := by
    intro v hv
    simp only [VaultItemVersionRow.key, Prod.mk.injEq] at hv
    obtain ⟨rfl, rfl, rfl⟩ := hv
    rw [decide_eq_true_eq, Prod.mk.injEq, eq_comm, @eq_comm _ v.itemId, and_assoc]
  have hkey : VaultItemVersionRow.key ⟨c.vaultId, c.id, c.revision, blobs.encryptedKey,
      blobs.encryptedData, c.updatedAt⟩ = (c.vaultId, c.id, c.revision) := rfl
  rw [Table.find_delete_iff hgone, Table.find_insertNew hnew, hkey]
  by_cases hitem : (c.vaultId, c.id) = (vaultId, itemId)
  · obtain ⟨rfl, rfl⟩ := Prod.mk.inj hitem
    rw [if_pos rfl]
    by_cases hk : k = c.revision
    · subst hk
      have hlimit : ¬ c.revision + maxVersionsPerRecord ≤ c.revision := by
        simp [maxVersionsPerRecord]
      rw [if_neg fun h => hlimit h.2, if_pos rfl, if_pos rfl]
    · rw [if_neg hk, if_neg fun heq => hk (Prod.mk.inj (Prod.mk.inj heq).2).2.symm]
      simp only [true_and]
  · rw [if_neg fun h => hitem h.1, if_neg hitem, if_neg]
    intro heq
    exact hitem (Prod.ext (Prod.mk.inj heq).1 (Prod.mk.inj (Prod.mk.inj heq).2).1)

/-- The content that a write replaces. -/
theorem content_recordOf {c : VaultItemRow} (h : db.vaultItems.find (vaultId, itemId) = some c) :
    (recordOf db vaultId itemId).content = c.blobs := by
  rw [recordOf, h, Option.bind_some]

/-- What is kept of the item that is written, and of the others. -/
theorem kept_putItem (vaultId itemId : Uuid) {versions : Table VaultItemVersionRow.key}
    (h : some versions = match (db.vaultItems.find (w.vaultId, w.itemId)).bind fun c =>
      c.blobs.map fun blobs => (c, blobs) with
      | none => some db.vaultItemVersions
      | some (c, blobs) => keepVersion db.vaultItemVersions c blobs) (k : ℕ) :
    (versions.find (vaultId, itemId, k)).map
        (fun v => (⟨v.encryptedKey, v.encryptedData⟩ : ItemBlobs)) =
      if (w.vaultId, w.itemId) = (vaultId, itemId) then
        (recordOf db vaultId itemId).keep maxVersionsPerRecord k
      else (recordOf db vaultId itemId).kept k := by
  cases hfind : db.vaultItems.find (w.vaultId, w.itemId) with
  | none =>
    rw [hfind] at h
    obtain rfl := Option.some_inj.mp h
    split
    · rename_i hitem
      rw [hitem] at hfind
      simp only [Record.keep, recordOf, hfind, Option.bind_none]
    · rfl
  | some c =>
    rw [hfind, Option.bind_some] at h
    have hkey : (c.vaultId, c.id) = (w.vaultId, w.itemId) := (Table.find_eq_some.mp hfind).2
    cases hblobs : c.blobs with
    | none =>
      rw [hblobs] at h
      obtain rfl := Option.some_inj.mp h
      split
      · rename_i hitem
        rw [hitem] at hfind
        have hcontent := content_recordOf hfind
        rw [hblobs] at hcontent
        simp only [Record.keep, hcontent]
        rfl
      · rfl
    | some blobs =>
      rw [hblobs] at h
      rw [find_keepVersion h.symm, hkey]
      split
      · rename_i hitem
        rw [hitem] at hfind
        have hcontent := content_recordOf hfind
        have hrevision : (recordOf db vaultId itemId).revision = c.revision := by
          rw [recordOf, hfind, Option.map_some, Option.getD_some]
        rw [hblobs] at hcontent
        simp only [Record.keep, hcontent, hrevision]
        split_ifs <;> rfl
      · rfl

theorem recordOf_putItem (vaultId itemId : Uuid) (db : VaultDb) (w : ItemWrite) :
    recordOf (putItem db w).2 vaultId itemId =
      (recordOf db vaultId itemId).run maxVersionsPerRecord (events vaultId itemId db (.put w)) := by
  rcases putItem_cases db w with ⟨hrefused, hsame⟩ | ⟨seq, versions, hok, hbase, hitems, hversions, hkept⟩
  · rw [hsame, events, hrefused, if_neg (by simp)]
    rfl
  · have haccepted : ItemWriteResult.isOk (putItem db w).1 = true := by
      rw [hok]
      rfl
    rw [events, haccepted]
    have hkept := kept_putItem vaultId itemId hkept
    by_cases hitem : (w.vaultId, w.itemId) = (vaultId, itemId)
    · obtain ⟨rfl, rfl⟩ := Prod.mk.inj hitem
      rw [if_pos ⟨rfl, rfl⟩]
      refine Record.ext ?_ ?_ (funext fun k => ?_)
      · simp only [recordOf, hitems, if_true, Option.map_some, Option.getD_some]
        change w.baseRevision + 1 = (recordOf db w.vaultId w.itemId).revision + 1
        rw [hbase]
      · simp only [recordOf, hitems, if_true, Option.bind_some, blobs_writtenItem]
        rfl
      · have hk := hkept k
        rw [if_pos rfl] at hk
        simp only [recordOf, hversions]
        exact hk
    · rw [if_neg (fun h => hitem h.1)]
      refine Record.ext ?_ ?_ (funext fun k => ?_)
      · simp only [recordOf, hitems, if_neg hitem]
        rfl
      · simp only [recordOf, hitems, if_neg hitem]
        rfl
      · have hk := hkept k
        rw [if_neg hitem] at hk
        simp only [recordOf, hversions]
        exact hk

/-- What was found to purge goes. -/
theorem recordOf_purgeVersions (db : VaultDb) (vaultId' : Uuid) (deleted : List Uuid) :
    recordOf (purgeVersions db vaultId' deleted) vaultId itemId =
      (recordOf db vaultId itemId).run maxVersionsPerRecord
        (events vaultId itemId db (.purge vaultId' deleted)) := by
  have hfind : ∀ k, (purgeVersions db vaultId' deleted).vaultItemVersions.find (vaultId, itemId, k) =
      if vaultId' = vaultId ∧ itemId ∈ deleted then none
      else db.vaultItemVersions.find (vaultId, itemId, k) := by
    refine fun k => Table.find_delete_iff fun v hv => ?_
    obtain ⟨hvault, hrest⟩ := Prod.mk.inj hv
    rw [decide_eq_true_eq, hvault, (Prod.mk.inj hrest).1, eq_comm]
  rw [events]
  split
  · rename_i hpurged
    refine Record.ext rfl rfl (funext fun k => ?_)
    change ((purgeVersions db vaultId' deleted).vaultItemVersions.find _).map _ = _
    rw [hfind, if_pos hpurged]
    rfl
  · rename_i hpurged
    refine Record.ext rfl rfl (funext fun k => ?_)
    change ((purgeVersions db vaultId' deleted).vaultItemVersions.find _).map _ = _
    rw [hfind, if_neg hpurged]
    rfl

/-- Whether the versions of an item are purged when they have expired. -/
theorem isExpired_iff {before : Timestamp} : IsExpired db vaultId itemId before ↔
    (db.vaultItems.rows.any fun r =>
      r.vaultId = vaultId ∧ r.id = itemId ∧ r.deleted ∧ r.updatedAt < before) = true := by
  rw [List.any_eq_true, IsExpired]
  constructor
  · rintro ⟨row, hfind, hdeleted, hbefore⟩
    obtain ⟨hrow, hkey⟩ := Table.find_eq_some.mp hfind
    obtain ⟨hvault, hid⟩ := Prod.mk.inj hkey
    exact ⟨row, hrow, decide_eq_true ⟨hvault, hid, hdeleted, hbefore⟩⟩
  · rintro ⟨row, hrow, hall⟩
    obtain ⟨hvault, hid, hdeleted, hbefore⟩ := of_decide_eq_true hall
    exact ⟨row, Table.find_eq_some.mpr ⟨hrow, by rw [VaultItemRow.key, hvault, hid]⟩, hdeleted,
      hbefore⟩

theorem recordOf_purgeExpired (db : VaultDb) (before : Timestamp) :
    recordOf (purgeExpired db before) vaultId itemId =
      (recordOf db vaultId itemId).run maxVersionsPerRecord
        (events vaultId itemId db (.purgeExpired before)) := by
  have hfind : ∀ k, (purgeExpired db before).vaultItemVersions.find (vaultId, itemId, k) =
      if IsExpired db vaultId itemId before then none
      else db.vaultItemVersions.find (vaultId, itemId, k) := by
    refine fun k => Table.find_delete_iff fun v hv => ?_
    obtain ⟨hvault, hrest⟩ := Prod.mk.inj hv
    rw [isExpired_iff, hvault, (Prod.mk.inj hrest).1]
  rw [events]
  split
  · rename_i hexpired
    refine Record.ext rfl rfl (funext fun k => ?_)
    change ((purgeExpired db before).vaultItemVersions.find _).map _ = _
    rw [hfind, if_pos hexpired]
    rfl
  · rename_i hexpired
    refine Record.ext rfl rfl (funext fun k => ?_)
    change ((purgeExpired db before).vaultItemVersions.find _).map _ = _
    rw [hfind, if_neg hexpired]
    rfl

/-- A call does to the item what happens to the record. -/
theorem recordOf_serve (db : VaultDb) (call : Call) :
    recordOf (serve db call) vaultId itemId =
      (recordOf db vaultId itemId).run maxVersionsPerRecord (events vaultId itemId db call) := by
  cases call with
  | put w => exact recordOf_putItem vaultId itemId db w
  | purge vaultId' deleted => exact recordOf_purgeVersions db vaultId' deleted
  | purgeExpired before => exact recordOf_purgeExpired db before

def serveAll (db : VaultDb) (calls : List Call) : VaultDb := calls.foldl serve db

/-- What calls mean for an item. -/
def allEvents (vaultId itemId : Uuid) : VaultDb → List Call → List (Event ItemBlobs)
  | _, [] => []
  | db, call :: calls => events vaultId itemId db call ++ allEvents vaultId itemId (serve db call) calls

/-- The store refines the record over every run. -/
theorem recordOf_serveAll (vaultId itemId : Uuid) (db : VaultDb) (calls : List Call) :
    recordOf (serveAll db calls) vaultId itemId =
      (recordOf db vaultId itemId).run maxVersionsPerRecord (allEvents vaultId itemId db calls) := by
  induction calls generalizing db with
  | nil => rfl
  | cons call calls ih =>
    rw [serveAll, List.foldl_cons, allEvents, Record.run_append, ← recordOf_serve]
    exact ih (serve db call)

/-- Vaults without items. -/
def start (vaults : Table VaultRow.id) : VaultDb := ⟨vaults, .empty, .empty⟩

theorem recordOf_start (vaults : Table VaultRow.id) :
    recordOf (start vaults) vaultId itemId = Record.fresh := rfl

/-- Versions of items are not changed in place. -/
theorem amended_events (call : Call) (blobs : ItemBlobs) :
    amended (events vaultId itemId db call) blobs = blobs := by
  unfold events
  cases call <;> dsimp only <;> split <;> rfl

theorem amended_allEvents (vaultId itemId : Uuid) (db : VaultDb) (calls : List Call)
    (blobs : ItemBlobs) : amended (allEvents vaultId itemId db calls) blobs = blobs := by
  induction calls generalizing db with
  | nil => rfl
  | cons call calls ih => rw [allEvents, Record.amended_append, amended_events, ih]

theorem putItem_refused (h : ∀ item, (putItem db w).1 ≠ .ok item) : (putItem db w).2 = db := by
  rcases putItem_cases db w with ⟨-, hsame⟩ | ⟨seq, versions, hok, -⟩
  · exact hsame
  · exact absurd hok (h _)

/-- An accepted write of an item loses nothing. -/
theorem lossless_putItem (vaults : Table VaultRow.id) (before after : List Call) (w : ItemWrite)
    {item : ItemRecord} (h : (putItem (serveAll (start vaults) before) w).1 = .ok item) :
    Lossless maxVersionsPerRecord (allEvents w.vaultId w.itemId (start vaults) before)
      w.baseRevision w.blobs
      (recordOf (putItem (serveAll (start vaults) before) w).2 w.vaultId w.itemId)
      (allEvents w.vaultId w.itemId (putItem (serveAll (start vaults) before) w).2 after)
      (recordOf (serveAll (putItem (serveAll (start vaults) before) w).2 after) w.vaultId
        w.itemId) := by
  have hbefore := recordOf_serveAll w.vaultId w.itemId (start vaults) before
  rw [recordOf_start] at hbefore
  generalize serveAll (start vaults) before = db at h hbefore ⊢
  have hput := recordOf_putItem w.vaultId w.itemId db w
  have hbase : (recordOf db w.vaultId w.itemId).revision = w.baseRevision := by
    rcases putItem_cases db w with ⟨hrefused, -⟩ | ⟨seq, versions, -, hbase, -⟩
    · rw [h] at hrefused
      cases hrefused
    · exact hbase
  rw [events, if_pos ⟨rfl, by rw [h]; rfl⟩] at hput
  have hlossless := Record.lossless (show 0 < maxVersionsPerRecord by decide)
    (allEvents w.vaultId w.itemId (start vaults) before) w.blobs
    (allEvents w.vaultId w.itemId (putItem db w).2 after)
  rw [← hbefore, hbase] at hlossless
  rw [recordOf_serveAll, hput]
  exact hlossless

end Zvault.VaultStore
