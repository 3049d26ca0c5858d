import Zvault.Vault.History

/-!
# The trash of a vault

A deleted item is listed with the newest version kept of it, which is what it held, and
restoring writes that version back. Emptying the trash deletes the versions of the items
that it found deleted, whatever became of them since.
-/

namespace Zvault.VaultStore

open Relational Versions

variable {db : VaultDb} {vaultId itemId : Uuid} {since before : Timestamp}

/-- `restoreFromTrash` of the client: the write that puts a deleted item back. -/
def restoreFromTrash (vaultId : Uuid) (item : StoredTrashedItem) (now : Timestamp) : ItemWrite where
  vaultId := vaultId
  itemId := item.id
  baseRevision := item.revision
  blobs := some ⟨item.lastVersion.encryptedKey, item.lastVersion.encryptedData⟩
  now := now

/-- The item is there and not deleted. -/
def IsLive (db : VaultDb) (vaultId itemId : Uuid) : Prop :=
  (recordOf db vaultId itemId).content.isSome = true

instance (db : VaultDb) (vaultId itemId : Uuid) : Decidable (IsLive db vaultId itemId) :=
  inferInstanceAs (Decidable (_ = true))

/-- A purge takes no item, and no version of an item that is live. -/
structure SparesLive (db db' : VaultDb) : Prop where
  items : db'.vaultItems = db.vaultItems
  versions : ∀ v ∈ db.vaultItemVersions, IsLive db v.vaultId v.itemId → v ∈ db'.vaultItemVersions

/-- A listed item has a kept version and none that is newer. -/
theorem mem_listTrash {t : StoredTrashedItem} (h : t ∈ listTrash db vaultId since) :
    ∃ k, (recordOf db vaultId t.id).kept k =
        some ⟨t.lastVersion.encryptedKey, t.lastVersion.encryptedData⟩ ∧
      ∀ k', ((recordOf db vaultId t.id).kept k').isSome = true → k' ≤ k := by
  unfold listTrash at h
  dsimp only at h
  obtain ⟨r, -, hr⟩ := List.mem_filterMap.mp ((List.mem_insertionSort _).mp h)
  obtain ⟨version, hhead, rfl⟩ := Option.map_eq_some_iff.mp hr
  rw [listVersions, List.head?_map] at hhead
  obtain ⟨v, hv, rfl⟩ := Option.map_eq_some_iff.mp hhead
  obtain ⟨hmem, hnewest⟩ := newestFirst hv
  simp only [Table.mem_select, decide_eq_true_eq] at hmem
  obtain ⟨hmem, hvault, hitem⟩ := hmem
  have hfind : db.vaultItemVersions.find (vaultId, r.id, v.revision) = some v :=
    Table.find_eq_some.mpr ⟨hmem, by rw [VaultItemVersionRow.key, hvault, hitem]⟩
  refine ⟨v.revision, ?_, fun k' hk' => ?_⟩
  · simp only [recordOf, hfind, Option.map_some, toVersion]
  · rw [recordOf, Option.isSome_map] at hk'
    obtain ⟨v', hv'⟩ := Option.isSome_iff_exists.mp hk'
    obtain ⟨hmem', hkey⟩ := Table.find_eq_some.mp hv'
    obtain ⟨hvault', hrest⟩ := Prod.mk.inj hkey
    obtain ⟨hitem', rfl⟩ := Prod.mk.inj hrest
    exact hnewest v' (by simp [hmem', hvault', hitem'])

/-- A run in which an item is deleted, is found in the trash and is put back. -/
structure Restoration where
  vaults : Table VaultRow.id
  before : List Call
  delete : ItemWrite
  deleted : ItemRecord
  after : List Call
  since : Timestamp
  item : StoredTrashedItem
  between : List Call
  now : Timestamp
  restored : ItemRecord
  isDelete : delete.blobs = none
  accepted : (putItem (serveAll (start vaults) before) delete).1 = .ok deleted
  /-- The item is not written before it is found. -/
  unwritten : writes (allEvents delete.vaultId delete.itemId
    (putItem (serveAll (start vaults) before) delete).2 after) = 0
  listed : item ∈ listTrash (serveAll (putItem (serveAll (start vaults) before) delete).2 after)
    delete.vaultId since
  id_eq : item.id = delete.itemId
  putBack : (putItem (serveAll (serveAll (putItem (serveAll (start vaults) before) delete).2 after)
    between) (restoreFromTrash delete.vaultId item now)).1 = .ok restored

namespace Restoration

variable (r : Restoration)

/-- The state before the delete. -/
def held : VaultDb := serveAll (start r.vaults) r.before

/-- The state in which the item is found in the trash. -/
def found : VaultDb := serveAll (putItem r.held r.delete).2 r.after

/-- The state after it was put back. -/
def final : VaultDb :=
  (putItem (serveAll r.found r.between) (restoreFromTrash r.delete.vaultId r.item r.now)).2

/-- A restored item has what it held when it was deleted. -/
theorem content_final {blobs : ItemBlobs}
    (hcontent : (recordOf r.held r.delete.vaultId r.delete.itemId).content = some blobs) :
    (recordOf r.final r.delete.vaultId r.delete.itemId).content = some blobs := by
  have hlimit : 0 < maxVersionsPerRecord := by decide
  obtain ⟨k, hkept, hnewest⟩ := mem_listTrash r.listed
  have hdelete := recordOf_putItem r.delete.vaultId r.delete.itemId r.held r.delete
  rw [events, if_pos ⟨rfl, by rw [held, r.accepted]; rfl⟩] at hdelete
  have hfound := recordOf_serveAll r.delete.vaultId r.delete.itemId (putItem r.held r.delete).2 r.after
  rw [hdelete] at hfound
  rw [r.id_eq, ← held, hfound] at hkept hnewest
  have hwithin : (recordOf r.held r.delete.vaultId r.delete.itemId).Within maxVersionsPerRecord := by
    rw [held, recordOf_serveAll, recordOf_start]
    exact Record.within_run_fresh hlimit
  have hlast := hwithin.newest hlimit hcontent r.delete.blobs r.unwritten hkept hnewest
  rw [amended_allEvents] at hlast
  have hput := recordOf_putItem r.delete.vaultId r.delete.itemId (serveAll r.found r.between)
    (restoreFromTrash r.delete.vaultId r.item r.now)
  have hown : ((restoreFromTrash r.delete.vaultId r.item r.now).vaultId,
      (restoreFromTrash r.delete.vaultId r.item r.now).itemId) =
        (r.delete.vaultId, r.delete.itemId) := Prod.ext rfl r.id_eq
  rw [events, if_pos ⟨hown, by rw [found, held, r.putBack]; rfl⟩] at hput
  rw [final, hput, ← hlast]
  rfl

end Restoration

/-- What was found to purge was deleted. -/
theorem content_of_mem_purgeable {itemId' : Option Uuid} (h : itemId ∈ purgeable db vaultId itemId' before) :
    (recordOf db vaultId itemId).content = none := by
  obtain ⟨r, hr, rfl⟩ := List.mem_map.mp h
  simp only [Table.mem_select, Bool.and_eq_true, decide_eq_true_eq] at hr
  obtain ⟨hr, ⟨rfl, hdeleted⟩, -⟩ := hr
  rw [content_recordOf (Table.find_eq_some.mpr ⟨hr, rfl⟩), VaultItemRow.blobs, hdeleted]

/-- Emptying the trash spares what is live exactly when each item that it found, and that is live
again, has no version. -/
theorem sparesLive_iff {itemId' : Option Uuid} (between : List Call) :
    SparesLive (serveAll db between)
        (purgeVersions (serveAll db between) vaultId (purgeable db vaultId itemId' before)) ↔
      ∀ id ∈ purgeable db vaultId itemId' before,
        (written (allEvents vaultId id db between) none).isSome = true →
          ∀ k, ((recordOf db vaultId id).run maxVersionsPerRecord
            (allEvents vaultId id db between)).kept k = none := by
  have hlive : ∀ id ∈ purgeable db vaultId itemId' before, IsLive (serveAll db between) vaultId id ↔
      (written (allEvents vaultId id db between) none).isSome = true := by
    intro id hid
    rw [IsLive, recordOf_serveAll, Record.content_run, content_of_mem_purgeable hid]
  constructor
  · intro h id hid hwritten k
    rw [← recordOf_serveAll]
    refine Option.eq_none_iff_forall_ne_some.mpr fun blobs hkept => ?_
    obtain ⟨v, hfind, -⟩ := Option.map_eq_some_iff.mp hkept
    obtain ⟨hv, hkey⟩ := Table.find_eq_some.mp hfind
    obtain ⟨rfl, hrest⟩ := Prod.mk.inj hkey
    obtain ⟨rfl, -⟩ := Prod.mk.inj hrest
    have hspared := (Table.mem_delete.mp (h.versions v hv ((hlive _ hid).mpr hwritten))).2
    exact of_decide_eq_false hspared ⟨rfl, hid⟩
  · intro h
    refine ⟨rfl, fun v hv hvlive => Table.mem_delete.mpr ⟨hv, decide_eq_false ?_⟩⟩
    rintro ⟨rfl, hid⟩
    have hnone := h _ hid ((hlive _ hid).mp hvlive) v.revision
    rw [← recordOf_serveAll, recordOf, Option.map_eq_none_iff] at hnone
    exact Table.find_eq_none.mp hnone v hv rfl

/-- Dropping what has expired spares what is live. -/
theorem sparesLive_purgeExpired (db : VaultDb) (before : Timestamp) :
    SparesLive db (purgeExpired db before) := by
  refine ⟨rfl, fun v hv hlive => Table.mem_delete.mpr ⟨hv, Bool.eq_false_iff.mpr fun hexpired => ?_⟩⟩
  obtain ⟨r, hfind, hdeleted, -⟩ := isExpired_iff.mpr hexpired
  rw [IsLive, content_recordOf hfind, VaultItemRow.blobs, hdeleted] at hlive
  cases hlive

end Zvault.VaultStore
