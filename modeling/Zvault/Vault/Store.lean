import Zvault.Projects.Store

/-!
# The vault store

Items and their earlier versions in `apps/api/src/vault/drizzle-vault.store.ts`. A write
locks the row of the vault, so it is one step. Emptying the trash looks for deleted items
first and deletes their versions with a second statement.
-/

namespace Zvault

open Relational

/-- `vaults`: the counter of a vault's changes. -/
structure VaultRow where
  id : Uuid
  seq : ℕ
  deriving DecidableEq, Repr

/-- `vault_items`. A deleted item stays as a tombstone. -/
structure VaultItemRow where
  vaultId : Uuid
  id : Uuid
  revision : ℕ
  seq : ℕ
  deleted : Bool
  encryptedKey : Option EncryptedBlob
  encryptedData : Option EncryptedBlob
  updatedAt : Timestamp
  deriving DecidableEq, Repr

/-- `primaryKey({ columns: [t.vaultId, t.id] })`. -/
def VaultItemRow.key (r : VaultItemRow) : Uuid × Uuid := (r.vaultId, r.id)

/-- `vault_item_versions`. -/
structure VaultItemVersionRow where
  vaultId : Uuid
  itemId : Uuid
  revision : ℕ
  encryptedKey : EncryptedBlob
  encryptedData : EncryptedBlob
  savedAt : Timestamp
  deriving DecidableEq, Repr

/-- `primaryKey({ columns: [t.vaultId, t.itemId, t.revision] })`. -/
def VaultItemVersionRow.key (v : VaultItemVersionRow) : Uuid × Uuid × ℕ :=
  (v.vaultId, v.itemId, v.revision)

structure VaultDb where
  vaults : Table VaultRow.id
  vaultItems : Table VaultItemRow.key
  vaultItemVersions : Table VaultItemVersionRow.key

structure ItemBlobs where
  encryptedKey : EncryptedBlob
  encryptedData : EncryptedBlob
  deriving DecidableEq, Repr

/-- `ItemWrite`. Without blobs the item is deleted. -/
structure ItemWrite where
  vaultId : Uuid
  itemId : Uuid
  baseRevision : ℕ
  blobs : Option ItemBlobs
  now : Timestamp
  deriving DecidableEq, Repr

structure ItemRecordBase where
  id : Uuid
  vaultId : Uuid
  revision : ℕ
  seq : ℕ
  updatedAt : Timestamp
  deriving DecidableEq, Repr

/-- `ItemRecord`. -/
inductive ItemRecord where
  | deleted (base : ItemRecordBase)
  | live (base : ItemRecordBase) (blobs : ItemBlobs)
  deriving DecidableEq, Repr

/-- `ItemWriteResult`. `aborted` is a transaction that fails on a broken constraint. -/
inductive ItemWriteResult where
  | ok (item : ItemRecord)
  | conflict (current : Option ItemRecord)
  | aborted
  deriving DecidableEq, Repr

/-- `ItemVersion`. -/
structure ItemVersion where
  revision : ℕ
  savedAt : Timestamp
  encryptedKey : EncryptedBlob
  encryptedData : EncryptedBlob
  deriving DecidableEq, Repr

/-- `StoredTrashedItem`. -/
structure StoredTrashedItem where
  id : Uuid
  revision : ℕ
  deletedAt : Timestamp
  lastVersion : ItemVersion
  deriving DecidableEq, Repr

/-- What a row has, unless it is deleted or lacks one of the two. -/
def VaultItemRow.blobs (r : VaultItemRow) : Option ItemBlobs :=
  match r.deleted, r.encryptedKey, r.encryptedData with
  | false, some encryptedKey, some encryptedData => some ⟨encryptedKey, encryptedData⟩
  | _, _, _ => none

namespace VaultStore

/-- `toItem`. -/
def toItem (r : VaultItemRow) : ItemRecord :=
  let base : ItemRecordBase := ⟨r.id, r.vaultId, r.revision, r.seq, r.updatedAt⟩
  match r.blobs with
  | some blobs => .live base blobs
  | none => .deleted base

/-- `toVersion`. -/
def toVersion (v : VaultItemVersionRow) : ItemVersion :=
  ⟨v.revision, v.savedAt, v.encryptedKey, v.encryptedData⟩

/-- The versions after a write replaces an item; `none` when that version is there already. -/
def keepVersion (versions : Table VaultItemVersionRow.key) (current : VaultItemRow)
    (blobs : ItemBlobs) : Option (Table VaultItemVersionRow.key) :=
  (versions.insertAll [⟨current.vaultId, current.id, current.revision, blobs.encryptedKey,
    blobs.encryptedData, current.updatedAt⟩]).map fun versions =>
      -- Keep the newest versions only.
      versions.delete fun v => v.vaultId = current.vaultId ∧ v.itemId = current.id ∧
        v.revision + maxVersionsPerRecord ≤ current.revision

/-- The row that a write leaves. -/
def writtenItem (w : ItemWrite) (seq : ℕ) : VaultItemRow where
  vaultId := w.vaultId
  id := w.itemId
  revision := w.baseRevision + 1
  seq := seq
  deleted := w.blobs.isNone
  encryptedKey := w.blobs.map (·.encryptedKey)
  encryptedData := w.blobs.map (·.encryptedData)
  updatedAt := w.now

/-- `putItem`: one transaction, serialized by the lock on the vault's row. -/
def putItem (db : VaultDb) (w : ItemWrite) : ItemWriteResult × VaultDb :=
  match db.vaults.find w.vaultId with
  | none => (.conflict none, db)
  | some vault =>
    let current := db.vaultItems.find (w.vaultId, w.itemId)
    if (current.map VaultItemRow.revision).getD 0 ≠ w.baseRevision then
      (.conflict (current.map toItem), db)
    else
      let versions := match current.bind fun c => c.blobs.map fun blobs => (c, blobs) with
        | none => some db.vaultItemVersions
        | some (c, blobs) => keepVersion db.vaultItemVersions c blobs
      match versions with
      | none => (.aborted, db)
      | some vaultItemVersions =>
        let row := writtenItem w (vault.seq + 1)
        (.ok (toItem row),
          { vaults := db.vaults.update (fun v => v.id = w.vaultId)
              (fun v => { v with seq := vault.seq + 1 }) (fun _ => rfl)
            vaultItems := db.vaultItems.upsert row fun r => { row with
              vaultId := r.vaultId
              id := r.id }
            vaultItemVersions })

/-- `listVersions`, newest first. -/
def listVersions (db : VaultDb) (vaultId itemId : Uuid) : List ItemVersion :=
  ((db.vaultItemVersions.select fun v => v.vaultId = vaultId ∧ v.itemId = itemId).insertionSort
    fun a b => b.revision ≤ a.revision).map toVersion

/-- `listTrash`: the items that were deleted since, with the newest version of each. -/
def listTrash (db : VaultDb) (vaultId : Uuid) (since : Timestamp) : List StoredTrashedItem :=
  let deleted := (db.vaultItems.select fun r =>
    r.vaultId = vaultId ∧ r.deleted ∧ since ≤ r.updatedAt).insertionSort fun a b => a.id ≤ b.id
  (deleted.filterMap fun r => (listVersions db vaultId r.id).head?.map fun version =>
    (⟨r.id, r.revision, r.updatedAt, version⟩ : StoredTrashedItem)).insertionSort
      fun a b => b.deletedAt ≤ a.deletedAt

/-- The first statement of `purgeTrash`: the deleted items whose versions will go. -/
def purgeable (db : VaultDb) (vaultId : Uuid) (itemId : Option Uuid) (before : Timestamp) :
    List Uuid :=
  (db.vaultItems.select fun r => (r.vaultId = vaultId ∧ r.deleted) &&
    match itemId with
    | none => decide (r.updatedAt < before)
    | some id => decide (r.id = id)).map VaultItemRow.id

/-- The second statement of `purgeTrash`, with what the first one found. -/
def purgeVersions (db : VaultDb) (vaultId : Uuid) (deleted : List Uuid) : VaultDb :=
  { db with
    vaultItemVersions := db.vaultItemVersions.delete fun v =>
      v.vaultId = vaultId ∧ v.itemId ∈ deleted }

/-- `purgeExpired`. -/
def purgeExpired (db : VaultDb) (before : Timestamp) : VaultDb :=
  { db with
    vaultItemVersions := db.vaultItemVersions.delete fun v => db.vaultItems.rows.any fun r =>
      r.vaultId = v.vaultId ∧ r.id = v.itemId ∧ r.deleted ∧ r.updatedAt < before }

end VaultStore

end Zvault
