import Zvault.History.LostUpdates
import Zvault.Projects.Trash
import Zvault.Vault.Trash

/-!
# What the trash keeps

A record comes back from the trash as it was. A record that comes back while the trash is
being emptied loses its versions.
-/

namespace Zvault

open Relational Versions ProjectsStore ProjectsService

/-- **The trash keeps what can be restored.** A record that is restored has what it held, and
dropping what has expired takes nothing of a live record. Emptying the trash takes nothing of a live
record if and only if every record that it found deleted, and that is live again when it deletes
their versions, has none. -/
theorem trash_keeps {db : VaultDb} {vaultId : Uuid} {itemId : Option Uuid} {between : List VaultStore.Call}
    {projects projects' : Db} {projectId : Uuid} {secretId : Option Uuid} {before : Timestamp}
    {events : Uuid → List (Event SecretContent)}
    (hrun : ∀ id ∈ purgeable projects projectId secretId before,
      EntryRun projectId id projects (events id) projects') :
    (∀ (r : VaultStore.Restoration) (blobs : ItemBlobs),
        (VaultStore.recordOf r.held r.delete.vaultId r.delete.itemId).content = some blobs →
          (VaultStore.recordOf r.final r.delete.vaultId r.delete.itemId).content = some blobs) ∧
      (∀ (r : Restoration) (content : SecretContent),
        (entryRecord r.held r.delete.projectId r.delete.id).content = some content →
          ∃ content', (entryRecord r.final r.delete.projectId r.delete.id).content = some content' ∧
            content'.encryptedMeta = content.encryptedMeta ∧
            ∀ environmentId ∈ viewerEnvironments r.found r.delete.projectId r.user,
              r.unlocked environmentId = true → ¬ Forgets r.after environmentId →
                content'.value environmentId = content.value environmentId) ∧
      VaultStore.SparesLive db (VaultStore.purgeExpired db before) ∧
      SparesLive projects (purgeExpired projects before) ∧
      (VaultStore.SparesLive (VaultStore.serveAll db between)
          (VaultStore.purgeVersions (VaultStore.serveAll db between) vaultId
            (VaultStore.purgeable db vaultId itemId before)) ↔
        ∀ id ∈ VaultStore.purgeable db vaultId itemId before,
          (written (VaultStore.allEvents vaultId id db between) none).isSome = true →
            ∀ k, ((VaultStore.recordOf db vaultId id).run maxVersionsPerRecord
              (VaultStore.allEvents vaultId id db between)).kept k = none) ∧
      (SparesLive projects'
          (purgeVersions projects' projectId (purgeable projects projectId secretId before)) ↔
        ∀ id ∈ purgeable projects projectId secretId before,
          (written (events id) none).isSome = true →
            ∀ k, ((entryRecord projects projectId id).run maxVersionsPerRecord (events id)).kept k =
              none) :=
  ⟨fun r _ => r.content_final, fun r _ => r.content_final, VaultStore.sparesLive_purgeExpired db before,
    sparesLive_purgeExpired projects before, VaultStore.sparesLive_iff between, sparesLive_iff hrun⟩

/-- An item of vault 1. -/
def putNote (baseRevision : ℕ) (blobs : Option ItemBlobs) : ItemWrite := ⟨1, 2, baseRevision, blobs, 5⟩

/-- What the item holds. -/
def noteBlobs : ItemBlobs := ⟨⟨.record 2, 1, 1⟩, ⟨.record 2, 2, 2⟩⟩

def oneVault : Table VaultRow.id := Table.empty.insertNew ⟨1, 0⟩

/-- The item was put and deleted. -/
def noteDeleted : VaultDb :=
  VaultStore.serveAll (VaultStore.start oneVault)
    [.put (putNote 0 (some noteBlobs)), .put (putNote 1 none)]

/-- The item as it stands in the trash. -/
def trashedNote : StoredTrashedItem := ⟨2, 2, 5, ⟨1, 5, noteBlobs.encryptedKey, noteBlobs.encryptedData⟩⟩

/-- It is restored. -/
def noteRestoration : VaultStore.Restoration where
  vaults := oneVault
  before := [.put (putNote 0 (some noteBlobs))]
  delete := putNote 1 none
  deleted := .deleted ⟨2, 1, 2, 2, 5⟩
  after := []
  since := 0
  item := trashedNote
  between := []
  now := 6
  restored := .live ⟨2, 1, 3, 3, 6⟩ noteBlobs
  isDelete := rfl
  accepted := by decide
  unwritten := rfl
  listed := by decide
  id_eq := rfl
  putBack := by decide

/-- The secret is deleted. -/
def deleteToken : EntryWrite := { putToken 1 ⟨.record 2, 0, 0⟩ with
  encryptedMeta := none
  values := [] }

def tokenDeleted : Db := (writeEntry withToken deleteToken).2

theorem writeEntry_deleteToken :
    writeEntry withToken deleteToken = (.ok (.deleted ⟨7, 1, 2, 4, 5⟩ .secret), tokenDeleted) := by
  have hanswer : (writeEntry withToken deleteToken).1 = .ok (.deleted ⟨7, 1, 2, 4, 5⟩ .secret) := by
    decide
  exact Prod.ext hanswer rfl

/-- The secret as it stands in the trash. -/
def trashedToken : TrashedSecret :=
  ⟨7, 2, 5, purgeAt 5, ⟨1, 5, ⟨.record 7, 7, 7⟩, [(2, ⟨.record 2, 1, 1⟩)]⟩⟩

/-- It is restored. -/
def tokenRestoration : Restoration where
  start := firstProject
  held := withToken
  deleted := tokenDeleted
  looking := tokenDeleted
  found := (trash tokenDeleted 10 1 6).2
  putting := (trash tokenDeleted 10 1 6).2
  final := (putSecret (trash tokenDeleted 10 1 6).2 10 1 7
    (restoreFromTrash (fun _ => true) trashedToken) 6).2
  delete := deleteToken
  user := 10
  unlocked := fun _ => true
  secrets := [trashedToken]
  secret := trashedToken
  before := firstToken.events 1 7 firstProject
  after := []
  between := []
  tombstone := .deleted ⟨7, 1, 2, 4, 5⟩ .secret
  entry := .secret ⟨7, 1, 3, 5, 6⟩ ⟨.record 7, 7, 7⟩ [⟨2, ⟨.record 2, 1, 1⟩, 6⟩]
  lookedAt := 6
  now := 6
  fresh := rfl
  past := entryRun_withToken
  isDelete := rfl
  accepted := writeEntry_deleteToken
  future := .refl tokenDeleted
  unwritten := rfl
  listed := rfl
  secret_mem := List.mem_singleton.mpr rfl
  id_eq := rfl
  later := .refl _
  putBack := rfl

/-- Both come back, and the trash can be emptied while the secret is in it. -/
theorem trash_keeps_deleted :
    (VaultStore.recordOf noteRestoration.final 1 2).content = some noteBlobs ∧
      SparesLive tokenDeleted (purgeVersions tokenDeleted 1 (purgeable tokenDeleted 1 none 10)) := by
  have h := @trash_keeps noteDeleted 1 none [] tokenDeleted tokenDeleted 1 none 10 (fun _ => [])
    fun _ _ => .refl tokenDeleted
  exact ⟨h.1 noteRestoration noteBlobs rfl, h.2.2.2.2.2.mpr fun _ _ hlive => by cases hlive⟩

/-- An item that is restored between the two statements loses its version. -/
theorem purge_takes_restored :
    ¬ ∀ (db : VaultDb) (vaultId : Uuid) (itemId : Option Uuid) (before : Timestamp)
      (between : List VaultStore.Call), VaultStore.SparesLive (VaultStore.serveAll db between)
        (VaultStore.purgeVersions (VaultStore.serveAll db between) vaultId
          (VaultStore.purgeable db vaultId itemId before)) := by
  intro h
  have hspared := (h noteDeleted 1 none 10
    [.put (VaultStore.restoreFromTrash 1 trashedNote 6)]).versions
      ⟨1, 2, 1, noteBlobs.encryptedKey, noteBlobs.encryptedData, 5⟩ (by decide) (by decide)
  exact absurd hspared (by decide)

end Zvault
