import Zvault.Projects.ChangeFeed
import Zvault.Projects.History
import Zvault.Vault.History

/-!
# No lost update

In both stores the accepted writes of one id follow each other, and what they replace is
kept. A kept version of a secret loses the values of an environment that is deleted.
-/

namespace Zvault

open Relational Versions ProjectsStore

/-- **No lost update.** Whatever the stores do before, between and after, an accepted write is the
next one of its id, and what it replaces is kept until it is purged or as many writes follow as
versions are kept. A refused write changes nothing. -/
theorem no_lost_update :
    (∀ (vaults : Table VaultRow.id) (before after : List VaultStore.Call) (w : ItemWrite)
        (item : ItemRecord), (VaultStore.putItem
          (VaultStore.serveAll (VaultStore.start vaults) before) w).1 = .ok item →
      Lossless maxVersionsPerRecord
          (VaultStore.allEvents w.vaultId w.itemId (VaultStore.start vaults) before)
          w.baseRevision w.blobs
          (VaultStore.recordOf (VaultStore.putItem
            (VaultStore.serveAll (VaultStore.start vaults) before) w).2 w.vaultId w.itemId)
          (VaultStore.allEvents w.vaultId w.itemId (VaultStore.putItem
            (VaultStore.serveAll (VaultStore.start vaults) before) w).2 after)
          (VaultStore.recordOf (VaultStore.serveAll (VaultStore.putItem
            (VaultStore.serveAll (VaultStore.start vaults) before) w).2 after)
              w.vaultId w.itemId) ∧
        ∀ blobs, amended (VaultStore.allEvents w.vaultId w.itemId (VaultStore.putItem
          (VaultStore.serveAll (VaultStore.start vaults) before) w).2 after) blobs = blobs) ∧
      (∀ (db : VaultDb) (w : ItemWrite), (∀ item, (VaultStore.putItem db w).1 ≠ .ok item) →
        (VaultStore.putItem db w).2 = db) ∧
      (∀ (w : EntryWrite) (entry : ProjectEntry) (before after : List (Event SecretContent))
          (db₀ db db' db'' : Db), entryRecord db₀ w.projectId w.id = .fresh →
        EntryRun w.projectId w.id db₀ before db → writeEntry db w = (.ok entry, db') →
        EntryRun w.projectId w.id db' after db'' →
          Lossless maxVersionsPerRecord before w.baseRevision
            (w.content (valueOf db w.projectId w.id)) (entryRecord db' w.projectId w.id) after
            (entryRecord db'' w.projectId w.id) ∧
          ∀ c, LeftOf after c (amended after c)) ∧
      ∀ (db : Db) (w : EntryWrite), (∀ entry, (writeEntry db w).1 ≠ .ok entry) →
        (writeEntry db w).2 = db := by
  refine ⟨fun vaults before after w item h => ⟨?_, ?_⟩, fun db w h => ?_,
    fun w entry before after db₀ db db' db'' hfresh hbefore h hafter => ⟨?_, ?_⟩, fun db w h => ?_⟩
  · exact VaultStore.lossless_putItem vaults before after w h
  · exact VaultStore.amended_allEvents w.vaultId w.itemId _ after
  · exact VaultStore.putItem_refused h
  · exact lossless_writeEntry hfresh hbefore h hafter
  · exact hafter.leftOf
  · exact writeEntry_refused h

/-- A put of secret 7 in the first environment. -/
def putToken (baseRevision : ℕ) (encryptedValue : EncryptedBlob) : EntryWrite where
  projectId := 1
  id := 7
  type := .secret
  baseRevision := baseRevision
  encryptedMeta := some ⟨.record 7, 7, 7⟩
  values := [(2, some encryptedValue)]
  keyGrant := none
  limit := 500
  viewer := 10
  now := 5

/-- Its first put. -/
def firstToken : EntryWrite := putToken 0 ⟨.record 2, 1, 1⟩

/-- Its value is replaced. -/
def secondToken : EntryWrite := putToken 1 ⟨.record 2, 2, 2⟩

def withToken : Db := (writeEntry firstProject firstToken).2

def tokenReplaced : Db := (writeEntry withToken secondToken).2

/-- The environment of its value is deleted. -/
def deleteFirst : EntryWrite := { renameFirst with encryptedMeta := none }

/-- What the put of the secret is answered with. -/
def tokenEntry (revision seq : ℕ) (encryptedValue : EncryptedBlob) : ProjectEntry :=
  .secret ⟨7, 1, revision, seq, 5⟩ ⟨.record 7, 7, 7⟩ [⟨2, encryptedValue, 5⟩]

theorem entryRun_withToken :
    EntryRun 1 7 firstProject (firstToken.events 1 7 firstProject) withToken := by
  have hanswer : (writeEntry firstProject firstToken).1 = .ok (tokenEntry 1 3 ⟨.record 2, 1, 1⟩) := by
    decide
  have hput : writeEntry firstProject firstToken =
      (.ok (tokenEntry 1 3 ⟨.record 2, 1, 1⟩), withToken) := Prod.ext hanswer rfl
  exact .single (.accepted hput)

theorem writeEntry_secondToken : writeEntry withToken secondToken =
    (.ok (tokenEntry 2 4 ⟨.record 2, 2, 2⟩), tokenReplaced) := by
  have hanswer : (writeEntry withToken secondToken).1 = .ok (tokenEntry 2 4 ⟨.record 2, 2, 2⟩) := by
    decide
  exact Prod.ext hanswer rfl

/-- The first value is a version. -/
theorem no_lost_update_replaced :
    (entryRecord tokenReplaced 1 7).kept 1 = firstToken.content (valueOf firstProject 1 7) :=
  (no_lost_update.2.2.1 secondToken _ _ [] firstProject withToken tokenReplaced tokenReplaced rfl
    entryRun_withToken writeEntry_secondToken (.refl tokenReplaced)).1.keeps _ rfl
      (fun _ h => by cases h) (by decide)

/-- The version of a secret is not kept whole until newer ones exist or it is purged. -/
theorem version_forgets_environment :
    ¬ ∀ (w : EntryWrite) (entry : ProjectEntry) (before after : List (Event SecretContent))
        (db₀ db db' db'' : Db), entryRecord db₀ w.projectId w.id = .fresh →
      EntryRun w.projectId w.id db₀ before db → writeEntry db w = (.ok entry, db') →
      EntryRun w.projectId w.id db' after db'' → Keeps after →
      (db''.secretVersions.select fun v => v.projectId = w.projectId ∧ v.secretId = w.id ∧
        w.baseRevision < v.revision).length < maxVersionsPerRecord →
      ∀ replaced, (entryRecord db w.projectId w.id).content = some replaced →
        (entryRecord db'' w.projectId w.id).kept w.baseRevision = some replaced := by
  intro h
  have hdeleted : (writeEntry tokenReplaced deleteFirst).1 =
      .ok (.deleted ⟨2, 1, 2, 5, 5⟩ .environment) := by decide
  have hdelete : writeEntry tokenReplaced deleteFirst =
      (.ok (.deleted ⟨2, 1, 2, 5, 5⟩ .environment), (writeEntry tokenReplaced deleteFirst).2) :=
    Prod.ext hdeleted rfl
  have hafter : EntryRun 1 7 tokenReplaced (deleteFirst.events 1 7 tokenReplaced)
      (writeEntry tokenReplaced deleteFirst).2 :=
    .single (.accepted hdelete)
  have hkeeps : Keeps (deleteFirst.events 1 7 tokenReplaced) := by
    intro e he
    rw [List.mem_singleton.mp he]
    intro hpurge
    cases hpurge
  have hkept : (entryRecord (writeEntry tokenReplaced deleteFirst).2 1 7).kept 1 =
      some ⟨⟨.record 7, 7, 7⟩, valueOf withToken 1 7⟩ :=
    h secondToken _ _ _ firstProject withToken tokenReplaced _ rfl entryRun_withToken
      writeEntry_secondToken hafter hkeeps (by decide) _ rfl
  have hvalue := congrArg (Option.map fun c : SecretContent => c.value 2) hkept
  have hforgotten : ((entryRecord (writeEntry tokenReplaced deleteFirst).2 1 7).kept 1).map
      (fun c => c.value 2) = some none := by decide
  have hstored : valueOf withToken 1 7 2 = some ⟨.record 2, 1, 1⟩ := by decide
  have hlost := Option.some_inj.mp (hforgotten.symm.trans hvalue)
  cases hlost.trans hstored

end Zvault
