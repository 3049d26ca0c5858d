import Zvault.Projects.Copy

/-!
# What was sent of an entry

What the server sends of an entry is the entry as it is, or as it was before it was
revised. While its revision stays, its metadata does, and so do the environments
that it has values for, but for those that are deleted.
-/

namespace Zvault

open Relational ProjectsStore

/-- Contents are those of an entry, with a value for each environment that the viewer sees one of,
and maybe for others that are excused. -/
structure Current (db : Db) (viewer projectId : Uuid) (row : EntryRow)
    (shown : Option EncryptedBlob) (has excused : Uuid → Prop) : Prop where
  encryptedMeta : row.encryptedMeta = shown
  holds : row.type = .secret → shown ≠ none → ∀ environmentId,
    SeesValue db viewer projectId row.id environmentId → has environmentId
  sees : ∀ environmentId, has environmentId → row.type = .secret ∧
    (SeesValue db viewer projectId row.id environmentId ∨ excused environmentId)

/-- Contents are those of an entry, or it was revised since. -/
def Recalls (db : Db) (viewer projectId : Uuid) (type : EntryType) (id : Uuid) (revision : ℕ)
    (shown : Option EncryptedBlob) (has excused : Uuid → Prop) : Prop :=
  ∃ row ∈ entriesOf db projectId, row.id = id ∧ row.type = type ∧
    (revision < row.revision ∨
      revision = row.revision ∧ Current db viewer projectId row shown has excused)

/-- A record that the server sent. It has no value of an environment that is still there other than
those that the viewer sees. -/
structure ProjectEntry.Sent (db : Db) (viewer projectId : Uuid) (entry : ProjectEntry) : Prop where
  recalls : Recalls db viewer projectId entry.type entry.base.id entry.base.revision entry.shown
    (· ∈ entry.values.map SecretValueRecord.environmentId) (IsTombstone db projectId)
  gone : entry.type = .environment → entry.shown = none → IsTombstone db projectId entry.base.id

section Entries

variable {db db' : Db} {projectId id : Uuid}

theorem isTombstone_iff : IsTombstone db projectId id ↔
    ∃ e ∈ entriesOf db projectId, e.id = id ∧ e.type = .environment ∧ e.deleted = true := by
  constructor
  · rintro ⟨e, he, hkey, hgone⟩
    obtain ⟨hproject, hid⟩ := Prod.mk.inj hkey
    exact ⟨e, mem_entriesOf.mpr ⟨he, hproject⟩, hid, hgone⟩
  · rintro ⟨e, he, hid, hgone⟩
    obtain ⟨he, hproject⟩ := mem_entriesOf.mp he
    exact ⟨e, he, Prod.ext hproject hid, hgone⟩

/-- An entry of the same id follows. -/
theorem Recorded.follows_of_id (h : Recorded db db' projectId) {e e' : EntryRow}
    (he : e ∈ entriesOf db projectId) (he' : e' ∈ entriesOf db' projectId) (hid : e'.id = e.id) :
    e.Follows e' := by
  obtain ⟨next, hnext, hfollows⟩ := h.entries.follows e he
  rwa [eq_of_mem_entriesOf he' hnext (hid.trans hfollows.id.symm)]

theorem EntryRow.Follows.revision_le {e e' : EntryRow} (h : e.Follows e') :
    e.revision ≤ e'.revision := by
  rcases h.revision with hlt | ⟨heq, -⟩ <;> omega

theorem KeepsTombstones.isTombstone (h : KeepsTombstones projectId db db')
    (hrec : Recorded db db' projectId) (hgone : IsTombstone db projectId id) :
    IsTombstone db' projectId id := by
  obtain ⟨e, he, rfl, htype, hdeleted⟩ := isTombstone_iff.mp hgone
  obtain ⟨e', he', hid, hrevision⟩ := h e he htype hdeleted
  have hfollows := hrec.follows_of_id he he' hid
  obtain ⟨-, hsame, -⟩ := hfollows.revision.resolve_left (by omega)
  exact isTombstone_iff.mpr ⟨e', he', hid, hfollows.type.trans htype, hsame.trans hdeleted⟩

end Entries

section Wire

variable {db : Db} {viewer projectId : Uuid} {keyOf : Uuid → Option EncryptedBlob}
  {valuesOf : Uuid → List SecretValueRecord} {row : EntryRow}

@[simp] theorem wireEntry_type : (wireEntry keyOf valuesOf row).type = row.type := by
  unfold wireEntry
  dsimp only
  split
  · rfl
  split
  · rfl
  split <;> (rename_i htype; exact htype.symm)

theorem wireEntry_shown (h : row.deleted = decide (row.encryptedMeta = none)) :
    (wireEntry keyOf valuesOf row).shown = row.encryptedMeta := by
  unfold wireEntry
  dsimp only
  split
  · rename_i hdeleted
    rw [hdeleted] at h
    exact (of_decide_eq_true h.symm).symm
  split
  · rename_i hnone
    exact hnone.symm
  · rename_i encryptedMeta hsome
    rw [hsome]
    split <;> rfl

/-- The record of a secret has values for the environments that the viewer sees one of. -/
theorem mem_wireEntry_environments (keyOf : Uuid → Option EncryptedBlob) (viewer : Uuid)
    {rows : List EntryRow} (htidy : Tidy db) (hrow : row ∈ rows)
    (hentry : row ∈ entriesOf db projectId) (environmentId : Uuid) :
    environmentId ∈ (wireEntry keyOf (ProjectsStore.valuesOf db projectId
        (viewerEnvironments db projectId viewer) rows) row).values.map
          SecretValueRecord.environmentId ↔
      row.type = .secret ∧ row.encryptedMeta ≠ none ∧
        SeesValue db viewer projectId row.id environmentId := by
  have hdeleted := htidy.entries row (mem_entriesOf.mp hentry).1
  rw [List.mem_map]
  constructor
  · rintro ⟨r, hr, rfl⟩
    obtain ⟨htype, -, hmeta, hr⟩ := mem_wireEntry_values.mp hr
    obtain ⟨-, v, hv, hproject, hsecret, hkey, rfl⟩ := mem_valuesOf.mp hr
    exact ⟨htype, Option.isSome_iff_ne_none.mp hmeta,
      hasValue_iff.mpr ⟨v, hv, hproject, hsecret, rfl⟩, mem_viewerEnvironments.mp hkey⟩
  · rintro ⟨htype, hmeta, hvalue, hkey⟩
    obtain ⟨v, hv, hproject, hsecret, rfl⟩ := hasValue_iff.mp hvalue
    have hlive : row.deleted = false := by
      rw [hdeleted]
      exact decide_eq_false hmeta
    refine ⟨v.record, mem_wireEntry_values.mpr
      ⟨htype, hlive, Option.isSome_iff_ne_none.mpr hmeta, mem_valuesOf.mpr ⟨?_, ?_⟩⟩, rfl⟩
    · exact ⟨row, hrow, htype, hlive, rfl⟩
    · exact ⟨v, hv, hproject, hsecret, mem_viewerEnvironments.mpr hkey, rfl⟩

/-- What the server sends is the entry as it is. -/
theorem sent_wireEntry (keyOf : Uuid → Option EncryptedBlob) (viewer : Uuid)
    {rows : List EntryRow} (htidy : Tidy db) (hrow : row ∈ rows)
    (hentry : row ∈ entriesOf db projectId) :
    (wireEntry keyOf (ProjectsStore.valuesOf db projectId
      (viewerEnvironments db projectId viewer) rows) row).Sent db viewer projectId := by
  have hdeleted := htidy.entries row (mem_entriesOf.mp hentry).1
  have hmem := mem_wireEntry_environments keyOf viewer htidy hrow hentry
  refine ⟨⟨row, hentry, ?_, wireEntry_type.symm, Or.inr ⟨?_, ?_, ?_, ?_⟩⟩, ?_⟩
  · rw [wireEntry_base]
  · rw [wireEntry_base]
  · exact (wireEntry_shown hdeleted).symm
  · intro htype hlive environmentId hsees
    rw [wireEntry_shown hdeleted] at hlive
    exact (hmem environmentId).mpr ⟨htype, hlive, hsees⟩
  · intro environmentId hhas
    obtain ⟨htype, -, hsees⟩ := (hmem environmentId).mp hhas
    exact ⟨htype, Or.inl hsees⟩
  · intro htype hnone
    rw [wireEntry_type] at htype
    rw [wireEntry_shown hdeleted] at hnone
    rw [wireEntry_base]
    refine isTombstone_iff.mpr ⟨row, hentry, rfl, htype, ?_⟩
    rw [hdeleted]
    exact decide_eq_true hnone

theorem entryRefusal_conflict {w : EntryWrite} {current : Option EntryRow} {entry : ProjectEntry}
    (h : entryRefusal db w current = some (.conflict entry)) :
    ∃ c, current = some c ∧ entry = hydrateRow db w.projectId w.viewer c := by
  unfold entryRefusal at h
  split at h
  · cases h
  split at h
  · cases current with
    | none => cases h
    | some c =>
      cases h
      exact ⟨c, rfl, rfl⟩
  split at h
  · cases h
  split at h
  · cases h
  split at h
  · cases h
  · cases h

theorem writeEntry_conflict {w : EntryWrite} {current : ProjectEntry}
    (h : (writeEntry db w).1 = .conflict current) :
    ∃ c ∈ entriesOf db w.projectId, current = hydrateRow db w.projectId w.viewer c := by
  unfold writeEntry at h
  split at h
  · cases h
  dsimp only at h
  split at h
  · rename_i refusal hrefusal
    obtain rfl : refusal = .conflict current := h
    obtain ⟨c, hfind, rfl⟩ := entryRefusal_conflict hrefusal
    obtain ⟨hc, hkey⟩ := Table.find_eq_some.mp hfind
    exact ⟨c, mem_entriesOf.mpr ⟨hc, congrArg Prod.fst hkey⟩, rfl⟩
  · split at h
    · cases h
    · cases h

/-- A write is answered with the entry as it is then. -/
theorem sent_writeEntry (hdb : Reachable db) {w : EntryWrite} {entry : ProjectEntry}
    (h : (writeEntry db w).1.answer = some entry) :
    entry.Sent (writeEntry db w).2 w.viewer w.projectId := by
  rcases writeEntry_cases db w with ⟨seq, hw, hok⟩ | ⟨hsame, hnot⟩
  · rw [hok] at h
    obtain rfl := Option.some_inj.mp h
    exact sent_wireEntry _ _ (hdb.write (.entry db w)).tidy List.mem_cons_self
      (mem_entriesOf.mpr ⟨(hw.entries _).mpr (Or.inr rfl), rfl⟩)
  · rw [hsame]
    cases hresult : (writeEntry db w).1 with
    | ok current => exact absurd hresult (hnot current)
    | conflict current =>
      rw [hresult] at h
      obtain rfl := Option.some_inj.mp h
      obtain ⟨c, hc, rfl⟩ := writeEntry_conflict hresult
      exact sent_wireEntry _ _ hdb.tidy List.mem_cons_self hc
    | _ =>
      rw [hresult] at h
      cases h

end Wire

section Writes

variable {db db' : Db} {viewer projectId id : Uuid} {type : EntryType} {revision : ℕ}
  {shown : Option EncryptedBlob} {has excused excused' : Uuid → Prop}

/-- While a secret keeps its revision, the viewer sees the values it saw, but for those of
environments that are deleted. -/
theorem StoreWrite.seesValue_iff (hwrite : StoreWrite db db') (htidy : Tidy db)
    (hkeys : KeepsKeys viewer projectId db db') {e e' : EntryRow}
    (he : e ∈ entriesOf db projectId) (he' : e' ∈ entriesOf db' projectId) (hid : e'.id = e.id)
    (hrevision : e'.revision = e.revision) (environmentId : Uuid) :
    SeesValue db' viewer projectId e.id environmentId ↔
      SeesValue db viewer projectId e.id environmentId ∧
        ¬ IsTombstone db' projectId environmentId := by
  have hvalue : HasValue db' projectId e.id environmentId ↔
      HasValue db projectId e.id environmentId ∧ ¬ IsTombstone db' projectId environmentId :=
    hwrite.hasValue_iff htidy he he' hid hrevision
  constructor
  · rintro ⟨hnew, hkey⟩
    obtain ⟨hold, hthere⟩ := hvalue.mp hnew
    exact ⟨⟨hold, (hkeys.environments _ _ hold hthere).mp hkey⟩, hthere⟩
  · rintro ⟨⟨hold, hkey⟩, hthere⟩
    exact ⟨hvalue.mpr ⟨hold, hthere⟩, (hkeys.environments _ _ hold hthere).mpr hkey⟩

/-- A write leaves what was sent as it is, or revises the entry. A value of an environment that it
deletes is excused. -/
theorem Recalls.write (h : Recalls db viewer projectId type id revision shown has excused)
    (hwrite : StoreWrite db db') (hdb : Reachable db) (hkeys : KeepsKeys viewer projectId db db')
    (hkept : ∀ environmentId, excused environmentId → excused' environmentId)
    (hdeleted : ∀ environmentId, HasValue db projectId id environmentId →
      IsTombstone db' projectId environmentId → excused' environmentId) :
    Recalls db' viewer projectId type id revision shown has excused' := by
  obtain ⟨row, hrow, rfl, rfl, hage⟩ := h
  have hrec := hwrite.recorded (hdb.feedOrdered projectId)
  obtain ⟨row', hrow', hfollows⟩ := hrec.entries.follows row hrow
  refine ⟨row', hrow', hfollows.id, hfollows.type, ?_⟩
  rcases hage with hold | ⟨rfl, hcurrent⟩
  · exact Or.inl (hold.trans_le hfollows.revision_le)
  rcases hfollows.revision with hrevised | ⟨hrevision, -, hmeta⟩
  · exact Or.inl hrevised
  have hiff := hwrite.seesValue_iff hdb.tidy hkeys hrow hrow' hfollows.id hrevision
  refine Or.inr ⟨hrevision.symm, hmeta.trans hcurrent.encryptedMeta, ?_, ?_⟩
  · intro htype hlive environmentId hsees
    rw [hfollows.id] at hsees
    exact hcurrent.holds (hfollows.type.symm.trans htype) hlive environmentId
      ((hiff environmentId).mp hsees).1
  · intro environmentId hhas
    obtain ⟨htype, hsees⟩ := hcurrent.sees environmentId hhas
    refine ⟨hfollows.type.trans htype, ?_⟩
    rw [hfollows.id]
    rcases hsees with hsees | hexcused
    · by_cases hgone : IsTombstone db' projectId environmentId
      · exact Or.inr (hdeleted environmentId hsees.1 hgone)
      · exact Or.inl ((hiff environmentId).mpr ⟨hsees, hgone⟩)
    · exact Or.inr (hkept environmentId hexcused)

theorem Recalls.imp (h : Recalls db viewer projectId type id revision shown has excused)
    {has' : Uuid → Prop} (hholds : ∀ environmentId, SeesValue db viewer projectId id environmentId →
      has environmentId → has' environmentId)
    (hsees : ∀ environmentId, has' environmentId → has environmentId)
    (hexcused : ∀ environmentId, type = .secret → has' environmentId → excused environmentId →
      excused' environmentId) :
    Recalls db viewer projectId type id revision shown has' excused' := by
  obtain ⟨row, hrow, rfl, rfl, hage⟩ := h
  refine ⟨row, hrow, rfl, rfl, hage.imp_right fun ⟨hrevision, hcurrent⟩ => ⟨hrevision, ?_⟩⟩
  refine ⟨hcurrent.encryptedMeta, fun htype hlive environmentId hvalue => ?_,
    fun environmentId hhas => ?_⟩
  · exact hholds environmentId hvalue (hcurrent.holds htype hlive environmentId hvalue)
  · obtain ⟨htype, hseen⟩ := hcurrent.sees environmentId (hsees environmentId hhas)
    exact ⟨htype, hseen.imp_right (hexcused environmentId htype hhas)⟩

theorem ProjectEntry.Sent.write {entry : ProjectEntry} (h : entry.Sent db viewer projectId)
    (hwrite : StoreWrite db db') (hdb : Reachable db) (hkeys : KeepsKeys viewer projectId db db')
    (hdeleted : KeepsTombstones projectId db db') : entry.Sent db' viewer projectId where
  recalls := by
    refine h.recalls.write hwrite hdb hkeys (fun environmentId hgone => ?_) fun _ _ hgone => hgone
    exact hdeleted.isTombstone (hwrite.recorded (hdb.feedOrdered projectId)) hgone
  gone htype hnone :=
    hdeleted.isTombstone (hwrite.recorded (hdb.feedOrdered projectId)) (h.gone htype hnone)

end Writes

end Zvault
