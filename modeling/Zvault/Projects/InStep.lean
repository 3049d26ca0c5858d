import Zvault.Projects.Recalled

/-!
# Keeping a copy in step

Any number of pulls and writes of a client work on its copy of a project while the
server serves others. The copy follows the server when no entry is stored behind a
newer one, or with a value that was dropped, and no deleted environment comes back.
A pull that runs alone then leaves the entries that the server has in the copy.
-/

namespace Zvault

open Concurrent Relational ProjectsStore
open Function (update)

namespace CopyWorld

variable (viewer projectId : Uuid) (w : CopyWorld)

/-- A value may be in the copy of an environment whose removal was not applied yet. -/
def Excused (environmentId : Uuid) : Prop :=
  IsTombstone w.db projectId environmentId ∧ ¬ w.Dropped projectId environmentId

/-- What lies up to a position was applied, or is among the entries that are about to be. -/
def Covers (position : ℕ) (entries : List ProjectEntry) : Prop :=
  ∀ row ∈ entriesOf w.db projectId, row.seq ≤ position → row.revision ≤ w.applied row.id ∨
    ∃ entry ∈ entries, entry.base.id = row.id ∧ row.revision ≤ entry.base.revision

/-- The copy of an entry is the newest revision that was applied. -/
structure Keeps (type : EntryType) (id : Uuid) (known : CopiedEntry) : Prop where
  newest : known.revision = w.applied id
  recalls : Recalls w.db viewer projectId type id known.revision (some known.encryptedMeta)
    (fun environmentId => (known.values environmentId).isSome = true) (w.Excused projectId)

structure Sound : Prop where
  reachable : Reachable w.db
  member : (getAccess w.db projectId viewer).any (·.member) = true
  applied : ∀ id, w.applied id = 0 ∨
    ∃ row ∈ entriesOf w.db projectId, row.id = id ∧ w.applied id ≤ row.revision
  known : ∀ type id, ∀ known ∈ w.copy.entries type id, w.Keeps viewer projectId type id known
  unknown : ∀ row ∈ entriesOf w.db projectId, w.copy.entries row.type row.id = none →
    w.applied row.id < row.revision ∨ row.encryptedMeta = none
  cursor : w.copy.cursor ≤ seqOf w.db projectId
  covers : w.Covers projectId w.copy.cursor []

end CopyWorld

namespace CopyTask

/-- The entries that a task is not done with. -/
def entries : CopyTask → List ProjectEntry
  | .apply entries _ => entries
  | .store entry entries _ => entry :: entries
  | _ => []

/-- Where a pull will be when its entries have been applied. -/
def position : CopyTask → Option ℕ
  | .fetching since => some since
  | .apply _ (.page cursor _) | .store _ _ (.page cursor _) => some cursor
  | _ => none

/-- What a task relies on while it waits. -/
structure Follows (viewer projectId : Uuid) (w : CopyWorld) (task : CopyTask) : Prop where
  sent : ∀ entry ∈ task.entries, entry.Sent w.db viewer projectId
  covers : ∀ position ∈ task.position,
    position ≤ seqOf w.db projectId ∧ w.Covers projectId position task.entries
  own : ∀ write, task = .sends write → write.projectId = projectId ∧ write.viewer = viewer

end CopyTask

section Applied

variable {viewer projectId : Uuid} {w w' : CopyWorld} {entry : ProjectEntry}

theorem CopyWorld.le_note (w : CopyWorld) (entry : ProjectEntry) (id : Uuid) :
    w.applied id ≤ (w.note entry).applied id := by
  rcases eq_or_ne id entry.base.id with rfl | hne
  · simp only [note, Function.update_self, le_max_left]
  · simp only [note, Function.update_of_ne hne, le_refl]

theorem CopyWorld.revision_le_note (w : CopyWorld) (entry : ProjectEntry) :
    entry.base.revision ≤ (w.note entry).applied entry.base.id := by
  simp only [note, Function.update_self, le_max_right]

theorem CopyWorld.note_of_ne (w : CopyWorld) {id : Uuid} (h : id ≠ entry.base.id) :
    (w.note entry).applied id = w.applied id :=
  Function.update_of_ne h ..

theorem CopyWorld.note_self (w : CopyWorld) (entry : ProjectEntry) :
    (w.note entry).applied entry.base.id = max (w.applied entry.base.id) entry.base.revision :=
  Function.update_self ..

/-- What was applied of an entry is no newer than the entry. -/
theorem CopyWorld.Sound.applied_le (h : w.Sound viewer projectId) {row : EntryRow}
    (hrow : row ∈ entriesOf w.db projectId) : w.applied row.id ≤ row.revision := by
  rcases h.applied row.id with hzero | ⟨row', hrow', hid, hle⟩
  · omega
  · rwa [eq_of_mem_entriesOf hrow' hrow hid] at hle

/-- A record that was sent is of an entry that is there, and no newer. -/
theorem ProjectEntry.Sent.row (h : entry.Sent w.db viewer projectId) :
    ∃ row ∈ entriesOf w.db projectId, row.id = entry.base.id ∧ row.type = entry.type ∧
      entry.base.revision ≤ row.revision ∧
      (entry.base.revision = row.revision → row.encryptedMeta = entry.shown) := by
  obtain ⟨row, hrow, hid, htype, hage⟩ := h.recalls
  refine ⟨row, hrow, hid, htype, ?_⟩
  rcases hage with hlt | ⟨heq, hcurrent⟩
  · exact ⟨hlt.le, fun heq => absurd heq hlt.ne⟩
  · exact ⟨heq.le, fun _ => hcurrent.encryptedMeta⟩

theorem CopyWorld.Sound.note_applied (h : w.Sound viewer projectId)
    (hsent : entry.Sent w.db viewer projectId) (id : Uuid) : (w.note entry).applied id = 0 ∨
      ∃ row ∈ entriesOf w.db projectId, row.id = id ∧ (w.note entry).applied id ≤ row.revision := by
  rcases eq_or_ne id entry.base.id with rfl | hne
  · obtain ⟨row, hrow, hid, -, hle, -⟩ := hsent.row
    have hold := h.applied_le hrow
    rw [hid] at hold
    refine Or.inr ⟨row, hrow, hid, ?_⟩
    rw [w.note_self]
    exact max_le hold hle
  · rw [w.note_of_ne hne]
    exact h.applied id

/-- What was covered stays so: a write puts its entries behind the position. -/
theorem CopyWorld.Covers.mono {position : ℕ} {entries : List ProjectEntry}
    (h : w.Covers projectId position entries) (hrec : Recorded w.db w'.db projectId)
    (happlied : ∀ id, w.applied id ≤ w'.applied id) (hposition : position ≤ seqOf w.db projectId) :
    w'.Covers projectId position entries := by
  intro row hrow hle
  rcases hrec.entries.write.advances row hrow with hold | hbehind
  · exact (h row hold hle).imp_left fun hcovered => hcovered.trans (happlied row.id)
  · omega

/-- A step is done with the first entry. -/
theorem CopyWorld.Covers.rest {position : ℕ} {entries : List ProjectEntry}
    (h : w.Covers projectId position (entry :: entries))
    (hdone : entry.base.revision ≤ w.applied entry.base.id) :
    w.Covers projectId position entries := by
  intro row hrow hle
  rcases h row hrow hle with hcovered | ⟨sent, hsent, hid, hrevision⟩
  · exact Or.inl hcovered
  · rcases List.mem_cons.mp hsent with rfl | hsent
    · rw [hid] at hdone
      exact Or.inl (hrevision.trans hdone)
    · exact Or.inr ⟨sent, hsent, hid, hrevision⟩

end Applied

section Writes

variable {viewer projectId : Uuid} {w : CopyWorld} {db' : Db}

/-- A write revises an entry, so it drops nothing that was applied. -/
theorem CopyWorld.Dropped.of_write {environmentId : Uuid} (h : w.Sound viewer projectId)
    (hwrite : StoreWrite w.db db')
    (hdropped : { w with db := db' }.Dropped projectId environmentId) :
    w.Dropped projectId environmentId := by
  obtain ⟨e', he', rfl, htype, hdeleted, hle⟩ := hdropped
  have hrec := hwrite.recorded (h.reachable.feedOrdered projectId)
  rcases h.applied e'.id with hzero | ⟨e, he, hid, hnewest⟩
  · have hpositive := (h.reachable.write hwrite).tidy.revised e' (mem_entriesOf.mp he').1
    dsimp only at hle
    omega
  · have hfollows := hrec.follows_of_id he he' hid.symm
    have hrevision := hfollows.revision_le
    dsimp only at hle
    obtain ⟨-, hsame, -⟩ := hfollows.revision.resolve_left (by omega)
    exact ⟨e, he, hid, hfollows.type.symm.trans htype, hsame.symm.trans hdeleted, by omega⟩

/-- What the server serves keeps the copy sound. -/
theorem CopyWorld.Sound.write (h : w.Sound viewer projectId) (hwrite : StoreWrite w.db db')
    (hkeys : KeepsKeys viewer projectId w.db db') (hdeleted : KeepsTombstones projectId w.db db') :
    { w with db := db' }.Sound viewer projectId := by
  have hrec := hwrite.recorded (h.reachable.feedOrdered projectId)
  refine ⟨h.reachable.write hwrite, hkeys.member h.member, fun id => ?_,
    fun type id known hknown => ?_, fun row hrow hnone => ?_,
    h.cursor.trans hrec.entries.write.counter,
    h.covers.mono hrec (fun _ => le_rfl) h.cursor⟩
  · refine (h.applied id).imp_right ?_
    rintro ⟨row, hrow, rfl, hle⟩
    obtain ⟨row', hrow', hfollows⟩ := hrec.entries.follows row hrow
    exact ⟨row', hrow', hfollows.id, hle.trans hfollows.revision_le⟩
  · have hkeeps := h.known type id known hknown
    refine ⟨hkeeps.newest, hkeeps.recalls.write hwrite h.reachable hkeys ?_ ?_⟩
    · rintro environmentId ⟨hgone, hnot⟩
      exact ⟨hdeleted.isTombstone hrec hgone, fun hdropped => hnot (.of_write h hwrite hdropped)⟩
    · intro environmentId hvalue hgone
      refine ⟨hgone, fun hdropped => h.reachable.tidy.hasValue hvalue ?_⟩
      obtain ⟨e, he, hid, htype, hremoved, -⟩ := Dropped.of_write h hwrite hdropped
      exact isTombstone_iff.mpr ⟨e, he, hid, htype, hremoved⟩
  · rcases h.applied row.id with hzero | ⟨old, hold, hid, hle⟩
    · refine Or.inl ?_
      dsimp only at hzero ⊢
      rw [hzero]
      exact (h.reachable.write hwrite).tidy.revised row (mem_entriesOf.mp hrow).1
    · have hfollows := hrec.follows_of_id hold hrow hid.symm
      have hunknown : w.copy.entries old.type old.id = none := by
        rw [← hfollows.type, hid]
        exact hnone
      rcases hfollows.revision with hlt | ⟨hrevision, -, hmeta⟩
      · exact Or.inl (hle.trans_lt hlt)
      · rw [hmeta, hrevision, ← hid]
        exact h.unknown old hold hunknown

end Writes

section Entries

variable {viewer projectId : Uuid} {w : CopyWorld} {entry : ProjectEntry}

/-- The copy of an entry of the same id is of the same type. -/
theorem CopyWorld.Keeps.type_eq {type : EntryType} {known : CopiedEntry}
    (h : w.Keeps viewer projectId type entry.base.id known)
    (hsent : entry.Sent w.db viewer projectId) : type = entry.type := by
  obtain ⟨row, hrow, hid, rfl, -⟩ := h.recalls
  obtain ⟨row', hrow', hid', htype, -⟩ := hsent.row
  rw [← htype, eq_of_mem_entriesOf hrow hrow' (hid.trans hid'.symm)]

/-- An environment is dropped when its removal is applied. -/
theorem CopyWorld.Dropped.of_note {copy : ProjectCopy} {environmentId : Uuid}
    (h : w.Sound viewer projectId) (hsent : entry.Sent w.db viewer projectId)
    (hother : environmentId ≠ entry.base.id ∨ entry.type ≠ .environment ∨ entry.shown ≠ none)
    (hdropped : { w.note entry with copy := copy }.Dropped projectId environmentId) :
    w.Dropped projectId environmentId := by
  obtain ⟨e, he, rfl, htype, hdeleted, hle⟩ := hdropped
  refine ⟨e, he, rfl, htype, hdeleted, ?_⟩
  change e.revision ≤ (w.note entry).applied e.id at hle
  rcases eq_or_ne e.id entry.base.id with hid | hne
  · obtain ⟨row, hrow, hid', htype', hold, hmeta⟩ := hsent.row
    obtain rfl := eq_of_mem_entriesOf he hrow (hid.trans hid'.symm)
    rw [hid, w.note_self, ← hid] at hle
    by_cases hbefore : e.revision ≤ w.applied e.id
    · exact hbefore
    · -- the entry that is noted is the removal
      have hgone := h.reachable.tidy.entries e (mem_entriesOf.mp he).1
      rw [hdeleted] at hgone
      have hnone : entry.shown = none :=
        (hmeta (by omega)).symm.trans (of_decide_eq_true hgone.symm)
      rcases hother with hother | hother | hother
      · exact absurd hid hother
      · exact absurd (htype'.symm.trans htype) hother
      · exact absurd hnone hother
  · rwa [w.note_of_ne hne] at hle

/-- What is excused stays so, unless the removal of the environment is applied. -/
theorem CopyWorld.Excused.note {copy : ProjectCopy} {environmentId : Uuid}
    (h : w.Sound viewer projectId) (hsent : entry.Sent w.db viewer projectId)
    (hother : environmentId ≠ entry.base.id ∨ entry.type ≠ .environment ∨ entry.shown ≠ none)
    (hexcused : w.Excused projectId environmentId) :
    { w.note entry with copy := copy }.Excused projectId environmentId :=
  ⟨hexcused.1, fun hdropped => hexcused.2 (.of_note h hsent hother hdropped)⟩

theorem ProjectCopy.knows_iff {copy : ProjectCopy} : copy.knows entry = true ↔
    ∃ known, copy.entries entry.type entry.base.id = some known ∧
      (entry.base.revision < known.revision ∨
        known.revision = entry.base.revision ∧ entry.rekeyed known = false) := by
  cases hknown : copy.entries entry.type entry.base.id with
  | none => simp [knows, hknown]
  | some known => simp [knows, hknown]

/-- Nothing newer is passed over. -/
theorem CopyWorld.Sound.note_of_knows (h : w.Sound viewer projectId)
    (hknows : w.copy.knows entry = true) : w.note entry = w := by
  obtain ⟨known, hknown, hage⟩ := ProjectCopy.knows_iff.mp hknows
  have hnewest := (h.known _ _ known hknown).newest
  have hmax : max (w.applied entry.base.id) entry.base.revision = w.applied entry.base.id := by
    omega
  rw [note, hmax, Function.update_eq_self]

/-- The removal of an entry is applied. -/
theorem CopyWorld.Sound.remove (h : w.Sound viewer projectId)
    (hsent : entry.Sent w.db viewer projectId) (hknows : w.copy.knows entry = false)
    (hdeleted : entry.shown = none) :
    { w.note entry with copy := w.copy.remove entry }.Sound viewer projectId := by
  have hfeed := Recorded.refl (h.reachable.feedOrdered projectId)
  refine ⟨h.reachable, h.member, h.note_applied hsent, ?_, ?_, h.cursor,
    h.covers.mono hfeed (w.le_note entry) h.cursor⟩
  · intro type id known' hknown'
    have hnot : ¬ (type = entry.type ∧ id = entry.base.id) := by
      intro hself
      simp [ProjectCopy.remove, hself] at hknown'
    simp only [ProjectCopy.remove, if_neg hnot, Option.mem_def, Option.map_eq_some_iff] at hknown'
    obtain ⟨known, hknown, rfl⟩ := hknown'
    have hkeeps := h.known type id known hknown
    have hne : id ≠ entry.base.id := by
      rintro rfl
      exact hnot ⟨hkeeps.type_eq hsent, rfl⟩
    have hnewest : known.revision = (w.note entry).applied id := by
      rw [w.note_of_ne hne]
      exact hkeeps.newest
    by_cases hdrops : entry.type = .environment ∧ type = .secret
    · rw [if_pos hdrops]
      have hhas : ∀ environmentId,
          (update known.values entry.base.id none environmentId).isSome = true ↔
            environmentId ≠ entry.base.id ∧ (known.values environmentId).isSome = true := by
        intro environmentId
        by_cases hother : environmentId = entry.base.id
        · simp [hother]
        · simp [hother]
      refine ⟨hnewest, hkeeps.recalls.imp ?_ (fun _ hnow => ((hhas _).mp hnow).2) ?_⟩
      · intro environmentId hsees hbefore
        refine (hhas environmentId).mpr ⟨?_, hbefore⟩
        rintro rfl
        exact h.reachable.tidy.hasValue hsees.1 (hsent.gone hdrops.1 hdeleted)
      · intro environmentId _ hnow hexcused
        exact hexcused.note h hsent (Or.inl ((hhas environmentId).mp hnow).1)
    · rw [if_neg hdrops]
      refine ⟨hnewest, hkeeps.recalls.imp (fun _ _ hhas => hhas) (fun _ hhas => hhas) ?_⟩
      intro environmentId htype _ hexcused
      exact hexcused.note h hsent (Or.inr (Or.inl fun henvironment => hdrops ⟨henvironment, htype⟩))
  · intro row hrow hnone
    obtain ⟨row', hrow', hid, htype, hle, hmeta⟩ := hsent.row
    by_cases hsame : row.id = entry.base.id
    · obtain rfl := eq_of_mem_entriesOf hrow hrow' (hsame.trans hid.symm)
      rcases hle.eq_or_lt with heq | hlt
      · exact Or.inr ((hmeta heq).trans hdeleted)
      · -- neither the removal nor what was applied before is as new
        have hbefore : w.applied row.id < row.revision ∨ row.encryptedMeta = none := by
          cases hknown : w.copy.entries row.type row.id with
          | none => exact h.unknown row hrow hknown
          | some known =>
            have hnewest := (h.known _ _ known hknown).newest
            have hnot : ¬ w.copy.knows entry = true := by simp [hknows]
            rw [ProjectCopy.knows_iff, ← htype, ← hid] at hnot
            refine Or.inl ?_
            by_contra hge
            exact hnot ⟨known, hknown, Or.inl (by omega)⟩
        refine hbefore.imp_left fun hbefore => ?_
        change (w.note entry).applied row.id < row.revision
        rw [hid, w.note_self, ← hid]
        omega
    · have hnot : ¬ (row.type = entry.type ∧ row.id = entry.base.id) := fun hself => hsame hself.2
      simp only [ProjectCopy.remove, if_neg hnot, Option.map_eq_none_iff] at hnone
      change (w.note entry).applied row.id < row.revision ∨ row.encryptedMeta = none
      rw [w.note_of_ne hsame]
      exact h.unknown row hrow hnone

theorem isSome_fromEntries (values : List SecretValueRecord) (before : Uuid → Option EncryptedBlob)
    (environmentId : Uuid) :
    ((values.foldl (fun (value : Uuid → Option EncryptedBlob) v =>
      update value v.environmentId (some v.encryptedValue)) before) environmentId).isSome = true ↔
        (before environmentId).isSome = true ∨
          environmentId ∈ values.map SecretValueRecord.environmentId := by
  induction values generalizing before with
  | nil => simp
  | cons v values ih =>
    rw [List.foldl_cons, ih, List.map_cons, List.mem_cons]
    by_cases hv : environmentId = v.environmentId
    · simp [hv]
    · rw [Function.update_of_ne hv]
      simp [hv]

theorem ProjectEntry.isSome_value {environmentId : Uuid} :
    (entry.value environmentId).isSome = true ↔
      environmentId ∈ entry.values.map SecretValueRecord.environmentId := by
  rw [value, isSome_fromEntries]
  simp

/-- An entry is stored that is the newest, with values that were not dropped. -/
theorem CopyWorld.Sound.store {encryptedMeta : EncryptedBlob} (h : w.Sound viewer projectId)
    (hsent : entry.Sent w.db viewer projectId) (hlive : entry.shown = some encryptedMeta)
    (hnewest : w.applied entry.base.id ≤ entry.base.revision)
    (hvalues : ∀ v ∈ entry.values, ¬ w.Dropped projectId v.environmentId) :
    { w.note entry with copy := w.copy.put entry encryptedMeta }.Sound viewer projectId := by
  have hfeed := Recorded.refl (h.reachable.feedOrdered projectId)
  have hshown : entry.shown ≠ none := by simp [hlive]
  refine ⟨h.reachable, h.member, h.note_applied hsent, ?_, ?_, h.cursor,
    h.covers.mono hfeed (w.le_note entry) h.cursor⟩
  · intro type id known hknown
    by_cases hself : type = entry.type ∧ id = entry.base.id
    · simp only [ProjectCopy.put, if_pos hself, Option.mem_def, Option.some_inj] at hknown
      subst hknown
      obtain ⟨rfl, rfl⟩ := hself
      refine ⟨?_, ?_⟩
      · change entry.base.revision = (w.note entry).applied entry.base.id
        rw [w.note_self, max_eq_right hnewest]
      · have hrecalls := hsent.recalls
        rw [hlive] at hrecalls
        refine hrecalls.imp (fun _ _ hhas => ProjectEntry.isSome_value.mpr hhas)
          (fun _ hhas => ProjectEntry.isSome_value.mp hhas) ?_
        intro environmentId _ hhas hgone
        obtain ⟨v, hv, rfl⟩ := List.mem_map.mp (ProjectEntry.isSome_value.mp hhas)
        exact ⟨hgone, fun hdropped =>
          hvalues v hv (.of_note h hsent (Or.inr (Or.inr hshown)) hdropped)⟩
    · simp only [ProjectCopy.put, if_neg hself] at hknown
      have hkeeps := h.known type id known hknown
      have hne : id ≠ entry.base.id := by
        rintro rfl
        exact hself ⟨hkeeps.type_eq hsent, rfl⟩
      refine ⟨?_, hkeeps.recalls.imp (fun _ _ hhas => hhas) (fun _ hhas => hhas) ?_⟩
      · change known.revision = (w.note entry).applied id
        rw [w.note_of_ne hne]
        exact hkeeps.newest
      · intro environmentId _ _ hexcused
        exact hexcused.note h hsent (Or.inr (Or.inr hshown))
  · intro row hrow hnone
    have hnot : ¬ (row.type = entry.type ∧ row.id = entry.base.id) := by
      intro hself
      simp [ProjectCopy.put, hself] at hnone
    have hne : row.id ≠ entry.base.id := by
      intro hid
      obtain ⟨row', hrow', hid', htype, -⟩ := hsent.row
      rw [eq_of_mem_entriesOf hrow hrow' (hid.trans hid'.symm)] at hnot
      exact hnot ⟨htype, hid'⟩
    simp only [ProjectCopy.put, if_neg hnot] at hnone
    change (w.note entry).applied row.id < row.revision ∨ row.encryptedMeta = none
    rw [w.note_of_ne hne]
    exact h.unknown row hrow hnone

end Entries

section Steps

variable {viewer projectId : Uuid} {w w' : CopyWorld} {ok : Bool} {task other : CopyTask}
  {next : Option CopyTask}

/-- A request of a page drops lapsed grants, whatever it is answered. -/
theorem sync_write {db db' : Db} {since limit : ℕ} {now : Timestamp}
    {answer : Except ApiError SyncProjectResponse}
    (h : ProjectsService.sync db viewer projectId since limit now = (answer, db')) :
    StoreWrite db db' := by
  have hsource := ProjectsService.access_snd db viewer projectId now
  have hupkeep : StoreWrite db (ProjectPolicy.beforeAccess db projectId now) :=
    .access (.upkeep (.reconcile _ projectId now))
  rw [← hsource] at hupkeep
  unfold ProjectsService.sync at h
  cases haccess : ProjectsService.access db viewer projectId now with
  | mk result db₁ =>
    rw [haccess] at h hupkeep
    cases result with
    | error e =>
      obtain ⟨-, rfl⟩ := Prod.mk.inj h
      exact hupkeep
    | ok access =>
      obtain ⟨-, rfl⟩ := Prod.mk.inj h
      exact hupkeep

/-- The server stays as it is, or it serves something. -/
theorem CopyStep.serves (h : CopyStep viewer projectId w ok task w' next) :
    w'.db = w.db ∨ StoreWrite w.db w'.db := by
  cases h with
  | fetched now h => exact Or.inr (sync_write h)
  | refused now h => exact Or.inr (sync_write h)
  | sent write => exact Or.inr (.entry w.db write)
  | unanswered write => exact Or.inr (.entry w.db write)
  | others h => exact Or.inr h
  | _ => exact Or.inl rfl

theorem CopyStep.recorded (hsound : w.Sound viewer projectId)
    (h : CopyStep viewer projectId w ok task w' next) : Recorded w.db w'.db projectId := by
  have hfeed := hsound.reachable.feedOrdered projectId
  rcases h.serves with hsame | hwrite
  · rw [hsame]
    exact .refl hfeed
  · exact hwrite.recorded hfeed

theorem CopyStep.applied_le (h : CopyStep viewer projectId w ok task w' next) (id : Uuid) :
    w.applied id ≤ w'.applied id := by
  cases h with
  | passes => exact w.le_note _ id
  | removes => exact w.le_note _ id
  | stores => exact w.le_note _ id
  | _ => exact le_rfl

theorem ProjectEntry.Sent.step {entry : ProjectEntry} (hentry : entry.Sent w.db viewer projectId)
    (hsound : w.Sound viewer projectId) (horderly : Orderly viewer projectId w ok task w')
    (h : CopyStep viewer projectId w ok task w' next) : entry.Sent w'.db viewer projectId := by
  rcases h.serves with hsame | hwrite
  · rwa [hsame]
  · exact hentry.write hwrite hsound.reachable horderly.keys horderly.deleted

/-- A step leaves what the tasks rely on that wait meanwhile. -/
theorem CopyTask.Follows.mono (hfollows : other.Follows viewer projectId w)
    (hsound : w.Sound viewer projectId) (horderly : Orderly viewer projectId w ok task w')
    (h : CopyStep viewer projectId w ok task w' next) : other.Follows viewer projectId w' where
  sent entry hentry := (hfollows.sent entry hentry).step hsound horderly h
  covers position hposition := by
    obtain ⟨hle, hcovers⟩ := hfollows.covers position hposition
    have hrec := h.recorded hsound
    exact ⟨hle.trans hrec.entries.write.counter, hcovers.mono hrec h.applied_le hle⟩
  own := hfollows.own

/-- A page is done. -/
theorem CopyWorld.Sound.turn (hsound : w.Sound viewer projectId) {cursor : ℕ}
    (hle : cursor ≤ seqOf w.db projectId) (hcovers : w.Covers projectId cursor []) :
    { w with copy := { w.copy with cursor } }.Sound viewer projectId := by
  refine ⟨hsound.reachable, hsound.member, hsound.applied, fun type id known hknown => ?_,
    hsound.unknown, hle, hcovers⟩
  have hkeeps := hsound.known type id known hknown
  exact ⟨hkeeps.newest, hkeeps.recalls⟩

/-- Every step keeps the copy sound. -/
theorem CopyWorld.Sound.step (hsound : w.Sound viewer projectId)
    (hfollows : task.Follows viewer projectId w) (horderly : Orderly viewer projectId w ok task w')
    (h : CopyStep viewer projectId w ok task w' next) : w'.Sound viewer projectId := by
  cases h with
  | pull => exact hsound
  | fetched now h => exact hsound.write (sync_write h) horderly.keys horderly.deleted
  | refused now h => exact hsound.write (sync_write h) horderly.keys horderly.deleted
  | lost => exact hsound
  | passes entries goal hknows =>
    rw [hsound.note_of_knows hknows]
    exact hsound
  | removes entries goal hknows hdeleted =>
    exact hsound.remove (hfollows.sent _ List.mem_cons_self) hknows hdeleted
  | opens => exact hsound
  | stores entries goal hlive =>
    obtain ⟨-, hnewest, hvalues⟩ := horderly.newest _ _ _ rfl
    exact hsound.store (hfollows.sent _ List.mem_cons_self) hlive hnewest hvalues
  | unreadable => exact hsound
  | turns cursor hasMore =>
    obtain ⟨hle, hcovers⟩ := hfollows.covers cursor rfl
    exact hsound.turn hle hcovers
  | ends => exact hsound
  | sent write => exact hsound.write (.entry w.db write) horderly.keys horderly.deleted
  | unanswered write => exact hsound.write (.entry w.db write) horderly.keys horderly.deleted
  | unsent => exact hsound
  | others h => exact hsound.write h horderly.keys horderly.deleted

theorem CopyTask.follows_of_idle (hentries : task.entries = []) (hposition : task.position = none)
    (hown : ∀ write, task = .sends write → write.projectId = projectId ∧ write.viewer = viewer) :
    task.Follows viewer projectId w := by
  refine ⟨?_, ?_, hown⟩
  · rw [hentries]
    rintro entry ⟨⟩
  · rw [hposition]
    rintro position ⟨⟩

/-- A step is done with the first entry. -/
theorem CopyTask.Follows.rest {entry : ProjectEntry} {entries : List ProjectEntry} {goal : CopyGoal}
    (h : task.Follows viewer projectId w) (hentries : task.entries = entry :: entries)
    (hposition : (CopyTask.apply entries goal).position = task.position)
    (hdone : entry.base.revision ≤ w.applied entry.base.id) :
    (CopyTask.apply entries goal).Follows viewer projectId w where
  sent sent hsent := h.sent sent (by rw [hentries]; exact List.mem_cons_of_mem _ hsent)
  covers position hmem := by
    obtain ⟨hle, hcovers⟩ := h.covers position (hposition ▸ hmem)
    rw [hentries] at hcovers
    exact ⟨hle, hcovers.rest hdone⟩
  own _ h := by cases h

/-- A page is fetched. -/
theorem CopyWorld.Sound.fetch (hsound : w.Sound viewer projectId) {since limit : ℕ}
    {res : SyncProjectResponse} (hasMore : Bool)
    (hpage : ProjectsService.Page w.db viewer projectId since limit res)
    (hle : since ≤ seqOf w.db projectId) (hcovers : w.Covers projectId since []) :
    (CopyTask.apply res.entries (.page res.cursor hasMore)).Follows viewer projectId w := by
  have hfeed := hsound.reachable.feedOrdered projectId
  refine ⟨fun entry hentry => ?_, ?_, fun _ h => by cases h⟩
  · change entry ∈ res.entries at hentry
    rw [hpage.entries] at hentry
    obtain ⟨row, hrow, rfl⟩ := List.mem_map.mp hentry
    refine sent_wireEntry _ _ hsound.reachable.tidy ?_ (Feed.mem_of_mem_page hrow).1
    rw [← Feed.take_page] at hrow
    exact List.mem_of_mem_take hrow
  · rintro position ⟨⟩
    constructor
    · rw [hpage.cursor]
      rcases Feed.cursor_le since limit hfeed.bounded with heq | hlast
      · omega
      · exact hlast
    · intro row hrow hseq
      by_cases hbefore : row.seq ≤ since
      · refine (hcovers row hrow hbefore).imp_right ?_
        rintro ⟨entry, ⟨⟩, -⟩
      · rw [hpage.cursor] at hseq
        have hmem := Feed.mem_page_of_le_cursor hfeed.distinct hrow (by omega) hseq
        obtain ⟨entry, hentry, hbase⟩ : ∃ entry ∈ res.entries,
            entry.base = ⟨row.id, row.projectId, row.revision, row.seq, row.updatedAt⟩ := by
          rw [hpage.entries]
          exact ⟨_, List.mem_map_of_mem hmem, wireEntry_base ..⟩
        refine Or.inr ⟨entry, hentry, ?_⟩
        rw [hbase]
        exact ⟨rfl, le_rfl⟩

/-- A step leads to what the next one relies on. -/
theorem CopyStep.follows {n : CopyTask} (hsound : w.Sound viewer projectId)
    (hfollows : task.Follows viewer projectId w) (horderly : Orderly viewer projectId w ok task w')
    (h : CopyStep viewer projectId w ok task w' (some n)) : n.Follows viewer projectId w' := by
  have hsound' := hsound.step hfollows horderly h
  have hkept := hfollows.mono hsound horderly h
  have hposition : ∀ {entry entries goal}, (CopyTask.apply entries goal).position =
      (CopyTask.apply (entry :: entries) goal).position := by
    intro entry entries goal
    cases goal <;> rfl
  have hposition' : ∀ {entry entries goal}, (CopyTask.apply entries goal).position =
      (CopyTask.store entry entries goal).position := by
    intro entry entries goal
    cases goal <;> rfl
  generalize hnext : some n = next at h
  cases h with
  | pull =>
    obtain rfl := Option.some_inj.mp hnext
    refine ⟨?_, ?_, fun _ h => by cases h⟩
    · rintro entry ⟨⟩
    · rintro position ⟨⟩
      exact ⟨hsound.cursor, hsound.covers⟩
  | fetched now h =>
    obtain rfl := Option.some_inj.mp hnext
    obtain ⟨-, hpage⟩ := ProjectsService.sync_ok h
    obtain ⟨hle, hcovers⟩ := hkept.covers _ rfl
    exact hsound'.fetch _ hpage hle hcovers
  | passes entries goal hknows =>
    obtain rfl := Option.some_inj.mp hnext
    exact hkept.rest rfl hposition (w.revision_le_note _)
  | removes entries goal hknows hdeleted =>
    obtain rfl := Option.some_inj.mp hnext
    exact hkept.rest rfl hposition (w.revision_le_note _)
  | opens entries goal hknows hlive =>
    obtain rfl := Option.some_inj.mp hnext
    refine ⟨hkept.sent, fun position hmem => hkept.covers position ?_, fun _ h => by cases h⟩
    cases goal <;> exact hmem
  | stores entries goal hlive =>
    obtain rfl := Option.some_inj.mp hnext
    exact hkept.rest rfl hposition' (w.revision_le_note _)
  | unreadable entry entries goal =>
    obtain ⟨hok, -⟩ := horderly.newest _ _ _ rfl
    cases hok
  | turns cursor hasMore =>
    cases hasMore with
    | true =>
      obtain rfl := Option.some_inj.mp hnext
      refine ⟨?_, ?_, fun _ h => by cases h⟩
      · rintro entry ⟨⟩
      · rintro position ⟨⟩
        exact hkept.covers cursor rfl
    | false => cases hnext
  | sent write =>
    obtain ⟨entry, hanswer, rfl⟩ := Option.map_eq_some_iff.mp hnext.symm
    obtain ⟨rfl, rfl⟩ := hfollows.own write rfl
    refine ⟨fun sent hsent => ?_, ?_, fun _ h => by cases h⟩
    · obtain rfl := List.mem_singleton.mp hsent
      exact sent_writeEntry hsound.reachable hanswer
    · rintro position ⟨⟩
  | refused | lost | ends | unanswered | unsent | others => cases hnext

end Steps

theorem projectOutline (viewer projectId : Uuid) :
    Outline (copyProgram viewer projectId (Orderly viewer projectId))
      (CopyWorld.Sound viewer projectId) (fun w task => task.Follows viewer projectId w)
      fun _ _ => True := by
  refine .of_free ?_ ?_ ?_ ?_
  · intro w task _ hstart
    cases task with
    | pull => exact CopyTask.follows_of_idle rfl rfl fun _ h => by cases h
    | others => exact CopyTask.follows_of_idle rfl rfl fun _ h => by cases h
    | sends write =>
      refine CopyTask.follows_of_idle rfl rfl fun _ h => ?_
      obtain rfl := CopyTask.sends.inj h
      exact hstart
    | fetching | apply | store => cases hstart
  · rintro w task w' next hsound hfollows ⟨ok, horderly, h⟩
    exact hsound.step hfollows horderly h
  · rintro w task w' next hsound hfollows ⟨ok, horderly, h⟩
    exact h.follows hsound hfollows horderly
  · rintro w task w' next other hsound hfollows hother ⟨ok, horderly, h⟩
    exact hother.mono hsound horderly h

end Zvault
