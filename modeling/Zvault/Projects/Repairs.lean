import Zvault.Projects.Converges

/-!
# A copy that trails the server

Whatever was stored late, lost or dropped, a copy of a project is never ahead of the
server. What the server revised behind the copy's cursor is right again after the
next pull that runs alone, value for value.
-/

namespace Zvault

open Concurrent Relational ProjectsStore
open Function (update)

/-- Contents that an entry had, or has, at a revision. -/
def Trails (db : Db) (projectId : Uuid) (type : EntryType) (id : Uuid) (revision : ℕ)
    (shown : Option EncryptedBlob) : Prop :=
  ∃ row ∈ entriesOf db projectId, row.id = id ∧ row.type = type ∧
    (revision < row.revision ∨ revision = row.revision ∧ row.encryptedMeta = shown)

/-- Every copied entry is one that the server had. -/
def ProjectCopy.Behind (copy : ProjectCopy) (db : Db) (projectId : Uuid) : Prop :=
  ∀ type id, ∀ known ∈ copy.entries type id,
    Trails db projectId type id known.revision (some known.encryptedMeta)

/-- The copy of every entry is one that the server had, and the cursor is behind its counter. -/
structure CopyWorld.Behind (projectId : Uuid) (w : CopyWorld) : Prop where
  reachable : Reachable w.db
  known : w.copy.Behind w.db projectId
  cursor : w.copy.cursor ≤ seqOf w.db projectId

/-- A record that waits to be applied is one that the server had. -/
structure CopyTask.Behind (projectId : Uuid) (w : CopyWorld) (task : CopyTask) : Prop where
  sent : ∀ entry ∈ task.entries,
    Trails w.db projectId entry.type entry.base.id entry.base.revision entry.shown
  position : ∀ position ∈ task.position, position ≤ seqOf w.db projectId
  own : ∀ write, task = .sends write → write.projectId = projectId

section Steps

variable {db db' : Db} {viewer projectId : Uuid} {w w' : CopyWorld} {ok : Bool}
  {task other : CopyTask} {next : Option CopyTask} {entry : ProjectEntry}

theorem Trails.write {type : EntryType} {id : Uuid} {revision : ℕ} {shown : Option EncryptedBlob}
    (h : Trails db projectId type id revision shown) (hrec : Recorded db db' projectId) :
    Trails db' projectId type id revision shown := by
  obtain ⟨row, hrow, rfl, rfl, hage⟩ := h
  obtain ⟨row', hrow', hfollows⟩ := hrec.entries.follows row hrow
  refine ⟨row', hrow', hfollows.id, hfollows.type, ?_⟩
  rcases hage with hold | ⟨rfl, hmeta⟩
  · exact Or.inl (hold.trans_le hfollows.revision_le)
  · rcases hfollows.revision with hrevised | ⟨hrevision, -, hsame⟩
    · exact Or.inl hrevised
    · exact Or.inr ⟨hrevision.symm, hsame.trans hmeta⟩

theorem ProjectEntry.Sent.trails (h : entry.Sent db viewer projectId) :
    Trails db projectId entry.type entry.base.id entry.base.revision entry.shown := by
  obtain ⟨row, hrow, hid, htype, hage⟩ := h.recalls
  exact ⟨row, hrow, hid, htype, hage.imp_right fun ⟨hrevision, hcurrent⟩ =>
    ⟨hrevision, hcurrent.encryptedMeta⟩⟩

/-- Removing an entry, or the values of an environment, leaves the rest as it was. -/
theorem ProjectCopy.mem_remove {copy : ProjectCopy} {type : EntryType} {id : Uuid}
    {known : CopiedEntry} (h : known ∈ (copy.remove entry).entries type id) :
    ∃ before ∈ copy.entries type id, before.revision = known.revision ∧
      before.encryptedMeta = known.encryptedMeta := by
  simp only [remove] at h
  split at h
  · cases h
  · obtain ⟨before, hbefore, rfl⟩ := Option.map_eq_some_iff.mp h
    refine ⟨before, hbefore, ?_⟩
    split
    · exact ⟨rfl, rfl⟩
    · exact ⟨rfl, rfl⟩

theorem ProjectCopy.mem_put {copy : ProjectCopy} {type : EntryType} {id : Uuid}
    {encryptedMeta : EncryptedBlob} {known : CopiedEntry}
    (h : known ∈ (copy.put entry encryptedMeta).entries type id) :
    known ∈ copy.entries type id ∨ type = entry.type ∧ id = entry.base.id ∧
      known = ⟨entry.base.revision, encryptedMeta, entry.value⟩ := by
  simp only [put] at h
  split at h
  · rename_i hself
    exact Or.inr ⟨hself.1, hself.2, (Option.some_inj.mp h).symm⟩
  · exact Or.inl h

/-- The server stays as it is or serves a write. -/
theorem CopyStep.recorded_of_reachable (hdb : Reachable w.db)
    (h : CopyStep viewer projectId w ok task w' next) :
    Recorded w.db w'.db projectId ∧ Reachable w'.db := by
  have hfeed := hdb.feedOrdered projectId
  rcases h.serves with hsame | hwrite
  · rw [hsame]
    exact ⟨.refl hfeed, hdb⟩
  · exact ⟨hwrite.recorded hfeed, hdb.write hwrite⟩

/-- Every step keeps the copy behind the server. -/
theorem CopyWorld.Behind.step (hw : w.Behind projectId) (ht : task.Behind projectId w)
    (h : CopyStep viewer projectId w ok task w' next) : w'.Behind projectId := by
  obtain ⟨hrec, hdb⟩ := h.recorded_of_reachable hw.reachable
  have hcounter := hrec.entries.write.counter
  have hknown : w'.copy.Behind w.db projectId := by
    intro type id known hmem
    cases h with
    | removes entries goal hknows hdeleted =>
      obtain ⟨before, hbefore, hrevision, hmeta⟩ := ProjectCopy.mem_remove hmem
      rw [← hrevision, ← hmeta]
      exact hw.known type id before hbefore
    | stores entries goal hlive =>
      rcases ProjectCopy.mem_put hmem with hmem | ⟨rfl, rfl, rfl⟩
      · exact hw.known type id known hmem
      · have hsent := ht.sent _ List.mem_cons_self
        rwa [hlive] at hsent
    | _ => exact hw.known type id known hmem
  refine ⟨hdb, fun type id known hmem => (hknown type id known hmem).write hrec, ?_⟩
  cases h with
  | turns cursor hasMore => exact (ht.position cursor rfl).trans hcounter
  | _ => exact hw.cursor.trans hcounter

/-- A step leaves what the other tasks rely on. -/
theorem CopyTask.Behind.mono (ht : other.Behind projectId w) (hw : w.Behind projectId)
    (h : CopyStep viewer projectId w ok task w' next) : other.Behind projectId w' := by
  obtain ⟨hrec, -⟩ := h.recorded_of_reachable hw.reachable
  exact ⟨fun entry hentry => (ht.sent entry hentry).write hrec,
    fun position hposition => (ht.position position hposition).trans hrec.entries.write.counter,
    ht.own⟩

/-- Fewer entries, the same position. -/
theorem CopyTask.Behind.sub {later : CopyTask} (ht : task.Behind projectId w)
    (hentries : ∀ entry ∈ later.entries, entry ∈ task.entries)
    (hposition : ∀ position ∈ later.position, position ∈ task.position)
    (hown : ∀ write, later ≠ .sends write) : later.Behind projectId w :=
  ⟨fun entry hentry => ht.sent entry (hentries entry hentry),
    fun position hmem => ht.position position (hposition position hmem),
    fun write heq => absurd heq (hown write)⟩

/-- A step leads to what the next one relies on. -/
theorem CopyStep.behind {n : CopyTask} (hw : w.Behind projectId) (ht : task.Behind projectId w)
    (h : CopyStep viewer projectId w ok task w' (some n)) : n.Behind projectId w' := by
  have hw' := hw.step ht h
  have ht' := ht.mono hw h
  generalize hnext : some n = next at h
  cases h with
  | pull =>
    obtain rfl := Option.some_inj.mp hnext
    refine ⟨?_, ?_, fun _ h => by cases h⟩
    · rintro entry ⟨⟩
    · rintro position ⟨⟩
      exact hw.cursor
  | @fetched since db' res now h =>
    obtain rfl := Option.some_inj.mp hnext
    obtain ⟨-, hpage⟩ := ProjectsService.sync_ok h
    have hfeed := hw'.reachable.feedOrdered projectId
    refine ⟨fun entry hentry => ?_, ?_, fun _ h => by cases h⟩
    · change entry ∈ res.entries at hentry
      rw [hpage.entries] at hentry
      obtain ⟨row, hrow, rfl⟩ := List.mem_map.mp hentry
      refine (sent_wireEntry _ viewer hw'.reachable.tidy ?_ (Feed.mem_of_mem_page hrow).1).trails
      rw [← Feed.take_page] at hrow
      exact List.mem_of_mem_take hrow
    · rintro position ⟨⟩
      rw [hpage.cursor]
      rcases Feed.cursor_le since maxProjectSyncPage hfeed.bounded with heq | hlast
      · rw [heq]
        exact ht'.position since rfl
      · exact hlast
  | passes entries goal hknows =>
    obtain rfl := Option.some_inj.mp hnext
    refine ht'.sub (fun _ => List.mem_cons_of_mem _) ?_ fun _ h => by cases h
    cases goal <;> exact fun _ h => h
  | removes entries goal hknows hdeleted =>
    obtain rfl := Option.some_inj.mp hnext
    refine ht'.sub (fun _ => List.mem_cons_of_mem _) ?_ fun _ h => by cases h
    cases goal <;> exact fun _ h => h
  | opens entries goal hknows hlive =>
    obtain rfl := Option.some_inj.mp hnext
    refine ht'.sub (fun _ h => h) ?_ fun _ h => by cases h
    cases goal <;> exact fun _ h => h
  | stores entries goal hlive =>
    obtain rfl := Option.some_inj.mp hnext
    refine ht'.sub (fun _ => List.mem_cons_of_mem _) ?_ fun _ h => by cases h
    cases goal <;> exact fun _ h => h
  | unreadable entry entries goal =>
    obtain rfl := Option.some_inj.mp hnext
    refine ht'.sub (fun _ => List.mem_cons_of_mem _) ?_ fun _ h => by cases h
    cases goal <;> exact fun _ h => h
  | turns cursor hasMore =>
    cases hasMore with
    | true =>
      obtain rfl := Option.some_inj.mp hnext
      refine ht'.sub ?_ ?_ fun _ h => by cases h
      · rintro entry ⟨⟩
      · exact fun _ h => h
    | false => cases hnext
  | sent write =>
    obtain ⟨entry, hanswer, rfl⟩ := Option.map_eq_some_iff.mp hnext.symm
    obtain rfl := ht.own write rfl
    refine ⟨fun sent hsent => ?_, ?_, fun _ h => by cases h⟩
    · obtain rfl := List.mem_singleton.mp hsent
      exact (sent_writeEntry hw.reachable hanswer).trails
    · rintro position ⟨⟩
  | refused | lost | ends | unanswered | unsent | others => cases hnext

end Steps

theorem behindOutline (viewer projectId : Uuid)
    (condition : CopyWorld → Bool → CopyTask → CopyWorld → Prop) :
    Outline (copyProgram viewer projectId condition) (CopyWorld.Behind projectId)
      (fun w task => task.Behind projectId w) fun _ _ => True := by
  refine .of_free ?_ ?_ ?_ ?_
  · intro w task _ hstart
    cases task with
    | pull => exact ⟨by rintro _ ⟨⟩, by rintro _ ⟨⟩, by rintro _ ⟨⟩⟩
    | others => exact ⟨by rintro _ ⟨⟩, by rintro _ ⟨⟩, by rintro _ ⟨⟩⟩
    | sends write =>
      refine ⟨by rintro _ ⟨⟩, by rintro _ ⟨⟩, ?_⟩
      rintro _ ⟨⟩
      exact hstart.1
    | fetching | apply | store => cases hstart
  · rintro w task w' next hw ht ⟨ok, -, h⟩
    exact hw.step ht h
  · rintro w task w' next hw ht ⟨ok, -, h⟩
    exact h.behind hw ht
  · rintro w task w' next other hw ht hother ⟨ok, -, h⟩
    exact hother.mono hw h

theorem CopyWorld.behind_initial {db : Db} (hdb : Reachable db) (projectId : Uuid) :
    (CopyWorld.initial db).Behind projectId :=
  ⟨hdb, (fun _ _ _ h => by cases h), Nat.zero_le _⟩

/-- The copy has an entry as the server has it: no entry that is deleted, and of a live one its
metadata and the ciphertexts that the viewer sees. -/
def ProjectCopy.Shows (copy : ProjectCopy) (db : Db) (viewer projectId : Uuid) (row : EntryRow) :
    Prop :=
  match row.encryptedMeta with
  | none => copy.entries row.type row.id = none
  | some encryptedMeta => ∃ known, copy.entries row.type row.id = some known ∧
      known.revision = row.revision ∧ known.encryptedMeta = encryptedMeta ∧
      (row.type = .secret → ∀ environmentId, SeesValue db viewer projectId row.id environmentId →
        (known.values environmentId).map EncryptedBlob.ct =
          (valueOf db projectId row.id environmentId).map EncryptedBlob.ct)

section Alone

variable {db : Db} {viewer projectId : Uuid} {copy : ProjectCopy} {rows : List EntryRow}

/-- What the server sends of an entry. -/
def sentEntry (db : Db) (viewer projectId : Uuid) (rows : List EntryRow) (row : EntryRow) :
    ProjectEntry :=
  wireEntry (keysOf db projectId viewer)
    (valuesOf db projectId (viewerEnvironments db projectId viewer) rows) row

theorem ProjectCopy.Behind.apply (h : copy.Behind db projectId) {entry : ProjectEntry}
    (hsent : Trails db projectId entry.type entry.base.id entry.base.revision entry.shown) :
    (copy.apply entry).Behind db projectId := by
  intro type id known hmem
  unfold ProjectCopy.apply at hmem
  split at hmem
  · exact h type id known hmem
  split at hmem
  · obtain ⟨before, hbefore, hrevision, hmeta⟩ := mem_remove hmem
    rw [← hrevision, ← hmeta]
    exact h type id before hbefore
  · rename_i encryptedMeta hlive
    rcases mem_put hmem with hmem | ⟨rfl, rfl, rfl⟩
    · exact h type id known hmem
    · rwa [hlive] at hsent

/-- What is in the copy of a live entry, when it is not taken for older than what was sent. -/
theorem ProjectCopy.Behind.eq_of_knows (h : copy.Behind db projectId) {row : EntryRow}
    (hrow : row ∈ entriesOf db projectId) {known : CopiedEntry}
    (hknown : copy.entries row.type row.id = some known) (hle : row.revision ≤ known.revision) :
    known.revision = row.revision ∧ row.encryptedMeta = some known.encryptedMeta := by
  obtain ⟨row', hrow', hid, -, hage⟩ := h row.type row.id known hknown
  obtain rfl := eq_of_mem_entriesOf hrow' hrow hid
  rcases hage with hlt | ⟨heq, hmeta⟩
  · omega
  · exact ⟨heq, hmeta⟩

theorem value_of_mem {values : List SecretValueRecord} {environmentId : Uuid} {x : EncryptedBlob}
    (hsame : ∀ r ∈ values, r.environmentId = environmentId → r.encryptedValue = x)
    (before : Uuid → Option EncryptedBlob)
    (hmem : before environmentId = some x ∨ ∃ r ∈ values, r.environmentId = environmentId) :
    (values.foldl (fun (value : Uuid → Option EncryptedBlob) v =>
      update value v.environmentId (some v.encryptedValue)) before) environmentId = some x := by
  induction values generalizing before with
  | nil =>
    rcases hmem with hbefore | ⟨r, ⟨⟩, -⟩
    exact hbefore
  | cons v values ih =>
    refine ih (fun r hr => hsame r (List.mem_cons_of_mem _ hr)) _ ?_
    dsimp only
    by_cases hv : environmentId = v.environmentId
    · left
      rw [hv, Function.update_self, hsame v List.mem_cons_self hv.symm]
    · rw [Function.update_of_ne hv]
      rcases hmem with hbefore | ⟨r, hr, hid⟩
      · exact Or.inl hbefore
      · rcases List.mem_cons.mp hr with rfl | hr
        · exact absurd hid.symm hv
        · exact Or.inr ⟨r, hr, hid⟩

/-- The value that the viewer sees is among those that are sent, and the only one for its
environment. -/
theorem sentEntry_value {row : EntryRow} (htidy : Tidy db) (hrow : row ∈ rows)
    (hentry : row ∈ entriesOf db projectId) (htype : row.type = .secret)
    (hlive : row.encryptedMeta ≠ none) {environmentId : Uuid}
    (hsees : SeesValue db viewer projectId row.id environmentId) :
    ∃ x, valueOf db projectId row.id environmentId = some x ∧
      (∃ r ∈ (sentEntry db viewer projectId rows row).values, r.environmentId = environmentId) ∧
      ∀ r ∈ (sentEntry db viewer projectId rows row).values, r.environmentId = environmentId →
        r.encryptedValue = x := by
  obtain ⟨x, hx⟩ := Option.isSome_iff_exists.mp hsees.1
  refine ⟨x, hx, ?_, fun r hr hid => ?_⟩
  · have hmem := (mem_wireEntry_environments (keysOf db projectId viewer) viewer htidy hrow hentry
      environmentId).mpr ⟨htype, hlive, hsees⟩
    obtain ⟨r, hr, hid⟩ := List.mem_map.mp hmem
    exact ⟨r, hr, hid⟩
  · obtain ⟨-, -, -, hr⟩ := mem_wireEntry_values.mp hr
    obtain ⟨-, v, hv, hproject, hsecret, -, rfl⟩ := mem_valuesOf.mp hr
    have hfind : db.secretValues.find (projectId, row.id, environmentId) = some v :=
      Table.find_eq_some.mpr ⟨hv, Prod.ext hproject (Prod.ext hsecret hid)⟩
    rw [valueOf, hfind] at hx
    exact Option.some_inj.mp hx

/-- A secret is passed over only when every value that was sent has the ciphertext it has. -/
theorem ProjectEntry.ct_of_rekeyed {entry : ProjectEntry} {known : CopiedEntry}
    (hrekeyed : entry.rekeyed known = false) {r : SecretValueRecord} (hr : r ∈ entry.values) :
    (known.values r.environmentId).map EncryptedBlob.ct = some r.encryptedValue.ct := by
  cases entry with
  | secret base encryptedMeta values =>
    have hall := List.any_eq_false.mp hrekeyed r hr
    simpa using hall
  | deleted | environment | folder => cases hr

/-- An entry that is applied is shown. -/
theorem ProjectCopy.Behind.apply_shows (h : copy.Behind db projectId) (htidy : Tidy db)
    {row : EntryRow} (hrow : row ∈ rows) (hentry : row ∈ entriesOf db projectId) :
    (copy.apply (sentEntry db viewer projectId rows row)).Shows db viewer projectId row := by
  have hdeleted := htidy.entries row (mem_entriesOf.mp hentry).1
  have hshown : (sentEntry db viewer projectId rows row).shown = row.encryptedMeta :=
    wireEntry_shown hdeleted
  have htype : (sentEntry db viewer projectId rows row).type = row.type := wireEntry_type
  have hbase : (sentEntry db viewer projectId rows row).base =
      ⟨row.id, row.projectId, row.revision, row.seq, row.updatedAt⟩ := wireEntry_base ..
  have hvalue := fun hsecret hlive environmentId
      (hsees : SeesValue db viewer projectId row.id environmentId) =>
    sentEntry_value htidy hrow hentry hsecret hlive hsees
  generalize sentEntry db viewer projectId rows row = entry at hshown htype hbase hvalue ⊢
  obtain ⟨hid, hrevision⟩ : entry.base.id = row.id ∧ entry.base.revision = row.revision := by
    rw [hbase]
    exact ⟨rfl, rfl⟩
  unfold ProjectCopy.apply ProjectCopy.Shows
  cases hknows : copy.knows entry with
  | true =>
    rw [if_pos rfl]
    obtain ⟨known, hknown, hage⟩ := knows_iff.mp hknows
    rw [htype, hid] at hknown
    obtain ⟨hsame, hmeta⟩ := h.eq_of_knows hentry hknown (by omega)
    have hrekeyed := (hage.resolve_left (by omega)).2
    rw [hmeta]
    refine ⟨known, hknown, hsame, rfl, fun hsecret environmentId hsees => ?_⟩
    obtain ⟨x, hx, ⟨r, hr, hr'⟩, hall⟩ := hvalue hsecret (by simp [hmeta]) environmentId hsees
    rw [hx, Option.map_some, ← hall r hr hr', ← ProjectEntry.ct_of_rekeyed hrekeyed hr, hr']
  | false =>
    rw [if_neg Bool.false_ne_true, hshown]
    cases hmeta : row.encryptedMeta with
    | none => simp [ProjectCopy.remove, htype, hid]
    | some encryptedMeta =>
      refine ⟨⟨entry.base.revision, encryptedMeta, entry.value⟩, ?_, hrevision, rfl, ?_⟩
      · simp only [ProjectCopy.put, htype, hid, and_self, if_true]
      intro hsecret environmentId hsees
      obtain ⟨x, hx, hmem, hall⟩ := hvalue hsecret (by simp [hmeta]) environmentId hsees
      rw [hx]
      exact congrArg (Option.map EncryptedBlob.ct) (value_of_mem hall _ (Or.inr hmem))

/-- What is shown stays so when another entry is applied. -/
theorem ProjectCopy.Shows.apply {row other : EntryRow} (h : copy.Shows db viewer projectId row)
    (htidy : Tidy db) (hrow : row ∈ entriesOf db projectId)
    (hother : other ∈ entriesOf db projectId) (hne : row ≠ other) :
    (copy.apply (sentEntry db viewer projectId rows other)).Shows db viewer projectId row := by
  have hdeleted := htidy.entries other (mem_entriesOf.mp hother).1
  have hshown : (sentEntry db viewer projectId rows other).shown = other.encryptedMeta :=
    wireEntry_shown hdeleted
  have htype : (sentEntry db viewer projectId rows other).type = other.type := wireEntry_type
  have hid : (sentEntry db viewer projectId rows other).base.id = other.id :=
    congrArg EntryBase.id (wireEntry_base ..)
  generalize sentEntry db viewer projectId rows other = entry at hshown htype hid ⊢
  have hself : ¬ (row.type = entry.type ∧ row.id = entry.base.id) := fun hboth =>
    hne (eq_of_mem_entriesOf hrow hother (hboth.2.trans hid))
  unfold ProjectCopy.apply
  split
  · exact h
  rw [hshown]
  cases hmeta : other.encryptedMeta with
  | some encryptedMeta => simpa only [ProjectCopy.Shows, ProjectCopy.put, if_neg hself] using h
  | none =>
    unfold ProjectCopy.Shows at h ⊢
    simp only [ProjectCopy.remove, if_neg hself]
    cases hlive : row.encryptedMeta with
    | none =>
      rw [hlive] at h
      rw [h]
      rfl
    | some encryptedMeta =>
      rw [hlive] at h
      obtain ⟨known, hknown, hrevision, hsame, hvalues⟩ := h
      rw [hknown]
      refine ⟨_, rfl, ?_⟩
      split
      · rename_i hdrops
        refine ⟨hrevision, hsame, fun hsecret environmentId hsees => ?_⟩
        -- the values that are dropped are of an environment that is gone
        have hthere : environmentId ≠ entry.base.id := by
          rintro rfl
          refine htidy.hasValue hsees.1 (isTombstone_iff.mpr
            ⟨other, hother, hid.symm, htype.symm.trans hdrops.1, ?_⟩)
          rw [hdeleted]
          exact decide_eq_true hmeta
        rw [← hvalues hsecret environmentId hsees]
        exact congrArg (Option.map EncryptedBlob.ct) (Function.update_of_ne hthere ..)
      · exact ⟨hrevision, hsame, hvalues⟩

/-- The entries of a page are applied one after another. -/
theorem ProjectCopy.Behind.applyPage (h : copy.Behind db projectId) (htidy : Tidy db)
    (viewer : Uuid) (rows : List EntryRow) {page : List EntryRow}
    (hpage : ∀ row ∈ page, row ∈ rows ∧ row ∈ entriesOf db projectId) :
    ((page.map (sentEntry db viewer projectId rows)).foldl ProjectCopy.apply copy).Behind db
        projectId ∧
      ∀ row ∈ entriesOf db projectId, copy.Shows db viewer projectId row ∨ row ∈ page →
        ((page.map (sentEntry db viewer projectId rows)).foldl ProjectCopy.apply copy).Shows db
          viewer projectId row := by
  induction page generalizing copy with
  | nil =>
    refine ⟨h, fun row _ hor => hor.resolve_right ?_⟩
    rintro ⟨⟩
  | cons first page ih =>
    obtain ⟨hfirst, hentry⟩ := hpage first List.mem_cons_self
    have hsent : Trails db projectId _ _ _ _ :=
      (sent_wireEntry (keysOf db projectId viewer) viewer htidy hfirst hentry).trails
    obtain ⟨hbehind, hshows⟩ := ih (h.apply hsent) fun r hr => hpage r (List.mem_cons_of_mem _ hr)
    refine ⟨hbehind, fun row hrow hor => hshows row hrow ?_⟩
    by_cases heq : row = first
    · obtain rfl := heq
      exact Or.inl (h.apply_shows htidy hfirst hentry)
    · rcases hor with hshown | hmem
      · exact Or.inl (hshown.apply htidy hrow hentry heq)
      · exact Or.inr ((List.mem_cons.mp hmem).resolve_left heq)

/-- A pull that runs alone ends, and shows what it passed, and what was shown before it. -/
theorem ProjectCopy.Behind.pullAlone (h : copy.Behind db projectId) (hdb : Reachable db)
    (hcursor : copy.cursor ≤ seqOf db projectId)
    (hmember : (getAccess db projectId viewer).any (·.member) = true) {clock : ℕ → Timestamp}
    (hquiet : ∀ n, ProjectPolicy.beforeAccess db projectId (clock n) = db) :
    ∃ n copy', (∀ k ≥ n, Zvault.pullAlone viewer projectId clock db k copy = some copy') ∧
      ∀ row ∈ entriesOf db projectId, copy.Shows db viewer projectId row ∨
        copy.cursor < row.seq → copy'.Shows db viewer projectId row := by
  induction hleft : seqOf db projectId - copy.cursor using Nat.strongRecOn generalizing copy with
  | ind left ih =>
    have hfeed := hdb.feedOrdered projectId
    obtain ⟨res, hsync⟩ := sync_quiet hmember copy.cursor maxProjectSyncPage
    obtain ⟨-, hpage⟩ := ProjectsService.sync_ok (hsync (clock 0) (hquiet 0))
    have hentries : res.entries = (Feed.page EntryRow.seq (entriesOf db projectId) copy.cursor
        maxProjectSyncPage).map (sentEntry db viewer projectId (Feed.page EntryRow.seq
          (entriesOf db projectId) copy.cursor (maxProjectSyncPage + 1))) := hpage.entries
    have hrows : ∀ row ∈ Feed.page EntryRow.seq (entriesOf db projectId) copy.cursor
        maxProjectSyncPage, row ∈ Feed.page EntryRow.seq (entriesOf db projectId) copy.cursor
          (maxProjectSyncPage + 1) ∧ row ∈ entriesOf db projectId := by
      intro row hrow
      refine ⟨?_, (Feed.mem_of_mem_page hrow).1⟩
      rw [← Feed.take_page] at hrow
      exact List.mem_of_mem_take hrow
    obtain ⟨hbehind, hshows⟩ := h.applyPage hdb.tidy viewer _ hrows
    rw [← hentries] at hbehind hshows
    -- what lies between the two cursors was in the page
    have hpassed : ∀ row ∈ entriesOf db projectId, copy.Shows db viewer projectId row ∨
        copy.cursor < row.seq ∧ row.seq ≤ res.cursor →
          (res.entries.foldl ProjectCopy.apply copy).Shows db viewer projectId row := by
      intro row hrow hor
      refine hshows row hrow (hor.imp_right fun ⟨hafter, hseq⟩ => ?_)
      rw [hpage.cursor] at hseq
      exact Feed.mem_page_of_le_cursor hfeed.distinct hrow hafter hseq
    have hstep : ∀ k, Zvault.pullAlone viewer projectId clock db (k + 1) copy =
        if res.hasMore then Zvault.pullAlone viewer projectId clock db k
          { res.entries.foldl ProjectCopy.apply copy with cursor := res.cursor }
        else some { res.entries.foldl ProjectCopy.apply copy with cursor := res.cursor } := by
      intro k
      rw [Zvault.pullAlone, hsync (clock k) (hquiet k)]
    cases hmore : res.hasMore with
    | true =>
      have hforward : copy.cursor < res.cursor := by
        rw [hpage.hasMore] at hmore
        rw [hpage.cursor]
        exact Feed.lt_cursor_of_more (by decide) (of_decide_eq_true hmore)
      have hbounded : res.cursor ≤ seqOf db projectId := by
        rw [hpage.cursor]
        rcases Feed.cursor_le copy.cursor maxProjectSyncPage hfeed.bounded with heq | hlast
        · omega
        · exact hlast
      have hnext : ProjectCopy.Behind
          { res.entries.foldl ProjectCopy.apply copy with cursor := res.cursor } db projectId :=
        hbehind
      obtain ⟨n, copy', hruns, hall⟩ :=
        ih (seqOf db projectId - res.cursor) (by omega) hnext hbounded rfl
      refine ⟨n + 1, copy', fun k hk => ?_, fun row hrow hor => hall row hrow ?_⟩
      · obtain ⟨k, rfl⟩ := Nat.exists_eq_add_of_le' (Nat.one_le_of_lt hk)
        rw [hstep, hmore, if_pos rfl]
        exact hruns k (by omega)
      · by_cases hseq : row.seq ≤ res.cursor
        · exact Or.inl (hpassed row hrow (hor.imp_right fun hafter => ⟨hafter, hseq⟩))
        · exact Or.inr (Nat.lt_of_not_le hseq)
    | false =>
      refine ⟨1, { res.entries.foldl ProjectCopy.apply copy with cursor := res.cursor },
        fun k hk => ?_, fun row hrow hor => ?_⟩
      · obtain ⟨k, rfl⟩ := Nat.exists_eq_add_of_le' hk
        rw [hstep, hmore, if_neg Bool.false_ne_true]
      · have hlength : (Feed.page EntryRow.seq (entriesOf db projectId) copy.cursor
            (maxProjectSyncPage + 1)).length ≤ maxProjectSyncPage := by
          rw [hpage.hasMore] at hmore
          exact Nat.le_of_not_lt (of_decide_eq_false hmore)
        exact hshows row hrow (hor.imp_right fun hafter =>
          Feed.mem_page_of_last hlength hrow hafter)

end Alone

section Runs

variable {viewer projectId : Uuid} {condition : CopyWorld → Bool → CopyTask → CopyWorld → Prop}
  {db₀ : Db} {w : CopyWorld} {tasks : List CopyTask}

/-- **A copy is never ahead of the server.** Whatever is interleaved, lost or stored late, each
entry of the copy has the metadata that the server's entry has at the same revision, or the server
has revised it since, and the cursor is behind the project's counter. -/
theorem copy_never_ahead (hdb : Reachable db₀)
    (hrun : Run (copyProgram viewer projectId condition) ⟨.initial db₀, []⟩ ⟨w, tasks⟩) :
    w.copy.Behind w.db projectId ∧ w.copy.cursor ≤ seqOf w.db projectId := by
  have hholds := (behindOutline viewer projectId condition).run_idle
    (CopyWorld.behind_initial hdb projectId) hrun
  exact ⟨hholds.inv.known, hholds.inv.cursor⟩

/-- **A pull repairs what was revised since.** After any run, however its steps were interleaved,
lost or stored late, a pull that runs alone while the server is quiet ends, and shows every entry
behind the copy's cursor as the server has it: those that are deleted are gone, and the others have
their revision, their metadata, and for each value that the viewer sees its ciphertext. -/
theorem pull_repairs (hdb : Reachable db₀)
    (hrun : Run (copyProgram viewer projectId condition) ⟨.initial db₀, []⟩ ⟨w, tasks⟩)
    (hmember : (getAccess w.db projectId viewer).any (·.member) = true) (clock : ℕ → Timestamp)
    (hquiet : ∀ n, ProjectPolicy.beforeAccess w.db projectId (clock n) = w.db) :
    ∃ n copy, (∀ k ≥ n, pullAlone viewer projectId clock w.db k w.copy = some copy) ∧
      ∀ row ∈ entriesOf w.db projectId, w.copy.cursor < row.seq →
        copy.Shows w.db viewer projectId row := by
  have hholds := (behindOutline viewer projectId condition).run_idle
    (CopyWorld.behind_initial hdb projectId) hrun
  obtain ⟨n, copy, hruns, hall⟩ := hholds.inv.known.pullAlone hholds.inv.reachable
    hholds.inv.cursor hmember hquiet
  exact ⟨n, copy, hruns, fun row hrow hafter => hall row hrow (Or.inr hafter)⟩

end Runs

/-- The client adds a secret and stores the answer before it has pulled anything. -/
theorem addSecret_run : ∃ w, Run (copyProgram 10 1 fun _ _ _ _ => True)
    ⟨.initial firstProject, []⟩ ⟨w, []⟩ ∧ w.copy.cursor = 0 ∧
      (w.copy.entries .secret 4).isSome = true ∧ (entriesOf w.db 1).length = 3 ∧
      (getAccess w.db 1 10).any (·.member) = true ∧ ProjectPolicy.beforeAccess w.db 1 8 = w.db := by
  have hinitial : Run (copyProgram 10 1 fun _ _ _ _ => True) ⟨.initial firstProject, []⟩
      ⟨.initial firstProject, []⟩ := .refl
  have hstart := hinitial.starts (.sends addSecret) ⟨rfl, rfl⟩
  have hsent := project_proceeds hstart (.sent _ addSecret) trivial
  have hopen := project_proceeds hsent (.opens [] .answer (by decide) (by decide)) trivial
  have hstored := project_proceeds hopen (.stores [] .answer rfl) trivial
  have hdone := project_proceeds hstored (.ends _) trivial
  exact ⟨_, hdone, rfl, rfl, rfl, by decide, rfl⟩

theorem copy_never_ahead_added : ∃ w : CopyWorld, (w.copy.entries .secret 4).isSome = true ∧
    w.copy.Behind w.db 1 ∧ w.copy.cursor ≤ seqOf w.db 1 := by
  obtain ⟨w, hrun, -, hsome, -⟩ := addSecret_run
  exact ⟨w, hsome, copy_never_ahead firstProject_reachable hrun⟩

theorem pull_repairs_added : ∃ w : CopyWorld, w.copy.cursor = 0 ∧ (entriesOf w.db 1).length = 3 ∧
    ∃ n copy, (∀ k ≥ n, pullAlone 10 1 (fun _ => 8) w.db k w.copy = some copy) ∧
      ∀ row ∈ entriesOf w.db 1, w.copy.cursor < row.seq → copy.Shows w.db 10 1 row := by
  obtain ⟨w, hrun, hcursor, -, hlength, hmember, hquiet⟩ := addSecret_run
  exact ⟨w, hcursor, hlength,
    pull_repairs firstProject_reachable hrun hmember (fun _ => 8) fun _ => hquiet⟩

end Zvault
