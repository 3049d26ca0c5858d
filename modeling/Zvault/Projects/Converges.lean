import Zvault.Projects.ChangeFeed
import Zvault.Projects.InStep

/-!
# A pull that runs alone

A pull that nothing interrupts passes over no entry of the project. The copy of each
is then the newest one, without the values of deleted environments.
-/

namespace Zvault

open Concurrent Relational ProjectsStore

section Alone

variable {viewer projectId : Uuid} {w : CopyWorld} {db : Db}
  {keyOf : Uuid → Option EncryptedBlob} {rows : List EntryRow}

/-- The copy after what was sent of an entry, when nothing else happens. -/
def CopyWorld.applyAlone (w : CopyWorld) (entry : ProjectEntry) : CopyWorld :=
  { w.note entry with copy := w.copy.apply entry }

/-- What the server sends now is newer than all that was applied, and has no value of an environment
that was dropped. -/
theorem CopyWorld.Sound.applyAlone (keyOf : Uuid → Option EncryptedBlob) {row : EntryRow}
    (h : w.Sound viewer projectId)
    (hrow : row ∈ rows) (hentry : row ∈ entriesOf w.db projectId) :
    (w.applyAlone (wireEntry keyOf (valuesOf w.db projectId
      (viewerEnvironments w.db projectId viewer) rows) row)).Sound viewer projectId := by
  have htidy := h.reachable.tidy
  have hsent := sent_wireEntry keyOf viewer htidy hrow hentry
  have hmem := mem_wireEntry_environments keyOf viewer htidy hrow hentry
  have hbase := wireEntry_base keyOf
    (valuesOf w.db projectId (viewerEnvironments w.db projectId viewer) rows) row
  generalize wireEntry keyOf (valuesOf w.db projectId
    (viewerEnvironments w.db projectId viewer) rows) row = entry at hsent hmem hbase ⊢
  unfold CopyWorld.applyAlone ProjectCopy.apply
  cases hknows : w.copy.knows entry with
  | true =>
    rw [if_pos rfl, h.note_of_knows hknows]
    exact h
  | false =>
    rw [if_neg Bool.false_ne_true]
    cases hshown : entry.shown with
    | none => exact h.remove hsent hknows hshown
    | some encryptedMeta =>
      refine h.store hsent hshown ?_ fun v hv hdropped => ?_
      · rw [hbase]
        exact h.applied_le hentry
      · obtain ⟨-, -, hvalue, -⟩ := (hmem v.environmentId).mp (List.mem_map_of_mem hv)
        obtain ⟨e, he, hid, htype, hdeleted, -⟩ := hdropped
        exact htidy.hasValue hvalue (isTombstone_iff.mpr ⟨e, he, hid, htype, hdeleted⟩)

/-- The entries of a page are applied one after another. -/
theorem CopyWorld.Sound.applyPage (keyOf : Uuid → Option EncryptedBlob) (rows page : List EntryRow)
    (h : w.Sound viewer projectId) (hdb : w.db = db)
    (hpage : ∀ row ∈ page, row ∈ rows ∧ row ∈ entriesOf db projectId) :
    ∃ w' : CopyWorld, w'.Sound viewer projectId ∧ w'.db = db ∧
      w'.copy = (page.map (wireEntry keyOf (valuesOf db projectId
        (viewerEnvironments db projectId viewer) rows))).foldl ProjectCopy.apply w.copy ∧
      (∀ id, w.applied id ≤ w'.applied id) ∧ ∀ row ∈ page, row.revision ≤ w'.applied row.id := by
  induction page generalizing w with
  | nil => exact ⟨w, h, hdb, rfl, fun _ => le_rfl, fun row hrow => by cases hrow⟩
  | cons row page ih =>
    obtain ⟨hrow, hentry⟩ := hpage row List.mem_cons_self
    subst hdb
    have hsound := h.applyAlone keyOf hrow hentry
    obtain ⟨w', hsound', hdb', hcopy, happlied, hdone⟩ :=
      ih hsound rfl fun r hr => hpage r (List.mem_cons_of_mem _ hr)
    refine ⟨w', hsound', hdb', hcopy, fun id => (w.le_note _ id).trans (happlied id),
      fun r hr => ?_⟩
    rcases List.mem_cons.mp hr with rfl | hr
    · refine le_trans ?_ (happlied r.id)
      have hnoted := w.revision_le_note (wireEntry keyOf (valuesOf w.db projectId
        (viewerEnvironments w.db projectId viewer) rows) r)
      rwa [wireEntry_base] at hnoted
    · exact hdone r hr

/-- While the server is quiet, a page is the same whenever it is fetched. -/
theorem sync_quiet (hmember : (getAccess db projectId viewer).any (·.member) = true)
    (since limit : ℕ) : ∃ res, ∀ now, ProjectPolicy.beforeAccess db projectId now = db →
      ProjectsService.sync db viewer projectId since limit now = (.ok res, db) := by
  obtain ⟨access, haccess, hholds⟩ : ∃ access, getAccess db projectId viewer = some access ∧
      access.member = true := by
    cases haccess : getAccess db projectId viewer with
    | none =>
      rw [haccess] at hmember
      cases hmember
    | some access =>
      rw [haccess] at hmember
      exact ⟨access, rfl, hmember⟩
  generalize hchanges : listChanges db projectId viewer since (limit + 1) = changes
  refine ⟨⟨changes.take limit, ((changes.take limit).getLast?.map fun e => e.base.seq).getD since,
    limit < changes.length⟩, fun now hquiet => ?_⟩
  have haccepted : ProjectsService.access db viewer projectId now = (.ok access, db) := by
    simp [ProjectsService.access, hquiet, haccess, hholds]
  unfold ProjectsService.sync
  generalize ProjectsService.access db viewer projectId now = answer at haccepted ⊢
  subst haccepted
  cases hlast : (changes.take limit).getLast? with
  | none => simp [hchanges, hlast]
  | some e => simp [hchanges, hlast]

/-- A pull that nothing interrupts ends, and has applied every entry. -/
theorem CopyWorld.Sound.pullAlone (h : w.Sound viewer projectId) {clock : ℕ → Timestamp}
    (hquiet : ∀ n, ProjectPolicy.beforeAccess w.db projectId (clock n) = w.db) :
    ∃ w' : CopyWorld, w'.Sound viewer projectId ∧ w'.db = w.db ∧
      (∀ row ∈ entriesOf w.db projectId, row.revision ≤ w'.applied row.id) ∧
      ∃ n, ∀ k ≥ n, Zvault.pullAlone viewer projectId clock w.db k w.copy = some w'.copy := by
  induction hleft : seqOf w.db projectId - w.copy.cursor using Nat.strongRecOn generalizing w with
  | ind left ih =>
    have hfeed := h.reachable.feedOrdered projectId
    obtain ⟨res, hsync⟩ := sync_quiet h.member w.copy.cursor maxProjectSyncPage
    obtain ⟨-, hpage⟩ := ProjectsService.sync_ok (hsync (clock 0) (hquiet 0))
    obtain ⟨-, hcovers, -⟩ := h.fetch res.hasMore hpage h.cursor h.covers
    obtain ⟨hbounded, hcovers⟩ := hcovers _ rfl
    obtain ⟨w', hsound', hdb', hcopy, happlied, hdone⟩ := CopyWorld.Sound.applyPage
      (keysOf w.db projectId viewer)
      (Feed.page EntryRow.seq (entriesOf w.db projectId) w.copy.cursor (maxProjectSyncPage + 1))
      (Feed.page EntryRow.seq (entriesOf w.db projectId) w.copy.cursor maxProjectSyncPage) h rfl
      fun row hrow => by
        refine ⟨?_, (Feed.mem_of_mem_page hrow).1⟩
        rw [← Feed.take_page] at hrow
        exact List.mem_of_mem_take hrow
    rw [← hpage.entries] at hcopy
    have hcovers' : w'.Covers projectId res.cursor [] := by
      intro row hrow hseq
      rw [hdb'] at hrow
      refine Or.inl ?_
      by_cases hbefore : row.seq ≤ w.copy.cursor
      · rcases h.covers row hrow hbefore with hcovered | ⟨entry, ⟨⟩, -⟩
        exact hcovered.trans (happlied row.id)
      · rw [hpage.cursor] at hseq
        exact hdone row (Feed.mem_page_of_le_cursor hfeed.distinct hrow (by omega) hseq)
    have hsound'' := hsound'.turn (hdb'.symm ▸ hbounded) hcovers'
    have hstep : ∀ k, Zvault.pullAlone viewer projectId clock w.db (k + 1) w.copy =
        if res.hasMore then
          Zvault.pullAlone viewer projectId clock w.db k { w'.copy with cursor := res.cursor }
        else some { w'.copy with cursor := res.cursor } := by
      intro k
      rw [Zvault.pullAlone, hsync (clock k) (hquiet k), hcopy]
    cases hmore : res.hasMore with
    | true =>
      have hforward : w.copy.cursor < res.cursor := by
        rw [hpage.hasMore] at hmore
        rw [hpage.cursor]
        exact Feed.lt_cursor_of_more (by decide) (of_decide_eq_true hmore)
      obtain ⟨w'', hsound₂, hdb₂, hall, n, hruns⟩ := ih (seqOf w.db projectId - res.cursor)
        (by omega) hsound'' (by rw [hdb']; exact hquiet) (by rw [hdb'])
      rw [hdb'] at hdb₂ hall hruns
      refine ⟨w'', hsound₂, hdb₂, hall, n + 1, fun k hk => ?_⟩
      obtain ⟨k, rfl⟩ := Nat.exists_eq_add_of_le' (Nat.one_le_of_lt hk)
      rw [hstep, hmore, if_pos rfl]
      exact hruns k (by omega)
    | false =>
      refine ⟨_, hsound'', hdb', fun row hrow => ?_, 1, fun k hk => ?_⟩
      · have hlength : (Feed.page EntryRow.seq (entriesOf w.db projectId) w.copy.cursor
            (maxProjectSyncPage + 1)).length ≤ maxProjectSyncPage := by
          rw [hpage.hasMore] at hmore
          exact Nat.le_of_not_lt (of_decide_eq_false hmore)
        by_cases hbefore : row.seq ≤ w.copy.cursor
        · rcases h.covers row hrow hbefore with hcovered | ⟨entry, ⟨⟩, -⟩
          exact hcovered.trans (happlied row.id)
        · exact hdone row (Feed.mem_page_of_last hlength hrow (by omega))
      · obtain ⟨k, rfl⟩ := Nat.exists_eq_add_of_le' hk
        rw [hstep, hmore, if_neg Bool.false_ne_true]

/-- When the newest revision of every entry was applied, the copy is what the server sends. -/
theorem CopyWorld.Sound.agrees (h : w.Sound viewer projectId)
    (hall : ∀ row ∈ entriesOf w.db projectId, row.revision ≤ w.applied row.id) :
    w.copy.Agrees (hydrate w.db projectId viewer (entriesOf w.db projectId)) := by
  have htidy := h.reachable.tidy
  intro type id
  constructor
  · intro known hknown
    obtain ⟨hnewest, row, hrow, rfl, rfl, hage⟩ := h.known type id known hknown
    obtain ⟨hrevision, hcurrent⟩ := hage.resolve_left (by have := hall row hrow; omega)
    have hdeleted := htidy.entries row (mem_entriesOf.mp hrow).1
    refine ⟨_, List.mem_map_of_mem hrow, wireEntry_type, by rw [wireEntry_base], ?_, ?_, ?_⟩
    · rw [wireEntry_base]
      exact hrevision
    · rw [wireEntry_shown hdeleted]
      exact hcurrent.encryptedMeta
    · intro environmentId
      rw [mem_wireEntry_environments _ _ htidy hrow hrow]
      constructor
      · intro hhas
        obtain ⟨htype, hsees⟩ := hcurrent.sees environmentId hhas
        refine ⟨htype, ?_, hsees.resolve_right ?_⟩
        · simp [hcurrent.encryptedMeta]
        · rintro ⟨hgone, hnot⟩
          obtain ⟨e, he, rfl, hrest⟩ := isTombstone_iff.mp hgone
          exact hnot ⟨e, he, rfl, hrest.1, hrest.2, hall e he⟩
      · rintro ⟨htype, -, hsees⟩
        exact hcurrent.holds htype (by simp) environmentId hsees
  · intro entry hentry htype hid hlive
    obtain ⟨row, hrow, rfl⟩ := List.mem_map.mp hentry
    rw [wireEntry_type] at htype
    rw [wireEntry_base] at hid
    rw [wireEntry_shown (htidy.entries row (mem_entriesOf.mp hrow).1)] at hlive
    subst htype hid
    by_contra hnone
    rw [Bool.not_eq_true, Option.isSome_eq_false_iff, Option.isNone_iff_eq_none] at hnone
    rcases h.unknown row hrow hnone with hbehind | hmeta
    · have := hall row hrow
      omega
    · exact hlive hmeta

end Alone

theorem CopyWorld.sound_initial {db : Db} {viewer projectId : Uuid} (hdb : Reachable db)
    (hmember : (getAccess db projectId viewer).any (·.member) = true) :
    (CopyWorld.initial db).Sound viewer projectId := by
  have hfeed := hdb.feedOrdered projectId
  refine ⟨hdb, hmember, fun _ => Or.inl rfl, ?_, fun row hrow _ => Or.inl ?_, Nat.zero_le _, ?_⟩
  · rintro type id known ⟨⟩
  · exact hdb.tidy.revised row (mem_entriesOf.mp hrow).1
  · intro row hrow hseq
    have hpositive := hfeed.positive row hrow
    have hzero : row.seq ≤ 0 := hseq
    omega

/-- In every run in which the viewer's keys stay, no deleted environment is written again, and each
entry that is stored opens and is behind no newer one and no removal of an environment it has a
value of, a further pull that runs alone while the server is quiet ends. The copy then has the live
entries that the server sends, and the same environments with a value of each secret. -/
theorem copy_converges {db₀ : Db} {viewer projectId : Uuid} (hdb : Reachable db₀)
    (hmember : (getAccess db₀ projectId viewer).any (·.member) = true) {w : CopyWorld}
    (hrun : Run (copyProgram viewer projectId (Orderly viewer projectId))
      ⟨.initial db₀, []⟩ ⟨w, []⟩) (clock : ℕ → Timestamp)
    (hquiet : ∀ n, ProjectPolicy.beforeAccess w.db projectId (clock n) = w.db) :
    ∃ n copy, (∀ k ≥ n, pullAlone viewer projectId clock w.db k w.copy = some copy) ∧
      copy.Agrees (hydrate w.db projectId viewer (entriesOf w.db projectId)) := by
  have hholds :=
    (projectOutline viewer projectId).run_idle (CopyWorld.sound_initial hdb hmember) hrun
  obtain ⟨w', hsound, hdb', hall, n, hruns⟩ := hholds.inv.pullAlone hquiet
  refine ⟨n, w'.copy, hruns, ?_⟩
  rw [← hdb'] at hall ⊢
  exact hsound.agrees hall

section Runs

variable {viewer projectId : Uuid} {condition : CopyWorld → Bool → CopyTask → CopyWorld → Prop}
  {s : Concurrent.System CopyWorld CopyTask} {w w' : CopyWorld} {ok : Bool} {task : CopyTask}
  {next : Option CopyTask} {rest : List CopyTask}

theorem project_proceeds (h : Run (copyProgram viewer projectId condition) s ⟨w, task :: rest⟩)
    (hstep : CopyStep viewer projectId w ok task w' next) (hcondition : condition w ok task w') :
    Run (copyProgram viewer projectId condition) s ⟨w', next.toList ++ rest⟩ := by
  have hact : (copyProgram viewer projectId condition).act w task w' next := ⟨ok, hcondition, hstep⟩
  exact h.proceeds hact

theorem KeepsKeys.of_keyGrants {db db' : Db} (h : db'.keyGrants = db.keyGrants)
    (hmember : (getAccess db' projectId viewer).any (·.member) = true) :
    KeepsKeys viewer projectId db db' := by
  refine ⟨fun _ => hmember, fun _ _ _ _ => ?_⟩
  unfold HoldsEnvironmentKey
  rw [h]

/-- Before anything is deleted. -/
theorem orderly_of_live (hkeys : KeepsKeys viewer projectId w.db w'.db)
    (hlive : ∀ e ∈ entriesOf w.db projectId, e.deleted = false)
    (hnewest : ∀ entry entries goal, task = .store entry entries goal →
      ok = true ∧ w.applied entry.base.id ≤ entry.base.revision) :
    Orderly viewer projectId w ok task w' := by
  refine ⟨hkeys, fun e he _ hdeleted => ?_, fun entry entries goal htask => ?_⟩
  · rw [hlive e he] at hdeleted
    cases hdeleted
  · obtain ⟨hopens, hle⟩ := hnewest entry entries goal htask
    refine ⟨hopens, hle, fun v _ => ?_⟩
    rintro ⟨e, he, -, -, hdeleted, -⟩
    rw [hlive e he] at hdeleted
    cases hdeleted

end Runs

/-- A secret with a value for the first environment. -/
def addSecret : EntryWrite where
  projectId := 1
  id := 4
  type := .secret
  baseRevision := 0
  encryptedMeta := some ⟨.record 4, 0, 0⟩
  values := [(2, some ⟨.record 2, 7, 7⟩)]
  keyGrant := none
  limit := 10000
  viewer := 10
  now := 5

/-- The client adds a secret, and stores the answer. -/
theorem copy_converges_added : ∃ w,
    Run (copyProgram 10 1 (Orderly 10 1)) ⟨.initial firstProject, []⟩ ⟨w, []⟩ ∧
      ((w.copy.entries .secret 4).bind fun known => known.values 2) = some ⟨.record 2, 7, 7⟩ ∧
      ∃ n copy, (∀ k ≥ n, pullAlone 10 1 (fun _ => 8) w.db k w.copy = some copy) ∧
        copy.Agrees (hydrate w.db 1 10 (entriesOf w.db 1)) := by
  have hinitial : Run (copyProgram 10 1 (Orderly 10 1)) ⟨.initial firstProject, []⟩
      ⟨.initial firstProject, []⟩ := .refl
  have hstart := hinitial.starts (.sends addSecret) ⟨rfl, rfl⟩
  have hsent := project_proceeds hstart (.sent _ addSecret) (orderly_of_live
    (.of_keyGrants rfl (by decide)) (by decide) fun _ _ _ h => by cases h)
  have hopen := project_proceeds hsent (.opens [] .answer (by decide) (by decide)) (orderly_of_live
    (.of_keyGrants rfl (by decide)) (by decide) fun _ _ _ h => by cases h)
  have hstored := project_proceeds hopen (.stores [] .answer rfl) (orderly_of_live
    (.of_keyGrants rfl (by decide)) (by decide) fun _ _ _ _ => ⟨rfl, Nat.zero_le _⟩)
  have hdone := project_proceeds hstored (.ends _) (orderly_of_live
    (.of_keyGrants rfl (by decide)) (by decide) fun _ _ _ h => by cases h)
  exact ⟨_, hdone, rfl,
    copy_converges firstProject_reachable (by decide) hdone (fun _ => 8) fun _ => rfl⟩

/-- A project of account 10 without environments. -/
def bareProject : Db :=
  (createProject Db.empty { twoEnvironments with environments := [] }).getD .empty

theorem bareProject_reachable : Reachable bareProject :=
  .write .empty (.create { twoEnvironments with environments := [] } rfl)

/-- The client adds a secret, and waits for its metadata. Another client deletes the secret, and a
pull applies that. The secret is stored afterwards, and no later pull removes it. -/
theorem copy_diverges : ∃ w,
    Reachable bareProject ∧ (getAccess bareProject 1 10).any (·.member) = true ∧
      Run (copyProgram 10 1 fun w ok _ w' => ok = true ∧ KeepsKeys 10 1 w.db w'.db)
        ⟨.initial bareProject, []⟩ ⟨w, []⟩ ∧
      ProjectPolicy.beforeAccess w.db 1 8 = w.db ∧
      hydrate w.db 1 10 (entriesOf w.db 1) = [.deleted ⟨4, 1, 2, 2, 6⟩ .secret] ∧
      ∀ k ≥ 1, ∃ copy, pullAlone 10 1 (fun _ => 8) w.db k w.copy = some copy ∧
        (copy.entries .secret 4).map (·.revision) = some 1 ∧
        ¬ copy.Agrees (hydrate w.db 1 10 (entriesOf w.db 1)) := by
  have hinitial : Run (copyProgram 10 1 fun w ok _ w' => ok = true ∧ KeepsKeys 10 1 w.db w'.db)
      ⟨.initial bareProject, []⟩ ⟨.initial bareProject, []⟩ := .refl
  have hstart := hinitial.starts (.sends { addSecret with values := [] }) ⟨rfl, rfl⟩
  have hsent := project_proceeds hstart (.sent _ { addSecret with values := [] })
    ⟨rfl, .of_keyGrants rfl (by decide)⟩
  have hopen := project_proceeds hsent (.opens [] .answer (by decide) (by decide))
    ⟨rfl, .of_keyGrants rfl (by decide)⟩
  have hother := hopen.starts .others trivial
  have hdeleted := project_proceeds hother (.others (.entry _
      { addSecret with values := [], baseRevision := 1, encryptedMeta := none, now := 6 }))
    ⟨rfl, .of_keyGrants rfl (by decide)⟩
  have hpull := hdeleted.starts .pull trivial
  have hfetching := project_proceeds hpull (.pull _) ⟨rfl, .of_keyGrants rfl (by decide)⟩
  have happly := project_proceeds hfetching (.fetched 7 rfl) ⟨rfl, .of_keyGrants rfl (by decide)⟩
  have hremoved := project_proceeds happly (.removes [] _ (by decide) rfl)
    ⟨rfl, .of_keyGrants rfl (by decide)⟩
  have hpulled := project_proceeds hremoved (.turns _ _ _) ⟨rfl, .of_keyGrants rfl (by decide)⟩
  have hstored := project_proceeds hpulled (.stores [] .answer rfl)
    ⟨rfl, .of_keyGrants rfl (by decide)⟩
  have hdone := project_proceeds hstored (.ends _) ⟨rfl, .of_keyGrants rfl (by decide)⟩
  refine ⟨_, bareProject_reachable, by decide, hdone, rfl, rfl, fun k hk => ?_⟩
  obtain ⟨k, rfl⟩ := Nat.exists_eq_add_of_le' hk
  refine ⟨_, rfl, rfl, fun hagrees => ?_⟩
  obtain ⟨entry, hentry, -, -, hsame⟩ := (hagrees .secret 4).1 _ rfl
  obtain rfl := List.mem_singleton.mp hentry
  cases hsame.encryptedMeta

end Zvault
