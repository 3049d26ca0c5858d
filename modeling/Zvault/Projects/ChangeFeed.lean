import Zvault.Projects.Recorded

/-!
# Paging through a project's change feed

A client pages through `sync` while the server serves writes. However they
interleave, what lies between the client's start and its cursor has been
received in its present version, so the client that reaches the last page has
received every entry.
-/

namespace Zvault

open Relational Relation ProjectsStore EnvironmentsService

/-- A client paging through `sync`. -/
structure Pager where
  cursor : ℕ
  /-- The entries received, each with the environments whose keys the viewer held when its
  page was served. -/
  received : List (List Uuid × ProjectEntry)
  more : Bool

/-- A client that has not asked for a page yet. -/
def Pager.start (since : ℕ) : Pager := ⟨since, [], true⟩

/-- The client after a page. -/
def Pager.receive (pager : Pager) (db : Db) (viewer projectId : Uuid) (res : SyncProjectResponse) :
    Pager where
  cursor := res.cursor
  received := pager.received ++ res.entries.map (viewerEnvironments db projectId viewer, ·)
  more := res.hasMore

/-- One step of the server and the client: a write, or a page. -/
inductive PagerStep (viewer projectId : Uuid) : Db × Pager → Db × Pager → Prop
  | write {db db' : Db} (pager : Pager) (h : StoreWrite db db') :
      PagerStep viewer projectId (db, pager) (db', pager)
  | fetch {db db' : Db} {pager : Pager} {res : SyncProjectResponse} (limit : ℕ) (now : Timestamp)
      (hlimit : 0 < limit)
      (h : ProjectsService.sync db viewer projectId pager.cursor limit now = (.ok res, db')) :
      PagerStep viewer projectId (db, pager) (db', pager.receive db' viewer projectId res)

/-- A received record is the present version of an entry: it is made from the entry's row,
has the stored values of the environments `envIds`, and a value in it that is not stored any
more belongs to an environment whose entry changed after this one. -/
structure Shows (db : Db) (envIds : List Uuid) (entry : ProjectEntry) (row : EntryRow) : Prop where
  wire : ∃ keyOf valuesOf, entry = wireEntry keyOf valuesOf row
  values : row.type = .secret → row.deleted = false → row.encryptedMeta.isSome = true →
    ∀ v ∈ db.secretValues, v.projectId = row.projectId → v.secretId = row.id →
      v.environmentId ∈ envIds → v.record ∈ entry.values
  current : ∀ r ∈ entry.values,
    (∃ v ∈ db.secretValues, v.projectId = row.projectId ∧ v.secretId = row.id ∧ v.record = r) ∨
      ∃ e ∈ entriesOf db row.projectId, e.id = r.environmentId ∧ row.seq < e.seq

/-- The client has received the present version of an entry. -/
def Pager.Has (pager : Pager) (db : Db) (row : EntryRow) : Prop :=
  ∃ x ∈ pager.received, Shows db x.1 x.2 row

/-- What holds between the server and a client that started behind `since`. -/
structure Paging (viewer projectId : Uuid) (since : ℕ) (s : Db × Pager) : Prop where
  ordered : FeedOrdered s.1 projectId
  cursor : s.2.cursor = since ∨ s.2.cursor ≤ seqOf s.1 projectId
  covered : Feed.Covered EntryRow.seq (entriesOf s.1 projectId) since s.2.cursor (s.2.Has s.1)

section Shows

variable {db db' : Db} {viewer projectId : Uuid} {since limit : ℕ}

/-- A record stays present as long as its entry does. -/
theorem Shows.recorded {envIds : List Uuid} {entry : ProjectEntry} {row : EntryRow}
    (h : Shows db envIds entry row) (hproject : row.projectId = projectId)
    (hrec : Recorded db db' projectId) (hrow : row ∈ entriesOf db' projectId)
    (hseq : row.seq ≤ seqOf db projectId) : Shows db' envIds entry row := by
  subst hproject
  have hstill {id : Uuid} (hid : id = row.id)
      (hmoved : ∀ e ∈ entriesOf db' row.projectId, e.id = id → seqOf db row.projectId < e.seq) :
      False := by
    have := hmoved row hrow hid.symm
    omega
  refine ⟨h.wire, fun htype hlive hmeta v hv hvp hvs henv => ?_, fun r hr => ?_⟩
  · rcases hrec.stored v hv hvp with hold | hmoved
    · exact h.values htype hlive hmeta v hold hvp hvs henv
    · exact (hstill hvs hmoved).elim
  · rcases h.current r hr with ⟨v, hv, hvp, hvs, hvr⟩ | ⟨e, he, hid, hbehind⟩
    · rcases hrec.lost v hv hvp with hkept | hmoved | ⟨e, he, hid, hbehind⟩
      · exact Or.inl ⟨v, hkept, hvp, hvs, hvr⟩
      · exact (hstill hvs hmoved).elim
      · have hvenv : r.environmentId = v.environmentId := by
          rw [← hvr]
          rfl
        exact Or.inr ⟨e, he, hid.trans hvenv.symm, hseq.trans_lt hbehind⟩
    · obtain ⟨e', he', hfollows⟩ := hrec.entries.follows e he
      exact Or.inr ⟨e', he', hfollows.id.trans hid, hbehind.trans_le hfollows.seq⟩

/-- A page shows the entries it was made from. -/
theorem Shows.of_page {row : EntryRow}
    (hrow : row ∈ Feed.page EntryRow.seq (entriesOf db projectId) since (limit + 1)) :
    Shows db (viewerEnvironments db projectId viewer)
      (wireEntry (keysOf db projectId viewer)
        (valuesOf db projectId (viewerEnvironments db projectId viewer)
          (Feed.page EntryRow.seq (entriesOf db projectId) since (limit + 1))) row) row := by
  have hproject := (mem_entriesOf.mp (Feed.mem_of_mem_page hrow).1).2
  refine ⟨⟨_, _, rfl⟩, fun htype hlive hmeta v hv hvp hvs henv => ?_, fun r hr => Or.inl ?_⟩
  · refine mem_wireEntry_values.mpr ⟨htype, hlive, hmeta, mem_valuesOf.mpr ⟨?_, ?_⟩⟩
    · exact ⟨row, hrow, htype, hlive, rfl⟩
    · exact ⟨v, hv, hvp.trans hproject, hvs, henv, rfl⟩
  · obtain ⟨_, _, _, hr⟩ := mem_wireEntry_values.mp hr
    obtain ⟨_, v, hv, hvp, hvs, _, rfl⟩ := mem_valuesOf.mp hr
    exact ⟨v, hv, hvp.trans hproject.symm, hvs, rfl⟩

end Shows

namespace Paging

variable {db db' : Db} {pager : Pager} {viewer projectId : Uuid} {since limit : ℕ}

theorem start (h : FeedOrdered db projectId) (since : ℕ) :
    Paging viewer projectId since (db, Pager.start since) :=
  ⟨h, Or.inl rfl, .start EntryRow.seq _ since _⟩

/-- A write moves what it changes behind the client's cursor. -/
theorem recorded (h : Paging viewer projectId since (db, pager))
    (hrec : Recorded db db' projectId) : Paging viewer projectId since (db', pager) := by
  have hcursor := h.cursor
  have hcounter := hrec.entries.write.counter
  refine ⟨hrec.entries.write.ordered, hcursor.imp_right fun hle => hle.trans hcounter, ?_⟩
  have hadvanced := h.covered.advance hrec.entries.write.advances hcursor
  intro e he hafter hle
  obtain ⟨x, hx, hshows⟩ := hadvanced e he hafter hle
  have hseq : e.seq ≤ seqOf db projectId := by
    dsimp only at hle hcursor
    omega
  exact ⟨x, hx, hshows.recorded (mem_entriesOf.mp he).2 hrec he hseq⟩

/-- What the client has after a page. -/
theorem has_receive {res : SyncProjectResponse}
    (hpage : ProjectsService.Page db viewer projectId pager.cursor limit res) {e : EntryRow}
    (h : pager.Has db e ∨ e ∈ Feed.page EntryRow.seq (entriesOf db projectId) pager.cursor limit) :
    (pager.receive db viewer projectId res).Has db e := by
  rcases h with ⟨x, hx, hshows⟩ | he
  · exact ⟨x, List.mem_append.mpr (Or.inl hx), hshows⟩
  · have hlonger : e ∈ Feed.page EntryRow.seq (entriesOf db projectId) pager.cursor (limit + 1) := by
      rw [← Feed.take_page] at he
      exact List.mem_of_mem_take he
    refine ⟨(viewerEnvironments db projectId viewer, _), List.mem_append.mpr (Or.inr ?_),
      Shows.of_page hlonger⟩
    refine List.mem_map.mpr ⟨_, ?_, rfl⟩
    rw [hpage.entries]
    exact List.mem_map_of_mem he

/-- A page covers everything up to its cursor, everything at all when it is the last, and
moves the client forward when it is not. -/
theorem page {res : SyncProjectResponse} (h : Paging viewer projectId since (db, pager))
    (hlimit : 0 < limit)
    (hpage : ProjectsService.Page db viewer projectId pager.cursor limit res) :
    Paging viewer projectId since (db, pager.receive db viewer projectId res) ∧
      (res.hasMore = false → ∀ e ∈ entriesOf db projectId, since < e.seq →
        (pager.receive db viewer projectId res).Has db e) ∧
      (res.hasMore = true → pager.cursor < res.cursor) := by
  have hcursor := h.cursor
  refine ⟨⟨h.ordered, ?_, fun e he hafter hle => ?_⟩, fun hlast e he hafter => ?_, fun hmore => ?_⟩
  · change res.cursor = since ∨ res.cursor ≤ seqOf db projectId
    rw [hpage.cursor]
    rcases Feed.cursor_le pager.cursor limit h.ordered.bounded with heq | hle
    · rw [heq]
      exact hcursor
    · exact Or.inr hle
  · refine has_receive hpage (h.covered.page h.ordered.distinct limit e he hafter ?_)
    rw [← hpage.cursor]
    exact hle
  · rw [hpage.hasMore, decide_eq_false_iff_not, not_lt] at hlast
    exact has_receive hpage (h.covered.complete hlast he hafter)
  · rw [hpage.hasMore, decide_eq_true_eq] at hmore
    rw [hpage.cursor]
    exact Feed.lt_cursor_of_more hlimit hmore

/-- Every step keeps what holds between the server and the client. -/
theorem step {s s' : Db × Pager} (h : Paging viewer projectId since s)
    (hstep : PagerStep viewer projectId s s') : Paging viewer projectId since s' := by
  cases hstep with
  | write pager hwrite => exact h.recorded (hwrite.recorded h.ordered)
  | fetch limit now hlimit hsync =>
    obtain ⟨rfl, hpage⟩ := ProjectsService.sync_ok hsync
    have hdropped := h.recorded
      (Upkept.recorded (Upkeep.reconcile _ projectId now).upkept h.ordered)
    exact (hdropped.page hlimit hpage).1

/-- Every run. -/
theorem run {s s' : Db × Pager} (h : Paging viewer projectId since s)
    (hrun : ReflTransGen (PagerStep viewer projectId) s s') :
    Paging viewer projectId since s' := by
  induction hrun with
  | refl => exact h
  | tail _ hstep ih => exact ih.step hstep

end Paging

section Complete

variable {db₀ db : Db} {pager : Pager} {viewer projectId : Uuid} {since : ℕ}

/-- The server stays in reachable states while a client pages. -/
theorem Reachable.paging {s s' : Db × Pager} (h : Reachable s.1)
    (hrun : ReflTransGen (PagerStep viewer projectId) s s') : Reachable s'.1 := by
  induction hrun with
  | refl => exact h
  | tail _ hstep ih =>
    cases hstep with
    | write pager hwrite => exact ih.write hwrite
    | fetch limit now hlimit hsync =>
      obtain ⟨rfl, _⟩ := ProjectsService.sync_ok hsync
      exact ih.write (.access (.upkeep (.reconcile _ projectId now)))

/-- An accepted entry write puts its entry behind all there was. -/
theorem writeEntry_behind {w : EntryWrite} {entry : ProjectEntry} {db' : Db}
    (hwrite : writeEntry db w = (.ok entry, db')) :
    ∃ e ∈ entriesOf db' w.projectId, e.id = w.id ∧ seqOf db w.projectId < e.seq := by
  have hcases := writeEntry_cases db w
  rw [hwrite] at hcases
  rcases hcases with ⟨seq, hw, _⟩ | ⟨_, hnot⟩
  · obtain ⟨p, hp, hid, hseq⟩ := hw.next
    have hlast : seqOf db w.projectId = p.seq := hid ▸ seqOf_eq hp
    refine ⟨writtenRow w seq, mem_entriesOf.mpr ⟨(hw.entries _).mpr (Or.inr rfl), rfl⟩, rfl, ?_⟩
    change seqOf db w.projectId < seq
    omega
  · exact absurd rfl (hnot entry)

/-- **The change feed is complete.** In every reachable state a project's entries are at
distinct positions within its counter, and every write moves the entries it changes behind
all of them. So whatever is written between its pages, a client has received all up to its
cursor, has received everything once a page says that no more follows, and moves forward
with every page that says otherwise. -/
theorem sync_complete (h : Reachable db₀)
    (hrun : ReflTransGen (PagerStep viewer projectId) (db₀, Pager.start since) (db, pager)) :
    FeedOrdered db projectId ∧
      (∀ db', StoreWrite db db' → Feed.Advances EntryRow.seq (seqOf db projectId)
        (entriesOf db projectId) (entriesOf db' projectId)) ∧
      (∀ w entry db', writeEntry db w = (.ok entry, db') →
        ∃ e ∈ entriesOf db' w.projectId, e.id = w.id ∧ seqOf db w.projectId < e.seq) ∧
      (∀ env accountId req now db', rotateTx db env accountId req now = (.ok (), db') →
        ∀ e ∈ entriesOf db' env.projectId,
          e.id ∈ env.environmentId :: req.values.map ResealedValue.secretId →
            seqOf db env.projectId < e.seq) ∧
      Feed.Covered EntryRow.seq (entriesOf db projectId) since pager.cursor (pager.Has db) ∧
      ∀ limit now res db', 0 < limit →
        ProjectsService.sync db viewer projectId pager.cursor limit now = (.ok res, db') →
          (res.hasMore = false → ∀ e ∈ entriesOf db' projectId, since < e.seq →
            (pager.receive db' viewer projectId res).Has db' e) ∧
          (res.hasMore = true → pager.cursor < res.cursor) := by
  have hdb : Reachable db := h.paging hrun
  have hstart : Paging viewer projectId since (db₀, Pager.start since) :=
    .start (h.feedOrdered projectId) since
  have hpaging := hstart.run hrun
  refine ⟨hpaging.ordered, fun db' hwrite => ?_, fun w entry db' hwrite => ?_,
    fun env accountId req now db' htx => ?_, hpaging.covered, fun limit now res db' hlimit hsync => ?_⟩
  · exact (hwrite.recorded hpaging.ordered).entries.write.advances
  · exact writeEntry_behind hwrite
  · exact (rotated_recorded (rotateTx_ok htx) (hdb.feedOrdered env.projectId)).2 rfl
  · obtain ⟨rfl, hpage⟩ := ProjectsService.sync_ok hsync
    have hdropped := hpaging.recorded
      (Upkept.recorded (Upkeep.reconcile _ projectId now).upkept hpaging.ordered)
    exact (hdropped.page hlimit hpage).2

end Complete

/-- A project of account 10 with two environments. -/
def twoEnvironments : NewProject where
  id := 1
  ownerId := 10
  encryptedMeta := ⟨.record 1, 0, 0⟩
  encryptedKey := ⟨.account, 0, 0⟩
  environments := [⟨2, ⟨.record 2, 0, 0⟩, ⟨.account, 0, 0⟩⟩, ⟨3, ⟨.record 3, 0, 0⟩, ⟨.account, 0, 0⟩⟩]
  now := 0

/-- The first state with a project in it. -/
def firstProject : Db := (createProject Db.empty twoEnvironments).getD Db.empty

/-- The first environment, renamed. -/
def renameFirst : EntryWrite where
  projectId := 1
  id := 2
  type := .environment
  baseRevision := 1
  encryptedMeta := some ⟨.record 2, 1, 1⟩
  values := []
  keyGrant := none
  limit := 20
  viewer := 10
  now := 5

theorem firstProject_reachable : Reachable firstProject :=
  .write .empty (.create twoEnvironments rfl)

/-- What account 10 receives in the first page of one entry. -/
def firstPage : SyncProjectResponse where
  entries := [.environment ⟨2, 1, 1, 1, 0⟩ ⟨.record 2, 0, 0⟩ (some ⟨.account, 0, 0⟩)]
  cursor := 1
  hasMore := true

/-- What it receives next, once the first environment has been renamed. -/
def lastPage : SyncProjectResponse where
  entries := [.environment ⟨3, 1, 1, 2, 0⟩ ⟨.record 3, 0, 0⟩ (some ⟨.account, 0, 0⟩),
    .environment ⟨2, 1, 2, 3, 5⟩ ⟨.record 2, 1, 1⟩ (some ⟨.account, 0, 0⟩)]
  cursor := 3
  hasMore := false

/-- After these two pages account 10 has both environments, the first with its new name. -/
theorem sync_complete_renamed :
    (entriesOf (writeEntry firstProject renameFirst).2 1).length = 2 ∧
      ∀ e ∈ entriesOf (writeEntry firstProject renameFirst).2 1, 0 < e.seq →
        Pager.Has (((Pager.start 0).receive firstProject 10 1 firstPage).receive
          (writeEntry firstProject renameFirst).2 10 1 lastPage)
            (writeEntry firstProject renameFirst).2 e :=
  ⟨by decide, ((sync_complete firstProject_reachable ((ReflTransGen.single
    (.fetch 1 6 (by decide) rfl)).tail
      (.write _ (.entry _ renameFirst)))).2.2.2.2.2 5 7 lastPage _ (by decide) rfl).1 rfl⟩

/-- A project's own record is not ordered with its entries: it carries the counter, which is
the position of the entry changed last. -/
theorem firstProject_shares_position :
    ¬ ∀ db, Reachable db → ∀ p ∈ db.projects, ∀ e ∈ entriesOf db p.id, e.seq ≠ p.seq := by
  intro h
  exact h firstProject firstProject_reachable
    ⟨1, 10, ⟨.record 1, 0, 0⟩, 1, 2, 0, 0⟩ (by decide)
    ⟨1, 3, .environment, 1, 2, false, some ⟨.record 3, 0, 0⟩, 0⟩ (by decide) rfl

end Zvault
