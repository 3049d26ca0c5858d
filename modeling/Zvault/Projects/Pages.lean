import Mathlib.Algebra.Ring.Nat
import Zvault.Projects.Converges

/-!
# Pages together

While a project rests, the pages that a client reads one after another are the page
that it would have been given at once: the same entries in the same order, the same
values on each, and the same answer to whether more follow.
-/

namespace Zvault

open Relational ProjectsStore

section Rows

variable {db : Db} {projectId : Uuid} {rows rows' : List EntryRow} {row : EntryRow}

/-- The values on a secret, by environment. -/
theorem valuesOf_strict (db : Db) (projectId : Uuid) (envIds : List Uuid) (rows : List EntryRow)
    (secretId : Uuid) : (valuesOf db projectId envIds rows secretId).Pairwise
      fun a b => a.environmentId < b.environmentId := by
  simp only [valuesOf]
  rw [List.pairwise_map]
  split
  swap
  · exact List.Pairwise.nil
  generalize hselect : db.secretValues.select _ = values
  have : IsTrans SecretValueRow fun a b => a.environmentId ≤ b.environmentId :=
    ⟨fun _ _ _ hab hbc => hab.trans hbc⟩
  have : Std.Total fun a b : SecretValueRow => a.environmentId ≤ b.environmentId :=
    ⟨fun a b => le_total a.environmentId b.environmentId⟩
  have hsorted := List.pairwise_insertionSort
    (fun a b : SecretValueRow => a.environmentId ≤ b.environmentId) values
  have hnodup : (values.insertionSort fun a b => a.environmentId ≤ b.environmentId).Nodup := by
    rw [(List.perm_insertionSort _ _).nodup_iff, ← hselect]
    exact List.Nodup.of_map _ (db.secretValues.nodup_select _)
  refine ((hsorted.and hnodup).filter _).imp_of_mem fun ha hb hboth => ?_
  refine Nat.lt_of_le_of_ne hboth.1 fun heq => hboth.2 ?_
  -- two values of one secret for one environment are the same row
  obtain ⟨ha, hsecret⟩ := List.mem_filter.mp ha
  obtain ⟨hb, hsecret'⟩ := List.mem_filter.mp hb
  rw [List.mem_insertionSort, ← hselect, Table.mem_select] at ha hb
  simp only [decide_eq_true_eq] at ha hb hsecret hsecret'
  exact Table.eq_of_key_eq ha.1 hb.1
    (Prod.ext (ha.2.1.trans hb.2.1.symm) (Prod.ext (hsecret.trans hsecret'.symm) heq))

/-- What is sent of an entry does not depend on what else is read with it. -/
theorem wireEntry_congr (keyOf : Uuid → Option EncryptedBlob) (envIds : List Uuid)
    (hrow : row ∈ rows) (hrow' : row ∈ rows') :
    wireEntry keyOf (valuesOf db projectId envIds rows) row =
      wireEntry keyOf (valuesOf db projectId envIds rows') row := by
  unfold wireEntry
  dsimp only
  split
  · rfl
  rename_i hlive
  split
  · rfl
  split
  · rfl
  · rfl
  · rename_i htype
    have hlive : row.deleted = false := by simpa using hlive
    have hsame : valuesOf db projectId envIds rows row.id =
        valuesOf db projectId envIds rows' row.id := by
      refine Feed.eq_of_mem_iff (valuesOf_strict ..) (valuesOf_strict ..) fun r => ?_
      rw [mem_valuesOf, mem_valuesOf]
      exact and_congr_left' (iff_of_true ⟨row, hrow, htype, hlive, rfl⟩
        ⟨row, hrow', htype, hlive, rfl⟩)
    rw [hsame]

end Rows

namespace ProjectsService

/-- The pages that a client reads one after another, with the limit and the time of each, after what
it has read. -/
def readPages (db : Db) (viewer projectId : Uuid) (res : SyncProjectResponse) :
    List (ℕ × Timestamp) → Served SyncProjectResponse
  | [] => (.ok res, db)
  | (limit, now) :: requests =>
    match sync db viewer projectId res.cursor limit now with
    | (.error e, db) => (.error e, db)
    | (.ok page, db) =>
      readPages db viewer projectId
        ⟨res.entries ++ page.entries, page.cursor, page.hasMore⟩ requests

variable {db : Db} {viewer projectId : Uuid} {since limit limit' : ℕ}
  {res page : SyncProjectResponse}

theorem nodup_entriesOf (db : Db) (projectId : Uuid) : (entriesOf db projectId).Nodup :=
  List.Nodup.of_map _ (db.projectEntries.nodup_select _)

theorem Page.ext (h : Page db viewer projectId since limit res)
    (h' : Page db viewer projectId since limit page) : res = page := by
  obtain ⟨entries, cursor, hasMore⟩ := res
  obtain ⟨entries', cursor', hasMore'⟩ := page
  obtain rfl : entries = entries' := h.entries.trans h'.entries.symm
  obtain rfl : cursor = cursor' := h.cursor.trans h'.cursor.symm
  obtain rfl : hasMore = hasMore' := h.hasMore.trans h'.hasMore.symm
  rfl

/-- A page that starts where another one ended continues it. -/
theorem Page.append (hfeed : FeedOrdered db projectId)
    (h : Page db viewer projectId since limit res)
    (h' : Page db viewer projectId res.cursor limit' page) :
    Page db viewer projectId since (limit + limit')
      ⟨res.entries ++ page.entries, page.cursor, page.hasMore⟩ := by
  have hnodup := nodup_entriesOf db projectId
  have happend := Feed.page_append hfeed.distinct hnodup since limit limit'
  have hrest := Feed.after_cursor hfeed.distinct hnodup since limit
  rw [← h.cursor] at happend hrest
  refine ⟨?_, ?_, ?_⟩
  · dsimp only
    have hlonger := Feed.page_append hfeed.distinct hnodup since limit (limit' + 1)
    rw [← h.cursor, ← Nat.add_assoc] at hlonger
    rw [h.entries, h'.entries, ← happend, List.map_append]
    congr 1
    · refine List.map_congr_left fun row hrow => wireEntry_congr _ _ ?_ ?_
      · exact Feed.mem_page_mono (Nat.le_succ limit) hrow
      · exact Feed.mem_page_mono (by omega) hrow
    · refine List.map_congr_left fun row hrow => ?_
      have hnext := Feed.mem_page_mono (Nat.le_succ limit') hrow
      refine wireEntry_congr _ _ hnext ?_
      rw [← hlonger]
      exact List.mem_append.mpr (Or.inr hnext)
  · dsimp only
    rw [h'.cursor, ← happend, Feed.cursor_append, ← h.cursor]
  · dsimp only
    rw [h'.hasMore]
    simp only [Feed.page, hrest, List.length_take, List.length_drop]
    exact decide_eq_decide.mpr (by omega)

/-- **Pages together are one page.** While the project rests, the pages that a client reads one
after another are what a single request with the sum of their limits is answered with; and once
they say that no more follows, they are all that lies behind the start, in order and once each. -/
theorem readPages_eq (hdb : Reachable db)
    (hmember : (getAccess db projectId viewer).any (·.member) = true) {now : Timestamp}
    (hquiet : ProjectPolicy.beforeAccess db projectId now = db)
    (hfirst : sync db viewer projectId since limit now = (.ok res, db))
    {requests : List (ℕ × Timestamp)}
    (hrests : ∀ r ∈ requests, ProjectPolicy.beforeAccess db projectId r.2 = db) :
    readPages db viewer projectId res requests =
        sync db viewer projectId since (limit + (requests.map Prod.fst).sum) now ∧
      ∀ whole, readPages db viewer projectId res requests = (.ok whole, db) →
        whole.hasMore = false → whole.entries = hydrate db projectId viewer
          (Feed.after EntryRow.seq (entriesOf db projectId) since) := by
  have hfeed := hdb.feedOrdered projectId
  have hall : readPages db viewer projectId res requests =
      sync db viewer projectId since (limit + (requests.map Prod.fst).sum) now := by
    induction requests generalizing limit res with
    | nil => exact hfirst.symm
    | cons request requests ih =>
      obtain ⟨limit', now'⟩ := request
      obtain ⟨page, hpage⟩ := sync_quiet hmember res.cursor limit'
      have hnext := hpage now' (hrests (limit', now') List.mem_cons_self)
      obtain ⟨whole, hwhole⟩ := sync_quiet hmember since (limit + limit')
      have happend := ((sync_ok hfirst).2).append hfeed (sync_ok hnext).2
      have hserved := hwhole now hquiet
      obtain rfl := (sync_ok hserved).2.ext happend
      have hstep : readPages db viewer projectId res ((limit', now') :: requests) =
          readPages db viewer projectId
            ⟨res.entries ++ page.entries, page.cursor, page.hasMore⟩ requests := by
        rw [readPages, hnext]
      rw [hstep, List.map_cons, List.sum_cons, ← Nat.add_assoc]
      exact ih hserved fun r hr => hrests r (List.mem_cons_of_mem _ hr)
  refine ⟨hall, fun whole hread hlast => ?_⟩
  rw [hall] at hread
  have hpage := (sync_ok hread).2
  have hshort : (Feed.after EntryRow.seq (entriesOf db projectId) since).length ≤
      limit + (requests.map Prod.fst).sum := by
    rw [hpage.hasMore, decide_eq_false_iff_not, Feed.page, List.length_take] at hlast
    omega
  rw [hpage.entries, Feed.page, Feed.page, List.take_of_length_le hshort,
    List.take_of_length_le (hshort.trans (Nat.le_succ _))]
  rfl

/-- A project of two environments, read in two pages of one. -/
theorem readPages_eq_firstProject : ∃ res,
    sync firstProject 10 1 0 1 5 = (.ok res, firstProject) ∧ res.entries.length = 1 ∧
      readPages firstProject 10 1 res [(1, 6)] = sync firstProject 10 1 0 2 5 ∧
      ∀ whole, readPages firstProject 10 1 res [(1, 6)] = (.ok whole, firstProject) →
        whole.hasMore = false → whole.entries = hydrate firstProject 1 10
          (Feed.after EntryRow.seq (entriesOf firstProject 1) 0) := by
  have hquiet : ∀ r ∈ [(1, 6)], ProjectPolicy.beforeAccess firstProject 1 r.2 = firstProject :=
    fun r _ => rfl
  have hmember : (getAccess firstProject 1 10).any (·.member) = true := by decide
  have hnow : ProjectPolicy.beforeAccess firstProject 1 5 = firstProject := rfl
  have hfirst : sync firstProject 10 1 0 1 5 = (.ok firstPage, firstProject) := rfl
  exact ⟨firstPage, hfirst, rfl,
    readPages_eq firstProject_reachable hmember hnow hfirst hquiet⟩

end ProjectsService

end Zvault
