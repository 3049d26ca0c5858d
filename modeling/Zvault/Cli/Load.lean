import Zvault.Cli.Snapshot
import Zvault.Tokens.Issued

/-!
# What `zv` fetches with a token

`load` of `crates/zvault-cli/src/cloud.rs`: the pages of the change feed, one
behind the other, and the snapshot that is opened from them. Others write to the
project between the pages; an entry that they change is fetched again behind.
-/

namespace Zvault.Cli

open Relational Relation ProjectsStore

/-- `PAGE`. -/
def pageLimit : ℕ := 500

/-- An entry as `zv` reads it. -/
def toEntry : ProjectEntry → Entry
  | .deleted base type => ⟨base.id, type, true, none, []⟩
  | .environment base encryptedMeta _ => ⟨base.id, .environment, false, some encryptedMeta, []⟩
  | .folder base encryptedMeta => ⟨base.id, .folder, false, some encryptedMeta, []⟩
  | .secret base encryptedMeta values => ⟨base.id, .secret, false, some encryptedMeta,
      values.map fun v => (v.environmentId, v.encryptedValue)⟩

/-- The loop of `load` between two pages. -/
structure Loader where
  since : ℕ
  entries : List Entry
  done : Bool

/-- Before the first page. -/
def Loader.start : Loader := ⟨0, [], false⟩

/-- The loop after a page. -/
def Loader.receive (loader : Loader) (page : SyncProjectResponse) : Loader :=
  let entries := loader.entries ++ page.entries.map toEntry
  if !page.hasMore || page.cursor ≤ loader.since then ⟨loader.since, entries, true⟩
  else ⟨page.cursor, entries, false⟩

/-- One step of the server and the loop: a write, or a page for the token. -/
inductive LoadStep (row : AgentTokenRow) : Db × Loader → Db × Loader → Prop
  | write {db db' : Db} (loader : Loader) (h : StoreWrite db db') :
      LoadStep row (db, loader) (db', loader)
  | fetch {db db' : Db} {loader : Loader} {page : SyncProjectResponse} (now : Timestamp)
      (hmore : loader.done = false)
      (h : TokensService.serveChanges db row loader.since pageLimit now = (.ok page, db')) :
      LoadStep row (db, loader) (db', loader.receive page)

/-- What was fetched up to `since` stays as it is: the entries, and the values sent with them. -/
structure Spares (row : AgentTokenRow) (since : ℕ) (db db' : Db) : Prop where
  entries : ∀ r ∈ entriesOf db row.projectId, r.seq ≤ since → r ∈ entriesOf db' row.projectId
  values : ∀ r ∈ entriesOf db row.projectId, r.seq ≤ since → ∀ v ∈ db.secretValues,
    v.projectId = row.projectId → v.secretId = r.id → v.environmentId ∈ row.envIds →
      v ∈ db'.secretValues

/-- A step that spares what was fetched. -/
def SparingStep (row : AgentTokenRow) (s s' : Db × Loader) : Prop :=
  LoadStep row s s' ∧ Spares row s.2.since s.1 s'.1

/-- The session of a token. -/
structure SessionOf {W : Type} (row : AgentTokenRow) (session : Session W) : Prop where
  projectId : session.projectId = row.projectId
  environments : session.environments.map (·.environmentId) = row.envIds

section Exact

variable {W K : Type} (token : AgentToken W K) (key : K) (db : Db) (row : AgentTokenRow)

/-- An entry that is not deleted, whose metadata opens to `plain`. -/
def OpensTo (r : EntryRow) (plain : Plain) : Prop :=
  r.deleted = false ∧ ∃ b, r.encryptedMeta = some b ∧
    openJson token key b r.id (metaAad r.projectId r.type r.id) = .ok plain

/-- A secret as it is stored: its name, the folder that it is in, and the values that the token
is sent. -/
structure SecretOf (r : EntryRow) (plain : Plain) (s : Secret) : Prop where
  id : s.id = r.id
  named : plain.key = some s.key
  folder : ∀ slug, s.folder = some slug ↔ ∃ f ∈ entriesOf db row.projectId,
    plain.folderId = some f.id ∧ f.type = .folder ∧ ∃ p, OpensTo token key f p ∧ p.slug = some slug
  values : ∀ id x, s.values id = some x ↔ id ∈ row.envIds ∧ ∃ v ∈ db.secretValues,
    v.key = (row.projectId, r.id, id) ∧ sealedBy v.encryptedValue id = .ok x

/-- A snapshot has the environments of its token and the secrets of the project, each once and
as it is stored. -/
structure Exact (snapshot : Snapshot K) : Prop where
  environments : snapshot.environments.map (·.id) = row.envIds ∧
    ∀ env ∈ snapshot.environments, ∃ r ∈ entriesOf db row.projectId, r.id = env.id ∧
      r.type = .environment ∧ ∃ plain, OpensTo token key r plain ∧ plain.slug = some env.slug
  once : (snapshot.secrets.map (·.id)).Nodup
  listed : ∀ r ∈ entriesOf db row.projectId, r.type = .secret → r.deleted = false →
    r.encryptedMeta.isSome = true → r.id ∈ snapshot.secrets.map (·.id)
  secrets : ∀ s ∈ snapshot.secrets, ∃ r ∈ entriesOf db row.projectId, r.type = .secret ∧
    ∃ plain, OpensTo token key r plain ∧ SecretOf token key db row r plain s

end Exact

/-- An entry is a row as it is stored, with its values in some environments. -/
structure Latest (db : Db) (envIds : List Uuid) (r : EntryRow) (e : Entry) : Prop where
  id : e.id = r.id
  kind : e.kind = r.type
  deleted : e.deleted = false ↔ r.deleted = false ∧ r.encryptedMeta.isSome = true
  encryptedMeta : e.deleted = false → e.encryptedMeta = r.encryptedMeta
  keys : (e.values.map Prod.fst).Nodup
  values : e.deleted = false → e.kind = .secret → ∀ x, x ∈ e.values ↔ x.1 ∈ envIds ∧
    ∃ v ∈ db.secretValues, v.key = (r.projectId, r.id, x.1) ∧ v.encryptedValue = x.2

/-- The entries fetched are those up to a position, each once and as it is stored. -/
structure Fetched (db : Db) (row : AgentTokenRow) (upTo : ℕ) (entries : List Entry) : Prop where
  once : (entries.map (·.id)).Nodup
  latest : ∀ e ∈ entries, ∃ r ∈ entriesOf db row.projectId, r.seq ≤ upTo ∧
    Latest db row.envIds r e
  all : ∀ r ∈ entriesOf db row.projectId, r.seq ≤ upTo → ∃ e ∈ entries,
    Latest db row.envIds r e

/-- What holds between the server and the loop. -/
structure Loading (row : AgentTokenRow) (s : Db × Loader) : Prop where
  ordered : FeedOrdered s.1 row.projectId
  cursor : s.2.since ≤ seqOf s.1 row.projectId
  fetched : s.2.done = false → Fetched s.1 row s.2.since s.2.entries

section Page

variable {db db' : Db} {row : AgentTokenRow} {since limit : ℕ}

theorem toEntry_wireEntry (keyOf : Uuid → Option EncryptedBlob)
    (valuesOf : Uuid → List SecretValueRecord) (r : EntryRow) :
    (toEntry (wireEntry keyOf valuesOf r)).id = r.id ∧
      (toEntry (wireEntry keyOf valuesOf r)).kind = r.type ∧
      ((toEntry (wireEntry keyOf valuesOf r)).deleted = false ↔
        r.deleted = false ∧ r.encryptedMeta.isSome = true) ∧
      ((toEntry (wireEntry keyOf valuesOf r)).deleted = false →
        (toEntry (wireEntry keyOf valuesOf r)).encryptedMeta = r.encryptedMeta) ∧
      (toEntry (wireEntry keyOf valuesOf r)).values =
        (wireEntry keyOf valuesOf r).values.map fun v => (v.environmentId, v.encryptedValue) := by
  unfold wireEntry
  dsimp only
  split
  · rename_i hdeleted
    simp [toEntry, hdeleted, ProjectEntry.values]
  rename_i hdeleted
  split
  · rename_i hmeta
    simp [toEntry, hmeta, ProjectEntry.values]
  rename_i encryptedMeta hmeta
  split
  all_goals
    rename_i htype
    simp [toEntry, hmeta, htype, hdeleted, ProjectEntry.values]

/-- The values put on a secret have an environment each. -/
theorem nodup_valuesOf (db : Db) (projectId : Uuid) (envIds : List Uuid) (rows : List EntryRow)
    (secretId : Uuid) :
    ((valuesOf db projectId envIds rows secretId).map (·.environmentId)).Nodup := by
  unfold valuesOf
  dsimp only
  split
  swap
  · exact List.nodup_nil
  rw [List.map_map]
  have hkeys := db.secretValues.nodup_select fun v => decide (v.projectId = projectId ∧
    v.secretId ∈ (rows.filter fun r => r.type = .secret ∧ r.deleted = false).map EntryRow.id ∧
      v.environmentId ∈ envIds)
  have hrows := List.Nodup.of_map _ hkeys
  refine (List.nodup_map_iff_inj_on ?_).mpr fun v hv v' hv' henv => ?_
  · exact ((List.perm_insertionSort _ _).nodup_iff.mpr hrows).filter _
  · simp only [List.mem_filter, List.mem_insertionSort, Table.mem_select, decide_eq_true_eq] at hv hv'
    refine Table.eq_of_key_eq hv.1.1 hv'.1.1 ?_
    exact Prod.ext (hv.1.2.1.trans hv'.1.2.1.symm) (Prod.ext (hv.2.trans hv'.2.symm) henv)

/-- An entry of a page is its row as it is stored. -/
theorem latest_page {r : EntryRow}
    (hr : r ∈ Feed.page EntryRow.seq (entriesOf db row.projectId) since (limit + 1)) :
    Latest db row.envIds r (toEntry (wireEntry (fun _ => none) (valuesOf db row.projectId row.envIds
      (Feed.page EntryRow.seq (entriesOf db row.projectId) since (limit + 1))) r)) := by
  have hproject := (mem_entriesOf.mp (Feed.mem_of_mem_page hr).1).2
  obtain ⟨hid, hkind, hdeleted, hmeta, hvalues⟩ := toEntry_wireEntry (fun _ => none)
    (valuesOf db row.projectId row.envIds
      (Feed.page EntryRow.seq (entriesOf db row.projectId) since (limit + 1))) r
  refine ⟨hid, hkind, hdeleted, hmeta, ?_, fun hlive hsecret x => ?_⟩
  · rw [hvalues, List.map_map]
    unfold wireEntry
    dsimp only
    split
    · exact List.nodup_nil
    split
    · exact List.nodup_nil
    split
    · exact List.nodup_nil
    · exact List.nodup_nil
    · exact nodup_valuesOf db row.projectId row.envIds _ r.id
  · obtain ⟨hrlive, hrmeta⟩ := hdeleted.mp hlive
    rw [hkind] at hsecret
    rw [hvalues, List.mem_map]
    constructor
    · rintro ⟨record, hrecord, rfl⟩
      obtain ⟨-, -, -, hrecord⟩ := mem_wireEntry_values.mp hrecord
      obtain ⟨-, v, hv, hvp, hvs, henv, rfl⟩ := mem_valuesOf.mp hrecord
      exact ⟨henv, v, hv, Prod.ext (hvp.trans hproject.symm) (Prod.ext hvs rfl), rfl⟩
    · rintro ⟨henv, v, hv, hkey, hvalue⟩
      have hvp : v.projectId = row.projectId := (congrArg Prod.fst hkey).trans hproject
      have hvs : v.secretId = r.id := congrArg (fun k => k.2.1) hkey
      have hve : v.environmentId = x.1 := congrArg (fun k => k.2.2) hkey
      refine ⟨v.record, mem_wireEntry_values.mpr ⟨hsecret, hrlive, hrmeta, mem_valuesOf.mpr
        ⟨⟨r, hr, hsecret, hrlive, rfl⟩, v, hv, hvp, hvs, hve ▸ henv, rfl⟩⟩, ?_⟩
      exact Prod.ext hve hvalue

theorem exists_row_of_mem_changes {e : Entry}
    (he : e ∈ (TokensService.changes db row since limit).entries.map toEntry) :
    ∃ r ∈ Feed.page EntryRow.seq (entriesOf db row.projectId) since limit,
      Latest db row.envIds r e := by
  rw [TokensService.changes_eq, List.map_map] at he
  obtain ⟨r, hr, rfl⟩ := List.mem_map.mp he
  rw [← Feed.take_page] at hr
  exact ⟨r, Feed.take_page ▸ hr, latest_page (List.mem_of_mem_take hr)⟩

theorem exists_mem_changes {r : EntryRow}
    (hr : r ∈ Feed.page EntryRow.seq (entriesOf db row.projectId) since limit) :
    ∃ e ∈ (TokensService.changes db row since limit).entries.map toEntry,
      Latest db row.envIds r e := by
  rw [TokensService.changes_eq, List.map_map]
  refine ⟨_, List.mem_map_of_mem hr, latest_page ?_⟩
  rw [← Feed.take_page] at hr
  exact List.mem_of_mem_take hr

/-- The entries of a page, by their ids. -/
theorem changes_ids (db : Db) (row : AgentTokenRow) (since limit : ℕ) :
    ((TokensService.changes db row since limit).entries.map toEntry).map (·.id) =
      (Feed.page EntryRow.seq (entriesOf db row.projectId) since limit).map EntryRow.id := by
  rw [TokensService.changes_eq, List.map_map, List.map_map]
  exact List.map_congr_left fun r _ => (toEntry_wireEntry _ _ r).1

end Page

namespace Fetched

variable {db db' : Db} {row : AgentTokenRow} {since upTo : ℕ} {entries : List Entry}

theorem start (h : FeedOrdered db row.projectId) : Fetched db row 0 [] := by
  refine ⟨List.nodup_nil, fun e he => absurd he List.not_mem_nil, fun r hr hle => ?_⟩
  have := h.positive r hr
  omega

/-- What a write spares stays as it was fetched. -/
theorem spared (h : Fetched db row since entries) (hspares : Spares row since db db')
    (hrec : Recorded db db' row.projectId) (hsince : since ≤ seqOf db row.projectId) :
    Fetched db' row since entries := by
  have hlatest {r : EntryRow} (hr : r ∈ entriesOf db row.projectId) (hle : r.seq ≤ since) {e : Entry}
      (he : Latest db row.envIds r e) : Latest db' row.envIds r e := by
    have hproject := (mem_entriesOf.mp hr).2
    refine ⟨he.id, he.kind, he.deleted, he.encryptedMeta, he.keys, fun hlive hkind x => ?_⟩
    rw [he.values hlive hkind]
    refine and_congr_right fun henv => ?_
    have hkeys {v : SecretValueRow} (hkey : v.key = (r.projectId, r.id, x.1)) :
        v.projectId = row.projectId ∧ v.secretId = r.id ∧ v.environmentId = x.1 :=
      ⟨(congrArg Prod.fst hkey).trans hproject, congrArg (fun k => k.2.1) hkey,
        congrArg (fun k => k.2.2) hkey⟩
    constructor
    · rintro ⟨v, hv, hkey, hvalue⟩
      obtain ⟨hvp, hvs, hve⟩ := hkeys hkey
      exact ⟨v, hspares.values r hr hle v hv hvp hvs (hve ▸ henv), hkey, hvalue⟩
    · rintro ⟨v, hv, hkey, hvalue⟩
      obtain ⟨hvp, hvs, hve⟩ := hkeys hkey
      rcases hrec.stored v hv hvp with hold | hmoved
      · exact ⟨v, hold, hkey, hvalue⟩
      · have := hmoved r (hspares.entries r hr hle) hvs.symm
        omega
  have hold {r : EntryRow} (hr : r ∈ entriesOf db' row.projectId) (hle : r.seq ≤ since) :
      r ∈ entriesOf db row.projectId := by
    rcases hrec.entries.write.advances r hr with hold | hbehind
    · exact hold
    · omega
  refine ⟨h.once, fun e he => ?_, fun r hr hle => ?_⟩
  · obtain ⟨r, hr, hle, hlatest'⟩ := h.latest e he
    exact ⟨r, hspares.entries r hr hle, hle, hlatest hr hle hlatest'⟩
  · obtain ⟨e, he, hlatest'⟩ := h.all r (hold hr hle) hle
    exact ⟨e, he, hlatest (hold hr hle) hle hlatest'⟩

/-- A page adds the entries up to any position that it reaches. -/
theorem page (h : Fetched db row since entries) (limit : ℕ)
    (hbound : ∀ r ∈ Feed.page EntryRow.seq (entriesOf db row.projectId) since limit, r.seq ≤ upTo)
    (hreach : ∀ r ∈ entriesOf db row.projectId, since < r.seq → r.seq ≤ upTo →
      r ∈ Feed.page EntryRow.seq (entriesOf db row.projectId) since limit) (hle : since ≤ upTo) :
    Fetched db row upTo
      (entries ++ (TokensService.changes db row since limit).entries.map toEntry) := by
  refine ⟨?_, fun e he => ?_, fun r hr hupTo => ?_⟩
  · rw [List.map_append, changes_ids]
    refine List.nodup_append.mpr ⟨h.once, ?_, ?_⟩
    · have hrows := List.Nodup.of_map _ (db.projectEntries.nodup_select fun e =>
        decide (e.projectId = row.projectId))
      have hpage : (Feed.page EntryRow.seq (entriesOf db row.projectId) since limit).Nodup := by
        refine List.Nodup.sublist (List.take_sublist _ _) ?_
        exact (List.perm_insertionSort _ _).nodup_iff.mpr (hrows.filter _)
      refine (List.nodup_map_iff_inj_on hpage).mpr fun r hr r' hr' hid => ?_
      exact eq_of_mem_entriesOf (Feed.mem_of_mem_page hr).1 (Feed.mem_of_mem_page hr').1 hid
    · intro id hid id' hid' heq
      obtain ⟨e, he, rfl⟩ := List.mem_map.mp hid
      obtain ⟨r', hr', rfl⟩ := List.mem_map.mp hid'
      obtain ⟨r, hr, hbefore, hlatest⟩ := h.latest e he
      obtain ⟨hmem, hafter⟩ := Feed.mem_of_mem_page hr'
      rw [eq_of_mem_entriesOf hr hmem (hlatest.id.symm.trans heq)] at hbefore
      omega
  · rcases List.mem_append.mp he with hold | hnew
    · obtain ⟨r, hr, hbefore, hlatest⟩ := h.latest e hold
      exact ⟨r, hr, hbefore.trans hle, hlatest⟩
    · obtain ⟨r, hr, hlatest⟩ := exists_row_of_mem_changes hnew
      exact ⟨r, (Feed.mem_of_mem_page hr).1, hbound r hr, hlatest⟩
  · by_cases hbefore : r.seq ≤ since
    · obtain ⟨e, he, hlatest⟩ := h.all r hr hbefore
      exact ⟨e, List.mem_append_left _ he, hlatest⟩
    · obtain ⟨e, he, hlatest⟩ := exists_mem_changes (hreach r hr (by omega) hupTo)
      exact ⟨e, List.mem_append_right _ he, hlatest⟩

end Fetched

namespace Loading

variable {db db' : Db} {row : AgentTokenRow} {loader : Loader}

theorem start (h : FeedOrdered db row.projectId) : Loading row (db, Loader.start) :=
  ⟨h, Nat.zero_le _, fun _ => .start h⟩

/-- A write that spares what was fetched. -/
theorem recorded (h : Loading row (db, loader)) (hrec : Recorded db db' row.projectId)
    (hspares : Spares row loader.since db db') : Loading row (db', loader) :=
  ⟨hrec.entries.write.ordered, h.cursor.trans hrec.entries.write.counter,
    fun hmore => (h.fetched hmore).spared hspares hrec h.cursor⟩

/-- Upkeep spares every entry and value. -/
theorem upkept (h : Loading row (db, loader)) (hupkept : Upkept db db') :
    Loading row (db', loader) := by
  refine h.recorded (hupkept.recorded h.ordered) ⟨fun r hr _ => ?_, fun r _ _ v hv _ _ _ => ?_⟩
  · rwa [entriesOf, hupkept.projectEntries]
  · rwa [hupkept.secretValues]

/-- A page that is not the last one moves the loop forward, and the last one leaves nothing out. -/
theorem receive (h : Loading row (db, loader)) (hmore : loader.done = false) :
    Loading row (db, loader.receive (TokensService.changes db row loader.since pageLimit)) ∧
      ((loader.receive (TokensService.changes db row loader.since pageLimit)).done = true →
        Fetched db row (seqOf db row.projectId)
          (loader.receive (TokensService.changes db row loader.since pageLimit)).entries) := by
  have hfetched := h.fetched hmore
  have hcursor := h.cursor
  dsimp only at hfetched hcursor
  unfold Loader.receive
  dsimp only
  split
  · rename_i hlast
    refine ⟨⟨h.ordered, h.cursor, fun hdone => by cases hdone⟩, fun _ => ?_⟩
    refine hfetched.page pageLimit
      (fun r hr => h.ordered.bounded r (Feed.mem_of_mem_page hr).1) (fun r hr hafter _ => ?_) hcursor
    refine Feed.mem_page_of_last ?_ hr hafter
    rw [TokensService.changes_eq] at hlast
    simp only [Bool.or_eq_true, Bool.not_eq_true', decide_eq_false_iff_not, decide_eq_true_eq,
      not_lt] at hlast
    rcases hlast with hlast | hstuck
    · exact hlast
    · by_contra hmore
      have := Feed.lt_cursor_of_more (by decide : 0 < pageLimit) (not_le.mp hmore)
      omega
  · refine ⟨⟨h.ordered, ?_, fun _ => ?_⟩, fun hdone => by cases hdone⟩
    · rw [TokensService.changes_eq]
      rcases Feed.cursor_le loader.since pageLimit h.ordered.bounded with heq | hle
      · exact heq.trans_le hcursor
      · exact hle
    · have hcursor' : (TokensService.changes db row loader.since pageLimit).cursor =
          Feed.cursor EntryRow.seq (Feed.page EntryRow.seq (entriesOf db row.projectId)
            loader.since pageLimit) loader.since := by
        rw [TokensService.changes_eq]
      refine hfetched.page pageLimit (fun r hr => ?_) (fun r hr hafter hle => ?_) ?_
      · rw [hcursor']
        exact Feed.le_cursor_of_mem hr
      · rw [hcursor'] at hle
        exact Feed.mem_page_of_le_cursor h.ordered.distinct hr hafter hle
      · rw [hcursor']
        exact Feed.le_cursor

/-- Every step that spares what was fetched. -/
theorem step {s s' : Db × Loader} (h : Loading row s) (hstep : SparingStep row s s') :
    Loading row s' := by
  obtain ⟨hstep, hspares⟩ := hstep
  cases hstep with
  | write loader hwrite => exact h.recorded (hwrite.recorded h.ordered) hspares
  | fetch now hmore hserve =>
    obtain ⟨rfl, rfl⟩ := TokensService.serveChanges_ok hserve
    exact ((h.upkept (Upkeep.reconcile _ row.projectId now).upkept).receive hmore).1

/-- Every run of them. -/
theorem run {s s' : Db × Loader} (h : Loading row s)
    (hrun : ReflTransGen (SparingStep row) s s') : Loading row s' := by
  induction hrun with
  | refl => exact h
  | tail _ hstep ih => exact ih.step hstep

end Loading

section Snapshot

variable {W K : Type} {token : AgentToken W K} {session : Session W} {db : Db} {row : AgentTokenRow}
  {entries : List Entry} {snapshot : Snapshot K} {key : K}

theorem slugOf_eq_ok {plain : Plain} {slug : String} :
    slugOf plain = .ok slug ↔ plain.slug = some slug := by
  unfold slugOf
  constructor
  · intro h
    split at h
    · cases h
      assumption
    · cases h
  · intro h
    rw [h]

theorem OpensTo.unique {r : EntryRow} {plain plain' : Plain} (h : OpensTo token key r plain)
    (h' : OpensTo token key r plain') : plain = plain' := by
  obtain ⟨-, b, hb, hopen⟩ := h
  obtain ⟨-, b', hb', hopen'⟩ := h'
  rw [hb] at hb'
  cases hb'
  rw [hopen] at hopen'
  cases hopen'
  rfl

/-- Where metadata that was found comes from. -/
theorem exists_of_metaOf {projectId id : Uuid} {live : List Entry} {kind : EntryType} {plain : Plain}
    (h : metaOf token key projectId live kind id = .ok (some plain)) :
    ∃ e ∈ live, e.kind = kind ∧ e.id = id ∧ ∃ b, e.encryptedMeta = some b ∧
      openJson token key b id (metaAad projectId kind id) = .ok plain := by
  unfold metaOf at h
  split at h
  · cases h
  rename_i b hb
  obtain ⟨plain', hplain, heq⟩ := Fallible.map_eq_ok.mp h
  cases heq
  obtain ⟨e, hfind, hmeta⟩ := Option.bind_eq_some_iff.mp hb
  have hfound := List.find?_some hfind
  simp only [decide_eq_true_eq] at hfound
  exact ⟨e, List.mem_of_find?_eq_some hfind, hfound.1, hfound.2, b, hmeta, hplain⟩

namespace Fetched

variable {upTo : ℕ}

theorem distinct (h : Fetched db row upTo entries) : Distinct (liveOf entries) := by
  have hids : ((liveOf entries).map (·.id)).Nodup :=
    h.once.sublist (List.filter_sublist.map _)
  refine List.Nodup.of_map Prod.snd ?_
  rwa [List.map_map]

theorem mem_live (h : Fetched db row upTo entries) {e : Entry} (he : e ∈ liveOf entries) :
    ∃ r ∈ entriesOf db row.projectId, Latest db row.envIds r e ∧ e.deleted = false := by
  obtain ⟨he, hlive⟩ := List.mem_filter.mp he
  obtain ⟨r, hr, -, hlatest⟩ := h.latest e he
  exact ⟨r, hr, hlatest, by simpa using hlive⟩

/-- Metadata found among the fetched entries is that of a row. -/
theorem metaOf_ok (h : Fetched db row upTo entries) {kind : EntryType} {id : Uuid} {plain : Plain}
    (hmeta : metaOf token key row.projectId (liveOf entries) kind id = .ok (some plain)) :
    ∃ r ∈ entriesOf db row.projectId, r.id = id ∧ r.type = kind ∧ OpensTo token key r plain := by
  obtain ⟨e, he, hkind, hid, b, hb, hopen⟩ := exists_of_metaOf hmeta
  obtain ⟨r, hr, hlatest, hlive⟩ := h.mem_live he
  have hrid : r.id = id := hlatest.id.symm.trans hid
  have hrkind : r.type = kind := hlatest.kind.symm.trans hkind
  refine ⟨r, hr, hrid, hrkind, (hlatest.deleted.mp hlive).1, b, ?_, ?_⟩
  · rw [← hlatest.encryptedMeta hlive, hb]
  · rwa [hrid, hrkind, (mem_entriesOf.mp hr).2]

/-- A row that is not deleted was fetched. -/
theorem exists_ofKind (h : Fetched db row upTo entries)
    (hupTo : ∀ r ∈ entriesOf db row.projectId, r.seq ≤ upTo) {r : EntryRow}
    (hr : r ∈ entriesOf db row.projectId) (hlive : r.deleted = false)
    (hmeta : r.encryptedMeta.isSome = true) :
    ∃ e ∈ ofKind r.type (liveOf entries), e.id = r.id := by
  obtain ⟨e, he, hlatest⟩ := h.all r hr (hupTo r hr)
  refine ⟨e, List.mem_filter.mpr ⟨List.mem_filter.mpr ⟨he, ?_⟩, decide_eq_true hlatest.kind⟩,
    hlatest.id⟩
  rw [hlatest.deleted.mpr ⟨hlive, hmeta⟩, Bool.not_false]

/-- A folder is named as it is stored, if there is one. -/
theorem folder_iff (h : Fetched db row upTo entries)
    (hupTo : ∀ r ∈ entriesOf db row.projectId, r.seq ≤ upTo)
    (hproject : session.projectId = row.projectId)
    {folders : List (Option (Uuid × String))}
    (hopened : Opened token session entries key folders snapshot) {id : Uuid} {slug : String} :
    lastOf folders.reduceOption id = some slug ↔ ∃ f ∈ entriesOf db row.projectId,
      id = f.id ∧ f.type = .folder ∧ ∃ p, OpensTo token key f p ∧ p.slug = some slug := by
  have hfolders := hopened.ofFolders
  rw [hproject] at hfolders
  have hout {e : Entry} {out : Option (Uuid × String)} (he : e ∈ ofKind .folder (liveOf entries))
      (hout : openFolder token key row.projectId (liveOf entries) e = .ok out) :
      ∃ r ∈ entriesOf db row.projectId, r.id = e.id ∧ r.type = .folder ∧
        ∃ p slug, OpensTo token key r p ∧ p.slug = some slug ∧ out = some (e.id, slug) := by
    obtain ⟨hlive, hkind⟩ := List.mem_filter.mp he
    obtain ⟨r', -, hlatest, hlive'⟩ := h.mem_live hlive
    obtain ⟨b, hb⟩ := Option.isSome_iff_exists.mp (hlatest.deleted.mp hlive').2
    rw [← hlatest.encryptedMeta hlive'] at hb
    have hfound : metaOf token key row.projectId (liveOf entries) e.kind e.id =
        (openJson token key b e.id (metaAad row.projectId e.kind e.id)).map some :=
      metaOf_self h.distinct hlive hb
    rw [of_decide_eq_true hkind] at hfound
    unfold openFolder at hout
    obtain ⟨plain, hplain, hout⟩ := Fallible.bind_eq_ok.mp hout
    rw [hfound] at hplain
    obtain ⟨p, hp, rfl⟩ := Fallible.map_eq_ok.mp hplain
    dsimp only at hout
    obtain ⟨slug, hslug, hout⟩ := Fallible.bind_eq_ok.mp hout
    cases hout
    obtain ⟨r, hr, hid, htype, hopens⟩ := h.metaOf_ok (hfound.trans (by rw [hp]; rfl))
    exact ⟨r, hr, hid, htype, p, slug, hopens, slugOf_eq_ok.mp hslug, rfl⟩
  have hids : (folders.reduceOption.map Prod.fst).Nodup := by
    rw [Fallible.reduceOption_map_eq hfolders (f := (·.id)) fun e he out ho => ?_]
    · exact h.once.sublist ((List.filter_sublist.trans List.filter_sublist).map _)
    · obtain ⟨_, _, _, _, _, _, _, _, rfl⟩ := hout he ho
      rfl
  rw [lastOf_eq_some hids, List.reduceOption_mem_iff]
  constructor
  · intro hmem
    obtain ⟨e, he, ho⟩ := Fallible.exists_left hfolders hmem
    obtain ⟨r, hr, hid, htype, p, slug', hopens, hslug, heq⟩ := hout he ho
    cases heq
    exact ⟨r, hr, hid.symm, htype, p, hopens, hslug⟩
  · rintro ⟨f, hf, rfl, htype, p, hopens, hslug⟩
    have hsome := hopens.2
    obtain ⟨b, hb, -⟩ := hsome
    obtain ⟨e, he, hid⟩ := h.exists_ofKind hupTo hf hopens.1 (by rw [hb]; rfl)
    rw [htype] at he
    obtain ⟨out, hmem, ho⟩ := Fallible.exists_right hfolders he
    obtain ⟨r, hr, hrid, -, p', slug', hopens', hslug', rfl⟩ := hout he ho
    obtain rfl := eq_of_mem_entriesOf hr hf (hrid.trans hid)
    obtain rfl := hopens.unique hopens'
    rw [hslug] at hslug'
    cases hslug'
    rwa [hid] at hmem

/-- A secret of the snapshot is a row as it is stored. -/
theorem secretOf (h : Fetched db row upTo entries)
    (hupTo : ∀ r ∈ entriesOf db row.projectId, r.seq ≤ upTo)
    (hproject : session.projectId = row.projectId) {folders : List (Option (Uuid × String))}
    (hopened : Opened token session entries key folders snapshot) {s : Secret}
    (hs : s ∈ snapshot.secrets) : ∃ r ∈ entriesOf db row.projectId, r.type = .secret ∧
      ∃ plain, OpensTo token key r plain ∧ SecretOf token key db row r plain s := by
  obtain ⟨e, he, hsecret⟩ := hopened.mem_secrets hs
  rw [hproject] at hsecret
  obtain ⟨plain, values, hmeta, hname, hid, hfolder, hvalues, hsealed⟩ := openSecret_ok hsecret
  obtain ⟨r, hr, hrid, htype, hopens⟩ := h.metaOf_ok hmeta
  obtain ⟨hlive, hkind⟩ := List.mem_filter.mp he
  obtain ⟨r', hr', hlatest, hlive'⟩ := h.mem_live hlive
  obtain rfl := eq_of_mem_entriesOf hr hr' (hrid.trans hlatest.id)
  refine ⟨r, hr, htype, plain, hopens, hid.trans hrid.symm, hname, fun slug => ?_, fun id x => ?_⟩
  · rw [hfolder, Option.bind_eq_some_iff]
    constructor
    · rintro ⟨id, hfolderId, hslug⟩
      obtain ⟨f, hf, rfl, hshown⟩ := (h.folder_iff hupTo hproject hopened).mp hslug
      exact ⟨f, hf, hfolderId, hshown⟩
    · rintro ⟨f, hf, hfolderId, hshown⟩
      exact ⟨f.id, hfolderId, (h.folder_iff hupTo hproject hopened).mpr ⟨f, hf, rfl, hshown⟩⟩
  · have hkeys : (values.map Prod.fst).Nodup := by
      rw [Fallible.map_eq_map hsealed fun v _ out hout => hout.2]
      exact hlatest.keys
    have hproj := (mem_entriesOf.mp hr).2
    rw [hvalues, lastOf_eq_some hkeys]
    constructor
    · intro hx
      obtain ⟨v, hv, hseal, hvid⟩ := Fallible.exists_left hsealed hx
      obtain ⟨henv, stored, hstored, hkey, hblob⟩ :=
        (hlatest.values hlive' (of_decide_eq_true hkind) v).mp hv
      dsimp only at hseal hvid
      rw [hvid]
      refine ⟨henv, stored, hstored, hproj ▸ hkey, ?_⟩
      rw [hblob, hseal]
    · rintro ⟨henv, stored, hstored, hkey, hseal⟩
      have hv := (hlatest.values hlive' (of_decide_eq_true hkind)
        (id, stored.encryptedValue)).mpr ⟨henv, stored, hstored, hproj.symm ▸ hkey, rfl⟩
      obtain ⟨out, hout, hseal', hoid⟩ := Fallible.exists_right hsealed hv
      dsimp only at hseal' hoid
      rw [hseal] at hseal'
      cases hseal'
      rwa [← hoid]

/-- The snapshot of everything that is stored. -/
theorem exact (h : Fetched db row upTo entries)
    (hupTo : ∀ r ∈ entriesOf db row.projectId, r.seq ≤ upTo) (hsession : SessionOf row session)
    (hopen : openSnapshot token session entries = .ok snapshot) :
    ∃ key, token.unwrapProjectKey row.projectId session.encryptedKey = some key ∧
      Exact token key db row snapshot := by
  obtain ⟨key, folders, hopened⟩ := openSnapshot_ok hopen
  have hmeta (e : Entry) (he : e ∈ liveOf entries) : e.encryptedMeta.isSome = true := by
    obtain ⟨r, -, hlatest, hlive⟩ := h.mem_live he
    rw [hlatest.encryptedMeta hlive]
    exact (hlatest.deleted.mp hlive).2
  have hids := hopened.secret_ids hmeta
  refine ⟨key, hsession.projectId ▸ hopened.unwrapped, ⟨?_, fun env henv => ?_⟩, ?_,
    fun r hr htype hlive hsome => ?_, fun s hs => h.secretOf hupTo hsession.projectId hopened hs⟩
  · rw [hopened.environment_ids, hsession.environments]
  · obtain ⟨env', -, hout⟩ := Fallible.exists_left hopened.ofEnvironments henv
    rw [hsession.projectId] at hout
    unfold openEnvironment at hout
    split at hout
    · cases hout
    obtain ⟨plain, hplain, hout⟩ := Fallible.bind_eq_ok.mp hout
    split at hout
    · cases hout
    obtain ⟨slug, hslug, hout⟩ := Fallible.bind_eq_ok.mp hout
    cases hout
    obtain ⟨r, hr, hid, htype, hopens⟩ := h.metaOf_ok hplain
    refine ⟨r, hr, hid, htype, _, hopens, ?_⟩
    exact slugOf_eq_ok.mp hslug
  · rw [hids]
    exact h.once.sublist ((List.filter_sublist.trans List.filter_sublist).map _)
  · obtain ⟨e, he, hid⟩ := h.exists_ofKind hupTo hr hlive hsome
    rw [hids, ← hid]
    exact List.mem_map_of_mem (htype ▸ he)

end Fetched

end Snapshot

/-- **A snapshot is the project as it is stored** when its last page is fetched, if what was
fetched stays as it is while the rest is fetched. -/
theorem load_exact {W K : Type} {token : AgentToken W K} {session : Session W}
    {row : AgentTokenRow} {db₀ db db' : Db} {loader : Loader} {page : SyncProjectResponse}
    {now : Timestamp} {snapshot : Snapshot K} (h : Reachable db₀)
    (hrun : ReflTransGen (SparingStep row) (db₀, Loader.start) (db, loader))
    (hmore : loader.done = false)
    (hserve : TokensService.serveChanges db row loader.since pageLimit now = (.ok page, db'))
    (hlast : (loader.receive page).done = true) (hsession : SessionOf row session)
    (hopen : openSnapshot token session (loader.receive page).entries = .ok snapshot) :
    ∃ key, token.unwrapProjectKey row.projectId session.encryptedKey = some key ∧
      Exact token key db' row snapshot := by
  have hloading : Loading row (db, loader) :=
    (Loading.start (h.feedOrdered row.projectId)).run hrun
  obtain ⟨rfl, rfl⟩ := TokensService.serveChanges_ok hserve
  have hupkept := hloading.upkept (Upkeep.reconcile _ row.projectId now).upkept
  have hfetched := (hupkept.receive hmore).2 hlast
  exact hfetched.exact hupkept.ordered.bounded hsession hopen

/-- A project of account 10 with one environment. -/
def oneEnvironment : NewProject where
  id := 1
  ownerId := 10
  encryptedMeta := ⟨.record 1, 0, 0⟩
  encryptedKey := ⟨.account, 0, 0⟩
  environments := [⟨2, ⟨.record 2, 0, 0⟩, ⟨.account, 0, 0⟩⟩]
  now := 0

/-- A new secret without a value. -/
def newSecret (i : ℕ) : EntryWrite where
  projectId := 1
  id := 3 + i
  type := .secret
  baseRevision := 0
  encryptedMeta := some ⟨.record (3 + i), 0, 0⟩
  values := []
  keyGrant := none
  limit := 10000
  viewer := 10
  now := i

/-- The project with some secrets. -/
def withSecrets : ℕ → Db
  | 0 => (createProject Db.empty oneEnvironment).getD Db.empty
  | n + 1 => (writeEntry (withSecrets n) (newSecret n)).2

/-- A token of account 10 for the project's environment. -/
def tokenRow : AgentTokenRow := ⟨1, 10, [⟨2, 1⟩], 5000⟩

/-- A token that opens everything to the same names. -/
def openAll : AgentToken Unit Unit where
  unwrapProjectKey _ _ := some ()
  unwrapEnvironmentKey _ _ _ _ := some ()
  openPadded _ _ _ := some ⟨some "dev", some "API_KEY", none, some "value"⟩

/-- The session of the token. -/
def tokenSession : Session Unit :=
  ⟨"ci", "1970-01-01T00:00:05.000Z", 1, ⟨.record 1, 0, 0⟩, (), [⟨2, 1, ()⟩]⟩

theorem withSecrets_reachable (n : ℕ) : Reachable (withSecrets n) := by
  induction n with
  | zero => exact .write .empty (.create oneEnvironment rfl)
  | succ n ih => exact ih.write (.entry _ _)

section TwoPages

/-- The row of the environment. -/
def environmentRow : EntryRow := firstEntry oneEnvironment 0 ⟨2, ⟨.record 2, 0, 0⟩, ⟨.account, 0, 0⟩⟩

/-- The row of a secret. -/
def secretRow (i : ℕ) : EntryRow := writtenRow (newSecret i) (i + 2)

/-- Deletes the first secret. -/
def deleteFirst : EntryWrite :=
  { newSecret 0 with baseRevision := 1, encryptedMeta := none, now := 1000 }

/-- What the server serves the token from: a project of one account, whose one environment is as
it was created. -/
structure Serving (db : Db) : Prop where
  project : ∃ p, db.projects.find 1 = some p
  keyGrants : db.keyGrants = (withSecrets 0).keyGrants
  orgs : db.projectOrgs = Table.empty
  access : db.environmentAccess = Table.empty
  environment : ∀ e, e ∈ db.projectEntries ∧ e.key = (1, 2) ↔ e = environmentRow

/-- The project with `n` secrets. -/
structure Filled (n : ℕ) (db : Db) : Prop where
  serving : Serving db
  next : ∃ p, db.projects.find 1 = some p ∧ p.seq = n + 1
  versions : db.secretVersions = Table.empty
  values : db.secretValues = Table.empty
  entries : ∀ e, e ∈ db.projectEntries ↔ e = environmentRow ∨ ∃ i < n, e = secretRow i

/-- The token is served as long as its environment is there. -/
theorem Serving.authenticate {db : Db} (h : Serving db) :
    TokensService.authenticate db tokenRow 1000 = (.ok (), db) := by
  have hselect : (db.projectEntries.select fun e =>
      e.projectId = tokenRow.projectId ∧ e.id ∈ tokenRow.envIds ∧ e.isLiveEnvironment) =
        [environmentRow] := by
    refine List.perm_singleton.mp ((List.perm_ext_iff_of_nodup
      (List.Nodup.of_map _ (db.projectEntries.nodup_select _)) (List.nodup_singleton _)).mpr
        fun e => ?_)
    rw [Table.mem_select, List.mem_singleton, ← h.environment e]
    constructor
    · rintro ⟨he, hsel⟩
      simp only [decide_eq_true_eq] at hsel
      exact ⟨he, Prod.ext hsel.1 (List.mem_singleton.mp hsel.2.1)⟩
    · intro he
      refine ⟨he.1, ?_⟩
      rw [(h.environment e).mp he]
      rfl
  have hbefore : ProjectPolicy.beforeAccess db tokenRow.projectId 1000 = db := by
    unfold ProjectPolicy.beforeAccess AccessFacts.reconcileProject AccessFacts.linkedProject
    rw [h.orgs]
    rfl
  have haccess : ∃ ownerId, getAccess db tokenRow.projectId tokenRow.createdBy =
      some ⟨ownerId, true, [2]⟩ := by
    obtain ⟨p, hp⟩ := h.project
    refine ⟨p.ownerId, ?_⟩
    unfold getAccess
    rw [show tokenRow.projectId = 1 from rfl, hp, h.keyGrants]
    rfl
  have hstale : TokensService.isStale db tokenRow = false := by
    unfold TokensService.isStale TokensService.keyVersion
    rw [h.access]
    rfl
  obtain ⟨ownerId, haccess⟩ := haccess
  unfold TokensService.authenticate
  rw [if_neg (by decide), hselect]
  dsimp only
  rw [if_neg (by decide), hbefore, haccess]
  have hall : (!true || !tokenRow.envIds.all fun id => id ∈ [2]) = false := rfl
  dsimp only
  rw [hall, hstale]
  rfl

/-- What an accepted write of an entry that is not there leaves. -/
theorem writeEntry_new {db : Db} {w : EntryWrite} {p : ProjectRow}
    (hp : db.projects.find w.projectId = some p)
    (hnew : db.projectEntries.find (w.projectId, w.id) = none)
    (haccepted : entryRefusal db w none = none) :
    (writeEntry db w).2 = writeContent { db with
      projects := db.projects.update (fun p => p.id = w.projectId)
        (fun x => { x with seq := p.seq + 1 })
      projectEntries := db.projectEntries.upsert (writtenRow w (p.seq + 1))
        (fun e => { writtenRow w (p.seq + 1) with projectId := e.projectId, id := e.id }) } w := by
  have hkeep (db : Db) : keepReplaced db w none = some db := by
    unfold keepReplaced
    split
    · rename_i hnone
      cases hnone
    · rfl
  unfold writeEntry
  simp only [hp, hnew, haccepted, applyEntryWrite, hkeep]

theorem Filled.perm {n : ℕ} {db : Db} (h : Filled n db) :
    db.projectEntries.rows.Perm (environmentRow :: (List.range n).map secretRow) := by
  have hsecrets : ((List.range n).map secretRow).Nodup := by
    refine List.nodup_range.map fun i j heq => ?_
    have : i + 2 = j + 2 := congrArg EntryRow.seq heq
    omega
  refine (List.perm_ext_iff_of_nodup (List.Nodup.of_map _ db.projectEntries.nodup)
    (List.nodup_cons.mpr ⟨fun hmem => ?_, hsecrets⟩)).mpr fun e => ?_
  · obtain ⟨i, -, hi⟩ := List.mem_map.mp hmem
    cases congrArg EntryRow.type hi
  · rw [Table.mem_rows, h.entries, List.mem_cons, List.mem_map]
    simp only [List.mem_range, eq_comm]

theorem Filled.accepted {n : ℕ} {db : Db} (h : Filled n db) (hn : n < 5000) (i : ℕ) :
    entryRefusal db (newSecret i) none = none := by
  have hroom (p : EntryRow → Bool) : ¬ 10000 ≤ (db.projectEntries.select p).length := by
    have hle : (db.projectEntries.select p).length ≤ db.projectEntries.rows.length :=
      List.length_filter_le _ _
    rw [h.perm.length_eq, List.length_cons, List.length_map, List.length_range] at hle
    omega
  unfold entryRefusal
  simp [newSecret, hroom]

theorem withSecrets_filled {n : ℕ} (hn : n < 5000) : Filled n (withSecrets n) := by
  induction n with
  | zero =>
    have hrows : (withSecrets 0).projectEntries.rows = [environmentRow] := rfl
    have hmem (e : EntryRow) : e ∈ (withSecrets 0).projectEntries ↔ e = environmentRow := by
      rw [← Table.mem_rows, hrows, List.mem_singleton]
    refine ⟨⟨⟨_, rfl⟩, rfl, rfl, rfl, fun e => ?_⟩, ⟨_, rfl, rfl⟩, rfl, rfl, fun e => ?_⟩
    · rw [hmem, and_iff_left_iff_imp]
      rintro rfl
      rfl
    · rw [hmem]
      simp
  | succ n ih =>
    have h := ih (by omega)
    obtain ⟨p, hp, hseq⟩ := h.next
    have hfree (e : EntryRow) (he : e ∈ (withSecrets n).projectEntries) : e.key ≠ (1, 3 + n) := by
      intro hkey
      rcases (h.entries e).mp he with rfl | ⟨i, hi, rfl⟩
      · have : 2 = 3 + n := congrArg Prod.snd hkey
        omega
      · have : 3 + i = 3 + n := congrArg Prod.snd hkey
        omega
    have hwritten : withSecrets (n + 1) = { withSecrets n with
        projects := (withSecrets n).projects.update (fun p => p.id = 1)
          (fun x => { x with seq := p.seq + 1 })
        projectEntries := (withSecrets n).projectEntries.upsert (writtenRow (newSecret n) (p.seq + 1))
          (fun e => { writtenRow (newSecret n) (p.seq + 1) with projectId := e.projectId, id := e.id }) } :=
      writeEntry_new hp (Table.find_eq_none.mpr hfree) (h.accepted (by omega) n)
    rw [hseq] at hwritten
    have hput (e : EntryRow) : e ∈ (withSecrets (n + 1)).projectEntries ↔
        e ∈ (withSecrets n).projectEntries ∨ e = secretRow n := by
      rw [hwritten]
      exact mem_upsert_writtenRow.trans (or_congr_left (and_iff_left_of_imp (hfree e)))
    have hproject : (withSecrets (n + 1)).projects.find 1 = some { p with seq := n + 1 + 1 } := by
      have hid := (Table.find_eq_some.mp hp).2
      rw [hwritten]
      dsimp only
      rw [Table.find_update, hp, Option.map_some, if_pos (decide_eq_true hid)]
    refine ⟨⟨⟨_, hproject⟩, ?_, ?_, ?_, fun e => ?_⟩, ⟨_, hproject, rfl⟩, ?_, ?_, fun e => ?_⟩
    · rw [hwritten]
      exact h.serving.keyGrants
    · rw [hwritten]
      exact h.serving.orgs
    · rw [hwritten]
      exact h.serving.access
    · rw [hput, ← h.serving.environment e]
      refine and_congr_left fun hkey => or_iff_left ?_
      rintro rfl
      have : 3 + n = 2 := congrArg Prod.snd hkey
      omega
    · rw [hwritten]
      exact h.versions
    · rw [hwritten]
      exact h.values
    · rw [hput, h.entries, or_assoc]
      refine or_congr_right ⟨?_, ?_⟩
      · rintro (⟨i, hi, rfl⟩ | rfl)
        · exact ⟨i, by omega, rfl⟩
        · exact ⟨n, by omega, rfl⟩
      · rintro ⟨i, hi, rfl⟩
        rcases Nat.lt_succ_iff_lt_or_eq.mp hi with hlt | rfl
        · exact Or.inl ⟨i, hlt, rfl⟩
        · exact Or.inr rfl

/-- Deleting the first secret leaves its tombstone. -/
theorem Filled.deleteFirst {n : ℕ} {db : Db} (h : Filled n db) (hn : 0 < n) :
    ∃ p secretVersions, db.projects.find 1 = some p ∧ (writeEntry db deleteFirst).2 = { db with
      projects := db.projects.update (fun p => p.id = 1) (fun x => { x with seq := p.seq + 1 })
      projectEntries := db.projectEntries.upsert (writtenRow Cli.deleteFirst (p.seq + 1))
        (fun e => { writtenRow Cli.deleteFirst (p.seq + 1) with projectId := e.projectId, id := e.id })
      secretVersions := secretVersions
      secretValues := db.secretValues.delete fun v => v.projectId = 1 ∧ v.secretId = 3 } := by
  obtain ⟨p, hp, -⟩ := h.next
  have hfind : db.projectEntries.find (1, 3) = some (secretRow 0) :=
    Table.find_eq_some.mpr ⟨(h.entries _).mpr (Or.inr ⟨0, hn, rfl⟩), rfl⟩
  have haccepted : entryRefusal db Cli.deleteFirst (some (secretRow 0)) = none := rfl
  have hkeep (db₁ : Db) (hversions : db₁.secretVersions = Table.empty) : ∃ secretVersions,
      keepReplaced db₁ Cli.deleteFirst (some (secretRow 0)) =
        some { db₁ with secretVersions := secretVersions } := by
    change ∃ secretVersions, keepSecretVersion db₁ (secretRow 0) ⟨.record 3, 0, 0⟩ =
      some { db₁ with secretVersions := secretVersions }
    unfold keepSecretVersion
    rw [hversions]
    exact ⟨_, rfl⟩
  obtain ⟨secretVersions, hkept⟩ := hkeep { db with
    projects := db.projects.update (fun p => p.id = 1) (fun x => { x with seq := p.seq + 1 }) }
      h.versions
  refine ⟨p, secretVersions, hp, ?_⟩
  unfold writeEntry
  rw [show Cli.deleteFirst.projectId = 1 from rfl, show Cli.deleteFirst.id = 3 from rfl, hp]
  dsimp only
  rw [hfind, haccepted]
  dsimp only
  unfold applyEntryWrite
  dsimp only
  rw [show Cli.deleteFirst.projectId = 1 from rfl, hkept]
  rfl

/-- What a token that opens everything is sent can be opened. -/
theorem openAll_isOk {entries : List Entry}
    (hmeta : ∀ e ∈ liveOf entries, ∃ b, e.encryptedMeta = some b ∧ b.kid = .record e.id)
    (hvalues : ∀ e ∈ ofKind .secret (liveOf entries), e.values = [])
    (henvironment : ∃ e ∈ liveOf entries, e.kind = .environment ∧ e.id = 2) :
    ∃ snapshot, openSnapshot openAll tokenSession entries = .ok snapshot := by
  have hfound {e : Entry} (he : e ∈ liveOf entries) : ∃ plain, plain.slug = some "dev" ∧
      plain.key = some "API_KEY" ∧
        metaOf openAll () 1 (liveOf entries) e.kind e.id = .ok (some plain) := by
    have hone (x : Entry) (hx : x ∈ liveOf entries) : x.encryptedMeta.isSome = true := by
      obtain ⟨b, hb, -⟩ := hmeta x hx
      rw [hb]
      rfl
    cases hfind : (liveOf entries).find? fun x => x.kind = e.kind ∧ x.id = e.id with
    | none =>
      have := List.find?_eq_none.mp hfind e he
      simp at this
    | some x =>
      have hx := List.find?_some hfind
      simp only [decide_eq_true_eq] at hx
      obtain ⟨b, hb, hkid⟩ := hmeta x (List.mem_of_find?_eq_some hfind)
      refine ⟨⟨some "dev", some "API_KEY", none, some "value"⟩, rfl, rfl, ?_⟩
      rw [metaOf, hfind, Option.bind_some, hb]
      simp only [openJson, sealedBy, hkid, hx.2, if_true]
      rfl
  obtain ⟨env, henv, hkind, hid⟩ := henvironment
  obtain ⟨plain, hslug, -, hplain⟩ := hfound henv
  rw [hkind, hid] at hplain
  obtain ⟨folders, hfolders⟩ := Fallible.mapM_ok_of_forall (l := ofKind .folder (liveOf entries))
    (f := openFolder openAll () 1 (liveOf entries)) fun e he => by
      obtain ⟨he, hkind⟩ := List.mem_filter.mp he
      obtain ⟨plain, hslug, -, hplain⟩ := hfound he
      rw [of_decide_eq_true hkind] at hplain
      refine ⟨some (e.id, "dev"), Fallible.bind_eq_ok.mpr ⟨some plain, hplain, ?_⟩⟩
      simp only [slugOf, hslug]
      rfl
  obtain ⟨secrets, hsecrets⟩ := Fallible.mapM_ok_of_forall (l := ofKind .secret (liveOf entries))
    (f := openSecret openAll () 1 (liveOf entries) folders.reduceOption) fun e he => by
      have hnone := hvalues e he
      obtain ⟨he, hkind⟩ := List.mem_filter.mp he
      obtain ⟨plain, -, hkey, hplain⟩ := hfound he
      rw [of_decide_eq_true hkind] at hplain
      refine ⟨some ⟨plain.folderId.bind (lastOf folders.reduceOption), "API_KEY", lastOf [], e.id⟩,
        Fallible.bind_eq_ok.mpr ⟨some plain, hplain, ?_⟩⟩
      simp only [hkey, hnone]
      rfl
  refine ⟨⟨"ci", "1970-01-01T00:00:05.000Z", 1, "dev", [⟨2, "dev", ()⟩], secrets.reduceOption⟩, ?_⟩
  have henvironments : tokenSession.environments.mapM
      (openEnvironment openAll () tokenSession.projectId (liveOf entries)) =
        .ok [⟨2, "dev", ()⟩] := by
    refine Fallible.mapM_eq_ok.mpr (.cons ?_ .nil)
    refine Fallible.bind_eq_ok.mpr ⟨some plain, hplain, ?_⟩
    simp only [slugOf, hslug]
    rfl
  unfold openSnapshot
  refine Fallible.bind_eq_ok.mpr ⟨⟨some "dev", some "API_KEY", none, some "value"⟩, rfl, ?_⟩
  refine Fallible.bind_eq_ok.mpr ⟨_, henvironments, ?_⟩
  refine Fallible.bind_eq_ok.mpr ⟨folders, hfolders, ?_⟩
  exact Fallible.bind_eq_ok.mpr ⟨secrets, hsecrets, rfl⟩

/-- Rows that are sealed under their own ids, and no values. -/
structure Unvalued (db : Db) : Prop where
  kid : ∀ r ∈ entriesOf db 1, ∀ b, r.encryptedMeta = some b → b.kid = .record r.id
  values : ∀ v, v ∉ db.secretValues

theorem Latest.unvalued {db : Db} (h : Unvalued db) {r : EntryRow} (hr : r ∈ entriesOf db 1)
    {envIds : List Uuid} {e : Entry} (hlatest : Latest db envIds r e) (hlive : e.deleted = false) :
    (∃ b, e.encryptedMeta = some b ∧ b.kid = .record e.id) ∧ (e.kind = .secret → e.values = []) := by
  obtain ⟨-, hmeta⟩ := hlatest.deleted.mp hlive
  obtain ⟨b, hb⟩ := Option.isSome_iff_exists.mp hmeta
  refine ⟨⟨b, (hlatest.encryptedMeta hlive).trans hb, ?_⟩, fun hkind => ?_⟩
  · rw [hlatest.id]
    exact h.kid r hr b hb
  · refine List.eq_nil_iff_forall_not_mem.mpr fun x hx => ?_
    obtain ⟨-, v, hv, -⟩ := (hlatest.values hlive hkind x).mp hx
    exact h.values v hv

theorem Filled.unvalued {n : ℕ} {db : Db} (h : Filled n db) : Unvalued db where
  kid r hr b hb := by
    rcases (h.entries r).mp (mem_entriesOf.mp hr).1 with rfl | ⟨i, -, rfl⟩
    · cases hb
      rfl
    · cases hb
      rfl
  values v := by
    rw [h.values]
    exact Table.not_mem_empty v

/-- What is there once the first secret is deleted. -/
theorem Filled.deleted {n : ℕ} {db : Db} (h : Filled n db) (hn : 0 < n) :
    Serving (writeEntry db Cli.deleteFirst).2 ∧ Unvalued (writeEntry db Cli.deleteFirst).2 ∧
      (entriesOf (writeEntry db Cli.deleteFirst).2 1).length ≤ n + 1 ∧
      ∀ r ∈ entriesOf (writeEntry db Cli.deleteFirst).2 1, r.id = 3 → r.deleted = true := by
  obtain ⟨p, secretVersions, hp, hwritten⟩ := h.deleteFirst hn
  have hput (e : EntryRow) : e ∈ (writeEntry db Cli.deleteFirst).2.projectEntries ↔
      (e ∈ db.projectEntries ∧ e.key ≠ (1, 3)) ∨ e = writtenRow Cli.deleteFirst (p.seq + 1) := by
    rw [hwritten]
    exact mem_upsert_writtenRow
  refine ⟨⟨⟨{ p with seq := p.seq + 1 }, ?_⟩, ?_, ?_, ?_, fun e => ?_⟩, ⟨fun r hr b hb => ?_,
    fun v hv => ?_⟩, ?_, fun r hr hid => ?_⟩
  · have hid := (Table.find_eq_some.mp hp).2
    rw [hwritten]
    dsimp only
    rw [Table.find_update, hp, Option.map_some, if_pos (decide_eq_true hid)]
  · rw [hwritten]
    exact h.serving.keyGrants
  · rw [hwritten]
    exact h.serving.orgs
  · rw [hwritten]
    exact h.serving.access
  · rw [hput, ← h.serving.environment e]
    constructor
    · rintro ⟨⟨he, -⟩ | rfl, hkey⟩
      · exact ⟨he, hkey⟩
      · cases hkey
    · rintro ⟨he, hkey⟩
      refine ⟨Or.inl ⟨he, ?_⟩, hkey⟩
      rw [hkey]
      decide
  · rcases (hput r).mp (mem_entriesOf.mp hr).1 with ⟨hold, -⟩ | rfl
    · exact h.unvalued.kid r (mem_entriesOf.mpr ⟨hold, (mem_entriesOf.mp hr).2⟩) b hb
    · cases hb
  · rw [hwritten] at hv
    exact h.unvalued.values v (Table.mem_delete.mp hv).1
  · have hkeys : ((entriesOf (writeEntry db Cli.deleteFirst).2 1).map EntryRow.key).Nodup :=
      Table.nodup_select _ _
    have hsub : (entriesOf (writeEntry db Cli.deleteFirst).2 1).map EntryRow.key ⊆
        db.projectEntries.rows.map EntryRow.key := by
      intro k hk
      obtain ⟨r, hr, rfl⟩ := List.mem_map.mp hk
      rcases (hput r).mp (mem_entriesOf.mp hr).1 with ⟨hold, -⟩ | rfl
      · exact List.mem_map_of_mem hold
      · exact List.mem_map.mpr ⟨secretRow 0, (h.entries _).mpr (Or.inr ⟨0, hn, rfl⟩), rfl⟩
    have hle := (List.subperm_of_subset hkeys hsub).length_le
    rw [List.length_map, List.length_map, h.perm.length_eq, List.length_cons, List.length_map,
      List.length_range] at hle
    exact hle
  · rcases (hput r).mp (mem_entriesOf.mp hr).1 with ⟨-, hkey⟩ | rfl
    · exact absurd (Prod.ext (mem_entriesOf.mp hr).2 hid) hkey
    · rfl

theorem Filled.entriesOf_eq {n : ℕ} {db : Db} (h : Filled n db) :
    entriesOf db 1 = db.projectEntries.rows := by
  refine List.filter_eq_self.mpr fun e he => ?_
  rcases (h.entries e).mp he with rfl | ⟨i, -, rfl⟩ <;> rfl

theorem Filled.length_entriesOf {n : ℕ} {db : Db} (h : Filled n db) :
    (entriesOf db 1).length = n + 1 := by
  rw [h.entriesOf_eq, h.perm.length_eq, List.length_cons, List.length_map, List.length_range]

theorem Serving.serveChanges {db : Db} (h : Serving db) (since limit : ℕ) :
    TokensService.serveChanges db tokenRow since limit 1000 =
      (.ok (TokensService.changes db tokenRow since limit), db) := by
  unfold TokensService.serveChanges
  rw [h.authenticate]

/-- The entries of the first page, when not all fit. -/
theorem Filled.firstPage {n : ℕ} {db : Db} (h : Filled n db) (hordered : FeedOrdered db 1)
    (hn : pageLimit ≤ n) :
    pageLimit < (Feed.page EntryRow.seq (entriesOf db 1) 0 (pageLimit + 1)).length ∧
      environmentRow ∈ Feed.page EntryRow.seq (entriesOf db 1) 0 pageLimit ∧
      secretRow 0 ∈ Feed.page EntryRow.seq (entriesOf db 1) 0 pageLimit := by
  have hafter : (Feed.after EntryRow.seq (entriesOf db 1) 0).length = n + 1 := by
    rw [Feed.after, List.length_insertionSort, List.filter_eq_self.mpr fun e he => ?_,
      h.length_entriesOf]
    exact decide_eq_true (hordered.positive e he)
  have hrows : (entriesOf db 1).Nodup := List.Nodup.of_map _ (db.projectEntries.nodup_select _)
  have hentry {e : EntryRow} (he : e ∈ db.projectEntries) (hproject : e.projectId = 1)
      (hseq : e.seq ≤ pageLimit) : e ∈ Feed.page EntryRow.seq (entriesOf db 1) 0 pageLimit := by
    have hmem := mem_entriesOf.mpr ⟨he, hproject⟩
    exact Feed.mem_page_of_le_add hordered.distinct hrows hmem (hordered.positive e hmem) (by omega)
  refine ⟨?_, hentry ((h.entries _).mpr (Or.inl rfl)) rfl (by decide),
    hentry ((h.entries _).mpr (Or.inr ⟨0, ?_, rfl⟩)) rfl (by decide)⟩
  · rw [Feed.page, List.length_take, hafter]
    omega
  · exact lt_of_lt_of_le (by decide) hn

/-- Behind the first secret there is room for the others on one page. -/
theorem Filled.room {n : ℕ} {db : Db} (h : Filled (n + 1) db) {cursor : ℕ} (hcursor : 2 ≤ cursor) :
    ((entriesOf db 1).filter fun e => cursor < e.seq).length ≤ n := by
  have hperm : (entriesOf db 1).Perm
      (environmentRow :: secretRow 0 :: (List.range n).map fun i => secretRow (i + 1)) := by
    have hrows := h.perm
    rw [List.range_succ_eq_map, List.map_cons, List.map_map] at hrows
    exact h.entriesOf_eq ▸ hrows
  have henvironment : ¬ cursor < environmentRow.seq := not_lt.mpr (Nat.le_trans (by decide) hcursor)
  have hfirst : ¬ cursor < (secretRow 0).seq := not_lt.mpr hcursor
  rw [(hperm.filter _).length_eq, List.filter_cons_of_neg (by simpa using henvironment),
    List.filter_cons_of_neg (by simpa using hfirst)]
  calc _ ≤ ((List.range n).map fun i => secretRow (i + 1)).length := List.length_filter_le _ _
    _ = n := by rw [List.length_map, List.length_range]

/-- A first page that is full, something written behind it, and a last page. -/
theorem Filled.twoPages {db db' : Db} (h : Filled 500 db) (hordered : FeedOrdered db 1)
    (hunvalued : Unvalued db') (hroom : ∀ cursor, 2 ≤ cursor →
      ((entriesOf db' 1).filter fun e => cursor < e.seq).length ≤ pageLimit) :
    ∃ loader snapshot, loader = Loader.start.receive (TokensService.changes db tokenRow 0 pageLimit) ∧
      loader.done = false ∧
      (loader.receive (TokensService.changes db' tokenRow loader.since pageLimit)).done = true ∧
      openSnapshot openAll tokenSession
        (loader.receive (TokensService.changes db' tokenRow loader.since pageLimit)).entries =
          .ok snapshot ∧ 3 ∈ snapshot.secrets.map (·.id) := by
  obtain ⟨hmore, henvironment, hsecret⟩ := h.firstPage hordered le_rfl
  -- The first page is full, so the loop goes on behind it.
  have hcursor : (TokensService.changes db tokenRow 0 pageLimit).cursor =
      Feed.cursor EntryRow.seq (Feed.page EntryRow.seq (entriesOf db 1) 0 pageLimit) 0 := by
    rw [TokensService.changes_eq]
    rfl
  have hforward : 2 ≤ (TokensService.changes db tokenRow 0 pageLimit).cursor := by
    rw [hcursor]
    exact Feed.le_cursor_of_mem hsecret
  have hfull : (TokensService.changes db tokenRow 0 pageLimit).hasMore = true := by
    rw [TokensService.changes_eq]
    exact decide_eq_true hmore
  have hfirst : Loader.start.receive (TokensService.changes db tokenRow 0 pageLimit) =
      ⟨(TokensService.changes db tokenRow 0 pageLimit).cursor,
        (TokensService.changes db tokenRow 0 pageLimit).entries.map toEntry, false⟩ := by
    have hstuck : ¬ (TokensService.changes db tokenRow 0 pageLimit).cursor ≤ 0 := by omega
    unfold Loader.receive Loader.start
    simp only [hfull, hstuck, Bool.not_true, decide_false, Bool.or_self, Bool.false_eq_true, if_false,
      List.nil_append]
  generalize (TokensService.changes db tokenRow 0 pageLimit).cursor = cursor at *
  -- Behind it there is room for the rest.
  have hrest : (Feed.page EntryRow.seq (entriesOf db' 1) cursor (pageLimit + 1)).length ≤
      pageLimit := by
    refine le_trans ?_ (hroom cursor hforward)
    rw [Feed.page, List.length_take, Feed.after, List.length_insertionSort]
    exact min_le_right _ _
  have hlast : (TokensService.changes db' tokenRow cursor pageLimit).hasMore = false := by
    rw [TokensService.changes_eq]
    exact decide_eq_false (not_lt.mpr hrest)
  have hdone (loader : Loader) :
      (loader.receive (TokensService.changes db' tokenRow cursor pageLimit)).done = true ∧
        (loader.receive (TokensService.changes db' tokenRow cursor pageLimit)).entries =
          loader.entries ++ (TokensService.changes db' tokenRow cursor pageLimit).entries.map toEntry := by
    unfold Loader.receive
    rw [if_pos (by rw [hlast]; rfl)]
    exact ⟨rfl, rfl⟩
  obtain ⟨hends, hentries⟩ := hdone ⟨cursor,
    (TokensService.changes db tokenRow 0 pageLimit).entries.map toEntry, false⟩
  -- All of it can be opened.
  have hlive : ∀ e ∈ liveOf ((TokensService.changes db tokenRow 0 pageLimit).entries.map toEntry ++
      (TokensService.changes db' tokenRow cursor pageLimit).entries.map toEntry),
      (∃ b, e.encryptedMeta = some b ∧ b.kid = .record e.id) ∧ (e.kind = .secret → e.values = []) := by
    intro e he
    obtain ⟨he, hlive⟩ := List.mem_filter.mp he
    have hlive : e.deleted = false := by simpa using hlive
    rcases List.mem_append.mp he with hold | hnew
    · obtain ⟨r, hr, hlatest⟩ := exists_row_of_mem_changes hold
      exact hlatest.unvalued h.unvalued (Feed.mem_of_mem_page hr).1 hlive
    · obtain ⟨r, hr, hlatest⟩ := exists_row_of_mem_changes hnew
      exact hlatest.unvalued hunvalued (Feed.mem_of_mem_page hr).1 hlive
  have hlisted {r : EntryRow} (hr : r ∈ Feed.page EntryRow.seq (entriesOf db 1) 0 pageLimit)
      (hrlive : r.deleted = false ∧ r.encryptedMeta.isSome = true) :
      ∃ e ∈ liveOf ((TokensService.changes db tokenRow 0 pageLimit).entries.map toEntry ++
        (TokensService.changes db' tokenRow cursor pageLimit).entries.map toEntry),
        e.kind = r.type ∧ e.id = r.id := by
    have hmem : ∃ e ∈ (TokensService.changes db tokenRow 0 pageLimit).entries.map toEntry,
        Latest db tokenRow.envIds r e := exists_mem_changes hr
    obtain ⟨e, he, hlatest⟩ := hmem
    refine ⟨e, List.mem_filter.mpr ⟨List.mem_append_left _ he, ?_⟩, hlatest.kind, hlatest.id⟩
    rw [hlatest.deleted.mpr hrlive, Bool.not_false]
  obtain ⟨snapshot, hopen⟩ := openAll_isOk (fun e he => (hlive e he).1)
    (fun e he => (hlive e (List.mem_filter.mp he).1).2 (of_decide_eq_true (List.mem_filter.mp he).2))
    (hlisted henvironment ⟨rfl, rfl⟩)
  rw [← hentries] at hopen
  refine ⟨_, snapshot, hfirst.symm, rfl, hends, hopen, ?_⟩
  -- The first secret is among its secrets.
  obtain ⟨key', folders, hopened⟩ := openSnapshot_ok hopen
  rw [hentries] at hopened
  have hids := hopened.secret_ids fun e he => by
    obtain ⟨⟨b, hb, -⟩, -⟩ := hlive e he
    rw [hb]
    rfl
  obtain ⟨e, he, hkind, hid⟩ := hlisted hsecret ⟨rfl, rfl⟩
  rw [hids]
  exact List.mem_map.mpr ⟨e, List.mem_filter.mpr ⟨he, decide_eq_true hkind⟩, hid⟩

/-- A new secret leaves what was fetched as it is. -/
theorem Filled.spares {n : ℕ} {db db' : Db} (h : Filled n db) (h' : Filled (n + 1) db')
    (since : ℕ) : Spares tokenRow since db db' where
  entries r hr _ := by
    obtain ⟨hr, hproject⟩ := mem_entriesOf.mp hr
    refine mem_entriesOf.mpr ⟨(h'.entries r).mpr ?_, hproject⟩
    rcases (h.entries r).mp hr with rfl | ⟨i, hi, rfl⟩
    · exact Or.inl rfl
    · exact Or.inr ⟨i, by omega, rfl⟩
  values r _ _ v hv := by
    rw [h.values] at hv
    exact absurd hv (Table.not_mem_empty v)

theorem Filled.added {db db' : Db} (h : Filled 500 db) (h' : Filled 501 db')
    (hordered : FeedOrdered db 1) (hput : StoreWrite db db') :
    ∃ loader snapshot, ReflTransGen (SparingStep tokenRow) (db, Loader.start) (db', loader) ∧
      loader.done = false ∧
      (loader.receive (TokensService.changes db' tokenRow loader.since pageLimit)).done = true ∧
      openSnapshot openAll tokenSession (loader.receive
        (TokensService.changes db' tokenRow loader.since pageLimit)).entries = .ok snapshot := by
  obtain ⟨loader, snapshot, hloader, hmore, hlast, hopen, -⟩ :=
    h.twoPages hordered h'.unvalued fun _ => h'.room
  have hfetch : SparingStep tokenRow (db, Loader.start) (db, loader) := by
    subst hloader
    exact ⟨.fetch 1000 rfl (h.serving.serveChanges 0 pageLimit), fun r hr _ => hr,
      fun r _ _ v hv _ _ _ => hv⟩
  have hwrite : SparingStep tokenRow (db, loader) (db', loader) :=
    ⟨.write _ hput, h.spares h' _⟩
  exact ⟨loader, snapshot, (ReflTransGen.single hfetch).tail hwrite, hmore, hlast, hopen⟩

/-- A secret that is added between two pages is in the snapshot. -/
theorem load_exact_added : ∃ loader snapshot,
    ReflTransGen (SparingStep tokenRow) (withSecrets 500, Loader.start) (withSecrets 501, loader) ∧
    loader.done = false ∧
    openSnapshot openAll tokenSession (loader.receive
      (TokensService.changes (withSecrets 501) tokenRow loader.since pageLimit)).entries =
        .ok snapshot ∧
    ∃ key, openAll.unwrapProjectKey 1 () = some key ∧
      Exact openAll key (withSecrets 501) tokenRow snapshot := by
  have h : Filled 500 (withSecrets 500) := withSecrets_filled (by decide)
  have h' : Filled 501 (withSecrets 501) := withSecrets_filled (by decide)
  have hput (n : ℕ) : StoreWrite (withSecrets n) (withSecrets (n + 1)) := .entry _ _
  have hreachable := withSecrets_reachable 500
  obtain ⟨loader, snapshot, hrun, hmore, hlast, hopen⟩ :=
    h.added h' (hreachable.feedOrdered 1) (hput 500)
  have hserve := h'.serving.serveChanges loader.since pageLimit
  have hexact := load_exact hreachable hrun hmore hserve hlast ⟨rfl, rfl⟩ hopen
  exact ⟨loader, snapshot, hrun, hmore, hopen, hexact⟩

/-- A secret of the first page that is deleted before the second stays in the snapshot. -/
theorem Filled.stale {db : Db} (h : Filled 500 db) (hreachable : Reachable db) :
    ∃ db' loader page snapshot, ReflTransGen (LoadStep tokenRow) (db, Loader.start) (db', loader) ∧
      loader.done = false ∧
      TokensService.serveChanges db' tokenRow loader.since pageLimit 1000 = (.ok page, db') ∧
      (loader.receive page).done = true ∧
      openSnapshot openAll tokenSession (loader.receive page).entries = .ok snapshot ∧
      ∀ key, ¬ Exact openAll key db' tokenRow snapshot := by
  obtain ⟨hserving, hunvalued, hlength, hgone⟩ := h.deleted (by decide)
  have hwrite := StoreWrite.entry db Cli.deleteFirst
  generalize (writeEntry db Cli.deleteFirst).2 = db' at *
  have hroom (cursor : ℕ) (hcursor : 2 ≤ cursor) :
      ((entriesOf db' 1).filter fun e => cursor < e.seq).length ≤ pageLimit := by
    have hold : environmentRow ∈ entriesOf db' 1 :=
      mem_entriesOf.mpr ⟨((hserving.environment _).mpr rfl).1, rfl⟩
    have hfewer : ((entriesOf db' 1).filter fun e => cursor < e.seq).length <
        (entriesOf db' 1).length := by
      refine List.length_filter_lt_length_iff_exists.mpr ⟨environmentRow, hold, ?_⟩
      have : environmentRow.seq = 1 := rfl
      simp only [decide_eq_true_eq]
      omega
    have : pageLimit = 500 := rfl
    omega
  obtain ⟨loader, snapshot, hloader, hmore, hlast, hopen, hstale⟩ :=
    h.twoPages (hreachable.feedOrdered 1) hunvalued hroom
  have hfetch : LoadStep tokenRow (db, Loader.start) (db, loader) := by
    subst hloader
    exact .fetch 1000 rfl (h.serving.serveChanges 0 pageLimit)
  refine ⟨db', loader, _, snapshot, (ReflTransGen.single hfetch).tail (.write _ hwrite), hmore,
    hserving.serveChanges loader.since pageLimit, hlast, hopen, fun key hexact => ?_⟩
  -- The deleted secret is among its secrets.
  obtain ⟨s, hs, hsid⟩ := List.mem_map.mp hstale
  obtain ⟨r, hr, -, plain, hopens, hsecretOf⟩ := hexact.secrets s hs
  have htombstone := hgone r hr (hsecretOf.id.symm.trans hsid)
  rw [hopens.1] at htombstone
  cases htombstone

end TwoPages

/-- A secret that is deleted between the pages stays in the snapshot. -/
theorem load_keeps_deleted : ¬ ∀ (token : AgentToken Unit Unit) (session : Session Unit)
    (row : AgentTokenRow) (db₀ db db' : Db) (loader : Loader) (page : SyncProjectResponse)
    (now : Timestamp) (snapshot : Snapshot Unit), Reachable db₀ →
      ReflTransGen (LoadStep row) (db₀, Loader.start) (db, loader) → loader.done = false →
      TokensService.serveChanges db row loader.since pageLimit now = (.ok page, db') →
      (loader.receive page).done = true → SessionOf row session →
      openSnapshot token session (loader.receive page).entries = .ok snapshot →
        ∃ key, token.unwrapProjectKey row.projectId session.encryptedKey = some key ∧
          Exact token key db' row snapshot := by
  intro hclaim
  obtain ⟨db', loader, page, snapshot, hrun, hmore, hserve, hlast, hopen, hstale⟩ :=
    (withSecrets_filled (n := 500) (by decide)).stale (withSecrets_reachable 500)
  obtain ⟨key, -, hexact⟩ := hclaim openAll tokenSession tokenRow _ db' db' loader page 1000 snapshot
    (withSecrets_reachable 500) hrun hmore hserve hlast ⟨rfl, rfl⟩ hopen
  exact hstale key hexact

end Zvault.Cli
