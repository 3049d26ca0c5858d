import Zvault.Access.Rotation
import Zvault.Access.Upkeep
import Zvault.Projects.Reads
import Zvault.Projects.Writes

/-!
# Every change is recorded in the feed

Every write of the projects and access services keeps the positions of a
project's entries distinct and within the project's counter, moves the entries
it changes behind all others, and changes no stored value without moving the
secret's entry, except that the values of a deleted environment go without it.
-/

namespace Zvault

open Relational Relation ProjectsStore EnvironmentsService

/-- A later state of an entry: it moved in the feed at most, or has a higher revision. -/
structure EntryRow.Follows (e e' : EntryRow) : Prop where
  id : e'.id = e.id
  type : e'.type = e.type
  seq : e.seq ≤ e'.seq
  revision : e.revision < e'.revision ∨
    (e'.revision = e.revision ∧ e'.deleted = e.deleted ∧ e'.encryptedMeta = e.encryptedMeta)

/-- What a write does to the entries of one project and its counter. -/
structure Advanced (entries : List EntryRow) (last : ℕ) (entries' : List EntryRow) (last' : ℕ) :
    Prop where
  write : Feed.Write EntryRow.seq entries last entries' last'
  follows : ∀ e ∈ entries, ∃ e' ∈ entries', e.Follows e'

/-- What a write does to one project: its entries advance, and a value changes along with
its secret's entry, or goes along with its environment's. -/
structure Recorded (db db' : Db) (projectId : Uuid) : Prop where
  entries : Advanced (entriesOf db projectId) (seqOf db projectId) (entriesOf db' projectId)
    (seqOf db' projectId)
  stored : ∀ v ∈ db'.secretValues, v.projectId = projectId → v ∈ db.secretValues ∨
    ∀ e ∈ entriesOf db' projectId, e.id = v.secretId → seqOf db projectId < e.seq
  lost : ∀ v ∈ db.secretValues, v.projectId = projectId → v ∈ db'.secretValues ∨
    (∀ e ∈ entriesOf db' projectId, e.id = v.secretId → seqOf db projectId < e.seq) ∨
    ∃ e ∈ entriesOf db' projectId, e.id = v.environmentId ∧ seqOf db projectId < e.seq

/-- The entries of a project are at distinct positions, within its counter. -/
abbrev FeedOrdered (db : Db) (projectId : Uuid) : Prop :=
  Feed.Ordered EntryRow.seq (entriesOf db projectId) (seqOf db projectId)

namespace EntryRow.Follows

variable {e e' e'' : EntryRow}

theorem refl (e : EntryRow) : e.Follows e := ⟨rfl, rfl, le_rfl, Or.inr ⟨rfl, rfl, rfl⟩⟩

theorem trans (h : e.Follows e') (h' : e'.Follows e'') : e.Follows e'' := by
  refine ⟨h'.id.trans h.id, h'.type.trans h.type, h.seq.trans h'.seq, ?_⟩
  rcases h.revision with hlt | ⟨hrevision, hdeleted, hmeta⟩
  · rcases h'.revision with hlt' | ⟨hrevision', _, _⟩
    · exact Or.inl (hlt.trans hlt')
    · exact Or.inl (hrevision'.symm ▸ hlt)
  · rcases h'.revision with hlt' | ⟨hrevision', hdeleted', hmeta'⟩
    · exact Or.inl (hrevision ▸ hlt')
    · exact Or.inr ⟨hrevision'.trans hrevision, hdeleted'.trans hdeleted, hmeta'.trans hmeta⟩

end EntryRow.Follows

namespace Advanced

variable {entries entries' entries'' : List EntryRow} {last last' last'' : ℕ}

/-- A write that changes no entry. -/
theorem of_mem_iff (h : Feed.Ordered EntryRow.seq entries last)
    (hmem : ∀ e, e ∈ entries' ↔ e ∈ entries) : Advanced entries last entries' last :=
  ⟨.of_mem_iff h hmem, fun e he => ⟨e, (hmem e).mpr he, .refl e⟩⟩

theorem refl (h : Feed.Ordered EntryRow.seq entries last) : Advanced entries last entries last :=
  of_mem_iff h fun _ => Iff.rfl

theorem trans (h : Advanced entries last entries' last')
    (h' : Advanced entries' last' entries'' last'') : Advanced entries last entries'' last'' where
  write := h.write.trans h'.write
  follows e he := by
    obtain ⟨e', he', hfollows⟩ := h.follows e he
    obtain ⟨e'', he'', hfollows'⟩ := h'.follows e' he'
    exact ⟨e'', he'', hfollows.trans hfollows'⟩

end Advanced

namespace Recorded

variable {db db' db'' : Db} {projectId : Uuid}

/-- A write that leaves a project's entries, counter and values alone. -/
theorem of_same (h : FeedOrdered db projectId)
    (hentries : ∀ e, e ∈ entriesOf db' projectId ↔ e ∈ entriesOf db projectId)
    (hseq : seqOf db' projectId = seqOf db projectId)
    (hvalues : ∀ v, v.projectId = projectId → (v ∈ db'.secretValues ↔ v ∈ db.secretValues)) :
    Recorded db db' projectId where
  entries := by
    rw [hseq]
    exact .of_mem_iff h hentries
  stored v hv hproject := Or.inl ((hvalues v hproject).mp hv)
  lost v hv hproject := Or.inl ((hvalues v hproject).mpr hv)

/-- A write that leaves the entries, counters and values of all projects alone. -/
theorem of_eq (h : FeedOrdered db projectId) (hentries : db'.projectEntries = db.projectEntries)
    (hprojects : db'.projects = db.projects) (hvalues : db'.secretValues = db.secretValues) :
    Recorded db db' projectId := by
  refine of_same h (fun e => ?_) ?_ fun v _ => by rw [hvalues]
  · rw [entriesOf, hentries, entriesOf]
  · rw [seqOf, hprojects, seqOf]

theorem refl (h : FeedOrdered db projectId) : Recorded db db projectId :=
  of_eq h rfl rfl rfl

theorem trans (h : Recorded db db' projectId) (h' : Recorded db' db'' projectId) :
    Recorded db db'' projectId where
  entries := h.entries.trans h'.entries
  stored v hv hproject := by
    have hcounter := h.entries.write.counter
    rcases h'.stored v hv hproject with hmid | hmoved
    · rcases h.stored v hmid hproject with hold | hmoved
      · exact Or.inl hold
      · refine Or.inr fun e he hid => ?_
        rcases h'.entries.write.advances e he with hmid | hbehind
        · exact hmoved e hmid hid
        · omega
    · exact Or.inr fun e he hid => hcounter.trans_lt (hmoved e he hid)
  lost v hv hproject := by
    have hcounter := h.entries.write.counter
    rcases h.lost v hv hproject with hmid | hmoved | ⟨e, he, hid, hmoved⟩
    · rcases h'.lost v hmid hproject with hkept | hmoved | ⟨e, he, hid, hmoved⟩
      · exact Or.inl hkept
      · exact Or.inr (Or.inl fun e he hid => hcounter.trans_lt (hmoved e he hid))
      · exact Or.inr (Or.inr ⟨e, he, hid, hcounter.trans_lt hmoved⟩)
    · refine Or.inr (Or.inl fun e he hid => ?_)
      rcases h'.entries.write.advances e he with hmid | hbehind
      · exact hmoved e hmid hid
      · omega
    · obtain ⟨e', he', hfollows⟩ := h'.entries.follows e he
      exact Or.inr (Or.inr ⟨e', he', hfollows.id.trans hid, hmoved.trans_le hfollows.seq⟩)

end Recorded

section Counter

variable {db db' : Db} {projectId seq : ℕ} {p : ProjectRow}

/-- Setting one project's counter. -/
theorem seqOf_update (hprojects : db'.projects = db.projects.update
      (fun p => p.id = projectId) (fun p => { p with seq := seq }))
    (hp : p ∈ db.projects) (hid : p.id = projectId) (id : Uuid) :
    seqOf db' id = if id = projectId then seq else seqOf db id := by
  subst hid
  simp only [seqOf, hprojects, Table.find_update]
  by_cases heq : id = p.id
  · subst heq
    rw [Table.find_eq_some.mpr ⟨hp, rfl⟩]
    simp
  · rw [if_neg heq]
    cases hfind : db.projects.find id with
    | none => rfl
    | some q =>
      have hq := (Table.find_eq_some.mp hfind).2
      simp [hq, heq]

theorem seqOf_eq (hp : p ∈ db.projects) : seqOf db p.id = p.seq := by
  have hfind : db.projects.find p.id = some p := Table.find_eq_some.mpr ⟨hp, rfl⟩
  simp only [seqOf, hfind]

/-- A project that is not there has no entries: its counter reads 0. -/
theorem entriesOf_eq_nil (h : FeedOrdered db projectId)
    (hnone : ∀ p ∈ db.projects, p.id ≠ projectId) (e : EntryRow) :
    e ∉ entriesOf db projectId := by
  intro he
  have hseq : seqOf db projectId = 0 := by
    simp only [seqOf, Table.find_eq_none.mpr hnone]
  have := h.bounded e he
  have := h.positive e he
  omega

end Counter

section Projects

variable {db db' : Db} {projectId : Uuid}

/-- A new project's environments fill its feed from the start. -/
theorem createProject_recorded {p : NewProject} (hcreate : createProject db p = some db')
    (h : FeedOrdered db projectId) : Recorded db db' projectId := by
  have hcreated := createProject_eq_some hcreate
  obtain ⟨row, hid, hcount, hprojects⟩ := hcreated.projects
  have hnew : ∀ r ∈ db.projects, r.id ≠ row.id := hid ▸ hcreated.free
  have hvalues : db'.secretValues = db.secretValues := by
    rw [hcreated.frame]
  by_cases hproject : projectId = p.id
  · subst hproject
    have hold := entriesOf_eq_nil h hcreated.free
    have hseq : seqOf db p.id = 0 := by
      simp only [seqOf, Table.find_eq_none.mpr hcreated.free]
    have hseq' : seqOf db' p.id = p.environments.length := by
      rw [seqOf, hprojects, Table.find_insertNew hnew, if_pos hid, ← hcount]
    have hentry (e : EntryRow) (he : e ∈ entriesOf db' p.id) :
        ∃ i, ∃ hi : i < p.environments.length, e.seq = i + 1 ∧
          e = firstEntry p i p.environments[i] := by
      rcases (hcreated.entries e).mp (mem_entriesOf.mp he).1 with hdb | ⟨i, hi, rfl⟩
      · exact absurd (mem_entriesOf.mpr ⟨hdb, (mem_entriesOf.mp he).2⟩) (hold e)
      · exact ⟨i, hi, rfl, rfl⟩
    refine ⟨⟨?_, fun e he => absurd he (hold e)⟩, fun v hv _ => Or.inl (hvalues ▸ hv),
      fun v hv _ => Or.inl (hvalues ▸ hv)⟩
    rw [hseq', hseq]
    rw [FeedOrdered, hseq] at h
    refine .append h (Nat.zero_le _) (fun e he => ?_) fun e he f hf _ heq => ?_
    · obtain ⟨i, hi, hi', _⟩ := hentry e he
      exact Or.inr ⟨by omega, by omega⟩
    · obtain ⟨i, hi, hi', he⟩ := hentry e he
      obtain ⟨j, hj, hj', hf⟩ := hentry f hf
      obtain rfl : i = j := by omega
      rw [he, hf]
  · refine .of_same h (fun e => ?_) ?_ fun v _ => by rw [hvalues]
    · rw [mem_entriesOf, mem_entriesOf]
      refine and_congr_left fun he => ?_
      rw [hcreated.entries, or_iff_left]
      rintro ⟨i, hi, rfl⟩
      exact hproject he.symm
    · rw [seqOf, hprojects, Table.find_insertNew hnew, if_neg (hid ▸ Ne.symm hproject), seqOf]

/-- The rows a deleted project leaves behind. -/
theorem deleteProject_ordered (h : FeedOrdered db projectId) (id : Uuid) :
    FeedOrdered (deleteProject db id) projectId := by
  have hmem (e : EntryRow) : e ∈ entriesOf (deleteProject db id) projectId ↔
      e ∈ entriesOf db projectId ∧ e.projectId ≠ id := by
    simp only [mem_entriesOf, deleteProject, Table.mem_delete, decide_eq_false_iff_not]
    exact and_right_comm
  by_cases heq : projectId = id
  · have hnone (e : EntryRow) : e ∉ entriesOf (deleteProject db id) projectId := by
      intro he
      exact ((hmem e).mp he).2 ((mem_entriesOf.mp ((hmem e).mp he).1).2.trans heq)
    exact ⟨fun e he => absurd he (hnone e), fun e he => absurd he (hnone e),
      fun e he => absurd he (hnone e)⟩
  · have hseq : seqOf (deleteProject db id) projectId = seqOf db projectId := by
      simp only [seqOf, deleteProject]
      rw [Table.find_delete]
      intro r _ hr
      exact decide_eq_false fun hid => heq (hr.symm.trans hid)
    rw [FeedOrdered, hseq]
    refine (Feed.Write.of_mem_iff h fun e => ?_).ordered
    rw [hmem, and_iff_left_iff_imp]
    exact fun he hid => heq ((mem_entriesOf.mp he).2.symm.trans hid)

/-- New metadata leaves the project's counter alone. -/
theorem updateProject_recorded {id : Uuid} {baseRevision : ℕ} {encryptedMeta : EncryptedBlob}
    {now : Timestamp} (hupdate : updateProject db id baseRevision encryptedMeta now = some db')
    (h : FeedOrdered db projectId) : Recorded db db' projectId := by
  unfold updateProject at hupdate
  split at hupdate
  swap
  · cases hupdate
  cases hupdate
  refine .of_same h (fun e => Iff.rfl) ?_ fun v _ => Iff.rfl
  simp only [seqOf, Table.find_update]
  cases db.projects.find projectId with
  | none => rfl
  | some p =>
    simp only [Option.map_some]
    split <;> rfl

end Projects

section Entries

variable {db db' : Db} {w : EntryWrite} {projectId : Uuid}

/-- Outside its own entry a write changes no value, but for those of an environment it
deletes. -/
theorem mem_writeContent_values {v : SecretValueRow}
    (hsecret : ¬(v.projectId = w.projectId ∧ v.secretId = w.id)) :
    v ∈ (writeContent db w).secretValues ↔ v ∈ db.secretValues ∧
      ¬(w.type = .environment ∧ w.encryptedMeta = none ∧ v.projectId = w.projectId ∧
        v.environmentId = w.id) := by
  have hput (values : List (Uuid × Option EncryptedBlob)) (t : Table SecretValueRow.key) :
      v ∈ values.foldl (putValue w.projectId w.id w.now) t ↔ v ∈ t := by
    induction values generalizing t with
    | nil => rfl
    | cons x values ih =>
      rw [List.foldl_cons, ih]
      unfold putValue
      split
      · simp only [Table.mem_delete, decide_eq_false_iff_not, and_iff_left_iff_imp]
        exact fun _ hv => hsecret ⟨hv.1, hv.2.1⟩
      · rename_i encryptedValue _
        have hkey {r : SecretValueRow} (hr : r.key = (w.projectId, w.id, x.1)) :
            r.projectId = w.projectId ∧ r.secretId = w.id :=
          ⟨congrArg Prod.fst hr, congrArg (fun k => k.2.1) hr⟩
        rw [Table.mem_upsert]
        constructor
        · rintro (⟨hv, _⟩ | ⟨r, _, hr, rfl⟩ | ⟨rfl, _⟩)
          · exact hv
          · exact absurd (hkey hr) hsecret
          · exact absurd ⟨rfl, rfl⟩ hsecret
        · intro hv
          exact Or.inl ⟨hv, fun hr => hsecret (hkey hr)⟩
  unfold writeContent
  split
  · rename_i htype hmeta
    simp only [deleteEnvironment, dropVersionValues, Table.mem_delete, decide_eq_false_iff_not,
      htype, hmeta, true_and]
  · simp_all
  · simp_all
  · rename_i htype _
    simp only [Table.mem_delete, decide_eq_false_iff_not, htype]
    simp [hsecret]
  · rename_i htype _
    rw [hput, htype]
    simp
  · rename_i htype
    simp [htype]

/-- A write accepted over an entry replaces it by a later state. -/
theorem Written.follows {seq : ℕ} (h : Written db db' w seq) {e : EntryRow}
    (he : e ∈ db.projectEntries) (hkey : e.key = (w.projectId, w.id)) (hseq : e.seq ≤ seq) :
    e.Follows (writtenRow w seq) := by
  have hfind : db.projectEntries.find (w.projectId, w.id) = some e :=
    Table.find_eq_some.mpr ⟨he, hkey⟩
  obtain ⟨htype, hrevision, _⟩ := entryRefusal_eq_none h.accepted
  rw [hfind] at hrevision
  refine ⟨(congrArg Prod.snd hkey).symm, (htype e hfind).symm, hseq, Or.inl ?_⟩
  change e.revision < w.baseRevision + 1
  exact Nat.lt_succ_of_le hrevision.le

/-- An accepted write puts its entry at the end of its project's feed. -/
theorem Written.recorded {seq : ℕ} (hw : Written db db' w seq) (h : FeedOrdered db projectId) :
    Recorded db db' projectId := by
  obtain ⟨p, hp, hid, hnext⟩ := hw.next
  have hseq := seqOf_update hw.projects hp hid projectId
  by_cases hproject : projectId = w.projectId
  · subst hproject
    have hlast : seqOf db w.projectId = p.seq := hid ▸ seqOf_eq hp
    rw [if_pos rfl] at hseq
    have hmem (e : EntryRow) : e ∈ entriesOf db' w.projectId ↔
        (e ∈ entriesOf db w.projectId ∧ e.id ≠ w.id) ∨ e = writtenRow w seq := by
      rw [mem_entriesOf, mem_entriesOf, hw.entries]
      constructor
      · rintro ⟨⟨he, hkey⟩ | rfl, hproject⟩
        · exact Or.inl ⟨⟨he, hproject⟩, fun hid => hkey (Prod.ext hproject hid)⟩
        · exact Or.inr rfl
      · rintro (⟨⟨he, hproject⟩, hid⟩ | rfl)
        · exact ⟨Or.inl ⟨he, fun hkey => hid (congrArg Prod.snd hkey)⟩, hproject⟩
        · exact ⟨Or.inr rfl, rfl⟩
    have hrow : (writtenRow w seq).seq = seq := rfl
    have hown (e : EntryRow) (he : e ∈ entriesOf db' w.projectId) (hid : e.id = w.id) :
        seqOf db w.projectId < e.seq := by
      rcases (hmem e).mp he with ⟨_, hne⟩ | rfl
      · exact absurd hid hne
      · omega
    refine ⟨⟨?_, ?_⟩, fun v hv hvp => ?_, fun v hv hvp => ?_⟩
    · rw [hseq]
      refine .append h (by omega) (fun e he => ?_) fun e he f hf hbehind heq => ?_
      · rcases (hmem e).mp he with ⟨he, _⟩ | rfl
        · exact Or.inl he
        · exact Or.inr ⟨by omega, by omega⟩
      · rcases (hmem e).mp he with ⟨he, _⟩ | rfl
        · have := h.bounded e he
          omega
        · rcases (hmem f).mp hf with ⟨hf, _⟩ | rfl
          · have := h.bounded f hf
            omega
          · rfl
    · intro e he
      by_cases hid : e.id = w.id
      · have hbounded := h.bounded e he
        obtain ⟨he, hep⟩ := mem_entriesOf.mp he
        exact ⟨_, (hmem _).mpr (Or.inr rfl), hw.follows he (Prod.ext hep hid) (by omega)⟩
      · exact ⟨e, (hmem e).mpr (Or.inl ⟨he, hid⟩), .refl e⟩
    · by_cases hsecret : v.secretId = w.id
      · exact Or.inr fun e he hid => hown e he (hid.trans hsecret)
      rw [hw.secretValues, mem_writeContent_values fun hv => hsecret hv.2] at hv
      exact Or.inl hv.1
    · by_cases hsecret : v.secretId = w.id
      · exact Or.inr (Or.inl fun e he hid => hown e he (hid.trans hsecret))
      by_cases henv : v.environmentId = w.id
      · have hrow' : writtenRow w seq ∈ entriesOf db' w.projectId := (hmem _).mpr (Or.inr rfl)
        exact Or.inr (Or.inr ⟨_, hrow', henv.symm, hown _ hrow' rfl⟩)
      · left
        rw [hw.secretValues, mem_writeContent_values fun hv => hsecret hv.2]
        exact ⟨hv, fun hgone => henv hgone.2.2.2⟩
  · rw [if_neg hproject] at hseq
    refine .of_same h (fun e => ?_) hseq fun v hv => ?_
    · rw [mem_entriesOf, mem_entriesOf]
      refine and_congr_left fun he => ?_
      rw [hw.entries]
      constructor
      · rintro (⟨he, _⟩ | rfl)
        · exact he
        · exact absurd he.symm hproject
      · intro hmem
        exact Or.inl ⟨hmem, fun hkey => hproject (he.symm.trans (congrArg Prod.fst hkey))⟩
    · have hother : v.projectId ≠ w.projectId := fun h => hproject (hv.symm.trans h)
      rw [hw.secretValues, mem_writeContent_values fun h => hother h.1]
      exact and_iff_left fun h => hother h.2.2.1

end Entries

section Rotation

variable {db db' : Db} {projectId : Uuid} {now : Timestamp}

/-- The entries of a project in a table of entries. -/
abbrev entriesIn (t : Table EntryRow.key) (projectId : Uuid) : List EntryRow :=
  t.select fun e => e.projectId = projectId

theorem mem_entriesIn_touch {s : Table EntryRow.key × ℕ} {id : Uuid} {e : EntryRow} :
    e ∈ entriesIn (touch projectId now s id).1 projectId ↔ ∃ e₀ ∈ entriesIn s.1 projectId,
      e = if e₀.id = id then { e₀ with seq := s.2 + 1, updatedAt := now } else e₀ := by
  simp only [entriesIn, touch, Table.mem_select, Table.mem_update, decide_eq_true_eq]
  constructor
  · rintro ⟨⟨e₀, he₀, rfl⟩, hproject⟩
    have hproject₀ : e₀.projectId = projectId := by
      split at hproject <;> exact hproject
    exact ⟨e₀, ⟨he₀, hproject₀⟩, by simp only [hproject₀, true_and]⟩
  · rintro ⟨e₀, ⟨he₀, hproject₀⟩, rfl⟩
    refine ⟨⟨e₀, he₀, by simp only [hproject₀, true_and]⟩, ?_⟩
    split <;> exact hproject₀

/-- Touching an entry puts it at the next position. -/
theorem touch_advanced {s : Table EntryRow.key × ℕ} (now : Timestamp) (id : Uuid)
    (h : Feed.Ordered EntryRow.seq (entriesIn s.1 projectId) s.2) :
    Advanced (entriesIn s.1 projectId) s.2 (entriesIn (touch projectId now s id).1 projectId)
      (touch projectId now s id).2 := by
  have hseq : (touch projectId now s id).2 = s.2 + 1 := rfl
  refine ⟨.append h (by omega) (fun e he => ?_) fun e he f hf hbehind heq => ?_, fun e he => ?_⟩
  · obtain ⟨e₀, he₀, rfl⟩ := mem_entriesIn_touch.mp he
    split
    · exact Or.inr ⟨by simp, by simp [hseq]⟩
    · exact Or.inl he₀
  · obtain ⟨e₀, he₀, rfl⟩ := mem_entriesIn_touch.mp he
    obtain ⟨f₀, hf₀, rfl⟩ := mem_entriesIn_touch.mp hf
    have := h.bounded e₀ he₀
    have := h.bounded f₀ hf₀
    split at hbehind
    swap
    · omega
    rename_i hid
    rw [if_pos hid] at heq ⊢
    split at heq
    swap
    · dsimp only at heq
      omega
    rename_i hid'
    rw [if_pos hid']
    simp only [Table.mem_select, decide_eq_true_eq] at he₀ hf₀
    have hkey : e₀.key = f₀.key :=
      Prod.ext (he₀.2.trans hf₀.2.symm) (hid.trans hid'.symm)
    rw [Table.eq_of_key_eq he₀.1 hf₀.1 hkey]
  · refine ⟨_, mem_entriesIn_touch.mpr ⟨e, he, rfl⟩, ?_⟩
    have := h.bounded e he
    split
    · exact ⟨rfl, rfl, by dsimp only; omega, Or.inr ⟨rfl, rfl, rfl⟩⟩
    · exact .refl e

/-- Touching entries one after another puts them at the end of the feed. -/
theorem foldl_touch_advanced (now : Timestamp) (ids : List Uuid) {s : Table EntryRow.key × ℕ}
    (h : Feed.Ordered EntryRow.seq (entriesIn s.1 projectId) s.2) :
    Advanced (entriesIn s.1 projectId) s.2
        (entriesIn (ids.foldl (touch projectId now) s).1 projectId)
        (ids.foldl (touch projectId now) s).2 ∧
      ∀ e ∈ entriesIn (ids.foldl (touch projectId now) s).1 projectId, e.id ∈ ids →
        s.2 < e.seq := by
  induction ids generalizing s with
  | nil => exact ⟨.refl h, fun _ _ hid => absurd hid List.not_mem_nil⟩
  | cons id ids ih =>
    have hfirst := touch_advanced now id h
    obtain ⟨hrest, htouched⟩ := ih hfirst.write.ordered
    have hseq : (touch projectId now s id).2 = s.2 + 1 := rfl
    refine ⟨hfirst.trans hrest, fun e he hid => ?_⟩
    rcases List.mem_cons.mp hid with hid | hid
    · rcases hrest.write.advances e he with hmid | hbehind
      · obtain ⟨e₀, _, rfl⟩ := mem_entriesIn_touch.mp hmid
        split at hid
        · rename_i hid₀
          rw [if_pos hid₀]
          exact Nat.lt_succ_self _
        · rename_i hid₀
          exact absurd hid hid₀
      · omega
    · have := htouched e he hid
      omega

/-- Touching a project's entries leaves the other projects' alone. -/
theorem mem_entriesIn_foldl_touch (ids : List Uuid) {id : Uuid} (hne : id ≠ projectId)
    {s : Table EntryRow.key × ℕ} {e : EntryRow} :
    e ∈ entriesIn (ids.foldl (touch projectId now) s).1 id ↔ e ∈ entriesIn s.1 id := by
  induction ids generalizing s with
  | nil => rfl
  | cons x ids ih =>
    rw [List.foldl_cons, ih]
    simp only [entriesIn, touch, Table.mem_select, Table.mem_update, decide_eq_true_eq]
    constructor
    · rintro ⟨⟨e₀, he₀, rfl⟩, hproject⟩
      split at hproject
      · rename_i hown
        exact absurd (hproject.symm.trans hown.1) hne
      · rename_i hown
        rw [if_neg hown]
        exact ⟨he₀, hproject⟩
    · rintro ⟨he, hproject⟩
      have hown : ¬(e.projectId = projectId ∧ e.id = x) := fun h => hne (hproject.symm.trans h.1)
      exact ⟨⟨e, he, by rw [if_neg hown]⟩, hproject⟩

/-- A rotation puts its environment and the environment's secrets at the end of the feed. -/
theorem rotated_recorded {env : Env} {accountId : Uuid} {req : RotateEnvironmentKeyRequest}
    (hr : Rotated db db' env accountId req now) (h : FeedOrdered db projectId) :
    Recorded db db' projectId ∧ (projectId = env.projectId →
      ∀ e ∈ entriesOf db' projectId,
        e.id ∈ env.environmentId :: req.values.map ResealedValue.secretId →
        seqOf db projectId < e.seq) := by
  obtain ⟨p, seq, hfind, htouch, hprojects⟩ := hr.feed
  obtain ⟨hp, hid⟩ := Table.find_eq_some.mp hfind
  have hseq := seqOf_update hprojects hp hid projectId
  generalize henv : env.environmentId :: req.values.map ResealedValue.secretId = ids at htouch
  have hentries : db'.projectEntries =
      (ids.foldl (touch env.projectId now) (db.projectEntries, p.seq)).1 := by rw [htouch]
  have hcounter : seq = (ids.foldl (touch env.projectId now) (db.projectEntries, p.seq)).2 := by
    rw [htouch]
  have hsecret (v₀ : SecretValueRow) : (reseal env now req.values v₀).projectId = v₀.projectId ∧
      (reseal env now req.values v₀).secretId = v₀.secretId := by
    unfold reseal
    split
    · split <;> exact ⟨rfl, rfl⟩
    · exact ⟨rfl, rfl⟩
  have hkept (v₀ : SecretValueRow) (hv₀ : v₀ ∈ db.secretValues) :
      reseal env now req.values v₀ = v₀ ∨ (v₀.projectId = env.projectId ∧ v₀.secretId ∈ ids) := by
    by_cases hof : OfEnvironment env v₀
    · refine Or.inr ⟨hof.1, ?_⟩
      rw [← henv]
      exact List.mem_cons_of_mem _ ((hr.sent v₀.secretId).mp ⟨v₀, hv₀, hof, rfl⟩)
    · exact Or.inl (if_neg hof)
  by_cases hproject : projectId = env.projectId
  · subst hproject
    have hlast : seqOf db env.projectId = p.seq := hid ▸ seqOf_eq hp
    rw [if_pos rfl] at hseq
    have hordered : Feed.Ordered EntryRow.seq (entriesIn db.projectEntries env.projectId) p.seq :=
      hlast ▸ h
    obtain ⟨hadvanced, htouched⟩ :=
      foldl_touch_advanced now ids (s := (db.projectEntries, p.seq)) hordered
    rw [← hentries, ← hcounter] at hadvanced
    rw [← hentries] at htouched
    have hmoved (v : SecretValueRow) (hv : v.secretId ∈ ids) :
        ∀ e ∈ entriesOf db' env.projectId, e.id = v.secretId → seqOf db env.projectId < e.seq := by
      intro e he hid
      rw [hlast]
      exact htouched e he (hid ▸ hv)
    refine ⟨⟨?_, fun v hv hvp => ?_, fun v hv hvp => ?_⟩, fun _ e he hid => ?_⟩
    · rw [hseq, hlast]
      exact hadvanced
    · obtain ⟨v₀, hv₀, rfl⟩ := (hr.secretValues v).mp hv
      rcases hkept v₀ hv₀ with heq | ⟨_, hsent⟩
      · exact Or.inl (heq.symm ▸ hv₀)
      · exact Or.inr (hmoved _ ((hsecret v₀).2.symm ▸ hsent))
    · rcases hkept v hv with heq | ⟨_, hsent⟩
      · exact Or.inl ((hr.secretValues v).mpr ⟨v, hv, heq.symm⟩)
      · exact Or.inr (Or.inl (hmoved v hsent))
    · rw [hlast]
      exact htouched e he hid
  · rw [if_neg hproject] at hseq
    refine ⟨.of_same h (fun e => ?_) hseq fun v hvp => ?_, fun heq => absurd heq hproject⟩
    · rw [entriesOf, hentries]
      exact mem_entriesIn_foldl_touch ids hproject
    · rw [hr.secretValues]
      constructor
      · rintro ⟨v₀, hv₀, rfl⟩
        rcases hkept v₀ hv₀ with heq | ⟨hown, _⟩
        · exact heq.symm ▸ hv₀
        · exact absurd (hvp.symm.trans ((hsecret v₀).1.trans hown)) hproject
      · intro hv
        refine ⟨v, hv, ?_⟩
        rcases hkept v hv with heq | ⟨hown, _⟩
        · exact heq.symm
        · exact absurd (hvp.symm.trans hown) hproject

end Rotation

/-- One write of the projects and access services, but for deleting a whole project. -/
inductive StoreWrite : Db → Db → Prop
  | create {db db' : Db} (p : NewProject) (h : createProject db p = some db') : StoreWrite db db'
  | entry (db : Db) (w : EntryWrite) : StoreWrite db (writeEntry db w).2
  | update {db db' : Db} (projectId : Uuid) (baseRevision : ℕ) (encryptedMeta : EncryptedBlob)
      (now : Timestamp) (h : updateProject db projectId baseRevision encryptedMeta now = some db') :
      StoreWrite db db'
  | purge (db : Db) (projectId : Uuid) (secretId : Option Uuid) (before : Timestamp) :
      StoreWrite db (purgeTrash db projectId secretId before).2
  | purgeExpired (db : Db) (before : Timestamp) : StoreWrite db (purgeExpired db before)
  /-- Upkeep, wraps and rotations. -/
  | access {db db' : Db} (h : AccessWrite db db') : StoreWrite db db'

/-- The states the server can be in. -/
inductive Reachable : Db → Prop
  | empty : Reachable Db.empty
  | write {db db' : Db} (h : Reachable db) (hwrite : StoreWrite db db') : Reachable db'
  | deleteProject {db : Db} (h : Reachable db) (projectId : Uuid) :
      Reachable (deleteProject db projectId)

section Writes

variable {db db' : Db} {projectId : Uuid}

theorem Upkept.recorded (hupkept : Upkept db db') (h : FeedOrdered db projectId) :
    Recorded db db' projectId :=
  .of_eq h hupkept.projectEntries hupkept.projects hupkept.secretValues

/-- Writes of the access service. -/
theorem AccessWrite.recorded (hwrite : AccessWrite db db') (h : FeedOrdered db projectId) :
    Recorded db db' projectId := by
  cases hwrite with
  | upkeep hupkeep => exact hupkeep.upkept.recorded h
  | wraps p resourceId keyVersion wrappedBy wraps =>
    unfold insertWraps
    split
    · exact .of_eq h rfl rfl rfl
    · exact .refl h
  | rotation env accountId req now =>
    cases htx : rotateTx db env accountId req now with
    | mk answer db' =>
      cases answer with
      | error e =>
        obtain rfl := rotateTx_error htx
        exact .refl h
      | ok _ => exact (rotated_recorded (rotateTx_ok htx) h).1

/-- Every write is recorded in the feed of every project. -/
theorem StoreWrite.recorded (hwrite : StoreWrite db db') (h : FeedOrdered db projectId) :
    Recorded db db' projectId := by
  cases hwrite with
  | create p hcreate => exact createProject_recorded hcreate h
  | entry w =>
    rcases writeEntry_cases db w with ⟨seq, hw, _⟩ | ⟨hsame, _⟩
    · exact hw.recorded h
    · rw [hsame]
      exact .refl h
  | update id baseRevision encryptedMeta now hupdate => exact updateProject_recorded hupdate h
  | purge id secretId before => exact .of_eq h rfl rfl rfl
  | purgeExpired before => exact .of_eq h rfl rfl rfl
  | access haccess => exact haccess.recorded h

/-- The feeds of a reachable state are in order. -/
theorem Reachable.feedOrdered (h : Reachable db) (projectId : Uuid) : FeedOrdered db projectId := by
  induction h with
  | empty =>
    exact ⟨fun e he => absurd he List.not_mem_nil, fun e he => absurd he List.not_mem_nil,
      fun e he => absurd he List.not_mem_nil⟩
  | write _ hwrite ih => exact (hwrite.recorded ih).entries.write.ordered
  | deleteProject _ id ih => exact deleteProject_ordered ih id

end Writes

end Zvault
