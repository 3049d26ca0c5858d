import Zvault.Projects.References

/-!
# The key of an environment that becomes live

`putEnvironment` stores the key it is sent for an environment that it creates,
and asks for one. It tells by the base revision, and a deleted environment is
put back at its tombstone's.
-/

namespace Zvault

open Relational Relation AccessFacts ProjectsStore ProjectsService

/-- An account holds a grant of a key. -/
def HasGrant (db : Db) (projectId resourceId accountId : Uuid) : Prop :=
  ∃ g ∈ db.keyGrants, g.key = (projectId, resourceId, accountId)

instance (db : Db) (projectId resourceId accountId : Uuid) :
    Decidable (HasGrant db projectId resourceId accountId) :=
  inferInstanceAs (Decidable (∃ g ∈ db.keyGrants.rows, _))

/-- The state after whole requests from the start on. -/
def afterRequests (requests : List ApiRequest) : Db := requests.foldl ApiRequest.serve Db.empty

section Put

variable {db db' : Db} {user projectId id : Uuid} {req : PutEnvironmentRequest} {now : Timestamp}
  {entry : ProjectEntry}

/-- A put without a base revision comes with a key. -/
theorem admitEnvironment_key {w : EntryWrite}
    (h : admitEnvironment db user projectId id req now = (.ok w, db')) (hbase : req.baseRevision = 0) :
    req.encryptedKey.isSome = true := by
  by_contra hnone
  rw [Bool.not_eq_true, Option.isSome_eq_false_iff, Option.isNone_iff_eq_none] at hnone
  unfold admitEnvironment at h
  split at h
  · cases h
  split at h
  · cases h
  simp only [hbase, hnone, and_self, if_true] at h
  split at h <;> cases h

/-- An accepted put stores the write that its checks made of it. -/
theorem putEnvironment_ok (h : putEnvironment db user projectId id req now = (.ok entry, db')) :
    ∃ w db₁, admitEnvironment db user projectId id req now = (.ok w, db₁) ∧
      ∃ seq, Written db₁ db' w seq := by
  unfold putEnvironment serveWrite at h
  split at h
  · cases h
  rename_i w db₁ hallowed
  refine ⟨w, db₁, hallowed, ?_⟩
  rcases writeEntry_cases db₁ w with ⟨seq, hw, hanswer⟩ | ⟨-, hnot⟩
  · unfold ProjectsService.write at h
    split at h <;> rename_i heq
    · rw [heq] at hw
      obtain ⟨-, rfl⟩ := Prod.mk.inj h
      exact ⟨seq, hw⟩
    all_goals
      rw [heq] at hanswer
      cases hanswer
  · unfold ProjectsService.write at h
    split at h <;> rename_i heq
    · exact absurd (congrArg Prod.fst heq) (hnot _)
    all_goals cases h

/-- What a put of an environment does to the key grants. -/
theorem Written.hasGrant_iff {w : EntryWrite} {seq : ℕ} (hw : Written db db' w seq)
    (henv : w.type = .environment) (hmeta : w.encryptedMeta ≠ none) {accountId : Uuid} :
    HasGrant db' w.projectId w.id accountId ↔ HasGrant db w.projectId w.id accountId ∨
      w.keyGrant.map Prod.fst = some accountId := by
  obtain ⟨blob, hblob⟩ := Option.ne_none_iff_exists'.mp hmeta
  rw [HasGrant, hw.keyGrants, writeContent, henv, hblob]
  cases w.keyGrant with
  | none => simp [HasGrant]
  | some grant =>
    rw [Option.map_some, Option.some_inj]
    refine Table.exists_key_upsert.trans (or_congr_right ?_)
    constructor
    · exact fun hkey => congrArg (fun k => k.2.2) hkey
    · rintro rfl
      rfl

/-- **The first key.** Whatever was requested before, an accepted put that makes an environment
live leaves a key of it with the account if and only if it came without a base revision. -/
theorem putEnvironment_hasGrant_iff {requests : List ApiRequest}
    (hparsed : ∀ req ∈ requests, req.Parsed)
    (hput : putEnvironment (afterRequests requests) user projectId id req now = (.ok entry, db'))
    (hdead : ¬ Live (afterRequests requests) .environment projectId id) :
    HasGrant db' projectId id user ↔ req.baseRevision = 0 := by
  obtain ⟨w, db₁, hallowed, seq, hw⟩ := putEnvironment_ok hput
  have hupkept := (admitEnvironment_upkeep (afterRequests requests) user projectId id req now).upkept
  have hkey := admitEnvironment_key hallowed
  rw [hallowed] at hupkept
  have hreferential : Referential db₁ := (requests_referential requests hparsed).upkept hupkept
  obtain rfl := admitEnvironment_ok hallowed
  refine (hw.hasGrant_iff rfl (Option.some_ne_none _)).trans ?_
  change _ ∨ (if req.baseRevision = 0 then req.encryptedKey.map (user, ·) else none).map Prod.fst =
    some user ↔ _
  constructor
  · rintro (hold | hnew)
    · -- A grant from before is not of a tombstone, so there was no entry.
      by_contra hbase
      obtain ⟨-, hrevision, -⟩ := entryRefusal_eq_none hw.accepted
      cases hfind : db₁.projectEntries.find (projectId, id) with
      | none =>
        change ((db₁.projectEntries.find (projectId, id)).map EntryRow.revision).getD 0 =
          req.baseRevision at hrevision
        rw [hfind] at hrevision
        exact hbase hrevision.symm
      | some c =>
        obtain ⟨hc, hckey⟩ := Table.find_eq_some.mp hfind
        have htype : c.type = .environment := (entryRefusal_eq_none hw.accepted).1 c hfind
        obtain ⟨g, hg, hgkey⟩ := hold
        refine hreferential.grants g hg ⟨c, hc, hckey.trans ?_, htype, ?_⟩
        · exact Prod.ext (congrArg Prod.fst hgkey).symm (congrArg (fun k => k.2.1) hgkey).symm
        · by_contra hlive
          rw [Live, ← liveEntries_congr hupkept.projectEntries] at hdead
          exact hdead (live_iff.mpr ⟨c, hc, hckey, htype, by simpa using hlive⟩)
    · by_contra hbase
      rw [if_neg hbase] at hnew
      cases hnew
  · intro hbase
    obtain ⟨key, hsome⟩ := Option.isSome_iff_exists.mp (hkey hbase)
    refine Or.inr ?_
    rw [if_pos hbase, hsome]
    rfl

end Put

/-- Account 10 creates project 1 with environment 2, and deletes the environment. -/
def deletedEnvironment : List ApiRequest :=
  [.projects (.create 10 ⟨1, ⟨.record 1, 0, 0⟩, ⟨.account, 0, 0⟩,
      [⟨2, ⟨.record 2, 0, 0⟩, ⟨.account, 0, 0⟩⟩]⟩ 0),
    .projects (.deleteEntry 10 1 .environment 2 1 1)]

theorem deletedEnvironment_parsed : ∀ req ∈ deletedEnvironment, req.Parsed := by
  intro req hreq
  simp only [deletedEnvironment, List.mem_cons, List.not_mem_nil, or_false] at hreq
  rcases hreq with rfl | rfl
  · change 1 ≤ 20
    omega
  · trivial

/-- Put back from its tombstone, with a key sent along, the environment is live and nobody has a key
of it. -/
theorem restored_without_key :
    let put : PutEnvironmentRequest := ⟨2, ⟨.record 2, 0, 1⟩, some ⟨.account, 0, 1⟩⟩
    let restored := (putEnvironment (afterRequests deletedEnvironment) 10 1 2 put 2).2
    (∃ entry, (putEnvironment (afterRequests deletedEnvironment) 10 1 2 put 2).1 = .ok entry) ∧
      ¬ Live (afterRequests deletedEnvironment) .environment 1 2 ∧ Live restored .environment 1 2 ∧
      ¬ HasGrant restored 1 2 10 := by
  refine ⟨⟨.environment ⟨2, 1, 3, 3, 2⟩ ⟨.record 2, 0, 1⟩ none, by decide⟩, by decide, by decide,
    by decide⟩

/-- Another environment comes with its key. -/
theorem created_with_key :
    let put : PutEnvironmentRequest := ⟨0, ⟨.record 3, 0, 0⟩, some ⟨.account, 0, 1⟩⟩
    HasGrant (putEnvironment (afterRequests deletedEnvironment) 10 1 3 put 2).2 1 3 10 ↔
      put.baseRevision = 0 := by
  intro put
  have hput : putEnvironment (afterRequests deletedEnvironment) 10 1 3 put 2 =
      (.ok (.environment ⟨3, 1, 1, 3, 2⟩ ⟨.record 3, 0, 0⟩ (some ⟨.account, 0, 1⟩)),
        (putEnvironment (afterRequests deletedEnvironment) 10 1 3 put 2).2) :=
    Prod.ext (by decide) rfl
  exact putEnvironment_hasGrant_iff deletedEnvironment_parsed hput (by decide)

end Zvault
