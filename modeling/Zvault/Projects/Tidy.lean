import Zvault.Projects.History
import Zvault.Projects.References

/-!
# What a write leaves of the other entries

An entry has a revision, and metadata exactly while it is live, and no value is
left of an environment that was deleted. A secret that a write does not revise then keeps
the environments it has values for, but for those that the write deletes.
-/

namespace Zvault

open Relational ProjectsStore EnvironmentsService

/-- Entries have a revision, and metadata while they are live, and no value belongs to a deleted
environment. -/
structure Tidy (db : Db) : Prop where
  entries : ∀ e ∈ db.projectEntries, e.deleted = decide (e.encryptedMeta = none)
  revised : ∀ e ∈ db.projectEntries, 0 < e.revision
  values : ∀ v ∈ db.secretValues, ¬ IsTombstone db v.projectId v.environmentId

namespace Tidy

variable {db db' : Db}

theorem of_same (h : Tidy db) (hentries : db'.projectEntries = db.projectEntries)
    (hvalues : db'.secretValues = db.secretValues) : Tidy db' := by
  refine ⟨fun e he => h.entries e (hentries ▸ he), fun e he => h.revised e (hentries ▸ he),
    fun v hv => ?_⟩
  rw [IsTombstone, hentries]
  exact h.values v (hvalues ▸ hv)

theorem written (h : Tidy db) {w : EntryWrite} {seq : ℕ} (hw : Written db db' w seq) :
    Tidy db' := by
  refine ⟨fun e he => ?_, fun e he => ?_, fun v hv => ?_⟩
  · rcases (hw.entries e).mp he with ⟨hold, -⟩ | rfl
    · exact h.entries e hold
    · rfl
  · rcases (hw.entries e).mp he with ⟨hold, -⟩ | rfl
    · exact h.revised e hold
    · exact Nat.succ_pos _
  · rintro ⟨e, he, hkey, htype, hdeleted⟩
    rw [hw.secretValues] at hv
    rcases mem_writeContent_secretValues hv with ⟨hold, hkept⟩ | ⟨hsecret, hproject, hnew⟩
    · rcases (hw.entries e).mp he with ⟨he, -⟩ | rfl
      · exact h.values v hold ⟨e, he, hkey, htype, hdeleted⟩
      · obtain ⟨hp, hid⟩ := Prod.mk.inj hkey
        exact hkept ⟨htype, of_decide_eq_true hdeleted, hp.symm, hid.symm⟩
    · rcases (hw.entries e).mp he with ⟨he, -⟩ | rfl
      · obtain ⟨e', he', hp, hlive, hid⟩ := hw.values_live (List.mem_map_of_mem hnew)
        have hsame : e = e' := Table.eq_of_key_eq he he'
          (hkey.trans (Prod.ext (hproject.trans hp.symm) hid.symm))
        have hboth : e'.type = .environment ∧ e'.deleted = false := of_decide_eq_true hlive
        rw [hsame, hboth.2] at hdeleted
        cases hdeleted
      · have hboth : EntryType.secret = .environment := hsecret.symm.trans htype
        cases hboth

theorem rotated (h : Tidy db) {env : Env} {accountId : Uuid} {req : RotateEnvironmentKeyRequest}
    {now : Timestamp} (hr : Rotated db db' env accountId req now) : Tidy db' := by
  have hmoved : ∀ e ∈ db'.projectEntries, ∃ e₀ ∈ db.projectEntries, ∃ seq updatedAt,
      e = { e₀ with seq := seq, updatedAt := updatedAt } := by
    intro e he
    obtain ⟨f, hf, hfield⟩ := hr.moved
    rw [← Table.mem_rows, hf] at he
    obtain ⟨e₀, he₀, rfl⟩ := List.mem_map.mp he
    exact ⟨e₀, he₀, hfield e₀⟩
  refine ⟨fun e he => ?_, fun e he => ?_, fun v hv => ?_⟩
  · obtain ⟨e₀, he₀, seq, updatedAt, rfl⟩ := hmoved e he
    exact h.entries e₀ he₀
  · obtain ⟨e₀, he₀, seq, updatedAt, rfl⟩ := hmoved e he
    exact h.revised e₀ he₀
  · obtain ⟨v₀, hv₀, rfl⟩ := (hr.secretValues v).mp hv
    have hkey := reseal_key env now req.values v₀
    have hproject : (reseal env now req.values v₀).projectId = v₀.projectId :=
      congrArg Prod.fst hkey
    have henvironment : (reseal env now req.values v₀).environmentId = v₀.environmentId :=
      congrArg (fun k => k.2.2) hkey
    rw [hproject, henvironment, (Referential.moved hr.moved).2]
    exact h.values v₀ hv₀

/-- A new project's environments are live. -/
theorem created (h : Tidy db) {p : NewProject} (hcreated : Created db db' p) : Tidy db' := by
  refine ⟨fun e he => ?_, fun e he => ?_, fun v hv => ?_⟩
  · rcases (hcreated.entries e).mp he with hold | ⟨i, hi, rfl⟩
    · exact h.entries e hold
    · rfl
  · rcases (hcreated.entries e).mp he with hold | ⟨i, hi, rfl⟩
    · exact h.revised e hold
    · exact Nat.one_pos
  · rintro ⟨e, he, hkey, htype, hdeleted⟩
    rw [hcreated.frame] at hv
    rcases (hcreated.entries e).mp he with hold | ⟨i, hi, rfl⟩
    · exact h.values v hv ⟨e, hold, hkey, htype, hdeleted⟩
    · cases hdeleted

theorem deleteProject (h : Tidy db) (projectId : Uuid) :
    Tidy (ProjectsStore.deleteProject db projectId) := by
  refine ⟨fun e he => h.entries e (Table.mem_delete.mp he).1,
    fun e he => h.revised e (Table.mem_delete.mp he).1, fun v hv => ?_⟩
  rintro ⟨e, he, hgone⟩
  exact h.values v (Table.mem_delete.mp hv).1 ⟨e, (Table.mem_delete.mp he).1, hgone⟩

theorem storeWrite (h : Tidy db) (hwrite : StoreWrite db db') : Tidy db' := by
  cases hwrite with
  | create p hcreate => exact h.created (createProject_eq_some hcreate)
  | entry w =>
    rcases writeEntry_cases db w with ⟨seq, hw, -⟩ | ⟨hsame, -⟩
    · exact h.written hw
    · rwa [hsame]
  | update id baseRevision encryptedMeta now hupdate =>
    unfold updateProject at hupdate
    split at hupdate
    · cases hupdate
      exact h.of_same rfl rfl
    · cases hupdate
  | purge id secretId before => exact h.of_same rfl rfl
  | purgeExpired before => exact h.of_same rfl rfl
  | access haccess =>
    cases haccess with
    | upkeep hupkeep => exact h.of_same hupkeep.upkept.projectEntries hupkeep.upkept.secretValues
    | wraps p resourceId keyVersion wrappedBy wraps =>
      unfold insertWraps
      split
      · exact h.of_same rfl rfl
      · exact h
    | rotation env accountId req now =>
      cases htx : rotateTx db env accountId req now with
      | mk answer db' =>
        cases answer with
        | error e =>
          obtain rfl := rotateTx_error htx
          exact h
        | ok _ => exact h.rotated (rotateTx_ok htx)

end Tidy

theorem Reachable.tidy {db : Db} (h : Reachable db) : Tidy db := by
  induction h with
  | empty =>
    exact ⟨fun e he => absurd he (Table.not_mem_empty _),
      fun e he => absurd he (Table.not_mem_empty _), fun v hv => absurd hv (Table.not_mem_empty _)⟩
  | write _ hwrite ih => exact ih.storeWrite hwrite
  | deleteProject _ projectId ih => exact ih.deleteProject projectId

/-- A value is stored. -/
def HasValue (db : Db) (projectId secretId environmentId : Uuid) : Prop :=
  (valueOf db projectId secretId environmentId).isSome = true

section HasValue

variable {db db' : Db} {projectId secretId environmentId : Uuid}

theorem hasValue_iff : HasValue db projectId secretId environmentId ↔
    ∃ v ∈ db.secretValues, v.projectId = projectId ∧ v.secretId = secretId ∧
      v.environmentId = environmentId := by
  unfold HasValue valueOf
  rw [Option.isSome_map, Option.isSome_iff_exists]
  refine exists_congr fun v => ?_
  rw [Table.find_eq_some]
  refine and_congr_right fun _ => ?_
  rw [SecretValueRow.key, Prod.mk.injEq, Prod.mk.injEq]

theorem Tidy.hasValue (h : Tidy db) (hvalue : HasValue db projectId secretId environmentId) :
    ¬ IsTombstone db projectId environmentId := by
  obtain ⟨v, hv, rfl, -, rfl⟩ := hasValue_iff.mp hvalue
  exact h.values v hv

theorem hasValue_congr (hvalues : db'.secretValues = db.secretValues) :
    HasValue db' projectId secretId environmentId ↔
      HasValue db projectId secretId environmentId := by
  rw [HasValue, HasValue, valueOf, valueOf, hvalues]

theorem hasValue_rotated {env : Env} {accountId : Uuid} {req : RotateEnvironmentKeyRequest}
    {now : Timestamp} (hr : Rotated db db' env accountId req now) :
    HasValue db' projectId secretId environmentId ↔
      HasValue db projectId secretId environmentId := by
  rw [HasValue, HasValue, valueOf, valueOf,
    Table.find_of_mem_iff (reseal_key env now req.values) hr.secretValues, Option.isSome_map,
    Option.isSome_map, Option.isSome_map]

/-- A write of another entry leaves the values of a secret, but for those of an environment that it
deletes. -/
theorem hasValue_written {w : EntryWrite} {seq : ℕ} (hw : Written db db' w seq)
    (hother : (w.projectId, w.id) ≠ (projectId, secretId)) :
    HasValue db' projectId secretId environmentId ↔
      HasValue db projectId secretId environmentId ∧ ¬ w.Deletes projectId environmentId := by
  rw [HasValue, hw.valueOf_of_ne hother]
  split
  · rename_i hdeletes
    obtain ⟨⟨hproject, htype, hmeta⟩, hid⟩ := hdeletes
    refine iff_of_false (by simp) fun h => h.2 ⟨htype, hmeta, hproject.symm, hid⟩
  · rename_i hkeeps
    refine (and_iff_left ?_).symm
    rintro ⟨htype, hmeta, hproject, hid⟩
    exact hkeeps ⟨⟨hproject.symm, htype, hmeta⟩, hid⟩

/-- A secret that keeps its revision keeps the environments it has values for, but for those that
are deleted. -/
theorem StoreWrite.hasValue_iff (hwrite : StoreWrite db db') (h : Tidy db)
    {e e' : EntryRow} (he : e ∈ entriesOf db projectId) (he' : e' ∈ entriesOf db' projectId)
    (hid : e'.id = e.id) (hrevision : e'.revision = e.revision) :
    HasValue db' projectId e.id environmentId ↔
      HasValue db projectId e.id environmentId ∧ ¬ IsTombstone db' projectId environmentId := by
  have htidy := h.storeWrite hwrite
  -- the values are as they were, so none is of an environment that is deleted now
  have hsame : (HasValue db' projectId e.id environmentId ↔
      HasValue db projectId e.id environmentId) →
      (HasValue db' projectId e.id environmentId ↔
        HasValue db projectId e.id environmentId ∧ ¬ IsTombstone db' projectId environmentId) := by
    intro hiff
    refine ⟨fun hvalue => ⟨hiff.mp hvalue, htidy.hasValue hvalue⟩, fun hvalue => hiff.mpr hvalue.1⟩
  cases hwrite with
  | create p hcreate =>
    have hframe := (createProject_eq_some hcreate).frame
    exact hsame (hasValue_congr (by rw [hframe]))
  | entry w =>
    rcases writeEntry_cases db w with ⟨seq, hw, -⟩ | ⟨hunchanged, -⟩
    · have hother : (w.projectId, w.id) ≠ (projectId, e.id) := by
        intro hkey
        obtain ⟨hp, hwid⟩ := Prod.mk.inj hkey
        obtain ⟨he', hp'⟩ := mem_entriesOf.mp he'
        have hfind : db.projectEntries.find (w.projectId, w.id) = some e :=
          Table.find_eq_some.mpr ⟨(mem_entriesOf.mp he).1,
            Prod.ext ((mem_entriesOf.mp he).2.trans hp.symm) hwid.symm⟩
        have hbase := (entryRefusal_eq_none hw.accepted).2.1
        rw [hfind, Option.map_some, Option.getD_some] at hbase
        rcases (hw.entries e').mp he' with ⟨-, hne⟩ | rfl
        · exact hne (Prod.ext (hp'.trans hp.symm) (hid.trans hwid.symm))
        · have hnew : (writtenRow w seq).revision = w.baseRevision + 1 := rfl
          omega
      rw [hasValue_written hw hother]
      refine and_congr_right fun hvalue => not_congr ?_
      constructor
      · rintro ⟨htype, hmeta, rfl, rfl⟩
        exact ⟨writtenRow w seq, (hw.entries _).mpr (Or.inr rfl), rfl, htype, decide_eq_true hmeta⟩
      · rintro ⟨r, hr, hkey, htype, hdeleted⟩
        rcases (hw.entries r).mp hr with ⟨hold, -⟩ | rfl
        · exact absurd ⟨r, hold, hkey, htype, hdeleted⟩ (h.hasValue hvalue)
        · obtain ⟨hp, henv⟩ := Prod.mk.inj hkey
          exact ⟨htype, of_decide_eq_true hdeleted, hp.symm, henv.symm⟩
    · rw [hunchanged] at hsame ⊢
      exact hsame Iff.rfl
  | update id baseRevision encryptedMeta now hupdate =>
    unfold updateProject at hupdate
    split at hupdate
    · cases hupdate
      exact hsame (hasValue_congr rfl)
    · cases hupdate
  | purge id secretId before => exact hsame (hasValue_congr rfl)
  | purgeExpired before => exact hsame (hasValue_congr rfl)
  | access haccess =>
    cases haccess with
    | upkeep hupkeep => exact hsame (hasValue_congr hupkeep.upkept.secretValues)
    | wraps p resourceId keyVersion wrappedBy wraps =>
      refine hsame (hasValue_congr ?_)
      unfold insertWraps
      split <;> rfl
    | rotation env accountId req now =>
      refine hsame ?_
      cases htx : rotateTx db env accountId req now with
      | mk answer db'' =>
        cases answer with
        | error err =>
          obtain rfl := rotateTx_error htx
          exact Iff.rfl
        | ok _ => exact hasValue_rotated (rotateTx_ok htx)

end HasValue

end Zvault
