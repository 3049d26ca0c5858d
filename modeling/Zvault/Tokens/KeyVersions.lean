import Zvault.Projects.References
import Zvault.Tokens.Issued

/-!
# Key versions while a token is kept

What one write of the server can do to the environments of a token: their key
versions only grow, unless an environment is deleted, and a deleted environment
stays deleted unless it is put back.
-/

namespace Zvault

open Relational AccessFacts EnvironmentsService ProjectsStore

variable {db db' : Db} {projectId environmentId : Uuid}

namespace TokensService

/-- The access row of an environment in its project. -/
def IsRow (projectId environmentId : Uuid) (r : EnvironmentAccessRow) : Prop :=
  r.projectId = projectId ∧ r.environmentId = environmentId

theorem keyVersion_of_mem {r : EnvironmentAccessRow} (hr : r ∈ db.environmentAccess)
    (his : IsRow projectId environmentId r) :
    keyVersion db projectId environmentId = r.keyVersion := by
  rw [keyVersion]
  cases hlast : (db.environmentAccess.select fun r =>
      r.projectId = projectId ∧ r.environmentId = environmentId).getLast? with
  | none =>
    rw [List.getLast?_eq_none_iff] at hlast
    have hmem : r ∈ db.environmentAccess.select fun r =>
        r.projectId = projectId ∧ r.environmentId = environmentId := by
      rw [Table.mem_select, decide_eq_true_iff]
      exact ⟨hr, his⟩
    rw [hlast] at hmem
    cases hmem
  | some r' =>
    obtain ⟨hr', his'⟩ := Table.mem_select.mp (List.mem_of_getLast? hlast)
    rw [Table.eq_of_key_eq hr' hr ((of_decide_eq_true his').2.trans his.2.symm)]

theorem keyVersion_of_none (h : ∀ r ∈ db.environmentAccess, ¬ IsRow projectId environmentId r) :
    keyVersion db projectId environmentId = 1 := by
  have hnone : (db.environmentAccess.select fun r =>
      r.projectId = projectId ∧ r.environmentId = environmentId) = [] := by
    refine List.filter_eq_nil_iff.mpr fun r hr his => ?_
    have his := of_decide_eq_true his
    exact h r hr his
  rw [keyVersion, hnone]
  rfl

/-- Rows that stay and do not go back, and new rows at the first version or later. -/
theorem keyVersion_mono
    (hkept : ∀ r ∈ db.environmentAccess, IsRow projectId environmentId r →
      ∃ r' ∈ db'.environmentAccess, IsRow projectId environmentId r' ∧ r.keyVersion ≤ r'.keyVersion)
    (hnew : ∀ r' ∈ db'.environmentAccess, IsRow projectId environmentId r' →
      (∃ r ∈ db.environmentAccess, IsRow projectId environmentId r) ∨ 1 ≤ r'.keyVersion) :
    keyVersion db projectId environmentId ≤ keyVersion db' projectId environmentId := by
  by_cases hrow : ∃ r ∈ db.environmentAccess, IsRow projectId environmentId r
  · obtain ⟨r, hr, his⟩ := hrow
    obtain ⟨r', hr', his', hle⟩ := hkept r hr his
    rwa [keyVersion_of_mem hr his, keyVersion_of_mem hr' his']
  · rw [keyVersion_of_none fun r hr his => hrow ⟨r, hr, his⟩]
    by_cases hrow' : ∃ r' ∈ db'.environmentAccess, IsRow projectId environmentId r'
    · obtain ⟨r', hr', his'⟩ := hrow'
      rw [keyVersion_of_mem hr' his']
      exact (hnew r' hr' his').resolve_left hrow
    · rw [keyVersion_of_none fun r hr his => hrow' ⟨r, hr, his⟩]

/-- Upkeep keeps every key version. -/
theorem keyVersion_upkept (h : Upkept db db') :
    keyVersion db' projectId environmentId = keyVersion db projectId environmentId := by
  by_cases hrow : ∃ r ∈ db.environmentAccess, r.environmentId = environmentId
  · obtain ⟨r, hr, rfl⟩ := hrow
    obtain ⟨flag, -, hr'⟩ := h.rows r hr
    by_cases hproject : r.projectId = projectId
    · rw [keyVersion_of_mem hr ⟨hproject, rfl⟩, keyVersion_of_mem hr' ⟨hproject, rfl⟩]
    · rw [keyVersion_of_none, keyVersion_of_none]
      · rintro x hx ⟨rfl, hid⟩
        exact hproject (congrArg _ (Table.eq_of_key_eq hr hx hid.symm))
      · rintro x hx ⟨rfl, hid⟩
        rw [Table.eq_of_key_eq hx hr' hid] at hproject
        exact hproject rfl
  · rw [keyVersion_of_none fun x hx his => hrow ⟨x, hx, his.2⟩]
    by_cases hrow' : ∃ x ∈ db'.environmentAccess, IsRow projectId environmentId x
    · obtain ⟨x, hx, his⟩ := hrow'
      rw [keyVersion_of_mem hx his]
      rcases h.fresh x hx with ⟨r, hr, hid⟩ | ⟨hversion, -⟩
      · exact absurd ⟨r, hr, hid.trans his.2⟩ hrow
      · exact hversion
    · exact keyVersion_of_none fun x hx his => hrow' ⟨x, hx, his⟩

end TokensService

open TokensService

/-- What one write does to an environment: its key version does not go back, or it is deleted;
and once deleted it is deleted or put back. -/
structure VersionKept (projectId environmentId : Uuid) (db db' : Db) : Prop where
  version : IsTombstone db' projectId environmentId ∨
    keyVersion db projectId environmentId ≤ keyVersion db' projectId environmentId
  tombstone : IsTombstone db projectId environmentId →
    IsTombstone db' projectId environmentId ∨ Live db' .environment projectId environmentId

namespace VersionKept

/-- Neither the entries nor the versions change. -/
theorem of_same (hentries : db'.projectEntries = db.projectEntries)
    (hversion : keyVersion db' projectId environmentId = keyVersion db projectId environmentId) :
    VersionKept projectId environmentId db db' := by
  refine ⟨Or.inr hversion.ge, fun hgone => Or.inl ?_⟩
  rwa [IsTombstone, hentries]

theorem upkept (h : Upkept db db') : VersionKept projectId environmentId db db' :=
  of_same h.projectEntries (keyVersion_upkept h)

theorem rotated {env : Env} {accountId : Uuid} {req : RotateEnvironmentKeyRequest}
    {now : Timestamp} (h : Rotated db db' env accountId req now) :
    VersionKept projectId environmentId db db' := by
  refine ⟨Or.inr (keyVersion_mono (fun r hr his => ?_) fun r' hr' his' => ?_), fun hgone =>
    Or.inl ((Referential.moved h.moved).2.mpr hgone)⟩
  · refine ⟨_, (h.environmentAccess _).mpr ⟨r, hr, rfl⟩, ?_⟩
    split
    · rename_i hid
      obtain ⟨r₀, hr₀, hid₀, hversion⟩ := h.current
      obtain rfl := Table.eq_of_key_eq hr hr₀ (hid.trans hid₀.symm)
      exact ⟨his, by simp [hversion]⟩
    · exact ⟨his, le_rfl⟩
  · obtain ⟨r₀, hr₀, rfl⟩ := (h.environmentAccess r').mp hr'
    refine Or.inl ⟨r₀, hr₀, ?_⟩
    split at his' <;> exact his'

/-- A write of an entry. -/
theorem written {w : EntryWrite} {seq : ℕ} (h : Written db db' w seq) :
    VersionKept projectId environmentId db db' := by
  by_cases hkey : w.type = .environment ∧ (w.projectId, w.id) = (projectId, environmentId)
  · obtain ⟨htype, hkey⟩ := hkey
    have hmem : writtenRow w seq ∈ db'.projectEntries := (h.entries _).mpr (Or.inr rfl)
    cases hmeta : w.encryptedMeta with
    | none =>
      have hgone : IsTombstone db' projectId environmentId :=
        ⟨_, hmem, hkey, htype, by simp [writtenRow, hmeta]⟩
      exact ⟨Or.inl hgone, fun _ => Or.inl hgone⟩
    | some blob =>
      have hlive : Live db' .environment projectId environmentId :=
        live_iff.mpr ⟨_, hmem, hkey, htype, by simp [writtenRow, hmeta]⟩
      refine ⟨Or.inr ?_, fun _ => Or.inr hlive⟩
      refine keyVersion_mono (fun r hr his => ⟨r, ?_, his, le_rfl⟩) fun r hr his => Or.inl ⟨r, ?_, his⟩
      · rw [h.environmentAccess, mem_writeContent_environmentAccess]
        exact ⟨hr, fun hgone => by simp [hgone.2.1] at hmeta⟩
      · rw [h.environmentAccess, mem_writeContent_environmentAccess] at hr
        exact hr.1
  · refine ⟨Or.inr (keyVersion_mono (fun r hr his => ⟨r, ?_, his, le_rfl⟩)
      fun r hr his => Or.inl ⟨r, ?_, his⟩), fun hgone => Or.inl ?_⟩
    · rw [h.environmentAccess, mem_writeContent_environmentAccess]
      refine ⟨hr, fun hgone => hkey ⟨hgone.1, ?_⟩⟩
      obtain ⟨-, -, hproject, hid⟩ := hgone
      rw [← his.1, ← his.2, hproject, hid]
    · rw [h.environmentAccess, mem_writeContent_environmentAccess] at hr
      exact hr.1
    · obtain ⟨e, he, hekey, htype, hdeleted⟩ := hgone
      refine ⟨e, (h.entries e).mpr (Or.inl ⟨he, fun hsame => hkey ⟨?_, hsame.symm.trans hekey⟩⟩),
        hekey, htype, hdeleted⟩
      -- an accepted write has the type of the entry it replaces
      obtain ⟨hsametype, -⟩ := entryRefusal_eq_none h.accepted
      exact (hsametype e (Table.find_eq_some.mpr ⟨he, hsame⟩)).symm.trans htype

end VersionKept

end Zvault
