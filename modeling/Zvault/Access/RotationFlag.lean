import Zvault.Access.Rotation
import Zvault.Access.Upkeep
import Zvault.Db.Schema

/-!
# The rotation flag over whole runs

Whoever loses the current key of an environment leaves its rotation flag set,
however the requests in between are ordered. Every write keeps a relation
between the databases before and after it that is transitive, so runs keep it:
key versions only grow, and while an environment's version stays, its flag stays
set and its holders stay unless the flag is set.
-/

namespace Zvault

open Relational Relation

/-- What no request undoes for an environment as long as its key version stays. -/
structure FlagsLosses (db db' : Db) (environmentId : Uuid) : Prop where
  /-- Key versions only grow. -/
  version : keyVersionOf db environmentId ≤ keyVersionOf db' environmentId
  /-- The flag is only cleared along with a new version. -/
  flag : keyVersionOf db environmentId = keyVersionOf db' environmentId →
    RotationRequired db environmentId → RotationRequired db' environmentId
  /-- Whoever held the key still does, or the flag is set. -/
  holders : keyVersionOf db environmentId = keyVersionOf db' environmentId →
    ∀ projectId accountId, HoldsEnvironmentKey db projectId environmentId accountId →
      HoldsEnvironmentKey db' projectId environmentId accountId ∨
        RotationRequired db' environmentId

namespace FlagsLosses

variable {db db' db'' : Db} {environmentId : Uuid}

theorem refl (db : Db) (environmentId : Uuid) : FlagsLosses db db environmentId :=
  ⟨le_rfl, fun _ h => h, fun _ _ _ h => Or.inl h⟩

theorem trans (h : FlagsLosses db db' environmentId) (h' : FlagsLosses db' db'' environmentId) :
    FlagsLosses db db'' environmentId := by
  have hversions (heq : keyVersionOf db environmentId = keyVersionOf db'' environmentId) :
      keyVersionOf db environmentId = keyVersionOf db' environmentId ∧
        keyVersionOf db' environmentId = keyVersionOf db'' environmentId := by
    have := h.version
    have := h'.version
    omega
  refine ⟨h.version.trans h'.version, fun heq hflag => ?_, fun heq projectId accountId hheld => ?_⟩
  · exact h'.flag (hversions heq).2 (h.flag (hversions heq).1 hflag)
  · rcases h.holders (hversions heq).1 projectId accountId hheld with hheld | hflag
    · exact h'.holders (hversions heq).2 projectId accountId hheld
    · exact Or.inr (h'.flag (hversions heq).2 hflag)

/-- Upkeep moves no key version, and flags the environments that lose a holder. -/
theorem of_upkept (h : Upkept db db') (environmentId : Uuid) :
    FlagsLosses db db' environmentId := by
  refine ⟨(h.keyVersionOf environmentId).ge, fun _ => ?_, fun _ projectId accountId => ?_⟩
  · rintro ⟨r, hr, hid, hflag⟩
    obtain ⟨flag, hmono, hmem⟩ := h.rows r hr
    exact ⟨_, hmem, hid, hmono hflag⟩
  · rintro ⟨hne, g, hg, rfl, rfl, rfl⟩
    by_cases hkept : g ∈ db'.keyGrants
    · exact Or.inl ⟨hne, g, hkept, rfl, rfl, rfl⟩
    · exact Or.inr (h.lost g hg hkept hne)

/-- Adding wraps takes nothing away. -/
theorem of_wraps (db : Db) (projectId resourceId : Uuid) (keyVersion : Option ℕ)
    (wrappedBy : Uuid) (wraps : List MemberKeyWrap) (environmentId : Uuid) :
    FlagsLosses db (EnvironmentsService.insertWraps db projectId resourceId keyVersion wrappedBy
      wraps).2 environmentId := by
  unfold EnvironmentsService.insertWraps
  split
  · refine ⟨le_rfl, fun _ h => h, fun _ p a => ?_⟩
    rintro ⟨hne, g, hg, hp, hres, hacc⟩
    exact Or.inl ⟨hne, g, Table.mem_insertNewAll_of_mem hg, hp, hres, hacc⟩
  · exact refl db environmentId

/-- A rotation moves its environment to a new version and leaves the others alone. -/
theorem of_rotated {env : Env} {accountId : Uuid} {req : RotateEnvironmentKeyRequest}
    {now : Timestamp} (h : EnvironmentsService.Rotated db db' env accountId req now)
    (environmentId : Uuid) : FlagsLosses db db' environmentId := by
  by_cases heq : environmentId = env.environmentId
  · subst heq
    obtain ⟨hold, hnew⟩ := h.keyVersionOf_self
    refine ⟨by omega, fun hsame => ?_, fun hsame => ?_⟩ <;> omega
  · have hrow {r : EnvironmentAccessRow} (hid : r.environmentId = environmentId) :
        r ∈ db'.environmentAccess ↔ r ∈ db.environmentAccess :=
      h.mem_row_iff (hid ▸ heq)
    refine ⟨(h.keyVersionOf_ne heq).ge, fun _ => ?_, fun _ p a => ?_⟩
    · rintro ⟨r, hr, hid, hflag⟩
      exact ⟨r, (hrow hid).mpr hr, hid, hflag⟩
    · rintro ⟨hne, g, hg, hp, hres, hacc⟩
      refine Or.inl ⟨hne, g, (h.keyGrants g).mpr (Or.inl ⟨hg, ?_⟩), hp, hres, hacc⟩
      exact fun hgrant => heq (hres.symm.trans hgrant.2)

/-- Every write of the access service. -/
theorem of_write (h : AccessWrite db db') (environmentId : Uuid) :
    FlagsLosses db db' environmentId := by
  cases h with
  | upkeep h => exact of_upkept h.upkept environmentId
  | wraps projectId resourceId keyVersion wrappedBy wraps =>
    exact of_wraps db projectId resourceId keyVersion wrappedBy wraps environmentId
  | rotation env accountId req now =>
    cases htx : EnvironmentsService.rotateTx db env accountId req now with
    | mk answer db' =>
      cases answer with
      | error e =>
        obtain rfl := EnvironmentsService.rotateTx_error htx
        exact refl _ environmentId
      | ok _ => exact of_rotated (EnvironmentsService.rotateTx_ok htx) environmentId

/-- Chains of writes. -/
theorem of_writes (h : AccessWrites db db') (environmentId : Uuid) :
    FlagsLosses db db' environmentId := by
  induction h with
  | refl => exact refl db environmentId
  | tail _ hwrite ih => exact ih.trans (of_write hwrite environmentId)

end FlagsLosses

/-- A run of the access service: requests served one after another. -/
def serveAll (db : Db) (reqs : List AccessRequest) : Db := reqs.foldl AccessRequest.serve db

/-- Every run. -/
theorem FlagsLosses.of_serveAll (db : Db) (reqs : List AccessRequest) (environmentId : Uuid) :
    FlagsLosses db (serveAll db reqs) environmentId := by
  induction reqs generalizing db with
  | nil => exact refl db environmentId
  | cons req reqs ih => exact (of_writes (req.serve_writes db) environmentId).trans (ih _)

/-- **The rotation flag over whole runs.** Whoever held an environment's key at some point
of a run, at the version the environment still has at its end, holds it there too or the
environment is flagged for rotation. -/
theorem rotationRequired_of_lost_key (db : Db) (before after : List AccessRequest)
    (projectId environmentId accountId : Uuid)
    (hheld : HoldsEnvironmentKey (serveAll db before) projectId environmentId accountId)
    (hversion : keyVersionOf (serveAll db before) environmentId =
      keyVersionOf (serveAll db (before ++ after)) environmentId)
    (hlost : ¬HoldsEnvironmentKey (serveAll db (before ++ after)) projectId environmentId
      accountId) :
    RotationRequired (serveAll db (before ++ after)) environmentId := by
  have hrun : serveAll db (before ++ after) = serveAll (serveAll db before) after :=
    List.foldl_append
  rw [hrun] at hversion hlost ⊢
  have hflags := FlagsLosses.of_serveAll (serveAll db before) after environmentId
  exact (hflags.holders hversion projectId accountId hheld).resolve_left hlost

/-- In `teamProject` account 11's grant ends at 100, and the next read takes the key. -/
theorem rotationRequired_of_expired_key :
    RotationRequired (serveAll AccessFacts.teamProject [.beforeAccess 1 99, .beforeAccess 1 100])
      2 :=
  rotationRequired_of_lost_key AccessFacts.teamProject [.beforeAccess 1 99] [.beforeAccess 1 100]
    1 2 11 (by decide) (by decide) (by decide)

end Zvault
