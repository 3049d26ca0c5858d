import Zvault.Access.Reconcile
import Zvault.Access.Requests
import Zvault.Db.Schema

/-!
# What upkeep leaves alone

Directory changes, registration and reconciling only take key grants away, keep
every access row but its flag, and flag the environment of every key grant they
take. `Upkept` says this once, for chains of any length.
-/

namespace Zvault

open Relational Relation AccessFacts

/-- Everything a chain of upkeep can change in what the projects store reads, and in the
access rows. -/
structure Upkept (db db' : Db) : Prop where
  projects : db'.projects = db.projects
  projectEntries : db'.projectEntries = db.projectEntries
  secretValues : db'.secretValues = db.secretValues
  secretVersions : db'.secretVersions = db.secretVersions
  /-- Key grants are only taken away. -/
  keyGrants : ∀ g ∈ db'.keyGrants, g ∈ db.keyGrants
  /-- Access rows stay, and so do their flags. -/
  rows : ∀ r ∈ db.environmentAccess, ∃ flag : Option Timestamp,
    (r.rotationRequiredAt.isSome = true → flag.isSome = true) ∧
      { r with rotationRequiredAt := flag } ∈ db'.environmentAccess
  /-- New access rows are those of live environments, at key version 1. -/
  fresh : ∀ r' ∈ db'.environmentAccess,
    (∃ r ∈ db.environmentAccess, r.environmentId = r'.environmentId) ∨
      (r'.keyVersion = 1 ∧ r'.environmentId ∈ environmentIds db r'.projectId)
  /-- An environment that lost a holder is flagged. -/
  lost : ∀ g ∈ db.keyGrants, g ∉ db'.keyGrants → g.resourceId ≠ g.projectId →
    ∃ r ∈ db'.environmentAccess,
      r.environmentId = g.resourceId ∧ r.rotationRequiredAt.isSome = true

namespace Upkept

variable {db db' db'' : Db}

/-- Nothing outside the directory changed. -/
theorem directory (h : SameOutsideDirectory db db') : Upkept db db' where
  projects := h.projects
  projectEntries := h.projectEntries
  secretValues := h.secretValues
  secretVersions := h.secretVersions
  keyGrants _ hg := h.keyGrants ▸ hg
  rows r hr := ⟨r.rotationRequiredAt, id, h.environmentAccess ▸ hr⟩
  fresh r hr := Or.inl ⟨r, h.environmentAccess ▸ hr, rfl⟩
  lost _ hg hlost := absurd (h.keyGrants ▸ hg) hlost

theorem refl (db : Db) : Upkept db db :=
  directory ⟨rfl, rfl, rfl, rfl, rfl, rfl⟩

/-- The access row an upkept row comes from agrees with it in everything but the flag. -/
theorem row_eq (h : Upkept db db') {r r' : EnvironmentAccessRow} (hr : r ∈ db.environmentAccess)
    (hr' : r' ∈ db'.environmentAccess) (hid : r'.environmentId = r.environmentId) :
    r' = { r with rotationRequiredAt := r'.rotationRequiredAt } ∧
      (r.rotationRequiredAt.isSome = true → r'.rotationRequiredAt.isSome = true) := by
  obtain ⟨flag, hflag, hmem⟩ := h.rows r hr
  obtain rfl := Table.eq_of_key_eq hr' hmem hid
  exact ⟨rfl, hflag⟩

theorem environmentIds (h : Upkept db db') (projectId : Uuid) :
    environmentIds db' projectId = AccessFacts.environmentIds db projectId := by
  simp only [AccessFacts.environmentIds, h.projectEntries]

/-- Key versions stay: an access row that appears is at the version its environment had. -/
theorem keyVersionOf (h : Upkept db db') (environmentId : Uuid) :
    keyVersionOf db' environmentId = Zvault.keyVersionOf db environmentId := by
  by_cases hrow : ∃ r ∈ db.environmentAccess, r.environmentId = environmentId
  · obtain ⟨r, hr, rfl⟩ := hrow
    obtain ⟨flag, _, hmem⟩ := h.rows r hr
    exact (keyVersionOf_eq hmem).trans (keyVersionOf_eq hr).symm
  · have hnone : ∀ r ∈ db.environmentAccess, r.environmentId ≠ environmentId :=
      fun r hr hid => hrow ⟨r, hr, hid⟩
    rw [keyVersionOf_eq_one hnone]
    by_cases hrow' : ∃ r ∈ db'.environmentAccess, r.environmentId = environmentId
    · obtain ⟨r', hr', rfl⟩ := hrow'
      rcases h.fresh r' hr' with ⟨r, hr, hid⟩ | ⟨hversion, _⟩
      · exact absurd hid (hnone r hr)
      · rw [keyVersionOf_eq hr', hversion]
    · exact keyVersionOf_eq_one fun r hr hid => hrow' ⟨r, hr, hid⟩

theorem trans (h : Upkept db db') (h' : Upkept db' db'') : Upkept db db'' where
  projects := h'.projects.trans h.projects
  projectEntries := h'.projectEntries.trans h.projectEntries
  secretValues := h'.secretValues.trans h.secretValues
  secretVersions := h'.secretVersions.trans h.secretVersions
  keyGrants g hg := h.keyGrants g (h'.keyGrants g hg)
  rows r hr := by
    obtain ⟨flag, hflag, hmem⟩ := h.rows r hr
    obtain ⟨flag', hflag', hmem'⟩ := h'.rows _ hmem
    exact ⟨flag', fun hsome => hflag' (hflag hsome), hmem'⟩
  fresh r' hr' := by
    rcases h'.fresh r' hr' with ⟨r, hr, hid⟩ | ⟨hversion, hlive⟩
    · rcases h.fresh r hr with ⟨r₀, hr₀, hid₀⟩ | ⟨hversion, hlive⟩
      · exact Or.inl ⟨r₀, hr₀, hid₀.trans hid⟩
      · rw [(h'.row_eq hr hr' hid.symm).1]
        exact Or.inr ⟨hversion, hlive⟩
    · rw [h.environmentIds] at hlive
      exact Or.inr ⟨hversion, hlive⟩
  lost g hg hlost hkey := by
    by_cases hkept : g ∈ db'.keyGrants
    · exact h'.lost g hkept hlost hkey
    · obtain ⟨r, hr, hid, hflag⟩ := h.lost g hg hkept hkey
      obtain ⟨flag, hmono, hmem⟩ := h'.rows r hr
      exact ⟨_, hmem, hid, hmono hflag⟩

/-- Registering takes no grant and keeps the rows there are. -/
theorem register (db : Db) (project : LinkedProject) (now : Timestamp) :
    Upkept db (register db project now).2 := by
  have hsame := register_same db project now
  refine ⟨hsame.projects, hsame.projectEntries, hsame.secretValues, hsame.secretVersions,
    fun g hg => hsame.keyGrants ▸ hg, ?_, ?_, fun g hg hlost => absurd (hsame.keyGrants ▸ hg) hlost⟩
  · intro r hr
    exact ⟨r.rotationRequiredAt, id, mem_register_environmentAccess.mpr (Or.inl hr)⟩
  · intro r hr
    rcases mem_register_environmentAccess.mp hr with hr | ⟨id, hid, rfl⟩
    · exact Or.inl ⟨r, hr, rfl⟩
    · exact Or.inr ⟨rfl, (mem_unregistered.mp hid).1⟩

/-- Reconciling takes grants and flags the environments they belong to. -/
theorem reconciled {project : LinkedProject} {now : Timestamp}
    (h : Reconciled db db' project now) (hdb : unregistered db project.projectId = []) :
    Upkept db db' := by
  have hflagged (r : EnvironmentAccessRow) (hr : r ∈ db.environmentAccess) :
      ∃ flag : Option Timestamp, (r.rotationRequiredAt.isSome = true → flag.isSome = true) ∧
        (LostHolder db db' project.projectId r.environmentId → r.environmentId ≠ project.projectId →
          flag.isSome = true) ∧
        { r with rotationRequiredAt := flag } ∈ db'.environmentAccess := by
    by_cases hnew : NewlyFlagged db db' project.projectId r
    · exact ⟨some now, fun _ => rfl, fun _ _ => rfl,
        (h.environmentAccess _).mpr ⟨r, hr, Or.inl ⟨hnew, rfl⟩⟩⟩
    · refine ⟨r.rotationRequiredAt, id, ?_, (h.environmentAccess _).mpr ⟨r, hr, Or.inr ⟨hnew, rfl⟩⟩⟩
      intro hlost hne
      by_contra hnone
      exact hnew ⟨hne, hlost, by simpa using hnone⟩
  refine ⟨by rw [h.frame], by rw [h.frame], by rw [h.frame], by rw [h.frame],
    fun g hg => ((h.keyGrants g).mp hg).1, ?_, ?_, ?_⟩
  · intro r hr
    obtain ⟨flag, hmono, _, hmem⟩ := hflagged r hr
    exact ⟨flag, hmono, hmem⟩
  · intro r' hr'
    obtain ⟨r, hr, ⟨_, rfl⟩ | ⟨_, rfl⟩⟩ := (h.environmentAccess r').mp hr'
    · exact Or.inl ⟨r, hr, rfl⟩
    · exact Or.inl ⟨r', hr, rfl⟩
  · intro g hg hlost hkey
    have hnot : g.projectId = project.projectId ∧ ¬Entitled db project now g := by
      by_contra hkept
      rw [not_and, not_not] at hkept
      exact hlost ((h.keyGrants g).mpr ⟨hg, hkept⟩)
    have hne : g.resourceId ≠ project.projectId := hnot.1 ▸ hkey
    have hlive : g.resourceId ∈ AccessFacts.environmentIds db project.projectId := by
      by_contra hdead
      apply hnot.2
      rw [Entitled, if_neg hne]
      exact fun hid => absurd hid hdead
    obtain ⟨r, hr, hid⟩ := unregistered_eq_nil_iff.mp hdb _ hlive
    obtain ⟨flag, _, hflag, hmem⟩ := hflagged r hr
    exact ⟨_, hmem, hid, hflag ⟨g, hg, hnot.1, hid.symm, hlost⟩ (hid ▸ hne)⟩

theorem reconcile (db : Db) (projectId : Uuid) (now : Timestamp) :
    Upkept db (reconcileProject db projectId now) := by
  cases hlinked : linkedProject db projectId with
  | none =>
    rw [reconcileProject, hlinked]
    exact refl db
  | some project =>
    exact (register db project now).trans
      (reconciled (reconcileProject_reconciled now hlinked) (unregistered_register db project now))

end Upkept

/-- One write of upkeep. -/
theorem Upkeep.upkept {db db' : Db} (h : Upkeep db db') : Upkept db db' := by
  cases h with
  | directory h => exact .directory h
  | register project now => exact .register db project now
  | reconcile projectId now => exact .reconcile db projectId now

/-- A chain of upkeep. -/
theorem Upkeeps.upkept {db db' : Db} (h : Upkeeps db db') : Upkept db db' := by
  induction h with
  | refl => exact .refl db
  | tail _ hstep ih => exact ih.trans hstep.upkept

end Zvault
