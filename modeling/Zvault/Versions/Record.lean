import Mathlib.Data.List.Basic
import Mathlib.Data.List.Count
import Mathlib.Data.List.Nodup
import Mathlib.Data.List.Sort
import Mathlib.Data.Nat.Notation

/-!
# Kept versions of a record

A record counts its revisions. When its content is replaced, the content is kept as
a version under the revision that it had, and versions that lie a limit behind are
let go. A removed record has no content to keep.
-/

namespace Versions

variable {α : Type*} {limit k k' : ℕ} {a : α}

/-- A record with its content, unless it is removed, and the versions that are kept. -/
@[ext] structure Record (α : Type*) where
  revision : ℕ
  content : Option α
  kept : ℕ → Option α

/-- What happens to a record: it is written, or removed; its content and the kept versions are
changed in place; or what is kept is purged. -/
inductive Event (α : Type*)
  | write (content : Option α)
  | amend (present past : α → α)
  | purge

/-- The first of a list that is sorted newest first. -/
theorem newestFirst {β : Type*} {revision : β → ℕ} {l : List β} {b : β}
    (h : (l.insertionSort fun a b => revision b ≤ revision a).head? = some b) :
    b ∈ l ∧ ∀ b' ∈ l, revision b' ≤ revision b := by
  have htotal : Std.Total fun a b : β => revision b ≤ revision a :=
    ⟨fun a b => le_total (revision b) (revision a)⟩
  have htrans : IsTrans β fun a b : β => revision b ≤ revision a :=
    ⟨fun _ _ _ hab hbc => hbc.trans hab⟩
  have hsorted := List.pairwise_insertionSort (fun a b : β => revision b ≤ revision a) l
  obtain ⟨rest, hrest⟩ := List.head?_eq_some_iff.mp h
  rw [hrest] at hsorted
  have hmem : ∀ b', b' ∈ l ↔ b' ∈ b :: rest := fun b' => by
    rw [← hrest, List.mem_insertionSort]
  refine ⟨(hmem b).mpr List.mem_cons_self, fun b' hb' => ?_⟩
  rcases List.mem_cons.mp ((hmem b').mp hb') with rfl | hb'
  · exact le_rfl
  · exact List.rel_of_pairwise_cons hsorted hb'

namespace Record

/-- A record that was never written. -/
def fresh : Record α := ⟨0, none, fun _ => none⟩

/-- What is kept after the content is replaced. -/
def keep (limit : ℕ) (r : Record α) : ℕ → Option α :=
  match r.content with
  | none => r.kept
  | some replaced => fun k =>
    if k = r.revision then some replaced else if k + limit ≤ r.revision then none else r.kept k

def apply (limit : ℕ) (r : Record α) : Event α → Record α
  | .write content => ⟨r.revision + 1, content, r.keep limit⟩
  | .amend present past => ⟨r.revision, r.content.map present, fun k => (r.kept k).map past⟩
  | .purge => ⟨r.revision, r.content, fun _ => none⟩

def run (limit : ℕ) (r : Record α) (events : List (Event α)) : Record α := events.foldl (apply limit) r

end Record

/-- How often a record was written. -/
def writes : List (Event α) → ℕ
  | [] => 0
  | .write _ :: events => writes events + 1
  | _ :: events => writes events

/-- What becomes of a kept version. -/
def amended : List (Event α) → α → α
  | [], a => a
  | .amend _ past :: events, a => amended events (past a)
  | _ :: events, a => amended events a

/-- The content that the last write left, and changes in place since. -/
def written : List (Event α) → Option α → Option α
  | [], content => content
  | .write content :: events, _ => written events content
  | .amend present _ :: events, content => written events (content.map present)
  | .purge :: events, content => written events content

/-- The events leave what is kept. -/
def Keeps (events : List (Event α)) : Prop := ∀ e ∈ events, e ≠ .purge

namespace Record

variable {r : Record α} {events : List (Event α)}

theorem run_append (events' : List (Event α)) :
    r.run limit (events ++ events') = (r.run limit events).run limit events' :=
  List.foldl_append

theorem writes_append (events' : List (Event α)) :
    writes (events ++ events') = writes events + writes events' := by
  induction events with
  | nil => exact (Nat.zero_add _).symm
  | cons e events ih =>
    cases e with
    | write =>
      rw [List.cons_append, writes, writes, ih]
      omega
    | amend | purge => exact ih

theorem amended_append (events' : List (Event α)) (a : α) :
    amended (events ++ events') a = amended events' (amended events a) := by
  induction events generalizing a with
  | nil => rfl
  | cons e events ih => cases e <;> exact ih _

theorem revision_run : (r.run limit events).revision = r.revision + writes events := by
  induction events generalizing r with
  | nil => rfl
  | cons e events ih =>
    rw [run, List.foldl_cons]
    refine ih.trans ?_
    cases e with
    | write content =>
      dsimp only [apply, writes]
      omega
    | amend | purge => rfl

theorem content_run : (r.run limit events).content = written events r.content := by
  induction events generalizing r with
  | nil => rfl
  | cons e events ih =>
    rw [run, List.foldl_cons]
    refine ih.trans ?_
    cases e <;> rfl

/-- The content that a write replaces is kept under its revision. -/
theorem kept_replaced (limit : ℕ) (content : Option α) (h : r.content = some a) :
    (r.apply limit (.write content)).kept r.revision = some a := by
  simp only [apply, keep, h, if_true]

/-- A version stays until the record is purged or written `limit` times. -/
theorem kept_run (hkept : r.kept k = some a) (hbefore : k < r.revision) (hkeeps : Keeps events)
    (hfew : r.revision + writes events ≤ k + limit) :
    (r.run limit events).kept k = some (amended events a) := by
  induction events generalizing r a with
  | nil => exact hkept
  | cons e events ih =>
    rw [run, List.foldl_cons]
    have hrest : Keeps events := fun e he => hkeeps e (List.mem_cons_of_mem _ he)
    cases e with
    | write content =>
      rw [writes] at hfew
      apply ih
      · cases hcontent : r.content with
        | none => simp only [apply, keep, hcontent, hkept]
        | some replaced =>
          simp only [apply, keep, hcontent]
          rw [if_neg (by omega), if_neg (by omega), hkept]
      · exact Nat.lt_succ_of_lt hbefore
      · exact hrest
      · simp only [apply]
        omega
    | amend present past =>
      apply ih
      · simp only [apply, hkept, Option.map_some]
      · exact hbefore
      · exact hrest
      · exact hfew
    | purge => exact absurd rfl (hkeeps .purge List.mem_cons_self)

/-- Without a write nothing new is kept. -/
theorem kept_of_kept_run {a' : α} (hwrites : writes events = 0)
    (h : (r.run limit events).kept k = some a') : ∃ a, r.kept k = some a ∧ a' = amended events a := by
  induction events generalizing r with
  | nil => exact ⟨a', h, rfl⟩
  | cons e events ih =>
    cases e with
    | write content => cases hwrites
    | amend present past =>
      obtain ⟨a₁, ha₁, rfl⟩ := ih (r := r.apply limit (.amend present past)) hwrites h
      obtain ⟨a, ha, rfl⟩ := Option.map_eq_some_iff.mp ha₁
      exact ⟨a, ha, rfl⟩
    | purge =>
      obtain ⟨a₁, ha₁, -⟩ := ih (r := r.apply limit .purge) hwrites h
      cases ha₁

/-- Of two versions the older one does not stay longer. -/
theorem isSome_kept_run (hlt : k < k') (hbefore : k' < r.revision)
    (h : (r.kept k).isSome = true → (r.kept k').isSome = true) :
    ((r.run limit events).kept k).isSome = true → ((r.run limit events).kept k').isSome = true := by
  induction events generalizing r with
  | nil => exact h
  | cons e events ih =>
    rw [run, List.foldl_cons]
    cases e with
    | write content =>
      apply ih
      · exact Nat.lt_succ_of_lt hbefore
      · cases hcontent : r.content with
        | none => simpa only [apply, keep, hcontent] using h
        | some replaced =>
          simp only [apply, keep, hcontent]
          rw [if_neg (show k ≠ r.revision by omega), if_neg (show k' ≠ r.revision by omega)]
          by_cases hgone : k + limit ≤ r.revision
          · rw [if_pos hgone]
            intro hnone
            cases hnone
          · rw [if_neg hgone, if_neg (by omega)]
            exact h
    | amend present past =>
      apply ih
      · exact hbefore
      · simpa only [apply, Option.isSome_map] using h
    | purge =>
      apply ih
      · exact hbefore
      · intro hnone
        cases hnone

/-- Versions have earlier revisions, and lie within the limit. -/
structure Within (limit : ℕ) (r : Record α) : Prop where
  before : ∀ k, (r.kept k).isSome = true → k < r.revision
  window : ∃ last, ∀ k, (r.kept k).isSome = true → k ≤ last ∧ last < k + limit

theorem Within.of_none (h : ∀ k, r.kept k = none) : r.Within limit := by
  have hnot : ∀ k, (r.kept k).isSome = false := fun k => by rw [h k, Option.isSome_none]
  refine ⟨fun k hk => ?_, 0, fun k hk => ?_⟩
  · rw [hnot k] at hk
    cases hk
  · rw [hnot k] at hk
    cases hk

theorem Within.apply (h : r.Within limit) (hlimit : 0 < limit) (e : Event α) :
    (r.apply limit e).Within limit := by
  obtain ⟨hbefore, last, hwindow⟩ := h
  cases e with
  | write content =>
    cases hcontent : r.content with
    | none =>
      have hkept : (r.apply limit (.write content)).kept = r.kept := by
        simp only [Record.apply, keep, hcontent]
      refine ⟨fun k hk => ?_, last, fun k hk => ?_⟩
      · rw [hkept] at hk
        exact Nat.lt_succ_of_lt (hbefore k hk)
      · rw [hkept] at hk
        exact hwindow k hk
    | some replaced =>
      have hkept : ∀ k, ((r.apply limit (.write content)).kept k).isSome = true →
          k ≤ r.revision ∧ r.revision < k + limit := by
        intro k hk
        simp only [Record.apply, keep, hcontent] at hk
        split_ifs at hk with heq hgone
        · omega
        · cases hk
        · have hlt := hbefore k hk
          omega
      exact ⟨fun k hk => Nat.lt_succ_of_le (hkept k hk).1, r.revision, hkept⟩
  | amend present past =>
    have hkept : ∀ k, ((r.apply limit (.amend present past)).kept k).isSome = (r.kept k).isSome :=
      fun k => Option.isSome_map
    refine ⟨fun k hk => ?_, last, fun k hk => ?_⟩
    · rw [hkept] at hk
      exact hbefore k hk
    · rw [hkept] at hk
      exact hwindow k hk
  | purge => exact .of_none fun _ => rfl

theorem Within.run (h : r.Within limit) (hlimit : 0 < limit) (events : List (Event α)) :
    (r.run limit events).Within limit := by
  induction events generalizing r with
  | nil => exact h
  | cons e events ih => exact ih (h.apply hlimit e)

/-- What a write replaced is the newest version until the next write. -/
theorem Within.newest (h : r.Within limit) (hlimit : 0 < limit) (hcontent : r.content = some a)
    (content : Option α) (hwrites : writes events = 0) {a' : α}
    (hkept : ((r.run limit [.write content]).run limit events).kept k = some a')
    (hnewest : ∀ k', (((r.run limit [.write content]).run limit events).kept k').isSome = true →
      k' ≤ k) : a' = amended events a := by
  obtain ⟨a₁, ha₁, -⟩ := kept_of_kept_run hwrites hkept
  have hbefore : k < r.revision + 1 :=
    (h.apply hlimit (.write content)).before k (Option.isSome_iff_exists.mpr ⟨a₁, ha₁⟩)
  have hreplaced := kept_replaced limit content hcontent
  have hsome : (((r.run limit [.write content]).run limit events).kept r.revision).isSome = true := by
    rcases Nat.lt_or_ge k r.revision with hlt | hge
    · refine isSome_kept_run hlt (Nat.lt_succ_self _) (fun _ => ?_) (by rw [hkept, Option.isSome_some])
      exact Option.isSome_iff_exists.mpr ⟨a, hreplaced⟩
    · obtain rfl : k = r.revision := by omega
      rw [hkept, Option.isSome_some]
  have hle := hnewest _ hsome
  obtain rfl : k = r.revision := by omega
  obtain ⟨a₂, ha₂, rfl⟩ := kept_of_kept_run hwrites hkept
  rw [Option.some_inj.mp (ha₂.symm.trans hreplaced)]

/-- There are no more versions than the limit. -/
theorem Within.length_le (h : r.Within limit) {ks : List ℕ} (hnodup : ks.Nodup)
    (hkept : ∀ k ∈ ks, (r.kept k).isSome = true) : ks.length ≤ limit := by
  obtain ⟨last, hwindow⟩ := h.window
  have hsub : ks ⊆ List.range' (last + 1 - limit) limit := by
    intro k hk
    have := hwindow k (hkept k hk)
    rw [List.mem_range'_1]
    omega
  have hlength := (List.subperm_of_subset hnodup hsub).length_le
  rwa [List.length_range'] at hlength

end Record

/-- A write was made in a run: `r` is what it left, and `r'` what is left at the end. It is based on
the revision that the writes before it left, and on the content of the last of them, which it
replaces. That content is kept while fewer writes than the limit follow and nothing is purged, and
no version is kept longer than a newer one. -/
structure Lossless (limit : ℕ) (before : List (Event α)) (baseRevision : ℕ) (content : Option α)
    (r : Record α) (after : List (Event α)) (r' : Record α) : Prop where
  chained : baseRevision = writes before
  next : r.revision = baseRevision + 1
  stored : r.content = content
  keeps : ∀ replaced, written before none = some replaced → Keeps after → writes after < limit →
    r'.kept baseRevision = some (amended after replaced)
  newest : (written before none).isSome = true → ∀ k < baseRevision,
    (r'.kept k).isSome = true → (r'.kept baseRevision).isSome = true
  few : ∀ ks : List ℕ, ks.Nodup → (∀ k ∈ ks, (r'.kept k).isSome = true) → ks.length ≤ limit

namespace Record

variable {before after : List (Event α)}

theorem revision_run_fresh : ((fresh : Record α).run limit before).revision = writes before :=
  revision_run.trans (Nat.zero_add _)

theorem within_run_fresh (hlimit : 0 < limit) : ((fresh : Record α).run limit before).Within limit :=
  Within.run (.of_none fun _ => rfl) hlimit before

/-- Every write of a run is one of these. -/
theorem lossless (hlimit : 0 < limit) (before : List (Event α)) (content : Option α)
    (after : List (Event α)) :
    Lossless limit before ((fresh : Record α).run limit before).revision content
      ((fresh.run limit before).apply limit (.write content)) after
      (((fresh.run limit before).apply limit (.write content)).run limit after) := by
  have hrevision : ((fresh : Record α).run limit before).revision = writes before :=
    revision_run_fresh
  have hcontent : ((fresh : Record α).run limit before).content = written before none :=
    content_run
  have hwithin : ((fresh : Record α).run limit before).Within limit := within_run_fresh hlimit
  generalize (fresh : Record α).run limit before = r at hrevision hcontent hwithin ⊢
  have hbefore : r.revision < (r.apply limit (.write content)).revision := Nat.lt_succ_self _
  refine ⟨hrevision, rfl, rfl, fun replaced hreplaced hkeeps hfew => ?_, fun hlive k hk => ?_, ?_⟩
  · have hkept := kept_replaced limit content (hcontent.trans hreplaced)
    refine kept_run hkept hbefore hkeeps ?_
    dsimp only [apply]
    omega
  · obtain ⟨replaced, hreplaced⟩ := Option.isSome_iff_exists.mp hlive
    have hkept := kept_replaced limit content (hcontent.trans hreplaced)
    refine isSome_kept_run hk hbefore fun _ => ?_
    rw [hkept, Option.isSome_some]
  · intro ks hnodup hkept
    exact ((hwithin.apply hlimit (.write content)).run hlimit after).length_le hnodup hkept

/-- A write that has nothing to replace and nothing to store may change what is kept. -/
theorem lossless_of_none (hlimit : 0 < limit) (present past : α → α)
    (hnone : ((fresh : Record α).run limit before).content = none) (after : List (Event α)) :
    Lossless limit before ((fresh : Record α).run limit before).revision none
      ((fresh.run limit before).run limit [.write none, .amend present past]) after
      (((fresh.run limit before).run limit [.write none, .amend present past]).run limit after) := by
  have hwritten : written before (none : Option α) = none := content_run.symm.trans hnone
  refine ⟨revision_run_fresh, rfl, rfl, fun replaced hreplaced => ?_, fun hlive => ?_, ?_⟩
  · rw [hwritten] at hreplaced
    cases hreplaced
  · rw [hwritten] at hlive
    cases hlive
  · intro ks hnodup hkept
    exact (((within_run_fresh hlimit).run hlimit _).run hlimit after).length_le hnodup hkept

end Record

end Versions
