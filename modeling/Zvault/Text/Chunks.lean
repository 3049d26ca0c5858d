import Mathlib.Algebra.Ring.Nat
import Mathlib.Data.List.Range
import Mathlib.Tactic.Ring

/-!
# Chunks

A list cut into pieces of one length, the last of which may be shorter.
-/

namespace Text

variable {α : Type*} {n : ℕ}

/-- `chunks`. -/
def chunks (n : ℕ) (l : List α) : List (List α) :=
  (List.range ((l.length + (n - 1)) / n)).map fun i => (l.drop (i * n)).take n

@[simp] theorem chunks_nil (hn : 0 < n) : chunks n ([] : List α) = [] := by
  have hnone : (([] : List α).length + (n - 1)) / n = 0 :=
    Nat.div_eq_of_lt (by rw [List.length_nil]; omega)
  rw [chunks, hnone]
  rfl

theorem chunks_eq_cons (hn : 0 < n) {l : List α} (hl : l ≠ []) :
    chunks n l = l.take n :: chunks n (l.drop n) := by
  have hlength : 0 < l.length := List.length_pos_iff.mpr hl
  have hcount : (l.length + (n - 1)) / n = ((l.drop n).length + (n - 1)) / n + 1 := by
    rw [List.length_drop, ← Nat.add_div_right _ hn]
    by_cases hle : n ≤ l.length
    · congr 1
      omega
    · have hnone : l.length - n + (n - 1) + n = n - 1 + n := by omega
      rw [hnone, Nat.add_div_right _ hn, Nat.div_eq_of_lt (Nat.sub_lt hn one_pos)]
      exact Nat.div_eq_of_lt_le (by omega) (by omega)
  rw [chunks, hcount, List.range_succ_eq_map, List.map_cons, List.map_map, Nat.zero_mul,
    List.drop_zero, chunks]
  congr 1
  refine List.map_congr_left fun i _ => ?_
  have hstep : (i + 1) * n = n + i * n := by ring
  rw [Function.comp_apply, List.drop_drop, ← hstep]

/-- A property of all lists, piece by piece. -/
theorem chunks_induction (hn : 0 < n) {motive : List α → Prop} (nil : motive [])
    (step : ∀ l, l ≠ [] → motive (l.drop n) → motive l) (l : List α) : motive l := by
  induction hlength : l.length using Nat.strong_induction_on generalizing l with
  | _ length ih =>
    by_cases hl : l = []
    · exact hl ▸ nil
    · have hpos : 0 < l.length := List.length_pos_iff.mpr hl
      refine step l hl (ih _ ?_ _ rfl)
      rw [List.length_drop]
      omega

/-- The pieces together are the list. -/
theorem flatten_chunks (hn : 0 < n) (l : List α) : (chunks n l).flatten = l := by
  induction l using chunks_induction hn with
  | nil => rw [chunks_nil hn, List.flatten_nil]
  | step l hl ih => rw [chunks_eq_cons hn hl, List.flatten_cons, ih, List.take_append_drop]

theorem subset_of_mem_chunks (hn : 0 < n) {l part : List α} (h : part ∈ chunks n l) {a : α}
    (ha : a ∈ part) : a ∈ l := by
  rw [← flatten_chunks hn l]
  exact List.mem_flatten_of_mem h ha

theorem length_chunks (l : List α) : (chunks n l).length = (l.length + (n - 1)) / n := by
  rw [chunks, List.length_map, List.length_range]

/-- When the pieces come out even, all of them have the length. -/
theorem length_of_mem_chunks (hn : 0 < n) {l part : List α} (hdvd : n ∣ l.length)
    (h : part ∈ chunks n l) : part.length = n := by
  induction l using chunks_induction hn with
  | nil =>
    rw [chunks_nil hn] at h
    cases h
  | step l hl ih =>
    have hlength : n ≤ l.length := Nat.le_of_dvd (List.length_pos_iff.mpr hl) hdvd
    rw [chunks_eq_cons hn hl] at h
    rcases List.mem_cons.mp h with rfl | h
    · rw [List.length_take, Nat.min_eq_left hlength]
    · refine ih ?_ h
      rw [List.length_drop]
      exact Nat.dvd_sub hdvd (Nat.dvd_refl n)

end Text
