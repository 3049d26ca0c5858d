import Mathlib.Data.Nat.Digits.Lemmas
import Mathlib.Tactic.Ring

/-!
# Numbers written in a radix

Words of digits, the most significant one first, as programs print and parse
them. A word of fixed length stands for one number only, so two ways to write a
number to the same length agree.
-/

namespace Radix

variable (b : ℕ)

/-- The number a word of digits stands for. -/
def value (ds : List ℕ) : ℕ := Nat.ofDigits b ds.reverse

/-- The digits of a number without leading zeros, but for zero itself. -/
def digits (n : ℕ) : List ℕ := if n = 0 then [0] else (b.digits n).reverse

/-- A word filled up with zeros from the left. -/
def padStart (length : ℕ) (ds : List ℕ) : List ℕ := List.replicate (length - ds.length) 0 ++ ds

/-- Two digits at a time make a word in the squared radix. -/
def pairs : List ℕ → List ℕ
  | hi :: lo :: ds => (b * hi + lo) :: pairs ds
  | _ => []

/-- A word in the squared radix as twice as many digits. -/
def unpairs (ds : List ℕ) : List ℕ := ds.flatMap fun d => [d / b, d % b]

variable {b}

theorem value_cons (d : ℕ) (ds : List ℕ) : value b (d :: ds) = d * b ^ ds.length + value b ds := by
  rw [value, value, List.reverse_cons, Nat.ofDigits_append, Nat.ofDigits_singleton,
    List.length_reverse]
  ring

@[simp] theorem value_nil : value b [] = 0 := rfl

theorem value_append (ds es : List ℕ) :
    value b (ds ++ es) = value b ds * b ^ es.length + value b es := by
  rw [value, value, value, List.reverse_append, Nat.ofDigits_append, List.length_reverse]
  ring

theorem value_replicate_zero (n : ℕ) : value b (List.replicate n 0) = 0 := by
  induction n with
  | zero => rfl
  | succ n ih => rw [List.replicate_succ, value_cons, ih, Nat.zero_mul]

/-- Leading zeros do not change a number. -/
@[simp] theorem value_padStart (length : ℕ) (ds : List ℕ) :
    value b (padStart length ds) = value b ds := by
  rw [padStart, value_append, value_replicate_zero, Nat.zero_mul, Nat.zero_add]

theorem length_padStart {length : ℕ} {ds : List ℕ} (h : ds.length ≤ length) :
    (padStart length ds).length = length := by
  rw [padStart, List.length_append, List.length_replicate]
  omega

theorem lt_of_mem_padStart {length d : ℕ} {ds : List ℕ} (hb : 0 < b) (h : ∀ d ∈ ds, d < b)
    (hd : d ∈ padStart length ds) : d < b := by
  rcases List.mem_append.mp hd with hd | hd
  · rw [List.eq_of_mem_replicate hd]
    exact hb
  · exact h d hd

@[simp] theorem value_digits (n : ℕ) : value b (digits b n) = n := by
  unfold digits
  split
  · rename_i hn
    rw [hn]
    rfl
  · rw [value, List.reverse_reverse, Nat.ofDigits_digits]

theorem lt_of_mem_digits {n d : ℕ} (hb : 1 < b) (hd : d ∈ digits b n) : d < b := by
  unfold digits at hd
  split at hd
  · rw [List.mem_singleton.mp hd]
    omega
  · exact Nat.digits_lt_base hb (List.mem_reverse.mp hd)

theorem length_digits_le {n length : ℕ} (hb : 1 < b) (hlength : 0 < length)
    (hn : n < b ^ length) : (digits b n).length ≤ length := by
  unfold digits
  split
  · exact hlength
  · rw [List.length_reverse]
    exact (Nat.digits_length_le_iff hb n).mpr hn

/-- Words of the same length that stand for the same number are the same. -/
theorem eq_of_value_eq {ds es : List ℕ} (hb : 1 < b) (hlength : ds.length = es.length)
    (hds : ∀ d ∈ ds, d < b) (hes : ∀ d ∈ es, d < b) (h : value b ds = value b es) : ds = es := by
  have hreverse := Nat.ofDigits_inj_of_len_eq hb (by simpa using hlength)
    (fun d hd => hds d (List.mem_reverse.mp hd)) (fun d hd => hes d (List.mem_reverse.mp hd)) h
  exact List.reverse_injective hreverse

theorem length_pairs (ds : List ℕ) : (pairs b ds).length = ds.length / 2 := by
  fun_induction pairs b ds with
  | case1 hi lo ds ih =>
    rw [List.length_cons, ih, List.length_cons, List.length_cons]
    omega
  | case2 ds h =>
    rcases ds with _ | ⟨d, _ | ⟨e, ds⟩⟩
    · rfl
    · simp
    · exact absurd rfl (h d e ds)

/-- Pairing an even number of digits keeps the number. -/
theorem value_pairs (ds : List ℕ) (heven : ds.length % 2 = 0) :
    value (b * b) (pairs b ds) = value b ds := by
  fun_induction pairs b ds with
  | case1 hi lo ds ih =>
    simp only [List.length_cons] at heven
    have hrest : ds.length % 2 = 0 := by omega
    have hhalf : ds.length = 2 * (ds.length / 2) := by omega
    have hpow : (b * b) ^ (ds.length / 2) = b ^ ds.length := by
      rw [← pow_two, ← pow_mul, ← hhalf]
    rw [value_cons, ih hrest, length_pairs, hpow, value_cons, value_cons, List.length_cons, pow_succ]
    ring
  | case2 ds h =>
    rcases ds with _ | ⟨d, _ | ⟨e, ds⟩⟩
    · rfl
    · simp at heven
    · exact absurd rfl (h d e ds)

theorem lt_of_mem_pairs {ds : List ℕ} (h : ∀ d ∈ ds, d < b) {d : ℕ} (hd : d ∈ pairs b ds) :
    d < b * b := by
  fun_induction pairs b ds with
  | case1 hi lo ds ih =>
    rcases List.mem_cons.mp hd with rfl | hd
    · have hhi := h hi (by simp)
      have hlo := h lo (by simp)
      calc b * hi + lo < b * hi + b := by omega
        _ = b * (hi + 1) := by ring
        _ ≤ b * b := Nat.mul_le_mul_left b hhi
    · exact ih (fun d hd => h d (by simp [hd])) hd
  | case2 => exact absurd hd List.not_mem_nil

theorem length_unpairs (ds : List ℕ) : (unpairs b ds).length = 2 * ds.length := by
  induction ds with
  | nil => rfl
  | cons d ds ih =>
    rw [unpairs, List.flatMap_cons, List.length_append, ← unpairs, ih, List.length_cons]
    simp only [List.length_cons, List.length_nil]
    omega

/-- Splitting every digit in two keeps the number. -/
theorem value_unpairs (ds : List ℕ) : value b (unpairs b ds) = value (b * b) ds := by
  induction ds with
  | nil => rfl
  | cons d ds ih =>
    have hsplit : d = b * (d / b) + d % b := (Nat.div_add_mod d b).symm
    have hpow : b ^ (unpairs b ds).length = (b * b) ^ ds.length := by
      rw [length_unpairs, pow_mul, pow_two]
    rw [unpairs, List.flatMap_cons, ← unpairs, value_append, ih, hpow, value_cons, value_cons,
      value_cons, value_nil, List.length_singleton, List.length_nil, pow_one, pow_zero]
    calc (d / b * b + (d % b * 1 + 0)) * (b * b) ^ ds.length + value (b * b) ds
        = (b * (d / b) + d % b) * (b * b) ^ ds.length + value (b * b) ds := by ring
      _ = d * (b * b) ^ ds.length + value (b * b) ds := by rw [← hsplit]

end Radix
