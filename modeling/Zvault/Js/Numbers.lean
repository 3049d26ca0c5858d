import Mathlib.Algebra.Order.Archimedean.Basic
import Mathlib.Data.Int.Log
import Mathlib.Data.Rat.Floor
import Mathlib.Tactic.FieldSimp
import Mathlib.Tactic.Linarith
import Mathlib.Tactic.NormNum

/-!
# JavaScript numbers

A number is kept to 53 significant bits: the nearest such number, and of two the one
with an even last bit. Whole numbers up to `2 ^ 53` are exact, and so are the whole
parts of their quotients; the whole number behind `2 ^ 53` is not. The range of
exponents is left out.
-/

namespace Js

/-- The nearest whole number, the even one of two. -/
def roundEven (q : ℚ) : ℤ :=
  if q - ⌊q⌋ < 1 / 2 then ⌊q⌋
  else if 1 / 2 < q - ⌊q⌋ then ⌊q⌋ + 1
  else if ⌊q⌋ % 2 = 0 then ⌊q⌋ else ⌊q⌋ + 1

/-- The weight of the last of 53 bits. -/
def lastBit (q : ℚ) : ℚ := 2 ^ (Int.log 2 |q| - 52)

/-- A number as it is kept. -/
def kept (q : ℚ) : ℚ := roundEven (q / lastBit q) * lastBit q

theorem roundEven_eq_or (q : ℚ) : roundEven q = ⌊q⌋ ∨ roundEven q = ⌊q⌋ + 1 := by
  unfold roundEven
  split_ifs <;> simp

theorem floor_le_roundEven (q : ℚ) : ⌊q⌋ ≤ roundEven q := by
  rcases roundEven_eq_or q with h | h <;> omega

@[simp] theorem roundEven_intCast (n : ℤ) : roundEven (n : ℚ) = n := by
  rw [roundEven, Int.floor_intCast, sub_self, if_pos (by norm_num)]

theorem roundEven_le (q : ℚ) : (roundEven q : ℚ) ≤ q + 1 / 2 := by
  have hfloor := Int.floor_le q
  unfold roundEven
  split_ifs with hlow hhigh <;> push_cast <;> linarith

theorem lastBit_pos (q : ℚ) : 0 < lastBit q := zpow_pos (by norm_num) _

/-- The last bit is small beside the number. -/
theorem lastBit_mul_le {q : ℚ} (hq : 0 < q) : lastBit q * 2 ^ 52 ≤ q := by
  have hlog := Int.zpow_log_le_self (b := 2) (by norm_num) (abs_pos.mpr hq.ne')
  rw [abs_of_pos hq] at hlog
  have hsplit : lastBit q * 2 ^ 52 = 2 ^ Int.log 2 q := by
    rw [lastBit, abs_of_pos hq, zpow_sub₀ (by norm_num)]
    norm_num
  rw [hsplit]
  exact_mod_cast hlog

/-- Below `2 ^ 53` whole numbers are multiples of the last bit. -/
theorem exists_eq_mul_lastBit {q : ℚ} (hq : 0 < q) (hsmall : q < 2 ^ 53) (n : ℤ) :
    ∃ m : ℤ, (n : ℚ) = m * lastBit q := by
  have hlog : Int.log 2 |q| ≤ 52 := by
    rw [abs_of_pos hq]
    by_contra hlarge
    have hle := Int.zpow_log_le_self (b := 2) (by norm_num) hq
    have hpow : (2 : ℚ) ^ (53 : ℤ) ≤ 2 ^ Int.log 2 q :=
      zpow_le_zpow_right₀ (by norm_num) (by omega)
    have : (2 : ℚ) ^ (53 : ℤ) = 2 ^ 53 := by norm_num
    push_cast at hle
    linarith
  obtain ⟨k, hk⟩ := Int.eq_ofNat_of_zero_le (show 0 ≤ 52 - Int.log 2 |q| by omega)
  have hexp : Int.log 2 |q| - 52 = -(k : ℤ) := by omega
  refine ⟨n * 2 ^ k, ?_⟩
  rw [lastBit, hexp, zpow_neg, zpow_natCast]
  push_cast
  field_simp

/-- The whole part of a quotient of whole numbers below `2 ^ 53` is the whole part of the quotient
as it is kept. -/
theorem floor_kept_div {x p : ℕ} (hx : x < 2 ^ 53) (hp : 0 < p) :
    ⌊kept ((x : ℚ) / p)⌋ = ((x / p : ℕ) : ℤ) := by
  rcases Nat.eq_zero_or_pos x with rfl | hpos
  · simp [kept, show roundEven 0 = 0 from roundEven_intCast 0]
  have hp' : (0 : ℚ) < p := Nat.cast_pos.mpr hp
  have hone : (1 : ℚ) ≤ p := by exact_mod_cast hp
  have hq : 0 < (x : ℚ) / p := div_pos (Nat.cast_pos.mpr hpos) hp'
  have hx' : (x : ℚ) < 2 ^ 53 := by exact_mod_cast hx
  have hsmall : (x : ℚ) / p < 2 ^ 53 :=
    (div_le_self (Nat.cast_nonneg x) hone).trans_lt hx'
  generalize hquot : (x : ℚ) / p = q at hq hsmall ⊢
  have hbit := lastBit_pos q
  have hdivmod : (x : ℚ) = p * ((x / p : ℕ) : ℚ) + ((x % p : ℕ) : ℚ) := by
    exact_mod_cast (Nat.div_add_mod x p).symm
  have hrest : ((x % p : ℕ) : ℚ) ≤ p - 1 := by
    have := Nat.mod_lt x hp
    have hle : (x % p : ℕ) + 1 ≤ p := this
    have : (((x % p : ℕ) + 1 : ℕ) : ℚ) ≤ p := by exact_mod_cast hle
    push_cast at this
    linarith
  have hqp : q * p = x := by rw [← hquot, div_mul_cancel₀ _ hp'.ne']
  -- the quotient ends at least one part in `p` below the next whole number
  have hbelow : q * p ≤ (((x / p : ℕ) : ℚ) + 1) * p - 1 := by
    rw [hqp, hdivmod]
    linarith
  have habove : ((x / p : ℕ) : ℚ) ≤ q := by
    rw [← hquot, le_div_iff₀ hp', hdivmod, mul_comm]
    exact le_add_of_nonneg_right (Nat.cast_nonneg _)
  rw [Int.floor_eq_iff]
  constructor
  · obtain ⟨m, hm⟩ := exists_eq_mul_lastBit hq hsmall ((x / p : ℕ) : ℤ)
    have hmq : (m : ℚ) ≤ q / lastBit q := by
      rw [le_div_iff₀ hbit, ← hm]
      exact_mod_cast habove
    have hround : m ≤ roundEven (q / lastBit q) :=
      (Int.le_floor.mpr hmq).trans (floor_le_roundEven _)
    rw [hm, kept]
    exact mul_le_mul_of_nonneg_right (by exact_mod_cast hround) hbit.le
  · have hround := roundEven_le (q / lastBit q)
    have hkept : kept q ≤ q + lastBit q / 2 := by
      have := mul_le_mul_of_nonneg_right hround hbit.le
      rw [add_mul, div_mul_cancel₀ _ hbit.ne'] at this
      rw [kept]
      linarith
    have hbound := lastBit_mul_le hq
    have hless : lastBit q / 2 * p < 1 := by
      have hmul := mul_le_mul_of_nonneg_right hbound hp'.le
      rw [hqp] at hmul
      have : lastBit q * p < 2 := by
        by_contra hge
        nlinarith
      linarith
    have hprod : kept q * p < (((x / p : ℕ) : ℚ) + 1) * p := by
      have := mul_le_mul_of_nonneg_right hkept hp'.le
      rw [add_mul] at this
      linarith
    have := lt_of_mul_lt_mul_right hprod hp'.le
    push_cast
    exact_mod_cast this

/-- Whole numbers below `2 ^ 53` are kept as they are. -/
theorem kept_natCast {n : ℕ} (hn : n < 2 ^ 53) : kept n = n := by
  rcases Nat.eq_zero_or_pos n with rfl | hpos
  · simp [kept, show roundEven 0 = 0 from roundEven_intCast 0]
  have hq : (0 : ℚ) < n := Nat.cast_pos.mpr hpos
  have hsmall : (n : ℚ) < 2 ^ 53 := by exact_mod_cast hn
  obtain ⟨m, hm⟩ := exists_eq_mul_lastBit hq hsmall n
  have hbit := lastBit_pos (n : ℚ)
  have hquot : (n : ℚ) / lastBit n = m := by
    rw [div_eq_iff hbit.ne']
    exact_mod_cast hm
  rw [kept, hquot, roundEven_intCast]
  exact_mod_cast hm.symm

theorem lastBit_of_log {q : ℚ} {e : ℤ} (hlow : 2 ^ e ≤ q) (hhigh : q < 2 ^ (e + 1)) :
    lastBit q = 2 ^ (e - 52) := by
  have hq : 0 < q := (zpow_pos (by norm_num) e).trans_le hlow
  have hlog : Int.log 2 q = e := by
    apply le_antisymm
    · rw [← Int.lt_add_one_iff, ← Int.lt_zpow_iff_log_lt (by norm_num) hq]
      exact_mod_cast hhigh
    · rw [← Int.zpow_le_iff_le_log (by norm_num) hq]
      exact_mod_cast hlow
  rw [lastBit, abs_of_pos hq, hlog]

theorem kept_two_pow : kept (2 ^ 53) = 2 ^ 53 := by
  have hbit : lastBit (2 ^ 53) = 2 := by
    rw [lastBit_of_log (e := 53) (by norm_num) (by norm_num)]
    norm_num
  have hquot : ((2 : ℚ) ^ 53 / 2) = ((2 ^ 52 : ℤ) : ℚ) := by norm_num
  rw [kept, hbit, hquot, roundEven_intCast]
  norm_num

end Js
