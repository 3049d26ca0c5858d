import Mathlib.Algebra.Order.Group.Nat
import Mathlib.Data.List.Basic
import Mathlib.Tactic.Ring

/-!
# Numbers of a fixed width

Decimal digits of a number, as many as the width. Such texts stand in the order of
their numbers.
-/

namespace Text

/-- The last digits of a number. -/
def fixed : ℕ → ℕ → List Char
  | 0, _ => []
  | width + 1, n => Nat.digitChar (n / 10 ^ width % 10) :: fixed width n

@[simp] theorem length_fixed (width n : ℕ) : (fixed width n).length = width := by
  induction width with
  | zero => rfl
  | succ width ih => rw [fixed, List.length_cons, ih]

theorem fixed_mod (width n : ℕ) {m : ℕ} (h : width ≤ m) : fixed width (n % 10 ^ m) = fixed width n := by
  induction width with
  | zero => rfl
  | succ width ih =>
    obtain ⟨k, rfl⟩ := Nat.exists_eq_add_of_le' h
    have hdigit : n % 10 ^ (k + (width + 1)) / 10 ^ width % 10 = n / 10 ^ width % 10 := by
      have hpow : 10 ^ (k + (width + 1)) = 10 ^ width * (10 * 10 ^ k) := by ring
      rw [hpow, Nat.mod_mul_right_div_self, Nat.mod_mul_right_mod]
    rw [fixed, fixed, hdigit, ih (by omega)]

/-- Two numbers side by side. -/
theorem fixed_append (width : ℕ) {width' n' : ℕ} (h : n' < 10 ^ width') (n : ℕ) :
    fixed width n ++ fixed width' n' = fixed (width + width') (n * 10 ^ width' + n') := by
  induction width with
  | zero =>
    have hmod : (n * 10 ^ width' + n') % 10 ^ width' = n' := by
      rw [Nat.mul_add_mod', Nat.mod_eq_of_lt h]
    have hlow := fixed_mod width' (n * 10 ^ width' + n') (Nat.le_refl _)
    rw [hmod] at hlow
    rw [Nat.zero_add, ← hlow]
    rfl
  | succ width ih =>
    have hdigit : (n * 10 ^ width' + n') / 10 ^ (width + width') = n / 10 ^ width := by
      rw [Nat.pow_add, Nat.mul_comm (10 ^ width), ← Nat.div_div_eq_div_mul, Nat.mul_comm n,
        Nat.mul_add_div (Nat.pow_pos (by decide)), Nat.div_eq_of_lt h, Nat.add_zero]
    rw [Nat.succ_add, fixed, fixed, List.cons_append, ih, hdigit]

theorem fixed_succ (width n : ℕ) :
    fixed (width + 1) n = fixed width (n / 10) ++ [Nat.digitChar (n % 10)] := by
  have hlast : fixed 1 (n % 10) = [Nat.digitChar (n % 10)] := by
    rw [fixed, fixed, Nat.pow_zero, Nat.div_one, Nat.mod_mod]
  have happend := fixed_append width (Nat.mod_lt n (by decide : 0 < 10 ^ 1)) (n / 10)
  rw [Nat.pow_one, Nat.div_add_mod', hlast] at happend
  exact happend.symm

theorem leftpad_append (width : ℕ) (c d : Char) (s : List Char) :
    List.leftpad (width + 1) c (s ++ [d]) = List.leftpad width c s ++ [d] := by
  unfold List.leftpad
  rw [List.length_append, List.length_singleton, Nat.add_sub_add_right, List.append_assoc]

/-- What is padded with zeros. -/
theorem leftpad_toDigits {width n : ℕ} (hwidth : 0 < width) (h : n < 10 ^ width) :
    List.leftpad width '0' (Nat.toDigits 10 n) = fixed width n := by
  induction width generalizing n with
  | zero => omega
  | succ width ih =>
    by_cases hsmall : n < 10
    · have hzeros : ∀ m, fixed m 0 = List.replicate m '0' := fun m => by
        induction m with
        | zero => rfl
        | succ m ihm => rw [fixed, ihm, Nat.zero_div]; rfl
      have hdiv : n / 10 = 0 := by omega
      rw [fixed_succ, hdiv, hzeros, Nat.mod_eq_of_lt hsmall, Nat.toDigits_of_lt_base hsmall]
      rfl
    · have hpos : 0 < width := by
        rcases Nat.eq_zero_or_pos width with rfl | hpos
        · exact absurd h hsmall
        · exact hpos
      have hdiv : n / 10 < 10 ^ width := by
        rw [Nat.pow_succ] at h
        omega
      rw [fixed_succ, ← ih hpos hdiv, Nat.toDigits_of_base_le (by decide) (Nat.le_of_not_lt hsmall),
        leftpad_append]

theorem cons_lt_cons_of_lt {a b : Char} (h : a < b) (s t : List Char) : a :: s < b :: t :=
  List.cons_lt_cons_iff.mpr (.inl h)

theorem digitChar_lt {d e : ℕ} (h : d < e) (he : e < 10) : Nat.digitChar d < Nat.digitChar e := by
  have hall : ∀ e : Fin 10, ∀ d : Fin 10, d < e → Nat.digitChar d < Nat.digitChar e := by decide
  exact hall ⟨e, he⟩ ⟨d, h.trans he⟩ h

/-- Texts stand in the order of their numbers. -/
theorem fixed_lt {width m n : ℕ} (h : m < n) (hn : n < 10 ^ width) : fixed width m < fixed width n := by
  induction width generalizing m n with
  | zero => omega
  | succ width ih =>
    have hlead : m / 10 ^ width ≤ n / 10 ^ width := Nat.div_le_div_right h.le
    have hsmall : n / 10 ^ width < 10 := by
      rw [Nat.div_lt_iff_lt_mul (Nat.pow_pos (by decide)), ← Nat.pow_succ']
      exact hn
    rw [fixed, fixed, Nat.mod_eq_of_lt (hlead.trans_lt hsmall), Nat.mod_eq_of_lt hsmall]
    rcases hlead.lt_or_eq with hless | hsame
    · exact cons_lt_cons_of_lt (digitChar_lt hless hsmall) _ _
    · -- the first digits are the same, and the rest is below
      have hrest : m % 10 ^ width < n % 10 ^ width := by
        have hm := Nat.div_add_mod m (10 ^ width)
        have hn := Nat.div_add_mod n (10 ^ width)
        rw [hsame] at hm
        omega
      have htail := ih hrest (Nat.mod_lt n (Nat.pow_pos (by decide)))
      rw [fixed_mod width m (Nat.le_refl _), fixed_mod width n (Nat.le_refl _)] at htail
      rw [hsame]
      exact List.cons_lt_cons_iff.mpr (.inr ⟨rfl, htail⟩)

/-- What comes behind does not matter. -/
theorem append_lt_append {s t : List Char} (hlength : s.length = t.length) (h : s < t)
    (rest rest' : List Char) : s ++ rest < t ++ rest' := by
  induction s generalizing t with
  | nil =>
    rw [List.eq_nil_of_length_eq_zero hlength.symm] at h
    exact absurd h (List.not_lt_nil [])
  | cons a s ih =>
    cases t with
    | nil => cases hlength
    | cons b t =>
      rcases List.cons_lt_cons_iff.mp h with hab | ⟨rfl, hst⟩
      · exact cons_lt_cons_of_lt hab _ _
      · exact List.cons_lt_cons_iff.mpr (.inr ⟨rfl, ih (Nat.succ.inj hlength) hst⟩)

end Text
