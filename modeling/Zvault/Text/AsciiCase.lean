import Mathlib.Data.List.Basic
import Mathlib.Tactic.SplitIfs

/-!
# Letter case of ASCII

Rust's `to_ascii_uppercase`: what has the same upper case is equal without regard to
case.
-/

namespace Text

/-- `to_ascii_uppercase`. -/
def upper (s : String) : String := String.ofList (s.toList.map Char.toUpper)

/-- A test of all characters of a text says something of each. -/
theorem forall_mem_of_all {p : Char → Prop} [DecidablePred p] {cs : List Char}
    (h : (cs.all fun c => decide (p c)) = true) : ∀ c ∈ cs, p c :=
  fun c hc => of_decide_eq_true (List.all_eq_true.mp h c hc)

theorem isUpper_iff (c : Char) : c.isUpper = true ↔ 65 ≤ c.toNat ∧ c.toNat ≤ 90 :=
  decide_eq_true_iff

theorem isLower_iff (c : Char) : c.isLower = true ↔ 97 ≤ c.toNat ∧ c.toNat ≤ 122 :=
  Bool.and_eq_true_iff.trans (and_congr decide_eq_true_iff decide_eq_true_iff)

theorem isDigit_iff (c : Char) : c.isDigit = true ↔ 48 ≤ c.toNat ∧ c.toNat ≤ 57 :=
  Bool.and_eq_true_iff.trans (and_congr decide_eq_true_iff decide_eq_true_iff)

theorem isAlpha_iff (c : Char) :
    c.isAlpha = true ↔ (65 ≤ c.toNat ∧ c.toNat ≤ 90) ∨ (97 ≤ c.toNat ∧ c.toNat ≤ 122) :=
  Bool.or_eq_true_iff.trans (or_congr (isUpper_iff c) (isLower_iff c))

theorem isAlphanum_iff (c : Char) :
    c.isAlphanum = true ↔ ((65 ≤ c.toNat ∧ c.toNat ≤ 90) ∨ (97 ≤ c.toNat ∧ c.toNat ≤ 122)) ∨
      (48 ≤ c.toNat ∧ c.toNat ≤ 57) :=
  Bool.or_eq_true_iff.trans (or_congr (isAlpha_iff c) (isDigit_iff c))

theorem toNat_toUpper (c : Char) :
    c.toUpper.toNat = if 97 ≤ c.toNat ∧ c.toNat ≤ 122 then c.toNat - 32 else c.toNat := by
  have hlower : (97 ≤ c.val ∧ c.val ≤ 122) ↔ (97 ≤ c.toNat ∧ c.toNat ≤ 122) := Iff.rfl
  unfold Char.toUpper
  split <;> rename_i h
  · have h' := hlower.mp h
    have hshift : ('A'.val - 'a'.val).toNat = 4294967264 := by decide
    rw [if_pos h']
    simp only [Char.toNat, UInt32.toNat_add] at h' ⊢
    rw [hshift]
    omega
  · rw [if_neg fun h' => h (hlower.mpr h')]

theorem toLower_eq_self {c : Char} (h : c.isUpper = false) : c.toLower = c := by
  have hnot : ¬(65 ≤ c.toNat ∧ c.toNat ≤ 90) := fun hupper => by
    rw [(isUpper_iff c).mpr hupper] at h
    cases h
  exact dif_neg fun hupper => hnot hupper

@[simp] theorem isAlpha_toUpper (c : Char) : c.toUpper.isAlpha = c.isAlpha := by
  rw [Bool.eq_iff_iff, isAlpha_iff, isAlpha_iff, toNat_toUpper]
  split <;> omega

@[simp] theorem isAlphanum_toUpper (c : Char) : c.toUpper.isAlphanum = c.isAlphanum := by
  rw [Bool.eq_iff_iff, isAlphanum_iff, isAlphanum_iff, toNat_toUpper]
  split <;> omega

/-- Only letters change. -/
theorem toUpper_eq_iff {c d : Char} (hd : d.isAlpha = false) : c.toUpper = d ↔ c = d := by
  have hnot := mt (isAlpha_iff d).mpr (by rw [hd]; exact Bool.false_ne_true)
  rw [← Char.toNat_inj, ← Char.toNat_inj, toNat_toUpper]
  split <;> omega

@[simp] theorem toUpper_toUpper (c : Char) : c.toUpper.toUpper = c.toUpper := by
  rw [← Char.toNat_inj, toNat_toUpper, toNat_toUpper]
  split_ifs <;> omega

@[simp] theorem toList_upper (s : String) : (upper s).toList = s.toList.map Char.toUpper :=
  String.toList_ofList

@[simp] theorem upper_upper (s : String) : upper (upper s) = upper s := by
  simp [upper, Function.comp_def]

end Text
