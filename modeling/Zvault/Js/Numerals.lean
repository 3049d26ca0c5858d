import Zvault.Js.Numbers
import Zvault.Text.AsciiCase
import Zvault.Text.Separated
import Zvault.Text.Trim

/-!
# Numbers in texts

What `Number` makes of a text. A whole number that is written is read back.
-/

namespace Js

open Text (isJsWhitespace jsTrimmed splitOnce)

/-- Digits of a base, at least one. -/
def wholeNumber (radix : ℕ) (digits : List Char) : Option ℕ :=
  if digits = [] then none
  else digits.foldlM (fun n c =>
    let digit := if c.isDigit then c.toNat - 48 else c.toLower.toNat - 87
    if c.isAlphanum ∧ digit < radix then some (radix * n + digit) else none) 0

/-- A sign, if there is one. -/
def sign (text : List Char) : ℤ × List Char :=
  match text with
  | '+' :: rest => (1, rest)
  | '-' :: rest => (-1, rest)
  | _ => (1, text)

/-- A number without its exponent, and the exponent. -/
def splitPower (text : List Char) : Option (List Char × ℤ) :=
  match splitOnce 'e' (text.map Char.toLower) with
  | none => some (text, 0)
  | some (mantissa, exponent) =>
    (wholeNumber 10 (sign exponent).2).map fun power => (mantissa, (sign exponent).1 * power)

/-- A number with a point and an exponent. -/
def decimalNumber (text : List Char) : Option ℚ := do
  let (mantissa, power) ← splitPower text
  let (whole, fraction) := (splitOnce '.' mantissa).getD (mantissa, [])
  let n ← wholeNumber 10 (whole ++ fraction)
  return n * (10 : ℚ) ^ (power - fraction.length)

/-- `Number`. Nothing is returned for what is not a number or not finite. -/
def toNumber (text : List Char) : Option ℚ :=
  let value : Option ℚ := match jsTrimmed text with
  | [] => some 0
  | '0' :: 'x' :: digits | '0' :: 'X' :: digits => (wholeNumber 16 digits).map Nat.cast
  | '0' :: 'o' :: digits | '0' :: 'O' :: digits => (wholeNumber 8 digits).map Nat.cast
  | '0' :: 'b' :: digits | '0' :: 'B' :: digits => (wholeNumber 2 digits).map Nat.cast
  | text => (decimalNumber (sign text).2).map fun q => (sign text).1 * q
  value.map kept

/-- `Number.isInteger`, of a number that is not negative. -/
def toWhole (q : ℚ) : Option ℕ := if q.den = 1 ∧ 0 ≤ q then some q.num.toNat else none

theorem wholeNumber_toDigits (n : ℕ) : wholeNumber 10 (Nat.toDigits 10 n) = some n := by
  have hfold : ∀ (digits : List Char) (start : ℕ), (∀ c ∈ digits, c.isDigit = true) →
      digits.foldlM (fun n c =>
        let digit := if c.isDigit then c.toNat - 48 else c.toLower.toNat - 87
        if c.isAlphanum ∧ digit < 10 then some (10 * n + digit) else none) start =
        some (Nat.ofDigitChars 10 digits start) := by
    intro digits
    induction digits with
    | nil => exact fun _ _ => rfl
    | cons c digits ih =>
      intro start hdigits
      obtain ⟨hc, hdigits⟩ := List.forall_mem_cons.mp hdigits
      have hrange := (Text.isDigit_iff c).mp hc
      have halnum : c.isAlphanum = true := (Text.isAlphanum_iff c).mpr (.inr hrange)
      rw [List.foldlM_cons]
      have hdigit : c.toNat - 48 < 10 := by omega
      simp only [hc, if_true, halnum, hdigit, and_self]
      exact ih _ hdigits
  rw [wholeNumber, if_neg Nat.toDigits_ne_nil, hfold _ _ fun c hc =>
    Nat.isDigit_of_mem_toDigits (by decide) (by decide) hc, Nat.ofDigitChars_ten_toDigits]

/-- A whole number that is written is read. -/
theorem toNumber_toDigits {n : ℕ} (hn : n < 2 ^ 53) : toNumber (Nat.toDigits 10 n) = some (n : ℚ) := by
  have hdigits : ∀ c ∈ Nat.toDigits 10 n, c.isDigit = true :=
    fun c hc => Nat.isDigit_of_mem_toDigits (by decide) (by decide) hc
  have hplain : ∀ c ∈ Nat.toDigits 10 n, isJsWhitespace c = false := by
    intro c hc
    have hrange := (Text.isDigit_iff c).mp (hdigits c hc)
    have hwhite := Text.isWhitespace_eq_false (c := c) (by omega) (by omega)
    rw [isJsWhitespace, hwhite, Bool.false_and, Bool.or_false, beq_eq_false_iff_ne]
    omega
  have htrim : jsTrimmed (Nat.toDigits 10 n) = Nat.toDigits 10 n :=
    Text.jsTrimmed_eq_self (fun c hc => hplain c (List.mem_of_mem_head? hc))
      fun c hc => hplain c (List.mem_of_mem_getLast? hc)
  have hnot : ∀ {c : Char}, c.isDigit = false → c ∉ Nat.toDigits 10 n := fun hc hmem => by
    rw [hdigits _ hmem] at hc
    cases hc
  have hsign : sign (Nat.toDigits 10 n) = (1, Nat.toDigits 10 n) := by
    unfold sign
    split
    · rename_i rest htext
      exact absurd (htext ▸ List.mem_cons_self) (hnot (c := '+') (by decide))
    · rename_i rest htext
      exact absurd (htext ▸ List.mem_cons_self) (hnot (c := '-') (by decide))
    · rfl
  have hlower : (Nat.toDigits 10 n).map Char.toLower = Nat.toDigits 10 n := by
    refine List.map_congr_left (fun c hc => Text.toLower_eq_self ?_) |>.trans (List.map_id _)
    have hrange := (Text.isDigit_iff c).mp (hdigits c hc)
    rw [Bool.eq_false_iff, ne_eq, Text.isUpper_iff]
    omega
  have hdecimal : decimalNumber (Nat.toDigits 10 n) = some (n : ℚ) := by
    have hpower : splitPower (Nat.toDigits 10 n) = some (Nat.toDigits 10 n, 0) := by
      rw [splitPower, hlower, Text.splitOnce_of_not_mem (hnot (by decide))]
    rw [decimalNumber, hpower]
    simp only [Option.bind_eq_bind, Option.bind_some, Text.splitOnce_of_not_mem (hnot (c := '.')
      (by decide)), Option.getD_none, List.append_nil, wholeNumber_toDigits]
    simp
  have hletter : ∀ {c d : Char} {rest : List Char}, d.isDigit = false →
      Nat.toDigits 10 n ≠ c :: d :: rest := fun hd htext =>
    hnot hd (htext ▸ List.mem_cons_of_mem _ List.mem_cons_self)
  unfold toNumber
  dsimp only
  rw [htrim]
  split
  · rename_i htext
    exact absurd htext Nat.toDigits_ne_nil
  · rename_i htext
    exact absurd htext (hletter (by decide))
  · rename_i htext
    exact absurd htext (hletter (by decide))
  · rename_i htext
    exact absurd htext (hletter (by decide))
  · rename_i htext
    exact absurd htext (hletter (by decide))
  · rename_i htext
    exact absurd htext (hletter (by decide))
  · rename_i htext
    exact absurd htext (hletter (by decide))
  · rw [hsign, hdecimal, Option.map_some, Option.map_some, Int.cast_one, one_mul, kept_natCast hn]

theorem toWhole_natCast (n : ℕ) : toWhole (n : ℚ) = some n := by
  rw [toWhole, if_pos ⟨Rat.den_natCast n, Nat.cast_nonneg n⟩]
  rfl

end Js
