import Mathlib.Data.List.Basic
import Mathlib.Data.Nat.Notation
import Mathlib.Algebra.Ring.Nat

/-!
# UTF-8 that need not be valid

The decoder that puts a replacement character where bytes are no UTF-8: Rust's
`String::from_utf8_lossy`, and that of the web's text decoding. Text that is encoded
is read back as it was.
-/

namespace Text

/-- U+FFFD. -/
def replacement : Char := Char.ofNat 0xFFFD

/-- What is read of a character: its code point so far, the number of bytes that are to come,
and the bounds of the next one. -/
structure Utf8Reader where
  codePoint : ℕ
  needed : ℕ
  lower : ℕ
  upper : ℕ

namespace Utf8Reader

/-- Between two characters. -/
def ready : Utf8Reader := ⟨0, 0, 0x80, 0xBF⟩

/-- The first byte of a character. -/
def first (b : ℕ) : List Char × Utf8Reader :=
  if b < 0x80 then ([Char.ofNat b], ready)
  else if 0xC2 ≤ b ∧ b ≤ 0xDF then ([], ⟨b - 0xC0, 1, 0x80, 0xBF⟩)
  else if 0xE0 ≤ b ∧ b ≤ 0xEF then
    ([], ⟨b - 0xE0, 2, if b = 0xE0 then 0xA0 else 0x80, if b = 0xED then 0x9F else 0xBF⟩)
  else if 0xF0 ≤ b ∧ b ≤ 0xF4 then
    ([], ⟨b - 0xF0, 3, if b = 0xF0 then 0x90 else 0x80, if b = 0xF4 then 0x8F else 0xBF⟩)
  else ([replacement], ready)

/-- A byte, which begins a character anew when it does not continue one. -/
def read (s : Utf8Reader) (b : ℕ) : List Char × Utf8Reader :=
  if s.needed = 0 then first b
  else if s.lower ≤ b ∧ b ≤ s.upper then
    let codePoint := s.codePoint * 64 + (b - 0x80)
    if s.needed = 1 then ([Char.ofNat codePoint], ready)
    else ([], ⟨codePoint, s.needed - 1, 0x80, 0xBF⟩)
  else (replacement :: (first b).1, (first b).2)

def run (s : Utf8Reader) : List UInt8 → List Char
  | [] => if s.needed = 0 then [] else [replacement]
  | b :: bytes => (s.read b.toNat).1 ++ run (s.read b.toNat).2 bytes

end Utf8Reader

/-- `from_utf8_lossy`. -/
def decodeLossy (bytes : List UInt8) : List Char := Utf8Reader.ready.run bytes

namespace Utf8Reader

variable {s s' : Utf8Reader} {n : ℕ} {rest : List UInt8}

theorem run_cons {out : List Char} (hn : n < 256) (h : s.read n = (out, s')) :
    s.run (UInt8.ofNat n :: rest) = out ++ s'.run rest := by
  rw [run, UInt8.toNat_ofNat_of_lt' hn, h]

theorem ready_read (b : ℕ) : ready.read b = first b := if_pos rfl

/-- A byte that continues a character. -/
theorem read_continuation (codePoint needed : ℕ) {lower upper d : ℕ}
    (h : lower ≤ d + 0x80 ∧ d + 0x80 ≤ upper) :
    read ⟨codePoint, needed + 2, lower, upper⟩ (d + 0x80) =
      ([], ⟨codePoint * 64 + d, needed + 1, 0x80, 0xBF⟩) := by
  have hmore : ¬ needed + 2 = 1 := by omega
  rw [read, if_neg (Nat.succ_ne_zero _), if_pos h, Nat.add_sub_cancel]
  exact if_neg hmore

/-- The byte that ends one. -/
theorem read_last (codePoint : ℕ) {d : ℕ} (h : d < 64) :
    read ⟨codePoint, 1, 0x80, 0xBF⟩ (d + 0x80) = ([Char.ofNat (codePoint * 64 + d)], ready) := by
  have hbounds : 0x80 ≤ d + 0x80 ∧ d + 0x80 ≤ 0xBF := by omega
  rw [read, if_neg Nat.one_ne_zero, if_pos hbounds, Nat.add_sub_cancel]
  exact if_pos rfl

/-- The bytes of a character are read as the character. -/
theorem run_utf8EncodeChar (c : Char) (rest : List UInt8) :
    ready.run (String.utf8EncodeChar c ++ rest) = c :: ready.run rest := by
  have hchar : Char.ofNat c.val.toNat = c := Char.ofNat_toNat c
  have hvalid : c.val.toNat < 0xD800 ∨ (0xDFFF < c.val.toNat ∧ c.val.toNat < 0x110000) := c.valid
  unfold String.utf8EncodeChar
  generalize c.val.toNat = v at hchar hvalid
  dsimp only
  split_ifs with h₁ h₂ h₃
  · have hfirst : ready.read v = ([Char.ofNat v], ready) := by
      rw [ready_read, first, if_pos (by omega)]
    rw [List.singleton_append, run_cons (by omega) hfirst, hchar, List.singleton_append]
  · have hfirst : ready.read (v / 64 % 0x20 + 0xC0) = ([], ⟨v / 64, 1, 0x80, 0xBF⟩) := by
      rw [ready_read, first, if_neg (by omega), if_pos (by omega), Nat.add_sub_cancel,
        Nat.mod_eq_of_lt (by omega)]
    have hlast := read_last (v / 64) (show v % 64 < 64 by omega)
    rw [show v / 64 * 64 + v % 64 = v by omega, hchar] at hlast
    simp only [List.cons_append, List.nil_append]
    rw [run_cons (by omega) hfirst, run_cons (by omega) hlast]
    rfl
  · obtain ⟨lower, upper, hfirst, hbounds⟩ : ∃ lower upper,
        ready.read (v / 4096 % 0x10 + 0xE0) = ([], ⟨v / 4096, 2, lower, upper⟩) ∧
          lower ≤ v / 64 % 64 + 0x80 ∧ v / 64 % 64 + 0x80 ≤ upper := by
      rw [ready_read, first, if_neg (by omega), if_neg (by omega), if_pos (by omega),
        Nat.add_sub_cancel, Nat.mod_eq_of_lt (by omega)]
      exact ⟨_, _, rfl, by split_ifs <;> omega⟩
    have hlast := read_last (v / 4096 * 64 + v / 64 % 64) (show v % 64 < 64 by omega)
    rw [show (v / 4096 * 64 + v / 64 % 64) * 64 + v % 64 = v by omega, hchar] at hlast
    simp only [List.cons_append, List.nil_append]
    rw [run_cons (by omega) hfirst, run_cons (by omega) (read_continuation _ 0 hbounds),
      run_cons (by omega) hlast]
    rfl
  · obtain ⟨lower, upper, hfirst, hbounds⟩ : ∃ lower upper,
        ready.read (v / 262144 % 0x08 + 0xF0) = ([], ⟨v / 262144, 3, lower, upper⟩) ∧
          lower ≤ v / 4096 % 64 + 0x80 ∧ v / 4096 % 64 + 0x80 ≤ upper := by
      rw [ready_read, first, if_neg (by omega), if_neg (by omega), if_neg (by omega),
        if_pos (by omega), Nat.add_sub_cancel, Nat.mod_eq_of_lt (by omega)]
      exact ⟨_, _, rfl, by split_ifs <;> omega⟩
    have hplain : 0x80 ≤ v / 64 % 64 + 0x80 ∧ v / 64 % 64 + 0x80 ≤ 0xBF := by omega
    have hlast := read_last ((v / 262144 * 64 + v / 4096 % 64) * 64 + v / 64 % 64)
      (show v % 64 < 64 by omega)
    rw [show ((v / 262144 * 64 + v / 4096 % 64) * 64 + v / 64 % 64) * 64 + v % 64 = v by omega,
      hchar] at hlast
    simp only [List.cons_append, List.nil_append]
    rw [run_cons (by omega) hfirst, run_cons (by omega) (read_continuation _ 1 hbounds),
      run_cons (by omega) (read_continuation _ 0 hplain), run_cons (by omega) hlast]
    rfl

end Utf8Reader

/-- Text that was encoded is read back. -/
theorem decodeLossy_utf8 (cs : List Char) :
    decodeLossy (cs.flatMap String.utf8EncodeChar) = cs := by
  unfold decodeLossy
  induction cs with
  | nil => rfl
  | cons c cs ih => rw [List.flatMap_cons, Utf8Reader.run_utf8EncodeChar, ih]

end Text

/-! ### Lengths of strings

The length of a JavaScript string counts UTF-16 code units. -/

namespace Text

/-- The UTF-16 code units of a character. -/
def utf16Size (c : Char) : ℕ := if c.toNat < 0x10000 then 1 else 2

/-- `String.prototype.length`. -/
def utf16Length (s : String) : ℕ := (s.toList.map utf16Size).sum

end Text
