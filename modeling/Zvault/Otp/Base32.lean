import Zvault.Bytes.Regroup
import Zvault.Text.AsciiCase

/-!
# Base32 of setup keys

`base32_decode` and `base32_encode` of `zvault-otp`. A key that is written is read
back as the same bytes.
-/

namespace Zvault.Otp

open Regroup (Holds)

/-- `BASE32`. -/
def base32 : List Char := "ABCDEFGHIJKLMNOPQRSTUVWXYZ234567".toList

/-- Characters that a key may be broken up with. -/
def skipped : List Char := [' ', '-', '=', '\t']

structure Decoder where
  out : List UInt8
  buffer : ℕ
  bits : ℕ

/-- The five bits of one character. -/
def Decoder.push (s : Decoder) (value : ℕ) : Decoder :=
  let buffer := (s.buffer <<< 5) ||| value
  let bits := s.bits + 5
  if 8 ≤ bits then
    let bits := bits - 8
    ⟨s.out ++ [UInt8.ofNat (buffer >>> bits)], buffer &&& (1 <<< bits - 1), bits⟩
  else ⟨s.out, buffer, bits⟩

def Decoder.read (s : Decoder) (c : Char) : Option Decoder :=
  if c ∈ skipped then some s else (base32.idxOf? c.toUpper).map s.push

def base32Decode (input : List Char) : Option (List UInt8) :=
  (input.foldlM Decoder.read ⟨[], 0, 0⟩).map (·.out)

/-- The loop `while bits >= 5`, which leaves `bits % 5`. -/
def drain (buffer : ℕ) : ℕ → List ℕ
  | bits + 5 => ((buffer >>> bits) &&& 31) :: drain buffer bits
  | _ => []

/-- The numbers of the characters that are written, and the buffer. -/
structure Encoder where
  out : List ℕ
  buffer : ℕ
  bits : ℕ

def Encoder.read (s : Encoder) (b : UInt8) : Encoder :=
  let buffer := (s.buffer <<< 8) ||| b.toNat
  let bits := s.bits + 8
  ⟨s.out ++ drain buffer bits, buffer &&& (1 <<< (bits % 5) - 1), bits % 5⟩

def Encoder.finish (s : Encoder) : List ℕ :=
  if 0 < s.bits then s.out ++ [(s.buffer <<< (5 - s.bits)) &&& 31] else s.out

def symbol (d : ℕ) : Char := base32.getD d 'A'

def base32Encode (bytes : List UInt8) : List Char :=
  (bytes.foldl Encoder.read ⟨[], 0, 0⟩).finish.map symbol

theorem symbol_ne : ∀ d : Fin 32, symbol d ∉ skipped ∧ base32.idxOf? (symbol d).toUpper = some d.val ∧
    (symbol d).isAlphanum = true := by
  decide

theorem and_mask (buffer bits : ℕ) : buffer &&& (1 <<< bits - 1) = buffer % 2 ^ bits := by
  rw [Nat.one_shiftLeft, Nat.and_two_pow_sub_one_eq_mod]

/-- A character is read. -/
theorem Decoder.holds_push {s : Decoder} {read : List ℕ} {value : ℕ}
    (h : Holds 5 8 read (s.out.map UInt8.toNat) s.buffer s.bits) (hbits : s.bits < 8)
    (hvalue : value < 32) :
    Holds 5 8 (read ++ [value]) ((s.push value).out.map UInt8.toNat) (s.push value).buffer
      (s.push value).bits ∧ (s.push value).bits < 8 := by
  have htake := h.take (d := value) hvalue
  have hbuffer : (s.buffer <<< 5) ||| value = s.buffer * 2 ^ 5 + value := by
    rw [← Nat.shiftLeft_add_eq_or_of_lt hvalue, Nat.shiftLeft_eq]
  simp only [push, hbuffer, and_mask]
  split
  · rename_i hfull
    obtain ⟨bits, hsum⟩ := Nat.exists_eq_add_of_le' hfull
    rw [hsum] at htake ⊢
    have hemit := htake.emit
    have hdigit := hemit.out_lt _ (List.mem_append_right _ (List.mem_singleton_self _))
    rw [Nat.add_sub_cancel, Nat.shiftRight_eq_div_pow, List.map_append, List.map_singleton,
      UInt8.toNat_ofNat_of_lt' hdigit]
    exact ⟨hemit, by change bits < 8; omega⟩
  · exact ⟨htake, by change s.bits + 5 < 8; omega⟩

theorem Decoder.read_symbol (s : Decoder) {d : ℕ} (hd : d < 32) :
    s.read (symbol d) = some (s.push d) := by
  obtain ⟨hskip, hidx, -⟩ := symbol_ne ⟨d, hd⟩
  rw [read, if_neg hskip, hidx, Option.map_some]

/-- Written characters are all read. -/
theorem Decoder.holds_foldlM (digits : List ℕ) (hdigits : ∀ d ∈ digits, d < 32) :
    ∃ s, (digits.map symbol).foldlM Decoder.read ⟨[], 0, 0⟩ = some s ∧
      Holds 5 8 digits (s.out.map UInt8.toNat) s.buffer s.bits ∧ s.bits < 8 := by
  rw [List.foldlM_map]
  refine Regroup.exists_foldlM (P := (· < 32))
    (I := fun digits (s : Decoder) =>
      Holds 5 8 digits (s.out.map UInt8.toNat) s.buffer s.bits ∧ s.bits < 8)
    ⟨[], 0, 0⟩ ⟨Holds.start 5 8, by decide⟩ ?_ hdigits
  intro digits s d hs hd
  exact ⟨s.push d, s.read_symbol hd, holds_push hs.1 hs.2 hd⟩

/-- Bits above those that are left do not matter. -/
theorem drain_mod (buffer : ℕ) {bits m : ℕ} (h : bits ≤ m) :
    drain (buffer % 2 ^ m) bits = drain buffer bits := by
  induction bits using drain.induct with
  | case1 bits ih =>
    rw [drain, drain, ih (by omega)]
    congr 1
    refine Nat.eq_of_testBit_eq fun i => ?_
    have hmask : (31 : ℕ) = 2 ^ 5 - 1 := rfl
    rw [hmask]
    simp only [Nat.testBit_and, Nat.testBit_shiftRight, Nat.testBit_mod_two_pow,
      Nat.testBit_two_pow_sub_one]
    by_cases hi : i < 5
    · simp [hi, show bits + i < m by omega]
    · simp [hi]
  | case2 bits hsmall =>
    rw [drain.eq_2 _ _ hsmall, drain.eq_2 _ _ hsmall]

/-- The loop takes digits while there are five bits. -/
theorem holds_drain {read out : List ℕ} {buffer bits : ℕ} (h : Holds 8 5 read out buffer bits) :
    Holds 8 5 read (out ++ drain buffer bits) (buffer % 2 ^ (bits % 5)) (bits % 5) := by
  induction bits using drain.induct generalizing out buffer with
  | case1 bits ih =>
    have hemit := h.emit
    have hdigit := hemit.out_lt _ (List.mem_append_right _ (List.mem_singleton_self _))
    have hnext := ih hemit
    have hmask : buffer >>> bits &&& 31 = buffer / 2 ^ bits := by
      rw [Nat.shiftRight_eq_div_pow, show (31 : ℕ) = 2 ^ 5 - 1 from rfl,
        Nat.and_two_pow_sub_one_eq_mod, Nat.mod_eq_of_lt hdigit]
    have hmod : buffer % 2 ^ bits % 2 ^ (bits % 5) = buffer % 2 ^ (bits % 5) :=
      Nat.mod_mod_of_dvd _ (Nat.pow_dvd_pow 2 (Nat.mod_le bits 5))
    rw [drain_mod buffer (Nat.le_refl bits), hmod, List.append_assoc, List.singleton_append] at hnext
    have hrest : (bits + 5) % 5 = bits % 5 := Nat.add_mod_right bits 5
    rw [drain, hmask, hrest]
    exact hnext
  | case2 bits hsmall =>
    have hlt : bits < 5 := by
      by_contra hge
      exact hsmall (bits - 5) (by omega)
    rw [drain.eq_2 _ _ hsmall, List.append_nil, Nat.mod_eq_of_lt hlt, Nat.mod_eq_of_lt h.buffer_lt]
    exact h

/-- A byte is written. -/
theorem Encoder.holds_read {s : Encoder} {read : List ℕ} (h : Holds 8 5 read s.out s.buffer s.bits)
    (b : UInt8) :
    Holds 8 5 (read ++ [b.toNat]) (s.read b).out (s.read b).buffer (s.read b).bits := by
  have hbuffer : (s.buffer <<< 8) ||| b.toNat = s.buffer * 2 ^ 8 + b.toNat := by
    rw [← Nat.shiftLeft_add_eq_or_of_lt b.toNat_lt, Nat.shiftLeft_eq]
  simp only [Encoder.read, hbuffer, and_mask]
  exact holds_drain (h.take b.toNat_lt)

theorem Encoder.holds_foldl (bytes : List UInt8) :
    let s := bytes.foldl Encoder.read ⟨[], 0, 0⟩
    Holds 8 5 (bytes.map UInt8.toNat) s.out s.buffer s.bits ∧ s.bits < 5 := by
  induction bytes using List.reverseRecOn with
  | nil => exact ⟨Holds.start 8 5, by decide⟩
  | append_singleton bytes b ih =>
    rw [List.foldl_append, List.map_append]
    exact ⟨holds_read ih.1 b, Nat.mod_lt _ (by decide)⟩

/-- The digits that are written are the bytes, filled up to whole digits. -/
theorem Encoder.finish_spec (bytes : List UInt8) :
    let digits := (bytes.foldl Encoder.read ⟨[], 0, 0⟩).finish
    ∃ p < 5, Radix.value (2 ^ 5) digits = Radix.value (2 ^ 8) (bytes.map UInt8.toNat) * 2 ^ p ∧
      5 * digits.length = 8 * bytes.length + p ∧ ∀ d ∈ digits, d < 2 ^ 5 := by
  obtain ⟨hholds, hbits⟩ := holds_foldl bytes
  generalize bytes.foldl Encoder.read ⟨[], 0, 0⟩ = s at hholds hbits
  intro digits
  have hdigits : digits = s.finish := rfl
  unfold finish at hdigits
  split at hdigits
  · rename_i hpos
    obtain ⟨hvalue, hlength, hlt⟩ := hholds.fill hbits.le
    rw [Nat.shiftLeft_eq, show (31 : ℕ) = 2 ^ 5 - 1 from rfl, Nat.and_two_pow_sub_one_eq_mod,
      Nat.mod_eq_of_lt hlt] at hdigits
    refine ⟨5 - s.bits, by omega, by rw [hdigits, hvalue], ?_, ?_⟩
    · simpa [hdigits] using hlength
    · intro d hd
      rw [hdigits] at hd
      rcases List.mem_append.mp hd with hd | hd
      · exact hholds.out_lt d hd
      · rw [List.mem_singleton.mp hd]
        exact hlt
  · rename_i hzero
    have hbits : s.bits = 0 := by omega
    have hvalue := hholds.value_eq
    have hlength := hholds.length_eq
    have hbuffer := hholds.buffer_lt
    rw [hbits] at hvalue hlength hbuffer
    refine ⟨0, by decide, ?_, ?_, ?_⟩
    · rw [hdigits, hvalue]
      omega
    · rw [List.length_map] at hlength
      rw [hdigits]
      exact hlength.symm
    · rw [hdigits]
      exact hholds.out_lt

theorem map_toNat_injective : Function.Injective (List.map UInt8.toNat) :=
  List.map_injective_iff.mpr fun _ _ h => UInt8.toNat_inj.mp h

/-- Whoever reads all digits that were written has the bytes. -/
theorem out_eq_of_holds {bytes out : List UInt8} {buffer bits : ℕ}
    (h : Holds 5 8 (bytes.foldl Encoder.read ⟨[], 0, 0⟩).finish (out.map UInt8.toNat) buffer bits)
    (hbits : bits < 8) : out = bytes := by
  obtain ⟨p, hp, hvalue, hlength, -⟩ := Encoder.finish_spec bytes
  refine map_toNat_injective (h.out_eq (by decide) hbits (by omega : p < 8) hvalue ?_ ?_)
  · rw [hlength, List.length_map]
  · intro d hd
    obtain ⟨b, -, rfl⟩ := List.mem_map.mp hd
    exact b.toNat_lt

theorem Encoder.finish_lt (bytes : List UInt8) :
    ∀ d ∈ (bytes.foldl Encoder.read ⟨[], 0, 0⟩).finish, d < 32 := by
  obtain ⟨p, -, -, -, hdigits⟩ := Encoder.finish_spec bytes
  exact hdigits

/-- A written key is read back. -/
theorem base32Decode_base32Encode (bytes : List UInt8) :
    base32Decode (base32Encode bytes) = some bytes := by
  obtain ⟨s, hfold, hholds, hbits⟩ := Decoder.holds_foldlM _ (Encoder.finish_lt bytes)
  rw [base32Decode, base32Encode, hfold, Option.map_some, out_eq_of_holds hholds hbits]

example : base32Encode [72, 101, 108, 108, 111, 33] = "JBSWY3DPEE".toList := by decide

/-- The length of a written key, and its characters. -/
theorem length_base32Encode (bytes : List UInt8) :
    (base32Encode bytes).length = (8 * bytes.length + 4) / 5 := by
  obtain ⟨p, hp, -, hlength, -⟩ := Encoder.finish_spec bytes
  rw [base32Encode, List.length_map]
  omega

theorem isAlphanum_of_mem_base32Encode {bytes : List UInt8} {c : Char}
    (h : c ∈ base32Encode bytes) : c.isAlphanum = true := by
  obtain ⟨p, hp, -, -, hdigits⟩ := Encoder.finish_spec bytes
  obtain ⟨d, hd, rfl⟩ := List.mem_map.mp h
  exact (symbol_ne ⟨d, hdigits d hd⟩).2.2

end Zvault.Otp
