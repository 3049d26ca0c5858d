import Mathlib.Data.List.TakeWhile
import Zvault.Otp.Base32
import Zvault.Text.Trim

/-!
# Base32 of the second factor

`base32Encode` and `base32Decode` of `apps/api/src/two-factor/totp.ts`. The bits that
were used stay on the top of a word of 32 bits until they are shifted out, and only its
low bits matter.
-/

namespace Zvault.TwoFactor

open Regroup (Holds)

/-- `BASE32_ALPHABET`. -/
def base32Alphabet : List Char := "ABCDEFGHIJKLMNOPQRSTUVWXYZ234567".toList

/-- `BASE32_ALPHABET[index]`. -/
def letter (index : UInt32) : Char := base32Alphabet.getD index.toNat 'A'

structure Encoder where
  out : List Char
  value : UInt32
  bits : ℕ

/-- The loop `while (bits >= 5)`, which leaves `bits % 5`. -/
def emit (value : UInt32) : ℕ → List Char
  | bits + 5 => letter ((value >>> .ofNat bits) &&& 31) :: emit value bits
  | _ => []

def Encoder.read (s : Encoder) (byte : UInt8) : Encoder :=
  let value := (s.value <<< 8) ||| byte.toUInt32
  let bits := s.bits + 8
  ⟨s.out ++ emit value bits, value, bits % 5⟩

def Encoder.finish (s : Encoder) : List Char :=
  if 0 < s.bits then s.out ++ [letter ((s.value <<< .ofNat (5 - s.bits)) &&& 31)] else s.out

/-- `base32Encode`. -/
def base32Encode (bytes : List UInt8) : List Char := (bytes.foldl Encoder.read ⟨[], 0, 0⟩).finish

structure Decoder where
  out : List UInt8
  value : UInt32
  bits : ℕ

/-- The five bits of one character. -/
def Decoder.push (s : Decoder) (index : ℕ) : Decoder :=
  let value := (s.value <<< 5) ||| .ofNat index
  let bits := s.bits + 5
  if 8 ≤ bits then
    ⟨s.out ++ [((value >>> .ofNat (bits - 8)) &&& 0xff).toUInt8], value, bits - 8⟩
  else ⟨s.out, value, bits⟩

/-- One round of the loop, which throws for what is not in the alphabet. -/
def Decoder.read (s : Decoder) (c : Char) : Option Decoder := (base32Alphabet.idxOf? c).map s.push

/-- The upper case of the characters beyond ASCII whose upper case is ASCII. -/
def foldedUpper (c : Char) : Option (List Char) :=
  match c with
  | 'ß' => some ['S', 'S']
  | 'ı' => some ['I']
  | 'ſ' => some ['S']
  | '\uFB00' => some ['F', 'F']
  | '\uFB01' => some ['F', 'I']
  | '\uFB02' => some ['F', 'L']
  | '\uFB03' => some ['F', 'F', 'I']
  | '\uFB04' => some ['F', 'F', 'L']
  | '\uFB05' => some ['S', 'T']
  | '\uFB06' => some ['S', 'T']
  | _ => none

/-- Upper case of the other characters beyond ASCII, which is not ASCII. -/
structure Casing where
  beyond : Char → List Char
  foreign : ∀ c, 128 ≤ c.toNat → foldedUpper c = none → ∃ d ∈ beyond c, 128 ≤ d.toNat

/-- `toUpperCase`, of one character. -/
def Casing.upper (casing : Casing) (c : Char) : List Char :=
  if c.toNat < 128 then [c.toUpper] else (foldedUpper c).getD (casing.beyond c)

/-- `s.replace(/=+$/, '')`. -/
def withoutPadding (s : List Char) : List Char := (s.reverse.dropWhile (· == '=')).reverse

/-- `base32Decode`. Nothing is returned where it throws. -/
def base32Decode (casing : Casing) (s : List Char) : Option (List UInt8) :=
  (((withoutPadding s).flatMap casing.upper).foldlM Decoder.read ⟨[], 0, 0⟩).map (·.out)

section Words

/-- What is shifted in is put behind what is there, and a word keeps 32 bits of it. -/
theorem toNat_shiftLeft_or (value : UInt32) {k d : UInt32} (hk : k.toNat < 32) (hd : d.toNat < 2 ^ k.toNat) :
    ((value <<< k) ||| d).toNat = (value.toNat * 2 ^ k.toNat + d.toNat) % 2 ^ 32 := by
  obtain ⟨rest, hrest⟩ := Nat.exists_eq_add_of_le' hk.le
  have hpow : 2 ^ 32 = 2 ^ rest * 2 ^ k.toNat := by rw [← Nat.pow_add, ← hrest]
  have hkept : value.toNat * 2 ^ k.toNat % 2 ^ 32 = (value.toNat % 2 ^ rest) <<< k.toNat := by
    rw [hpow, Nat.mul_mod_mul_right, Nat.shiftLeft_eq]
  have hbehind := Regroup.mod_mul_add hd value.toNat rest
  rw [← hrest] at hbehind
  rw [UInt32.toNat_or, UInt32.toNat_shiftLeft, Nat.mod_eq_of_lt hk, Nat.shiftLeft_eq, hkept,
    ← Nat.shiftLeft_add_eq_or_of_lt hd, Nat.shiftLeft_eq, hbehind]

/-- Bits that are cut out of a word. -/
theorem toNat_shiftRight_and {value mask : UInt32} {k m : ℕ} (hk : k < 32)
    (hmask : mask.toNat = 2 ^ m - 1) :
    ((value >>> .ofNat k) &&& mask).toNat = value.toNat / 2 ^ k % 2 ^ m := by
  have hshift : (UInt32.ofNat k).toNat % 32 = k := by
    rw [UInt32.toNat_ofNat_of_lt' (hk.trans (by decide)), Nat.mod_eq_of_lt hk]
  rw [UInt32.toNat_and, UInt32.toNat_shiftRight, hshift, hmask, Nat.and_two_pow_sub_one_eq_mod,
    Nat.shiftRight_eq_div_pow]

end Words

section Encode

/-- The encoder has written what `zvault-otp` writes, and its word ends with the bits that are
left. -/
structure Follows (s : Encoder) (t : Otp.Encoder) : Prop where
  out_eq : s.out = t.out.map Otp.symbol
  bits_eq : s.bits = t.bits
  buffer_eq : t.buffer = s.value.toNat % 2 ^ t.bits
  bits_lt : t.bits < 5

theorem emit_eq (value : UInt32) {bits : ℕ} (hbits : bits < 32) :
    emit value bits = (Otp.drain value.toNat bits).map Otp.symbol := by
  induction bits using emit.induct with
  | case1 bits ih =>
    have hindex : ((value >>> .ofNat bits) &&& 31).toNat = (value.toNat >>> bits) &&& 31 := by
      rw [toNat_shiftRight_and (by omega) (show (31 : UInt32).toNat = 2 ^ 5 - 1 from rfl),
        Nat.shiftRight_eq_div_pow, ← Nat.and_two_pow_sub_one_eq_mod]
    rw [emit, Otp.drain, List.map_cons, ih (by omega), ← hindex]
    rfl
  | case2 bits hsmall => rw [emit.eq_2 _ _ hsmall, Otp.drain.eq_2 _ _ hsmall, List.map_nil]

theorem Follows.read {s : Encoder} {t : Otp.Encoder} (h : Follows s t) (byte : UInt8) :
    Follows (s.read byte) (t.read byte) := by
  obtain ⟨hout, hbits, hbuffer, hlt⟩ := h
  have hbyte : byte.toUInt32.toNat < 2 ^ (8 : UInt32).toNat := by
    rw [UInt8.toNat_toUInt32]
    exact byte.toNat_lt
  have hvalue := toNat_shiftLeft_or s.value (by decide) hbyte
  rw [UInt8.toNat_toUInt32] at hvalue hbyte
  change ((s.value <<< 8) ||| byte.toUInt32).toNat = (s.value.toNat * 2 ^ 8 + byte.toNat) % 2 ^ 32
    at hvalue
  have hor : (t.buffer <<< 8) ||| byte.toNat = t.buffer * 2 ^ 8 + byte.toNat := by
    rw [← Nat.shiftLeft_add_eq_or_of_lt byte.toNat_lt, Nat.shiftLeft_eq]
  -- what `zvault-otp` has in its buffer are the low bits of the word
  have hlow : t.buffer * 2 ^ 8 + byte.toNat =
      ((s.value <<< 8) ||| byte.toUInt32).toNat % 2 ^ (t.bits + 8) := by
    rw [hvalue, Nat.mod_mod_of_dvd _ (Nat.pow_dvd_pow 2 (by omega)), Regroup.mod_mul_add byte.toNat_lt,
      hbuffer]
  simp only [Encoder.read, Otp.Encoder.read, hor, hlow, hbits, Otp.and_mask]
  refine ⟨?_, rfl, ?_, Nat.mod_lt _ (by decide)⟩
  · change s.out ++ emit _ _ = _
    rw [emit_eq _ (by omega), Otp.drain_mod _ (Nat.le_refl _), hout, List.map_append]
  · exact Nat.mod_mod_of_dvd _ (Nat.pow_dvd_pow 2 (Nat.mod_le _ _))

/-- The last bits are filled up alike. -/
theorem Follows.finish {s : Encoder} {t : Otp.Encoder} (h : Follows s t) :
    s.finish = t.finish.map Otp.symbol := by
  obtain ⟨hout, hbits, hbuffer, hlt⟩ := h
  have hindex : ((s.value <<< .ofNat (5 - t.bits)) &&& 31).toNat =
      (t.buffer <<< (5 - t.bits)) &&& 31 := by
    have hshift : (UInt32.ofNat (5 - t.bits)).toNat % 32 = 5 - t.bits := by
      rw [UInt32.toNat_ofNat_of_lt' (show 5 - t.bits < 2 ^ 32 by omega), Nat.mod_eq_of_lt (by omega)]
    have hfive : 2 ^ t.bits * 2 ^ (5 - t.bits) = 2 ^ 5 := by
      rw [← Nat.pow_add]
      congr 1
      omega
    have hmask : (31 : UInt32).toNat = 2 ^ 5 - 1 := rfl
    have hmask' : (31 : ℕ) = 2 ^ 5 - 1 := rfl
    rw [UInt32.toNat_and, UInt32.toNat_shiftLeft, hshift, hmask, hmask', Nat.and_two_pow_sub_one_eq_mod,
      Nat.and_two_pow_sub_one_eq_mod, Nat.mod_mod_of_dvd _ (Nat.pow_dvd_pow 2 (by decide)),
      Nat.shiftLeft_eq, Nat.shiftLeft_eq, hbuffer, ← hfive, Nat.mul_mod_mul_right,
      Nat.mul_mod_mul_right, Nat.mod_mod]
  unfold Encoder.finish Otp.Encoder.finish
  rw [hbits, hout]
  split
  · rw [List.map_append, List.map_singleton, ← hindex]
    rfl
  · rfl

/-- Both write the same. -/
theorem base32Encode_eq (bytes : List UInt8) : base32Encode bytes = Otp.base32Encode bytes := by
  have hfollows : Follows (bytes.foldl Encoder.read ⟨[], 0, 0⟩)
      (bytes.foldl Otp.Encoder.read ⟨[], 0, 0⟩) := by
    induction bytes using List.reverseRecOn with
    | nil => exact ⟨rfl, rfl, rfl, by decide⟩
    | append_singleton bytes byte ih =>
      rw [List.foldl_append, List.foldl_append]
      exact ih.read byte
  exact hfollows.finish

end Encode

section Decode

/-- A character is read: the word ends with the bits that are left. -/
theorem Decoder.holds_push {s : Decoder} {read : List ℕ} {index : ℕ}
    (h : Holds 5 8 read (s.out.map UInt8.toNat) (s.value.toNat % 2 ^ s.bits) s.bits)
    (hbits : s.bits < 8) (hindex : index < 32) :
    Holds 5 8 (read ++ [index]) ((s.push index).out.map UInt8.toNat)
      ((s.push index).value.toNat % 2 ^ (s.push index).bits) (s.push index).bits ∧
      (s.push index).bits < 8 := by
  have hnat : (UInt32.ofNat index).toNat = index :=
    UInt32.toNat_ofNat_of_lt' (hindex.trans (by decide))
  have hlt : (UInt32.ofNat index).toNat < 2 ^ (5 : UInt32).toNat := by
    rw [hnat]
    exact hindex
  have hvalue := toNat_shiftLeft_or s.value (by decide) hlt
  rw [hnat] at hvalue
  have htake := h.take_mod hindex (show s.bits + 5 ≤ 32 by omega)
  have hword : ((s.value <<< 5) ||| .ofNat index).toNat = (s.value.toNat * 2 ^ 5 + index) % 2 ^ 32 :=
    hvalue
  rw [← hword] at htake
  unfold push
  dsimp only
  generalize (s.value <<< 5) ||| .ofNat index = value at htake
  split
  · rename_i hfull
    obtain ⟨bits, hsum⟩ := Nat.exists_eq_add_of_le' hfull
    rw [hsum] at htake ⊢
    have hbyte : ((value >>> .ofNat bits) &&& 0xff).toUInt8.toNat = value.toNat / 2 ^ bits % 2 ^ 8 := by
      rw [UInt32.toNat_toUInt8, toNat_shiftRight_and (by omega)
        (show (0xff : UInt32).toNat = 2 ^ 8 - 1 from rfl), Nat.mod_mod]
    rw [Nat.add_sub_cancel, List.map_append, List.map_singleton, hbyte]
    exact ⟨htake.emit_mod, by change bits < 8; omega⟩
  · exact ⟨htake, by change s.bits + 5 < 8; omega⟩

theorem Decoder.read_symbol (s : Decoder) {d : ℕ} (hd : d < 32) :
    s.read (Otp.symbol d) = some (s.push d) := by
  have hall : ∀ d : Fin 32, base32Alphabet.idxOf? (Otp.symbol d) = some d.val := by decide
  rw [read, hall ⟨d, hd⟩, Option.map_some]

/-- Written characters are all read. -/
theorem Decoder.holds_foldlM (digits : List ℕ) (hdigits : ∀ d ∈ digits, d < 32) :
    ∃ s, (digits.map Otp.symbol).foldlM Decoder.read ⟨[], 0, 0⟩ = some s ∧
      Holds 5 8 digits (s.out.map UInt8.toNat) (s.value.toNat % 2 ^ s.bits) s.bits ∧ s.bits < 8 := by
  rw [List.foldlM_map]
  refine Regroup.exists_foldlM (P := (· < 32))
    (I := fun digits (s : Decoder) =>
      Holds 5 8 digits (s.out.map UInt8.toNat) (s.value.toNat % 2 ^ s.bits) s.bits ∧ s.bits < 8)
    ⟨[], 0, 0⟩ ⟨Holds.start 5 8, by decide⟩ ?_ hdigits
  intro digits s d hs hd
  exact ⟨s.push d, s.read_symbol hd, holds_push hs.1 hs.2 hd⟩

variable (casing : Casing)

/-- A letter or a digit of the alphabet, in upper or lower case. -/
def IsBase32 (c : Char) : Prop := c.toUpper ∈ base32Alphabet

instance (c : Char) : Decidable (IsBase32 c) := inferInstanceAs (Decidable (_ ∈ _))

theorem withoutPadding_eq_self {s : List Char} (hs : '=' ∉ s) : withoutPadding s = s := by
  have hhead : ∀ c ∈ s.reverse.head?, (c == '=') = false := by
    intro c hc
    rw [beq_eq_false_iff_ne]
    rintro rfl
    exact hs (List.mem_reverse.mp (List.mem_of_mem_head? hc))
  rw [withoutPadding, Text.dropWhile_eq_self_of_head? hhead, List.reverse_reverse]

theorem withoutPadding_append (s : List Char) (n : ℕ) :
    withoutPadding (s ++ List.replicate n '=') = withoutPadding s := by
  have hpadding : ∀ c ∈ List.replicate n '=', (c == '=') = true := fun c hc => by
    rw [List.eq_of_mem_replicate hc]
    rfl
  rw [withoutPadding, List.reverse_append, List.reverse_replicate,
    List.dropWhile_append_of_pos hpadding, withoutPadding]

theorem mem_of_mem_withoutPadding {s : List Char} {c : Char} (h : c ∈ withoutPadding s) : c ∈ s :=
  List.mem_reverse.mp ((List.dropWhile_sublist _).subset (List.mem_reverse.mp h))

/-- What is taken away is padding. -/
theorem mem_withoutPadding_of_ne {s : List Char} {c : Char} (hc : c ∈ s) (hne : c ≠ '=') :
    c ∈ withoutPadding s := by
  have hsplit := List.takeWhile_append_dropWhile (p := (· == '=')) (l := s.reverse)
  have hmem := List.mem_reverse.mpr hc
  rw [← hsplit] at hmem
  rcases List.mem_append.mp hmem with hpadding | hrest
  · have hpad : (c == '=') = true := List.mem_takeWhile_imp (p := (· == '=')) hpadding
    exact absurd (beq_iff_eq.mp hpad) hne
  · exact List.mem_reverse.mpr hrest

theorem withoutPadding_map_toUpper (s : List Char) :
    withoutPadding (s.map Char.toUpper) = (withoutPadding s).map Char.toUpper := by
  have hpadding : ((· == '=') ∘ Char.toUpper : Char → Bool) = (· == '=') := by
    funext c
    rw [Bool.eq_iff_iff, Function.comp_apply, beq_iff_eq, beq_iff_eq, Text.toUpper_eq_iff (by decide)]
  rw [withoutPadding, ← List.map_reverse, List.dropWhile_map, hpadding, ← List.map_reverse,
    withoutPadding]

theorem Casing.upper_toUpper (c : Char) : casing.upper c.toUpper = casing.upper c := by
  have hnat := Text.toNat_toUpper c
  unfold Casing.upper
  by_cases hascii : c.toNat < 128
  · have hupper : c.toUpper.toNat < 128 := by split_ifs at hnat <;> omega
    rw [if_pos hascii, if_pos hupper, Text.toUpper_toUpper]
  · have hsame : c.toUpper = c := Char.toNat_inj.mp (by rw [hnat, if_neg (by omega)])
    rw [hsame, hsame]

theorem Casing.upper_symbol {d : ℕ} (hd : d < 32) :
    casing.upper (Otp.symbol d) = [Otp.symbol d] := by
  have hall : ∀ d : Fin 32, (Otp.symbol d).toNat < 128 ∧ (Otp.symbol d).toUpper = Otp.symbol d := by
    decide
  obtain ⟨hascii, hupper⟩ := hall ⟨d, hd⟩
  rw [Casing.upper, if_pos hascii, hupper]

theorem base32Decode_base32Encode (bytes : List UInt8) :
    base32Decode casing (base32Encode bytes) = some bytes := by
  have hdigits := Otp.Encoder.finish_lt bytes
  obtain ⟨s, hfold, hholds, hbits⟩ := Decoder.holds_foldlM _ hdigits
  have hplain : '=' ∉ Otp.base32Encode bytes := fun hmem =>
    absurd (Otp.isAlphanum_of_mem_base32Encode hmem) (by decide)
  have hupper : (Otp.base32Encode bytes).flatMap casing.upper = Otp.base32Encode bytes := by
    refine (List.flatMap_congr fun c hc => ?_).trans (List.flatMap_singleton' _)
    obtain ⟨d, hd, rfl⟩ := List.mem_map.mp hc
    exact casing.upper_symbol (hdigits d hd)
  rw [base32Decode, base32Encode_eq, withoutPadding_eq_self hplain, hupper, Otp.base32Encode, hfold,
    Option.map_some, Otp.out_eq_of_holds hholds hbits]

theorem base32Decode_map_toUpper (s : List Char) :
    base32Decode casing (s.map Char.toUpper) = base32Decode casing s := by
  rw [base32Decode, withoutPadding_map_toUpper, List.flatMap_map, base32Decode]
  simp only [casing.upper_toUpper]

theorem base32Decode_append (s : List Char) (n : ℕ) :
    base32Decode casing (s ++ List.replicate n '=') = base32Decode casing s := by
  rw [base32Decode, withoutPadding_append, base32Decode]

/-- Only characters of the alphabet are read. -/
theorem foldlM_eq_none_iff {cs : List Char} {s : Decoder} :
    cs.foldlM Decoder.read s = none ↔ ∃ c ∈ cs, c ∉ base32Alphabet := by
  induction cs generalizing s with
  | nil => simp
  | cons c cs ih =>
    rw [List.foldlM_cons, List.exists_mem_cons_iff]
    cases hidx : base32Alphabet.idxOf? c with
    | none =>
      have hread : s.read c = none := by rw [Decoder.read, hidx, Option.map_none]
      rw [hread]
      exact iff_of_true rfl (.inl (List.idxOf?_eq_none_iff.mp hidx))
    | some index =>
      have hread : s.read c = some (s.push index) := by rw [Decoder.read, hidx, Option.map_some]
      have hmem : ¬ c ∉ base32Alphabet := fun hnot => by
        rw [List.idxOf?_eq_none_iff.mpr hnot] at hidx
        cases hidx
      rw [hread]
      exact ih.trans (or_iff_right hmem).symm

theorem foldedUpper_spec {c : Char} {text : List Char} (h : foldedUpper c = some text) :
    128 ≤ c.toNat ∧ ∀ d ∈ text, d ∈ base32Alphabet := by
  unfold foldedUpper at h
  split at h <;> cases h <;> exact ⟨by decide, Text.forall_mem_of_all (by decide)⟩

theorem lt_of_mem_base32Alphabet {c : Char} (h : c ∈ base32Alphabet) : c.toNat < 128 := by
  have hall : ∀ c ∈ base32Alphabet, c.toNat < 128 := Text.forall_mem_of_all (by decide)
  exact hall c h

/-- What the upper case of a character has in it that is not of the alphabet. -/
theorem Casing.exists_upper_iff (c : Char) :
    (∃ d ∈ casing.upper c, d ∉ base32Alphabet) ↔ ¬ IsBase32 c ∧ foldedUpper c = none := by
  unfold Casing.upper IsBase32
  by_cases hascii : c.toNat < 128
  · have hnone : foldedUpper c = none := by
      cases hfolded : foldedUpper c with
      | none => rfl
      | some text => exact absurd (foldedUpper_spec hfolded).1 (by omega)
    rw [if_pos hascii]
    simp [hnone]
  · have hsame : c.toUpper = c :=
      Char.toNat_inj.mp (by rw [Text.toNat_toUpper, if_neg (by omega)])
    rw [if_neg hascii, hsame]
    cases hfolded : foldedUpper c with
    | none =>
      obtain ⟨d, hd, hlarge⟩ := casing.foreign c (Nat.le_of_not_lt hascii) hfolded
      refine iff_of_true ⟨d, hd, fun hmem => ?_⟩ ⟨fun hmem => ?_, rfl⟩
      · exact absurd (lt_of_mem_base32Alphabet hmem) (by omega)
      · exact hascii (lt_of_mem_base32Alphabet hmem)
    | some text =>
      constructor
      · rintro ⟨d, hd, hnot⟩
        exact absurd ((foldedUpper_spec hfolded).2 d hd) hnot
      · rintro ⟨-, hnone⟩
        cases hnone

/-- A text is rejected for a character whose upper case is not of the alphabet. -/
theorem base32Decode_eq_none_iff (s : List Char) :
    base32Decode casing s = none ↔
      ∃ c ∈ withoutPadding s, ¬ IsBase32 c ∧ foldedUpper c = none := by
  rw [base32Decode, Option.map_eq_none_iff, foldlM_eq_none_iff]
  simp only [← casing.exists_upper_iff, List.mem_flatMap]
  constructor
  · rintro ⟨d, ⟨c, hc, hd⟩, hnot⟩
    exact ⟨c, hc, d, hd, hnot⟩
  · rintro ⟨c, hc, d, hd, hnot⟩
    exact ⟨d, ⟨c, hc, hd⟩, hnot⟩

/-- What is written is read back, case and padding do not matter, and a text with another character
is rejected exactly when it has no such character whose upper case is ASCII, or yet another. -/
theorem base32_read (bytes : List UInt8) (s : List Char) (n : ℕ) :
    base32Decode casing (base32Encode bytes) = some bytes ∧
    base32Decode casing (s.map Char.toUpper) = base32Decode casing s ∧
    base32Decode casing (s ++ List.replicate n '=') = base32Decode casing s ∧
    ((base32Decode casing s = none ↔ ∃ c ∈ withoutPadding s, ¬ IsBase32 c) ↔
      (∀ c ∈ s, foldedUpper c = none) ∨
        ∃ c ∈ withoutPadding s, ¬ IsBase32 c ∧ foldedUpper c = none) := by
  refine ⟨base32Decode_base32Encode casing bytes, base32Decode_map_toUpper casing s,
    base32Decode_append casing s n, ?_⟩
  rw [base32Decode_eq_none_iff]
  constructor
  · intro hrejected
    by_cases hother : ∃ c ∈ withoutPadding s, ¬ IsBase32 c
    · exact .inr (hrejected.mpr hother)
    · refine .inl fun c hc => ?_
      cases hfolded : foldedUpper c with
      | none => rfl
      | some text =>
        -- such a character is neither padding nor of the alphabet
        have hlarge := (foldedUpper_spec hfolded).1
        have hne : c ≠ '=' := by
          rintro rfl
          exact absurd hlarge (by decide)
        refine absurd ⟨c, mem_withoutPadding_of_ne hc hne, fun hmem => ?_⟩ hother
        have hsmall := lt_of_mem_base32Alphabet hmem
        rw [Text.toNat_toUpper] at hsmall
        split_ifs at hsmall <;> omega
  · rintro (hnone | hother)
    · constructor
      · rintro ⟨c, hc, hnot, -⟩
        exact ⟨c, hc, hnot⟩
      · rintro ⟨c, hc, hnot⟩
        exact ⟨c, hc, hnot, hnone c (mem_of_mem_withoutPadding hc)⟩
    · obtain ⟨c, hc, hnot, hfolded⟩ := hother
      exact iff_of_true ⟨c, hc, hnot, hfolded⟩ ⟨c, hc, hnot⟩

/-- Upper case where no character changes but those whose upper case is ASCII. -/
def plainCasing : Casing := ⟨fun c => [c], fun c hc _ => ⟨c, List.mem_singleton_self c, hc⟩⟩

/-- A character beyond ASCII is read as two letters. -/
theorem base32Decode_sharpS :
    base32Decode plainCasing ['ß'] = some [0x94] ∧ ¬ IsBase32 'ß' ∧ 'ß' ∈ withoutPadding ['ß'] := by
  decide

end Decode

end Zvault.TwoFactor
