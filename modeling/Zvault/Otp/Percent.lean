import Mathlib.Algebra.GroupWithZero.Nat
import Mathlib.Data.List.TakeDrop
import Zvault.Text.AsciiCase

/-!
# Percent coding of setup URIs

`percent_decode` and `percent_encode` of `zvault-otp`. Text that is encoded has no
delimiter in it, and is decoded to what it was.
-/

namespace Zvault.Otp

/-- The bytes of a text. -/
def utf8 (cs : List Char) : List UInt8 := cs.flatMap String.utf8EncodeChar

/-- `String::from_utf8`. -/
def fromUtf8 (bytes : List UInt8) : Option (List Char) :=
  (ByteArray.utf8Decode? bytes.toByteArray).map Array.toList

def hexDigit (b : UInt8) : Option ℕ :=
  let n := b.toNat
  if 48 ≤ n ∧ n ≤ 57 then some (n - 48)
  else if 65 ≤ n ∧ n ≤ 70 then some (n - 55)
  else if 97 ≤ n ∧ n ≤ 102 then some (n - 87)
  else none

/-- `u8::from_str_radix` of two bytes, which takes a sign for the first one. -/
def fromHex (hi lo : UInt8) : Option UInt8 :=
  if hi = 43 then (hexDigit lo).map UInt8.ofNat
  else do
    let hi ← hexDigit hi
    let lo ← hexDigit lo
    return UInt8.ofNat (16 * hi + lo)

/-- The loop of `percent_decode`. Two bytes that are cut out of a longer character are no
hexadecimal number either. -/
def decodeBytes : List UInt8 → Option (List UInt8)
  | [] => some []
  | b :: rest =>
    if b = 37 then
      match rest with
      | hi :: lo :: rest => do
        let b ← fromHex hi lo
        let bytes ← decodeBytes rest
        return b :: bytes
      | _ => none
    else (decodeBytes rest).map ((if b = 43 then 32 else b) :: ·)

def percentDecode (s : List Char) : Option (List Char) := (decodeBytes (utf8 s)).bind fromUtf8

/-- Bytes that are written as they are. -/
def unreserved (b : UInt8) : Bool :=
  let c := Char.ofUInt8 b
  c.isAlphanum || ['-', '.', '_', '~', '@'].contains c

def hexUpper (n : ℕ) : Char := if n < 10 then Char.ofNat (48 + n) else Char.ofNat (55 + n)

def encodeByte (b : UInt8) : List Char :=
  if unreserved b then [Char.ofUInt8 b]
  else ['%', hexUpper (b.toNat / 16), hexUpper (b.toNat % 16)]

def percentEncode (s : List Char) : List Char := (utf8 s).flatMap encodeByte

@[simp] theorem utf8_nil : utf8 [] = [] := rfl

@[simp] theorem utf8_append (s t : List Char) : utf8 (s ++ t) = utf8 s ++ utf8 t :=
  List.flatMap_append

@[simp] theorem fromUtf8_utf8 (s : List Char) : fromUtf8 (utf8 s) = some s := by
  change (ByteArray.utf8Decode? s.utf8Encode).map Array.toList = some s
  rw [List.utf8Decode?_utf8Encode, Option.map_some]

theorem decodeBytes_plain {b : UInt8} (hpercent : b ≠ 37) (hplus : b ≠ 43) (rest : List UInt8) :
    decodeBytes (b :: rest) = (decodeBytes rest).map (b :: ·) := by
  rw [decodeBytes.eq_def]
  dsimp only
  rw [if_neg hpercent, if_neg hplus]

theorem decodeBytes_escape {hi lo b : UInt8} (h : fromHex hi lo = some b) (rest : List UInt8) :
    decodeBytes (37 :: hi :: lo :: rest) = (decodeBytes rest).map (b :: ·) := by
  rw [decodeBytes.eq_def]
  dsimp only
  rw [if_pos rfl, h]
  cases decodeBytes rest <;> rfl

/-- A byte is written as itself or as an escape that stands for it. -/
def Written (b : UInt8) : List UInt8 → Bool
  | [c] => c == b && b != 37 && b != 43
  | [percent, hi, lo] => percent == 37 && fromHex hi lo == some b
  | _ => false

theorem written_encodeByte (b : UInt8) : Written b (utf8 (encodeByte b)) = true := by
  have hall : ∀ n : Fin 256, Written (UInt8.ofNat n) (utf8 (encodeByte (UInt8.ofNat n))) = true := by
    decide +kernel
  have hb := hall ⟨b.toNat, b.toNat_lt⟩
  rwa [UInt8.ofNat_toNat] at hb

theorem decodeBytes_encodeByte (b : UInt8) (rest : List UInt8) :
    decodeBytes (utf8 (encodeByte b) ++ rest) = (decodeBytes rest).map (b :: ·) := by
  have hwritten := written_encodeByte b
  unfold Written at hwritten
  split at hwritten
  · rename_i c hbytes
    simp only [Bool.and_eq_true, beq_iff_eq, bne_iff_ne] at hwritten
    obtain ⟨⟨rfl, hpercent⟩, hplus⟩ := hwritten
    rw [hbytes]
    exact decodeBytes_plain hpercent hplus rest
  · rename_i percent hi lo hbytes
    simp only [Bool.and_eq_true, beq_iff_eq] at hwritten
    obtain ⟨rfl, hhex⟩ := hwritten
    rw [hbytes]
    exact decodeBytes_escape hhex rest
  · cases hwritten

/-- An encoded text is decoded, whatever comes after it. -/
theorem decodeBytes_percentEncode (s : List Char) (rest : List UInt8) :
    decodeBytes (utf8 (percentEncode s) ++ rest) = (decodeBytes rest).map (utf8 s ++ ·) := by
  unfold percentEncode
  induction utf8 s with
  | nil => simp
  | cons b bytes ih =>
    rw [List.flatMap_cons, utf8_append, List.append_assoc, decodeBytes_encodeByte, ih,
      Option.map_map]
    rfl

theorem percentDecode_percentEncode (s : List Char) : percentDecode (percentEncode s) = some s := by
  have hdecode := decodeBytes_percentEncode s []
  rw [List.append_nil] at hdecode
  simp [percentDecode, hdecode, decodeBytes]

/-- An ASCII character that stands for itself may stand between encoded texts. -/
theorem percentDecode_append_cons {c : Char} (hascii : utf8 [c] = [c.toUInt8])
    (hpercent : c.toUInt8 ≠ 37) (hplus : c.toUInt8 ≠ 43) (s t : List Char) :
    percentDecode (percentEncode s ++ c :: percentEncode t) = some (s ++ c :: t) := by
  have hcons : ∀ cs : List Char, utf8 (c :: cs) = c.toUInt8 :: utf8 cs := fun cs => by
    rw [← List.singleton_append, utf8_append, hascii, List.singleton_append]
  have hrest := decodeBytes_percentEncode t []
  rw [List.append_nil] at hrest
  rw [percentDecode, utf8_append, hcons, decodeBytes_percentEncode, decodeBytes_plain hpercent hplus,
    hrest]
  have htext : utf8 s ++ c.toUInt8 :: utf8 t = utf8 (s ++ c :: t) := by rw [utf8_append, hcons]
  change fromUtf8 (utf8 s ++ c.toUInt8 :: (utf8 t ++ [])) = _
  rw [List.append_nil, htext, fromUtf8_utf8]

theorem encodeByte_toUInt8 {c : Char} (hc : c.isAlphanum = true) :
    utf8 [c] = [c.toUInt8] ∧ encodeByte c.toUInt8 = [c] := by
  have hlt : c.toNat < 128 := by
    have := (Text.isAlphanum_iff c).mp hc
    omega
  have hchar : Char.ofUInt8 c.toUInt8 = c := by
    refine Char.toNat_inj.mp ?_
    change (c.toNat % 256) = c.toNat
    omega
  have hsize : c.utf8Size = 1 := Char.utf8Size_eq_one_iff.mpr (Nat.le_of_lt_succ hlt)
  refine ⟨?_, ?_⟩
  · rw [utf8, List.flatMap_singleton, String.utf8EncodeChar_eq_singleton hsize]
    rfl
  · rw [encodeByte, unreserved, hchar, hc]
    rfl

/-- Letters and digits are written as they are. -/
theorem percentEncode_of_isAlphanum {s : List Char} (hs : ∀ c ∈ s, c.isAlphanum = true) :
    percentEncode s = s := by
  induction s with
  | nil => rfl
  | cons c s ih =>
    obtain ⟨hc, hs⟩ := List.forall_mem_cons.mp hs
    obtain ⟨hbytes, hbyte⟩ := encodeByte_toUInt8 hc
    have hrest := ih hs
    unfold percentEncode at hrest ⊢
    rw [← List.singleton_append, utf8_append, hbytes, List.flatMap_append, List.flatMap_singleton,
      hbyte, hrest]

/-- Characters of an encoded text. -/
def isEncoded (c : Char) : Bool := c.isAlphanum || ['-', '.', '_', '~', '@', '%'].contains c

theorem isEncoded_of_mem_percentEncode {s : List Char} {c : Char} (h : c ∈ percentEncode s) :
    isEncoded c = true ∧ c.utf8Size = 1 := by
  have hall : ∀ n : Fin 256, ((encodeByte (UInt8.ofNat n)).all fun c =>
      decide (isEncoded c = true ∧ c.utf8Size = 1)) = true := by
    decide +kernel
  obtain ⟨b, -, hc⟩ := List.mem_flatMap.mp h
  have hb := hall ⟨b.toNat, b.toNat_lt⟩
  rw [UInt8.ofNat_toNat] at hb
  exact Text.forall_mem_of_all hb c hc

/-- What a text takes when it is encoded: a byte that is not written as it is takes three. -/
def encodedLength (s : List Char) : ℕ := ((utf8 s).map fun b => if unreserved b then 1 else 3).sum

theorem length_percentEncode (s : List Char) : (percentEncode s).length = encodedLength s := by
  unfold percentEncode encodedLength
  rw [List.length_flatMap]
  congr 1
  refine List.map_congr_left fun b _ => ?_
  unfold encodeByte
  split
  · rfl
  · rfl

example : percentDecode "A%20B".toList = some "A B".toList := by decide

end Zvault.Otp
