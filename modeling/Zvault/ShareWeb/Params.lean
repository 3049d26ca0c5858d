import Zvault.Otp.Percent
import Zvault.Text.Separated
import Zvault.Text.Utf8Lossy

/-!
# Percent coding in the browser

`decodeURIComponent` and `URLSearchParams`. What `zvault-otp` encodes is decoded by
both to what it was.
-/

namespace Zvault.ShareWeb

open Otp (utf8 fromUtf8 hexDigit percentEncode encodeByte)
open Text (splitOnce decodeLossy)

/-- The byte of two hexadecimal digits. -/
def hexByte (hi lo : UInt8) : Option UInt8 := do
  let hi ← hexDigit hi
  let lo ← hexDigit lo
  return UInt8.ofNat (16 * hi + lo)

/-- The bytes of a text whose escapes must all be of two digits. -/
def strictBytes : List UInt8 → Option (List UInt8)
  | [] => some []
  | b :: rest =>
    if b = 37 then
      match rest with
      | hi :: lo :: rest => do
        let b ← hexByte hi lo
        let bytes ← strictBytes rest
        return b :: bytes
      | _ => none
    else (strictBytes rest).map (b :: ·)

/-- `decodeURIComponent`. Nothing is returned where it throws. -/
def decodeURIComponent (text : List Char) : Option (List Char) :=
  (strictBytes (utf8 text)).bind fromUtf8

/-- The byte of an escape that begins with a byte. -/
def escapeAt (b : UInt8) : List UInt8 → Option UInt8
  | hi :: lo :: _ => if b = 37 then hexByte hi lo else none
  | _ => none

/-- The bytes of a text where what is no escape stands for itself. -/
def lenientBytes : List UInt8 → List UInt8
  | [] => []
  | b :: rest =>
    match escapeAt b rest with
    | some byte => byte :: lenientBytes (rest.drop 2)
    | none => b :: lenientBytes rest
termination_by bytes => bytes.length
decreasing_by
  · rw [List.length_drop, List.length_cons]
    omega
  · exact Nat.lt_succ_self _

/-- A name or a value of a query. -/
def formDecode (text : List Char) : List Char :=
  decodeLossy (lenientBytes ((utf8 text).map fun b => if b = 43 then 32 else b))

/-- One parameter of a query. -/
def decodeParam (pair : List Char) : List Char × List Char :=
  let (name, value) := (splitOnce '=' pair).getD (pair, [])
  (formDecode name, formDecode value)

/-- `URLSearchParams`. -/
def searchParams (query : List Char) : List (List Char × List Char) :=
  let query := if query.head? = some '?' then query.tail else query
  ((query.splitOn '&').filter (· ≠ [])).map decodeParam

/-- `params.get`. -/
def getParam (params : List (List Char × List Char)) (name : List Char) : Option (List Char) :=
  (params.find? fun param => param.1 = name).map (·.2)

section Written

/-- A byte is written as itself or as an escape that stands for it, without a plus sign. -/
def Written (b : UInt8) : List UInt8 → Bool
  | [c] => c == b && b != 37 && b != 43
  | [percent, hi, lo] => percent == 37 && hexByte hi lo == some b && hi != 43 && lo != 43
  | _ => false

theorem written_encodeByte (b : UInt8) : Written b (utf8 (encodeByte b)) = true := by
  have hall : ∀ n : Fin 256, Written (UInt8.ofNat n) (utf8 (encodeByte (UInt8.ofNat n))) = true := by
    decide +kernel
  have hb := hall ⟨b.toNat, b.toNat_lt⟩
  rwa [UInt8.ofNat_toNat] at hb

theorem strictBytes_plain {b : UInt8} (h : b ≠ 37) (rest : List UInt8) :
    strictBytes (b :: rest) = (strictBytes rest).map (b :: ·) := by
  rw [strictBytes.eq_def]
  dsimp only
  rw [if_neg h]

theorem strictBytes_escape {hi lo b : UInt8} (h : hexByte hi lo = some b) (rest : List UInt8) :
    strictBytes (37 :: hi :: lo :: rest) = (strictBytes rest).map (b :: ·) := by
  rw [strictBytes.eq_def]
  dsimp only
  rw [if_pos rfl, h]
  cases strictBytes rest <;> rfl

theorem lenientBytes_plain {b : UInt8} (h : b ≠ 37) (rest : List UInt8) :
    lenientBytes (b :: rest) = b :: lenientBytes rest := by
  have hnone : escapeAt b rest = none := by
    unfold escapeAt
    split
    · exact if_neg h
    · rfl
  rw [lenientBytes, hnone]

theorem lenientBytes_escape {hi lo b : UInt8} (h : hexByte hi lo = some b) (rest : List UInt8) :
    lenientBytes (37 :: hi :: lo :: rest) = b :: lenientBytes rest := by
  have hsome : escapeAt 37 (hi :: lo :: rest) = some b := by
    rw [escapeAt, if_pos rfl, h]
  rw [lenientBytes, hsome]
  rfl

/-- What has no plus sign in it is decoded alike in both ways, byte by byte. -/
theorem bytes_encodeByte (b : UInt8) (rest : List UInt8) :
    strictBytes (utf8 (encodeByte b) ++ rest) = (strictBytes rest).map (b :: ·) ∧
      lenientBytes (utf8 (encodeByte b) ++ rest) = b :: lenientBytes rest ∧
      ∀ c ∈ utf8 (encodeByte b), c ≠ 43 := by
  have hwritten := written_encodeByte b
  unfold Written at hwritten
  split at hwritten
  · rename_i c hbytes
    simp only [Bool.and_eq_true, beq_iff_eq, bne_iff_ne] at hwritten
    obtain ⟨⟨rfl, hpercent⟩, hplus⟩ := hwritten
    rw [hbytes]
    exact ⟨strictBytes_plain hpercent rest, lenientBytes_plain hpercent rest,
      fun d hd => List.mem_singleton.mp hd ▸ hplus⟩
  · rename_i percent hi lo hbytes
    simp only [Bool.and_eq_true, beq_iff_eq, bne_iff_ne] at hwritten
    obtain ⟨⟨⟨rfl, hhex⟩, hhi⟩, hlo⟩ := hwritten
    rw [hbytes]
    refine ⟨strictBytes_escape hhex rest, lenientBytes_escape hhex rest, ?_⟩
    exact List.forall_mem_cons.mpr ⟨by decide, List.forall_mem_cons.mpr
      ⟨hhi, fun d hd => List.mem_singleton.mp hd ▸ hlo⟩⟩
  · cases hwritten

/-- An encoded text is decoded, whatever comes after it. -/
theorem bytes_percentEncode (s : List Char) (rest : List UInt8) :
    strictBytes (utf8 (percentEncode s) ++ rest) = (strictBytes rest).map (utf8 s ++ ·) ∧
      lenientBytes (utf8 (percentEncode s) ++ rest) = utf8 s ++ lenientBytes rest ∧
      ∀ c ∈ utf8 (percentEncode s), c ≠ 43 := by
  unfold percentEncode
  induction utf8 s with
  | nil => exact ⟨by simp, rfl, fun c hc => absurd hc List.not_mem_nil⟩
  | cons b bytes ih =>
    obtain ⟨hstrict, hlenient, hplus⟩ := bytes_encodeByte b (utf8 (bytes.flatMap encodeByte) ++ rest)
    rw [List.flatMap_cons, Otp.utf8_append, List.append_assoc, hstrict, hlenient, ih.1, ih.2.1]
    refine ⟨by rw [Option.map_map]; rfl, rfl, List.forall_mem_append.mpr ⟨hplus, ih.2.2⟩⟩

/-- The label of a URI is decoded. -/
theorem decodeURIComponent_percentEncode (s : List Char) :
    decodeURIComponent (percentEncode s) = some s := by
  have h := (bytes_percentEncode s []).1
  rw [List.append_nil] at h
  rw [decodeURIComponent, h]
  simp [strictBytes]

/-- An ASCII character that stands for itself may stand between encoded texts. -/
theorem decodeURIComponent_append_cons {c : Char} (hascii : utf8 [c] = [c.toUInt8])
    (hpercent : c.toUInt8 ≠ 37) (s t : List Char) :
    decodeURIComponent (percentEncode s ++ c :: percentEncode t) = some (s ++ c :: t) := by
  have hcons : ∀ cs : List Char, utf8 (c :: cs) = c.toUInt8 :: utf8 cs := fun cs => by
    rw [← List.singleton_append, Otp.utf8_append, hascii, List.singleton_append]
  have hrest := (bytes_percentEncode t []).1
  rw [List.append_nil] at hrest
  have htext : utf8 s ++ c.toUInt8 :: (utf8 t ++ []) = utf8 (s ++ c :: t) := by
    rw [Otp.utf8_append, hcons, List.append_nil]
  rw [decodeURIComponent, Otp.utf8_append, hcons, (bytes_percentEncode s _).1,
    strictBytes_plain hpercent, hrest]
  change fromUtf8 (utf8 s ++ c.toUInt8 :: (utf8 t ++ [])) = _
  rw [htext, Otp.fromUtf8_utf8]

/-- A value of a query is decoded. -/
theorem formDecode_percentEncode (s : List Char) : formDecode (percentEncode s) = s := by
  obtain ⟨-, hlenient, hplus⟩ := bytes_percentEncode s []
  rw [List.append_nil] at hlenient
  have hsame : ((utf8 (percentEncode s)).map fun b => if b = 43 then 32 else b) =
      utf8 (percentEncode s) :=
    (List.map_congr_left fun b hb => if_neg (hplus b hb)).trans (List.map_id _)
  have hnil : lenientBytes [] = [] := by rw [lenientBytes]
  rw [formDecode, hsame, hlenient, hnil, List.append_nil]
  exact Text.decodeLossy_utf8 s

theorem formDecode_of_isAlphanum {s : List Char} (hs : ∀ c ∈ s, c.isAlphanum = true) :
    formDecode s = s := by
  have h := formDecode_percentEncode s
  rwa [Otp.percentEncode_of_isAlphanum hs] at h

end Written

theorem not_mem_of_isAlphanum {c : Char} (hc : c.isAlphanum = false) {s : List Char}
    (hs : ∀ d ∈ s, d.isAlphanum = true) : c ∉ s := fun hmem => by
  rw [hs c hmem] at hc
  cases hc

/-- A parameter that is plainly named is decoded. -/
theorem decodeParam_eq {name value text : List Char} (hname : ∀ c ∈ name, c.isAlphanum = true)
    (hvalue : formDecode value = text) : decodeParam (name ++ '=' :: value) = (name, text) := by
  rw [decodeParam, Text.splitOnce_append_cons (not_mem_of_isAlphanum (by decide) hname),
    Option.getD_some]
  change (formDecode name, formDecode value) = (name, text)
  rw [formDecode_of_isAlphanum hname, hvalue]

theorem getParam_cons (name value : List Char) (params : List (List Char × List Char))
    (asked : List Char) :
    getParam ((name, value) :: params) asked =
      if name = asked then some value else getParam params asked := by
  unfold getParam
  rw [List.find?_cons]
  split_ifs with hname
  · simp only [hname, decide_true, Option.map_some]
  · simp only [hname, decide_false]

end Zvault.ShareWeb
