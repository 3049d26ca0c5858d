import Zvault.Crypto.Sealing
import Zvault.Fallible.Steps

/-!
# Padding

`seal_padded` and `open_padded` of `vault.rs`, with the arithmetic and the ranges of
the code that strips the padding. A ciphertext is as long as the bucket of its
plaintext says.
-/

namespace Zvault.Crypto

open Checked (Panic add sub copyWithin)

/-- `TAG_LEN`. -/
def tagLen : ℕ := 16

/-- The bucket that a length falls in, in blocks. -/
def bucket (length : ℕ) : ℕ := (lenPrefix + length + (padBlock - 1)) / padBlock

/-- The cipher reads what it wrote, seals everything that is not huge, and adds a tag. -/
structure Primitives.IsAead (P : Primitives) : Prop where
  decrypt_encrypt : ∀ {key nonce aad text ct}, P.encrypt key nonce aad text = some ct →
    P.decrypt key nonce aad ct = some text
  encrypt_isSome : ∀ key nonce aad {text}, text.length < 2 ^ 32 →
    (P.encrypt key nonce aad text).isSome = true
  length_encrypt : ∀ {key nonce aad text ct}, P.encrypt key nonce aad text = some ct →
    ct.length = text.length + tagLen

/-- What `open_padded` does with opened bytes, where `usize` has `width` bits. -/
def stripPadding (width : ℕ) (padded : List UInt8) : Except Panic (Option (List UInt8)) :=
  if padded.length < lenPrefix then .ok none
  else
    let len := fromBeBytes (padded.take lenPrefix)
    if 2 ^ width ≤ len then .ok none
    else do
      let rest ← sub padded.length lenPrefix
      if rest < len then .ok none
      else do
        let stop ← add width lenPrefix len
        let moved ← copyWithin padded lenPrefix stop 0
        .ok (some (moved.take len))

/-- `open_padded`. -/
def runOpenPadded (P : Primitives) (width : ℕ) (key : SymmetricKey) (s : Sealed)
    (aad : List UInt8) : Except Panic (Option (List UInt8)) :=
  match openBytes P key s aad with
  | none => .ok none
  | some padded => stripPadding width padded

@[simp] theorem length_toBeBytes (n : ℕ) : (toBeBytes n).length = lenPrefix := rfl

theorem length_padded (text : List UInt8) :
    (padded text).length = padBlock * bucket text.length := by
  simp only [padded, List.length_append, length_toBeBytes, List.length_replicate, bucket, lenPrefix,
    padBlock]
  omega

/-- Whatever bytes are opened, no step leaves its bounds. -/
theorem stripPadding_eq {width : ℕ} {padded : List UInt8} (h : padded.length < 2 ^ width) :
    stripPadding width padded = .ok (unpadded padded) := by
  unfold stripPadding unpadded
  by_cases hshort : padded.length < lenPrefix
  · rw [if_pos hshort, if_pos hshort]
  rw [if_neg hshort, if_neg hshort]
  have hprefix : lenPrefix ≤ padded.length := Nat.le_of_not_lt hshort
  generalize fromBeBytes (padded.take lenPrefix) = len
  dsimp only
  rw [Checked.sub_eq_ok hprefix]
  change (if 2 ^ width ≤ len then _ else if padded.length - lenPrefix < len then _ else _) = _
  by_cases hlarge : padded.length - lenPrefix < len
  · rw [if_pos hlarge, if_pos hlarge, ite_self]
  · have hstop : lenPrefix + len ≤ padded.length := by omega
    rw [if_neg hlarge, if_neg hlarge, if_neg (by omega), Checked.add_eq_ok (by omega)]
    change (copyWithin padded lenPrefix (lenPrefix + len) 0 >>= _) = _
    rw [Checked.copyWithin_zero hstop]
    have hlength : ((padded.drop lenPrefix).take len).length = len := by
      rw [List.length_take, List.length_drop]
      omega
    change Except.ok (some (List.take len (_ ++ _))) = _
    rw [List.take_left' hlength]

section Aead

variable {P : Primitives}

theorem Primitives.IsAead.sealPadded_isSome (hP : P.IsAead) (key : SymmetricKey)
    {text : List UInt8} (aad : List UInt8) (nonce : Nonce) (h : text.length ≤ maxPlaintextLen) :
    (sealPadded P key text aad nonce).isSome = true := by
  have hpadded : (padded text).length < 2 ^ 32 := by
    rw [length_padded]
    simp only [maxPlaintextLen, bucket, lenPrefix, padBlock] at h ⊢
    omega
  rw [sealPadded, if_neg (by omega), sealBytes, Option.isSome_map]
  exact hP.encrypt_isSome key nonce aad hpadded

/-- A ciphertext is a tag longer than the blocks of its bucket. -/
theorem Primitives.IsAead.length_sealPadded (hP : P.IsAead) {key : SymmetricKey}
    {text aad : List UInt8} {nonce : Nonce} {s : Sealed}
    (h : sealPadded P key text aad nonce = some s) :
    s.ciphertext.length = padBlock * bucket text.length + tagLen := by
  unfold sealPadded at h
  split_ifs at h
  obtain ⟨ct, hct, rfl⟩ := Option.map_eq_some_iff.mp h
  change ct.length = _
  rw [hP.length_encrypt hct, length_padded]

theorem Primitives.IsAead.runOpenPadded_sealPadded (hP : P.IsAead) {width : ℕ} (hwidth : 32 ≤ width)
    {key : SymmetricKey} {text aad : List UInt8} {nonce : Nonce} {s : Sealed}
    (h : sealPadded P key text aad nonce = some s) :
    runOpenPadded P width key s aad = .ok (some text) := by
  unfold sealPadded at h
  split_ifs at h with hlarge
  obtain ⟨ct, hct, rfl⟩ := Option.map_eq_some_iff.mp h
  have hopen : openBytes P key ⟨nonce, ct⟩ aad = some (padded text) := hP.decrypt_encrypt hct
  have hword : 2 ^ 32 ≤ 2 ^ width := Nat.pow_le_pow_right (by decide) hwidth
  have hpadded : (padded text).length < 2 ^ width := by
    rw [length_padded]
    simp only [maxPlaintextLen, bucket, lenPrefix, padBlock] at hlarge ⊢
    omega
  have htext : text.length < 2 ^ 32 := by
    unfold maxPlaintextLen at hlarge
    omega
  rw [runOpenPadded, hopen]
  dsimp only
  rw [stripPadding_eq hpadded, unpadded_padded htext]

end Aead

/-- **Padding is undone exactly and hides the length.** Every plaintext up to the limit is
sealed and opened again as it was, longer ones are refused, ciphertexts are equally long
exactly for plaintexts of one bucket, and whatever bytes a ciphertext opens to, nothing is
read outside them. -/
theorem padding_undone {P : Primitives} (hP : P.IsAead) {width : ℕ} (hwidth : 32 ≤ width) :
    (∀ key text aad nonce, text.length ≤ maxPlaintextLen → ∃ s,
      sealPadded P key text aad nonce = some s ∧
        runOpenPadded P width key s aad = .ok (some text)) ∧
    (∀ key text aad nonce, maxPlaintextLen < text.length →
      sealPadded P key text aad nonce = none) ∧
    (∀ key text aad nonce s key' text' aad' nonce' s',
      sealPadded P key text aad nonce = some s → sealPadded P key' text' aad' nonce' = some s' →
        (s.ciphertext.length = s'.ciphertext.length ↔ bucket text.length = bucket text'.length)) ∧
    ∀ key s aad, (∀ bytes, openBytes P key s aad = some bytes → bytes.length < 2 ^ width) →
      runOpenPadded P width key s aad = .ok (openPadded P key s aad) := by
  refine ⟨fun key text aad nonce h => ?_, fun key text aad nonce h => if_pos h, ?_, ?_⟩
  · obtain ⟨s, hs⟩ := Option.isSome_iff_exists.mp (hP.sealPadded_isSome key aad nonce h)
    exact ⟨s, hs, hP.runOpenPadded_sealPadded hwidth hs⟩
  · intro key text aad nonce s key' text' aad' nonce' s' hs hs'
    have hlength := hP.length_sealPadded hs
    have hlength' := hP.length_sealPadded hs'
    have hblock : padBlock = 256 := rfl
    rw [hlength, hlength', hblock]
    omega
  · intro key s aad h
    unfold runOpenPadded openPadded
    cases hopen : openBytes P key s aad with
    | none => rfl
    | some bytes => exact stripPadding_eq (h bytes hopen)

/-- A cipher that only adds a tag. -/
def tagging : Primitives where
  encrypt _ _ _ text := some (text ++ List.replicate tagLen 0)
  decrypt _ _ _ ct := some (ct.take (ct.length - tagLen))
  publicKey key := ⟨key.bytes, key.length_eq⟩
  wrapToMember _ _ _ _ _ := none
  unwrapFromMember _ _ _ _ := none
  base64 _ := ""
  unbase64 _ := none
  toVec _ := none
  fromSlice _ := none

theorem tagging_isAead : tagging.IsAead where
  decrypt_encrypt {_ _ _ text ct} h := by
    obtain rfl := Option.some_inj.mp h
    change some (List.take _ _) = _
    rw [List.length_append, List.length_replicate, Nat.add_sub_cancel, List.take_left]
  encrypt_isSome _ _ _ _ _ := rfl
  length_encrypt {_ _ _ text ct} h := by
    obtain rfl := Option.some_inj.mp h
    rw [List.length_append, List.length_replicate]

theorem padding_undone_tagging : ∃ s,
    sealPadded tagging ⟨List.replicate 32 0, rfl⟩ [1, 2, 3] [] ⟨List.replicate 24 0, rfl⟩ = some s ∧
      runOpenPadded tagging 64 ⟨List.replicate 32 0, rfl⟩ s [] = .ok (some [1, 2, 3]) :=
  (padding_undone tagging_isAead (by decide)).1 _ _ _ _ (by decide)

end Zvault.Crypto
