import Mathlib.Data.List.Basic
import Mathlib.Data.Nat.Notation

/-!
# Base64url

The URL-safe alphabet, without padding. What is written is read back, and is made of
letters, digits and two more characters.
-/

namespace Base64

def alphabet : List Char :=
  "ABCDEFGHIJKLMNOPQRSTUVWXYZabcdefghijklmnopqrstuvwxyz0123456789-_".toList

/-- The character of six bits. -/
def symbol (d : ℕ) : Char := alphabet.getD d 'A'

def index (c : Char) : Option ℕ := alphabet.idxOf? c

def encode : List UInt8 → List Char
  | [] => []
  | [a] => [symbol (a.toNat / 4), symbol (a.toNat % 4 * 16)]
  | [a, b] =>
    [symbol (a.toNat / 4), symbol (a.toNat % 4 * 16 + b.toNat / 16), symbol (b.toNat % 16 * 4)]
  | a :: b :: c :: rest =>
    symbol (a.toNat / 4) :: symbol (a.toNat % 4 * 16 + b.toNat / 16) ::
      symbol (b.toNat % 16 * 4 + c.toNat / 64) :: symbol (c.toNat % 64) :: encode rest

/-- Bits that are left over must be zero. -/
def decode : List Char → Option (List UInt8)
  | [] => some []
  | [_] => none
  | [w, x] => do
    let w ← index w
    let x ← index x
    if x % 16 = 0 then some [.ofNat (w * 4 + x / 16)] else none
  | [w, x, y] => do
    let w ← index w
    let x ← index x
    let y ← index y
    if y % 4 = 0 then some [.ofNat (w * 4 + x / 16), .ofNat (x % 16 * 16 + y / 4)] else none
  | w :: x :: y :: z :: rest => do
    let w ← index w
    let x ← index x
    let y ← index y
    let z ← index z
    let bytes ← decode rest
    return .ofNat (w * 4 + x / 16) :: .ofNat (x % 16 * 16 + y / 4) :: .ofNat (y % 4 * 64 + z) :: bytes

theorem symbol_spec : ∀ d : Fin 64, index (symbol d) = some d.val ∧
    ((symbol d).isAlphanum = true ∨ symbol d = '-' ∨ symbol d = '_') := by
  decide +kernel

theorem index_symbol {d : ℕ} (hd : d < 64) : index (symbol d) = some d := (symbol_spec ⟨d, hd⟩).1

theorem ofNat_eq {n : ℕ} {a : UInt8} (h : n = a.toNat) : UInt8.ofNat n = a := by
  rw [h, UInt8.ofNat_toNat]

/-- Bytes are read as they were written. -/
theorem decode_encode (bytes : List UInt8) : decode (encode bytes) = some bytes := by
  induction bytes using encode.induct with
  | case1 => rfl
  | case2 a =>
    have ha : a.toNat < 256 := a.toNat_lt
    have hbyte : UInt8.ofNat (a.toNat / 4 * 4 + a.toNat % 4 * 16 / 16) = a := ofNat_eq (by omega)
    have hrest : a.toNat % 4 * 16 % 16 = 0 := by omega
    simp only [encode, decode, Option.bind_eq_bind]
    rw [index_symbol (by omega), index_symbol (by omega), Option.bind_some, Option.bind_some,
      if_pos hrest, hbyte]
  | case3 a b =>
    have ha : a.toNat < 256 := a.toNat_lt
    have hb : b.toNat < 256 := b.toNat_lt
    have hfirst : UInt8.ofNat (a.toNat / 4 * 4 + (a.toNat % 4 * 16 + b.toNat / 16) / 16) = a :=
      ofNat_eq (by omega)
    have hsecond : UInt8.ofNat ((a.toNat % 4 * 16 + b.toNat / 16) % 16 * 16 + b.toNat % 16 * 4 / 4) =
        b := ofNat_eq (by omega)
    have hrest : b.toNat % 16 * 4 % 4 = 0 := by omega
    simp only [encode, decode, Option.bind_eq_bind]
    rw [index_symbol (by omega), index_symbol (by omega), index_symbol (by omega), Option.bind_some,
      Option.bind_some, Option.bind_some, if_pos hrest, hfirst, hsecond]
  | case4 a b c rest ih =>
    have ha : a.toNat < 256 := a.toNat_lt
    have hb : b.toNat < 256 := b.toNat_lt
    have hc : c.toNat < 256 := c.toNat_lt
    have hfirst : UInt8.ofNat (a.toNat / 4 * 4 + (a.toNat % 4 * 16 + b.toNat / 16) / 16) = a :=
      ofNat_eq (by omega)
    have hsecond : UInt8.ofNat ((a.toNat % 4 * 16 + b.toNat / 16) % 16 * 16 +
        (b.toNat % 16 * 4 + c.toNat / 64) / 4) = b := ofNat_eq (by omega)
    have hthird : UInt8.ofNat ((b.toNat % 16 * 4 + c.toNat / 64) % 4 * 64 + c.toNat % 64) = c :=
      ofNat_eq (by omega)
    simp only [encode, decode, Option.bind_eq_bind, Option.pure_def]
    rw [index_symbol (by omega), index_symbol (by omega), index_symbol (by omega),
      index_symbol (by omega), ih]
    simp only [Option.bind_some]
    rw [hfirst, hsecond, hthird]

theorem symbol_of_index {c : Char} {d : ℕ} (h : index c = some d) : d < 64 ∧ symbol d = c := by
  obtain ⟨hd, hc, -⟩ := List.idxOf?_eq_some_iff.mp h
  exact ⟨hd, (List.getElem_eq_getD (h := hd) 'A').symm.trans hc⟩

/-- Whatever is decoded is what the bytes are written as. -/
theorem encode_of_decode {s : List Char} {bytes : List UInt8} (h : decode s = some bytes) :
    encode bytes = s := by
  have htoNat : ∀ n < 256, (UInt8.ofNat n).toNat = n := fun n hn => UInt8.toNat_ofNat_of_lt' hn
  induction s using decode.induct generalizing bytes with
  | case1 =>
    obtain rfl := Option.some_inj.mp h
    rfl
  | case2 => cases h
  | case3 w x =>
    simp only [decode, Option.bind_eq_bind, Option.bind_eq_some_iff] at h
    obtain ⟨w', hw, x', hx, h⟩ := h
    obtain ⟨hw, rfl⟩ := symbol_of_index hw
    obtain ⟨hx, rfl⟩ := symbol_of_index hx
    split at h
    · rename_i hrest
      obtain rfl := Option.some_inj.mp h
      have hfirst : (w' * 4 + x' / 16) / 4 = w' := by omega
      have hsecond : (w' * 4 + x' / 16) % 4 * 16 = x' := by omega
      rw [encode, htoNat _ (by omega), hfirst, hsecond]
    · cases h
  | case4 w x y =>
    simp only [decode, Option.bind_eq_bind, Option.bind_eq_some_iff] at h
    obtain ⟨w', hw, x', hx, y', hy, h⟩ := h
    obtain ⟨hw, rfl⟩ := symbol_of_index hw
    obtain ⟨hx, rfl⟩ := symbol_of_index hx
    obtain ⟨hy, rfl⟩ := symbol_of_index hy
    split at h
    · rename_i hrest
      obtain rfl := Option.some_inj.mp h
      have hfirst : (w' * 4 + x' / 16) / 4 = w' := by omega
      have hsecond : (w' * 4 + x' / 16) % 4 * 16 + (x' % 16 * 16 + y' / 4) / 16 = x' := by omega
      have hthird : (x' % 16 * 16 + y' / 4) % 16 * 4 = y' := by omega
      rw [encode, htoNat _ (by omega), htoNat _ (by omega), hfirst, hsecond, hthird]
    · cases h
  | case5 w x y z rest ih =>
    simp only [decode, Option.bind_eq_bind, Option.bind_eq_some_iff, Option.pure_def,
      Option.some_inj] at h
    obtain ⟨w', hw, x', hx, y', hy, z', hz, tail, htail, rfl⟩ := h
    obtain ⟨hw, rfl⟩ := symbol_of_index hw
    obtain ⟨hx, rfl⟩ := symbol_of_index hx
    obtain ⟨hy, rfl⟩ := symbol_of_index hy
    obtain ⟨hz, rfl⟩ := symbol_of_index hz
    have hfirst : (w' * 4 + x' / 16) / 4 = w' := by omega
    have hsecond : (w' * 4 + x' / 16) % 4 * 16 + (x' % 16 * 16 + y' / 4) / 16 = x' := by omega
    have hthird : (x' % 16 * 16 + y' / 4) % 16 * 4 + (y' % 4 * 64 + z') / 64 = y' := by omega
    have hfourth : (y' % 4 * 64 + z') % 64 = z' := by omega
    rw [encode, ih htail, htoNat _ (by omega), htoNat _ (by omega), htoNat _ (by omega), hfirst,
      hsecond, hthird, hfourth]

/-- What is written with. -/
theorem length_encode (bytes : List UInt8) : (encode bytes).length = (4 * bytes.length + 2) / 3 := by
  induction bytes using encode.induct with
  | case1 => rfl
  | case2 a => simp [encode]
  | case3 a b => simp [encode]
  | case4 a b c rest ih =>
    simp only [encode, List.length_cons, ih]
    omega

theorem mem_encode {bytes : List UInt8} {c : Char} (h : c ∈ encode bytes) :
    c.isAlphanum = true ∨ c = '-' ∨ c = '_' := by
  have hsymbol : ∀ {d : ℕ}, d < 64 → c = symbol d → c.isAlphanum = true ∨ c = '-' ∨ c = '_' := by
    rintro d hd rfl
    exact (symbol_spec ⟨d, hd⟩).2
  induction bytes using encode.induct with
  | case1 => cases h
  | case2 a =>
    have ha : a.toNat < 256 := a.toNat_lt
    simp only [encode, List.mem_cons, List.not_mem_nil, or_false] at h
    rcases h with h | h
    · exact hsymbol (by omega) h
    · exact hsymbol (by omega) h
  | case3 a b =>
    have ha : a.toNat < 256 := a.toNat_lt
    have hb : b.toNat < 256 := b.toNat_lt
    simp only [encode, List.mem_cons, List.not_mem_nil, or_false] at h
    rcases h with h | h | h
    · exact hsymbol (by omega) h
    · exact hsymbol (by omega) h
    · exact hsymbol (by omega) h
  | case4 a b d rest ih =>
    have ha : a.toNat < 256 := a.toNat_lt
    have hb : b.toNat < 256 := b.toNat_lt
    have hd : d.toNat < 256 := d.toNat_lt
    simp only [encode, List.mem_cons] at h
    rcases h with h | h | h | h | h
    · exact hsymbol (by omega) h
    · exact hsymbol (by omega) h
    · exact hsymbol (by omega) h
    · exact hsymbol (by omega) h
    · exact ih h

/-- As `decode`, but bits that are left over are dropped, as browsers do. -/
def forgive : List Char → Option (List UInt8)
  | [] => some []
  | [_] => none
  | [w, x] => do
    let w ← index w
    let x ← index x
    some [.ofNat (w * 4 + x / 16)]
  | [w, x, y] => do
    let w ← index w
    let x ← index x
    let y ← index y
    some [.ofNat (w * 4 + x / 16), .ofNat (x % 16 * 16 + y / 4)]
  | w :: x :: y :: z :: rest => do
    let w ← index w
    let x ← index x
    let y ← index y
    let z ← index z
    let bytes ← forgive rest
    return .ofNat (w * 4 + x / 16) :: .ofNat (x % 16 * 16 + y / 4) :: .ofNat (y % 4 * 64 + z) :: bytes

/-- What is decoded is decoded the same way when bits may be left over. -/
theorem forgive_of_decode {s : List Char} {bytes : List UInt8} (h : decode s = some bytes) :
    forgive s = some bytes := by
  induction s using decode.induct generalizing bytes with
  | case1 => exact h
  | case2 => cases h
  | case3 w x =>
    simp only [decode, Option.bind_eq_bind, Option.bind_eq_some_iff] at h
    obtain ⟨w', hw, x', hx, h⟩ := h
    split at h
    · simp only [forgive, hw, hx, Option.bind_eq_bind, Option.bind_some]
      exact h
    · cases h
  | case4 w x y =>
    simp only [decode, Option.bind_eq_bind, Option.bind_eq_some_iff] at h
    obtain ⟨w', hw, x', hx, y', hy, h⟩ := h
    split at h
    · simp only [forgive, hw, hx, hy, Option.bind_eq_bind, Option.bind_some]
      exact h
    · cases h
  | case5 w x y z rest ih =>
    simp only [decode, Option.bind_eq_bind, Option.bind_eq_some_iff] at h
    obtain ⟨w', hw, x', hx, y', hy, z', hz, tail, htail, h⟩ := h
    simp only [forgive, hw, hx, hy, hz, ih htail, Option.bind_eq_bind, Option.bind_some]
    exact h

theorem forgive_encode (bytes : List UInt8) : forgive (encode bytes) = some bytes :=
  forgive_of_decode (decode_encode bytes)

/-- Only characters of the alphabet are decoded. -/
theorem isSome_index_of_decode {s : List Char} {bytes : List UInt8} (h : decode s = some bytes) :
    ∀ c ∈ s, (index c).isSome = true := by
  induction s using decode.induct generalizing bytes with
  | case1 => simp
  | case2 => cases h
  | case3 w x =>
    simp only [decode, Option.bind_eq_bind, Option.bind_eq_some_iff] at h
    obtain ⟨w', hw, x', hx, -⟩ := h
    simp [hw, hx]
  | case4 w x y =>
    simp only [decode, Option.bind_eq_bind, Option.bind_eq_some_iff] at h
    obtain ⟨w', hw, x', hx, y', hy, -⟩ := h
    simp [hw, hx, hy]
  | case5 w x y z rest ih =>
    simp only [decode, Option.bind_eq_bind, Option.bind_eq_some_iff] at h
    obtain ⟨w', hw, x', hx, y', hy, z', hz, tail, htail, -⟩ := h
    simpa [hw, hx, hy, hz] using ih htail

/-- Every character that is written is one of the alphabet. -/
theorem isSome_index_of_mem_encode {bytes : List UInt8} {c : Char} (h : c ∈ encode bytes) :
    (index c).isSome = true :=
  isSome_index_of_decode (decode_encode bytes) c h

theorem not_mem_encode {c : Char} (hc : index c = none) (bytes : List UInt8) : c ∉ encode bytes := by
  intro hmem
  have hsome := isSome_index_of_mem_encode hmem
  rw [hc] at hsome
  cases hsome

example : encode [102, 111, 111, 98] = "Zm9vYg".toList := by decide +kernel

example : forgive "Zm9vYh".toList = some [102, 111, 111, 98] := by decide +kernel

end Base64
