import Zvault.Bytes.Radix

/-!
# Digits of one width from digits of another

Encoders of bytes as text read digits of one width into a buffer of bits and take
digits of another width off its top. The digits taken and the buffer are always
the number that was read, so the digits depend on that number only.
-/

namespace Regroup

open Radix (value value_append)

/-- The `out` digits of `v` bits, followed by a buffer of `bits` bits, are the `read` digits of `w`
bits. -/
structure Holds (w v : ℕ) (read out : List ℕ) (buffer bits : ℕ) : Prop where
  value_eq : value (2 ^ w) read = value (2 ^ v) out * 2 ^ bits + buffer
  length_eq : w * read.length = v * out.length + bits
  buffer_lt : buffer < 2 ^ bits
  out_lt : ∀ d ∈ out, d < 2 ^ v

variable {w v : ℕ} {read out : List ℕ} {buffer bits : ℕ}

theorem Holds.start (w v : ℕ) : Holds w v [] [] 0 0 :=
  ⟨by simp, by simp, by simp, by simp⟩

/-- A digit is read into the bottom of the buffer. -/
theorem Holds.take (h : Holds w v read out buffer bits) {d : ℕ} (hd : d < 2 ^ w) :
    Holds w v (read ++ [d]) out (buffer * 2 ^ w + d) (bits + w) := by
  refine ⟨?_, ?_, ?_, h.out_lt⟩
  · rw [value_append, h.value_eq]
    simp [Radix.value_cons]
    ring
  · have hlength := h.length_eq
    rw [List.length_append, List.length_singleton, Nat.mul_add]
    omega
  · calc buffer * 2 ^ w + d < buffer * 2 ^ w + 2 ^ w := by omega
      _ = (buffer + 1) * 2 ^ w := by ring
      _ ≤ 2 ^ bits * 2 ^ w := Nat.mul_le_mul_right _ h.buffer_lt
      _ = 2 ^ (bits + w) := (Nat.pow_add 2 bits w).symm

/-- A digit is taken off the top of the buffer. -/
theorem Holds.emit (h : Holds w v read out buffer (bits + v)) :
    Holds w v read (out ++ [buffer / 2 ^ bits]) (buffer % 2 ^ bits) bits := by
  have hdigit : buffer / 2 ^ bits < 2 ^ v := by
    rw [Nat.div_lt_iff_lt_mul (Nat.two_pow_pos bits), ← Nat.pow_add, Nat.add_comm v]
    exact h.buffer_lt
  refine ⟨?_, ?_, Nat.mod_lt _ (Nat.two_pow_pos bits), ?_⟩
  · have hsplit := Nat.div_add_mod buffer (2 ^ bits)
    rw [h.value_eq, value_append, Nat.pow_add]
    simp only [List.length_singleton, pow_one, Radix.value_cons, List.length_nil, pow_zero, mul_one,
      Radix.value_nil, Nat.add_zero]
    conv_lhs => rw [← hsplit]
    ring
  · have hlength := h.length_eq
    rw [List.length_append, List.length_singleton, Nat.mul_add]
    omega
  · intro d hd
    rcases List.mem_append.mp hd with hd | hd
    · exact h.out_lt d hd
    · rw [List.mem_singleton.mp hd]
      exact hdigit

/-- The low bits of a number that a digit is put behind. -/
theorem mod_mul_add {d : ℕ} (hd : d < 2 ^ w) (n bits : ℕ) :
    (n * 2 ^ w + d) % 2 ^ (bits + w) = n % 2 ^ bits * 2 ^ w + d := by
  have hrest : n % 2 ^ bits + 1 ≤ 2 ^ bits := Nat.mod_lt _ (Nat.two_pow_pos bits)
  have hless : n % 2 ^ bits * 2 ^ w + d < 2 ^ (bits + w) := by
    calc n % 2 ^ bits * 2 ^ w + d < n % 2 ^ bits * 2 ^ w + 2 ^ w := by omega
      _ = (n % 2 ^ bits + 1) * 2 ^ w := by ring
      _ ≤ 2 ^ bits * 2 ^ w := Nat.mul_le_mul_right _ hrest
      _ = 2 ^ (bits + w) := (Nat.pow_add 2 bits w).symm
  have hsplit : n * 2 ^ w + d = 2 ^ (bits + w) * (n / 2 ^ bits) + (n % 2 ^ bits * 2 ^ w + d) := by
    conv_lhs => rw [← Nat.div_add_mod n (2 ^ bits)]
    rw [Nat.pow_add]
    ring
  rw [hsplit, Nat.mul_add_mod, Nat.mod_eq_of_lt hless]

/-- A digit is read into a buffer of `m` bits that still has older bits on its top. -/
theorem Holds.take_mod {m n : ℕ} (h : Holds w v read out (n % 2 ^ bits) bits) {d : ℕ}
    (hd : d < 2 ^ w) (hm : bits + w ≤ m) :
    Holds w v (read ++ [d]) out ((n * 2 ^ w + d) % 2 ^ m % 2 ^ (bits + w)) (bits + w) := by
  rw [Nat.mod_mod_of_dvd _ (Nat.pow_dvd_pow 2 hm), mod_mul_add hd]
  exact h.take hd

/-- A digit is cut out of such a buffer. -/
theorem Holds.emit_mod {n : ℕ} (h : Holds w v read out (n % 2 ^ (bits + v)) (bits + v)) :
    Holds w v read (out ++ [n / 2 ^ bits % 2 ^ v]) (n % 2 ^ bits) bits := by
  have hemit := h.emit
  rwa [Nat.mod_mod_of_dvd _ (Nat.pow_dvd_pow 2 (Nat.le_add_right bits v)), Nat.pow_add,
    Nat.mod_mul_right_div_self] at hemit

/-- What every step keeps is kept by all of them. -/
theorem exists_foldlM {α σ : Type*} {f : σ → α → Option σ} {P : α → Prop} {I : List α → σ → Prop}
    (start : σ) (hstart : I [] start)
    (hstep : ∀ {l s a}, I l s → P a → ∃ s', f s a = some s' ∧ I (l ++ [a]) s') {l : List α}
    (hl : ∀ a ∈ l, P a) : ∃ s, l.foldlM f start = some s ∧ I l s := by
  induction l using List.reverseRecOn with
  | nil => exact ⟨start, rfl, hstart⟩
  | append_singleton l a ih =>
    obtain ⟨s, hfold, hs⟩ := ih fun b hb => hl b (List.mem_append_left _ hb)
    obtain ⟨s', hread, hs'⟩ := hstep hs (hl a (List.mem_append_right _ (List.mem_singleton_self a)))
    refine ⟨s', ?_, hs'⟩
    rw [List.foldlM_append, hfold]
    simp [hread]

/-- Zeros fill the buffer up. -/
theorem Holds.fill (h : Holds w v read out buffer bits) (hbits : bits ≤ v) :
    value (2 ^ v) (out ++ [buffer * 2 ^ (v - bits)]) = value (2 ^ w) read * 2 ^ (v - bits) ∧
      v * (out.length + 1) = w * read.length + (v - bits) ∧ buffer * 2 ^ (v - bits) < 2 ^ v := by
  have hpow : 2 ^ bits * 2 ^ (v - bits) = 2 ^ v := by
    rw [← Nat.pow_add, Nat.add_sub_cancel' hbits]
  refine ⟨?_, ?_, ?_⟩
  · rw [value_append, h.value_eq, Nat.add_mul, Nat.mul_assoc, hpow]
    simp [Radix.value_cons]
  · have hlength := h.length_eq
    rw [Nat.mul_add, Nat.mul_one, hlength]
    omega
  · rw [← hpow]
    exact Nat.mul_lt_mul_of_pos_right h.buffer_lt (Nat.two_pow_pos _)

/-- The digits taken are the number that was read, without the bits of the buffer. -/
theorem Holds.value_out (h : Holds w v read out buffer bits) :
    value (2 ^ v) out = value (2 ^ w) read / 2 ^ bits := by
  rw [h.value_eq, Nat.mul_comm, Nat.mul_add_div (Nat.two_pow_pos bits),
    Nat.div_eq_of_lt h.buffer_lt, Nat.add_zero]

/-- Reading digits back gives the digits they were made of, if fewer bits than one digit were filled
up. -/
theorem Holds.out_eq {original : List ℕ} {p : ℕ} (h : Holds w v read out buffer bits)
    (hv : 0 < v) (hbits : bits < v) (hp : p < v)
    (hvalue : value (2 ^ w) read = value (2 ^ v) original * 2 ^ p)
    (hlength : w * read.length = v * original.length + p) (horiginal : ∀ d ∈ original, d < 2 ^ v) :
    out = original := by
  have hlen := h.length_eq
  rw [hlength] at hlen
  have hdiv : out.length = original.length := by
    have hleft : (v * original.length + p) / v = original.length := by
      rw [Nat.mul_add_div hv, Nat.div_eq_of_lt hp, Nat.add_zero]
    have hright : (v * out.length + bits) / v = out.length := by
      rw [Nat.mul_add_div hv, Nat.div_eq_of_lt hbits, Nat.add_zero]
    rw [← hleft, ← hright, hlen]
  have hbits : bits = p := by
    rw [hdiv] at hlen
    omega
  refine Radix.eq_of_value_eq (Nat.one_lt_two_pow hv.ne') hdiv h.out_lt horiginal ?_
  rw [h.value_out, hvalue, hbits, Nat.mul_div_cancel _ (Nat.two_pow_pos p)]

end Regroup
