import Mathlib.Data.List.Basic
import Mathlib.Data.Nat.Notation

/-!
# Canonical ids

A UUID has one canonical text, lowercase and hyphenated. It is the only text that
`uuid_bytes` of `pairing.rs` reads, so that one record has exactly one id string.
-/

namespace Zvault.Crypto

structure Uuid where
  bytes : List UInt8
  length_eq : bytes.length = 16
  deriving DecidableEq, Repr

/-- Two lowercase digits for each byte. -/
def hex (bytes : List UInt8) : List Char :=
  bytes.flatMap fun b => [Nat.digitChar (b.toNat / 16), Nat.digitChar (b.toNat % 16)]

/-- `id_string` of a token, and `Uuid::hyphenated`. -/
def Uuid.hyphenated (id : Uuid) : String :=
  let h := hex id.bytes
  .ofList (h.take 8 ++ '-' :: ((h.drop 8).take 4 ++ '-' :: ((h.drop 12).take 4 ++
    '-' :: ((h.drop 16).take 4 ++ '-' :: h.drop 20))))

def hexValue (c : Char) : Option ℕ :=
  if '0' ≤ c ∧ c ≤ '9' then some (c.toNat - '0'.toNat)
  else if 'a' ≤ c ∧ c ≤ 'f' then some (c.toNat - 'a'.toNat + 10)
  else none

/-- The bytes that pairs of digits stand for. -/
def unhex : List Char → Option (List UInt8)
  | [] => some []
  | [_] => none
  | hi :: lo :: rest => do
    let hi ← hexValue hi
    let lo ← hexValue lo
    let bytes ← unhex rest
    return UInt8.ofNat (16 * hi + lo) :: bytes

/-- `uuid_bytes`. -/
def uuidBytes (id : String) : Option (List UInt8) :=
  let chars := id.toList
  if chars.length ≠ 36 ∨ [8, 13, 18, 23].any fun i => chars[i]? ≠ some '-' then none
  else
    let digits := chars.filter fun c => c ≠ '-'
    if digits.length ≠ 32 then none else unhex digits

theorem hexValue_digitChar {n : ℕ} (h : n < 16) : hexValue (Nat.digitChar n) = some n := by
  decide +revert

theorem digitChar_ne_hyphen {n : ℕ} (h : n < 16) : Nat.digitChar n ≠ '-' := by
  decide +revert

@[simp] theorem length_hex (bytes : List UInt8) : (hex bytes).length = 2 * bytes.length := by
  induction bytes with
  | nil => rfl
  | cons b bytes ih =>
    rw [hex, List.flatMap_cons, List.length_append, ← hex, ih]
    simp only [List.length_cons, List.length_nil]
    omega

theorem hyphen_not_mem_hex (bytes : List UInt8) : '-' ∉ hex bytes := by
  intro h
  obtain ⟨b, -, hb⟩ := List.mem_flatMap.mp h
  have hlt : b.toNat < 256 := b.toNat_lt
  rcases List.mem_pair.mp hb with heq | heq
  · exact digitChar_ne_hyphen (by omega) heq.symm
  · exact digitChar_ne_hyphen (by omega) heq.symm

/-- The digits of bytes are read back. -/
theorem unhex_hex (bytes : List UInt8) : unhex (hex bytes) = some bytes := by
  induction bytes with
  | nil => rfl
  | cons b bytes ih =>
    have hlt : b.toNat < 256 := b.toNat_lt
    have hbyte : 16 * (b.toNat / 16) + b.toNat % 16 = b.toNat := by omega
    rw [hex, List.flatMap_cons, ← hex]
    simp only [List.cons_append, List.nil_append, unhex, ih,
      hexValue_digitChar (show b.toNat / 16 < 16 by omega),
      hexValue_digitChar (show b.toNat % 16 < 16 by omega), Option.bind_eq_bind, Option.bind_some,
      Option.pure_def]
    rw [hbyte, UInt8.ofNat_toNat]

theorem hexValue_eq_some {c : Char} {n : ℕ} (h : hexValue c = some n) :
    n < 16 ∧ Nat.digitChar n = c := by
  have hall : ∀ d : Fin 16, ∀ c : Char, c = Char.ofNat (if d.val < 10 then 48 + d.val else 87 + d.val) →
      Nat.digitChar d.val = c := by
    rintro d c rfl
    decide +revert
  unfold hexValue at h
  split at h
  · rename_i hdigit
    have hrange : 48 ≤ c.toNat ∧ c.toNat ≤ 57 := hdigit
    obtain rfl : c.toNat - 48 = n := Option.some_inj.mp h
    refine ⟨by omega, hall ⟨c.toNat - 48, by omega⟩ c ?_⟩
    rw [if_pos (by dsimp only; omega)]
    exact (Char.ofNat_toNat c).symm.trans (congrArg Char.ofNat (by dsimp only; omega))
  · split at h
    · rename_i hletter
      have hrange : 97 ≤ c.toNat ∧ c.toNat ≤ 102 := hletter
      obtain rfl : c.toNat - 97 + 10 = n := Option.some_inj.mp h
      refine ⟨by omega, hall ⟨c.toNat - 97 + 10, by omega⟩ c ?_⟩
      rw [if_neg (by dsimp only; omega)]
      exact (Char.ofNat_toNat c).symm.trans (congrArg Char.ofNat (by dsimp only; omega))
    · cases h

/-- Digits are what the bytes read from them are written as. -/
theorem hex_of_unhex {digits : List Char} {bytes : List UInt8} (h : unhex digits = some bytes) :
    hex bytes = digits := by
  induction digits using unhex.induct generalizing bytes with
  | case1 =>
    obtain rfl := Option.some_inj.mp h
    rfl
  | case2 c => cases h
  | case3 hi lo rest ih =>
    simp only [unhex, Option.bind_eq_bind, Option.bind_eq_some_iff, Option.pure_def,
      Option.some_inj] at h
    obtain ⟨a, ha, b, hb, bytes, hrest, rfl⟩ := h
    obtain ⟨ha, hhi⟩ := hexValue_eq_some ha
    obtain ⟨hb, hlo⟩ := hexValue_eq_some hb
    have hvalue : (UInt8.ofNat (16 * a + b)).toNat = 16 * a + b :=
      UInt8.toNat_ofNat_of_lt' (by change _ < 256; omega)
    have hdiv : (16 * a + b) / 16 = a := by omega
    have hmod : (16 * a + b) % 16 = b := by omega
    have htail : List.flatMap (fun b : UInt8 =>
        [Nat.digitChar (b.toNat / 16), Nat.digitChar (b.toNat % 16)]) bytes = rest := ih hrest
    rw [hex, List.flatMap_cons, htail, hvalue, hdiv, hmod, hhi, hlo]
    rfl

/-- A canonical text has 36 characters. -/
theorem Uuid.length_hyphenated (id : Uuid) : id.hyphenated.toList.length = 36 := by
  have hlength : (hex id.bytes).length = 32 := by rw [length_hex, id.length_eq]
  simp only [hyphenated, String.toList_ofList, List.length_append, List.length_cons,
    List.length_take, List.length_drop, hlength]
  omega

/-- The canonical text of an id is read back. -/
theorem uuidBytes_hyphenated (id : Uuid) : uuidBytes id.hyphenated = some id.bytes := by
  have hlength : (hex id.bytes).length = 32 := by rw [length_hex, id.length_eq]
  have hfilter : ∀ cs : List Char, (∀ c ∈ cs, c ∈ hex id.bytes) →
      cs.filter (fun c => c ≠ '-') = cs := by
    intro cs hcs
    refine List.filter_eq_self.mpr fun c hc => decide_eq_true fun heq => ?_
    exact hyphen_not_mem_hex id.bytes (heq ▸ hcs c hc)
  have hdigits : id.hyphenated.toList.filter (fun c => c ≠ '-') = hex id.bytes := by
    have hskip : ∀ cs : List Char,
        ('-' :: cs).filter (fun c => c ≠ '-') = cs.filter fun c => c ≠ '-' :=
      fun cs => List.filter_cons_of_neg (by decide)
    simp only [Uuid.hyphenated, String.toList_ofList, List.filter_append, hskip]
    rw [hfilter _ fun c hc => List.mem_of_mem_take hc,
      hfilter _ fun c hc => List.mem_of_mem_drop (List.mem_of_mem_take hc),
      hfilter _ fun c hc => List.mem_of_mem_drop (List.mem_of_mem_take hc),
      hfilter _ fun c hc => List.mem_of_mem_drop (List.mem_of_mem_take hc),
      hfilter _ fun c hc => List.mem_of_mem_drop hc]
    have hjoin : ∀ (i j : ℕ), ((hex id.bytes).drop i).take j ++ (hex id.bytes).drop (i + j) =
        (hex id.bytes).drop i := by
      intro i j
      rw [← List.drop_drop, List.take_append_drop]
    rw [hjoin 16 4, hjoin 12 4, hjoin 8 4, List.take_append_drop]
  have hhyphens : ([8, 13, 18, 23].any fun i => id.hyphenated.toList[i]? ≠ some '-') = false := by
    simp [Uuid.hyphenated, List.getElem?_append, hlength]
  simp only [uuidBytes, id.length_hyphenated, hhyphens, hdigits, hlength, ne_eq, not_true_eq_false,
    Bool.false_eq_true, or_false, if_false, unhex_hex]

/-- What a canonical text is made of. -/
theorem Uuid.mem_hyphenated {id : Uuid} {c : Char} (h : c ∈ id.hyphenated.toList) :
    c = '-' ∨ ∃ n < 16, c = Nat.digitChar n := by
  have hhex : c ∈ hex id.bytes → ∃ n < 16, c = Nat.digitChar n := by
    intro hc
    obtain ⟨b, -, hb⟩ := List.mem_flatMap.mp hc
    have hlt : b.toNat < 256 := b.toNat_lt
    rcases List.mem_pair.mp hb with rfl | rfl
    · exact ⟨b.toNat / 16, by omega, rfl⟩
    · exact ⟨b.toNat % 16, by omega, rfl⟩
  simp only [hyphenated, String.toList_ofList, List.mem_append, List.mem_cons] at h
  rcases h with h | h | h | h | h | h | h | h | h
  · exact .inr (hhex (List.mem_of_mem_take h))
  · exact .inl h
  · exact .inr (hhex (List.mem_of_mem_drop (List.mem_of_mem_take h)))
  · exact .inl h
  · exact .inr (hhex (List.mem_of_mem_drop (List.mem_of_mem_take h)))
  · exact .inl h
  · exact .inr (hhex (List.mem_of_mem_drop (List.mem_of_mem_take h)))
  · exact .inl h
  · exact .inr (hhex (List.mem_of_mem_drop h))

theorem Uuid.eq_of_bytes_eq {a b : Uuid} (h : a.bytes = b.bytes) : a = b := by
  cases a
  cases b
  simpa using h

theorem Uuid.hyphenated_inj {a b : Uuid} (h : a.hyphenated = b.hyphenated) : a = b :=
  eq_of_bytes_eq (Option.some_inj.mp
    ((uuidBytes_hyphenated a).symm.trans (h ▸ uuidBytes_hyphenated b)))

theorem eq_append_cons_of_getElem? {α : Type*} {l : List α} {i : ℕ} {a : α} (h : l[i]? = some a) :
    l = l.take i ++ a :: l.drop (i + 1) := by
  obtain ⟨hi, rfl⟩ := List.getElem?_eq_some_iff.mp h
  rw [List.getElem_cons_drop, List.take_append_drop]

/-- Only canonical texts are read. -/
theorem exists_hyphenated_of_uuidBytes {id : String} {bytes : List UInt8}
    (h : uuidBytes id = some bytes) : ∃ u : Uuid, u.hyphenated = id ∧ u.bytes = bytes := by
  simp only [uuidBytes] at h
  split at h
  · cases h
  rename_i hshape
  split at h
  · cases h
  rename_i hdigits
  obtain ⟨hlength, hhyphens⟩ := not_or.mp hshape
  replace hlength := not_not.mp hlength
  replace hdigits := not_not.mp hdigits
  have hat : ∀ i ∈ [8, 13, 18, 23], id.toList[i]? = some '-' := by
    intro i hi
    by_contra hne
    exact hhyphens (List.any_eq_true.mpr ⟨i, hi, decide_eq_true hne⟩)
  obtain ⟨chars, rfl⟩ : ∃ chars, id = .ofList chars := ⟨id.toList, (String.ofList_toList).symm⟩
  rw [String.toList_ofList] at *
  -- The text is cut at its four hyphens.
  have hcut₁ := eq_append_cons_of_getElem? (hat 8 (by simp))
  have hcut₂ := eq_append_cons_of_getElem? (l := chars.drop 9) (i := 4)
    (by rw [List.getElem?_drop]; exact hat 13 (by simp))
  have hcut₃ := eq_append_cons_of_getElem? (l := chars.drop 14) (i := 4)
    (by rw [List.getElem?_drop]; exact hat 18 (by simp))
  have hcut₄ := eq_append_cons_of_getElem? (l := chars.drop 19) (i := 4)
    (by rw [List.getElem?_drop]; exact hat 23 (by simp))
  rw [List.drop_drop] at hcut₂ hcut₃ hcut₄
  obtain ⟨a, ha⟩ : ∃ a, chars.take 8 = a := ⟨_, rfl⟩
  obtain ⟨b, hb⟩ : ∃ b, (chars.drop 9).take 4 = b := ⟨_, rfl⟩
  obtain ⟨c, hc⟩ : ∃ c, (chars.drop 14).take 4 = c := ⟨_, rfl⟩
  obtain ⟨d, hd⟩ : ∃ d, (chars.drop 19).take 4 = d := ⟨_, rfl⟩
  obtain ⟨e, he⟩ : ∃ e, chars.drop 24 = e := ⟨_, rfl⟩
  have hchars : chars = a ++ '-' :: (b ++ '-' :: (c ++ '-' :: (d ++ '-' :: e))) := by
    rw [ha] at hcut₁
    rw [hb] at hcut₂
    rw [hc] at hcut₃
    rw [hd, he] at hcut₄
    rw [hcut₁, hcut₂, hcut₃, hcut₄]
  have hla : a.length = 8 := by rw [← ha, List.length_take, hlength]; rfl
  have hlb : b.length = 4 := by rw [← hb, List.length_take, List.length_drop, hlength]; rfl
  have hlc : c.length = 4 := by rw [← hc, List.length_take, List.length_drop, hlength]; rfl
  have hld : d.length = 4 := by rw [← hd, List.length_take, List.length_drop, hlength]; rfl
  have hle : e.length = 12 := by rw [← he, List.length_drop, hlength]
  -- There is no further hyphen in the parts.
  have hfilter : chars.filter (fun c => c ≠ '-') = a ++ (b ++ (c ++ (d ++ e))) := by
    refine List.Sublist.eq_of_length ?_ ?_
    · have hskip : ∀ cs : List Char,
          ('-' :: cs).filter (fun c => c ≠ '-') = cs.filter fun c => c ≠ '-' :=
        fun cs => List.filter_cons_of_neg (by decide)
      rw [hchars]
      simp only [List.filter_append, hskip]
      exact List.filter_sublist.append (List.filter_sublist.append
        (List.filter_sublist.append (List.filter_sublist.append List.filter_sublist)))
    · rw [hdigits]
      simp only [List.length_append]
      omega
  rw [hfilter] at h hdigits
  have hhex := hex_of_unhex h
  have hbytes : bytes.length = 16 := by
    have := length_hex bytes
    rw [hhex, hdigits] at this
    omega
  have hdrop₈ : (hex bytes).drop 8 = b ++ (c ++ (d ++ e)) := by rw [hhex, List.drop_left' hla]
  have hdrop₁₂ : (hex bytes).drop 12 = c ++ (d ++ e) := by
    rw [← List.drop_drop (i := 4) (j := 8), hdrop₈, List.drop_left' hlb]
  have hdrop₁₆ : (hex bytes).drop 16 = d ++ e := by
    rw [← List.drop_drop (i := 4) (j := 12), hdrop₁₂, List.drop_left' hlc]
  have hdrop₂₀ : (hex bytes).drop 20 = e := by
    rw [← List.drop_drop (i := 4) (j := 16), hdrop₁₆, List.drop_left' hld]
  refine ⟨⟨bytes, hbytes⟩, ?_, rfl⟩
  rw [Uuid.hyphenated]
  simp only [hdrop₈, hdrop₁₂, hdrop₁₆, hdrop₂₀, hchars, List.take_left' hlb, List.take_left' hlc,
    List.take_left' hld]
  rw [hhex, List.take_left' hla]

end Zvault.Crypto
