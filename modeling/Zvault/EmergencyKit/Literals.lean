import Mathlib.Data.List.Basic
import Zvault.Fallible.Steps

/-!
# Literal strings of a PDF

`escape_into` of `pdf.rs`, and `literal_strings` of `read.rs`, which scans all bytes of a
file. A string is read as it was written, and what is written between the strings is
skipped.
-/

namespace Zvault.EmergencyKit

open Checked (Panic)

def openParen : UInt8 := 40

def closeParen : UInt8 := 41

def backslash : UInt8 := 92

/-- An octal digit. -/
def octalDigit (n : ℕ) : UInt8 := .ofNat (48 + n % 8)

def escapeByte (b : UInt8) : List UInt8 :=
  if b = openParen ∨ b = closeParen ∨ b = backslash then [backslash, b]
  else if 0x20 ≤ b ∧ b ≤ 0x7e then [b]
  else [backslash, octalDigit (b.toNat / 64), octalDigit (b.toNat / 8), octalDigit b.toNat]

/-- `escape_into`. -/
def escaped (s : List UInt8) : List UInt8 := s.flatMap escapeByte

@[simp] theorem escaped_nil : escaped [] = [] := rfl

theorem escaped_cons (b : UInt8) (s : List UInt8) : escaped (b :: s) = escapeByte b ++ escaped s :=
  List.flatMap_cons

def isOctal (b : UInt8) : Bool := 48 ≤ b && b ≤ 55

/-- The inner loop of `literal_strings`: the string that begins at `i`, and where it ends. -/
def literal (pdf : List UInt8) (i depth : ℕ) (s : List UInt8) :
    Except Panic (List UInt8 × ℕ) :=
  if h : i < pdf.length then do
    let b ← Checked.get pdf i
    if b = backslash then
      match pdf[i + 1]? with
      | none => .ok (s, i + 1)
      | some next =>
        if isOctal next then do
          let tail ← Checked.sliceFrom pdf (i + 1)
          let digits := ((tail.take 3).takeWhile isOctal).length
          let window ← Checked.slice pdf (i + 1) (i + 1 + digits)
          let value := window.foldl (fun v d => v * 8 + (d.toNat - 48)) 0
          literal pdf (i + 1 + digits) depth (s ++ [.ofNat (value &&& 0xff)])
        else literal pdf (i + 2) depth (s ++ [next])
    else if b = openParen then literal pdf (i + 1) (depth + 1) (s ++ [b])
    else if b = closeParen then
      if depth - 1 = 0 then .ok (s, i + 1) else literal pdf (i + 1) (depth - 1) (s ++ [b])
    else literal pdf (i + 1) depth (s ++ [b])
  else .ok (s, i)
termination_by pdf.length - i

section Literal

variable {pdf s : List UInt8} {i depth : ℕ}

theorem literal_of_le (h : pdf.length ≤ i) : literal pdf i depth s = .ok (s, i) := by
  rw [literal, dif_neg (Nat.not_lt.mpr h)]

/-- A round of the loop, in which nothing is read outside of the file. -/
theorem literal_of_getElem? {b : UInt8} (h : pdf[i]? = some b) :
    literal pdf i depth s =
      if b = backslash then
        match pdf[i + 1]? with
        | none => .ok (s, i + 1)
        | some next =>
          if isOctal next then
            let window := ((pdf.drop (i + 1)).take 3).takeWhile isOctal
            literal pdf (i + 1 + window.length) depth
              (s ++ [.ofNat (window.foldl (fun v d => v * 8 + (d.toNat - 48)) 0 &&& 0xff)])
          else literal pdf (i + 2) depth (s ++ [next])
      else if b = openParen then literal pdf (i + 1) (depth + 1) (s ++ [b])
      else if b = closeParen then
        if depth - 1 = 0 then .ok (s, i + 1) else literal pdf (i + 1) (depth - 1) (s ++ [b])
      else literal pdf (i + 1) depth (s ++ [b]) := by
  have hi : i < pdf.length := (List.getElem?_eq_some_iff.mp h).1
  have hwindow : ((pdf.drop (i + 1)).take 3).takeWhile isOctal <+: pdf.drop (i + 1) :=
    (List.takeWhile_prefix _).trans (List.take_prefix _ _)
  have hlength : i + 1 + (((pdf.drop (i + 1)).take 3).takeWhile isOctal).length ≤ pdf.length := by
    have := hwindow.length_le
    rw [List.length_drop] at this
    omega
  rw [literal, dif_pos hi, Checked.get_eq_ok h]
  simp only [Fallible.ok_bind, Checked.sliceFrom_eq_ok (Nat.succ_le_of_lt hi), Nat.succ_eq_add_one,
    Checked.slice_eq_ok hlength, ← List.prefix_iff_eq_take.mp hwindow]

/-- The loop ends within the file, or behind its last byte. -/
theorem exists_literal (pdf : List UInt8) (i depth : ℕ) (s : List UInt8) :
    ∃ read next, literal pdf i depth s = .ok (read, next) ∧ i ≤ next := by
  induction hn : pdf.length - i using Nat.strongRecOn generalizing i depth s with
  | _ n ih =>
    subst hn
    cases hb : pdf[i]? with
    | none =>
      exact ⟨s, i, literal_of_le (List.getElem?_eq_none_iff.mp hb), Nat.le_refl i⟩
    | some b =>
      have hi : i < pdf.length := (List.getElem?_eq_some_iff.mp hb).1
      have hlater : ∀ j, i < j → ∀ depth s,
          ∃ read next, literal pdf j depth s = .ok (read, next) ∧ i ≤ next := by
        intro j hj depth s
        obtain ⟨read, next, hread, hnext⟩ := ih (pdf.length - j) (by omega) j depth s rfl
        exact ⟨read, next, hread, by omega⟩
      rw [literal_of_getElem? hb]
      split
      · split
        · exact ⟨s, i + 1, rfl, Nat.le_succ i⟩
        · split
          · exact hlater _ (by omega) _ _
          · exact hlater _ (by omega) _ _
      · split
        · exact hlater _ (by omega) _ _
        · split
          · split
            · exact ⟨s, i + 1, rfl, Nat.le_succ i⟩
            · exact hlater _ (by omega) _ _
          · exact hlater _ (by omega) _ _

theorem le_of_literal {read : List UInt8} {next : ℕ}
    (h : literal pdf i depth s = .ok (read, next)) : i ≤ next := by
  obtain ⟨read', next', hread, hle⟩ := exists_literal pdf i depth s
  rw [h] at hread
  cases hread
  exact hle

end Literal

/-- `literal_strings`, from byte `i` on. -/
def literalStrings (pdf : List UInt8) (i : ℕ) : Except Panic (List (List UInt8)) :=
  if _h : i < pdf.length then do
    let b ← Checked.get pdf i
    if b ≠ openParen then literalStrings pdf (i + 1)
    else
      match _hread : literal pdf (i + 1) 1 [] with
      | .error p => .error p
      | .ok (s, next) => do
        let rest ← literalStrings pdf next
        return s :: rest
  else .ok []
termination_by pdf.length - i
decreasing_by
  · omega
  · have := le_of_literal _hread
    omega

section Strings

variable {pdf s : List UInt8} {i : ℕ}

theorem literalStrings_of_le (h : pdf.length ≤ i) : literalStrings pdf i = .ok [] := by
  rw [literalStrings, dif_neg (Nat.not_lt.mpr h)]

theorem literalStrings_skip {b : UInt8} (h : pdf[i]? = some b) (hb : b ≠ openParen) :
    literalStrings pdf i = literalStrings pdf (i + 1) := by
  rw [literalStrings, dif_pos (List.getElem?_eq_some_iff.mp h).1, Checked.get_eq_ok h]
  exact if_pos hb

theorem literalStrings_open {next : ℕ} (h : pdf[i]? = some openParen)
    (hread : literal pdf (i + 1) 1 [] = .ok (s, next)) :
    literalStrings pdf i = (literalStrings pdf next).map (s :: ·) := by
  rw [literalStrings, dif_pos (List.getElem?_eq_some_iff.mp h).1, Checked.get_eq_ok h,
    Fallible.ok_bind, if_neg (not_not.mpr rfl)]
  split
  · rename_i p hpanic
    rw [hread] at hpanic
    cases hpanic
  · rename_i read next' hread'
    rw [hread] at hread'
    cases hread'
    cases literalStrings pdf next <;> rfl

/-- The scan ends for any file. -/
theorem exists_literalStrings (pdf : List UInt8) (i : ℕ) :
    ∃ strings, literalStrings pdf i = .ok strings := by
  induction hn : pdf.length - i using Nat.strongRecOn generalizing i with
  | _ n ih =>
    subst hn
    cases hb : pdf[i]? with
    | none => exact ⟨[], literalStrings_of_le (List.getElem?_eq_none_iff.mp hb)⟩
    | some b =>
      have hi : i < pdf.length := (List.getElem?_eq_some_iff.mp hb).1
      by_cases hopen : b = openParen
      · subst hopen
        obtain ⟨read, next, hread, hnext⟩ := exists_literal pdf (i + 1) 1 []
        obtain ⟨rest, hrest⟩ := ih (pdf.length - next) (by omega) next rfl
        exact ⟨read :: rest, by rw [literalStrings_open hb hread, hrest]; rfl⟩
      · rw [literalStrings_skip hb hopen]
        exact ih (pdf.length - (i + 1)) (by omega) (i + 1) rfl

end Strings

section Written

variable {pdf : List UInt8}

theorem getElem?_of_drop_eq_cons {i : ℕ} {b : UInt8} {rest : List UInt8}
    (h : pdf.drop i = b :: rest) : pdf[i]? = some b ∧ pdf.drop (i + 1) = rest := by
  refine ⟨?_, ?_⟩
  · have hfirst := congrArg (·[0]?) h
    simpa using hfirst
  · rw [← List.drop_drop, h]
    rfl

/-- What is written for a byte is read as this byte. -/
theorem literal_escapeByte {b : UInt8} {i : ℕ} {rest acc : List UInt8}
    (h : pdf.drop i = escapeByte b ++ rest) :
    literal pdf i 1 acc = literal pdf (i + (escapeByte b).length) 1 (acc ++ [b]) := by
  by_cases hspecial : b = openParen ∨ b = closeParen ∨ b = backslash
  · have hbytes : escapeByte b = [backslash, b] := if_pos hspecial
    rw [hbytes] at h ⊢
    obtain ⟨hfirst, h⟩ := getElem?_of_drop_eq_cons h
    obtain ⟨hsecond, -⟩ := getElem?_of_drop_eq_cons h
    have hoctal : isOctal b = false := by
      rcases hspecial with rfl | rfl | rfl <;> decide
    rw [literal_of_getElem? hfirst, if_pos rfl, hsecond]
    exact if_neg (by simp [hoctal])
  · by_cases hplain : 0x20 ≤ b ∧ b ≤ 0x7e
    · have hbytes : escapeByte b = [b] := (if_neg hspecial).trans (if_pos hplain)
      rw [hbytes] at h ⊢
      obtain ⟨hfirst, -⟩ := getElem?_of_drop_eq_cons h
      obtain ⟨hopen, hothers⟩ := not_or.mp hspecial
      obtain ⟨hclose, hbackslash⟩ := not_or.mp hothers
      rw [literal_of_getElem? hfirst, if_neg hbackslash, if_neg hopen, if_neg hclose]
      rfl
    · have hbytes : escapeByte b =
          [backslash, octalDigit (b.toNat / 64), octalDigit (b.toNat / 8), octalDigit b.toNat] :=
        (if_neg hspecial).trans (if_neg hplain)
      have hall : ∀ n : Fin 256,
          isOctal (octalDigit (n / 64)) = true ∧ isOctal (octalDigit (n / 8)) = true ∧
          isOctal (octalDigit n) = true ∧
          UInt8.ofNat ([octalDigit (n / 64), octalDigit (n / 8), octalDigit n].foldl
            (fun v d => v * 8 + (d.toNat - 48)) 0 &&& 0xff) = UInt8.ofNat n := by
        decide +kernel
      obtain ⟨hd₁, hd₂, hd₃, hvalue⟩ := hall ⟨b.toNat, b.toNat_lt⟩
      rw [UInt8.ofNat_toNat] at hvalue
      rw [hbytes] at h ⊢
      obtain ⟨hfirst, h⟩ := getElem?_of_drop_eq_cons h
      obtain ⟨hsecond, -⟩ := getElem?_of_drop_eq_cons h
      have hwindow : ((pdf.drop (i + 1)).take 3).takeWhile isOctal =
          [octalDigit (b.toNat / 64), octalDigit (b.toNat / 8), octalDigit b.toNat] := by
        rw [h]
        change [octalDigit (b.toNat / 64), octalDigit (b.toNat / 8),
          octalDigit b.toNat].takeWhile isOctal = _
        rw [List.takeWhile_cons_of_pos hd₁, List.takeWhile_cons_of_pos hd₂,
          List.takeWhile_cons_of_pos hd₃, List.takeWhile_nil]
      rw [literal_of_getElem? hfirst, if_pos rfl, hsecond]
      dsimp only
      rw [if_pos hd₁, hwindow, hvalue]
      rfl

/-- A string is read as it was written. -/
theorem literal_escaped {s : List UInt8} {i : ℕ} {rest acc : List UInt8}
    (h : pdf.drop i = escaped s ++ closeParen :: rest) :
    literal pdf i 1 acc = .ok (acc ++ s, i + (escaped s).length + 1) := by
  induction s generalizing i acc with
  | nil =>
    obtain ⟨hclose, -⟩ := getElem?_of_drop_eq_cons h
    rw [literal_of_getElem? hclose, if_neg (by decide), if_neg (by decide), if_pos rfl, if_pos rfl,
      List.append_nil]
    rfl
  | cons b s ih =>
    rw [escaped_cons, List.append_assoc] at h
    have hrest : pdf.drop (i + (escapeByte b).length) = escaped s ++ closeParen :: rest := by
      rw [← List.drop_drop, h, List.drop_left]
    rw [literal_escapeByte h, ih hrest, List.append_assoc, List.singleton_append, escaped_cons,
      List.length_append, Nat.add_assoc i]

/-- Bytes that have these strings in them, wherever they stand in a file. -/
def Shows (bytes : List UInt8) (strings : List (List UInt8)) : Prop :=
  ∀ (pdf : List UInt8) (i : ℕ) (rest : List UInt8), pdf.drop i = bytes ++ rest →
    literalStrings pdf i = (literalStrings pdf (i + bytes.length)).map (strings ++ ·)

theorem map_ok_id {α : Type} (x : Except Panic (List α)) : x.map ([] ++ ·) = x := by
  cases x <;> rfl

theorem Shows.nil : Shows [] [] := fun pdf i _ _ => (map_ok_id (literalStrings pdf i)).symm

theorem Shows.append {bytes bytes' : List UInt8} {strings strings' : List (List UInt8)}
    (h : Shows bytes strings) (h' : Shows bytes' strings') :
    Shows (bytes ++ bytes') (strings ++ strings') := by
  intro pdf i rest hdrop
  rw [List.append_assoc] at hdrop
  have hrest : pdf.drop (i + bytes.length) = bytes' ++ rest := by
    rw [← List.drop_drop, hdrop, List.drop_left]
  rw [h pdf i _ hdrop, h' pdf _ rest hrest, List.length_append, Nat.add_assoc]
  cases literalStrings pdf (i + (bytes.length + bytes'.length)) with
  | error p => rfl
  | ok tail => exact congrArg Except.ok (List.append_assoc ..).symm

/-- Nothing is shown where no string begins. -/
theorem Shows.plain {bytes : List UInt8} (h : openParen ∉ bytes) : Shows bytes [] := by
  induction bytes with
  | nil => exact .nil
  | cons b bytes ih =>
    obtain ⟨hb, hbytes⟩ := not_or.mp (mt List.mem_cons.mpr h)
    intro pdf i rest hdrop
    obtain ⟨hfirst, hrest⟩ := getElem?_of_drop_eq_cons hdrop
    rw [literalStrings_skip hfirst (Ne.symm hb), ih hbytes pdf (i + 1) rest hrest, List.length_cons,
      Nat.add_assoc, Nat.add_comm 1]

theorem Shows.string (s : List UInt8) :
    Shows (openParen :: (escaped s ++ [closeParen])) [s] := by
  intro pdf i rest hdrop
  rw [List.cons_append, List.append_assoc] at hdrop
  obtain ⟨hopen, hrest⟩ := getElem?_of_drop_eq_cons hdrop
  rw [literalStrings_open hopen (literal_escaped hrest), List.nil_append]
  have hlength : i + (openParen :: (escaped s ++ [closeParen])).length =
      i + 1 + (escaped s).length + 1 := by
    simp only [List.length_cons, List.length_append, List.length_nil]
    omega
  rw [hlength]
  rfl

/-- All strings of a file. -/
theorem Shows.literalStrings_eq {pdf : List UInt8} {strings : List (List UInt8)}
    (h : Shows pdf strings) : literalStrings pdf 0 = .ok strings := by
  rw [h pdf 0 [] (List.append_nil pdf).symm, literalStrings_of_le (Nat.le_add_left ..)]
  exact congrArg Except.ok (List.append_nil strings)

end Written

end Zvault.EmergencyKit
