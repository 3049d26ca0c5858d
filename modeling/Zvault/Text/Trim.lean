import Mathlib.Data.List.Basic
import Mathlib.Data.Nat.Notation

/-!
# White space

`str::trim`, with the white space of Unicode.
-/

namespace Text

/-- `char::is_whitespace`. -/
def isWhitespace (c : Char) : Bool :=
  let n := c.toNat
  (0x09 ≤ n && n ≤ 0x0D) || n == 0x20 || n == 0x85 || n == 0xA0 || n == 0x1680 ||
    (0x2000 ≤ n && n ≤ 0x200A) || n == 0x2028 || n == 0x2029 || n == 0x202F || n == 0x205F ||
    n == 0x3000

/-- The characters between the first and the last that is not white space. -/
def trimmed (cs : List Char) : List Char :=
  ((cs.dropWhile isWhitespace).reverse.dropWhile isWhitespace).reverse

def trim (s : String) : String := String.ofList (trimmed s.toList)

/-- White space and line terminators of JavaScript. -/
def isJsWhitespace (c : Char) : Bool :=
  c.toNat == 0xFEFF || (isWhitespace c && c.toNat != 0x85)

def jsTrimmed (cs : List Char) : List Char :=
  ((cs.dropWhile isJsWhitespace).reverse.dropWhile isJsWhitespace).reverse

/-- `String.prototype.trim`. -/
def jsTrim (s : String) : String := String.ofList (jsTrimmed s.toList)

/-- A character of ASCII that is seen is no white space. -/
theorem isWhitespace_eq_false {c : Char} (hlow : 0x20 < c.toNat) (hhigh : c.toNat < 0x7F) :
    isWhitespace c = false := by
  simp only [isWhitespace, Bool.or_eq_false_iff, Bool.and_eq_false_iff, decide_eq_false_iff_not,
    beq_eq_false_iff_ne]
  omega

/-- What is trimmed off. -/
theorem exists_append_trimmed (cs : List Char) : ∃ before after, cs = before ++ trimmed cs ++ after ∧
    (∀ c ∈ before, isWhitespace c = true) ∧ ∀ c ∈ after, isWhitespace c = true := by
  have hstart := List.takeWhile_append_dropWhile (p := isWhitespace) (l := cs)
  have hend := List.takeWhile_append_dropWhile (p := isWhitespace)
    (l := (cs.dropWhile isWhitespace).reverse)
  have hmem : ∀ (l : List Char), ∀ c ∈ l.takeWhile isWhitespace, isWhitespace c = true :=
    fun l c hc => List.all_eq_true.mp List.all_takeWhile c hc
  refine ⟨cs.takeWhile isWhitespace, ((cs.dropWhile isWhitespace).reverse.takeWhile isWhitespace).reverse,
    ?_, hmem cs, fun c hc => hmem _ c (List.mem_reverse.mp hc)⟩
  have hrest := congrArg List.reverse hend
  rw [List.reverse_append, List.reverse_reverse] at hrest
  rw [List.append_assoc, trimmed, hrest, hstart]

theorem head?_dropWhile_not {α : Type*} (p : α → Bool) (l : List α) :
    ∀ a ∈ (l.dropWhile p).head?, p a = false := by
  intro a ha
  have hhead := List.head?_dropWhile_not p l
  rw [Option.mem_def.mp ha] at hhead
  simpa using hhead

theorem dropWhile_eq_self_of_head? {α : Type*} {p : α → Bool} {l : List α}
    (h : ∀ a ∈ l.head?, p a = false) : l.dropWhile p = l := by
  cases l with
  | nil => rfl
  | cons a l => rw [List.dropWhile_cons_of_neg (by simp [h a rfl])]

/-- Text that neither begins nor ends with white space is kept. -/
theorem trimmed_eq_self {cs : List Char} (hhead : ∀ c ∈ cs.head?, isWhitespace c = false)
    (hlast : ∀ c ∈ cs.getLast?, isWhitespace c = false) : trimmed cs = cs := by
  rw [trimmed, dropWhile_eq_self_of_head? hhead,
    dropWhile_eq_self_of_head? (by rwa [List.head?_reverse]), List.reverse_reverse]

theorem jsTrimmed_eq_self {cs : List Char} (hhead : ∀ c ∈ cs.head?, isJsWhitespace c = false)
    (hlast : ∀ c ∈ cs.getLast?, isJsWhitespace c = false) : jsTrimmed cs = cs := by
  rw [jsTrimmed, dropWhile_eq_self_of_head? hhead,
    dropWhile_eq_self_of_head? (by rwa [List.head?_reverse]), List.reverse_reverse]

/-- What is trimmed ends with no white space. -/
theorem getLast?_trimmed (cs : List Char) : ∀ c ∈ (trimmed cs).getLast?, isWhitespace c = false := by
  rw [trimmed, List.getLast?_reverse]
  exact head?_dropWhile_not _ _

/-- What is trimmed begins with no white space. -/
theorem head?_trimmed (cs : List Char) : ∀ c ∈ (trimmed cs).head?, isWhitespace c = false := by
  intro c hc
  obtain ⟨dropped, hdropped⟩ := (List.dropWhile_suffix isWhitespace :
    (cs.dropWhile isWhitespace).reverse.dropWhile isWhitespace <:+ (cs.dropWhile isWhitespace).reverse)
  have hprefix := congrArg List.reverse hdropped
  rw [List.reverse_append, List.reverse_reverse] at hprefix
  have hc : c ∈ (trimmed cs ++ dropped.reverse).head? := by
    rw [List.head?_append, Option.mem_def.mp hc]
    rfl
  rw [trimmed, hprefix] at hc
  exact head?_dropWhile_not _ _ c hc

@[simp] theorem trimmed_trimmed (cs : List Char) : trimmed (trimmed cs) = trimmed cs :=
  trimmed_eq_self (head?_trimmed cs) (getLast?_trimmed cs)

/-- Text that begins with something else than white space, and does not end with it, is kept with
whatever comes before it. -/
theorem exists_trimmed_append (before : List Char) {c : Char} {text : List Char}
    (hc : isWhitespace c = false) (hlast : ∀ d ∈ (c :: text).getLast?, isWhitespace d = false) :
    ∃ kept, trimmed (before ++ c :: text) = kept ++ c :: text := by
  have hstart : ∃ kept, (before ++ c :: text).dropWhile isWhitespace = kept ++ c :: text := by
    induction before with
    | nil => exact ⟨[], List.dropWhile_cons_of_neg (by simp [hc])⟩
    | cons b before ih =>
      rw [List.cons_append, List.dropWhile_cons]
      split
      · exact ih
      · exact ⟨b :: before, rfl⟩
  obtain ⟨kept, hkept⟩ := hstart
  have hend : ∀ d ∈ (kept ++ c :: text).reverse.head?, isWhitespace d = false := by
    rw [List.head?_reverse, List.getLast?_append]
    cases hmem : (c :: text).getLast? with
    | none => simp at hmem
    | some d => exact fun e he => hlast e (hmem.trans he)
  exact ⟨kept, by rw [trimmed, hkept, dropWhile_eq_self_of_head? hend, List.reverse_reverse]⟩

example : trim " a b\n" = "a b" := by decide

end Text
