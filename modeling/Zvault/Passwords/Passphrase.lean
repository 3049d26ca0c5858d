import Mathlib.Data.List.Infix
import Zvault.Passwords.Password
import Zvault.Text.AsciiCase

/-!
# Passphrases are uniform

`passphrase.rs`. Integers that are drawn one after another are uniform together, and a
passphrase can be taken apart into them.
-/

namespace Zvault.Passwords

open Checked (Panic)

/-! ### Integers, one after another -/

/-- `below` for one bound after another. -/
def drawAll : List ℕ → List UInt64 → Except Failure (List ℕ × List UInt64)
  | [], draws => .ok ([], draws)
  | n :: bounds, draws => do
    let (i, draws) ← below n draws
    let (is, draws) ← drawAll bounds draws
    return (i :: is, draws)

/-- Bounds that `below` takes. -/
def Fit (bounds : List ℕ) : Prop := ∀ n ∈ bounds, 0 < n ∧ n < 2 ^ 64

/-- Values that are taken for some integers, all of them. -/
def taken (bounds : List ℕ) (m : ℕ) (is : List ℕ) : Set (List UInt64) :=
  {draws | draws.length = m ∧ drawAll bounds draws = .ok (is, [])}

section DrawAll

variable {n i : ℕ} {bounds is : List ℕ} {draws rest : List UInt64} {x : UInt64}

theorem drawAll_cons_nil (hn : 0 < n) (hmax : n < 2 ^ 64) :
    drawAll (n :: bounds) [] = .error (.error .rng) := by
  rw [drawAll, below_nil hn hmax]
  rfl

theorem drawAll_cons_nil_ne_ok (hn : 0 < n) (hmax : n < 2 ^ 64) {s : List ℕ × List UInt64} :
    drawAll (n :: bounds) [] ≠ .ok s := by
  rw [drawAll_cons_nil hn hmax]
  intro h
  cases h

theorem drawAll_cons_of_accepted (hn : 0 < n) (hmax : n < 2 ^ 64) (hx : accepted n x = true) :
    drawAll (n :: bounds) (x :: draws) =
      (drawAll bounds draws).map fun s => (x.toNat % n :: s.1, s.2) := by
  rw [drawAll, below_cons_of_accepted hn hmax hx, Fallible.ok_bind]
  dsimp only
  cases drawAll bounds draws with
  | error f => rfl
  | ok s => rfl

theorem drawAll_cons_of_not_accepted (hn : 0 < n) (hmax : n < 2 ^ 64)
    (hx : accepted n x = false) :
    drawAll (n :: bounds) (x :: draws) = drawAll (n :: bounds) draws := by
  rw [drawAll, below_cons_of_not_accepted hn hmax hx, ← drawAll]

theorem drawAll_append (bounds later : List ℕ) (draws : List UInt64) :
    drawAll (bounds ++ later) draws = drawAll bounds draws >>= fun s =>
      (drawAll later s.2).map fun t => (s.1 ++ t.1, t.2) := by
  induction bounds generalizing draws with
  | nil =>
    rw [List.nil_append, drawAll, Fallible.ok_bind]
    cases drawAll later draws with
    | error f => rfl
    | ok s => rfl
  | cons n bounds ih =>
    rw [List.cons_append, drawAll, drawAll]
    cases below n draws with
    | error f => rfl
    | ok s =>
      simp only [Fallible.ok_bind]
      rw [ih]
      cases drawAll bounds s.2 with
      | error f => rfl
      | ok s =>
        simp only [Fallible.ok_bind, pure_bind]
        cases drawAll later s.2 with
        | error f => rfl
        | ok s => rfl

theorem drawAll_eq_error (hfit : Fit bounds) {f : Failure} (h : drawAll bounds draws = .error f) :
    f = .error .rng := by
  induction bounds generalizing draws with
  | nil => cases h
  | cons n bounds ih =>
    obtain ⟨⟨hn, hmax⟩, hfit⟩ := List.forall_mem_cons.mp hfit
    rcases Fallible.bind_eq_error.mp h with h | ⟨⟨i, left⟩, -, h⟩
    · exact below_eq_error hn hmax h
    · rcases Fallible.bind_eq_error.mp h with h | ⟨s, -, h⟩
      · exact ih hfit h
      · cases h

/-- The integers are below their bounds. -/
theorem drawAll_lt (hfit : Fit bounds) (h : drawAll bounds draws = .ok (is, rest)) :
    List.Forall₂ (· < ·) is bounds := by
  induction bounds generalizing draws is with
  | nil =>
    cases h
    exact .nil
  | cons n bounds ih =>
    obtain ⟨⟨hn, hmax⟩, hfit⟩ := List.forall_mem_cons.mp hfit
    obtain ⟨⟨i, left⟩, hbelow, h⟩ := Fallible.bind_eq_ok.mp h
    obtain ⟨⟨is', left'⟩, hrest, h⟩ := Fallible.bind_eq_ok.mp h
    cases h
    exact .cons (below_lt hn hmax hbelow) (ih hfit hrest)

/-- A bound is at most the number of values that are accepted for it. -/
theorem le_blocks (hn : 0 < n) (hmax : n < 2 ^ 64) : n ≤ 2 ^ 64 / n * n :=
  Nat.le_mul_of_pos_left n (Nat.div_pos hmax.le hn)

/-- Every choice of integers is drawn. -/
theorem drawAll_map_ofNat (hfit : Fit bounds) (his : List.Forall₂ (· < ·) is bounds) :
    drawAll bounds (is.map UInt64.ofNat) = .ok (is, []) := by
  induction his with
  | nil => rfl
  | @cons i n is bounds hi his ih =>
    obtain ⟨⟨hn, hmax⟩, hfit⟩ := List.forall_mem_cons.mp hfit
    have hword : (UInt64.ofNat i).toNat = i := UInt64.toNat_ofNat_of_lt' (hi.trans hmax)
    have haccepted : accepted n (UInt64.ofNat i) = true := by
      rw [accepted, hword, decide_eq_true_iff]
      exact hi.trans_le (le_blocks hn hmax)
    rw [List.map_cons, drawAll_cons_of_accepted hn hmax haccepted, ih hfit, hword,
      Nat.mod_eq_of_lt hi]
    rfl

/-- Only the values that are taken matter. -/
theorem drawAll_eq_ok_iff (hfit : Fit bounds) : drawAll bounds draws = .ok (is, rest) ↔
    ∃ first, draws = first ++ rest ∧ drawAll bounds first = .ok (is, []) := by
  induction bounds generalizing draws is with
  | nil =>
    constructor
    · intro h
      cases h
      exact ⟨[], rfl, rfl⟩
    · rintro ⟨first, rfl, h⟩
      cases h
      rfl
  | cons n bounds ih =>
    obtain ⟨⟨hn, hmax⟩, hfit⟩ := List.forall_mem_cons.mp hfit
    induction draws generalizing is with
    | nil =>
      constructor
      · exact fun h => absurd h (drawAll_cons_nil_ne_ok hn hmax)
      · rintro ⟨first, hdraws, h⟩
        obtain rfl := (List.append_eq_nil_iff.mp hdraws.symm).1
        exact absurd h (drawAll_cons_nil_ne_ok hn hmax)
    | cons x draws ihdraws =>
      cases hx : accepted n x with
      | true =>
        rw [drawAll_cons_of_accepted hn hmax hx, Fallible.map_eq_ok]
        constructor
        · rintro ⟨⟨is', rest'⟩, h, heq⟩
          cases heq
          obtain ⟨first, rfl, hfirst⟩ := (ih hfit).mp h
          refine ⟨x :: first, rfl, ?_⟩
          rw [drawAll_cons_of_accepted hn hmax hx, hfirst]
          rfl
        · rintro ⟨first, hdraws, h⟩
          cases first with
          | nil => exact absurd h (drawAll_cons_nil_ne_ok hn hmax)
          | cons y first =>
            obtain ⟨rfl, rfl⟩ := List.cons_eq_cons.mp hdraws
            rw [drawAll_cons_of_accepted hn hmax hx] at h
            obtain ⟨⟨is', rest'⟩, hfirst, heq⟩ := Fallible.map_eq_ok.mp h
            cases heq
            exact ⟨(is', rest), (ih hfit).mpr ⟨first, rfl, hfirst⟩, rfl⟩
      | false =>
        rw [drawAll_cons_of_not_accepted hn hmax hx, ihdraws]
        constructor
        · rintro ⟨first, rfl, h⟩
          exact ⟨x :: first, rfl, (drawAll_cons_of_not_accepted hn hmax hx).trans h⟩
        · rintro ⟨first, hdraws, h⟩
          cases first with
          | nil => exact absurd h (drawAll_cons_nil_ne_ok hn hmax)
          | cons y first =>
            obtain ⟨rfl, rfl⟩ := List.cons_eq_cons.mp hdraws
            rw [drawAll_cons_of_not_accepted hn hmax hx] at h
            exact ⟨first, rfl, h⟩

theorem taken_cons_zero (hn : 0 < n) (hmax : n < 2 ^ 64) : taken (n :: bounds) 0 is = ∅ := by
  refine Set.eq_empty_of_forall_notMem ?_
  rintro draws ⟨hlength, h⟩
  obtain rfl := List.length_eq_zero_iff.mp hlength
  exact drawAll_cons_nil_ne_ok hn hmax h

/-- The first value is taken for the first integer, or skipped. -/
theorem taken_cons_succ (hn : 0 < n) (hmax : n < 2 ^ 64) (m : ℕ) :
    taken (n :: bounds) (m + 1) (i :: is) =
      Set.image2 List.cons {x | accepted n x = true ∧ x.toNat % n = i} (taken bounds m is) ∪
        Set.image2 List.cons {x | accepted n x = false} (taken (n :: bounds) m (i :: is)) := by
  ext draws
  constructor
  · rintro ⟨hlength, h⟩
    cases draws with
    | nil => cases hlength
    | cons x draws =>
      have hlength := Nat.succ_inj.mp hlength
      cases hx : accepted n x with
      | true =>
        rw [drawAll_cons_of_accepted hn hmax hx] at h
        obtain ⟨⟨is', rest⟩, htaken, heq⟩ := Fallible.map_eq_ok.mp h
        cases heq
        exact .inl ⟨x, ⟨hx, rfl⟩, draws, ⟨hlength, htaken⟩, rfl⟩
      | false =>
        rw [drawAll_cons_of_not_accepted hn hmax hx] at h
        exact .inr ⟨x, hx, draws, ⟨hlength, h⟩, rfl⟩
  · rintro (⟨x, ⟨hx, rfl⟩, draws, ⟨rfl, h⟩, rfl⟩ | ⟨x, hx, draws, ⟨rfl, h⟩, rfl⟩)
    · refine ⟨rfl, ?_⟩
      rw [drawAll_cons_of_accepted hn hmax hx, h]
      rfl
    · exact ⟨rfl, (drawAll_cons_of_not_accepted hn hmax hx).trans h⟩

theorem finite_taken (bounds : List ℕ) (m : ℕ) (is : List ℕ) : (taken bounds m is).Finite := by
  have huniv : (Set.univ : Set UInt64).Finite :=
    Set.finite_univ_iff.mpr (Finite.of_injective UInt64.toFin fun _ _ => UInt64.toFin_inj.mp)
  exact (Words.finite_over huniv m).subset fun _ h => ⟨h.1, fun _ _ => trivial⟩

/-- **Integers are uniform together**: each choice of them is that of equally many lists of
values of a length. -/
theorem exists_ncard_taken (hfit : Fit bounds) (m : ℕ) :
    ∃ count, ∀ is, List.Forall₂ (· < ·) is bounds → (taken bounds m is).ncard = count := by
  induction bounds generalizing m with
  | nil =>
    refine ⟨(taken [] m []).ncard, fun is his => ?_⟩
    cases his
    rfl
  | cons n bounds ih =>
    obtain ⟨⟨hn, hmax⟩, hfit⟩ := List.forall_mem_cons.mp hfit
    induction m with
    | zero =>
      refine ⟨0, fun is _ => ?_⟩
      rw [taken_cons_zero hn hmax, Set.ncard_empty]
    | succ m ihm =>
      obtain ⟨later, hlater⟩ := ih hfit m
      obtain ⟨skipped, hskipped⟩ := ihm
      refine ⟨2 ^ 64 / n * later + {x : UInt64 | accepted n x = false}.ncard * skipped,
        fun is his => ?_⟩
      cases his with
      | @cons i _ is _ hi his =>
        have hdisjoint : Disjoint
            (Set.image2 List.cons {x : UInt64 | accepted n x = true ∧ x.toNat % n = i}
              (taken bounds m is))
            (Set.image2 List.cons {x | accepted n x = false}
              (taken (n :: bounds) m (i :: is))) := by
          refine Set.disjoint_left.mpr ?_
          rintro _ ⟨x, ⟨hx, -⟩, l, -, rfl⟩ ⟨x', hx', l', -, hl⟩
          obtain ⟨rfl, -⟩ := List.cons_eq_cons.mp hl
          rw [Set.mem_ofPred_eq, hx] at hx'
          cases hx'
        have hall := finite_taken (n :: bounds) (m + 1) (i :: is)
        rw [taken_cons_succ hn hmax] at hall ⊢
        rw [Set.ncard_union_eq hdisjoint (hall.subset Set.subset_union_left)
          (hall.subset Set.subset_union_right), Words.ncard_image2_cons, Words.ncard_image2_cons,
          ncard_accepted_mod hn hi, hlater is his, hskipped _ (.cons hi his)]

/-- The number of choices. -/
theorem ncard_choices (bounds : List ℕ) :
    {is | List.Forall₂ (· < ·) is bounds}.ncard = bounds.prod := by
  induction bounds with
  | nil =>
    have hnil : {is : List ℕ | List.Forall₂ (· < ·) is []} = {[]} :=
      Set.ext fun _ => List.forall₂_nil_right_iff
    rw [hnil, Set.ncard_singleton, List.prod_nil]
  | cons n bounds ih =>
    have hcons : {is | List.Forall₂ (· < ·) is (n :: bounds)} =
        Set.image2 List.cons (Set.Iio n) {is | List.Forall₂ (· < ·) is bounds} := by
      ext is
      constructor
      · intro h
        obtain ⟨i, is, hi, his, rfl⟩ := List.forall₂_cons_right_iff.mp h
        exact ⟨i, hi, is, his, rfl⟩
      · rintro ⟨i, hi, is, his, rfl⟩
        exact .cons hi his
    rw [hcons, Words.ncard_image2_cons, ih, List.prod_cons, ← Finset.coe_range,
      Set.ncard_coe_finset, Finset.card_range]

end DrawAll

/-! ### Words -/

/-- The characters of the word list. -/
def wordChars : List Char := lowercase ++ ['-']

/-- The words of the list: distinct, and none is another one up to a hyphen of it. -/
structure WordList where
  words : List (List Char)
  nodup : words.Nodup
  ne_nil : ∀ w ∈ words, w ≠ []
  chars : ∀ w ∈ words, ∀ c ∈ w, c ∈ wordChars
  apart : ∀ w ∈ words, ∀ w' ∈ words, ¬ w ++ ['-'] <+: w'
  fits : 0 < words.length ∧ words.length < 2 ^ 64

inductive Separator where
  | hyphen
  | space
  | period
  | comma
  | underscore
  /-- A digit between each pair of words, drawn for it. -/
  | digit
  deriving DecidableEq, Repr

/-- `PassphraseOptions`, with the default options. -/
structure PassphraseOptions where
  words : ℕ := 5
  separator : Separator := .hyphen
  capitalize : Bool := false

/-- `MIN_WORDS`. -/
def minWords : ℕ := 3

/-- `MAX_WORDS`. -/
def maxWords : ℕ := 20

/-- What is pushed in front of a word that is not the first. -/
def drawSeparator (separator : Separator) (draws : List UInt64) :
    Except Failure (Char × List UInt64) :=
  match separator with
  | .hyphen => .ok ('-', draws)
  | .space => .ok (' ', draws)
  | .period => .ok ('.', draws)
  | .comma => .ok (',', draws)
  | .underscore => .ok ('_', draws)
  | .digit => do
    let (digit, draws) ← below 10 draws
    return (Nat.digitChar digit, draws)

/-- A word with its first letter in upper case. -/
def capitalized : List Char → List Char
  | [] => []
  | first :: chars => first.toUpper :: chars

def shown (o : PassphraseOptions) (word : List Char) : List Char :=
  if o.capitalize then capitalized word else word

/-- One turn of the loop. -/
def addWord (L : WordList) (o : PassphraseOptions) (i : ℕ) (value : List Char)
    (draws : List UInt64) : Except Failure (List Char × List UInt64) := do
  let (value, draws) ←
    if 0 < i then do
      let (c, draws) ← drawSeparator o.separator draws
      pure (value ++ [c], draws)
    else pure (value, draws)
  let (j, draws) ← below L.words.length draws
  let word ← (Checked.get L.words j).mapError .panicked
  return (value ++ shown o word, draws)

/-- The loop, from one turn on. -/
def addWords (L : WordList) (o : PassphraseOptions) :
    ℕ → ℕ → List Char → List UInt64 → Except Failure (List Char × List UInt64)
  | 0, _, value, draws => .ok (value, draws)
  | turns + 1, i, value, draws => do
    let (value, draws) ← addWord L o i value draws
    addWords L o turns (i + 1) value draws

/-- `generate_passphrase`, and the values that are left. -/
def generatePassphrase (L : WordList) (o : PassphraseOptions) (draws : List UInt64) :
    Except Failure (List Char × List UInt64) :=
  if minWords ≤ o.words ∧ o.words ≤ maxWords then addWords L o o.words 0 [] draws
  else .error (.error .invalidOptions)

/-! ### What a passphrase is drawn from -/

/-- The bounds of what is drawn for a separator. -/
def Separator.bounds : Separator → List ℕ
  | digit => [10]
  | _ => []

/-- The separator that is pushed for it. -/
def Separator.char : Separator → List ℕ → Char
  | hyphen, _ => '-'
  | space, _ => ' '
  | period, _ => '.'
  | comma, _ => ','
  | underscore, _ => '_'
  | digit, i :: _ => Nat.digitChar i
  | digit, [] => '0'

theorem Separator.fit_bounds (separator : Separator) : Fit separator.bounds := by
  cases separator <;> simp [bounds, Fit]

theorem drawSeparator_eq (separator : Separator) (draws : List UInt64) :
    drawSeparator separator draws =
      (drawAll separator.bounds draws).map fun s => (separator.char s.1, s.2) := by
  cases separator with
  | digit =>
    rw [drawSeparator, Separator.bounds, drawAll]
    cases below 10 draws with
    | error f => rfl
    | ok s => rfl
  | _ => rfl

theorem digitChar_inj {i j : ℕ} (hi : i < 10) (hj : j < 10)
    (h : Nat.digitChar i = Nat.digitChar j) : i = j := by
  have hall : ∀ i < 10, ∀ j < 10, Nat.digitChar i = Nat.digitChar j → i = j := by decide +kernel
  exact hall i hi j hj h

theorem Separator.char_inj {separator : Separator} {is js : List ℕ}
    (his : List.Forall₂ (· < ·) is separator.bounds)
    (hjs : List.Forall₂ (· < ·) js separator.bounds)
    (h : separator.char is = separator.char js) : is = js := by
  cases separator with
  | digit =>
    obtain ⟨i, _, hi, ⟨⟩, rfl⟩ := List.forall₂_cons_right_iff.mp his
    obtain ⟨j, _, hj, ⟨⟩, rfl⟩ := List.forall₂_cons_right_iff.mp hjs
    rw [digitChar_inj hi hj h]
  | _ =>
    cases his
    cases hjs
    rfl

/-- A separator is a hyphen, or no character of a word. -/
theorem Separator.char_eq_or {separator : Separator} {is : List ℕ}
    (his : List.Forall₂ (· < ·) is separator.bounds) :
    separator.char is = '-' ∨ separator.char is ∉ wordChars := by
  have hothers : ∀ c ∈ [' ', '.', ',', '_'], c ∉ wordChars := Text.forall_mem_of_all (by decide)
  cases separator with
  | hyphen => exact .inl rfl
  | digit =>
    obtain ⟨i, _, hi, ⟨⟩, rfl⟩ := List.forall₂_cons_right_iff.mp his
    have hall : ∀ i < 10, Nat.digitChar i ∉ wordChars := by decide +kernel
    exact .inr (hall i hi)
  | _ => exact .inr (hothers _ (by simp [Separator.char]))

namespace WordList

variable (L : WordList) (o : PassphraseOptions)

/-- `list[j]`. -/
def word (j : ℕ) : List Char := L.words[j]?.getD []

/-- The bounds of what is drawn for further words. -/
def bounds : ℕ → List ℕ
  | 0 => []
  | further + 1 => o.separator.bounds ++ L.words.length :: bounds further

/-- Further words, each behind its separator. -/
def parts : ℕ → List ℕ → List (Char × List Char)
  | 0, _ => []
  | further + 1, is =>
    let later := is.drop o.separator.bounds.length
    (o.separator.char (is.take o.separator.bounds.length), shown o (L.word (later.headD 0))) ::
      parts further later.tail

variable {L o}

theorem getElem?_eq {j : ℕ} (hj : j < L.words.length) : L.words[j]? = some (L.word j) := by
  rw [word, List.getElem?_eq_getElem hj]
  rfl

theorem word_mem {j : ℕ} (hj : j < L.words.length) : L.word j ∈ L.words :=
  List.mem_of_getElem? (getElem?_eq hj)

theorem word_inj {i j : ℕ} (hi : i < L.words.length) (hj : j < L.words.length)
    (h : L.word i = L.word j) : i = j := by
  rw [word, word, List.getElem?_eq_getElem hi, List.getElem?_eq_getElem hj] at h
  exact (L.nodup.getElem_inj_iff).mp h

theorem fit_bounds (further : ℕ) : Fit (L.bounds o further) := by
  induction further with
  | zero => exact fun _ h => absurd h List.not_mem_nil
  | succ further ih =>
    exact List.forall_mem_append.mpr ⟨o.separator.fit_bounds, List.forall_mem_cons.mpr ⟨L.fits, ih⟩⟩

theorem prod_bounds (further : ℕ) : (L.bounds o further).prod =
    (L.words.length * if o.separator = .digit then 10 else 1) ^ further := by
  have hseparator : o.separator.bounds.prod = if o.separator = .digit then 10 else 1 := by
    cases o.separator <;> rfl
  induction further with
  | zero => rfl
  | succ further ih =>
    rw [bounds, List.prod_append, List.prod_cons, hseparator, ih, pow_succ]
    ring

/-- What is drawn for a further word and for those behind it. -/
theorem exists_of_forall₂_bounds {further : ℕ} {is : List ℕ}
    (his : List.Forall₂ (· < ·) is (L.bounds o (further + 1))) : ∃ front j later,
      is = front ++ j :: later ∧ List.Forall₂ (· < ·) front o.separator.bounds ∧
      j < L.words.length ∧ List.Forall₂ (· < ·) later (L.bounds o further) := by
  have hfront := List.forall₂_take_append _ _ _ his
  obtain ⟨j, later, hj, hlater, hdrop⟩ :=
    List.forall₂_cons_right_iff.mp (List.forall₂_drop_append _ _ _ his)
  refine ⟨_, j, later, ?_, hfront, hj, hlater⟩
  rw [← hdrop, List.take_append_drop]

theorem parts_append {front later : List ℕ} {j : ℕ}
    (hfront : List.Forall₂ (· < ·) front o.separator.bounds) (further : ℕ) :
    L.parts o (further + 1) (front ++ j :: later) =
      (o.separator.char front, shown o (L.word j)) :: L.parts o further later := by
  have hlength := hfront.length_eq
  rw [parts, List.drop_left' hlength, List.take_left' hlength]
  rfl

end WordList

/-- The loop shows what its draws stand for. -/
theorem addWords_eq (L : WordList) (o : PassphraseOptions) (turns i : ℕ) (value : List Char)
    (draws : List UInt64) :
    addWords L o turns (i + 1) value draws = (drawAll (L.bounds o turns) draws).map fun s =>
      (value ++ Words.joined (L.parts o turns s.1), s.2) := by
  induction turns generalizing i value draws with
  | zero =>
    rw [addWords, WordList.bounds, drawAll]
    exact congrArg Except.ok (Prod.ext (List.append_nil value).symm rfl)
  | succ turns ih =>
    rw [addWords, addWord, if_pos (Nat.succ_pos i), drawSeparator_eq, WordList.bounds,
      drawAll_append]
    cases hseparator : drawAll o.separator.bounds draws with
    | error f => rfl
    | ok s =>
      have hfront := drawAll_lt (o.separator.fit_bounds) hseparator
      simp only [Fallible.ok_bind, Except.map, pure_bind, drawAll]
      cases hbelow : below L.words.length s.2 with
      | error f => rfl
      | ok t =>
        have hj : t.1 < L.words.length := below_lt L.fits.1 L.fits.2 hbelow
        simp only [Fallible.ok_bind, Checked.get_eq_ok (WordList.getElem?_eq hj), Except.mapError,
          pure_bind, ih]
        cases drawAll (L.bounds o turns) t.2 with
        | error f => rfl
        | ok later =>
          refine congrArg Except.ok (Prod.ext ?_ rfl)
          simp [WordList.parts_append hfront, Words.joined]

namespace WordList

variable {L : WordList} {o : PassphraseOptions}

theorem toUpper_inj {a b : Char} (ha : a ∈ wordChars) (hb : b ∈ wordChars)
    (h : a.toUpper = b.toUpper) : a = b := by
  have hall : ∀ a ∈ wordChars,
      (wordChars.all fun b => decide (a.toUpper = b.toUpper → a = b)) = true :=
    Text.forall_mem_of_all (by decide +kernel)
  exact Text.forall_mem_of_all (hall a ha) b hb h

theorem shown_cons (c : Char) (w : List Char) :
    shown o (c :: w) = (if o.capitalize then c.toUpper else c) :: w := by
  unfold shown
  split <;> rfl

/-- What is shown of a word ends a prefix only where the word does. -/
theorem prefix_of_shown {w w' later : List Char} (hw : w ∈ L.words) (hw' : w' ∈ L.words)
    (h : shown o w ++ later <+: shown o w') : w ++ later <+: w' := by
  obtain ⟨a, v, rfl⟩ := List.exists_cons_of_ne_nil (L.ne_nil w hw)
  obtain ⟨b, v', rfl⟩ := List.exists_cons_of_ne_nil (L.ne_nil w' hw')
  rw [shown_cons, shown_cons, List.cons_append] at h
  obtain ⟨hfirst, hrest⟩ := List.cons_prefix_cons.mp h
  have ha := L.chars _ hw a List.mem_cons_self
  have hb := L.chars _ hw' b List.mem_cons_self
  obtain rfl : a = b := by
    split at hfirst
    · exact toUpper_inj ha hb hfirst
    · exact hfirst
  exact List.cons_prefix_cons.mpr ⟨rfl, hrest⟩

theorem shown_inj {w w' : List Char} (hw : w ∈ L.words) (hw' : w' ∈ L.words)
    (h : shown o w = shown o w') : w = w' := by
  have hle : w <+: w' := by
    have hfront : shown o w ++ [] <+: shown o w' := by rw [h, List.append_nil]
    simpa only [List.append_nil] using prefix_of_shown hw hw' hfront
  have hge : w' <+: w := by
    have hfront : shown o w' ++ [] <+: shown o w := by rw [h, List.append_nil]
    simpa only [List.append_nil] using prefix_of_shown hw' hw hfront
  exact hle.eq_of_length (Nat.le_antisymm hle.length_le hge.length_le)

/-- A word with a separator behind it begins no word. -/
theorem shown_apart {w w' : List Char} {c : Char} (hw : w ∈ L.words) (hw' : w' ∈ L.words)
    (hc : c = '-' ∨ c ∉ wordChars) : ¬ shown o w ++ [c] <+: shown o w' := by
  intro h
  have hfront := prefix_of_shown hw hw' h
  rcases hc with rfl | hc
  · exact L.apart w hw w' hw' hfront
  · refine hc (L.chars w' hw' c (hfront.subset ?_))
    exact List.mem_append_right _ (List.mem_singleton_self c)

/-- What separators and words are shown as. -/
def separators (o : PassphraseOptions) : Set Char :=
  {c | ∃ is, List.Forall₂ (· < ·) is o.separator.bounds ∧ o.separator.char is = c}

def shownWords (L : WordList) (o : PassphraseOptions) : Set (List Char) :=
  {w | ∃ v ∈ L.words, shown o v = w}

theorem length_parts (further : ℕ) (is : List ℕ) : (L.parts o further is).length = further := by
  induction further generalizing is with
  | zero => rfl
  | succ further ih => rw [parts, List.length_cons, ih]

theorem parts_mem {further : ℕ} {is : List ℕ}
    (his : List.Forall₂ (· < ·) is (L.bounds o further)) :
    ∀ p ∈ L.parts o further is, p.1 ∈ separators o ∧ p.2 ∈ L.shownWords o := by
  induction further generalizing is with
  | zero => exact fun _ h => absurd h List.not_mem_nil
  | succ further ih =>
    obtain ⟨front, j, later, rfl, hfront, hj, hlater⟩ := exists_of_forall₂_bounds his
    rw [parts_append hfront]
    exact List.forall_mem_cons.mpr
      ⟨⟨⟨front, hfront, rfl⟩, L.word j, word_mem hj, rfl⟩, ih hlater⟩

theorem parts_inj {further : ℕ} {is js : List ℕ}
    (his : List.Forall₂ (· < ·) is (L.bounds o further))
    (hjs : List.Forall₂ (· < ·) js (L.bounds o further))
    (h : L.parts o further is = L.parts o further js) : is = js := by
  induction further generalizing is js with
  | zero =>
    cases his
    cases hjs
    rfl
  | succ further ih =>
    obtain ⟨front, j, later, rfl, hfront, hj, hlater⟩ := exists_of_forall₂_bounds his
    obtain ⟨front', j', later', rfl, hfront', hj', hlater'⟩ := exists_of_forall₂_bounds hjs
    rw [parts_append hfront, parts_append hfront'] at h
    obtain ⟨hpart, hparts⟩ := List.cons_eq_cons.mp h
    obtain ⟨hseparator, hword⟩ := Prod.mk.inj hpart
    have hsame := word_inj hj hj' (shown_inj (word_mem hj) (word_mem hj') hword)
    rw [Separator.char_inj hfront hfront' hseparator, hsame, ih hlater hlater' hparts]

/-- The bounds of what a passphrase is drawn from. -/
def allBounds (L : WordList) (o : PassphraseOptions) : List ℕ :=
  L.words.length :: L.bounds o (o.words - 1)

theorem fit_allBounds (L : WordList) (o : PassphraseOptions) : Fit (L.allBounds o) :=
  List.forall_mem_cons.mpr ⟨L.fits, fit_bounds _⟩

/-- The passphrase of some draws. -/
def passphrase (L : WordList) (o : PassphraseOptions) (is : List ℕ) : List Char :=
  shown o (L.word (is.headD 0)) ++ Words.joined (L.parts o (o.words - 1) is.tail)

theorem passphrase_inj {is js : List ℕ} (his : List.Forall₂ (· < ·) is (L.allBounds o))
    (hjs : List.Forall₂ (· < ·) js (L.allBounds o))
    (h : L.passphrase o is = L.passphrase o js) : is = js := by
  obtain ⟨i, is, hi, hlater, rfl⟩ := List.forall₂_cons_right_iff.mp his
  obtain ⟨j, js, hj, hlater', rfl⟩ := List.forall₂_cons_right_iff.mp hjs
  have hapart : ∀ w ∈ L.shownWords o, ∀ w' ∈ L.shownWords o, ∀ c ∈ separators o,
      ¬ w ++ [c] <+: w' := by
    rintro _ ⟨v, hv, rfl⟩ _ ⟨v', hv', rfl⟩ _ ⟨front, hfront, rfl⟩
    exact shown_apart hv hv' (Separator.char_eq_or hfront)
  obtain ⟨hword, hparts⟩ := Words.joined_inj hapart ⟨_, word_mem hi, rfl⟩ ⟨_, word_mem hj, rfl⟩
    (parts_mem hlater) (parts_mem hlater') ((length_parts _ _).trans (length_parts _ _).symm) h
  rw [word_inj hi hj (shown_inj (word_mem hi) (word_mem hj) hword),
    parts_inj hlater hlater' hparts]

end WordList

/-- `generate_passphrase` takes the options. -/
def PassphraseOptions.IsValid (o : PassphraseOptions) : Prop :=
  minWords ≤ o.words ∧ o.words ≤ maxWords

theorem generatePassphrase_eq (L : WordList) {o : PassphraseOptions} (ho : o.IsValid)
    (draws : List UInt64) : generatePassphrase L o draws =
      (drawAll (L.allBounds o) draws).map fun s => (L.passphrase o s.1, s.2) := by
  obtain ⟨further, hwords⟩ : ∃ further, o.words = further + 1 := by
    have hmin : 3 ≤ o.words := ho.1
    exact ⟨o.words - 1, by omega⟩
  have hvalid : minWords ≤ o.words ∧ o.words ≤ maxWords := ho
  rw [generatePassphrase, if_pos hvalid, WordList.allBounds, drawAll, hwords, addWords, addWord,
    if_neg (lt_irrefl 0)]
  simp only [pure_bind]
  cases hbelow : below L.words.length draws with
  | error f => rfl
  | ok s =>
    have hj : s.1 < L.words.length := below_lt L.fits.1 L.fits.2 hbelow
    simp only [Fallible.ok_bind, Checked.get_eq_ok (WordList.getElem?_eq hj), Except.mapError,
      pure_bind, addWords_eq]
    rw [Nat.add_sub_cancel]
    cases drawAll (L.bounds o further) s.2 with
    | error f => rfl
    | ok later =>
      refine congrArg Except.ok (Prod.ext ?_ rfl)
      simp only [WordList.passphrase, hwords]
      rfl

section Uniform

variable {L : WordList} {o : PassphraseOptions} (ho : o.IsValid)
include ho

theorem exists_generates_iff {w : List Char} :
    (∃ draws rest, generatePassphrase L o draws = .ok (w, rest)) ↔
      ∃ is, List.Forall₂ (· < ·) is (L.allBounds o) ∧ L.passphrase o is = w := by
  simp only [generatePassphrase_eq L ho]
  constructor
  · rintro ⟨draws, rest, h⟩
    obtain ⟨s, hdraws, heq⟩ := Fallible.map_eq_ok.mp h
    exact ⟨s.1, drawAll_lt (L.fit_allBounds o) hdraws, (Prod.mk.inj heq).1⟩
  · rintro ⟨is, his, rfl⟩
    exact ⟨is.map UInt64.ofNat, [], Fallible.map_eq_ok.mpr
      ⟨_, drawAll_map_ofNat (L.fit_allBounds o) his, rfl⟩⟩

theorem ncard_generated :
    {w | ∃ draws rest, generatePassphrase L o draws = .ok (w, rest)}.ncard =
      L.words.length ^ o.words * if o.separator = .digit then 10 ^ (o.words - 1) else 1 := by
  have himage : {w | ∃ draws rest, generatePassphrase L o draws = .ok (w, rest)} =
      L.passphrase o '' {is | List.Forall₂ (· < ·) is (L.allBounds o)} :=
    Set.ext fun _ => exists_generates_iff ho
  have hinj : Set.InjOn (L.passphrase o) {is | List.Forall₂ (· < ·) is (L.allBounds o)} :=
    fun _ his _ hjs h => WordList.passphrase_inj his hjs h
  have hwords : L.words.length ^ o.words =
      L.words.length * L.words.length ^ (o.words - 1) := by
    have hmin : 3 ≤ o.words := ho.1
    rw [← pow_succ']
    congr 1
    omega
  rw [himage, hinj.ncard_image, ncard_choices, WordList.allBounds, List.prod_cons,
    WordList.prod_bounds, hwords, mul_pow, mul_assoc]
  split
  · rfl
  · rw [one_pow]

end Uniform

/-- **Passphrases are uniform.** Nothing but the generator fails, and only the values that were
taken matter. There are as many passphrases as choices of words and digits, and each is that of
equally many lists of values of a length. -/
theorem passphrases_uniform (L : WordList) {o : PassphraseOptions} (ho : o.IsValid) :
    (∀ draws f, generatePassphrase L o draws = .error f → f = .error .rng) ∧
    (∀ draws w rest, generatePassphrase L o draws = .ok (w, rest) ↔
      ∃ first, draws = first ++ rest ∧ generatePassphrase L o first = .ok (w, [])) ∧
    {w | ∃ draws rest, generatePassphrase L o draws = .ok (w, rest)}.ncard =
      L.words.length ^ o.words * (if o.separator = .digit then 10 ^ (o.words - 1) else 1) ∧
    ∀ m, ∃ count, ∀ w, (∃ draws rest, generatePassphrase L o draws = .ok (w, rest)) →
      {draws : List UInt64 | draws.length = m ∧
        generatePassphrase L o draws = .ok (w, [])}.ncard = count := by
  have hfit := L.fit_allBounds o
  refine ⟨fun draws f h => ?_, fun draws w rest => ?_, ncard_generated ho, fun m => ?_⟩
  · rw [generatePassphrase_eq L ho] at h
    cases hdraws : drawAll (L.allBounds o) draws with
    | error f' =>
      rw [hdraws] at h
      cases h
      exact drawAll_eq_error hfit hdraws
    | ok s =>
      rw [hdraws] at h
      cases h
  · simp only [generatePassphrase_eq L ho, Fallible.map_eq_ok]
    constructor
    · rintro ⟨⟨is, rest⟩, h, heq⟩
      cases heq
      obtain ⟨first, rfl, hfirst⟩ := (drawAll_eq_ok_iff hfit).mp h
      exact ⟨first, rfl, _, hfirst, rfl⟩
    · rintro ⟨first, rfl, ⟨is, rest'⟩, hfirst, heq⟩
      cases heq
      exact ⟨_, (drawAll_eq_ok_iff hfit).mpr ⟨first, rfl, hfirst⟩, rfl⟩
  · obtain ⟨count, hcount⟩ := exists_ncard_taken hfit m
    refine ⟨count, fun w hw => ?_⟩
    obtain ⟨is, his, rfl⟩ := (exists_generates_iff ho).mp hw
    rw [← hcount is his]
    refine congrArg Set.ncard (Set.ext fun draws => and_congr_right fun _ => ?_)
    rw [generatePassphrase_eq L ho, Fallible.map_eq_ok]
    constructor
    · rintro ⟨⟨js, rest⟩, h, heq⟩
      obtain ⟨hsame, hrest⟩ := Prod.mk.inj heq
      dsimp only at hrest
      subst hrest
      rwa [WordList.passphrase_inj his (drawAll_lt hfit h) hsame.symm]
    · exact fun h => ⟨_, h, rfl⟩

def threeTexts : List (List Char) := ["abacus".toList, "drop-down".toList, "zoom".toList]

/-- Three words of the list. -/
def threeWords : WordList where
  words := threeTexts
  nodup := by decide +kernel
  ne_nil := by decide +kernel
  chars := by
    have hall : (threeTexts.all fun w => w.all fun c => decide (c ∈ wordChars)) = true := by
      decide +kernel
    exact fun w hw => Text.forall_mem_of_all (List.all_eq_true.mp hall w hw)
  apart := by
    have hall : (threeTexts.all fun w => threeTexts.all fun w' =>
        !(w ++ ['-']).isPrefixOf w') = true := by decide +kernel
    intro w hw w' hw' hprefix
    have hnone := List.all_eq_true.mp (List.all_eq_true.mp hall w hw) w' hw'
    rw [List.isPrefixOf_iff_prefix.mpr hprefix] at hnone
    cases hnone
  fits := by decide

/-- The default options, with three words to choose from. -/
theorem passphrases_uniform_default :
    {w | ∃ draws rest, generatePassphrase threeWords {} draws = .ok (w, rest)}.ncard =
      3 ^ 5 * 1 :=
  (passphrases_uniform threeWords ⟨by decide, by decide⟩).2.2.1

end Zvault.Passwords
