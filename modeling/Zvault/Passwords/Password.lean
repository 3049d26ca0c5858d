import Mathlib.Data.Nat.Bits
import Mathlib.Algebra.BigOperators.Ring.Finset
import Mathlib.Algebra.BigOperators.Ring.List
import Zvault.Counting.Words
import Mathlib.Data.Set.Card
import Zvault.Fallible.Steps

/-!
# Random passwords

`generate_password` of `password.rs`. Every password that meets the options comes out of
equally many draws, and what is counted for the strength is the number of these
passwords.
-/

/-! ### Random draws

`below` of `random.rs`. Every result is that of equally many 64-bit values; the values
of the last partial block are drawn again. -/

namespace Zvault.Passwords

open Checked (Panic)

/-- `Error`. -/
inductive Error where
  | invalidOptions
  | rng
  deriving DecidableEq, Repr

/-- A call fails, or the program stops. -/
inductive Failure where
  | error (e : Error)
  | panicked (p : Panic)
  | asserted
  deriving DecidableEq, Repr

/-- `u64::MAX`. -/
def maxDraw : ℕ := 2 ^ 64 - 1

/-- The last value that is not drawn again. -/
def limit (n : ℕ) : Except Panic ℕ := do
  let next ← Checked.add 64 (maxDraw % n) 1
  Checked.sub maxDraw (next % n)

/-- The loop of `below`, on the values that the generator gives until it fails. -/
def drawBelow (n limit : ℕ) : List UInt64 → Except Failure (ℕ × List UInt64)
  | [] => .error (.error .rng)
  | x :: draws => if x.toNat ≤ limit then .ok (x.toNat % n, draws) else drawBelow n limit draws

/-- `below`, and the values that are left. -/
def below (n : ℕ) (draws : List UInt64) : Except Failure (ℕ × List UInt64) :=
  if n = 0 then .error .asserted
  else do
    let limit ← (limit n).mapError .panicked
    drawBelow n limit draws

/-- Values that are not drawn again: those of the whole blocks. -/
def accepted (n : ℕ) (x : UInt64) : Bool := x.toNat < 2 ^ 64 / n * n

section Below

variable {n : ℕ} (hn : 0 < n) (hmax : n < 2 ^ 64)
include hn hmax

/-- Nothing overflows, and what is drawn again is `2 ^ 64 % n` values. -/
theorem limit_eq_ok : limit n = .ok (2 ^ 64 / n * n - 1) := by
  have hmod : maxDraw % n < n := Nat.mod_lt _ hn
  have hpow : (maxDraw % n + 1) % n = 2 ^ 64 % n := by
    rw [Nat.mod_add_mod]
    rfl
  have hle : 2 ^ 64 % n < n := Nat.mod_lt _ hn
  have hdiv := Nat.div_add_mod (2 ^ 64) n
  rw [Nat.mul_comm] at hdiv
  unfold limit
  rw [Checked.add_eq_ok (by omega)]
  refine (Checked.sub_eq_ok ?_).trans (congrArg Except.ok ?_)
  · rw [hpow, maxDraw]
    omega
  · rw [hpow, maxDraw]
    omega

theorem below_eq (draws : List UInt64) :
    below n draws = drawBelow n (2 ^ 64 / n * n - 1) draws := by
  rw [below, if_neg (Nat.pos_iff_ne_zero.mp hn), limit_eq_ok hn hmax]
  rfl

theorem accepted_iff {x : UInt64} : accepted n x = true ↔ x.toNat ≤ 2 ^ 64 / n * n - 1 := by
  have hblock : 0 < 2 ^ 64 / n * n := Nat.mul_pos (Nat.div_pos hmax.le hn) hn
  rw [accepted, decide_eq_true_iff]
  omega

/-- An accepted value gives its remainder. -/
theorem below_cons_of_accepted {x : UInt64} (h : accepted n x = true) (draws : List UInt64) :
    below n (x :: draws) = .ok (x.toNat % n, draws) := by
  rw [below_eq hn hmax, drawBelow, if_pos ((accepted_iff hn hmax).mp h)]

/-- Any other value is skipped. -/
theorem below_cons_of_not_accepted {x : UInt64} (h : accepted n x = false) (draws : List UInt64) :
    below n (x :: draws) = below n draws := by
  have hx : ¬ x.toNat ≤ 2 ^ 64 / n * n - 1 := by
    rw [← accepted_iff hn hmax, h]
    exact Bool.false_ne_true
  rw [below_eq hn hmax, drawBelow, if_neg hx, ← below_eq hn hmax]

theorem below_nil : below n [] = .error (.error .rng) := below_eq hn hmax []

omit hmax in
/-- Each remainder is that of one value of each block. -/
theorem ncard_accepted_mod {r : ℕ} (hr : r < n) :
    {x : UInt64 | accepted n x = true ∧ x.toNat % n = r}.ncard = 2 ^ 64 / n := by
  have hlt : ∀ j ∈ Set.Iio (2 ^ 64 / n), n * j + r < 2 ^ 64 / n * n := by
    intro j hj
    have hstep : n * (j + 1) ≤ n * (2 ^ 64 / n) := Nat.mul_le_mul_left n hj
    rw [Nat.mul_add, Nat.mul_one] at hstep
    rw [Nat.mul_comm (2 ^ 64 / n)]
    omega
  have hle : 2 ^ 64 / n * n ≤ 2 ^ 64 := Nat.div_mul_le_self _ _
  have himage : UInt64.toNat '' {x : UInt64 | accepted n x = true ∧ x.toNat % n = r} =
      (fun j => n * j + r) '' Set.Iio (2 ^ 64 / n) := by
    ext k
    constructor
    · rintro ⟨x, ⟨hx, rfl⟩, rfl⟩
      have hx : x.toNat < 2 ^ 64 / n * n := of_decide_eq_true hx
      exact ⟨x.toNat / n, (Nat.div_lt_iff_lt_mul hn).mpr hx, Nat.div_add_mod x.toNat n⟩
    · rintro ⟨j, hj, rfl⟩
      have hword : (UInt64.ofNat (n * j + r)).toNat = n * j + r :=
        UInt64.toNat_ofNat_of_lt' (Nat.lt_of_lt_of_le (hlt j hj) hle)
      refine ⟨UInt64.ofNat (n * j + r), ⟨?_, ?_⟩, hword⟩
      · rw [accepted, hword, decide_eq_true_iff]
        exact hlt j hj
      · rw [hword, Nat.mul_add_mod, Nat.mod_eq_of_lt hr]
  have hinj : Function.Injective fun j => n * j + r := fun i j h =>
    Nat.eq_of_mul_eq_mul_left hn (Nat.add_right_cancel h)
  rw [← Set.ncard_image_of_injective _ (fun _ _ => UInt64.toNat_inj.mp), himage,
    Set.ncard_image_of_injective _ hinj, ← Finset.coe_range, Set.ncard_coe_finset,
    Finset.card_range]

end Below

/-- `MIN_LENGTH`. -/
def minLength : ℕ := 8

/-- `MAX_LENGTH`. -/
def maxLength : ℕ := 128

def lowercase : List Char := "abcdefghijklmnopqrstuvwxyz".toList

def uppercase : List Char := "ABCDEFGHIJKLMNOPQRSTUVWXYZ".toList

def digits : List Char := "0123456789".toList

/-- `SYMBOLS`. -/
def symbols : List Char := "!#$%&()*+,-./:;<=>?@[]^_\x7b\x7d~".toList

/-- `AMBIGUOUS`. -/
def ambiguous : List Char := "0O1Il".toList

/-- `MAX_ATTEMPTS`. -/
def maxAttempts : ℕ := 1000

structure PasswordOptions where
  length : ℕ := 20
  lowercase : Bool := true
  uppercase : Bool := true
  digits : Bool := true
  symbols : Bool := true
  avoidAmbiguous : Bool := false
  deriving DecidableEq, Repr

namespace PasswordOptions

variable (o : PasswordOptions)

/-- `classes`. -/
def classes : List (List Char) :=
  ([(o.lowercase, Passwords.lowercase), (o.uppercase, Passwords.uppercase),
    (o.digits, Passwords.digits), (o.symbols, Passwords.symbols)].filter Prod.fst).map
    fun (_, set) => set.filter fun c => !(o.avoidAmbiguous && ambiguous.contains c)

/-- The characters that are chosen from. -/
def pool : List Char := o.classes.flatten

/-- The check of each attempt: every class is there. -/
def meets (value : List Char) : Bool := o.classes.all fun cls => value.any fun c => cls.contains c

end PasswordOptions

/-- `pool[i]`. -/
def index (pool : List Char) (i : ℕ) : Except Failure Char :=
  match pool[i]? with
  | some c => .ok c
  | none => .error (.panicked .outOfRange)

/-- The inner loop: as many characters of the pool. -/
def drawChars (pool : List Char) : ℕ → List UInt64 → Except Failure (List Char × List UInt64)
  | 0, draws => .ok ([], draws)
  | length + 1, draws => do
    let (i, draws) ← below pool.length draws
    let c ← index pool i
    let (value, draws) ← drawChars pool length draws
    return (c :: value, draws)

/-- The loop over the attempts. -/
def attempts (o : PasswordOptions) : ℕ → List UInt64 → Except Failure (List Char × List UInt64)
  | 0, _ => .error (.error .rng)
  | n + 1, draws => do
    let (value, draws) ← drawChars o.pool o.length draws
    if o.meets value then .ok (value, draws) else attempts o n draws

/-- `generate_password`, and the values that are left. -/
def generatePassword (o : PasswordOptions) (draws : List UInt64) :
    Except Failure (List Char × List UInt64) :=
  if ¬ (minLength ≤ o.length ∧ o.length ≤ maxLength) then .error (.error .invalidOptions)
  else if o.classes = [] then .error (.error .invalidOptions)
  else attempts o maxAttempts draws

/-- `count_ones`. -/
def countOnes (mask : ℕ) : ℕ := mask.bits.count true

/-- The characters of the classes of a mask. -/
def excluded (classes : List ℕ) (mask : ℕ) : ℕ :=
  ((classes.zipIdx.filter fun p => mask.testBit p.2).map Prod.fst).sum

/-- The part of all strings that has every class, summed up as in `entropy_bits`. -/
def fraction (len : ℕ) (classes : List ℕ) : ℚ :=
  let pool := classes.sum
  (List.range (1 <<< classes.length)).foldl (fun fraction mask =>
    let term := (((pool - excluded classes mask : ℕ) : ℚ) / pool) ^ len
    if countOnes mask % 2 = 0 then fraction + term else fraction - term) 0

section Strength

/-- The sum over exact integers. -/
def inclusionExclusion (len : ℕ) (classes : List ℕ) (pool : ℕ) : ℤ :=
  ∑ mask ∈ Finset.range (2 ^ classes.length),
    (-1) ^ countOnes mask * ((pool - excluded classes mask : ℕ) : ℤ) ^ len

theorem countOnes_double (mask : ℕ) : countOnes (2 * mask) = countOnes mask := by
  rcases Nat.eq_zero_or_pos mask with rfl | hmask
  · rfl
  · rw [countOnes, Nat.bit0_bits mask (Nat.pos_iff_ne_zero.mp hmask), List.count_cons_of_ne (by decide)]
    rfl

theorem countOnes_double_add_one (mask : ℕ) : countOnes (2 * mask + 1) = countOnes mask + 1 := by
  rw [countOnes, Nat.bit1_bits, List.count_cons_self]
  rfl

theorem excluded_cons (size : ℕ) (classes : List ℕ) (mask : ℕ) :
    excluded (size :: classes) mask =
      (if mask.testBit 0 then size else 0) + excluded classes (mask / 2) := by
  have hrest : ((classes.zipIdx 1).filter fun p => mask.testBit p.2).map Prod.fst =
      (classes.zipIdx.filter fun p => (mask / 2).testBit p.2).map Prod.fst := by
    rw [List.zipIdx_succ, List.filter_map, List.map_map]
    refine congrArg₂ _ rfl (List.filter_congr fun p _ => ?_)
    exact Nat.testBit_succ ..
  rw [excluded, List.zipIdx_cons, List.filter_cons]
  split
  · rw [List.map_cons, List.sum_cons, Nat.zero_add, hrest]
    rfl
  · rw [Nat.zero_add, hrest, Nat.zero_add]
    rfl

theorem sum_map_range {M : Type*} [AddCommMonoid M] (f : ℕ → M) (n : ℕ) :
    ((List.range n).map f).sum = ∑ i ∈ Finset.range n, f i := by
  induction n with
  | zero => rfl
  | succ n ih => rw [List.range_succ, List.map_append, List.sum_append, ih, Finset.sum_range_succ,
      List.map_singleton, List.sum_singleton]

theorem sum_range_double {M : Type*} [AddCommMonoid M] (f : ℕ → M) (n : ℕ) :
    ∑ i ∈ Finset.range (2 * n), f i = ∑ i ∈ Finset.range n, (f (2 * i) + f (2 * i + 1)) := by
  induction n with
  | zero => rfl
  | succ n ih =>
    rw [Nat.mul_succ, Finset.sum_range_succ, Finset.sum_range_succ, ih, Finset.sum_range_succ,
      add_assoc]

/-- The masks with and without the first class. -/
theorem inclusionExclusion_eq (len : ℕ) (classes : List ℕ) (pool : ℕ) :
    inclusionExclusion len classes pool = Words.alternating len classes pool := by
  induction classes generalizing pool with
  | nil => simp [inclusionExclusion, Words.alternating, excluded, countOnes]
  | cons size classes ih =>
    rw [Words.alternating, ← ih, ← ih, inclusionExclusion, List.length_cons, Nat.pow_succ',
      sum_range_double, inclusionExclusion, inclusionExclusion, ← Finset.sum_sub_distrib]
    refine Finset.sum_congr rfl fun mask _ => ?_
    have heven : excluded (size :: classes) (2 * mask) = excluded classes mask := by
      rw [excluded_cons, Nat.mul_div_cancel_left mask (by decide), if_neg (by simp), Nat.zero_add]
    have hodd : excluded (size :: classes) (2 * mask + 1) = size + excluded classes mask := by
      have hdiv : (2 * mask + 1) / 2 = mask := by omega
      rw [excluded_cons, hdiv, if_pos (by simp)]
    rw [heven, hodd, countOnes_double, countOnes_double_add_one, Nat.sub_add_eq]
    ring

/-- What is summed up is the part that the sum over exact integers is of all strings. -/
theorem fraction_eq (len : ℕ) {classes : List ℕ} (hpool : classes.sum ≠ 0) :
    fraction len classes * (classes.sum : ℚ) ^ len =
      (inclusionExclusion len classes classes.sum : ℚ) := by
  have hfold : ∀ (masks : List ℕ) (term : ℕ → ℚ) (start : ℚ),
      masks.foldl (fun fraction mask => if countOnes mask % 2 = 0 then fraction + term mask
        else fraction - term mask) start =
        start + (masks.map fun mask => (-1) ^ countOnes mask * term mask).sum := by
    intro masks term start
    induction masks generalizing start with
    | nil => simp
    | cons mask masks ih =>
      rw [List.foldl_cons, ih, List.map_cons, List.sum_cons]
      split
      · rename_i heven
        rw [Even.neg_one_pow (Nat.even_iff.mpr heven)]
        ring
      · rename_i hodd
        rw [Odd.neg_one_pow (Nat.odd_iff.mpr (by omega))]
        ring
  have hpool' : (classes.sum : ℚ) ≠ 0 := Nat.cast_ne_zero.mpr hpool
  unfold fraction
  dsimp only
  rw [hfold, zero_add, Nat.one_shiftLeft, inclusionExclusion, ← sum_map_range, ← List.sum_map_mul_right,
    Int.cast_list_sum, List.map_map]
  refine congrArg List.sum (List.map_congr_left fun mask _ => ?_)
  simp only [Function.comp_apply, div_pow, Int.cast_mul, Int.cast_pow, Int.cast_neg, Int.cast_one,
    Int.cast_natCast]
  rw [mul_assoc, div_mul_cancel₀ _ (pow_ne_zero len hpool')]

end Strength

section Drawn

variable {pool : List Char}

/-- An accepted value that stands for a character. -/
def Stands (pool : List Char) (x : UInt64) (c : Char) : Prop :=
  accepted pool.length x = true ∧ pool[x.toNat % pool.length]? = some c

theorem index_eq_ok_iff {i : ℕ} {c : Char} : index pool i = .ok c ↔ pool[i]? = some c := by
  unfold index
  cases pool[i]? with
  | none => simp
  | some d => simp

variable (hpool : pool ≠ []) (hmax : pool.length < 2 ^ 64)
include hpool hmax

/-- Accepted values are taken one by one, each for a character. -/
theorem drawChars_of_accepted (length : ℕ) {draws : List UInt64}
    (hdraws : ∀ x ∈ draws, accepted pool.length x = true) {value : List Char}
    {rest : List UInt64} :
    drawChars pool length draws = .ok (value, rest) ↔
      ∃ taken, draws = taken ++ rest ∧ List.Forall₂ (Stands pool) taken value ∧
        value.length = length := by
  have hpos : 0 < pool.length := List.length_pos_iff.mpr hpool
  induction length generalizing draws value with
  | zero =>
    constructor
    · intro h
      cases h
      exact ⟨[], rfl, .nil, rfl⟩
    · rintro ⟨taken, rfl, htaken, hlength⟩
      obtain rfl := List.length_eq_zero_iff.mp hlength
      cases htaken
      rfl
  | succ length ih =>
    cases draws with
    | nil =>
      rw [drawChars, below_nil hpos hmax]
      constructor
      · intro h
        cases h
      · rintro ⟨taken, hdraws, htaken, hlength⟩
        obtain ⟨rfl, -⟩ := List.nil_eq_append_iff.mp hdraws
        cases htaken
        cases hlength
    | cons x draws =>
      obtain ⟨hx, hdraws⟩ := List.forall_mem_cons.mp hdraws
      rw [drawChars, below_cons_of_accepted hpos hmax hx]
      constructor
      · intro h
        obtain ⟨_, hi, h⟩ := Fallible.bind_eq_ok.mp h
        cases hi
        obtain ⟨c, hc, h⟩ := Fallible.bind_eq_ok.mp h
        obtain ⟨⟨tail, left⟩, htail, h⟩ := Fallible.bind_eq_ok.mp h
        cases h
        obtain ⟨taken, rfl, htaken, hlength⟩ := (ih hdraws).mp htail
        exact ⟨x :: taken, rfl, .cons ⟨hx, index_eq_ok_iff.mp hc⟩ htaken,
          congrArg Nat.succ hlength⟩
      · rintro ⟨taken, hcons, htaken, hlength⟩
        cases htaken with
        | nil => cases hlength
        | cons hfirst htaken =>
          obtain ⟨rfl, rfl⟩ := List.cons_eq_cons.mp hcons
          refine Fallible.bind_eq_ok.mpr ⟨_, rfl, ?_⟩
          refine Fallible.bind_eq_ok.mpr ⟨_, index_eq_ok_iff.mpr hfirst.2, ?_⟩
          exact Fallible.bind_eq_ok.mpr
            ⟨_, (ih hdraws).mpr ⟨_, rfl, htaken, Nat.succ_inj.mp hlength⟩, rfl⟩

omit hmax in
/-- Each character stands for equally many values. -/
theorem ncard_stands (hnodup : pool.Nodup) {c : Char} (hc : c ∈ pool) :
    {x | Stands pool x c}.ncard = 2 ^ 64 / pool.length := by
  have hpos : 0 < pool.length := List.length_pos_iff.mpr hpool
  obtain ⟨i, hi, rfl⟩ := List.getElem_of_mem hc
  rw [← ncard_accepted_mod hpos hi]
  refine congrArg Set.ncard (Set.ext fun x => and_congr_right fun _ => ?_)
  rw [List.getElem?_eq_some_iff]
  constructor
  · rintro ⟨hmod, heq⟩
    exact (hnodup.getElem_inj_iff).mp heq
  · intro h
    exact ⟨h ▸ hi, by simp only [h]⟩

end Drawn

namespace PasswordOptions

/-- Options that are not refused. -/
structure IsValid (o : PasswordOptions) : Prop where
  length : minLength ≤ o.length ∧ o.length ≤ maxLength
  classes : o.classes ≠ []

/-- A string of the chosen length over the chosen characters, with every class in it. -/
structure Allows (o : PasswordOptions) (w : List Char) : Prop where
  length : w.length = o.length
  chosen : ∀ c ∈ w, c ∈ o.pool
  required : ∀ cls ∈ o.classes, ∃ c ∈ w, c ∈ cls

variable {o : PasswordOptions}

theorem meets_iff {w : List Char} : o.meets w = true ↔ ∀ cls ∈ o.classes, ∃ c ∈ w, c ∈ cls := by
  simp only [meets, List.all_eq_true, List.any_eq_true, List.contains_iff_mem]

/-- All characters there are. -/
def allChars : List Char :=
  Passwords.lowercase ++ (Passwords.uppercase ++ (Passwords.digits ++ Passwords.symbols))

theorem nodup_allChars : allChars.Nodup := by decide +kernel

theorem pool_sublist (o : PasswordOptions) : o.pool.Sublist allChars := by
  have hfilter : ∀ (l : List (Bool × List Char)) (p : Char → Bool),
      ((l.filter Prod.fst).map fun (_, set) => set.filter p).flatten.Sublist
        (l.map Prod.snd).flatten := by
    intro l p
    induction l with
    | nil => exact List.Sublist.refl _
    | cons x l ih =>
      obtain ⟨enabled, set⟩ := x
      rw [List.map_cons, List.flatten_cons]
      cases enabled with
      | false => exact ih.trans (List.sublist_append_right set _)
      | true => exact List.filter_sublist.append ih
  have hall := hfilter [(o.lowercase, Passwords.lowercase), (o.uppercase, Passwords.uppercase),
    (o.digits, Passwords.digits), (o.symbols, Passwords.symbols)]
    fun c => !(o.avoidAmbiguous && ambiguous.contains c)
  have hflatten : [Passwords.lowercase, Passwords.uppercase, Passwords.digits,
      Passwords.symbols].flatten = allChars := by
    simp [allChars]
  exact hflatten ▸ hall

theorem nodup_pool (o : PasswordOptions) : o.pool.Nodup := nodup_allChars.sublist o.pool_sublist

theorem length_pool_lt (o : PasswordOptions) : o.pool.length < 2 ^ 64 :=
  Nat.lt_of_le_of_lt o.pool_sublist.length_le (by decide +kernel)

theorem ne_nil_of_mem_classes {cls : List Char} (h : cls ∈ o.classes) : cls ≠ [] := by
  have hsome : ∀ set ∈ [Passwords.lowercase, Passwords.uppercase, Passwords.digits,
      Passwords.symbols], ∃ c ∈ set, ambiguous.contains c = false := by
    intro set hset
    simp only [List.mem_cons, List.not_mem_nil, or_false] at hset
    rcases hset with rfl | rfl | rfl | rfl
    · exact ⟨'a', by decide, by decide⟩
    · exact ⟨'A', by decide, by decide⟩
    · exact ⟨'2', by decide, by decide⟩
    · exact ⟨'!', by decide, by decide⟩
  obtain ⟨⟨enabled, set⟩, hset, rfl⟩ := List.mem_map.mp h
  have hmem : set ∈ [Passwords.lowercase, Passwords.uppercase, Passwords.digits,
      Passwords.symbols] := by
    have := List.mem_map_of_mem (f := Prod.snd) (List.mem_filter.mp hset).1
    exact this
  obtain ⟨c, hc, hplain⟩ := hsome set hmem
  refine List.ne_nil_of_mem (a := c) (List.mem_filter.mpr ⟨hc, ?_⟩)
  rw [hplain, Bool.and_false]
  rfl

theorem IsValid.pool_ne_nil (h : o.IsValid) : o.pool ≠ [] := by
  obtain ⟨cls, hcls⟩ := List.exists_mem_of_ne_nil _ h.classes
  obtain ⟨c, hc⟩ := List.exists_mem_of_ne_nil _ (ne_nil_of_mem_classes hcls)
  exact List.ne_nil_of_mem (List.mem_flatten.mpr ⟨cls, hcls, hc⟩)

/-- The strings that are allowed are the words in which the classes occur. -/
theorem allows_eq_meeting (o : PasswordOptions) :
    {w | o.Allows w} = Words.meeting {c | c ∈ o.pool}
      (o.classes.map fun cls => {c | c ∈ cls}) o.length := by
  ext w
  constructor
  · rintro ⟨hlength, hchosen, hrequired⟩
    exact ⟨⟨hlength, hchosen⟩, List.forall_mem_map.mpr hrequired⟩
  · rintro ⟨⟨hlength, hchosen⟩, hrequired⟩
    exact ⟨hlength, hchosen, fun cls hcls => hrequired _ (List.mem_map_of_mem hcls)⟩

theorem ncard_mem {l : List Char} (h : l.Nodup) : {c | c ∈ l}.ncard = l.length := by
  have hset : {c | c ∈ l} = (l.toFinset : Set Char) := by
    ext c
    simp
  rw [hset, Set.ncard_coe_finset, List.toFinset_card_of_nodup h]

/-- What is summed up for the strength is the number of allowed strings. -/
theorem inclusionExclusion_eq_ncard (o : PasswordOptions) :
    inclusionExclusion o.length (o.classes.map List.length) o.pool.length =
      ({w | o.Allows w}.ncard : ℤ) := by
  obtain ⟨hnodup, hdisjoint⟩ := List.nodup_flatten.mp o.nodup_pool
  have hfinite : {c | c ∈ o.pool}.Finite := o.pool.finite_toSet
  have hsizes : (o.classes.map fun cls => {c | c ∈ cls}).map Set.ncard =
      o.classes.map List.length := by
    rw [List.map_map]
    exact List.map_congr_left fun cls hcls => ncard_mem (hnodup cls hcls)
  have hsubset : ∀ C ∈ o.classes.map fun cls => {c | c ∈ cls}, C ⊆ {c | c ∈ o.pool} :=
    List.forall_mem_map.mpr fun cls hcls c hc => List.mem_flatten.mpr ⟨cls, hcls, hc⟩
  have hpairwise : (o.classes.map fun cls => {c | c ∈ cls}).Pairwise Disjoint :=
    List.pairwise_map.mpr (hdisjoint.imp fun h =>
      Set.disjoint_left.mpr fun c hc hd => h hc hd)
  rw [inclusionExclusion_eq, allows_eq_meeting, Words.ncard_meeting hfinite hsubset hpairwise,
    hsizes, ncard_mem o.nodup_pool]

end PasswordOptions

section Attempts

/-- Accepted values of an attempt that misses a class. -/
def failed (o : PasswordOptions) : Set (List UInt64) :=
  {taken | ∃ value, List.Forall₂ (Stands o.pool) taken value ∧ value.length = o.length ∧
    o.meets value = false}

/-- Accepted values that are taken for a password, all of them. -/
def reached (o : PasswordOptions) (n m : ℕ) (w : List Char) : Set (List UInt64) :=
  {draws | draws.length = m ∧ (∀ x ∈ draws, accepted o.pool.length x = true) ∧
    attempts o n draws = .ok (w, [])}

variable {o : PasswordOptions}

theorem accepted_of_stands {pool value : List Char} {taken : List UInt64}
    (h : List.Forall₂ (Stands pool) taken value) : ∀ x ∈ taken, accepted pool.length x = true :=
  fun _ hx => (Fallible.exists_right h hx).elim fun _ hc => hc.2.1

theorem stands_unique {pool value value' : List Char} {taken : List UInt64}
    (h : List.Forall₂ (Stands pool) taken value) (h' : List.Forall₂ (Stands pool) taken value') :
    value = value' := by
  refine List.right_unique_forall₂' ?_ h h'
  rintro x c d ⟨-, hc⟩ ⟨-, hd⟩
  exact Option.some_inj.mp (hc.symm.trans hd)

theorem length_of_mem_failed : ∀ l ∈ failed o, l.length = o.length := by
  rintro l ⟨value, hstands, hlength, -⟩
  exact hstands.length_eq.trans hlength

/-- An attempt that gives a password has not failed. -/
theorem not_failed_of_stands {w : List Char} (hw : o.Allows w) {draws : List UInt64}
    (hstands : List.Forall₂ (Stands o.pool) draws w) {later : Set (List UInt64)} :
    draws ∉ Set.image2 (· ++ ·) (failed o) later := by
  rintro ⟨taken, htaken, rest, -, rfl⟩
  have hlength := length_of_mem_failed taken htaken
  obtain ⟨value, hvalue, -, hmeets⟩ := htaken
  have hall := hstands.length_eq
  dsimp only at hall hstands
  rw [List.length_append, hlength, hw.length] at hall
  obtain rfl : rest = [] := List.length_eq_zero_iff.mp (by omega)
  rw [List.append_nil] at hstands
  obtain rfl := stands_unique hstands hvalue
  rw [PasswordOptions.meets_iff.mpr hw.required] at hmeets
  cases hmeets

variable (h : o.IsValid)
include h

/-- A password comes out of the first attempt, or out of those behind a failed one. -/
theorem reached_succ {w : List Char} (hw : o.Allows w) (n m : ℕ) :
    reached o (n + 1) m w =
      (if m = o.length then {l | List.Forall₂ (Stands o.pool) l w} else ∅) ∪
        (if o.length ≤ m then
          Set.image2 (· ++ ·) (failed o) (reached o n (m - o.length) w) else ∅) := by
  have hdraw : ∀ {draws : List UInt64}, (∀ x ∈ draws, accepted o.pool.length x = true) →
      ∀ {value : List Char} {rest : List UInt64},
        drawChars o.pool o.length draws = .ok (value, rest) ↔
          ∃ taken, draws = taken ++ rest ∧ List.Forall₂ (Stands o.pool) taken value ∧
            value.length = o.length :=
    fun hdraws => drawChars_of_accepted h.pool_ne_nil o.length_pool_lt o.length hdraws
  ext draws
  constructor
  · rintro ⟨rfl, hdraws, hattempts⟩
    obtain ⟨⟨value, rest⟩, hvalue, hrest⟩ := Fallible.bind_eq_ok.mp hattempts
    obtain ⟨taken, rfl, hstands, hlength⟩ := (hdraw hdraws).mp hvalue
    have htaken : taken.length = o.length := hstands.length_eq.trans hlength
    dsimp only at hrest
    split at hrest
    · cases hrest
      left
      rw [List.append_nil, if_pos htaken]
      exact hstands
    · rename_i hmeets
      right
      rw [List.length_append, if_pos (by omega)]
      refine ⟨taken, ⟨value, hstands, hlength, Bool.eq_false_iff.mpr hmeets⟩, rest, ?_, rfl⟩
      exact ⟨by omega, fun x hx => hdraws x (List.mem_append_right _ hx), hrest⟩
  · rintro (hfirst | hlater)
    · split at hfirst
      · rename_i hm
        have hdraws := accepted_of_stands hfirst
        have hvalue := (hdraw hdraws).mpr ⟨draws, (List.append_nil draws).symm, hfirst, hw.length⟩
        refine ⟨hfirst.length_eq.trans (hw.length.trans hm.symm), hdraws, ?_⟩
        refine Fallible.bind_eq_ok.mpr ⟨_, hvalue, ?_⟩
        exact if_pos (PasswordOptions.meets_iff.mpr hw.required)
      · exact absurd hfirst (Set.notMem_empty draws)
    · split at hlater
      · rename_i hm
        obtain ⟨taken, htaken, rest, ⟨hrestLength, hrestDraws, hrest⟩, rfl⟩ := hlater
        have htakenLength := length_of_mem_failed taken htaken
        obtain ⟨value, hstands, hlength, hmeets⟩ := htaken
        have hdraws : ∀ x ∈ taken ++ rest, accepted o.pool.length x = true :=
          List.forall_mem_append.mpr ⟨accepted_of_stands hstands, hrestDraws⟩
        refine ⟨by dsimp only; rw [List.length_append]; omega, hdraws, ?_⟩
        refine Fallible.bind_eq_ok.mpr ⟨_, (hdraw hdraws).mpr ⟨taken, rfl, hstands, hlength⟩, ?_⟩
        exact (if_neg (by simp [hmeets])).trans hrest
      · exact absurd hlater (Set.notMem_empty draws)

/-- Passwords come out of equally many values. -/
theorem exists_count (n : ℕ) : ∃ count : ℕ → ℕ,
    (∀ m w, o.Allows w → (reached o n m w).ncard = count m) ∧ (n ≠ 0 → 0 < count o.length) := by
  have hpos : 0 < o.pool.length := List.length_pos_iff.mpr h.pool_ne_nil
  have hfinite : ∀ n m w, (reached o n m w).Finite := by
    intro n m w
    refine (Words.finite_over (A := Set.univ) ?_ m).subset fun l hl => ⟨hl.1, fun _ _ => trivial⟩
    exact Set.finite_univ_iff.mpr (Finite.of_injective UInt64.toFin fun _ _ => UInt64.toFin_inj.mp)
  induction n with
  | zero =>
    refine ⟨fun _ => 0, fun m w _ => ?_, fun hzero => absurd rfl hzero⟩
    have hempty : reached o 0 m w = ∅ := by
      refine Set.eq_empty_of_forall_notMem fun draws hdraws => ?_
      cases hdraws.2.2
    rw [hempty, Set.ncard_empty]
  | succ n ih =>
    obtain ⟨count, hcount, -⟩ := ih
    have hblocks : 0 < 2 ^ 64 / o.pool.length := Nat.div_pos o.length_pool_lt.le hpos
    refine ⟨fun m => (if m = o.length then (2 ^ 64 / o.pool.length) ^ o.length else 0) +
      if o.length ≤ m then (failed o).ncard * count (m - o.length) else 0, fun m w hw => ?_,
      fun _ => ?_⟩
    · have hdisjoint : Disjoint
          (if m = o.length then {l | List.Forall₂ (Stands o.pool) l w} else ∅)
          (if o.length ≤ m then
            Set.image2 (· ++ ·) (failed o) (reached o n (m - o.length) w) else ∅) := by
        refine Set.disjoint_left.mpr fun draws hfirst hlater => ?_
        split at hfirst
        · split at hlater
          · exact not_failed_of_stands hw hfirst hlater
          · exact hlater
        · exact hfirst
      have hunion := reached_succ h hw n m
      have hall := hfinite (n + 1) m w
      rw [hunion] at hall
      rw [hunion, Set.ncard_union_eq hdisjoint (hall.subset Set.subset_union_left)
        (hall.subset Set.subset_union_right)]
      congr 1
      · split
        · rw [Words.ncard_forall₂ fun c hc => ncard_stands h.pool_ne_nil o.nodup_pool
            (hw.chosen c hc), hw.length]
        · exact Set.ncard_empty _
      · split
        · rw [Words.ncard_image2_append length_of_mem_failed, hcount _ w hw]
        · exact Set.ncard_empty _
    · dsimp only
      rw [if_pos rfl]
      exact Nat.add_pos_left (Nat.pow_pos hblocks) _

end Attempts

section Skipped

/-- What is left, without the values that would be drawn again. -/
def keepAccepted {α : Type} (n : ℕ) (read : α × List UInt64) : α × List UInt64 :=
  (read.1, read.2.filter (accepted n))

theorem below_filter {n : ℕ} (hn : 0 < n) (hmax : n < 2 ^ 64) (draws : List UInt64) :
    below n (draws.filter (accepted n)) = (below n draws).map (keepAccepted n) := by
  induction draws with
  | nil =>
    rw [List.filter_nil, below_nil hn hmax]
    rfl
  | cons x draws ih =>
    cases hx : accepted n x with
    | true =>
      rw [List.filter_cons_of_pos hx, below_cons_of_accepted hn hmax hx,
        below_cons_of_accepted hn hmax hx]
      rfl
    | false =>
      rw [List.filter_cons_of_neg (by simp [hx]), ih, below_cons_of_not_accepted hn hmax hx]

theorem drawChars_filter {pool : List Char} (hpool : pool ≠ []) (hmax : pool.length < 2 ^ 64)
    (length : ℕ) (draws : List UInt64) :
    drawChars pool length (draws.filter (accepted pool.length)) =
      (drawChars pool length draws).map (keepAccepted pool.length) := by
  induction length generalizing draws with
  | zero => rfl
  | succ length ih =>
    rw [drawChars, below_filter (List.length_pos_iff.mpr hpool) hmax, drawChars]
    cases below pool.length draws with
    | error e => rfl
    | ok read =>
      obtain ⟨i, rest⟩ := read
      change (index pool i >>= fun c => _) = ((index pool i >>= fun c => _) : Except _ _).map _
      cases index pool i with
      | error e => rfl
      | ok c =>
        change (drawChars pool length (rest.filter (accepted pool.length)) >>= fun _ => _) =
          ((drawChars pool length rest >>= fun _ => _) : Except _ _).map _
        rw [ih]
        cases drawChars pool length rest with
        | error e => rfl
        | ok tail => rfl

theorem attempts_filter {o : PasswordOptions} (h : o.IsValid) (n : ℕ) (draws : List UInt64) :
    attempts o n (draws.filter (accepted o.pool.length)) =
      (attempts o n draws).map (keepAccepted o.pool.length) := by
  induction n generalizing draws with
  | zero => rfl
  | succ n ih =>
    rw [attempts, drawChars_filter h.pool_ne_nil o.length_pool_lt, attempts]
    cases drawChars o.pool o.length draws with
    | error e => rfl
    | ok read =>
      obtain ⟨value, rest⟩ := read
      change (if o.meets value then _ else attempts o n (rest.filter (accepted o.pool.length))) =
        (if o.meets value then _ else attempts o n rest : Except _ _).map _
      rw [ih]
      split
      · rfl
      · rfl

end Skipped

theorem below_lt {n : ℕ} (hn : 0 < n) (hmax : n < 2 ^ 64) {draws rest : List UInt64} {i : ℕ}
    (h : below n draws = .ok (i, rest)) : i < n := by
  induction draws with
  | nil =>
    rw [below_nil hn hmax] at h
    cases h
  | cons x draws ih =>
    cases hx : accepted n x with
    | true =>
      rw [below_cons_of_accepted hn hmax hx] at h
      cases h
      exact Nat.mod_lt _ hn
    | false =>
      rw [below_cons_of_not_accepted hn hmax hx] at h
      exact ih h

theorem below_eq_error {n : ℕ} (hn : 0 < n) (hmax : n < 2 ^ 64) {draws : List UInt64} {f : Failure}
    (h : below n draws = .error f) : f = .error .rng := by
  induction draws with
  | nil =>
    rw [below_nil hn hmax] at h
    cases h
    rfl
  | cons x draws ih =>
    cases hx : accepted n x with
    | true =>
      rw [below_cons_of_accepted hn hmax hx] at h
      cases h
    | false =>
      rw [below_cons_of_not_accepted hn hmax hx] at h
      exact ih h

theorem drawChars_spec {pool : List Char} {length : ℕ} {draws rest : List UInt64}
    {value : List Char} (h : drawChars pool length draws = .ok (value, rest)) :
    value.length = length ∧ ∀ c ∈ value, c ∈ pool := by
  induction length generalizing draws value with
  | zero =>
    cases h
    exact ⟨rfl, fun _ hc => absurd hc List.not_mem_nil⟩
  | succ length ih =>
    obtain ⟨⟨i, left⟩, -, h⟩ := Fallible.bind_eq_ok.mp h
    obtain ⟨c, hc, h⟩ := Fallible.bind_eq_ok.mp h
    obtain ⟨⟨tail, left'⟩, htail, h⟩ := Fallible.bind_eq_ok.mp h
    cases h
    obtain ⟨hlength, hmem⟩ := ih htail
    exact ⟨congrArg Nat.succ hlength,
      List.forall_mem_cons.mpr ⟨List.mem_of_getElem? (index_eq_ok_iff.mp hc), hmem⟩⟩

theorem attempts_spec {o : PasswordOptions} {n : ℕ} {draws rest : List UInt64} {w : List Char}
    (h : attempts o n draws = .ok (w, rest)) : o.Allows w := by
  induction n generalizing draws with
  | zero => cases h
  | succ n ih =>
    obtain ⟨⟨value, left⟩, hvalue, h⟩ := Fallible.bind_eq_ok.mp h
    dsimp only at h
    split at h
    · rename_i hmeets
      cases h
      obtain ⟨hlength, hchosen⟩ := drawChars_spec hvalue
      exact ⟨hlength, hchosen, PasswordOptions.meets_iff.mp hmeets⟩
    · exact ih h

theorem generatePassword_eq {o : PasswordOptions} (h : o.IsValid) (draws : List UInt64) :
    generatePassword o draws = attempts o maxAttempts draws := by
  rw [generatePassword, if_neg (not_not.mpr h.length), if_neg h.classes]

/-- Integers and passwords are uniform, and the strength counts the passwords. -/
theorem passwords_uniform :
    (∀ n, 1 ≤ n → n < 2 ^ 64 →
      (∀ draws f, below n draws = .error f → f = .error .rng) ∧
      (∃ blocks, 0 < blocks ∧
        ∀ r < n, {x : UInt64 | below n [x] = .ok (r, [])}.ncard = blocks) ∧
      ∀ draws, below n (draws.filter (accepted n)) = (below n draws).map (keepAccepted n)) ∧
    ∀ o : PasswordOptions, o.IsValid →
      (∀ w, (∃ draws rest, generatePassword o draws = .ok (w, rest)) ↔ o.Allows w) ∧
      (∃ count : ℕ → ℕ, 0 < count o.length ∧ ∀ m w, o.Allows w →
        {draws : List UInt64 | draws.length = m ∧
          (∀ x ∈ draws, accepted o.pool.length x = true) ∧
          generatePassword o draws = .ok (w, [])}.ncard = count m) ∧
      (∀ draws, generatePassword o (draws.filter (accepted o.pool.length)) =
        (generatePassword o draws).map (keepAccepted o.pool.length)) ∧
      inclusionExclusion o.length (o.classes.map List.length) o.pool.length =
        ({w | o.Allows w}.ncard : ℤ) ∧
      fraction o.length (o.classes.map List.length) * (o.pool.length : ℚ) ^ o.length =
        ({w | o.Allows w}.ncard : ℚ) := by
  refine ⟨fun n hn hmax => ⟨fun draws f => below_eq_error hn hmax, ?_, below_filter hn hmax⟩,
    fun o ho => ⟨fun w => ⟨?_, fun hw => ?_⟩, ?_, fun draws => ?_,
      o.inclusionExclusion_eq_ncard, ?_⟩⟩
  · refine ⟨2 ^ 64 / n, Nat.div_pos hmax.le hn, fun r hr => ?_⟩
    rw [← ncard_accepted_mod hn hr]
    refine congrArg Set.ncard (Set.ext fun x => ?_)
    cases hx : accepted n x with
    | true =>
      rw [Set.mem_ofPred_eq, below_cons_of_accepted hn hmax hx]
      simp [hx]
    | false =>
      rw [Set.mem_ofPred_eq, below_cons_of_not_accepted hn hmax hx, below_nil hn hmax]
      simp [hx]
  · rintro ⟨draws, rest, h⟩
    rw [generatePassword_eq ho] at h
    exact attempts_spec h
  · obtain ⟨count, hcount, hpos⟩ := exists_count ho maxAttempts
    have hreached : (reached o maxAttempts o.length w).ncard ≠ 0 := by
      rw [hcount _ w hw]
      exact Nat.pos_iff_ne_zero.mp (hpos (by decide))
    obtain ⟨draws, -, -, hdraws⟩ := Set.nonempty_of_ncard_ne_zero hreached
    exact ⟨draws, [], (generatePassword_eq ho draws).trans hdraws⟩
  · obtain ⟨count, hcount, hpos⟩ := exists_count ho maxAttempts
    refine ⟨count, hpos (by decide), fun m w hw => ?_⟩
    simp only [generatePassword_eq ho]
    exact hcount m w hw
  · rw [generatePassword_eq ho, generatePassword_eq ho, attempts_filter ho]
  · have hsum : (o.classes.map List.length).sum = o.pool.length := List.length_flatten.symm
    have hpool : (o.classes.map List.length).sum ≠ 0 := by
      rw [hsum]
      exact Nat.pos_iff_ne_zero.mp (List.length_pos_iff.mpr ho.pool_ne_nil)
    have hfraction := fraction_eq o.length hpool
    rw [hsum, o.inclusionExclusion_eq_ncard] at hfraction
    rw [hfraction, Int.cast_natCast]

/-- The default options. -/
theorem passwords_uniform_default :
    (∀ draws f, below 7 draws = .error f → f = .error .rng) ∧
      ∀ w, (∃ draws rest, generatePassword {} draws = .ok (w, rest)) ↔
        PasswordOptions.Allows {} w :=
  ⟨(passwords_uniform.1 7 (by decide) (by decide)).1,
    (passwords_uniform.2 {} ⟨by decide, by decide⟩).1⟩

end Zvault.Passwords
