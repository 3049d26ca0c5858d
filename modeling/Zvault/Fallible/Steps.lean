import Mathlib.Data.List.Forall2
import Mathlib.Data.List.ReduceOption
import Mathlib.Algebra.GroupWithZero.Nat

/-!
# Steps that may fail

What a chain of steps that ends well says of each of them, and what a list of
such steps says element by element.
-/

namespace Fallible

universe u

variable {ε γ : Type*} {α β : Type u}

@[simp] theorem ok_bind (a : α) (f : α → Except ε β) : (Except.ok a >>= f) = f a := rfl

theorem bind_eq_ok {x : Except ε α} {f : α → Except ε β} {b : β} :
    (x >>= f) = .ok b ↔ ∃ a, x = .ok a ∧ f a = .ok b := by
  cases x with
  | error e =>
    constructor
    · intro h
      cases h
    · rintro ⟨a, h, -⟩
      cases h
  | ok a =>
    constructor
    · exact fun h => ⟨a, rfl, h⟩
    · rintro ⟨a', h, hf⟩
      cases h
      exact hf

theorem bind_eq_error {x : Except ε α} {f : α → Except ε β} {e : ε} :
    (x >>= f) = .error e ↔ x = .error e ∨ ∃ a, x = .ok a ∧ f a = .error e := by
  cases x with
  | error e' =>
    constructor
    · intro h
      cases h
      exact .inl rfl
    · rintro (h | ⟨a, h, -⟩)
      · cases h
        rfl
      · cases h
  | ok a =>
    constructor
    · exact fun h => .inr ⟨a, rfl, h⟩
    · rintro (h | ⟨a', h, hf⟩)
      · cases h
      · cases h
        exact hf

theorem map_eq_ok {x : Except ε α} {f : α → β} {b : β} :
    x.map f = .ok b ↔ ∃ a, x = .ok a ∧ f a = b := by
  cases x with
  | error e =>
    constructor
    · intro h
      cases h
    · rintro ⟨a, h, -⟩
      cases h
  | ok a =>
    constructor
    · intro h
      cases h
      exact ⟨a, rfl, rfl⟩
    · rintro ⟨a', h, rfl⟩
      cases h
      rfl

/-- Steps over a list end well when each of them does. -/
theorem mapM_eq_ok {f : α → Except ε β} {l : List α} {r : List β} :
    l.mapM f = .ok r ↔ List.Forall₂ (fun a b => f a = .ok b) l r := by
  induction l generalizing r with
  | nil =>
    rw [List.mapM_nil, List.forall₂_nil_left_iff]
    constructor
    · intro h
      cases h
      rfl
    · rintro rfl
      rfl
  | cons a l ih =>
    rw [List.mapM_cons, bind_eq_ok]
    constructor
    · rintro ⟨b, hb, h⟩
      obtain ⟨rest, hrest, h⟩ := bind_eq_ok.mp h
      cases h
      exact .cons hb (ih.mp hrest)
    · intro h
      cases h with
      | cons hb hrest => exact ⟨_, hb, bind_eq_ok.mpr ⟨_, ih.mpr hrest, rfl⟩⟩

theorem mapM_ok_of_forall {f : α → Except ε β} {l : List α} (h : ∀ a ∈ l, ∃ b, f a = .ok b) :
    ∃ r, l.mapM f = .ok r := by
  induction l with
  | nil => exact ⟨[], rfl⟩
  | cons a l ih =>
    obtain ⟨⟨b, hb⟩, hrest⟩ := List.forall_mem_cons.mp h
    obtain ⟨r, hr⟩ := ih hrest
    exact ⟨b :: r, mapM_eq_ok.mpr (.cons hb (mapM_eq_ok.mp hr))⟩

/-- The same of steps that may give nothing. -/
theorem mapM_eq_some {f : α → Option β} {l : List α} {r : List β} :
    l.mapM f = some r ↔ List.Forall₂ (fun a b => f a = some b) l r := by
  induction l generalizing r with
  | nil =>
    rw [List.mapM_nil, List.forall₂_nil_left_iff, Option.pure_def, Option.some_inj, eq_comm]
  | cons a l ih =>
    simp only [List.mapM_cons, Option.bind_eq_bind, Option.bind_eq_some_iff, Option.pure_def,
      Option.some_inj]
    constructor
    · rintro ⟨b, hb, rest, hrest, rfl⟩
      exact .cons hb (ih.mp hrest)
    · intro h
      cases h with
      | cons hb hrest => exact ⟨_, hb, _, ih.mpr hrest, rfl⟩

section Forall₂

variable {R : α → β → Prop} {l : List α} {r : List β}

theorem exists_left (h : List.Forall₂ R l r) {b : β} (hb : b ∈ r) : ∃ a ∈ l, R a b := by
  induction h with
  | nil => cases hb
  | cons hab _ ih =>
    rcases List.mem_cons.mp hb with rfl | hb
    · exact ⟨_, List.mem_cons_self, hab⟩
    · obtain ⟨a, ha, hR⟩ := ih hb
      exact ⟨a, List.mem_cons_of_mem _ ha, hR⟩

theorem exists_right (h : List.Forall₂ R l r) {a : α} (ha : a ∈ l) : ∃ b ∈ r, R a b :=
  exists_left h.flip ha

/-- What all the steps keep of an element. -/
theorem map_eq_map {f : α → γ} {g : β → γ} (h : List.Forall₂ R l r)
    (hkept : ∀ a ∈ l, ∀ b, R a b → g b = f a) : r.map g = l.map f := by
  induction h with
  | nil => rfl
  | cons hab _ ih =>
    rw [List.map_cons, List.map_cons, hkept _ List.mem_cons_self _ hab,
      ih fun a ha b => hkept a (List.mem_cons_of_mem _ ha) b]

/-- The same, of steps that all have a result. -/
theorem reduceOption_map_eq {R : α → Option β → Prop} {r : List (Option β)} {f : α → γ} {g : β → γ}
    (h : List.Forall₂ R l r) (hkept : ∀ a ∈ l, ∀ b, R a b → b.map g = some (f a)) :
    r.reduceOption.map g = l.map f := by
  have hall (l : List α) : (l.map fun a => some (f a)).reduceOption = l.map f := by
    induction l with
    | nil => rfl
    | cons a l ih => rw [List.map_cons, List.map_cons, List.reduceOption_cons_of_some, ih]
  rw [← List.reduceOption_map, map_eq_map h hkept, hall]

end Forall₂

end Fallible

/-! ### Code that may panic

Arithmetic on machine words and ranges of a byte string, which stop the program
when they leave their bounds. -/

namespace Checked

/-- Why code panics. -/
inductive Panic where
  | overflow
  | outOfRange
  deriving DecidableEq, Repr

variable {α : Type*}

/-- `a + b` in words of `width` bits. -/
def add (width a b : ℕ) : Except Panic ℕ := if a + b < 2 ^ width then .ok (a + b) else .error .overflow

/-- `a - b` of unsigned words. -/
def sub (a b : ℕ) : Except Panic ℕ := if b ≤ a then .ok (a - b) else .error .overflow

/-- `copy_within(start..stop, dest)`. -/
def copyWithin (l : List α) (start stop dest : ℕ) : Except Panic (List α) :=
  if start ≤ stop ∧ stop ≤ l.length ∧ dest + (stop - start) ≤ l.length then
    .ok (l.take dest ++ (l.drop start).take (stop - start) ++ l.drop (dest + (stop - start)))
  else .error .outOfRange

/-- `split_at`. -/
def splitAt (l : List α) (mid : ℕ) : Except Panic (List α × List α) :=
  if mid ≤ l.length then .ok (l.take mid, l.drop mid) else .error .outOfRange

/-- `l[i]`. -/
def get (l : List α) (i : ℕ) : Except Panic α :=
  match l[i]? with
  | some a => .ok a
  | none => .error .outOfRange

/-- `l[start..stop]`. -/
def slice (l : List α) (start stop : ℕ) : Except Panic (List α) :=
  if start ≤ stop ∧ stop ≤ l.length then .ok ((l.drop start).take (stop - start))
  else .error .outOfRange

/-- `l[start..]`. -/
def sliceFrom (l : List α) (start : ℕ) : Except Panic (List α) := slice l start l.length

theorem add_eq_ok {width a b : ℕ} (h : a + b < 2 ^ width) : add width a b = .ok (a + b) := if_pos h

theorem sub_eq_ok {a b : ℕ} (h : b ≤ a) : sub a b = .ok (a - b) := if_pos h

theorem splitAt_eq_ok {l : List α} {mid : ℕ} (h : mid ≤ l.length) :
    splitAt l mid = .ok (l.take mid, l.drop mid) := if_pos h

theorem get_eq_ok {l : List α} {i : ℕ} {a : α} (h : l[i]? = some a) : get l i = .ok a := by
  rw [get, h]

theorem slice_eq_ok {l : List α} {start count : ℕ} (h : start + count ≤ l.length) :
    slice l start (start + count) = .ok ((l.drop start).take count) := by
  rw [slice, if_pos ⟨Nat.le_add_right start count, h⟩, Nat.add_sub_cancel_left]

theorem sliceFrom_eq_ok {l : List α} {start : ℕ} (h : start ≤ l.length) :
    sliceFrom l start = .ok (l.drop start) := by
  rw [sliceFrom, slice, if_pos ⟨h, Nat.le_refl _⟩, ← List.length_drop, List.take_length]

/-- What is copied to the front. -/
theorem copyWithin_zero {l : List α} {start count : ℕ} (h : start + count ≤ l.length) :
    copyWithin l start (start + count) 0 = .ok ((l.drop start).take count ++ l.drop count) := by
  have hcount : start + count - start = count := Nat.add_sub_cancel_left start count
  rw [copyWithin, hcount, if_pos ⟨Nat.le_add_right start count, h, by omega⟩, List.take_zero,
    List.nil_append, Nat.zero_add]

end Checked
