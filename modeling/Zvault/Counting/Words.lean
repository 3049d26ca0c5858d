import Mathlib.Algebra.Order.Ring.Int
import Mathlib.Data.List.Infix
import Mathlib.Data.Set.Card
import Mathlib.Order.CompletePartialOrder
import Mathlib.Tactic.Ring

/-!
# Counting words

The number of words of a length over an alphabet, of those in which every one of some
classes of letters occurs, and of those that are related letter by letter to a word. Words with
separators between them are read back.
-/

namespace Words

variable {α β : Type*}

theorem ncard_image2_cons (s : Set α) (t : Set (List α)) :
    (Set.image2 List.cons s t).ncard = s.ncard * t.ncard := by
  have hinj : Function.Injective fun p : α × List α => p.1 :: p.2 := by
    rintro ⟨a, l⟩ ⟨b, m⟩ h
    obtain ⟨rfl, rfl⟩ := List.cons_eq_cons.mp h
    rfl
  rw [← Set.image_uncurry_prod, ← Set.ncard_prod]
  exact Set.ncard_image_of_injective _ hinj

/-- Words that begin with words of one length. -/
theorem ncard_image2_append {s : Set (List α)} {n : ℕ} (hs : ∀ l ∈ s, l.length = n)
    (t : Set (List α)) : (Set.image2 (· ++ ·) s t).ncard = s.ncard * t.ncard := by
  have hinj : Set.InjOn (fun p : List α × List α => p.1 ++ p.2) (s ×ˢ t) := by
    rintro ⟨l, m⟩ ⟨hl, -⟩ ⟨l', m'⟩ ⟨hl', -⟩ h
    obtain ⟨rfl, rfl⟩ := List.append_inj h ((hs l hl).trans (hs l' hl').symm)
    rfl
  rw [← Set.image_uncurry_prod, ← Set.ncard_prod]
  exact hinj.ncard_image

/-- Words of a length over an alphabet. -/
def wordsOver (A : Set α) (n : ℕ) : Set (List α) := {w | w.length = n ∧ ∀ c ∈ w, c ∈ A}

theorem over_zero (A : Set α) : wordsOver A 0 = {[]} := by
  ext w
  constructor
  · exact fun h => List.length_eq_zero_iff.mp h.1
  · rintro rfl
    exact ⟨rfl, fun _ h => absurd h List.not_mem_nil⟩

theorem over_succ (A : Set α) (n : ℕ) :
    wordsOver A (n + 1) = Set.image2 List.cons A (wordsOver A n) := by
  ext w
  constructor
  · rintro ⟨hlength, hmem⟩
    cases w with
    | nil => cases hlength
    | cons c w =>
      obtain ⟨hc, hw⟩ := List.forall_mem_cons.mp hmem
      exact ⟨c, hc, w, ⟨Nat.succ_inj.mp hlength, hw⟩, rfl⟩
  · rintro ⟨c, hc, w, ⟨hlength, hw⟩, rfl⟩
    exact ⟨congrArg Nat.succ hlength, List.forall_mem_cons.mpr ⟨hc, hw⟩⟩

theorem finite_over {A : Set α} (hA : A.Finite) (n : ℕ) : (wordsOver A n).Finite := by
  induction n with
  | zero =>
    rw [over_zero]
    exact Set.finite_singleton _
  | succ n ih =>
    rw [over_succ]
    exact hA.image2 _ ih

theorem ncard_over (A : Set α) (n : ℕ) : (wordsOver A n).ncard = A.ncard ^ n := by
  induction n with
  | zero => rw [over_zero, Set.ncard_singleton, Nat.pow_zero]
  | succ n ih => rw [over_succ, ncard_image2_cons, ih, Nat.pow_succ, Nat.mul_comm]

/-- Words over an alphabet in which every class occurs. -/
def meeting (A : Set α) (classes : List (Set α)) (n : ℕ) : Set (List α) :=
  {w | w ∈ wordsOver A n ∧ ∀ C ∈ classes, ∃ c ∈ w, c ∈ C}

theorem finite_meeting {A : Set α} (hA : A.Finite) (classes : List (Set α)) (n : ℕ) :
    (meeting A classes n).Finite :=
  (finite_over hA n).subset fun _ h => h.1

/-- A word has a letter of one more class, or it is a word over the letters that are left. -/
theorem meeting_cons (A C : Set α) (classes : List (Set α)) (n : ℕ) :
    meeting A (C :: classes) n ∪ meeting (A \ C) classes n = meeting A classes n ∧
      Disjoint (meeting A (C :: classes) n) (meeting (A \ C) classes n) := by
  constructor
  · ext w
    constructor
    · rintro (⟨hover, hmeet⟩ | ⟨⟨hlength, hmem⟩, hmeet⟩)
      · exact ⟨hover, (List.forall_mem_cons.mp hmeet).2⟩
      · exact ⟨⟨hlength, fun c hc => (hmem c hc).1⟩, hmeet⟩
    · rintro ⟨⟨hlength, hmem⟩, hmeet⟩
      by_cases hC : ∃ c ∈ w, c ∈ C
      · exact .inl ⟨⟨hlength, hmem⟩, List.forall_mem_cons.mpr ⟨hC, hmeet⟩⟩
      · exact .inr ⟨⟨hlength, fun c hc => ⟨hmem c hc, fun hcC => hC ⟨c, hc, hcC⟩⟩⟩, hmeet⟩
  · refine Set.disjoint_left.mpr ?_
    rintro w ⟨-, hmeet⟩ ⟨⟨-, hmem⟩, -⟩
    obtain ⟨c, hc, hcC⟩ := hmeet C (List.mem_cons_self ..)
    exact (hmem c hc).2 hcC

/-- The sum over all choices of classes that a word may avoid, with alternating signs. -/
def alternating (n : ℕ) : List ℕ → ℕ → ℤ
  | [], pool => (pool : ℤ) ^ n
  | size :: sizes, pool => alternating n sizes pool - alternating n sizes (pool - size)

/-- Inclusion and exclusion, for classes that do not overlap. -/
theorem ncard_meeting {A : Set α} (hA : A.Finite) {classes : List (Set α)}
    (hsubset : ∀ C ∈ classes, C ⊆ A) (hdisjoint : classes.Pairwise Disjoint) (n : ℕ) :
    ((meeting A classes n).ncard : ℤ) = alternating n (classes.map Set.ncard) A.ncard := by
  induction classes generalizing A with
  | nil =>
    have hmeeting : meeting A [] n = wordsOver A n := by
      ext w
      exact ⟨fun h => h.1, fun h => ⟨h, fun _ hC => absurd hC List.not_mem_nil⟩⟩
    rw [hmeeting, ncard_over, List.map_nil, alternating, Nat.cast_pow]
  | cons C classes ih =>
    obtain ⟨hC, hsubset⟩ := List.forall_mem_cons.mp hsubset
    obtain ⟨hapart, hdisjoint⟩ := List.pairwise_cons.mp hdisjoint
    obtain ⟨hunion, hparts⟩ := meeting_cons A C classes n
    have hdiff : (A \ C).Finite := hA.subset Set.sdiff_subset
    have hleft := ih hdiff (fun D hD c hc =>
      ⟨hsubset D hD hc, fun hcC => Set.disjoint_left.mp (hapart D hD) hcC hc⟩) hdisjoint
    have hsum := Set.ncard_union_eq hparts (finite_meeting hA _ n) (finite_meeting hdiff _ n)
    rw [hunion] at hsum
    rw [List.map_cons, alternating, ← ih hA hsubset hdisjoint, ← Set.ncard_sdiff hC (hA.subset hC), ← hleft, hsum]
    push_cast
    ring

/-- Words that are related to a word letter by letter. -/
theorem ncard_forall₂ {R : α → β → Prop} {q : ℕ} {w : List β}
    (h : ∀ c ∈ w, {x | R x c}.ncard = q) :
    {l : List α | List.Forall₂ R l w}.ncard = q ^ w.length := by
  induction w with
  | nil =>
    have hnil : {l : List α | List.Forall₂ R l []} = {[]} := by
      ext l
      exact List.forall₂_nil_right_iff
    rw [hnil, Set.ncard_singleton, List.length_nil, Nat.pow_zero]
  | cons c w ih =>
    obtain ⟨hc, hw⟩ := List.forall_mem_cons.mp h
    have hcons : {l : List α | List.Forall₂ R l (c :: w)} =
        Set.image2 List.cons {x | R x c} {l | List.Forall₂ R l w} := by
      ext l
      constructor
      · intro h
        obtain ⟨x, l, hx, hl, rfl⟩ := List.forall₂_cons_right_iff.mp h
        exact ⟨x, hx, l, hl, rfl⟩
      · rintro ⟨x, hx, l, hl, rfl⟩
        exact .cons hx hl
    rw [hcons, ncard_image2_cons, hc, ih hw, List.length_cons, Nat.pow_succ, Nat.mul_comm]

/-- Words, each behind a separator. -/
def joined (parts : List (α × List α)) : List α := parts.flatMap fun p => p.1 :: p.2

/-- When no word with a separator behind it begins a word, a text is read as words in one way. -/
theorem joined_inj {W : Set (List α)} {S : Set α}
    (hapart : ∀ w ∈ W, ∀ w' ∈ W, ∀ c ∈ S, ¬ w ++ [c] <+: w') {w w' : List α}
    {parts parts' : List (α × List α)} (hw : w ∈ W) (hw' : w' ∈ W)
    (hparts : ∀ p ∈ parts, p.1 ∈ S ∧ p.2 ∈ W) (hparts' : ∀ p ∈ parts', p.1 ∈ S ∧ p.2 ∈ W)
    (hlength : parts.length = parts'.length) (h : w ++ joined parts = w' ++ joined parts') :
    w = w' ∧ parts = parts' := by
  induction parts generalizing w w' parts' with
  | nil =>
    obtain rfl := List.length_eq_zero_iff.mp hlength.symm
    exact ⟨by simpa [joined] using h, rfl⟩
  | cons p parts ih =>
    cases parts' with
    | nil => cases hlength
    | cons p' parts' =>
      obtain ⟨c, v⟩ := p
      obtain ⟨c', v'⟩ := p'
      obtain ⟨⟨hc, hv⟩, hrests⟩ := List.forall_mem_cons.mp hparts
      obtain ⟨⟨hc', hv'⟩, hrests'⟩ := List.forall_mem_cons.mp hparts'
      have hlengths : parts.length = parts'.length := Nat.succ_inj.mp hlength
      have htext : w ++ c :: (v ++ joined parts) = w' ++ c' :: (v' ++ joined parts') := h
      obtain ⟨rfl, rfl, hrest⟩ : w = w' ∧ c = c' ∧ v ++ joined parts = v' ++ joined parts' := by
        rcases List.append_eq_append_iff.mp htext with ⟨a, ha, hb⟩ | ⟨a, ha, hb⟩
        · cases a with
          | nil =>
            obtain ⟨rfl, hrest⟩ := List.cons_eq_cons.mp hb
            exact ⟨by rw [ha, List.append_nil], rfl, hrest⟩
          | cons d a =>
            obtain ⟨rfl, -⟩ := List.cons_eq_cons.mp hb
            exact absurd ⟨a, by rw [ha, List.append_assoc]; rfl⟩ (hapart w hw w' hw' c hc)
        · cases a with
          | nil =>
            obtain ⟨rfl, hrest⟩ := List.cons_eq_cons.mp hb
            exact ⟨by rw [ha, List.append_nil], rfl, hrest.symm⟩
          | cons d a =>
            obtain ⟨rfl, -⟩ := List.cons_eq_cons.mp hb
            exact absurd ⟨a, by rw [ha, List.append_assoc]; rfl⟩ (hapart w' hw' w hw c' hc')
      obtain ⟨hsame, hsames⟩ := ih hv hv' hrests hrests' hlengths hrest
      dsimp only at hsame
      rw [hsame, hsames]
      exact ⟨rfl, rfl⟩

end Words
