import Mathlib.Data.List.Nodup
import Mathlib.Data.List.Perm.Subperm

/-!
# Walks that end where they come back

A walk goes from place to place until there is no next one, or the next one was
met before. Two loops over a walk are told by the list of what it meets: the one
that looks for the first place of a kind, and the one that gathers the places up
to the first that is closed.
-/

namespace Walks

variable {α : Type*} [DecidableEq α] (next : α → Option α)

/-- What a walk meets that has met `seen` before. -/
def follow : ℕ → List α → Option α → List α
  | 0, _, _ => []
  | _ + 1, _, none => []
  | n + 1, seen, some a => if a ∈ seen then [] else a :: follow n (a :: seen) (next a)

/-- The first place of a kind. -/
def search (p : α → Bool) : ℕ → List α → Option α → Option α
  | 0, _, _ => none
  | _ + 1, _, none => none
  | n + 1, seen, some a =>
    if a ∈ seen then none else if p a then some a else search p n (a :: seen) (next a)

/-- The places up to the first that is closed, behind those gathered before. -/
def gather (isOpen : α → Bool) : ℕ → List α → Option α → List α
  | 0, out, _ => out
  | _ + 1, out, none => out
  | n + 1, out, some a =>
    if a ∈ out then out
    else if isOpen a then gather isOpen n (out ++ [a]) (next a) else out

variable {next}

theorem search_eq (p : α → Bool) (n : ℕ) (seen : List α) (start : Option α) :
    search next p n seen start = (follow next n seen start).find? p := by
  induction n generalizing seen start with
  | zero => rfl
  | succ n ih =>
    cases start with
    | none => rfl
    | some a =>
      simp only [search, follow]
      split
      · rfl
      · rw [List.find?_cons, ih]
        cases p a <;> rfl

/-- Only what was met counts, not the order it was met in. -/
theorem follow_congr {seen seen' : List α} (h : ∀ a, a ∈ seen ↔ a ∈ seen') (n : ℕ)
    (start : Option α) : follow next n seen start = follow next n seen' start := by
  induction n generalizing seen seen' start with
  | zero => rfl
  | succ n ih =>
    cases start with
    | none => rfl
    | some a =>
      have hmet : ∀ b, b ∈ a :: seen ↔ b ∈ a :: seen' := fun b => by simp [h b]
      simp only [follow, h a, ih hmet]

theorem gather_eq (isOpen : α → Bool) (n : ℕ) (out : List α) (start : Option α) :
    gather next isOpen n out start = out ++ (follow next n out start).takeWhile isOpen := by
  induction n generalizing out start with
  | zero => simp [gather, follow]
  | succ n ih =>
    cases start with
    | none => simp [gather, follow]
    | some a =>
      simp only [gather, follow]
      split
      · simp
      · have hmet : ∀ b, b ∈ out ++ [a] ↔ b ∈ a :: out := fun b => by simp [or_comm]
        rw [List.takeWhile_cons, ih, follow_congr hmet]
        cases isOpen a <;> simp

/-- A walk meets no place twice. -/
theorem follow_nodup (n : ℕ) (seen : List α) (start : Option α) :
    (follow next n seen start).Nodup ∧ ∀ a ∈ follow next n seen start, a ∉ seen := by
  induction n generalizing seen start with
  | zero => simp [follow]
  | succ n ih =>
    cases start with
    | none => simp [follow]
    | some a =>
      simp only [follow]
      split
      · simp
      · rename_i hnew
        obtain ⟨hnodup, hfresh⟩ := ih (a :: seen) (next a)
        constructor
        · exact List.nodup_cons.mpr ⟨fun h => hfresh a h List.mem_cons_self, hnodup⟩
        · intro b hb
          rcases List.mem_cons.mp hb with rfl | hb
          · exact hnew
          · exact fun h => hfresh b hb (List.mem_cons_of_mem _ h)

/-- Steps enough for every place that has a next one, and two more, are enough for the walk. -/
theorem follow_succ {places : List α} (hplaces : ∀ a, (next a).isSome = true → a ∈ places) {n : ℕ}
    {seen : List α} (hnodup : seen.Nodup) (hseen : seen ⊆ places)
    (hn : places.length + 2 ≤ n + seen.length) (start : Option α) :
    follow next (n + 1) seen start = follow next n seen start := by
  induction n generalizing seen start with
  | zero =>
    have hfew : seen.length ≤ places.length := (List.subperm_of_subset hnodup hseen).length_le
    omega
  | succ n ih =>
    cases start with
    | none => rfl
    | some a =>
      rw [follow, follow]
      split
      · rfl
      · rename_i hnew
        congr 1
        by_cases ha : a ∈ places
        · refine ih (List.nodup_cons.mpr ⟨hnew, hnodup⟩) ?_ ?_ _
          · exact List.cons_subset.mpr ⟨ha, hseen⟩
          · simp only [List.length_cons]
            omega
        · have hend : next a = none := by
            cases hnext : next a with
            | none => rfl
            | some b => exact absurd (hplaces a (by simp [hnext])) ha
          rw [hend]
          cases n <;> rfl

omit [DecidableEq α] in
/-- Looking only at places of which some are left out finds the first of all, or none: unless the
first of all is left out and a later one is not. -/
theorem find?_and_iff {l : List α} (p kept : α → Bool) :
    (l.find? (fun a => p a && kept a) = l.find? p ∨ l.find? (fun a => p a && kept a) = none) ↔
      ¬ ∃ before a after, l = before ++ a :: after ∧ (∀ b ∈ before, p b = false) ∧
        (p a = true ∧ kept a = false) ∧ ∃ b ∈ after, p b = true ∧ kept b = true := by
  constructor
  · rintro hfound ⟨before, a, after, rfl, hbefore, ⟨ha, hout⟩, b, hb, hp, hkept⟩
    have hnone : before.find? p = none := List.find?_eq_none.mpr fun c hc => by simp [hbefore c hc]
    have hall : (before ++ a :: after).find? p = some a := by
      rw [List.find?_append, hnone, Option.none_or, List.find?_cons_of_pos ha]
    rcases hfound with hsame | hempty
    · have hmem := List.find?_some (hsame.trans hall)
      simp [hout] at hmem
    · have := List.find?_eq_none.mp hempty b (by simp [hb])
      simp [hp, hkept] at this
  · intro hnot
    cases hall : l.find? p with
    | none =>
      refine Or.inl (List.find?_eq_none.mpr fun a ha => ?_)
      simp [List.find?_eq_none.mp hall a ha]
    | some a =>
      obtain ⟨ha, before, after, rfl, hbefore⟩ := List.find?_eq_some_iff_append.mp hall
      have hnone : before.find? (fun a => p a && kept a) = none :=
        List.find?_eq_none.mpr fun c hc => by simpa using fun h => absurd h (by simpa using hbefore c hc)
      rw [List.find?_append, hnone, Option.none_or]
      by_cases hkept : kept a = true
      · exact Or.inl (List.find?_cons_of_pos (by simp [ha, hkept]))
      · refine Or.inr ?_
        rw [List.find?_cons_of_neg (by simp [hkept])]
        refine List.find?_eq_none.mpr fun b hb hboth => hnot ?_
        refine ⟨before, a, after, rfl, fun c hc => by simpa using hbefore c hc,
          ⟨ha, by simpa using hkept⟩, b, hb, ?_⟩
        simpa using hboth

omit [DecidableEq α] in
/-- Looking only at the places up to the first that is closed finds the same one: unless nothing
is found before it and something is from it on. -/
theorem find?_takeWhile_iff {l : List α} (p isOpen : α → Bool) :
    (l.takeWhile isOpen).find? p = l.find? p ↔
      ¬ ∃ before a after, l = before ++ a :: after ∧ (∀ b ∈ before, p b = false) ∧
        isOpen a = false ∧ ∃ b ∈ a :: after, p b = true := by
  induction l with
  | nil => simp
  | cons c l ih =>
    cases hopen : isOpen c with
    | false =>
      rw [List.takeWhile_cons_of_neg (by simp [hopen]), List.find?_nil, eq_comm,
        List.find?_eq_none]
      constructor
      · rintro hnone ⟨before, a, after, hl, -, -, b, hb, hp⟩
        exact hnone b (hl ▸ List.mem_append_right _ hb) hp
      · intro hnot b hb hp
        exact hnot ⟨[], c, l, rfl, by simp, hopen, b, hb, hp⟩
    | true =>
      rw [List.takeWhile_cons_of_pos hopen]
      cases hp : p c with
      | true =>
        simp only [List.find?_cons_of_pos hp, true_iff]
        rintro ⟨before, a, after, hl, hbefore, ha, -⟩
        cases before with
        | nil =>
          obtain ⟨rfl, -⟩ := List.cons.inj hl
          simp [hopen] at ha
        | cons d before =>
          obtain ⟨rfl, -⟩ := List.cons.inj hl
          simp [hbefore c List.mem_cons_self] at hp
      | false =>
        rw [List.find?_cons_of_neg (by simp [hp]), List.find?_cons_of_neg (by simp [hp]), ih,
          not_iff_not]
        constructor
        · rintro ⟨before, a, after, rfl, hbefore, hrest⟩
          exact ⟨c :: before, a, after, rfl, List.forall_mem_cons.mpr ⟨hp, hbefore⟩, hrest⟩
        · rintro ⟨before, a, after, hl, hbefore, ha, hrest⟩
          cases before with
          | nil =>
            obtain ⟨rfl, -⟩ := List.cons.inj hl
            simp [hopen] at ha
          | cons d before =>
            obtain ⟨rfl, rfl⟩ := List.cons.inj hl
            exact ⟨before, a, after, rfl, fun b hb => hbefore b (List.mem_cons_of_mem _ hb), ha, hrest⟩

end Walks
