import Mathlib.Data.List.TakeWhile
import Zvault.Text.Trim

/-!
# Slugs

`slugify` of `projects.ts` and `uniqueSlug` of `model.ts`. What Unicode makes of a
character is left open: its compatibility decomposition without combining marks, in
lower case.
-/

namespace Text

/-- A lower-case letter or a digit. -/
def isSlugChar (c : Char) : Bool := c.isLower || c.isDigit

/-- Runs of dashes made one. -/
def collapsed : List Char → List Char
  | [] => []
  | c :: cs =>
    if c = '-' ∧ (collapsed cs).head? = some '-' then collapsed cs else c :: collapsed cs

def stripEnd (cs : List Char) : List Char := (cs.reverse.dropWhile (· == '-')).reverse

/-- Dashes stripped from both ends. -/
def stripped (cs : List Char) : List Char := stripEnd (cs.dropWhile (· == '-'))

/-- `slugify`. -/
def slugify (fold : Char → List Char) (name : String) : String :=
  let dashed := (name.toList.flatMap fold).map fun c => if isSlugChar c then c else '-'
  String.ofList (stripEnd ((stripped (collapsed dashed)).take 64))

/-- A base with a number. -/
def numbered (base : String) (n : ℕ) : String :=
  let suffix := "-" ++ toString n
  String.ofList (stripEnd (base.toList.take (64 - suffix.length))) ++ suffix

/-- `uniqueSlug`. Among as many numbers as there are slugs taken, and one, one is free. -/
def uniqueSlug (base : String) (taken : List String) : String :=
  if base ∉ taken then base
  else (((List.range (taken.length + 1)).map fun n => numbered base (n + 2)).find?
    (· ∉ taken)).getD base

theorem stripEnd_append {cs ds : List Char} (h : ∀ d ∈ ds, d = '-') :
    stripEnd (cs ++ ds) = stripEnd cs := by
  have hdashes : ds.reverse.dropWhile (· == '-') = [] :=
    List.dropWhile_eq_nil_iff.mpr fun d hd => by simp [h d (List.mem_reverse.mp hd)]
  rw [stripEnd, List.reverse_append, List.dropWhile_append, hdashes]
  rfl

theorem stripped_append {cs ds : List Char} (h : ∀ d ∈ ds, d = '-') :
    stripped (cs ++ ds) = stripped cs := by
  have hdashes : ds.dropWhile (· == '-') = [] :=
    List.dropWhile_eq_nil_iff.mpr fun d hd => by simp [h d hd]
  rw [stripped, List.dropWhile_append, hdashes]
  split
  · rename_i hempty
    rw [stripped, List.isEmpty_iff.mp hempty]
  · exact stripEnd_append h

/-- A dash before a text is stripped. -/
theorem stripped_collapsed_cons (cs : List Char) :
    stripped (collapsed ('-' :: cs)) = stripped (collapsed cs) := by
  rw [collapsed]
  split
  · rfl
  · rw [stripped, List.dropWhile_cons_of_pos rfl, stripped]

/-- A dash after a text is a dash after what is left of it, or none. -/
theorem collapsed_append_dash (cs : List Char) :
    collapsed (cs ++ ['-']) = collapsed cs ∨ collapsed (cs ++ ['-']) = collapsed cs ++ ['-'] := by
  induction cs with
  | nil => exact Or.inr rfl
  | cons c cs ih =>
    simp only [List.cons_append, collapsed]
    rcases ih with ih | ih
    · rw [ih]
      exact Or.inl rfl
    · rw [ih]
      cases hrest : collapsed cs with
      | nil =>
        by_cases hc : c = '-'
        · exact Or.inl (by simp [hc])
        · exact Or.inr (by simp [hc])
      | cons d ds =>
        by_cases hboth : c = '-' ∧ d = '-'
        · exact Or.inr (by simp [hboth])
        · exact Or.inr (by simp [hboth])

theorem stripped_collapsed_append {ds : List Char} (h : ∀ d ∈ ds, d = '-') :
    ∀ cs, stripped (collapsed (cs ++ ds)) = stripped (collapsed cs) := by
  induction ds with
  | nil => simp
  | cons d ds ih =>
    intro cs
    obtain rfl := h d List.mem_cons_self
    rw [List.append_cons, ih (fun d hd => h d (List.mem_cons_of_mem _ hd))]
    rcases collapsed_append_dash cs with hsame | hdash
    · rw [hsame]
    · rw [hdash, stripped_append (by simp)]

theorem stripped_collapsed_prepend {ds : List Char} (h : ∀ d ∈ ds, d = '-') (cs : List Char) :
    stripped (collapsed (ds ++ cs)) = stripped (collapsed cs) := by
  induction ds with
  | nil => rfl
  | cons d ds ih =>
    obtain rfl := h d List.mem_cons_self
    rw [List.cons_append, stripped_collapsed_cons, ih fun d hd => h d (List.mem_cons_of_mem _ hd)]

/-- White space around a name does not change its slug: there is no letter or digit in it. -/
theorem slugify_trim {fold : Char → List Char}
    (hfold : ∀ c, isWhitespace c = true → ∀ d ∈ fold c, isSlugChar d = false) (name : String) :
    slugify fold (trim name) = slugify fold name := by
  have hdashes : ∀ {cs : List Char}, (∀ c ∈ cs, isWhitespace c = true) →
      ∀ d ∈ (cs.flatMap fold).map (fun c => if isSlugChar c then c else '-'), d = '-' := by
    intro cs hcs d hd
    obtain ⟨e, he, rfl⟩ := List.mem_map.mp hd
    obtain ⟨c, hc, he⟩ := List.mem_flatMap.mp he
    simp [hfold c (hcs c hc) e he]
  obtain ⟨before, after, hname, hbefore, hafter⟩ := exists_append_trimmed name.toList
  simp only [slugify, trim, String.toList_ofList]
  conv_rhs => rw [hname]
  simp only [List.flatMap_append, List.map_append]
  rw [stripped_collapsed_append (hdashes hafter), stripped_collapsed_prepend (hdashes hbefore)]

end Text
