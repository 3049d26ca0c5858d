import Mathlib.Data.Finset.Card
import Zvault.Js.Numbers
import Zvault.ProjectSync.Metas
import Zvault.Text.AsciiCase
import Zvault.Text.Reading
import Zvault.Text.Separated

/-!
# Slugs are valid, fresh and found

`slugify` gives nothing or a slug, and gives every slug back. The search of
`uniqueSlug` counts in JavaScript numbers, so it is followed round by round: it ends
with the slug that `Text.uniqueSlug` names as long as the numbers it needs are exact.
-/

namespace Zvault.ProjectSync

open Text (slugify uniqueSlug stripEnd stripped collapsed numbered isSlugChar)

/-- `n++`. -/
def nextNumber (n : ℕ) : ℕ := ⌊Js.kept (n + 1)⌋₊

/-- The loop of `uniqueSlug` from a number on, in so many rounds. -/
def searchSlug (base : String) (taken : List String) : ℕ → ℕ → Option String
  | 0, _ => none
  | rounds + 1, n =>
    if numbered base n ∉ taken then some (numbered base n)
    else searchSlug base taken rounds (nextNumber n)

/-- `uniqueSlug`, in so many rounds of its loop. -/
def uniqueSlugWithin (rounds : ℕ) (base : String) (taken : List String) : Option String :=
  if base ∉ taken then some base else searchSlug base taken rounds 2

/-- What the callers of `uniqueSlug` make of a name: its slug, or a word for it. -/
def baseSlug (fold : Char → List Char) (name fallback : String) : String :=
  if slugify fold name = "" then fallback else slugify fold name

/-- What `Slug` asks of the characters. -/
def IsSlugText (cs : List Char) : Prop :=
  ∀ part ∈ cs.splitOn '-', part ≠ [] ∧ part.all isSlugChar = true

section Shape

variable {cs : List Char}

theorem isSlugText_iff : IsSlugText cs ↔
    (cs ≠ [] ∧ cs.head? ≠ some '-' ∧ cs.getLast? ≠ some '-' ∧ ¬ ['-', '-'] <:+: cs) ∧
      ∀ c ∈ cs, c ≠ '-' → isSlugChar c = true := by
  simp only [IsSlugText, List.all_eq_true, forall₂_and]
  rw [Text.forall_splitOn_ne_nil_iff, Text.forall_splitOn_forall_iff]

theorem isSlug_iff {s : String} : IsSlug s ↔ s.toList.length ≤ 64 ∧ IsSlugText s.toList := by
  constructor
  · rintro ⟨hwithin, htext⟩
    exact ⟨String.length_toList ▸ hwithin.2, htext⟩
  · rintro ⟨hlength, htext⟩
    obtain ⟨⟨hne, -⟩, -⟩ := isSlugText_iff.mp htext
    refine ⟨?_, htext⟩
    rw [IsWithin, ← String.length_toList]
    exact ⟨List.length_pos_iff.mpr hne, hlength⟩

theorem isSlugText_append_dash {part rest : List Char} :
    IsSlugText (part ++ '-' :: rest) ↔ IsSlugText part ∧ IsSlugText rest := by
  rw [IsSlugText, List.splitOn_append_cons_self, List.forall_mem_append, IsSlugText, IsSlugText]

theorem isSlugText_of_all (hne : cs ≠ []) (h : ∀ c ∈ cs, isSlugChar c = true) : IsSlugText cs := by
  have hdash : '-' ∉ cs := fun hmem => by
    have := h _ hmem
    revert this
    decide
  rw [IsSlugText, List.splitOn_eq_singleton hdash]
  simpa [hne] using h

theorem stripEnd_prefix (cs : List Char) : stripEnd cs <+: cs := by
  rw [← List.reverse_suffix, stripEnd, List.reverse_reverse]
  exact List.dropWhile_suffix _

theorem getLast?_stripEnd (cs : List Char) : (stripEnd cs).getLast? ≠ some '-' := by
  intro h
  rw [stripEnd, List.getLast?_reverse] at h
  have := Text.head?_dropWhile_not _ _ _ h
  simp at this

theorem head?_of_start {part : List Char} (hpart : part <+: cs) (h : cs.head? ≠ some '-') :
    part.head? ≠ some '-' := by
  obtain ⟨rest, rfl⟩ := hpart
  cases part with
  | nil => simp
  | cons c part => exact h

theorem stripEnd_eq_self (h : cs.getLast? ≠ some '-') : stripEnd cs = cs := by
  have hhead : cs.reverse.dropWhile (· == '-') = cs.reverse := by
    refine Text.dropWhile_eq_self_of_head? fun c hc => ?_
    rw [List.head?_reverse] at hc
    exact beq_eq_false_iff_ne.mpr fun heq => h (heq ▸ hc)
  rw [stripEnd, hhead, List.reverse_reverse]

/-- What does not begin with a dash is not stripped of everything. -/
theorem stripEnd_ne_nil (hne : cs ≠ []) (h : cs.head? ≠ some '-') : stripEnd cs ≠ [] := by
  intro hnil
  cases cs with
  | nil => exact hne rfl
  | cons c cs =>
    rw [stripEnd, List.reverse_eq_nil_iff, List.dropWhile_eq_nil_iff] at hnil
    have hc := hnil c (List.mem_reverse.mpr List.mem_cons_self)
    exact h (congrArg some (beq_iff_eq.mp hc))

theorem mem_of_mem_collapsed {c : Char} (h : c ∈ collapsed cs) : c ∈ cs := by
  induction cs with
  | nil => exact h
  | cons d cs ih =>
    rw [collapsed] at h
    split at h
    · exact List.mem_cons_of_mem _ (ih h)
    · rcases List.mem_cons.mp h with rfl | h
      · exact List.mem_cons_self
      · exact List.mem_cons_of_mem _ (ih h)

/-- No two dashes are left in a row. -/
theorem not_infix_collapsed (cs : List Char) : ¬ ['-', '-'] <:+: collapsed cs := by
  induction cs with
  | nil => simp [collapsed]
  | cons c cs ih =>
    rw [collapsed]
    split
    · exact ih
    · rename_i hnot
      rw [List.infix_cons_iff]
      rintro (hstart | hinside)
      · obtain ⟨hc, hrest⟩ := List.cons_prefix_cons.mp hstart
        refine hnot ⟨hc.symm, ?_⟩
        obtain ⟨rest, hrest⟩ := hrest
        rw [← hrest]
        rfl
      · exact ih hinside

theorem collapsed_eq_self (h : ¬ ['-', '-'] <:+: cs) : collapsed cs = cs := by
  induction cs with
  | nil => rfl
  | cons c cs ih =>
    rw [List.infix_cons_iff, not_or] at h
    rw [collapsed, ih h.2, if_neg]
    rintro ⟨rfl, hhead⟩
    cases cs with
    | nil => cases hhead
    | cons d cs =>
      obtain rfl := Option.some_inj.mp hhead
      exact h.1 (List.cons_prefix_cons.mpr ⟨rfl, List.cons_prefix_cons.mpr ⟨rfl, List.nil_prefix⟩⟩)

end Shape

section Slugify

variable {fold : Char → List Char}

/-- Whatever Unicode makes of a name, its slug is valid if it is not empty. -/
theorem isSlug_slugify (name : String) (h : slugify fold name ≠ "") :
    IsSlug (slugify fold name) := by
  generalize hdashed : ((name.toList.flatMap fold).map fun c => if isSlugChar c then c else '-') =
    dashed
  have hslug : slugify fold name =
      String.ofList (stripEnd ((stripped (collapsed dashed)).take 64)) := by
    rw [← hdashed]
    rfl
  have hchars : ∀ c ∈ dashed, c ≠ '-' → isSlugChar c = true := by
    intro c hc hne
    rw [← hdashed] at hc
    obtain ⟨d, -, rfl⟩ := List.mem_map.mp hc
    by_cases hd : isSlugChar d = true
    · rwa [if_pos hd]
    · exact absurd (if_neg hd) hne
  rw [hslug] at h ⊢
  rw [isSlug_iff, String.toList_ofList, isSlugText_iff]
  have htake := stripEnd_prefix ((stripped (collapsed dashed)).take 64)
  have hinner := htake.trans (List.take_prefix 64 (stripped (collapsed dashed)))
  have hstripped : stripped (collapsed dashed) <+: (collapsed dashed).dropWhile (· == '-') :=
    stripEnd_prefix _
  have hinside : stripEnd ((stripped (collapsed dashed)).take 64) <:+: collapsed dashed :=
    (hinner.trans hstripped).isInfix.trans (List.dropWhile_suffix _).isInfix
  refine ⟨?_, ⟨?_, ?_, getLast?_stripEnd _, fun hdouble => ?_⟩, fun c hc => ?_⟩
  · exact htake.length_le.trans (List.length_take_le _ _)
  · exact fun hnil => h (by rw [hnil])
  · refine head?_of_start (hinner.trans hstripped) fun hhead => ?_
    have := Text.head?_dropWhile_not _ _ _ hhead
    simp at this
  · exact not_infix_collapsed dashed (hdouble.trans hinside)
  · exact hchars c (mem_of_mem_collapsed (hinside.subset hc))

/-- Letters of slugs, digits and dashes are left as they are. -/
def KeepsSlugs (fold : Char → List Char) : Prop :=
  ∀ c, (isSlugChar c = true ∨ c = '-') → fold c = [c]

/-- A slug is its own slug. -/
theorem slugify_of_isSlug (hfold : KeepsSlugs fold) {s : String} (h : IsSlug s) :
    slugify fold s = s := by
  rw [isSlug_iff, isSlugText_iff] at h
  obtain ⟨hlength, ⟨hne, hhead, hlast, hdouble⟩, hchars⟩ := h
  have hchar : ∀ c ∈ s.toList, isSlugChar c = true ∨ c = '-' := fun c hc =>
    (em (c = '-')).symm.imp_left (hchars c hc)
  have hflat : s.toList.flatMap fold = s.toList := by
    rw [List.flatMap_congr fun c hc => hfold c (hchar c hc), List.flatMap_singleton']
  have hmap : (s.toList.map fun c => if isSlugChar c then c else '-') = s.toList := by
    refine (List.map_congr_left fun c hc => ?_).trans (List.map_id _)
    rcases hchar c hc with hslug | rfl
    · rw [if_pos hslug]
      rfl
    · exact if_neg (by decide)
  have hdrop : s.toList.dropWhile (· == '-') = s.toList :=
    Text.dropWhile_eq_self_of_head? fun c hc =>
      beq_eq_false_iff_ne.mpr fun heq => hhead (heq ▸ hc)
  rw [slugify, hflat, hmap, collapsed_eq_self hdouble, stripped, hdrop, stripEnd_eq_self hlast,
    List.take_of_length_le hlength, stripEnd_eq_self hlast, String.ofList_toList]

theorem slugify_empty : slugify fold "" = "" := rfl

theorem slugify_slugify (hfold : KeepsSlugs fold) (name : String) :
    slugify fold (slugify fold name) = slugify fold name := by
  by_cases h : slugify fold name = ""
  · rw [h, slugify_empty]
  · exact slugify_of_isSlug hfold (isSlug_slugify name h)

theorem isSlug_baseSlug {name fallback : String} (h : IsSlug fallback) :
    IsSlug (baseSlug fold name fallback) := by
  unfold baseSlug
  split
  · exact h
  · rename_i hne
    exact isSlug_slugify name hne

end Slugify

section Search

variable {base : String} {taken : List String}

theorem toList_numbered (base : String) (n : ℕ) : ∃ part,
    part = stripEnd (base.toList.take (64 - (1 + (Nat.toDigits 10 n).length))) ∧
      (numbered base n).toList = part ++ '-' :: Nat.toDigits 10 n := by
  have hdigits : (toString n).toList = Nat.toDigits 10 n := Nat.toList_repr
  have hlength : ("-" ++ toString n).length = 1 + (Nat.toDigits 10 n).length := by
    rw [String.length_append, ← hdigits, String.length_toList]
    rfl
  refine ⟨_, rfl, ?_⟩
  simp only [numbered, hlength, String.toList_append, String.toList_ofList, hdigits]
  rfl

theorem isDigit_of_mem_digits {n : ℕ} {c : Char} (hc : c ∈ Nat.toDigits 10 n) : c.isDigit = true :=
  Nat.isDigit_of_mem_toDigits (by decide) (by decide) hc

theorem dash_not_mem_digits (n : ℕ) : '-' ∉ Nat.toDigits 10 n := fun h => by
  have := isDigit_of_mem_digits h
  revert this
  decide

/-- A base with a number is a slug, as long as there is room for the number. -/
theorem isSlug_numbered (hbase : IsSlug base) {n : ℕ} (hn : n ≤ 2 ^ 53) :
    IsSlug (numbered base n) := by
  obtain ⟨part, hpart, htext⟩ := toList_numbered base n
  obtain ⟨hlength, hslug⟩ := isSlug_iff.mp hbase
  obtain ⟨⟨hne, hhead, -, hdouble⟩, hchars⟩ := isSlugText_iff.mp hslug
  have hdigits : (Nat.toDigits 10 n).length ≤ 16 :=
    (Nat.length_toDigits_le_iff (by decide) (by decide)).mpr (by omega)
  obtain ⟨c, rest, hcons⟩ := List.exists_cons_of_ne_nil hne
  obtain ⟨room, hroom⟩ : ∃ room, 64 - (1 + (Nat.toDigits 10 n).length) = room + 1 :=
    Nat.exists_eq_add_one.mpr (by omega)
  have htake := stripEnd_prefix (base.toList.take (64 - (1 + (Nat.toDigits 10 n).length)))
  rw [← hpart] at htake
  have hstart : part <+: base.toList := htake.trans (List.take_prefix _ _)
  have hpartne : part ≠ [] := by
    rw [hpart]
    refine stripEnd_ne_nil ?_ (head?_of_start (List.take_prefix _ _) hhead)
    rw [hroom, hcons]
    exact List.cons_ne_nil _ _
  rw [isSlug_iff, htext, isSlugText_append_dash]
  refine ⟨?_, isSlugText_iff.mpr ⟨⟨hpartne, head?_of_start hstart hhead, ?_, ?_⟩, ?_⟩, ?_⟩
  · have hle := htake.length_le.trans (List.length_take_le _ _)
    rw [List.length_append, List.length_cons]
    omega
  · rw [hpart]
    exact getLast?_stripEnd _
  · exact fun h => hdouble (h.trans hstart.isInfix)
  · exact fun c hc => hchars c (hstart.subset hc)
  · refine isSlugText_of_all Nat.toDigits_ne_nil fun c hc => ?_
    rw [isSlugChar, isDigit_of_mem_digits hc, Bool.or_true]

/-- Different numbers make different slugs. -/
theorem numbered_injective (base : String) : Function.Injective (numbered base) := by
  intro n m h
  obtain ⟨part, -, htext⟩ := toList_numbered base n
  obtain ⟨part', -, htext'⟩ := toList_numbered base m
  rw [h, htext'] at htext
  have hdigits := (Text.append_inj_of_last (dash_not_mem_digits m) (dash_not_mem_digits n) htext).2
  have hread (k : ℕ) : Nat.ofDigitChars 10 (Nat.toDigits 10 k) 0 = k :=
    Nat.ofDigitChars_toDigits (by decide) (by decide)
  rw [← hread n, ← hdigits, hread]

theorem nextNumber_eq {n : ℕ} (h : n < 2 ^ 53) : nextNumber n = n + 1 := by
  have hkept : Js.kept ((n : ℚ) + 1) = (n + 1 : ℕ) := by
    rcases Nat.lt_or_eq_of_le (Nat.succ_le_of_lt h) with hlt | heq
    · rw [← Js.kept_natCast hlt, Nat.cast_succ]
    · have hcast : (n : ℚ) + 1 = 2 ^ 53 := by exact_mod_cast heq
      rw [hcast, Js.kept_two_pow, ← hcast, Nat.cast_succ]
  rw [nextNumber, hkept, Nat.floor_natCast]

/-- The loop ends at the first number whose slug is free. -/
theorem searchSlug_eq {k n : ℕ} (htaken : ∀ j < k, numbered base (n + j) ∈ taken)
    (hfree : numbered base (n + k) ∉ taken) (hsmall : n + k ≤ 2 ^ 53) :
    searchSlug base taken (k + 1) n = some (numbered base (n + k)) := by
  induction k generalizing n with
  | zero => exact if_pos hfree
  | succ k ih =>
    have hfirst : numbered base n ∈ taken := htaken 0 (Nat.succ_pos k)
    have hstep : n + (k + 1) = n + 1 + k := by omega
    rw [searchSlug, if_neg (not_not_intro hfirst), nextNumber_eq (by omega), hstep]
    refine ih (fun j hj => ?_) (hstep ▸ hfree) (by omega)
    have hnext := htaken (j + 1) (by omega)
    rwa [show n + (j + 1) = n + 1 + j by omega] at hnext

/-- Among as many numbers as slugs are taken, and one, one is free. -/
theorem exists_numbered_not_mem (base : String) (taken : List String) :
    ∃ k ≤ taken.toFinset.card, numbered base (2 + k) ∉ taken := by
  by_contra hall
  push Not at hall
  have hsubset : (Finset.range (taken.toFinset.card + 1)).image (fun k => numbered base (2 + k)) ⊆
      taken.toFinset := by
    intro slug hslug
    obtain ⟨k, hk, rfl⟩ := Finset.mem_image.mp hslug
    exact List.mem_toFinset.mpr (hall k (Nat.lt_succ_iff.mp (Finset.mem_range.mp hk)))
  have hcard := Finset.card_le_card hsubset
  rw [Finset.card_image_of_injective _ fun k k' h =>
    Nat.add_left_cancel (numbered_injective base h), Finset.card_range] at hcard
  omega

/-- The first number that is free is not far. -/
theorem exists_first_numbered (base : String) (taken : List String) :
    ∃ k ≤ taken.toFinset.card, numbered base (2 + k) ∉ taken ∧
      ∀ j < k, numbered base (2 + j) ∈ taken := by
  obtain ⟨k, hk, hfree⟩ := exists_numbered_not_mem base taken
  have hex : ∃ k, numbered base (2 + k) ∉ taken := ⟨k, hfree⟩
  exact ⟨Nat.find hex, (Nat.find_min' hex hfree).trans hk, Nat.find_spec hex,
    fun j hj => not_not.mp (Nat.find_min hex hj)⟩

theorem uniqueSlug_eq_numbered {k : ℕ} (hbase : base ∈ taken) (hk : k ≤ taken.length)
    (hfree : numbered base (2 + k) ∉ taken) (hbefore : ∀ j < k, numbered base (2 + j) ∈ taken) :
    uniqueSlug base taken = numbered base (2 + k) := by
  have hfind : (List.range (taken.length + 1)).find?
      ((fun slug => decide (slug ∉ taken)) ∘ fun n => numbered base (n + 2)) = some k := by
    refine List.find?_range_eq_some.mpr ⟨?_, List.mem_range.mpr (by omega), fun j hj => ?_⟩
    · simpa [Nat.add_comm] using hfree
    · simpa [Nat.add_comm] using hbefore j hj
  rw [uniqueSlug, if_neg (not_not_intro hbase), List.find?_map, hfind, Nat.add_comm]
  rfl

/-- The loop of `uniqueSlug` ends with the slug of `Text.uniqueSlug`. -/
theorem exists_uniqueSlugWithin_eq (base : String) (hcard : taken.toFinset.card < 2 ^ 53 - 1) :
    ∃ rounds, uniqueSlugWithin rounds base taken = some (uniqueSlug base taken) := by
  by_cases hbase : base ∉ taken
  · exact ⟨0, by rw [uniqueSlugWithin, uniqueSlug, if_pos hbase, if_pos hbase]⟩
  obtain ⟨k, hk, hfree, hbefore⟩ := exists_first_numbered base taken
  have hk' : k ≤ taken.length := hk.trans (List.toFinset_card_le taken)
  refine ⟨k + 1, ?_⟩
  rw [uniqueSlugWithin, if_neg hbase, searchSlug_eq hbefore hfree (by omega),
    uniqueSlug_eq_numbered (not_not.mp hbase) hk' hfree hbefore]

theorem uniqueSlug_fresh (hbase : IsSlug base) (hcard : taken.toFinset.card < 2 ^ 53 - 1) :
    IsSlug (uniqueSlug base taken) ∧ uniqueSlug base taken ∉ taken := by
  by_cases hfree : base ∉ taken
  · rw [uniqueSlug, if_pos hfree]
    exact ⟨hbase, hfree⟩
  obtain ⟨k, hk, hfirst, hbefore⟩ := exists_first_numbered base taken
  have hk' : k ≤ taken.length := hk.trans (List.toFinset_card_le taken)
  rw [uniqueSlug_eq_numbered (not_not.mp hfree) hk' hfirst hbefore]
  exact ⟨isSlug_numbered hbase (by omega), hfirst⟩

/-- `uniqueSlug` ends, with a slug that is not taken. -/
theorem exists_uniqueSlugWithin (hbase : IsSlug base) (hcard : taken.toFinset.card < 2 ^ 53 - 1) :
    ∃ rounds slug, uniqueSlugWithin rounds base taken = some slug ∧ IsSlug slug ∧ slug ∉ taken := by
  obtain ⟨rounds, hrounds⟩ := exists_uniqueSlugWithin_eq base hcard
  exact ⟨rounds, _, hrounds, uniqueSlug_fresh hbase hcard⟩

end Search

/-- **Slugs are valid, fresh and found.** Whatever Unicode makes of other characters, the slug of a
name is empty or valid and is its own slug. Of every name, with another slug for an empty one,
`uniqueSlug` makes a valid slug that is not taken, and so it does of every valid slug, unless
`2 ^ 53 - 1` slugs are taken. -/
theorem slugs_fresh {fold : Char → List Char} (hfold : KeepsSlugs fold) :
    (∀ name, slugify fold name = "" ∨ IsSlug (slugify fold name)) ∧
    (∀ name, slugify fold (slugify fold name) = slugify fold name) ∧
    (∀ name fallback taken, IsSlug fallback → taken.toFinset.card < 2 ^ 53 - 1 →
      ∃ rounds slug, uniqueSlugWithin rounds (baseSlug fold name fallback) taken = some slug ∧
        IsSlug slug ∧ slug ∉ taken) ∧
    ∀ base taken, IsSlug base → taken.toFinset.card < 2 ^ 53 - 1 →
      ∃ rounds slug, uniqueSlugWithin rounds base taken = some slug ∧ IsSlug slug ∧ slug ∉ taken :=
  ⟨fun name => (em _).imp_right (isSlug_slugify name), slugify_slugify hfold,
    fun _ _ _ hfallback hcard => exists_uniqueSlugWithin (isSlug_baseSlug hfallback) hcard,
    fun _ _ hbase hcard => exists_uniqueSlugWithin hbase hcard⟩

/-- A fold that knows no more than ASCII. -/
theorem slugs_fresh_ascii : ∃ rounds slug,
    uniqueSlugWithin rounds (baseSlug (fun c => [c.toLower]) "Payments API" "project")
      ["payments-api"] = some slug ∧ IsSlug slug ∧ slug ∉ ["payments-api"] := by
  have hfold : KeepsSlugs fun c => [c.toLower] := by
    intro c hc
    refine congrArg (fun d => [d]) (Text.toLower_eq_self (Bool.eq_false_iff.mpr fun hupper => ?_))
    rw [Text.isUpper_iff] at hupper
    rcases hc with hslug | rfl
    · rw [isSlugChar, Bool.or_eq_true, Text.isLower_iff, Text.isDigit_iff] at hslug
      omega
    · revert hupper
      decide
  have hfallback : IsSlug "project" := by decide
  have hcard : (["payments-api"] : List String).toFinset.card < 2 ^ 53 - 1 := by decide
  exact (slugs_fresh hfold).2.2.1 _ _ _ hfallback hcard

end Zvault.ProjectSync
