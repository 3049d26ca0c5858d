import Mathlib.Logic.Relation
import Zvault.Walks.Follow

/-!
# Walks that never come back

Where no walk comes back to a place it has left, the first place of a kind is told
without the list of places met. Places are bypassed, and sent elsewhere, without
closing a walk.
-/

namespace Walks

open Relation

variable {α : Type*} {next next' : α → Option α} {p p' : α → Bool} {a b c d : α}

/-- One step of a walk. -/
def Step (next : α → Option α) (a b : α) : Prop := next a = some b

/-- No walk comes back. -/
def Acyclic (next : α → Option α) : Prop := ∀ a, ¬ TransGen (Step next) a a

/-- Steps that walks took before close no walk. -/
theorem Acyclic.of_transGen (h : Acyclic next)
    (hstep : ∀ a b, next' a = some b → TransGen (Step next) a b) : Acyclic next' := by
  have hold : ∀ {a b}, TransGen (Step next') a b → TransGen (Step next) a b := by
    intro a b hab
    induction hab with
    | single hab => exact hstep _ _ hab
    | tail _ hbc ih => exact ih.trans (hstep _ _ hbc)
  exact fun a ha => h a (hold ha)

/-- A place is sent to one that no walk leads back from. -/
theorem Acyclic.redirect (h : Acyclic next) (hother : ∀ a, a ≠ d → next' a = next a)
    (hback : ∀ b, next' d = some b → ¬ ReflTransGen (Step next) b d) : Acyclic next' := by
  -- up to its first arrival at `d` a walk takes the steps it took before
  have harrive : ∀ {b}, ReflTransGen (Step next') b d → ReflTransGen (Step next) b d := by
    intro b hb
    induction hb using ReflTransGen.head_induction_on with
    | refl => exact .refl
    | @head b c hbc _ ih =>
      by_cases hbd : b = d
      · rw [hbd]
      · exact ih.head ((hother b hbd).symm.trans hbc)
  have hnoloop : ¬ TransGen (Step next') d d := by
    intro hloop
    obtain ⟨b, hdb, hbd⟩ := TransGen.head'_iff.mp hloop
    exact hback b hdb (harrive hbd)
  have hwalk : ∀ {a c}, TransGen (Step next') a c → TransGen (Step next) a c ∨
      ReflTransGen (Step next') a d ∧ ReflTransGen (Step next') d c := by
    intro a c hac
    induction hac with
    | @single c hac =>
      by_cases had : a = d
      · subst had
        exact Or.inr ⟨.refl, .single hac⟩
      · exact Or.inl (.single ((hother a had).symm.trans hac))
    | @tail b c hab hbc ih =>
      by_cases hbd : b = d
      · subst hbd
        exact Or.inr ⟨hab.to_reflTransGen, .single hbc⟩
      · rcases ih with hold | ⟨had, hdb⟩
        · exact Or.inl (hold.tail ((hother b hbd).symm.trans hbc))
        · exact Or.inr ⟨had, hdb.tail hbc⟩
  intro a ha
  rcases hwalk ha with hold | ⟨had, hda⟩
  · exact h a hold
  · exact hnoloop ((TransGen.trans_right hda ha).trans_left had)

/-- The first place of a kind on a walk. -/
inductive First (next : α → Option α) (p : α → Bool) : α → α → Prop
  | here {a : α} (ha : p a = true) : First next p a a
  | later {a b c : α} (ha : p a = false) (hstep : next a = some b) (hrest : First next p b c) :
      First next p a c

theorem First.unique (h : First next p a b) (h' : First next p a c) : b = c := by
  induction h with
  | here ha =>
    cases h' with
    | here => rfl
    | later ha' => exact absurd ha (by simp [ha'])
  | later ha hstep _ ih =>
    cases h' with
    | here ha' => exact absurd ha' (by simp [ha])
    | later _ hstep' hrest' =>
      obtain rfl := Option.some.inj (hstep.symm.trans hstep')
      exact ih hrest'

theorem First.kind (h : First next p a b) : p b = true := by
  induction h with
  | here ha => exact ha
  | later _ _ _ ih => exact ih

theorem First.reaches (h : First next p a b) : ReflTransGen (Step next) a b := by
  induction h with
  | here => exact .refl
  | later _ hstep _ ih => exact ih.head hstep

section Bypass

/-- `d` is bypassed: what led to it leads to where it led. -/
structure Bypasses (next : α → Option α) (p : α → Bool) (d : α) (next' : α → Option α)
    (p' : α → Bool) : Prop where
  heir : ∀ a, a ≠ d → next a = some d → next' a = next d
  other : ∀ a, a ≠ d → next a ≠ some d → next' a = next a
  kind : ∀ a, a ≠ d → p' a = p a

variable (h : Bypasses next p d next' p')
include h

/-- What is found past `d`, or without meeting it, is still found. -/
theorem Bypasses.first_of_ne (hd : next d ≠ some d) (hfirst : First next p a c) (hcd : c ≠ d) :
    (a ≠ d → First next' p' a c) ∧ (a = d → ∃ q, next d = some q ∧ First next' p' q c) := by
  induction hfirst with
  | @here a ha =>
    exact ⟨fun had => .here ((h.kind a had).trans ha), fun had => absurd had hcd⟩
  | @later a b c ha hstep _ ih =>
    obtain ⟨ih, ihd⟩ := ih hcd
    constructor
    · intro had
      have ha' : p' a = false := (h.kind a had).trans ha
      by_cases hbd : b = d
      · obtain ⟨q, hq, hrest⟩ := ihd hbd
        exact .later ha' ((h.heir a had (hbd ▸ hstep)).trans hq) hrest
      · have hnot : next a ≠ some d := fun hnext => hbd (Option.some.inj (hstep.symm.trans hnext))
        exact .later ha' ((h.other a had hnot).trans hstep) (ih hbd)
    · rintro rfl
      exact ⟨b, hstep, ih fun hbd => hd (hbd ▸ hstep)⟩

/-- What led to `d` leads to what is found from where `d` led. -/
theorem Bypasses.first_of_heir {q : α} (hfirst : First next p a d) (had : a ≠ d)
    (hq : next d = some q) (hrest : First next' p' q c) : First next' p' a c := by
  generalize hend : d = e at hfirst
  induction hfirst with
  | here => exact absurd hend.symm had
  | @later a b e ha hstep _ ih =>
    subst hend
    have ha' : p' a = false := (h.kind a had).trans ha
    by_cases hbd : b = d
    · exact .later ha' ((h.heir a had (hbd ▸ hstep)).trans hq) hrest
    · have hnot : next a ≠ some d := fun hnext => hbd (Option.some.inj (hstep.symm.trans hnext))
      exact .later ha' ((h.other a had hnot).trans hstep) (ih hbd rfl)

theorem Bypasses.first_iff (hacyclic : Acyclic next) (had : a ≠ d) :
    First next' p' a c ↔ (First next p a c ∧ c ≠ d) ∨
      (First next p a d ∧ ∃ q, next d = some q ∧ First next p q c) := by
  have hback : ∀ {q}, next d = some q → ¬ First next p q d := fun hq hfirst =>
    hacyclic d (TransGen.head' hq hfirst.reaches)
  have hself : next d ≠ some d := fun hd => hacyclic d (.single hd)
  constructor
  · intro hfirst
    induction hfirst with
    | @here a ha => exact Or.inl ⟨.here ((h.kind a had).symm.trans ha), had⟩
    | @later a b c ha hstep _ ih =>
      have ha' : p a = false := (h.kind a had).symm.trans ha
      by_cases hnext : next a = some d
      · have hb : next d = some b := (h.heir a had hnext).symm.trans hstep
        have hbd : b ≠ d := fun hbd => hself (hbd ▸ hb)
        rcases ih hbd with ⟨hbc, hcd⟩ | ⟨hbd', -⟩
        · cases hkind : p d with
          | true => exact Or.inr ⟨.later ha' hnext (.here hkind), b, hb, hbc⟩
          | false => exact Or.inl ⟨.later ha' hnext (.later hkind hb hbc), hcd⟩
        · exact absurd hbd' (hback hb)
      · have hb : next a = some b := (h.other a had hnext).symm.trans hstep
        have hbd : b ≠ d := fun hbd => hnext (hbd ▸ hb)
        rcases ih hbd with ⟨hbc, hcd⟩ | ⟨hbd', hpast⟩
        · exact Or.inl ⟨.later ha' hb hbc, hcd⟩
        · exact Or.inr ⟨.later ha' hb hbd', hpast⟩
  · rintro (⟨hfirst, hcd⟩ | ⟨hfirst, q, hq, hpast⟩)
    · exact (h.first_of_ne hself hfirst hcd).1 had
    · have hcd : c ≠ d := fun hcd => hback hq (hcd ▸ hpast)
      have hqd : q ≠ d := fun hqd => hself (hqd ▸ hq)
      exact h.first_of_heir hfirst had hq ((h.first_of_ne hself hpast hcd).1 hqd)

theorem Bypasses.acyclic (hd : ∀ b, next' d = some b → next d = some b)
    (hacyclic : Acyclic next) : Acyclic next' := by
  refine hacyclic.of_transGen fun a b hab => ?_
  by_cases had : a = d
  · subst had
    exact .single (hd b hab)
  · by_cases hnext : next a = some d
    · rw [h.heir a had hnext] at hab
      exact .tail (.single hnext) hab
    · rw [h.other a had hnext] at hab
      exact .single hab

end Bypass

section Search

variable [DecidableEq α]

theorem first_of_search {n : ℕ} {seen : List α} {start : Option α}
    (h : search next p n seen start = some c) : ∃ a, start = some a ∧ First next p a c := by
  induction n generalizing seen start with
  | zero => cases h
  | succ n ih =>
    cases start with
    | none => cases h
    | some a =>
      rw [Walks.search] at h
      by_cases hmet : a ∈ seen
      · rw [if_pos hmet] at h
        cases h
      · rw [if_neg hmet] at h
        by_cases ha : p a = true
        · rw [if_pos ha] at h
          cases h
          exact ⟨c, rfl, .here ha⟩
        · rw [if_neg ha] at h
          obtain ⟨b, hstep, hrest⟩ := ih h
          exact ⟨a, rfl, .later (by simpa using ha) hstep hrest⟩

/-- Steps enough for every place that has a next one, and two more, find the first place. -/
theorem First.search (hacyclic : Acyclic next) {places : List α}
    (hplaces : ∀ a, (next a).isSome = true → a ∈ places) (h : First next p a c) {n : ℕ}
    {seen : List α} (hnodup : seen.Nodup) (hseen : seen ⊆ places)
    (hmet : ∀ s ∈ seen, TransGen (Step next) s a) (hn : places.length + 2 ≤ n + seen.length) :
    search next p n seen (some a) = some c := by
  induction h generalizing n seen with
  | @here a ha =>
    have hfew : seen.length ≤ places.length := (List.subperm_of_subset hnodup hseen).length_le
    obtain ⟨n, rfl⟩ : ∃ m, n = m + 1 := ⟨n - 1, by omega⟩
    rw [Walks.search, if_neg fun hin => hacyclic a (hmet a hin), if_pos ha]
  | @later a b c ha hstep _ ih =>
    have hfew : seen.length ≤ places.length := (List.subperm_of_subset hnodup hseen).length_le
    obtain ⟨n, rfl⟩ : ∃ m, n = m + 1 := ⟨n - 1, by omega⟩
    have hnew : a ∉ seen := fun hin => hacyclic a (hmet a hin)
    rw [Walks.search, if_neg hnew, if_neg (by simp [ha]), hstep]
    refine ih (List.nodup_cons.mpr ⟨hnew, hnodup⟩) ?_ ?_ ?_
    · exact List.cons_subset.mpr ⟨hplaces a (by simp [hstep]), hseen⟩
    · intro s hs
      rcases List.mem_cons.mp hs with rfl | hs
      · exact .single hstep
      · exact (hmet s hs).tail hstep
    · rw [List.length_cons]
      omega

theorem search_eq_some_iff (hacyclic : Acyclic next) {places : List α}
    (hplaces : ∀ a, (next a).isSome = true → a ∈ places) {n : ℕ} (hn : places.length + 2 ≤ n) :
    search next p n [] (some a) = some c ↔ First next p a c := by
  constructor
  · intro hsearch
    obtain ⟨a', ha, hfirst⟩ := first_of_search hsearch
    exact Option.some.inj ha ▸ hfirst
  · intro hfirst
    exact hfirst.search hacyclic hplaces List.nodup_nil (List.nil_subset _) (by simp) (by simpa)

/-- Once `d` is bypassed the first place is the same, or where it was `d` the first one further on
from `d`. -/
theorem Bypasses.search_eq (h : Bypasses next p d next' p') (hacyclic : Acyclic next)
    (hacyclic' : Acyclic next') {places places' : List α}
    (hplaces : ∀ a, (next a).isSome = true → a ∈ places)
    (hplaces' : ∀ a, (next' a).isSome = true → a ∈ places') {n n' : ℕ}
    (hn : places.length + 2 ≤ n) (hn' : places'.length + 2 ≤ n') (had : a ≠ d) :
    search next' p' n' [] (some a) =
      if search next p n [] (some a) = some d then
        (next d).bind fun q => search next p n [] (some q)
      else search next p n [] (some a) := by
  ext c
  rw [search_eq_some_iff hacyclic' hplaces' hn', h.first_iff hacyclic had]
  split
  · rename_i hsource
    have hfirst := (search_eq_some_iff hacyclic hplaces hn).mp hsource
    simp only [Option.bind_eq_some_iff, search_eq_some_iff hacyclic hplaces hn]
    constructor
    · rintro (⟨hac, hcd⟩ | ⟨-, hpast⟩)
      · exact absurd (hac.unique hfirst) hcd
      · exact hpast
    · exact fun hpast => Or.inr ⟨hfirst, hpast⟩
  · rename_i hsource
    rw [search_eq_some_iff hacyclic hplaces hn] at hsource ⊢
    constructor
    · rintro (⟨hac, -⟩ | ⟨hfirst, -⟩)
      · exact hac
      · exact absurd hfirst hsource
    · intro hac
      exact Or.inl ⟨hac, fun hcd => hsource (hcd ▸ hac)⟩

/-- The loop that asks whether a walk comes to a place, or comes back. -/
def comesTo (next : α → Option α) (d : α) : ℕ → List α → Option α → Bool
  | 0, _, _ => false
  | _ + 1, _, none => false
  | n + 1, seen, some a => a = d || a ∈ seen || comesTo next d n (a :: seen) (next a)

theorem not_reaches_of_comesTo {places : List α}
    (hplaces : ∀ a, (next a).isSome = true → a ∈ places) {n : ℕ} {seen : List α}
    (hnodup : seen.Nodup) (hseen : seen ⊆ places) (hn : places.length + 2 ≤ n + seen.length)
    (h : comesTo next d n seen (some a) = false) : ¬ ReflTransGen (Step next) a d := by
  induction n generalizing seen a with
  | zero =>
    have hfew : seen.length ≤ places.length := (List.subperm_of_subset hnodup hseen).length_le
    omega
  | succ n ih =>
    simp only [comesTo, Bool.or_eq_false_iff, decide_eq_false_iff_not] at h
    obtain ⟨⟨had, hnew⟩, hrest⟩ := h
    intro hreach
    rcases ReflTransGen.cases_head hreach with heq | ⟨b, hab, hbd⟩
    · exact had heq
    · have hstep : next a = some b := hab
      rw [hstep] at hrest
      refine ih (List.nodup_cons.mpr ⟨hnew, hnodup⟩) ?_ ?_ hrest hbd
      · exact List.cons_subset.mpr ⟨hplaces a (by simp [hstep]), hseen⟩
      · rw [List.length_cons]
        omega

end Search

end Walks
