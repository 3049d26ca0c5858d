import Mathlib.Data.List.Basic
import Mathlib.Data.Nat.Notation
import Mathlib.Logic.Function.Basic

/-!
# Regular expressions with groups

A backtracking matcher, as ECMAScript specifies it, and what it means for a text
to match. Where a text matches in one way only, the groups that the matcher
captures are those of that way.
-/

namespace Text

variable {α β : Type*}

/-- What the numbered groups captured. -/
abbrev Captures (α : Type*) := ℕ → Option (List α)

inductive Regex (α : Type*) where
  | empty
  | char (p : α → Bool)
  | seq (r t : Regex α)
  | either (r t : Regex α)
  | star (r : Regex α)
  | group (n : ℕ) (r : Regex α)

namespace Regex

/-- The continuation of a match: what it captured and what is left of the text. -/
abbrev Cont (α β : Type*) := Captures α → List α → Option β

/-- As many times as it goes, then fewer. A round that takes nothing is none. -/
def repeated (round : Captures α → List α → Cont α β → Option β) :
    ℕ → Captures α → List α → Cont α β → Option β
  | 0, groups, text, k => k groups text
  | n + 1, groups, text, k =>
    (round groups text fun groups rest =>
      if rest.length < text.length then repeated round n groups rest k else none).orElse
      fun _ => k groups text

/-- The matcher. A star takes at most as many rounds as there are characters. -/
def exec : Regex α → Captures α → List α → Cont α β → Option β
  | empty, groups, text, k => k groups text
  | char _, _, [], _ => none
  | char p, groups, c :: rest, k => if p c then k groups rest else none
  | seq r t, groups, text, k => r.exec groups text fun groups rest => t.exec groups rest k
  | either r t, groups, text, k =>
    (r.exec groups text k).orElse fun _ => t.exec groups text k
  | star r, groups, text, k => repeated r.exec text.length groups text k
  | group n r, groups, text, k =>
    r.exec groups text fun groups rest =>
      k (Function.update groups n (some (text.take (text.length - rest.length)))) rest

/-- A match of a whole text, `^…$`. -/
def fullMatch (r : Regex α) (text : List α) : Option (Captures α) :=
  r.exec (fun _ => none) text fun groups rest => if rest.isEmpty then some groups else none

/-- A way in which a part of a text matches. -/
inductive Matches : Regex α → Captures α → List α → Captures α → Prop
  | empty {groups : Captures α} : Matches empty groups [] groups
  | char {p : α → Bool} {c : α} {groups : Captures α} (h : p c = true) :
      Matches (char p) groups [c] groups
  | seq {r t : Regex α} {groups groups' groups'' : Captures α} {part part' : List α}
      (hr : Matches r groups part groups') (ht : Matches t groups' part' groups'') :
      Matches (seq r t) groups (part ++ part') groups''
  | first {r t : Regex α} {groups groups' : Captures α} {part : List α}
      (hr : Matches r groups part groups') : Matches (either r t) groups part groups'
  | second {r t : Regex α} {groups groups' : Captures α} {part : List α}
      (ht : Matches t groups part groups') : Matches (either r t) groups part groups'
  | done {r : Regex α} {groups : Captures α} : Matches (star r) groups [] groups
  | round {r : Regex α} {groups groups' groups'' : Captures α} {part part' : List α}
      (hr : Matches r groups part groups') (hne : part ≠ [])
      (hrest : Matches (star r) groups' part' groups'') :
      Matches (star r) groups (part ++ part') groups''
  | group {n : ℕ} {r : Regex α} {groups groups' : Captures α} {part : List α}
      (hr : Matches r groups part groups') :
      Matches (group n r) groups part (Function.update groups' n (some part))

/-- Whatever the matcher returns, it got in a way to match. -/
theorem exec_sound (r : Regex α) {groups : Captures α} {text : List α} {k : Cont α β} {x : β}
    (h : r.exec groups text k = some x) :
    ∃ part groups' rest, text = part ++ rest ∧ Matches r groups part groups' ∧
      k groups' rest = some x := by
  induction r generalizing groups text k x with
  | empty => exact ⟨[], groups, text, rfl, .empty, h⟩
  | char p =>
    cases text with
    | nil => cases h
    | cons c rest =>
      rw [exec] at h
      split at h
      · rename_i hc
        exact ⟨[c], groups, rest, rfl, .char hc, h⟩
      · cases h
  | seq r t ihr iht =>
    obtain ⟨part, groups', rest, rfl, hr, hrest⟩ := ihr h
    obtain ⟨part', groups'', rest', rfl, ht, hk⟩ := iht hrest
    exact ⟨part ++ part', groups'', rest', (List.append_assoc _ _ _).symm, .seq hr ht, hk⟩
  | either r t ihr iht =>
    rw [exec] at h
    cases hr : r.exec groups text k with
    | some y =>
      rw [hr] at h
      obtain ⟨part, groups', rest, htext, hmatch, hk⟩ := ihr hr
      exact ⟨part, groups', rest, htext, .first hmatch, hk.trans h⟩
    | none =>
      rw [hr] at h
      obtain ⟨part, groups', rest, htext, hmatch, hk⟩ := iht h
      exact ⟨part, groups', rest, htext, .second hmatch, hk⟩
  | star r ih =>
    rw [exec] at h
    generalize text.length = n at h
    induction n generalizing groups text x with
    | zero => exact ⟨[], groups, text, rfl, .done, h⟩
    | succ n ihn =>
      rw [repeated] at h
      cases hround : r.exec groups text fun groups rest =>
          if rest.length < text.length then repeated r.exec n groups rest k else none with
      | none =>
        rw [hround] at h
        exact ⟨[], groups, text, rfl, .done, h⟩
      | some y =>
        rw [hround] at h
        obtain ⟨part, groups', rest, rfl, hmatch, hk⟩ := ih hround
        split at hk
        · rename_i hless
          obtain ⟨part', groups'', rest', rfl, hrest, hk⟩ := ihn hk
          refine ⟨part ++ part', groups'', rest', (List.append_assoc _ _ _).symm, ?_, hk.trans h⟩
          refine .round hmatch ?_ hrest
          rintro rfl
          simp at hless
        · cases hk
  | group n r ih =>
    obtain ⟨part, groups', rest, rfl, hmatch, hk⟩ := ih h
    have hpart : (part ++ rest).take ((part ++ rest).length - rest.length) = part := by simp
    rw [hpart] at hk
    exact ⟨part, _, rest, rfl, .group hmatch, hk⟩

/-- The matcher finds a way to match when there is one that the continuation takes. -/
theorem exec_complete (r : Regex α) {groups groups' : Captures α} {part : List α}
    (rest : List α) (k : Cont α β) (h : Matches r groups part groups')
    (hk : (k groups' rest).isSome) :
    (r.exec groups (part ++ rest) k).isSome := by
  induction r generalizing groups groups' part rest k with
  | empty =>
    cases h
    exact hk
  | char p =>
    cases h with
    | char hc =>
      rw [List.singleton_append, exec, if_pos hc]
      exact hk
  | seq r t ihr iht =>
    cases h with
    | seq hr ht =>
      rw [List.append_assoc, exec]
      exact ihr _ _ hr (iht _ _ ht hk)
  | either r t ihr iht =>
    rw [exec]
    cases h with
    | first hr =>
      have hsome := ihr _ _ hr hk
      obtain ⟨x, hx⟩ := Option.isSome_iff_exists.mp hsome
      rw [hx]
      rfl
    | second ht =>
      cases r.exec groups (part ++ rest) k with
      | some x => rfl
      | none => exact iht _ _ ht hk
  | star r ih =>
    rw [exec]
    have hrounds : ∀ n, (part ++ rest).length ≤ n →
        (repeated r.exec n groups (part ++ rest) k).isSome := by
      generalize hstar : star r = t at h
      induction h with
      | empty | char | seq | first | second | group => cases hstar
      | done =>
        intro n _
        cases n with
        | zero => exact hk
        | succ n =>
          rw [repeated]
          cases r.exec _ _ _ with
          | some x => rfl
          | none => exact hk
      | @round t groups groups' groups'' part part' hr hne hrest _ ihrest =>
        cases hstar
        intro n hn
        rw [List.append_assoc] at hn ⊢
        have hpart : 0 < part.length := List.length_pos_iff.mpr hne
        rw [List.length_append] at hn
        cases n with
        | zero => omega
        | succ n =>
          rw [repeated]
          have hround := ih (part' ++ rest) (fun groups rest' =>
            if rest'.length < (part ++ (part' ++ rest)).length then
              repeated r.exec n groups rest' k else none) hr (by
            rw [if_pos (by simp only [List.length_append]; omega)]
            exact ihrest hk rfl n (by omega))
          obtain ⟨x, hx⟩ := Option.isSome_iff_exists.mp hround
          rw [hx]
          rfl
    exact hrounds _ (Nat.le_refl _)
  | group n r ih =>
    cases h with
    | group hr =>
      rw [exec]
      refine ih _ _ hr ?_
      have hpart : (part ++ rest).take ((part ++ rest).length - rest.length) = part := by simp
      rw [hpart]
      exact hk

/-- A text matches when there is a way in which it does. -/
theorem fullMatch_isSome_iff (r : Regex α) (text : List α) :
    (r.fullMatch text).isSome ↔ ∃ groups, Matches r (fun _ => none) text groups := by
  constructor
  · intro h
    obtain ⟨groups, hgroups⟩ := Option.isSome_iff_exists.mp h
    obtain ⟨part, groups', rest, rfl, hmatch, hk⟩ := exec_sound r hgroups
    split at hk
    · rename_i hrest
      rw [List.isEmpty_iff.mp hrest, List.append_nil]
      exact ⟨groups', hmatch⟩
    · cases hk
  · rintro ⟨groups, hmatch⟩
    have hsome := exec_complete r [] (fun groups rest =>
      if rest.isEmpty then some groups else none) hmatch rfl
    rwa [List.append_nil] at hsome

theorem matches_of_fullMatch {r : Regex α} {text : List α} {groups : Captures α}
    (h : r.fullMatch text = some groups) : Matches r (fun _ => none) text groups := by
  obtain ⟨part, groups', rest, rfl, hmatch, hk⟩ := exec_sound r h
  split at hk
  · rename_i hrest
    cases hk
    rwa [List.isEmpty_iff.mp hrest, List.append_nil]
  · cases hk

/-- A text that matches in one way only. -/
theorem fullMatch_eq_some {r : Regex α} {text : List α} {groups : Captures α}
    (h : Matches r (fun _ => none) text groups)
    (hunique : ∀ groups', Matches r (fun _ => none) text groups' → groups' = groups) :
    r.fullMatch text = some groups := by
  obtain ⟨groups', hgroups'⟩ :=
    Option.isSome_iff_exists.mp ((fullMatch_isSome_iff r text).mpr ⟨groups, h⟩)
  rw [hgroups', hunique groups' (matches_of_fullMatch hgroups')]

/-- A text as it is. -/
def lit [DecidableEq α] (text : List α) : Regex α :=
  text.foldr (fun c r => seq (char fun d => d = c) r) empty

/-- A text whose characters are compared by what a function makes of them. -/
def litOn [DecidableEq β] (f : α → β) (text : List α) : Regex α :=
  text.foldr (fun c r => seq (char fun d => f d = f c) r) empty

/-- One or more. -/
def plus (r : Regex α) : Regex α := seq r (star r)

/-- One or none, preferably one. -/
def opt (r : Regex α) : Regex α := either r empty

/-- So many times. -/
def times : ℕ → Regex α → Regex α
  | 0, _ => empty
  | n + 1, r => seq r (times n r)

variable {r t : Regex α} {p : α → Bool} {groups groups' : Captures α} {part : List α}

theorem matches_seq : Matches (seq r t) groups part groups' ↔
    ∃ part₁ part₂ between, part = part₁ ++ part₂ ∧ Matches r groups part₁ between ∧
      Matches t between part₂ groups' := by
  constructor
  · intro h
    cases h with
    | @seq _ _ _ between _ part₁ part₂ hr ht => exact ⟨part₁, part₂, between, rfl, hr, ht⟩
  · rintro ⟨part₁, part₂, between, rfl, hr, ht⟩
    exact .seq hr ht

theorem matches_group {n : ℕ} : Matches (group n r) groups part groups' ↔
    ∃ between, Matches r groups part between ∧
      groups' = Function.update between n (some part) := by
  constructor
  · intro h
    cases h with
    | @group _ _ _ between _ hr => exact ⟨between, hr, rfl⟩
  · rintro ⟨between, hr, rfl⟩
    exact .group hr

theorem matches_lit [DecidableEq α] {text : List α} :
    Matches (lit text) groups part groups' ↔ part = text ∧ groups' = groups := by
  induction text generalizing groups part with
  | nil =>
    constructor
    · intro h
      cases h
      exact ⟨rfl, rfl⟩
    · rintro ⟨rfl, rfl⟩
      exact .empty
  | cons c text ih =>
    constructor
    · intro h
      obtain ⟨part₁, part₂, between, rfl, hchar, hrest⟩ := matches_seq.mp h
      cases hchar with
      | char hc =>
        obtain ⟨rfl, rfl⟩ := ih.mp hrest
        rw [decide_eq_true_eq] at hc
        exact ⟨congrArg (· :: part₂) hc, rfl⟩
    · rintro ⟨rfl, rfl⟩
      have hchar : Matches (char fun d => decide (d = c)) groups' [c] groups' :=
        .char (decide_eq_true rfl)
      exact hchar.seq (ih.mpr ⟨rfl, rfl⟩)

theorem matches_litOn [DecidableEq β] {f : α → β} {text : List α} :
    Matches (litOn f text) groups part groups' ↔ part.map f = text.map f ∧ groups' = groups := by
  induction text generalizing groups part with
  | nil =>
    constructor
    · intro h
      cases h
      exact ⟨rfl, rfl⟩
    · rintro ⟨hpart, rfl⟩
      rw [List.map_eq_nil_iff.mp hpart]
      exact .empty
  | cons c text ih =>
    constructor
    · intro h
      obtain ⟨part₁, part₂, between, rfl, hchar, hrest⟩ := matches_seq.mp h
      cases hchar with
      | char hc =>
        obtain ⟨hpart, rfl⟩ := ih.mp hrest
        rw [decide_eq_true_eq] at hc
        rw [List.singleton_append, List.map_cons, List.map_cons, hc, hpart]
        exact ⟨rfl, rfl⟩
    · rintro ⟨hpart, rfl⟩
      obtain ⟨d, rest, rfl, hd, hrest⟩ := List.map_eq_cons_iff.mp hpart
      have hchar : Matches (char fun d => decide (f d = f c)) groups' [d] groups' :=
        .char (decide_eq_true hd)
      exact hchar.seq (ih.mpr ⟨hrest, rfl⟩)

theorem matches_opt : Matches (opt r) groups part groups' ↔
    Matches r groups part groups' ∨ part = [] ∧ groups' = groups := by
  constructor
  · intro h
    cases h with
    | first hr => exact Or.inl hr
    | second hempty =>
      cases hempty
      exact Or.inr ⟨rfl, rfl⟩
  · rintro (hr | ⟨rfl, rfl⟩)
    · exact .first hr
    · exact .second .empty

/-- Characters of a kind, as many as there are. -/
theorem matches_star_char :
    Matches (star (char p)) groups part groups' ↔ (∀ c ∈ part, p c = true) ∧ groups' = groups := by
  constructor
  · intro h
    generalize hstar : star (char p) = r at h
    induction h with
    | empty | char | seq | first | second | group => cases hstar
    | done => exact ⟨fun c hc => absurd hc List.not_mem_nil, rfl⟩
    | round hr _ _ _ ih =>
      cases hstar
      cases hr with
      | char hc =>
        obtain ⟨hall, rfl⟩ := ih rfl
        refine ⟨fun d hd => ?_, rfl⟩
        rcases List.mem_cons.mp hd with rfl | hd
        · exact hc
        · exact hall d hd
  · rintro ⟨hall, rfl⟩
    induction part with
    | nil => exact .done
    | cons c part ih =>
      have hchar : Matches (char p) groups' [c] groups' := .char (hall c List.mem_cons_self)
      exact hchar.round (List.cons_ne_nil _ _) (ih fun d hd => hall d (List.mem_cons_of_mem _ hd))

theorem matches_plus_char : Matches (plus (char p)) groups part groups' ↔
    part ≠ [] ∧ (∀ c ∈ part, p c = true) ∧ groups' = groups := by
  constructor
  · intro h
    obtain ⟨part₁, part₂, between, rfl, hchar, hrest⟩ := matches_seq.mp h
    cases hchar with
    | @char _ c _ hc =>
      obtain ⟨hall, rfl⟩ := matches_star_char.mp hrest
      refine ⟨List.cons_ne_nil _ _, fun d hd => ?_, rfl⟩
      rcases List.mem_cons.mp hd with rfl | hd
      · exact hc
      · exact hall d hd
  · rintro ⟨hne, hall, rfl⟩
    obtain ⟨c, part, rfl⟩ := List.exists_cons_of_ne_nil hne
    have hchar : Matches (char p) groups' [c] groups' := .char (hall c List.mem_cons_self)
    have hrest : ∀ d ∈ part, p d = true := fun d hd => hall d (List.mem_cons_of_mem _ hd)
    exact hchar.seq (matches_star_char.mpr ⟨hrest, rfl⟩)

/-- Parts that match one after another. -/
theorem matches_times {parts : List (List α)} (h : ∀ part ∈ parts, Matches r groups part groups) :
    Matches (times parts.length r) groups parts.flatten groups := by
  induction parts with
  | nil => exact .empty
  | cons part parts ih =>
    have hfirst := h part List.mem_cons_self
    exact hfirst.seq (ih fun part hpart => h part (List.mem_cons_of_mem _ hpart))

theorem matches_times_char (h : ∀ c ∈ part, p c = true) :
    Matches (times part.length (char p)) groups part groups := by
  have hparts : ∀ single ∈ part.map fun c => [c], Matches (char p) groups single groups := by
    intro single hsingle
    obtain ⟨c, hc, rfl⟩ := List.mem_map.mp hsingle
    exact .char (h c hc)
  have htimes := matches_times hparts
  have hflat : (part.map fun c => [c]).flatten = part := by
    rw [← List.flatMap_def, List.flatMap_singleton']
  rwa [List.length_map, hflat] at htimes

end Regex

end Text
