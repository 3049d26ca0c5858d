import Mathlib.Data.List.Basic

/-!
# Parts between separators

What a text looks like of which every part between two separators is something.
-/

namespace Text

variable {α : Type*} [DecidableEq α] {sep : α}

/-- The first part of a text that does not begin with a separator is something. -/
theorem exists_splitOn_cons {c : α} (hc : c ≠ sep) (l : List α) :
    ∃ part parts, (c :: l).splitOn sep = (c :: part) :: parts ∧ (l.splitOn sep).tail = parts := by
  rw [List.splitOn_cons_eq_if_modifyHead, if_neg (by simpa using hc)]
  obtain ⟨part, parts, hparts⟩ := List.exists_cons_of_ne_nil (List.splitOn_ne_nil sep l)
  exact ⟨part, parts, by rw [hparts]; rfl, by rw [hparts]; rfl⟩

theorem splitOn_cons_self (l : List α) : (sep :: l).splitOn sep = [] :: l.splitOn sep := by
  rw [List.splitOn_cons_eq_if_modifyHead, if_pos (beq_self_eq_true sep)]

/-- Every part but the first is something when the text neither ends with a separator nor has two
in a row. -/
theorem forall_tail_splitOn_ne_nil_iff (l : List α) :
    (∀ part ∈ (l.splitOn sep).tail, part ≠ []) ↔
      l.getLast? ≠ some sep ∧ ¬ [sep, sep] <:+: l := by
  induction l with
  | nil => simp
  | cons c l ih =>
    by_cases hc : c = sep
    · subst hc
      rw [splitOn_cons_self, List.tail_cons]
      cases l with
      | nil => simp
      | cons d l =>
        rw [List.getLast?_cons_cons, List.infix_cons_iff]
        by_cases hd : d = c
        · subst hd
          rw [splitOn_cons_self]
          simp
        · obtain ⟨part, parts, hparts, -⟩ := exists_splitOn_cons hd l
          rw [hparts, List.tail_cons] at ih
          rw [hparts, List.forall_mem_cons, ih]
          simp [List.cons_prefix_cons, Ne.symm hd]
    · obtain ⟨part, parts, hparts, htail⟩ := exists_splitOn_cons hc l
      rw [hparts, List.tail_cons, ← htail, ih, List.infix_cons_iff]
      cases l with
      | nil => simp [hc]
      | cons d l => simp [List.cons_prefix_cons, Ne.symm hc]

/-- Every part is something when, besides, the text does not begin with a separator. -/
theorem forall_splitOn_ne_nil_iff (l : List α) :
    (∀ part ∈ l.splitOn sep, part ≠ []) ↔
      l ≠ [] ∧ l.head? ≠ some sep ∧ l.getLast? ≠ some sep ∧ ¬ [sep, sep] <:+: l := by
  rw [← forall_tail_splitOn_ne_nil_iff]
  cases l with
  | nil => simp
  | cons c l =>
    by_cases hc : c = sep
    · subst hc
      rw [splitOn_cons_self]
      simp
    · obtain ⟨part, parts, hparts, -⟩ := exists_splitOn_cons hc l
      rw [hparts, List.forall_mem_cons]
      simp [hc]

/-- What holds in all parts holds between the separators. -/
theorem forall_splitOn_forall_iff {p : α → Prop} (l : List α) :
    (∀ part ∈ l.splitOn sep, ∀ c ∈ part, p c) ↔ ∀ c ∈ l, c ≠ sep → p c := by
  induction l with
  | nil => simp
  | cons c l ih =>
    by_cases hc : c = sep
    · subst hc
      rw [splitOn_cons_self, List.forall_mem_cons, ih]
      simp
    · obtain ⟨part, parts, hparts⟩ := List.exists_cons_of_ne_nil (List.splitOn_ne_nil sep l)
      rw [List.splitOn_cons_eq_if_modifyHead, if_neg (by simpa using hc)]
      rw [hparts, List.forall_mem_cons] at ih
      rw [hparts, List.modifyHead_cons, List.forall_mem_cons, List.forall_mem_cons,
        List.forall_mem_cons, ← ih]
      simp [hc, and_assoc]

/-- `str::split_once`: what is before the first separator, and what is after it. -/
def splitOnce (sep : α) : List α → Option (List α × List α)
  | [] => none
  | c :: cs => if c = sep then some ([], cs) else (splitOnce sep cs).map fun (a, b) => (c :: a, b)

theorem splitOnce_append_cons {part : List α} (hpart : sep ∉ part) (rest : List α) :
    splitOnce sep (part ++ sep :: rest) = some (part, rest) := by
  induction part with
  | nil => exact if_pos rfl
  | cons c part ih =>
    obtain ⟨hc, hpart⟩ := not_or.mp (mt List.mem_cons.mpr hpart)
    rw [List.cons_append, splitOnce, if_neg (Ne.symm hc), ih hpart]
    rfl

theorem splitOnce_of_not_mem {text : List α} (htext : sep ∉ text) : splitOnce sep text = none := by
  induction text with
  | nil => rfl
  | cons c text ih =>
    obtain ⟨hc, htext⟩ := not_or.mp (mt List.mem_cons.mpr htext)
    rw [splitOnce, if_neg (Ne.symm hc), ih htext]
    rfl

/-- What is cut is the first separator. -/
theorem splitOnce_eq_some_iff {text before after : List α} :
    splitOnce sep text = some (before, after) ↔ sep ∉ before ∧ text = before ++ sep :: after := by
  constructor
  · intro h
    induction text generalizing before with
    | nil => cases h
    | cons c text ih =>
      rw [splitOnce] at h
      split at h
      · rename_i hc
        cases h
        exact ⟨List.not_mem_nil, by rw [hc]; rfl⟩
      · rename_i hc
        obtain ⟨⟨a, b⟩, hrest, heq⟩ := Option.map_eq_some_iff.mp h
        cases heq
        obtain ⟨hmem, rfl⟩ := ih hrest
        exact ⟨by simpa [Ne.symm hc] using hmem, rfl⟩
  · rintro ⟨hmem, rfl⟩
    exact splitOnce_append_cons hmem after

theorem exists_splitOnce_of_mem {text : List α} (h : sep ∈ text) :
    ∃ cut, splitOnce sep text = some cut := by
  obtain ⟨before, after, rfl, hmem⟩ := List.eq_append_cons_of_mem h
  exact ⟨_, splitOnce_append_cons hmem after⟩

/-- Parts that have no separator in them are cut as they were written. -/
theorem splitOn_append_flatMap {first : List α} {rest : List (List α)}
    (h : ∀ part ∈ first :: rest, sep ∉ part) :
    (first ++ rest.flatMap (sep :: ·)).splitOn sep = first :: rest := by
  induction rest generalizing first with
  | nil =>
    rw [List.flatMap_nil, List.append_nil, List.splitOn_eq_singleton (h first (List.mem_cons_self ..))]
  | cons part rest ih =>
    obtain ⟨hfirst, hrest⟩ := List.forall_mem_cons.mp h
    rw [List.flatMap_cons, List.cons_append, List.splitOn_append_cons_self_of_not_mem hfirst, ih hrest]

end Text

/-! ### Texts with words hidden

A text is cut into pieces, each a character that is kept or a word that is
hidden. What is shown of it has a mark for every hidden word. -/

namespace Text

variable {α : Type*}

/-- A piece of a text. -/
inductive Piece (α : Type*) where
  | kept (c : α)
  | hidden (word : List α)
  deriving DecidableEq, Repr

namespace Piece

def source : Piece α → List α
  | kept c => [c]
  | hidden word => word

def shown (mark : List α) : Piece α → List α
  | kept c => [c]
  | hidden _ => mark

end Piece

/-- The text that the pieces are of. -/
def source (pieces : List (Piece α)) : List α := pieces.flatMap Piece.source

/-- What is shown of it. -/
def shown (mark : List α) (pieces : List (Piece α)) : List α := pieces.flatMap (Piece.shown mark)

@[simp] theorem source_nil : source ([] : List (Piece α)) = [] := rfl

@[simp] theorem source_cons (p : Piece α) (ps : List (Piece α)) :
    source (p :: ps) = p.source ++ source ps := rfl

@[simp] theorem source_append (ps qs : List (Piece α)) : source (ps ++ qs) = source ps ++ source qs :=
  List.flatMap_append

@[simp] theorem source_kept (text : List α) : source (text.map .kept) = text := by
  induction text with
  | nil => rfl
  | cons c text ih => rw [List.map_cons, source_cons, ih, Piece.source, List.singleton_append]

@[simp] theorem shown_nil (mark : List α) : shown mark ([] : List (Piece α)) = [] := rfl

@[simp] theorem shown_cons (mark : List α) (p : Piece α) (ps : List (Piece α)) :
    shown mark (p :: ps) = p.shown mark ++ shown mark ps := rfl

@[simp] theorem shown_append (mark : List α) (ps qs : List (Piece α)) :
    shown mark (ps ++ qs) = shown mark ps ++ shown mark qs :=
  List.flatMap_append

@[simp] theorem shown_kept (mark text : List α) : shown mark (text.map .kept) = text := by
  induction text with
  | nil => rfl
  | cons c text ih => rw [List.map_cons, shown_cons, ih, Piece.shown, List.singleton_append]

/-- No word begins at a character that is kept, when `rest` follows the text. -/
def Clear (words : List (List α)) (rest : List α) : List (Piece α) → Prop
  | [] => True
  | .kept c :: ps => (∀ w ∈ words, ¬ w <+: c :: (source ps ++ rest)) ∧ Clear words rest ps
  | .hidden _ :: ps => Clear words rest ps

@[simp] theorem clear_no_words (rest : List α) (ps : List (Piece α)) : Clear [] rest ps := by
  induction ps with
  | nil => trivial
  | cons p ps ih =>
    cases p with
    | kept c => exact ⟨fun w hw => absurd hw List.not_mem_nil, ih⟩
    | hidden word => exact ih

variable {words : List (List α)} {rest : List α} {ps qs : List (Piece α)}

theorem Clear.append (hps : Clear words (source qs ++ rest) ps) (hqs : Clear words rest qs) :
    Clear words rest (ps ++ qs) := by
  induction ps with
  | nil => exact hqs
  | cons p ps ih =>
    cases p with
    | kept c =>
      refine ⟨fun w hw => ?_, ih hps.2⟩
      have hnot := hps.1 w hw
      rwa [← List.append_assoc, ← source_append] at hnot
    | hidden word => exact ih hps

/-- A word is nowhere kept whole. -/
theorem Clear.not_infix {w : List α} (hclear : Clear words rest ps) (hw : w ∈ words) (hne : w ≠ []) :
    ¬ w.map .kept <:+: ps := by
  rintro ⟨before, after, rfl⟩
  obtain ⟨c, w, rfl⟩ := List.exists_cons_of_ne_nil hne
  induction before with
  | nil =>
    refine hclear.1 _ hw ?_
    simp
  | cons p before ih =>
    cases p with
    | kept d => exact ih hclear.2
    | hidden word => exact ih hclear

end Text
