import Mathlib.Data.List.Basic

/-!
# Texts that read one way

A text that is written of parts is read back part by part: a part ends at the
first character that it can't have, or before the last of its kind.
-/

namespace Text

variable {α : Type*}

/-- The text goes on with nothing that the part before it can have. -/
def Stops (p : α → Bool) (rest : List α) : Prop := ∀ c ∈ rest.head?, p c = false

@[simp] theorem stops_nil (p : α → Bool) : Stops p [] := nofun

@[simp] theorem stops_cons (p : α → Bool) (c : α) (cs : List α) :
    Stops p (c :: cs) ↔ p c = false := by
  simp [Stops]

theorem takeWhile_append_stops {p : α → Bool} {part rest : List α} (hpart : ∀ c ∈ part, p c = true)
    (hrest : Stops p rest) : (part ++ rest).takeWhile p = part := by
  rw [List.takeWhile_append_of_pos hpart]
  cases rest with
  | nil => simp
  | cons c cs => simp [(stops_cons p c cs).mp hrest]

/-- Two parts that stop are the same, and so is what follows. -/
theorem append_inj_of_stops {p : α → Bool} {part part' rest rest' : List α}
    (hpart : ∀ c ∈ part, p c = true) (hpart' : ∀ c ∈ part', p c = true) (hrest : Stops p rest)
    (hrest' : Stops p rest') (h : part ++ rest = part' ++ rest') : part = part' ∧ rest = rest' := by
  have hsame : part = part' := by
    rw [← takeWhile_append_stops hpart hrest, h, takeWhile_append_stops hpart' hrest']
  subst hsame
  exact ⟨rfl, List.append_cancel_left h⟩

variable [DecidableEq α]

/-- The last mark of its kind ends the part before it. -/
theorem append_inj_of_last {mark : α} {part part' rest rest' : List α} (hrest : mark ∉ rest)
    (hrest' : mark ∉ rest') (h : part ++ mark :: rest = part' ++ mark :: rest') :
    part = part' ∧ rest = rest' := by
  have hall : ∀ {l : List α}, mark ∉ l → ∀ c ∈ l.reverse, (decide (c ≠ mark)) = true := by
    intro l hl c hc
    simp only [ne_eq, decide_eq_true_eq]
    rintro rfl
    exact hl (List.mem_reverse.mp hc)
  have hreverse := congrArg List.reverse h
  simp only [List.reverse_append, List.reverse_cons, List.append_assoc, List.singleton_append]
    at hreverse
  obtain ⟨hsame, hparts⟩ :=
    append_inj_of_stops (hall hrest) (hall hrest') (by simp) (by simp) hreverse
  exact ⟨List.reverse_injective (List.cons.inj hparts).2, List.reverse_injective hsame⟩

omit [DecidableEq α] in
/-- A mark that no part has ends the first one. -/
theorem append_pair_inj {m n : α} (hne : m ≠ n) {part part' rest rest' : List α}
    (hpart : ¬ [m, n] <:+: part) (hpart' : ¬ [m, n] <:+: part')
    (h : part ++ m :: n :: rest = part' ++ m :: n :: rest') : part = part' ∧ rest = rest' := by
  have key : ∀ {part part' rest rest' : List α}, ¬ [m, n] <:+: part' →
      ∀ extra, part' = part ++ extra → m :: n :: rest = extra ++ m :: n :: rest' →
        part = part' := by
    intro part part' rest rest' hpart' extra hextra hrest
    match extra with
    | [] => simp [hextra]
    | [c] =>
      obtain ⟨-, hn⟩ := List.cons.inj hrest
      exact absurd (List.cons.inj hn).1.symm hne
    | c :: d :: extra =>
      obtain ⟨rfl, hn⟩ := List.cons.inj hrest
      obtain ⟨rfl, -⟩ := List.cons.inj hn
      exact absurd ⟨part, extra, by simp [hextra]⟩ hpart'
  have hsame : part = part' := by
    rcases List.append_eq_append_iff.mp h with ⟨extra, hextra, hrest⟩ | ⟨extra, hextra, hrest⟩
    · exact key hpart' extra hextra hrest
    · exact (key hpart extra hextra hrest).symm
  subst hsame
  exact ⟨rfl, (List.cons.inj (List.cons.inj (List.append_cancel_left h)).2).2⟩

/-- Texts joined by two characters. -/
def joined (m n : α) : List (List α) → List α
  | [] => []
  | [part] => part
  | part :: parts => part ++ m :: n :: joined m n parts

omit [DecidableEq α] in
/-- Texts without the two characters are read back. -/
theorem joined_inj {m n : α} (hne : m ≠ n) {parts : List (List α)} :
    ∀ {parts' : List (List α)}, (∀ part ∈ parts, part ≠ [] ∧ ¬ [m, n] <:+: part) →
      (∀ part ∈ parts', part ≠ [] ∧ ¬ [m, n] <:+: part) →
      joined m n parts = joined m n parts' → parts = parts' := by
  have hinfix : ∀ {part rest : List α}, [m, n] <:+: part ++ m :: n :: rest :=
    fun {part rest} => ⟨part, rest, by simp⟩
  induction parts with
  | nil =>
    intro parts' _ hparts' h
    match parts' with
    | [] => rfl
    | [part] => exact absurd h.symm (hparts' part List.mem_cons_self).1
    | part :: _ :: _ => simp [joined] at h
  | cons part parts ih =>
    intro parts' hparts hparts' h
    match parts, parts' with
    | [], [] => exact absurd h (hparts part List.mem_cons_self).1
    | _ :: _, [] => simp [joined] at h
    | [], [part'] => exact congrArg (fun part => [part]) h
    | [], part' :: _ :: _ =>
      have hbad : [m, n] <:+: part := by
        simp only [joined] at h
        exact h ▸ hinfix
      exact absurd hbad (hparts part List.mem_cons_self).2
    | _ :: _, [part'] =>
      have hbad : [m, n] <:+: part' := by
        simp only [joined] at h
        exact h ▸ hinfix
      exact absurd hbad (hparts' part' List.mem_cons_self).2
    | next :: parts, part' :: next' :: parts' =>
      simp only [joined] at h
      obtain ⟨rfl, hrest⟩ := append_pair_inj hne (hparts part List.mem_cons_self).2
        (hparts' part' List.mem_cons_self).2 h
      rw [ih (fun part hpart => hparts part (List.mem_cons_of_mem _ hpart))
        (fun part hpart => hparts' part (List.mem_cons_of_mem _ hpart)) hrest]

end Text
