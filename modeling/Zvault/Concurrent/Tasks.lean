import Mathlib.Logic.Relation

/-!
# Tasks that share a state

Any number of tasks run on one shared state. A task does one atomic step at a
time and waits in between, so steps of different tasks come in any order. An
outline assigns every waiting task an assertion about the shared state; it is
valid when a task's own step leads from assertion to assertion and no step of
another task breaks one. A valid outline holds in every run.
-/

namespace Concurrent

open Relation

variable {σ τ : Type*}

/-- A shared state and the tasks that wait. -/
structure System (σ τ : Type*) where
  shared : σ
  tasks : List τ

/-- Which tasks may start, and what the next step of a waiting task does to the shared state.
A task that is done leaves nothing behind. -/
structure Program (σ τ : Type*) where
  start : σ → τ → Prop
  act : σ → τ → σ → Option τ → Prop

/-- A task starts, or one of the waiting tasks does its next step. -/
inductive Step (P : Program σ τ) : System σ τ → System σ τ → Prop
  | start {s : σ} {tasks : List τ} {t : τ} (h : P.start s t) : Step P ⟨s, tasks⟩ ⟨s, t :: tasks⟩
  | act {s s' : σ} {before after : List τ} {t : τ} {next : Option τ} (h : P.act s t s' next) :
      Step P ⟨s, before ++ t :: after⟩ ⟨s', before ++ (next.toList ++ after)⟩

/-- The task that started last does a step and waits again. -/
theorem Step.next {P : Program σ τ} {s s' : σ} {t next : τ} {rest : List τ}
    (h : P.act s t s' (some next)) : Step P ⟨s, t :: rest⟩ ⟨s', next :: rest⟩ := by
  have hstep : Step P ⟨s, [] ++ t :: rest⟩ ⟨s', [] ++ ((some next).toList ++ rest)⟩ := .act h
  exact hstep

/-- The task that started last does its last step. -/
theorem Step.last {P : Program σ τ} {s s' : σ} {t : τ} {rest : List τ} (h : P.act s t s' none) :
    Step P ⟨s, t :: rest⟩ ⟨s', rest⟩ := by
  have hstep : Step P ⟨s, [] ++ t :: rest⟩ ⟨s', [] ++ (none.toList ++ rest)⟩ := .act h
  exact hstep

/-- A run. -/
abbrev Run (P : Program σ τ) : System σ τ → System σ τ → Prop := ReflTransGen (Step P)

/-- A run goes on: a task starts. -/
theorem Run.starts {P : Program σ τ} {start : System σ τ} {s : σ} {tasks : List τ}
    (h : Run P start ⟨s, tasks⟩) (t : τ) (hstart : P.start s t) : Run P start ⟨s, t :: tasks⟩ :=
  h.tail (.start hstart)

/-- A run goes on: the task that started last does a step. -/
theorem Run.proceeds {P : Program σ τ} {start : System σ τ} {s s' : σ} {t : τ} {next : Option τ}
    {rest : List τ} (h : Run P start ⟨s, t :: rest⟩) (hact : P.act s t s' next) :
    Run P start ⟨s', next.toList ++ rest⟩ := by
  cases next with
  | none => exact h.tail (Step.last hact)
  | some n => exact h.tail (Step.next hact)

/-- A run goes on: the task that started before the last one does a step. -/
theorem Run.proceeds_under {P : Program σ τ} {start : System σ τ} {s s' : σ} {t u : τ}
    {next : Option τ} {rest : List τ} (h : Run P start ⟨s, u :: t :: rest⟩) (hact : P.act s t s' next) :
    Run P start ⟨s', u :: (next.toList ++ rest)⟩ := by
  have hstep : Step P ⟨s, [u] ++ t :: rest⟩ ⟨s', [u] ++ (next.toList ++ rest)⟩ := .act hact
  exact h.tail hstep

/-- The same program, whose tasks step only when a condition on the shared state is met. -/
def Program.when (P : Program σ τ) (condition : σ → τ → Prop) : Program σ τ where
  start := P.start
  act s t s' next := condition s t ∧ P.act s t s' next

/-- A run whose steps meet a condition is a run. -/
theorem Run.of_when {P : Program σ τ} {condition : σ → τ → Prop} {s s' : System σ τ}
    (h : Run (P.when condition) s s') : Run P s s' := by
  refine ReflTransGen.mono (fun s s' hstep => ?_) _ _ h
  cases hstep with
  | start h => exact .start h
  | act h => exact .act h.2

/-- An assertion about the shared state, one for every waiting task, and what no two waiting tasks
are at the same time. -/
structure Outline (P : Program σ τ) (inv : σ → Prop) (waits : σ → τ → Prop)
    (apart : τ → τ → Prop) : Prop where
  start : ∀ {s t}, inv s → P.start s t → waits s t
  starts_apart : ∀ {s t u}, inv s → P.start s t → waits s u → apart t u
  /-- A step keeps the invariant. -/
  keeps : ∀ {s t s' next}, inv s → waits s t → P.act s t s' next → inv s'
  /-- A step leads to the task's next assertion. -/
  leads : ∀ {s t s' next}, inv s → waits s t → P.act s t s' (some next) → waits s' next
  leads_apart : ∀ {s t s' next u}, inv s → waits s t → waits s u → apart t u →
    P.act s t s' (some next) → apart next u
  /-- A step does not interfere with another task. -/
  free : ∀ {s t s' next u}, inv s → waits s t → waits s u → apart t u → P.act s t s' next →
    waits s' u
  symm : ∀ {t u}, apart t u → apart u t

variable {P : Program σ τ} {inv : σ → Prop} {waits : σ → τ → Prop} {apart : τ → τ → Prop}
  {s s' : System σ τ}

/-- The state and the waiting tasks satisfy an outline. -/
structure Holds (inv : σ → Prop) (waits : σ → τ → Prop) (apart : τ → τ → Prop) (s : System σ τ) :
    Prop where
  inv : inv s.shared
  waits : ∀ t ∈ s.tasks, waits s.shared t
  apart : s.tasks.Pairwise apart

theorem Outline.step (h : Outline P inv waits apart) (hholds : Holds inv waits apart s)
    (hstep : Step P s s') : Holds inv waits apart s' := by
  obtain ⟨hinv, hwaits, hapart⟩ := hholds
  cases hstep with
  | start hstart =>
    refine ⟨hinv, fun t ht => ?_, List.pairwise_cons.mpr ⟨fun u hu => ?_, hapart⟩⟩
    · rcases List.mem_cons.mp ht with rfl | ht
      · exact h.start hinv hstart
      · exact hwaits t ht
    · exact h.starts_apart hinv hstart (hwaits u hu)
  | @act s s' before after t next hact =>
    have ht : waits s t := hwaits t (by simp)
    -- the other tasks, on either side of the one that steps
    have hother : ∀ u, u ∈ before ∨ u ∈ after → waits s u := fun u hu =>
      hwaits u (by rcases hu with hu | hu <;> simp [hu])
    obtain ⟨hbefore, hrest, hcross⟩ := List.pairwise_append.mp hapart
    obtain ⟨htafter, hafter⟩ := List.pairwise_cons.mp hrest
    have htu : ∀ u, u ∈ before ∨ u ∈ after → apart t u := by
      rintro u (hu | hu)
      · exact h.symm (hcross u hu t List.mem_cons_self)
      · exact htafter u hu
    have hfree : ∀ u, u ∈ before ∨ u ∈ after → waits s' u := fun u hu =>
      h.free hinv ht (hother u hu) (htu u hu) hact
    cases next with
    | none =>
      refine ⟨h.keeps hinv ht hact, fun u hu => hfree u (List.mem_append.mp hu), ?_⟩
      exact List.pairwise_append.mpr
        ⟨hbefore, hafter, fun u hu v hv => hcross u hu v (List.mem_cons_of_mem _ hv)⟩
    | some next =>
      have hnext : ∀ u, u ∈ before ∨ u ∈ after → apart next u := fun u hu =>
        h.leads_apart hinv ht (hother u hu) (htu u hu) hact
      refine ⟨h.keeps hinv ht hact, fun u hu => ?_, ?_⟩
      · rcases List.mem_append.mp hu with hu | hu
        · exact hfree u (Or.inl hu)
        · rcases List.mem_cons.mp hu with rfl | hu
          · exact h.leads hinv ht hact
          · exact hfree u (Or.inr hu)
      · refine List.pairwise_append.mpr ⟨hbefore, List.pairwise_cons.mpr
          ⟨fun u hu => hnext u (Or.inr hu), hafter⟩, fun u hu v hv => ?_⟩
        rcases List.mem_cons.mp hv with rfl | hv
        · exact h.symm (hnext u (Or.inl hu))
        · exact hcross u hu v (List.mem_cons_of_mem _ hv)

/-- A valid outline holds in every run. -/
theorem Outline.run (h : Outline P inv waits apart) (hholds : Holds inv waits apart s)
    (hrun : Run P s s') : Holds inv waits apart s' := by
  induction hrun with
  | refl => exact hholds
  | tail _ hstep ih => exact h.step ih hstep

/-- A run that started without waiting tasks. -/
theorem Outline.run_idle (h : Outline P inv waits apart) {start : σ} (hinv : inv start)
    (hrun : Run P ⟨start, []⟩ s) : Holds inv waits apart s :=
  h.run ⟨hinv, by simp, .nil⟩ hrun

/-- An outline of tasks that do not exclude each other. -/
theorem Outline.of_free (start : ∀ {s t}, inv s → P.start s t → waits s t)
    (keeps : ∀ {s t s' next}, inv s → waits s t → P.act s t s' next → inv s')
    (leads : ∀ {s t s' next}, inv s → waits s t → P.act s t s' (some next) → waits s' next)
    (free : ∀ {s t s' next u}, inv s → waits s t → waits s u → P.act s t s' next → waits s' u) :
    Outline P inv waits fun _ _ => True where
  start := start
  starts_apart _ _ _ := trivial
  keeps := keeps
  leads := leads
  leads_apart _ _ _ _ _ := trivial
  free hinv ht hu _ hact := free hinv ht hu hact
  symm _ := trivial

/-- Something is done, or a waiting task attends to it. -/
def Attended (done : σ → Prop) (attends : σ → τ → Prop) (s : System σ τ) : Prop :=
  done s.shared ∨ ∃ t ∈ s.tasks, attends s.shared t

/-- What is done or attended to stays so: a task that attends to it does it or hands it on, and
a step of another task does it, leaves it attended or attends to it next. -/
structure Outline.Attends (P : Program σ τ) (inv : σ → Prop) (waits : σ → τ → Prop)
    (done : σ → Prop) (attends : σ → τ → Prop) : Prop where
  own : ∀ {s t s' next}, inv s → waits s t → P.act s t s' next → done s ∨ attends s t →
    done s' ∨ ∃ n ∈ next, attends s' n
  other : ∀ {s t s' next u}, inv s → waits s t → P.act s t s' next → attends s u →
    done s' ∨ attends s' u ∨ ∃ n ∈ next, attends s' n

section Attention

variable {done : σ → Prop} {attends : σ → τ → Prop}

theorem Outline.Attends.step (h : Outline.Attends P inv waits done attends)
    (hholds : Holds inv waits apart s) (hattended : Attended done attends s)
    (hstep : Step P s s') : Attended done attends s' := by
  cases hstep with
  | start hstart =>
    rcases hattended with hdone | ⟨t, ht, hattends⟩
    · exact Or.inl hdone
    · exact Or.inr ⟨t, List.mem_cons_of_mem _ ht, hattends⟩
  | @act s s' before after t next hact =>
    have ht : waits s t := hholds.waits t (by simp)
    have hnext : ∀ n ∈ next, n ∈ before ++ (next.toList ++ after) := fun n hn => by
      simp only [List.mem_append, Option.mem_toList]
      exact Or.inr (Or.inl hn)
    have hown : done s ∨ attends s t →
        Attended done attends ⟨s', before ++ (next.toList ++ after)⟩ := by
      intro hor
      rcases h.own hholds.inv ht hact hor with hdone | ⟨n, hn, hattends⟩
      · exact Or.inl hdone
      · exact Or.inr ⟨n, hnext n hn, hattends⟩
    rcases hattended with hdone | ⟨u, hu, hattends⟩
    · exact hown (Or.inl hdone)
    · rcases Classical.em (u = t) with rfl | hne
      · exact hown (Or.inr hattends)
      · have hmem : u ∈ before ++ (next.toList ++ after) := by
          simp only [List.mem_append, List.mem_cons, hne, false_or] at hu ⊢
          exact hu.imp_right Or.inr
        rcases h.other hholds.inv ht hact hattends with hdone | hu | ⟨n, hn, hattends⟩
        · exact Or.inl hdone
        · exact Or.inr ⟨u, hmem, hu⟩
        · exact Or.inr ⟨n, hnext n hn, hattends⟩

/-- In a run under an outline, what was done or attended to at the start stays so. -/
theorem Outline.Attends.run (h : Outline.Attends P inv waits done attends)
    (houtline : Outline P inv waits apart) (hholds : Holds inv waits apart s)
    (hattended : Attended done attends s) (hrun : Run P s s') : Attended done attends s' := by
  induction hrun with
  | refl => exact hattended
  | tail hrun hstep ih => exact h.step (houtline.run hholds hrun) ih hstep

end Attention

end Concurrent
