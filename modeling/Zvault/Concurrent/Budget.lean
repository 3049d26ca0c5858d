import Zvault.Concurrent.Tasks
import Mathlib.Algebra.BigOperators.Group.List.Basic
import Mathlib.Tactic.Ring

/-!
# What the steps of a run pay for

A run recorded with its steps, and budgets over it. A budget says how much the
shared state holds and how much a waiting task carries; when every step spends
no more than what was there and what it earns, neither does a whole run.
-/

namespace Concurrent

variable {σ τ : Type*}

/-- A step that a task did: the shared state before and after it, and what the task does next. -/
structure Act (σ τ : Type*) where
  before : σ
  task : τ
  after : σ
  next : Option τ

/-- A run and the steps of its tasks, the last one first. -/
inductive Logged (P : Program σ τ) (start : System σ τ) : List (Act σ τ) → System σ τ → Prop
  | refl : Logged P start [] start
  | start {trace : List (Act σ τ)} {s : σ} {tasks : List τ} {t : τ}
      (hrun : Logged P start trace ⟨s, tasks⟩) (h : P.start s t) :
      Logged P start trace ⟨s, t :: tasks⟩
  | act {trace : List (Act σ τ)} {s s' : σ} {before after : List τ} {t : τ} {next : Option τ}
      (hrun : Logged P start trace ⟨s, before ++ t :: after⟩) (h : P.act s t s' next) :
      Logged P start (⟨s, t, s', next⟩ :: trace) ⟨s', before ++ (next.toList ++ after)⟩

section Traces

variable {P : Program σ τ} {start s : System σ τ} {trace : List (Act σ τ)}

theorem Logged.run (h : Logged P start trace s) : Run P start s := by
  induction h with
  | refl => exact .refl
  | start _ h ih => exact ih.tail (.start h)
  | act _ h ih => exact ih.tail (.act h)

theorem Logged.of_when {condition : σ → τ → Prop} (h : Logged (P.when condition) start trace s) :
    Logged P start trace s := by
  induction h with
  | refl => exact .refl
  | start _ h ih => exact ih.start h
  | act _ h ih => exact ih.act h.2

/-- The task that started last does a step and waits again. -/
theorem Logged.next {x x' : σ} {t next : τ} {rest : List τ}
    (h : Logged P start trace ⟨x, t :: rest⟩) (hact : P.act x t x' (some next)) :
    Logged P start (⟨x, t, x', some next⟩ :: trace) ⟨x', next :: rest⟩ := by
  have hbefore : Logged P start trace ⟨x, [] ++ t :: rest⟩ := h
  exact hbefore.act hact

/-- The task that started last does its last step. -/
theorem Logged.last {x x' : σ} {t : τ} {rest : List τ} (h : Logged P start trace ⟨x, t :: rest⟩)
    (hact : P.act x t x' none) : Logged P start (⟨x, t, x', none⟩ :: trace) ⟨x', rest⟩ := by
  have hbefore : Logged P start trace ⟨x, [] ++ t :: rest⟩ := h
  exact hbefore.act hact

end Traces

/-- What the state holds, what a waiting task carries, and what a step earns and spends. A task
that starts carries nothing, and no step spends what is not there. -/
structure Budget (P : Program σ τ) (held : σ → ℕ) (carried : τ → ℕ) (earns spends : Act σ τ → Bool)
    (worth : ℕ) : Prop where
  start : ∀ {s t}, P.start s t → carried t = 0
  act : ∀ {s t s' next}, P.act s t s' next →
    held s' + (next.map carried).getD 0 + (spends ⟨s, t, s', next⟩).toNat ≤
      held s + carried t + worth * (earns ⟨s, t, s', next⟩).toNat

variable {P : Program σ τ} {held : σ → ℕ} {carried : τ → ℕ} {earns spends : Act σ τ → Bool}
  {worth : ℕ}

private theorem countP_cons_toNat {α : Type*} (p : α → Bool) (a : α) (l : List α) :
    (a :: l).countP p = l.countP p + (p a).toNat := by
  rw [List.countP_cons]
  cases p a with
  | false => rfl
  | true => rfl

/-- Steps of two kinds. -/
theorem countP_or_le {α : Type*} (p q : α → Bool) (l : List α) :
    l.countP (fun a => p a || q a) ≤ l.countP p + l.countP q := by
  induction l with
  | nil => exact Nat.le_refl 0
  | cons a l ih =>
    have hor : (p a || q a).toNat ≤ (p a).toNat + (q a).toNat := by
      cases p a <;> cases q a <;> decide
    simp only [countP_cons_toNat]
    omega

/-- What a whole run leaves and has spent was there at its start or earned on the way. -/
theorem Budget.run (h : Budget P held carried earns spends worth) {start s : System σ τ}
    {trace : List (Act σ τ)} (hrun : Logged P start trace s) :
    held s.shared + (s.tasks.map carried).sum + trace.countP spends ≤
      held start.shared + (start.tasks.map carried).sum + worth * trace.countP earns := by
  induction hrun with
  | refl => exact Nat.le_refl _
  | start _ hstart ih =>
    simp only [List.map_cons, List.sum_cons, h.start hstart, Nat.zero_add] at ih ⊢
    exact ih
  | @act trace s s' before after t next _ hact ih =>
    have hstep := h.act hact
    have hnext : (next.toList.map carried).sum = (next.map carried).getD 0 := by
      cases next with
      | none => rfl
      | some n => simp
    simp only [List.map_append, List.sum_append, List.map_cons, List.sum_cons, hnext,
      countP_cons_toNat, Nat.mul_add] at ih ⊢
    omega

/-- What is held in the end, when the run started with no task waiting. -/
theorem Budget.run_idle (h : Budget P held carried earns spends worth) {start : σ}
    {s : System σ τ} {trace : List (Act σ τ)} (hrun : Logged P ⟨start, []⟩ trace s) :
    held s.shared + trace.countP spends ≤ held start + worth * trace.countP earns := by
  have hall := h.run hrun
  simp only [List.map_nil, List.sum_nil] at hall
  omega

end Concurrent
