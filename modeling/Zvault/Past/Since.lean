import Mathlib.Data.Nat.Notation

/-!
# Since

What has held ever since something happened, over a list of events with the
latest last.
-/

namespace Past

variable {α : Type*} {happened ended : α → Prop} {events : List α} {e : α}

/-- Something happened, and nothing that ends it came after. -/
def Since (happened ended : α → Prop) (events : List α) : Prop :=
  ∃ before e after, events = before ++ e :: after ∧ happened e ∧ ∀ x ∈ after, ¬ ended x

/-- It happens now. -/
theorem Since.now (h : happened e) : Since happened ended (events ++ [e]) :=
  ⟨events, e, [], rfl, h, nofun⟩

/-- What has held so far still does, unless it ends now. -/
theorem Since.later (h : Since happened ended events) (he : ¬ ended e) :
    Since happened ended (events ++ [e]) := by
  obtain ⟨before, x, after, rfl, hx, hafter⟩ := h
  refine ⟨before, x, after ++ [e], by simp, hx, fun y hy => ?_⟩
  rcases List.mem_append.mp hy with hy | hy
  · exact hafter y hy
  · obtain rfl := List.mem_singleton.mp hy
    exact he

theorem Since.mono {happened' : α → Prop} (h : Since happened ended events)
    (himp : ∀ e ∈ events, happened e → happened' e) : Since happened' ended events := by
  obtain ⟨before, x, after, rfl, hx, hafter⟩ := h
  exact ⟨before, x, after, rfl, himp x (by simp) hx, hafter⟩

/-- What a run over the events keeps: it holds at the start, and every event keeps it. -/
theorem foldl_induction {σ : Type*} {step : σ → α → σ} {s : σ} {inv : List α → σ → Prop}
    (start : inv [] s)
    (next : ∀ events s e, inv events s → inv (events ++ [e]) (step s e)) (events : List α) :
    inv events (events.foldl step s) := by
  have hall : ∀ (rest done : List α) (s : σ), inv done s → inv (done ++ rest) (rest.foldl step s) := by
    intro rest
    induction rest with
    | nil =>
      intro done s hs
      rwa [List.append_nil]
    | cons e rest ih =>
      intro done s hs
      rw [List.append_cons]
      exact ih (done ++ [e]) (step s e) (next done s e hs)
  exact hall events [] s start

end Past
