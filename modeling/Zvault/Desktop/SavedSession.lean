import Zvault.Desktop.Commands

/-!
# Whether a saved session is left

What the steps of the app do to the saved session of "Stay unlocked". A closing
(a lock, or turning the setting off) starts a thread that deletes it. A record
that is written late is still deleted when a thread has yet to run.
-/

namespace Zvault.Desktop

/-- What decides whether a saved session is left. -/
structure SaveState where
  process : ℕ
  locked : Bool
  stays : Bool
  stored : Bool
  forgets : ℕ
  closings : ℕ
  lockedSince : Bool
  offSince : Bool

/-- The vault was locked or the setting turned off, and no unlock was requested since. -/
def SaveState.IsClosed (s : SaveState) : Prop := s.lockedSince = true ∨ s.offSince = true

/-- What a call is still to do: start a thread of `forget`, or write a record that was built after
so many closings. -/
inductive Errand where
  | forget
  | save (closings : ℕ)

/-- An unlock was requested after the last lock, and the setting was not turned off since. -/
def SaveState.UnlockInOrder (s : SaveState) : Prop :=
  s.lockedSince = false ∧ (s.offSince = true → s.stays = false)

/-- A record that was built before a closing is written before the deletes have run. -/
def SaveState.SaveInOrder (s : SaveState) (closings : ℕ) : Prop :=
  closings < s.closings → s.IsClosed → 0 < s.forgets

/-- The app restarts after the deletes have run. -/
def SaveState.RestartInOrder (s : SaveState) : Prop := s.IsClosed → s.stored = false

/-- What a step of a call does to the saved session, when it is in order. -/
inductive SaveState.Moves (s : SaveState) : Option Errand → SaveState → Option Errand → Prop
  | stays (errand : Option Errand) : Moves s errand s errand
  | requests : Moves s none { s with lockedSince := false, offSince := false } none
  | unlocks (h : s.UnlockInOrder) : Moves s none { s with locked := false } none
  | locks : Moves s none
      { s with locked := true, closings := s.closings + 1, lockedSince := true } (some .forget)
  | forgets (errand : Option Errand) : Moves s errand { s with forgets := s.forgets + 1 } none
  | turnsOff : Moves s none
      { s with stays := false, closings := s.closings + 1, offSince := true } (some .forget)
  | turnsOn : Moves s none { s with stays := true, offSince := false } none
  | builds (hunlocked : s.locked = false) (hstays : s.stays = true) :
      Moves s none s (some (.save s.closings))
  | writes (closings : ℕ) (h : s.SaveInOrder closings) :
      Moves s (some (.save closings)) { s with stored := true } none
  | fails (closings : ℕ) : Moves s (some (.save closings)) s none
  | deletes (forgets : ℕ) : Moves s none { s with forgets, stored := false } none
  | restarts (stays : Bool) (h : s.RestartInOrder) :
      Moves s none { s with process := s.process + 1, locked := true, stays, forgets := 0 } none

section Moves

variable {s s' : SaveState} {errand next : Option Errand}

/-- A closed vault is locked, or nothing is saved. -/
structure SaveState.Sound (s : SaveState) : Prop where
  locked : s.lockedSince = true → s.locked = true
  off : s.offSince = true → s.locked = true ∨ s.stays = false

/-- A record that no closing has come after was built for a vault that is not closed. -/
def Errand.Sound (s : SaveState) : Errand → Prop
  | .forget => True
  | .save closings => closings ≤ s.closings ∧ (closings = s.closings → ¬ s.IsClosed)

/-- No saved session is left by a closing, or it will be deleted. -/
def SaveState.Settled (s : SaveState) : Prop := s.IsClosed → s.stored = false ∨ 0 < s.forgets

theorem SaveState.Sound.not_closed (h : s.Sound) (hunlocked : s.locked = false)
    (hstays : s.stays = true) : ¬ s.IsClosed := by
  rintro (hlocked | hoff)
  · rw [h.locked hlocked] at hunlocked
    cases hunlocked
  · rcases h.off hoff with hlocked | hstays'
    · rw [hlocked] at hunlocked
      cases hunlocked
    · rw [hstays'] at hstays
      cases hstays

theorem SaveState.Moves.sound (h : s.Moves errand s' next) (hs : s.Sound)
    (herrand : ∀ e ∈ errand, e.Sound s) : s'.Sound ∧ ∀ e ∈ next, e.Sound s' := by
  cases h with
  | stays => exact ⟨hs, herrand⟩
  | requests => exact ⟨⟨nofun, nofun⟩, nofun⟩
  | unlocks hinOrder =>
    refine ⟨⟨fun hlocked => ?_, fun hoff => Or.inr (hinOrder.2 hoff)⟩, nofun⟩
    rw [hinOrder.1] at hlocked
    cases hlocked
  | locks =>
    refine ⟨⟨fun _ => rfl, fun _ => Or.inl rfl⟩, ?_⟩
    rintro _ ⟨⟩
    trivial
  | forgets => exact ⟨⟨hs.locked, hs.off⟩, nofun⟩
  | turnsOff =>
    refine ⟨⟨hs.locked, fun _ => Or.inr rfl⟩, ?_⟩
    rintro _ ⟨⟩
    trivial
  | turnsOn => exact ⟨⟨hs.locked, nofun⟩, nofun⟩
  | builds hunlocked hstays =>
    refine ⟨hs, ?_⟩
    rintro _ ⟨⟩
    exact ⟨Nat.le_refl _, fun _ => hs.not_closed hunlocked hstays⟩
  | writes => exact ⟨⟨hs.locked, hs.off⟩, nofun⟩
  | fails => exact ⟨hs, nofun⟩
  | deletes => exact ⟨⟨hs.locked, hs.off⟩, nofun⟩
  | restarts => exact ⟨⟨fun _ => rfl, fun _ => Or.inl rfl⟩, nofun⟩

/-- A record that waits to be written stays so. -/
theorem SaveState.Moves.errand_sound (h : s.Moves errand s' next) {other : Errand}
    (hother : other.Sound s) : other.Sound s' := by
  cases other with
  | forget => trivial
  | save closings =>
    obtain ⟨hle, hopen⟩ := hother
    cases h with
    | stays => exact ⟨hle, hopen⟩
    | requests => exact ⟨hle, fun _ hclosed => hclosed.elim nofun nofun⟩
    | unlocks => exact ⟨hle, hopen⟩
    | locks => exact ⟨Nat.le_succ_of_le hle, fun heq => by dsimp only at heq; omega⟩
    | forgets => exact ⟨hle, hopen⟩
    | turnsOff => exact ⟨Nat.le_succ_of_le hle, fun heq => by dsimp only at heq; omega⟩
    | turnsOn => exact ⟨hle, fun heq hclosed => hopen heq (hclosed.imp_right nofun)⟩
    | builds => exact ⟨hle, hopen⟩
    | writes => exact ⟨hle, hopen⟩
    | fails => exact ⟨hle, hopen⟩
    | deletes => exact ⟨hle, hopen⟩
    | restarts => exact ⟨hle, hopen⟩

/-- Nothing is left by a closing, or a thread of `forget` runs or is about to. -/
theorem SaveState.Moves.settled (h : s.Moves errand s' next) (herrand : ∀ e ∈ errand, e.Sound s)
    (hor : s.Settled ∨ errand = some .forget) : s'.Settled ∨ next = some .forget := by
  cases h with
  | stays => exact hor
  | requests => exact Or.inl fun hclosed => hclosed.elim nofun nofun
  | unlocks => exact Or.inl (hor.resolve_right nofun)
  | locks => exact Or.inr rfl
  | forgets => exact Or.inl fun _ => Or.inr (Nat.succ_pos _)
  | turnsOff => exact Or.inr rfl
  | turnsOn => exact Or.inl fun hclosed => hor.resolve_right nofun (hclosed.imp_right nofun)
  | builds => exact Or.inl (hor.resolve_right nofun)
  | writes closings hinOrder =>
    refine Or.inl fun hclosed => Or.inr ?_
    obtain ⟨hle, hopen⟩ := herrand _ rfl
    rcases Nat.lt_or_eq_of_le hle with hlt | heq
    · exact hinOrder hlt hclosed
    · exact absurd hclosed (hopen heq)
  | fails => exact Or.inl (hor.resolve_right nofun)
  | deletes => exact Or.inl fun _ => Or.inl rfl
  | restarts _ hinOrder => exact Or.inl fun hclosed => Or.inl (hinOrder hclosed)

/-- A process goes on, or nothing is left by a closing. -/
theorem SaveState.Moves.process (h : s.Moves errand s' next) :
    s'.process = s.process ∨ s'.Settled := by
  cases h with
  | restarts _ hinOrder => exact Or.inr fun hclosed => Or.inl (hinOrder hclosed)
  | _ => exact Or.inl rfl

end Moves

end Zvault.Desktop
