import Zvault.Desktop.Commands

/-!
# The three parts of the lock state

A lock or an unlock visits the parts one after another, and sets each to the
account it opens, or to none. A turn is numbered when it reaches its first part.
When no turn comes to a part after a later one, the last turn is the last at
every part once all are done.
-/

namespace Zvault.Desktop

/-- What the parts hold, and who was last at them. -/
structure LockState where
  process : ℕ
  session : Option Account
  keyring : Option SymmetricKey
  auth : Option Account
  turns : ℕ
  passed : Part → ℕ
  opens : ℕ → Option Account

namespace LockState

/-- The parts agree: all hold the same account, or none does. -/
def Agrees (s : LockState) : Prop :=
  ∃ holder : Option Account,
    s.session = holder ∧ s.keyring = holder.map Account.keyset ∧ s.auth = holder

/-- Whether a part holds what an account gives it. -/
def Holds (s : LockState) (account : Option Account) : Part → Prop
  | .session => s.session = account
  | .keyring => s.keyring = account.map Account.keyset
  | .auth => s.auth = account

/-- A part is set. -/
def set (s : LockState) (account : Option Account) : Part → LockState
  | .session => { s with session := account }
  | .keyring => { s with keyring := account.map Account.keyset }
  | .auth => { s with auth := account }

def enter (s : LockState) (part : Part) (account : Option Account) : LockState :=
  { s.set account part with
    turns := s.turns + 1
    passed := fun p => if p = part then s.turns + 1 else s.passed p
    opens := fun turn => if turn = s.turns + 1 then account else s.opens turn }

def pass (s : LockState) (part : Part) (turn : ℕ) (account : Option Account) : LockState :=
  { s.set account part with passed := fun p => if p = part then turn else s.passed p }

def restarted (s : LockState) : LockState where
  process := s.process + 1
  session := none
  keyring := none
  auth := none
  turns := s.turns + 1
  passed := fun _ => s.turns + 1
  opens := fun turn => if turn = s.turns + 1 then none else s.opens turn

@[simp] theorem holds_set {s : LockState} {account : Option Account} {part : Part} :
    (s.set account part).Holds account part := by
  cases part <;> rfl

theorem holds_set_of_ne {s : LockState} {account other : Option Account} {part p : Part}
    (hne : p ≠ part) : (s.set account part).Holds other p ↔ s.Holds other p := by
  cases part <;> cases p <;> first | exact absurd rfl hne | exact Iff.rfl

end LockState

/-- The parts that a turn still visits. -/
structure Visit where
  turn : ℕ
  account : Option Account
  parts : List Part

/-- What is left of a visit. -/
def Visit.ofParts (turn : ℕ) (account : Option Account) : List Part → Option Visit
  | [] => none
  | parts => some ⟨turn, account, parts⟩

/-- What a step of a call does to the lock state: nothing, reach a first part with the other ones
ahead, reach the next part, or restart. -/
inductive LockState.Moves (s : LockState) : Option Visit → LockState → Option Visit → Prop
  | stays (visit : Option Visit) : Moves s visit s visit
  | enters (part : Part) (account : Option Account) (parts : List Part)
      (hall : ∀ p, p = part ∨ p ∈ parts) :
      Moves s none (s.enter part account) (Visit.ofParts (s.turns + 1) account parts)
  | passes (turn : ℕ) (account : Option Account) (part : Part) (parts : List Part) :
      Moves s (some ⟨turn, account, part :: parts⟩) (s.pass part turn account)
        (Visit.ofParts turn account parts)
  | restarts : Moves s none s.restarted none

section Turns

variable {s s' : LockState} {visit next : Option Visit}

/-- Every part holds what the turn that was last at it opens. -/
structure LockState.Sound (s : LockState) : Prop where
  holds : ∀ part, s.Holds (s.opens (s.passed part)) part
  passed_le : ∀ part, s.passed part ≤ s.turns

structure Visit.Sound (s : LockState) (visit : Visit) : Prop where
  turn_le : visit.turn ≤ s.turns
  opens : s.opens visit.turn = visit.account

/-- No later turn has been at the next part of a visit. -/
def Visit.InTurn (s : LockState) (visit : Visit) : Prop :=
  ∀ part ∈ visit.parts.head?, s.passed part ≤ visit.turn

/-- The latest turn is on a visit, and has a part ahead. -/
def Visit.Attends (s : LockState) (part : Part) (visit : Visit) : Prop :=
  visit.turn = s.turns ∧ part ∈ visit.parts

theorem Visit.mem_ofParts {turn : ℕ} {account : Option Account} {parts : List Part} {visit : Visit}
    (h : visit ∈ Visit.ofParts turn account parts) : visit = ⟨turn, account, parts⟩ := by
  cases parts with
  | nil => cases h
  | cons part parts => exact (Option.some_inj.mp h).symm

theorem Visit.ofParts_attends {turn : ℕ} {account : Option Account} {parts : List Part}
    {part : Part} (hpart : part ∈ parts) (hturn : turn = s.turns) :
    ∃ visit ∈ Visit.ofParts turn account parts, visit.Attends s part := by
  cases parts with
  | nil => cases hpart
  | cons first parts => exact ⟨_, rfl, hturn, hpart⟩

/-- A visit stays sound, since no turn is given out twice. -/
theorem LockState.Moves.visit_sound (h : s.Moves visit s' next) {other : Visit}
    (hother : other.Sound s) : other.Sound s' := by
  have hlt : other.turn ≠ s.turns + 1 := Nat.ne_of_lt (Nat.lt_succ_of_le hother.turn_le)
  cases h with
  | stays => exact hother
  | enters part account parts => exact ⟨Nat.le_succ_of_le hother.turn_le, by
      simpa only [LockState.enter, if_neg hlt] using hother.opens⟩
  | passes turn account part parts => cases part <;> exact ⟨hother.turn_le, hother.opens⟩
  | restarts => exact ⟨Nat.le_succ_of_le hother.turn_le, by
      simpa only [LockState.restarted, if_neg hlt] using hother.opens⟩

/-- A part that is set holds what its turn opens, the others what they held. -/
theorem LockState.Sound.set (h : s.Sound) (part : Part) {account : Option Account} {turns : ℕ}
    {opens : ℕ → Option Account} (hturns : s.turns ≤ turns)
    (hopens : ∀ turn ≤ s.turns, opens turn = s.opens turn) {turn : ℕ} (hturn : turn ≤ turns)
    (haccount : opens turn = account) :
    LockState.Sound { s.set account part with
      turns, opens, passed := fun p => if p = part then turn else s.passed p } where
  holds p := by
    dsimp only
    split
    · rename_i heq
      subst heq
      rw [haccount]
      cases p <;> rfl
    · rename_i hne
      rw [hopens _ (h.passed_le p)]
      have hp : (s.set account part).Holds (s.opens (s.passed p)) p :=
        (LockState.holds_set_of_ne hne).mpr (h.holds p)
      cases p <;> exact hp
  passed_le p := by
    dsimp only
    split
    · exact hturn
    · exact Nat.le_trans (h.passed_le p) hturns

theorem LockState.Moves.sound (h : s.Moves visit s' next) (hs : s.Sound)
    (hvisit : ∀ v ∈ visit, v.Sound s) : s'.Sound ∧ ∀ v ∈ next, v.Sound s' := by
  cases h with
  | stays => exact ⟨hs, hvisit⟩
  | enters part account parts =>
    have hopens : ∀ turn ≤ s.turns,
        (if turn = s.turns + 1 then account else s.opens turn) = s.opens turn :=
      fun turn hle => if_neg (Nat.ne_of_lt (Nat.lt_succ_of_le hle))
    refine ⟨hs.set _ (Nat.le_succ _) hopens (Nat.le_refl _) (if_pos rfl), fun v hv => ?_⟩
    obtain rfl := Visit.mem_ofParts hv
    exact ⟨Nat.le_refl _, if_pos rfl⟩
  | passes turn account part parts =>
    obtain ⟨hle, hopens⟩ := hvisit _ rfl
    refine ⟨?_, fun v hv => ?_⟩
    · have hset := hs.set part (Nat.le_refl _) (fun _ _ => rfl) hle hopens
      cases part <;> exact hset
    · obtain rfl := Visit.mem_ofParts hv
      cases part <;> exact ⟨hle, hopens⟩
  | restarts =>
    refine ⟨⟨fun part => ?_, fun part => Nat.le_refl _⟩, nofun⟩
    simp only [LockState.restarted, if_true]
    cases part <;> rfl

/-- The latest turn has been at a part, or a visit of it will be there, when turns come to the
parts in order. -/
theorem LockState.Moves.attended (h : s.Moves visit s' next) (hvisit : ∀ v ∈ visit, v.Sound s)
    (hinTurn : ∀ v ∈ visit, v.InTurn s) {part : Part}
    (hor : s.passed part = s.turns ∨ ∃ v ∈ visit, v.Attends s part) :
    s'.passed part = s'.turns ∨ ∃ v ∈ next, v.Attends s' part := by
  cases h with
  | stays => exact hor
  | enters first account parts hall =>
    rcases hall part with rfl | hpart
    · exact Or.inl (if_pos rfl)
    · exact Or.inr (Visit.ofParts_attends hpart rfl)
  | passes turn account first parts =>
    obtain ⟨hle, -⟩ := hvisit _ rfl
    have hturns : (s.pass first turn account).turns = s.turns := by cases first <;> rfl
    rcases Classical.em (part = first) with rfl | hne
    · left
      have hturn : turn = s.turns := by
        rcases hor with hdone | ⟨v, hv, hattends⟩
        · have hpassed := hinTurn _ rfl part rfl
          exact Nat.le_antisymm hle (hdone ▸ hpassed)
        · obtain rfl := Option.some_inj.mp hv
          exact hattends.1
      rw [hturns, ← hturn]
      exact if_pos rfl
    · have hpassed : (s.pass first turn account).passed part = s.passed part := if_neg hne
      rcases hor with hdone | ⟨v, hv, hattends⟩
      · exact Or.inl (by rw [hpassed, hturns, hdone])
      · obtain rfl := Option.some_inj.mp hv
        have hpart : part ∈ parts := (List.mem_cons.mp hattends.2).resolve_left hne
        exact Or.inr (Visit.ofParts_attends hpart (by rw [hturns]; exact hattends.1))
  | restarts => exact Or.inl rfl

/-- A visit of the latest turn is the latest, unless a later one begins. -/
theorem LockState.Moves.other_attended (h : s.Moves visit s' next) {part : Part} {other : Visit}
    (hother : other.Attends s part) :
    s'.passed part = s'.turns ∨ other.Attends s' part ∨ ∃ v ∈ next, v.Attends s' part := by
  cases h with
  | stays => exact Or.inr (Or.inl hother)
  | enters first account parts hall =>
    rcases hall part with rfl | hpart
    · exact Or.inl (if_pos rfl)
    · exact Or.inr (Or.inr (Visit.ofParts_attends hpart rfl))
  | passes turn account first parts => cases first <;> exact Or.inr (Or.inl hother)
  | restarts => exact Or.inl rfl

theorem LockState.Moves.process (h : s.Moves visit s' next) :
    s'.process = s.process ∨ ∀ part, s'.passed part = s'.turns := by
  cases h with
  | stays => exact Or.inl rfl
  | enters part => cases part <;> exact Or.inl rfl
  | passes turn account part => cases part <;> exact Or.inl rfl
  | restarts => exact Or.inr fun _ => rfl

/-- When the latest turn was the last at every part, the parts agree. -/
theorem LockState.Sound.agrees (h : s.Sound) (hlast : ∀ part, s.passed part = s.turns) :
    s.Agrees := by
  have hholds : ∀ part, s.Holds (s.opens s.turns) part := fun part => hlast part ▸ h.holds part
  exact ⟨s.opens s.turns, hholds .session, hholds .keyring, hholds .auth⟩

end Turns

end Zvault.Desktop
