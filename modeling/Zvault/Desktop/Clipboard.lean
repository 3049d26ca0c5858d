import Mathlib.Data.Nat.Notation
import Zvault.Concurrent.Tasks

/-!
# Secrets on the clipboard

`ClipboardGuard` of `clipboard.rs`, with the commands that copy and the lock that
clears. Reads and writes of the clipboard succeed. A copy command checks the lock
or decrypts first and copies later, so a lock may come in between.
-/

namespace Zvault.Desktop

open Concurrent

/-- `Fingerprint`: a salt, and the digest of a text with it. -/
structure Fingerprint (D : Type) where
  salt : ℕ
  digest : D
  deriving DecidableEq, Repr

structure Pending (D : Type) where
  fingerprint : Fingerprint D
  generation : ℕ
  deriving DecidableEq, Repr

/-- The clipboard, `Inner` of the guard, and what the commands read of the session. The fields from
`latest` on record the past and are never read. -/
structure ClipboardWorld (D : Type) where
  now : ℕ
  locked : Bool
  /-- The keyring holds the keys. -/
  opened : Bool
  clearSecs : ℕ
  /-- The text on the clipboard, if there is one. -/
  content : Option String
  pending : Option (Pending D)
  generation : ℕ
  /-- What the guard copied last. -/
  latest : Option String
  /-- When the timer of the last copy is due. -/
  due : ℕ
  /-- The timer of the last copy has fired. -/
  fired : Bool
  /-- The guard put there what is on the clipboard. -/
  ours : Bool
  /-- How many locks have cleared the clipboard. -/
  locks : ℕ
  /-- A lock has cleared the clipboard, and no copy command has begun since. -/
  lockedSince : Bool
  deriving DecidableEq, Repr

/-- What is done next. A command that is about to copy knows the locks there were when it began. -/
inductive ClipboardTask where
  | copySecret (text : String)
  | copyReference (text : String)
  | decrypting (text : String) (locks : ℕ)
  | copying (text : String) (clearAfter locks : ℕ)
  | timer (generation due : ℕ)
  | lock
  | lockKeyring
  | clear
  | unlock
  | unlockKeyring
  | userCopies (text : Option String)
  | setSettings (clearSecs : ℕ)
  | tick
  deriving DecidableEq, Repr

variable {D : Type} [DecidableEq D] (hash : ℕ → String → D)

def Fingerprint.new (salt : ℕ) (text : String) : Fingerprint D := ⟨salt, hash salt text⟩

def Fingerprint.matches (f : Fingerprint D) (text : String) : Bool := hash f.salt text = f.digest

namespace ClipboardWorld

/-- Nothing was copied yet. -/
def start (locked : Bool) (content : Option String) : ClipboardWorld D where
  now := 0
  locked := locked
  opened := !locked
  clearSecs := 90
  content := content
  pending := none
  generation := 0
  latest := none
  due := 0
  fired := false
  ours := false
  locks := 0
  lockedSince := false

variable (w : ClipboardWorld D)

/-- The critical section of `ClipboardGuard::copy_secret`. -/
def copy (salt : ℕ) (text : String) (clearAfter : ℕ) : ClipboardWorld D :=
  { w with
    content := some text
    pending := some ⟨.new hash salt text, w.generation + 1⟩
    generation := w.generation + 1
    latest := some text
    due := w.now + clearAfter
    fired := false
    ours := true }

/-- The clipboard still holds what the guard put there. -/
def holds (p : Pending D) : Bool := w.content.any (p.fingerprint.matches hash)

/-- `clear_if_ours`. -/
def clearIfOurs (onlyGeneration : Option ℕ) : ClipboardWorld D :=
  match w.pending with
  | none => w
  | some p =>
    if onlyGeneration.any (· ≠ p.generation) then w
    else if w.holds hash p then { w with pending := none, content := none, ours := false }
    else { w with pending := none }

def beginCopy : ClipboardWorld D := { w with lockedSince := false }

/-- A timer has cleared what it clears. -/
def afterTimer (generation : ℕ) : ClipboardWorld D :=
  { w with fired := w.fired || generation = w.generation }

/-- A lock has cleared what it clears. -/
def afterLock : ClipboardWorld D := { w with locks := w.locks + 1, lockedSince := true }

end ClipboardWorld

open ClipboardWorld in
/-- The next step of a task. What the user copies is not what the guard copied last. -/
inductive ClipboardAct : ClipboardWorld D → ClipboardTask → ClipboardWorld D →
    Option ClipboardTask → Prop
  /-- The check of the `copy_secret` command. -/
  | refused {w text} (h : w.locked = true) : ClipboardAct w (.copySecret text) w none
  | checked {w text} (h : w.locked = false) :
      ClipboardAct w (.copySecret text) w.beginCopy (some (.copying text w.clearSecs w.locks))
  /-- `copy` of a reference, which decrypts its value. -/
  | begins {w text} : ClipboardAct w (.copyReference text) w.beginCopy (some (.decrypting text w.locks))
  | sealed {w text locks} (h : w.opened = false) : ClipboardAct w (.decrypting text locks) w none
  | decrypted {w text locks} (h : w.opened = true) :
      ClipboardAct w (.decrypting text locks) w (some (.copying text w.clearSecs locks))
  | copied {w text clearAfter locks} (salt : ℕ) :
      ClipboardAct w (.copying text clearAfter locks) (w.copy hash salt text clearAfter)
        (some (.timer (w.generation + 1) (w.now + clearAfter)))
  | fires {w generation due} (h : due ≤ w.now) :
      ClipboardAct w (.timer generation due)
        ((w.clearIfOurs hash (some generation)).afterTimer generation) none
  | locks {w} : ClipboardAct w .lock { w with locked := true } (some .lockKeyring)
  | forgets {w} : ClipboardAct w .lockKeyring { w with opened := false } (some .clear)
  | clears {w} : ClipboardAct w .clear (w.clearIfOurs hash none).afterLock none
  | unlocks {w} : ClipboardAct w .unlock { w with locked := false } (some .unlockKeyring)
  | opens {w} : ClipboardAct w .unlockKeyring { w with opened := true } none
  | userCopies {w text} (h : ∀ t ∈ text, w.latest ≠ some t) :
      ClipboardAct w (.userCopies text) { w with content := text, ours := false } none
  | sets {w clearSecs} :
      ClipboardAct w (.setSettings clearSecs) { w with clearSecs := clearSecs } none
  | ticks {w} : ClipboardAct w .tick { w with now := w.now + 1 } none

/-- What other threads and the user begin. -/
def ClipboardTask.IsCall : ClipboardTask → Prop
  | .decrypting .. | .copying .. | .timer .. | .lockKeyring | .clear | .unlockKeyring => False
  | _ => True

/-- The commands, the timers and the locks of the app, and the user. -/
def clipboardProgram : Program (ClipboardWorld D) ClipboardTask where
  start _ t := t.IsCall
  act := ClipboardAct hash

namespace ClipboardWorld

variable {hash}

/-- The clipboard holds what the guard copied last exactly when the guard put it there, which it
remembers until a timer or a lock has asked. -/
structure IsValid (hash : ℕ → String → D) (w : ClipboardWorld D) : Prop where
  ours : w.ours = true ↔ ∃ text, w.latest = some text ∧ w.content = some text
  pending : ∀ p, w.pending = some p → p.generation = w.generation ∧
    ∃ text, w.latest = some text ∧ p.fingerprint.digest = hash p.fingerprint.salt text
  gone : w.pending = none → w.ours = false
  fired : w.fired = true → w.pending = none

/-- What a waiting task relies on. -/
def Waits (w : ClipboardWorld D) : ClipboardTask → Prop
  | .timer generation due => generation ≤ w.generation ∧ (generation = w.generation → due = w.due)
  | .decrypting _ locks => locks ≤ w.locks ∧ (w.lockedSince = true → locks < w.locks)
  | .copying _ _ locks => locks ≤ w.locks ∧ (w.lockedSince = true → locks < w.locks)
  | _ => True

variable {w : ClipboardWorld D}

omit [DecidableEq D] in
theorem isValid_start (locked : Bool) (content : Option String) :
    (start locked content : ClipboardWorld D).IsValid hash := by
  refine ⟨?_, nofun, fun _ => rfl, nofun⟩
  simp [start]

/-- The guard recognizes what it copied, and nothing else. -/
theorem holds_iff (hinj : ∀ salt, Function.Injective (hash salt)) (h : w.IsValid hash)
    {p : Pending D} (hp : w.pending = some p) : w.holds hash p = true ↔ w.ours = true := by
  obtain ⟨-, text, hlatest, hdigest⟩ := h.pending p hp
  have hmatches : ∀ t, p.fingerprint.matches hash t = true ↔ t = text := by
    intro t
    rw [Fingerprint.matches, decide_eq_true_eq, hdigest]
    exact (hinj _).eq_iff
  rw [h.ours, hlatest, holds]
  cases hcontent : w.content with
  | none => simp
  | some t =>
    rw [Option.any_some, hmatches]
    constructor
    · rintro rfl
      exact ⟨t, rfl, rfl⟩
    · rintro ⟨_, hsame, ht⟩
      cases hsame
      cases ht
      rfl

/-- What `clear_if_ours` does: nothing, or it forgets the copy and clears what the guard put there. -/
theorem clearIfOurs_cases (hinj : ∀ salt, Function.Injective (hash salt)) (h : w.IsValid hash)
    (onlyGeneration : Option ℕ) :
    (w.clearIfOurs hash onlyGeneration = w ∧
      (w.pending = none ∨ ∃ g, onlyGeneration = some g ∧ g ≠ w.generation)) ∨
    ((∀ g, onlyGeneration = some g → g = w.generation) ∧
      (w.ours = true ∧ w.clearIfOurs hash onlyGeneration =
          { w with pending := none, content := none, ours := false } ∨
        w.ours = false ∧ w.clearIfOurs hash onlyGeneration = { w with pending := none })) := by
  unfold clearIfOurs
  cases hp : w.pending with
  | none => exact Or.inl ⟨rfl, Or.inl rfl⟩
  | some p =>
    dsimp only
    have hgeneration := (h.pending p hp).1
    split
    · rename_i hother
      cases onlyGeneration with
      | none => cases hother
      | some g =>
        have hne : g ≠ p.generation := by simpa using hother
        exact Or.inl ⟨rfl, Or.inr ⟨g, rfl, hgeneration ▸ hne⟩⟩
    · rename_i hsame
      refine Or.inr ⟨?_, ?_⟩
      · rintro g rfl
        have hg : g = p.generation := by simpa using hsame
        exact hg.trans hgeneration
      · cases hours : w.ours with
        | true => exact Or.inl ⟨rfl, if_pos ((holds_iff hinj h hp).mpr hours)⟩
        | false =>
          refine Or.inr ⟨rfl, if_neg fun hholds => ?_⟩
          rw [(holds_iff hinj h hp).mp hholds] at hours
          cases hours

/-- Only the clipboard and what the guard remembers of it change. -/
theorem clearIfOurs_frame (hash : ℕ → String → D) (w : ClipboardWorld D)
    (onlyGeneration : Option ℕ) :
    (w.clearIfOurs hash onlyGeneration).generation = w.generation ∧
      (w.clearIfOurs hash onlyGeneration).latest = w.latest ∧
      (w.clearIfOurs hash onlyGeneration).due = w.due ∧
      (w.clearIfOurs hash onlyGeneration).fired = w.fired ∧
      (w.clearIfOurs hash onlyGeneration).locks = w.locks ∧
      (w.clearIfOurs hash onlyGeneration).lockedSince = w.lockedSince := by
  unfold clearIfOurs
  split
  · exact ⟨rfl, rfl, rfl, rfl, rfl, rfl⟩
  · split
    · exact ⟨rfl, rfl, rfl, rfl, rfl, rfl⟩
    · split
      · exact ⟨rfl, rfl, rfl, rfl, rfl, rfl⟩
      · exact ⟨rfl, rfl, rfl, rfl, rfl, rfl⟩

theorem isValid_clearIfOurs (hinj : ∀ salt, Function.Injective (hash salt)) (h : w.IsValid hash)
    (onlyGeneration : Option ℕ) : (w.clearIfOurs hash onlyGeneration).IsValid hash := by
  rcases clearIfOurs_cases hinj h onlyGeneration with ⟨hsame, -⟩ | ⟨-, ⟨-, hclear⟩ | ⟨hours, hkeep⟩⟩
  · rwa [hsame]
  · rw [hclear]
    exact ⟨by simp, nofun, fun _ => rfl, fun _ => rfl⟩
  · rw [hkeep]
    exact ⟨h.ours, nofun, fun _ => hours, fun _ => rfl⟩

/-- A timer of the last copy, or a lock, leaves nothing pending. -/
theorem pending_clearIfOurs (hinj : ∀ salt, Function.Injective (hash salt)) (h : w.IsValid hash)
    {onlyGeneration : Option ℕ} (hlast : ∀ g, onlyGeneration = some g → g = w.generation) :
    (w.clearIfOurs hash onlyGeneration).pending = none := by
  rcases clearIfOurs_cases hinj h onlyGeneration with
    ⟨hsame, hnone | ⟨g, hg, hne⟩⟩ | ⟨-, ⟨-, hclear⟩ | ⟨-, hkeep⟩⟩
  · rw [hsame, hnone]
  · exact absurd (hlast g hg) hne
  · rw [hclear]
  · rw [hkeep]

end ClipboardWorld

namespace ClipboardAct

open ClipboardWorld

variable {hash} {w w' : ClipboardWorld D} {t u : ClipboardTask} {next : Option ClipboardTask}

theorem keeps_valid (hinj : ∀ salt, Function.Injective (hash salt)) (h : w.IsValid hash)
    (hact : ClipboardAct hash w t w' next) : w'.IsValid hash := by
  cases hact with
  | refused _ => exact h
  | checked _ => exact ⟨h.ours, h.pending, h.gone, h.fired⟩
  | begins => exact ⟨h.ours, h.pending, h.gone, h.fired⟩
  | sealed _ => exact h
  | decrypted _ => exact h
  | @copied text _ _ salt =>
    refine ⟨⟨fun _ => ⟨text, rfl, rfl⟩, fun _ => rfl⟩, ?_, nofun, nofun⟩
    rintro p ⟨⟩
    exact ⟨rfl, text, rfl, rfl⟩
  | @fires generation due _ =>
    have hvalid := isValid_clearIfOurs hinj h (some generation)
    refine ⟨hvalid.ours, hvalid.pending, hvalid.gone, fun hfired => ?_⟩
    rcases Bool.or_eq_true_iff.mp hfired with hfired | hlast
    · exact hvalid.fired hfired
    · refine pending_clearIfOurs hinj h fun g hg => ?_
      cases hg
      exact (of_decide_eq_true hlast).trans (clearIfOurs_frame hash w _).1
  | locks => exact ⟨h.ours, h.pending, h.gone, h.fired⟩
  | forgets => exact ⟨h.ours, h.pending, h.gone, h.fired⟩
  | clears =>
    have hvalid := isValid_clearIfOurs hinj h none
    exact ⟨hvalid.ours, hvalid.pending, hvalid.gone, hvalid.fired⟩
  | unlocks => exact ⟨h.ours, h.pending, h.gone, h.fired⟩
  | opens => exact ⟨h.ours, h.pending, h.gone, h.fired⟩
  | userCopies hother =>
    refine ⟨⟨nofun, ?_⟩, h.pending, fun _ => rfl, h.fired⟩
    rintro ⟨text, hlatest, hcontent⟩
    exact absurd hlatest (hother text hcontent)
  | sets => exact ⟨h.ours, h.pending, h.gone, h.fired⟩
  | ticks => exact ⟨h.ours, h.pending, h.gone, h.fired⟩

/-- A step leads to what its task relies on next. -/
theorem leads (ht : w.Waits t) (hact : ClipboardAct hash w t w' (some u)) : w'.Waits u := by
  cases hact with
  | checked _ => exact ⟨Nat.le_refl _, nofun⟩
  | begins => exact ⟨Nat.le_refl _, nofun⟩
  | decrypted _ => exact ht
  | copied salt => exact ⟨Nat.le_refl _, fun _ => rfl⟩
  | locks => trivial
  | forgets => trivial
  | unlocks => trivial

/-- A step leaves what another task relies on. -/
theorem free (hu : w.Waits u) (hact : ClipboardAct hash w t w' next) : w'.Waits u := by
  have hframe : ∀ {v : ClipboardWorld D}, v.generation = w.generation → v.due = w.due →
      v.locks = w.locks → (v.lockedSince = true → w.lockedSince = true) → v.Waits u := by
    intro v hgeneration hdue hlocks hsince
    cases u with
    | timer generation due => exact ⟨hgeneration ▸ hu.1, hgeneration ▸ hdue ▸ hu.2⟩
    | decrypting text locks => exact ⟨hlocks ▸ hu.1, fun hv => hlocks ▸ hu.2 (hsince hv)⟩
    | copying text clearAfter locks =>
      exact ⟨hlocks ▸ hu.1, fun hv => hlocks ▸ hu.2 (hsince hv)⟩
    | _ => trivial
  cases hact with
  | refused _ => exact hu
  | checked _ => exact hframe rfl rfl rfl nofun
  | begins => exact hframe rfl rfl rfl nofun
  | sealed _ => exact hu
  | decrypted _ => exact hu
  | copied salt =>
    cases u with
    | timer generation due =>
      have hle := hu.1
      refine ⟨Nat.le_succ_of_le hle, fun hsame => ?_⟩
      have hsucc : generation = w.generation + 1 := hsame
      omega
    | decrypting text locks => exact hu
    | copying text clearAfter locks => exact hu
    | _ => trivial
  | @fires generation due _ =>
    obtain ⟨hgeneration, -, hdue, -, hlocks, hsince⟩ := clearIfOurs_frame hash w
      (some generation)
    exact hframe hgeneration hdue hlocks fun hv => hsince ▸ hv
  | locks => exact hframe rfl rfl rfl id
  | forgets => exact hframe rfl rfl rfl id
  | clears =>
    obtain ⟨hgeneration, -, hdue, -, hlocks, -⟩ := clearIfOurs_frame hash w none
    have hmore : (w.clearIfOurs hash none).afterLock.locks = w.locks + 1 :=
      congrArg (· + 1) hlocks
    cases u with
    | timer generation due =>
      have hgen : (w.clearIfOurs hash none).afterLock.generation = w.generation := hgeneration
      have hd : (w.clearIfOurs hash none).afterLock.due = w.due := hdue
      exact ⟨hgen ▸ hu.1, hgen ▸ hd ▸ hu.2⟩
    | decrypting text locks =>
      have hle := hu.1
      exact ⟨by omega, fun _ => by omega⟩
    | copying text clearAfter locks =>
      have hle := hu.1
      exact ⟨by omega, fun _ => by omega⟩
    | _ => trivial
  | unlocks => exact hframe rfl rfl rfl id
  | opens => exact hframe rfl rfl rfl id
  | userCopies _ => exact hframe rfl rfl rfl id
  | sets => exact hframe rfl rfl rfl id
  | ticks => exact hframe rfl rfl rfl id

end ClipboardAct


namespace ClipboardWorld

variable {hash} {w : ClipboardWorld D}

/-- Which tasks may change what is on the clipboard: a copy, and a timer of the guard's own copy
when it is due or a lock. -/
def MayChange (w : ClipboardWorld D) : ClipboardTask → Prop
  | .copying .. | .userCopies _ => True
  | .timer .. => w.ours = true ∧ w.due ≤ w.now
  | .clear => w.ours = true
  | _ => False

/-- The clipboard does not hold what the guard copied last. -/
def IsCleared (w : ClipboardWorld D) : Prop := ∀ text ∈ w.latest, w.content ≠ some text

/-- No lock has ended since a command that is about to copy began. -/
def InTime (w : ClipboardWorld D) : ClipboardTask → Prop
  | .copying _ _ locks => locks = w.locks
  | _ => True

omit [DecidableEq D] in
theorem isCleared_of_pending (h : w.IsValid hash) (hnone : w.pending = none) : w.IsCleared := by
  intro text hlatest hcontent
  have hours : w.ours = true := h.ours.mpr ⟨text, hlatest, hcontent⟩
  rw [h.gone hnone] at hours
  cases hours

/-- A clear that changes the clipboard takes the guard's own copy off it. -/
theorem ours_of_clearIfOurs (hinj : ∀ salt, Function.Injective (hash salt)) (h : w.IsValid hash)
    {onlyGeneration : Option ℕ}
    (hchange : (w.clearIfOurs hash onlyGeneration).content ≠ w.content) :
    w.ours = true ∧ ∀ g, onlyGeneration = some g → g = w.generation := by
  rcases clearIfOurs_cases hinj h onlyGeneration with
    ⟨hsame, -⟩ | ⟨hlast, ⟨hours, -⟩ | ⟨-, hkeep⟩⟩
  · exact absurd (congrArg content hsame) hchange
  · exact ⟨hours, hlast⟩
  · exact absurd (congrArg content hkeep) hchange

end ClipboardWorld

namespace ClipboardAct

open ClipboardWorld

variable {hash} {w w' : ClipboardWorld D} {t u : ClipboardTask} {next : Option ClipboardTask}

theorem mayChange (hinj : ∀ salt, Function.Injective (hash salt)) (h : w.IsValid hash)
    (ht : w.Waits t) (hact : ClipboardAct hash w t w' next) (hchange : w'.content ≠ w.content) :
    w.MayChange t := by
  cases hact with
  | copied salt => trivial
  | userCopies _ => trivial
  | @fires generation due hdue =>
    have hclear : (w.clearIfOurs hash (some generation)).content ≠ w.content := hchange
    obtain ⟨hours, hlast⟩ := ours_of_clearIfOurs hinj h hclear
    exact ⟨hours, ht.2 (hlast generation rfl) ▸ hdue⟩
  | clears =>
    have hclear : (w.clearIfOurs hash none).content ≠ w.content := hchange
    exact (ours_of_clearIfOurs hinj h hclear).1
  | refused _ => exact absurd rfl hchange
  | checked _ => exact absurd rfl hchange
  | begins => exact absurd rfl hchange
  | sealed _ => exact absurd rfl hchange
  | decrypted _ => exact absurd rfl hchange
  | locks => exact absurd rfl hchange
  | forgets => exact absurd rfl hchange
  | unlocks => exact absurd rfl hchange
  | opens => exact absurd rfl hchange
  | sets => exact absurd rfl hchange
  | ticks => exact absurd rfl hchange

/-- A step that copies in time leaves nothing pending after a lock. -/
theorem keeps_gone (hinj : ∀ salt, Function.Injective (hash salt)) (h : w.IsValid hash)
    (hgone : w.lockedSince = true → w.pending = none) (ht : w.Waits t) (htime : w.InTime t)
    (hact : ClipboardAct hash w t w' next) (hlocked : w'.lockedSince = true) :
    w'.pending = none := by
  cases hact with
  | refused _ => exact hgone hlocked
  | checked _ => cases hlocked
  | begins => cases hlocked
  | sealed _ => exact hgone hlocked
  | decrypted _ => exact hgone hlocked
  | @copied text clearAfter locks salt =>
    -- the command began after the last lock ended, so none has ended since
    have hless : locks < w.locks := ht.2 hlocked
    have hsame : locks = w.locks := htime
    omega
  | @fires generation due _ =>
    have hsince : w.lockedSince = true :=
      (clearIfOurs_frame hash w (some generation)).2.2.2.2.2 ▸ hlocked
    have hnone : w.clearIfOurs hash (some generation) = w := by
      rw [clearIfOurs, hgone hsince]
    have hpending := hgone hsince
    rw [← hnone] at hpending
    exact hpending
  | locks => exact hgone hlocked
  | forgets => exact hgone hlocked
  | clears => exact pending_clearIfOurs hinj h nofun
  | unlocks => exact hgone hlocked
  | opens => exact hgone hlocked
  | userCopies _ => exact hgone hlocked
  | sets => exact hgone hlocked
  | ticks => exact hgone hlocked

end ClipboardAct

section Runs

open ClipboardWorld

variable {hash} {s : System (ClipboardWorld D) ClipboardTask} {locked : Bool}
  {content : Option String}

theorem clipboard_outline (hinj : ∀ salt, Function.Injective (hash salt)) :
    Outline (clipboardProgram hash) (IsValid hash) Waits fun _ _ => True := by
  refine .of_free ?_ ?_ ?_ ?_
  · intro w t _ hcall
    cases t with
    | decrypting text locks => exact hcall.elim
    | copying text clearAfter locks => exact hcall.elim
    | timer generation due => exact hcall.elim
    | _ => trivial
  · exact fun h _ hact => hact.keeps_valid hinj h
  · exact fun _ ht hact => hact.leads ht
  · exact fun _ _ hu hact => hact.free hu

theorem clipboard_outline_inTime (hinj : ∀ salt, Function.Injective (hash salt)) :
    Outline ((clipboardProgram hash).when InTime)
      (fun w => w.IsValid hash ∧ (w.lockedSince = true → w.pending = none)) Waits
      fun _ _ => True := by
  refine .of_free ?_ ?_ ?_ ?_
  · exact fun h hcall => (clipboard_outline hinj).start h.1 hcall
  · exact fun h ht hact => ⟨hact.2.keeps_valid hinj h.1, hact.2.keeps_gone hinj h.1 h.2 ht hact.1⟩
  · exact fun _ ht hact => hact.2.leads ht
  · exact fun _ _ hu hact => hact.2.free hu

/-- In every run only copies, and timers and locks that take the guard's own copy away, change the
clipboard, and a copy whose timer has fired is gone. When no lock ends while a command is about to
copy, a copy is also gone after a lock. -/
theorem clipboard_cleared (hinj : ∀ salt, Function.Injective (hash salt)) :
    (Run (clipboardProgram hash) ⟨start locked content, []⟩ s →
      (∀ t ∈ s.tasks, ∀ w' next, ClipboardAct hash s.shared t w' next →
        w'.content ≠ s.shared.content → s.shared.MayChange t) ∧
      (s.shared.fired = true → s.shared.IsCleared)) ∧
    (Run ((clipboardProgram hash).when InTime) ⟨start locked content, []⟩ s →
      s.shared.lockedSince = true → s.shared.IsCleared) := by
  refine ⟨fun hrun => ?_, fun hrun hlocked => ?_⟩
  · have hholds := (clipboard_outline hinj).run_idle (isValid_start locked content) hrun
    refine ⟨fun t ht w' next hact hchange => ?_, fun hfired => ?_⟩
    · exact hact.mayChange hinj hholds.inv (hholds.waits t ht) hchange
    · exact isCleared_of_pending hholds.inv (hholds.inv.fired hfired)
  · have hholds := (clipboard_outline_inTime hinj).run_idle
      ⟨isValid_start locked content, nofun⟩ hrun
    exact isCleared_of_pending hholds.inv.1 (hholds.inv.2 hlocked)

end Runs

section Examples

open ClipboardWorld

/-- A digest that shows what it was made of. -/
def plainHash (salt : ℕ) (text : String) : ℕ × String := (salt, text)

theorem plainHash_injective (salt : ℕ) : Function.Injective (plainHash salt) :=
  fun _ _ h => congrArg Prod.snd h

/-- A secret is copied, and then the app locks. -/
theorem clipboard_cleared_example :
    ({ start true none with
        generation := 1, latest := some "hunter2", due := 90, locks := 1, lockedSince := true } :
        ClipboardWorld (ℕ × String)).IsCleared := by
  have hcopy : Run ((clipboardProgram plainHash).when InTime) ⟨start false none, []⟩
      ⟨start false none, [.copySecret "hunter2"]⟩ := Run.starts .refl _ trivial
  have hcopied := (hcopy.proceeds ⟨trivial, .checked rfl⟩).proceeds ⟨rfl, .copied 0⟩
  have hlock := (hcopied.starts .lock trivial).proceeds ⟨trivial, .locks⟩
  have hlocked := (hlock.proceeds ⟨trivial, .forgets⟩).proceeds ⟨trivial, .clears⟩
  exact (clipboard_cleared plainHash_injective).2 hlocked rfl

/-- A lock ends between the check of the `copy_secret` command and its copy: the secret stays on
the clipboard of a locked app. -/
theorem copied_after_lock : ∃ s : System (ClipboardWorld (ℕ × String)) ClipboardTask,
    Run (clipboardProgram plainHash) ⟨start false none, []⟩ s ∧
      s.shared.locked = true ∧ s.shared.lockedSince = true ∧ ¬s.shared.IsCleared := by
  have hcopy : Run (clipboardProgram plainHash) ⟨start false none, []⟩
      ⟨start false none, [.copySecret "hunter2"]⟩ := Run.starts .refl _ trivial
  have hchecked := hcopy.proceeds (.checked rfl)
  have hlock := (hchecked.starts .lock trivial).proceeds .locks
  have hlocked := (hlock.proceeds .forgets).proceeds .clears
  have hcopied := hlocked.proceeds (.copied 0)
  exact ⟨_, hcopied, rfl, rfl, fun hcleared => hcleared "hunter2" rfl rfl⟩

end Examples

end Zvault.Desktop
