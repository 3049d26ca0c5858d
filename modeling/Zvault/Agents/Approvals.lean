import Mathlib.Data.Nat.Notation
import Mathlib.Logic.Function.Basic
import Zvault.Concurrent.Tasks

/-!
# Approvals and locks

A prompt is shown, its answer is taken and sent to the request that waits for
it, and the request goes on, keeps the approval or releases what it was asked
for. Locking withdraws the prompts that are shown and forgets what was kept. When
no guarded request is under way at a lock, an approval is only used before the
next lock.
-/

namespace Zvault.Agents

/-- Where the answer to a prompt goes. -/
inductive Channel where
  | awaited
  | sent (approve : Bool)
  | closed
  deriving DecidableEq, Repr

/-- Something was handed out: how often it had been locked when each prompt that approved it was
asked, and how often then. -/
structure Release where
  asked : List ℕ
  locks : ℕ
  deriving DecidableEq, Repr

/-- The prompts and approvals. Requests that pass without a prompt are numbered with the prompts. -/
structure Book where
  locks : ℕ
  prompts : ℕ
  /-- How often it had been locked when a prompt was asked. -/
  asked : ℕ → ℕ
  /-- Whether a request releases something or keeps its approval. -/
  guarded : ℕ → Bool
  shown : List ℕ
  channels : ℕ → Channel
  /-- A request goes on with an approval, or is about to: its answer has been taken. -/
  underway : ℕ → Bool
  /-- Approvals are kept whose prompts were asked after so many locks. -/
  kept : ℕ → Prop
  releases : List Release

/-- Where a task stands with a prompt. -/
inductive Stage where
  | idle
  | waits (id : ℕ) (guarded : Bool)
  | closes (id : ℕ) (guarded approved : Bool)
  /-- A request has been approved. -/
  | holds (id : ℕ) (guarded : Bool) (asked : List ℕ)
  /-- An answer was taken and not sent. -/
  | answers (id : ℕ) (approve : Bool)

/-- The prompt or pass of a request. -/
def Stage.request : Stage → Option ℕ
  | .waits id _ | .closes id _ _ | .holds id _ _ => some id
  | .idle | .answers _ _ => none

/-- Two requests do not share a prompt. -/
def Stage.Apart (t u : Stage) : Prop := ∀ id ∈ t.request, id ∉ u.request

namespace Book

open Function (update)

variable {b b' : Book}

/-- A number for a prompt or a pass. -/
def allot (b : Book) (guarded : Bool) (channel : Channel) : Book :=
  { b with
    prompts := b.prompts + 1
    asked := update b.asked b.prompts b.locks
    guarded := update b.guarded b.prompts guarded
    channels := update b.channels b.prompts channel }

def ask (b : Book) (guarded : Bool) : Book :=
  { b.allot guarded .awaited with shown := b.prompts :: b.shown }

def pass (b : Book) (guarded : Bool) : Book :=
  { b.allot guarded .closed with underway := update b.underway b.prompts true }

/-- An answer is taken; a request that still waits is under way when it is a yes. -/
def take (b : Book) (id : ℕ) (approve : Bool) : Book :=
  { b with
    shown := b.shown.filter (· ≠ id)
    underway := if approve ∧ b.channels id = .awaited then update b.underway id true
      else b.underway }

def send (b : Book) (id : ℕ) (approve : Bool) : Book :=
  if b.channels id = .awaited then
    { b with
      channels := update b.channels id (.sent approve)
      underway := update b.underway id approve }
  else b

def receive (b : Book) (id : ℕ) : Book := { b with channels := update b.channels id .closed }

def finish (b : Book) (id : ℕ) : Book := { b with underway := update b.underway id false }

def close (b : Book) (id : ℕ) : Book := { b with shown := b.shown.filter (· ≠ id) }

def release (b : Book) (asked : List ℕ) : Book := { b with releases := ⟨asked, b.locks⟩ :: b.releases }

/-- Locking denies the prompts that are shown. -/
def lock (b : Book) : Book :=
  { b with
    locks := b.locks + 1
    shown := []
    channels := fun id =>
      if id ∈ b.shown ∧ b.channels id = .awaited then .sent false else b.channels id
    kept := fun _ => False }

/-- No guarded request is under way. -/
def IsQuiet (b : Book) : Prop := ∀ id, b.underway id = true → b.guarded id = false

/-- What a step of a task does, when locks come at quiet times. -/
inductive Moves (b : Book) : Stage → Book → Stage → Prop
  | stays (t : Stage) : Moves b t b t
  | forgets (kept : ℕ → Prop) (h : ∀ n, kept n → b.kept n) :
      Moves b .idle { b with kept } .idle
  | asks (guarded : Bool) : Moves b .idle (b.ask guarded) (.waits b.prompts guarded)
  | passes (guarded : Bool) (asked : List ℕ) (kept : ℕ → Prop) (h : ∀ n, kept n → b.kept n)
      (hasked : ∀ n ∈ asked, b.kept n) :
      Moves b .idle { b.pass guarded with kept } (.holds b.prompts guarded asked)
  | takes {id : ℕ} (approve : Bool) (h : id ∈ b.shown) :
      Moves b .idle (b.take id approve) (.answers id approve)
  | sends (id : ℕ) {approve yes : Bool} (h : yes = true → approve = true) :
      Moves b (.answers id approve) (b.send id yes) .idle
  | receives {id : ℕ} (guarded : Bool) {yes : Bool} (h : b.channels id = .sent yes) :
      Moves b (.waits id guarded) (b.receive id) (.closes id guarded yes)
  | timesOut (id : ℕ) (guarded : Bool) :
      Moves b (.waits id guarded) ((b.receive id).finish id) (.closes id guarded false)
  | goesOn (id : ℕ) (guarded : Bool) :
      Moves b (.closes id guarded true) (b.close id) (.holds id guarded [b.asked id])
  | denied (id : ℕ) (guarded : Bool) : Moves b (.closes id guarded false) (b.close id) .idle
  | keeps (id : ℕ) (asked : List ℕ) (kept : ℕ → Prop) (h : ∀ n, kept n → b.kept n ∨ n ∈ asked) :
      Moves b (.holds id true asked) { b with kept } (.holds id true asked)
  | releases (id : ℕ) (asked : List ℕ) :
      Moves b (.holds id true asked) (b.release asked) (.holds id true asked)
  | finishes (id : ℕ) (guarded : Bool) (asked : List ℕ) :
      Moves b (.holds id guarded asked) (b.finish id) .idle
  | answers (id : ℕ) (asked : List ℕ) :
      Moves b (.holds id true asked) ((b.release asked).finish id) .idle
  | locks (h : b.IsQuiet) : Moves b .idle b.lock .idle

/-- What is shown, under way or kept was asked since the last lock. -/
structure Sound (b : Book) : Prop where
  shown : ∀ id ∈ b.shown, id < b.prompts ∧ b.asked id = b.locks
  underway : ∀ id, b.underway id = true → b.guarded id = true → b.asked id = b.locks
  sent : ∀ id, b.channels id = .sent true → b.underway id = true
  kept : ∀ n, b.kept n → n = b.locks
  releases : ∀ r ∈ b.releases, ∀ n ∈ r.asked, n = r.locks

end Book

/-- What a task relies on. -/
def Stage.Sound (b : Book) : Stage → Prop
  | .idle => True
  | .waits id guarded => id < b.prompts ∧ b.guarded id = guarded
  | .closes id guarded approved => id < b.prompts ∧ b.guarded id = guarded ∧
      b.channels id = .closed ∧ (approved = true → b.underway id = true)
  | .holds id guarded asked => id < b.prompts ∧ b.guarded id = guarded ∧
      b.channels id = .closed ∧ b.underway id = true ∧ (guarded = true → ∀ n ∈ asked, n = b.locks)
  | .answers id approve => id < b.prompts ∧
      (approve = true → b.channels id = .awaited → b.underway id = true)

theorem Stage.Sound.request_lt {b : Book} {t : Stage} (h : t.Sound b) :
    ∀ id ∈ t.request, id < b.prompts := by
  intro id hid
  cases t with
  | idle => cases hid
  | answers => cases hid
  | waits => exact Option.some_inj.mp hid ▸ h.1
  | closes => exact Option.some_inj.mp hid ▸ h.1
  | holds => exact Option.some_inj.mp hid ▸ h.1

namespace Book

section Moves

open Function (update_self update_of_ne)

variable {b b' : Book} {t t' u : Stage}

/-- What the other tasks may rely on across a step. -/
structure Leads (b : Book) (t : Stage) (b' : Book) : Prop where
  prompts : b.prompts ≤ b'.prompts
  guarded : ∀ id < b.prompts, b'.guarded id = b.guarded id
  closed : ∀ id < b.prompts, b.channels id = .closed → b'.channels id = .closed
  awaited : ∀ id < b.prompts, b'.channels id = .awaited → b.channels id = .awaited
  underway : ∀ id, b.underway id = true → b'.underway id = true ∨
    b'.channels id ≠ .awaited ∧ (id ∈ t.request ∨ b.channels id = .awaited)
  locks : b'.locks = b.locks ∨ b.IsQuiet

/-- A number is allotted, and nothing that was under way ends. -/
theorem Leads.of_allot {guarded : Bool} {channel : Channel}
    (hprompts : b'.prompts = b.prompts + 1)
    (hguarded : b'.guarded = Function.update b.guarded b.prompts guarded)
    (hchannels : b'.channels = Function.update b.channels b.prompts channel)
    (hunderway : ∀ id, b.underway id = true → b'.underway id = true) (hlocks : b'.locks = b.locks) :
    b.Leads t b' where
  prompts := by omega
  guarded id hid := by rw [hguarded, update_of_ne (Nat.ne_of_lt hid)]
  closed id hid := by
    rw [hchannels, update_of_ne (Nat.ne_of_lt hid)]
    exact fun h => h
  awaited id hid := by
    rw [hchannels, update_of_ne (Nat.ne_of_lt hid)]
    exact fun h => h
  underway id h := Or.inl (hunderway id h)
  locks := Or.inl hlocks

/-- The channels stay as they are, and nothing that was under way ends. -/
theorem Leads.of_same (hprompts : b'.prompts = b.prompts) (hguarded : b'.guarded = b.guarded)
    (hchannels : b'.channels = b.channels)
    (hunderway : ∀ id, b.underway id = true → b'.underway id = true) (hlocks : b'.locks = b.locks) :
    b.Leads t b' where
  prompts := Nat.le_of_eq hprompts.symm
  guarded id _ := by rw [hguarded]
  closed id _ h := by rwa [hchannels]
  awaited id _ h := by rwa [hchannels] at h
  underway id h := Or.inl (hunderway id h)
  locks := Or.inl hlocks

theorem update_true {underway : ℕ → Bool} {id i : ℕ} (h : underway i = true) :
    Function.update underway id true i = true := by
  rcases eq_or_ne i id with rfl | hne
  · exact update_self ..
  · rwa [update_of_ne hne]

/-- A request that ends is no longer under way; the other requests are as before. -/
theorem Leads.of_finish {id : ℕ} (hid : id ∈ t.request) (hclosed : b.channels id = .closed)
    (releases : List Release) : b.Leads t { b.finish id with releases } where
  prompts := Nat.le_refl _
  guarded _ _ := rfl
  closed _ _ h := h
  awaited _ _ h := h
  underway i h := by
    rcases eq_or_ne i id with rfl | hne
    · exact Or.inr ⟨fun hawaited => (nomatch hclosed.symm.trans hawaited), Or.inl hid⟩
    · exact Or.inl ((update_of_ne hne ..).trans h)
  locks := Or.inl rfl

theorem Moves.leads (h : b.Moves t b' t') (ht : t.Sound b) : b.Leads t b' := by
  cases h with
  | stays => exact .of_same rfl rfl rfl (fun _ h => h) rfl
  | forgets => exact .of_same rfl rfl rfl (fun _ h => h) rfl
  | asks guarded => exact .of_allot rfl rfl rfl (fun _ h => h) rfl
  | passes guarded => exact .of_allot rfl rfl rfl (fun _ h => update_true h) rfl
  | takes approve hshown =>
    refine .of_same rfl rfl rfl (fun i hi => ?_) rfl
    simp only [take]
    split
    · exact update_true hi
    · exact hi
  | sends id hyes =>
    unfold send
    split
    · rename_i hawaited
      refine ⟨Nat.le_refl _, fun _ _ => rfl, fun i _ hi => ?_, fun i _ hi => ?_, fun i hi => ?_,
        Or.inl rfl⟩
      · rcases eq_or_ne i id with rfl | hne
        · cases hawaited.symm.trans hi
        · exact (update_of_ne hne ..).trans hi
      · rcases eq_or_ne i id with rfl | hne
        · exact hawaited
        · exact (update_of_ne hne ..).symm.trans hi
      · rcases eq_or_ne i id with rfl | hne
        · exact Or.inr ⟨by simp, Or.inr hawaited⟩
        · exact Or.inl ((update_of_ne hne ..).trans hi)
    · exact .of_same rfl rfl rfl (fun _ h => h) rfl
  | receives guarded hsent =>
    refine ⟨Nat.le_refl _, fun _ _ => rfl, fun i _ hi => ?_, fun i _ hi => ?_, fun i hi => Or.inl hi,
      Or.inl rfl⟩
    · simp only [receive, Function.update_apply, hi, ite_self]
    · simp only [receive, Function.update_apply] at hi
      split at hi
      · cases hi
      · exact hi
  | timesOut id guarded =>
    refine ⟨Nat.le_refl _, fun _ _ => rfl, fun i _ hi => ?_, fun i _ hi => ?_, fun i hi => ?_,
      Or.inl rfl⟩
    · simp only [finish, receive, Function.update_apply, hi, ite_self]
    · simp only [finish, receive, Function.update_apply] at hi
      split at hi
      · cases hi
      · exact hi
    · rcases eq_or_ne i id with rfl | hne
      · exact Or.inr ⟨by simp [finish, receive], Or.inl rfl⟩
      · exact Or.inl ((update_of_ne hne ..).trans hi)
  | goesOn => exact .of_same rfl rfl rfl (fun _ h => h) rfl
  | denied => exact .of_same rfl rfl rfl (fun _ h => h) rfl
  | keeps => exact .of_same rfl rfl rfl (fun _ h => h) rfl
  | releases => exact .of_same rfl rfl rfl (fun _ h => h) rfl
  | finishes id guarded asked => exact .of_finish rfl ht.2.2.1 b.releases
  | answers id asked => exact .of_finish rfl ht.2.2.1 _
  | locks hquiet =>
    refine ⟨Nat.le_refl _, fun _ _ => rfl, fun i _ hi => ?_, fun i _ hi => ?_, fun i hi => Or.inl hi,
      Or.inr hquiet⟩
    · have hne : ¬ (i ∈ b.shown ∧ b.channels i = .awaited) := by simp [hi]
      exact (if_neg hne).trans hi
    · simp only [lock] at hi
      split at hi
      · cases hi
      · exact hi

/-- A step does not interfere with a task at another prompt. -/
theorem Moves.free (h : b.Moves t b' t') (ht : t.Sound b) (hu : u.Sound b) (hapart : t.Apart u) :
    u.Sound b' := by
  have hleads := h.leads ht
  -- a closed channel keeps a request of another task under way
  have hunderway : ∀ id ∈ u.request, b.channels id = .closed → b.underway id = true →
      b'.underway id = true := by
    intro id hid hclosed hunderway
    rcases hleads.underway id hunderway with hunderway | ⟨-, hmem | hawaited⟩
    · exact hunderway
    · exact absurd hid (hapart id hmem)
    · cases hclosed.symm.trans hawaited
  cases u with
  | idle => trivial
  | waits id guarded =>
    exact ⟨Nat.lt_of_lt_of_le hu.1 hleads.prompts, (hleads.guarded id hu.1).trans hu.2⟩
  | closes id guarded approved =>
    obtain ⟨hid, hguarded, hclosed, happroved⟩ := hu
    exact ⟨Nat.lt_of_lt_of_le hid hleads.prompts, (hleads.guarded id hid).trans hguarded,
      hleads.closed id hid hclosed, fun h => hunderway id rfl hclosed (happroved h)⟩
  | holds id guarded asked =>
    obtain ⟨hid, hguarded, hclosed, hholds, hasked⟩ := hu
    refine ⟨Nat.lt_of_lt_of_le hid hleads.prompts, (hleads.guarded id hid).trans hguarded,
      hleads.closed id hid hclosed, hunderway id rfl hclosed hholds, fun htrue => ?_⟩
    rcases hleads.locks with hlocks | hquiet
    · rw [hlocks]
      exact hasked htrue
    · have hfalse := hguarded.symm.trans (hquiet id hholds)
      rw [htrue] at hfalse
      cases hfalse
  | answers id approve =>
    obtain ⟨hid, hanswers⟩ := hu
    refine ⟨Nat.lt_of_lt_of_le hid hleads.prompts, fun happrove hawaited => ?_⟩
    rcases hleads.underway id (hanswers happrove (hleads.awaited id hid hawaited)) with
      hunderway | ⟨hne, -⟩
    · exact hunderway
    · exact absurd hawaited hne

/-- A step that hands nothing out and keeps nothing more. -/
theorem Sound.of_kept (hb : b.Sound) (hlocks : b'.locks = b.locks)
    (hreleases : b'.releases = b.releases) (hkept : ∀ n, b'.kept n → b.kept n)
    (hshown : ∀ id ∈ b'.shown, id < b'.prompts ∧ b'.asked id = b.locks)
    (hunderway : ∀ id, b'.underway id = true → b'.guarded id = true → b'.asked id = b.locks)
    (hsent : ∀ id, b'.channels id = .sent true → b'.underway id = true) : b'.Sound where
  shown := by rwa [hlocks]
  underway := by rwa [hlocks]
  sent := hsent
  kept n hn := by rw [hlocks, hb.kept n (hkept n hn)]
  releases := by
    rw [hreleases]
    exact hb.releases

/-- A number is allotted: it is asked after the locks so far. -/
theorem Sound.of_allot {guarded : Bool} (hb : b.Sound) (channel : Channel)
    (hchannel : channel ≠ .sent true) {shown : List ℕ} {underway : ℕ → Bool} {kept : ℕ → Prop}
    (hshown : ∀ id ∈ shown, id = b.prompts ∨ id ∈ b.shown)
    (hunderway : ∀ id ≠ b.prompts, underway id = b.underway id)
    (hkept : ∀ n, kept n → b.kept n) :
    Sound { b.allot guarded channel with shown, underway, kept } := by
  refine hb.of_kept rfl rfl hkept (fun id hid => ?_) (fun id hid hguarded => ?_) fun id hid => ?_
  · rcases hshown id hid with rfl | hid
    · exact ⟨Nat.lt_succ_self _, update_self ..⟩
    · obtain ⟨hlt, hasked⟩ := hb.shown id hid
      exact ⟨Nat.lt_succ_of_lt hlt, (update_of_ne (Nat.ne_of_lt hlt) ..).trans hasked⟩
  · rcases eq_or_ne id b.prompts with rfl | hne
    · exact update_self ..
    · refine (update_of_ne hne ..).trans (hb.underway id ?_ ?_)
      · exact (hunderway id hne).symm.trans hid
      · exact (update_of_ne hne ..).symm.trans hguarded
  · rcases eq_or_ne id b.prompts with rfl | hne
    · exact absurd ((update_self ..).symm.trans hid) hchannel
    · exact (hunderway id hne).trans (hb.sent id ((update_of_ne hne ..).symm.trans hid))

/-- A channel is closed. -/
theorem Sound.receive (hb : b.Sound) (id : ℕ) : (b.receive id).Sound := by
  refine hb.of_kept rfl rfl (fun _ h => h) hb.shown hb.underway fun i hi => hb.sent i ?_
  simp only [Book.receive, Function.update_apply] at hi
  split at hi
  · cases hi
  · exact hi

/-- A request whose channel is closed ends. -/
theorem Sound.finish (hb : b.Sound) {id : ℕ} (hclosed : b.channels id = .closed) :
    (b.finish id).Sound := by
  refine hb.of_kept rfl rfl (fun _ h => h) hb.shown (fun i hi => hb.underway i ?_) fun i hi => ?_
  · simp only [Book.finish, Function.update_apply] at hi
    split at hi
    · cases hi
    · exact hi
  · rcases eq_or_ne i id with rfl | hne
    · cases hclosed.symm.trans hi
    · exact (update_of_ne hne ..).trans (hb.sent i hi)

theorem Sound.release (hb : b.Sound) {asked : List ℕ} (hasked : ∀ n ∈ asked, n = b.locks) :
    (b.release asked).Sound where
  shown := hb.shown
  underway := hb.underway
  sent := hb.sent
  kept := hb.kept
  releases r hr := by
    rcases List.mem_cons.mp hr with rfl | hr
    · exact hasked
    · exact hb.releases r hr

theorem Sound.close (hb : b.Sound) (id : ℕ) : (b.close id).Sound :=
  hb.of_kept rfl rfl (fun _ h => h) (fun i hi => hb.shown i (List.mem_filter.mp hi).1) hb.underway
    hb.sent

theorem Sound.lock (hb : b.Sound) (hquiet : b.IsQuiet) : b.lock.Sound where
  shown := nofun
  underway id hid hguarded := by
    rw [show b.lock.guarded id = b.guarded id from rfl, hquiet id hid] at hguarded
    cases hguarded
  sent id hid := by
    simp only [Book.lock] at hid
    split at hid
    · cases hid
    · exact hb.sent id hid
  kept := nofun
  releases := hb.releases

/-- A step keeps the book sound, and leads its task on. -/
theorem Moves.sound (h : b.Moves t b' t') (hb : b.Sound) (ht : t.Sound b) :
    b'.Sound ∧ t'.Sound b' := by
  cases h with
  | stays => exact ⟨hb, ht⟩
  | forgets kept hkept => exact ⟨hb.of_kept rfl rfl hkept hb.shown hb.underway hb.sent, trivial⟩
  | asks guarded =>
    exact ⟨hb.of_allot .awaited nofun (fun _ => List.mem_cons.mp) (fun _ _ => rfl) fun _ h => h,
      Nat.lt_succ_self _, update_self ..⟩
  | passes guarded asked kept hkept hasked =>
    exact ⟨hb.of_allot .closed nofun (fun _ => Or.inr) (fun _ hne => update_of_ne hne ..) hkept,
      Nat.lt_succ_self _, update_self .., update_self .., update_self ..,
      fun _ n hn => hb.kept n (hasked n hn)⟩
  | @takes id approve hshown =>
    obtain ⟨hlt, hasked⟩ := hb.shown id hshown
    have hmono : ∀ i, b.underway i = true → (b.take id approve).underway i = true := by
      intro i hi
      simp only [take]
      split
      · exact update_true hi
      · exact hi
    refine ⟨hb.of_kept rfl rfl (fun _ h => h) (fun i hi => hb.shown i (List.mem_filter.mp hi).1)
      (fun i hi hguarded => ?_) (fun i hi => hmono i (hb.sent i hi)), hlt, ?_⟩
    · rcases eq_or_ne i id with rfl | hne
      · exact hasked
      · refine hb.underway i ?_ hguarded
        simp only [take] at hi
        split at hi
        · exact (update_of_ne hne ..).symm.trans hi
        · exact hi
    · intro happrove hawaited
      have hif := And.intro happrove hawaited
      exact (congrFun (if_pos hif) id).trans (update_self ..)
  | @sends id approve yes hyes =>
    refine ⟨?_, trivial⟩
    unfold send
    split
    · rename_i hawaited
      refine hb.of_kept rfl rfl (fun _ h => h) hb.shown (fun i hi hguarded => ?_) fun i hi => ?_
      · rcases eq_or_ne i id with rfl | hne
        · exact hb.underway i (ht.2 (hyes ((update_self ..).symm.trans hi)) hawaited) hguarded
        · exact hb.underway i ((update_of_ne hne ..).symm.trans hi) hguarded
      · rcases eq_or_ne i id with rfl | hne
        · have hsent := (update_self ..).symm.trans hi
          exact (update_self ..).trans (Channel.sent.inj hsent)
        · exact (update_of_ne hne ..).trans (hb.sent i ((update_of_ne hne ..).symm.trans hi))
    · exact hb
  | receives guarded hsent =>
    refine ⟨hb.receive _, ht.1, ht.2, update_self .., ?_⟩
    rintro rfl
    exact hb.sent _ hsent
  | timesOut id guarded =>
    exact ⟨(hb.receive id).finish (update_self ..), ht.1, ht.2, update_self .., nofun⟩
  | goesOn id guarded =>
    obtain ⟨hid, hguarded, hclosed, happroved⟩ := ht
    refine ⟨hb.close id, hid, hguarded, hclosed, happroved rfl, ?_⟩
    rintro rfl n hn
    obtain rfl := List.mem_singleton.mp hn
    exact hb.underway id (happroved rfl) hguarded
  | denied id => exact ⟨hb.close id, trivial⟩
  | keeps id asked kept hkept =>
    obtain ⟨hid, hguarded, hclosed, hholds, hasked⟩ := ht
    refine ⟨⟨hb.shown, hb.underway, hb.sent, fun n hn => ?_, hb.releases⟩, hid, hguarded, hclosed,
      hholds, hasked⟩
    rcases hkept n hn with hn | hn
    · exact hb.kept n hn
    · exact hasked rfl n hn
  | releases id asked => exact ⟨hb.release (ht.2.2.2.2 rfl), ht⟩
  | finishes id => exact ⟨hb.finish ht.2.2.1, trivial⟩
  | answers id asked =>
    have hclosed : (b.release asked).channels id = .closed := ht.2.2.1
    exact ⟨(hb.release (ht.2.2.2.2 rfl)).finish hclosed, trivial⟩
  | locks hquiet => exact ⟨hb.lock hquiet, trivial⟩

/-- A request goes on with its prompt, or takes a number that no request has. -/
theorem Moves.request (h : b.Moves t b' t') :
    ∀ id ∈ t'.request, id ∈ t.request ∨ id = b.prompts := by
  intro id hid
  cases h with
  | asks => exact Or.inr (Option.some_inj.mp hid).symm
  | passes => exact Or.inr (Option.some_inj.mp hid).symm
  | stays => exact Or.inl hid
  | receives => exact Or.inl hid
  | timesOut => exact Or.inl hid
  | goesOn => exact Or.inl hid
  | keeps => exact Or.inl hid
  | releases => exact Or.inl hid
  | _ => cases hid

theorem Moves.apart (h : b.Moves t b' t') (hu : u.Sound b) (hapart : t.Apart u) : t'.Apart u := by
  intro id hid hmem
  rcases h.request id hid with hid | rfl
  · exact hapart id hid hmem
  · exact Nat.lt_irrefl _ (hu.request_lt _ hmem)

end Moves

/-- Tasks whose steps are moves, and that start idle. -/
theorem outline {σ τ : Type*} {P : Concurrent.Program σ τ} (book : σ → Book) (stage : τ → Stage)
    (hstart : ∀ {s t}, P.start s t → stage t = .idle)
    (hmoves : ∀ {s t s' next}, P.act s t s' next →
      (book s).Moves (stage t) (book s') (next.elim .idle stage)) :
    Concurrent.Outline P (fun s => (book s).Sound) (fun s t => (stage t).Sound (book s))
      (fun t u => (stage t).Apart (stage u)) where
  start _ h := by
    rw [hstart h]
    trivial
  starts_apart _ h _ := by
    rw [hstart h]
    exact nofun
  keeps hb ht h := ((hmoves h).sound hb ht).1
  leads hb ht h := ((hmoves h).sound hb ht).2
  leads_apart _ _ hu hapart h := (hmoves h).apart hu hapart
  free _ ht hu hapart h := (hmoves h).free ht hu hapart
  symm h id hid hmem := h id hmem hid

end Book

end Zvault.Agents
