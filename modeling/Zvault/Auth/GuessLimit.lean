import Zvault.Auth.Codes
import Mathlib.Data.List.Perm.Basic
import Mathlib.Order.Interval.Finset.Nat

/-!
# How many guesses a code allows

Any number of requests to `verify` run their statements interleaved. A wrong
submission is compared by one statement and counted by a later one, so the
count lags behind the comparisons. A code is accepted after fewer than five
wrong submissions as long as those that were compared before it are counted by
then, and a row never hands out two tokens.
-/

namespace Zvault

open Relational

/-- The two services that check emailed codes. -/
inductive CodeService where
  | signup
  | recovery
  deriving DecidableEq, Repr

/-- The next statement of a request to a service's `verify`. -/
def CodeService.verify (service : CodeService) (hashes : Hashes) (accounts : Table AccountRow.id)
    (codes : CodeTable) (req : VerifyRequest) (token : String) (clock : Timestamp)
    (state : VerifyState) : VerifyState × CodeTable :=
  match service with
  | .signup => SignupService.verify hashes codes req token clock state
  | .recovery => RecoveryService.verify hashes accounts codes req token clock state

/-- A service's `start`. -/
def CodeService.start (service : CodeService) (hashes : Hashes) (accounts : Table AccountRow.id)
    (codes : CodeTable) (id : Uuid) (email code : String) (randomHash : ℕ) (now : Timestamp) :
    Option CodeTable :=
  match service with
  | .signup => SignupService.start hashes accounts codes id email code randomHash now
  | .recovery => RecoveryService.start hashes accounts codes id email code randomHash now

/-- What one statement of `verify` can do, for either service. -/
inductive Statement (max : ℕ) (codes : CodeTable) : VerifyState → VerifyState → CodeTable → Prop
  | refuse : Statement max codes .received (.answered none) codes
  | select (pending : CodeRow) (h : pending ∈ codes) :
      Statement max codes .received (.selected pending) codes
  | mismatch (pending : CodeRow) (state : VerifyState)
      (h : (state = .received ∧ pending ∈ codes) ∨ state = .selected pending) :
      Statement max codes state (.mismatched pending.id) codes
  | isMatch (pending : CodeRow) (state : VerifyState)
      (h : (state = .received ∧ pending ∈ codes) ∨ state = .selected pending) :
      Statement max codes state (.matched pending.id) codes
  | count (id : Uuid) (clock : Timestamp) :
      Statement max codes (.mismatched id) (.answered none) (countAttempt max codes id clock)
  | claim (id : Uuid) (token : String) (tokenHash tokenTtl : ℕ) (now : Timestamp)
      (h : ∃ r ∈ codes, r.id = id ∧ r.isOpen = true) :
      Statement max codes (.matched id) (.answered (some token))
        (claimCode codes id tokenHash tokenTtl now).2
  | lose (id : Uuid) : Statement max codes (.matched id) (.answered none) codes
  | idle (state : VerifyState)
      (h : ∀ id, state ≠ .mismatched id ∧ state ≠ .matched id) : Statement max codes state state codes

section Verify

variable {codes : CodeTable}

theorem CodeRow.isOpen_iff {r : CodeRow} :
    r.isOpen = true ↔ r.verifiedAt = none ∧ r.closedAt = none := by
  rw [CodeRow.isOpen, decide_eq_true_iff]

theorem mem_of_pendingCode {email : String} {now : Timestamp} {pending : CodeRow}
    (h : pendingCode codes email now = some pending) : pending ∈ codes := by
  have hmem := List.mem_of_mem_head? h
  rw [List.mem_insertionSort] at hmem
  exact (Table.mem_select.mp hmem).1

theorem mem_countAttempt {max : ℕ} {id : Uuid} {clock : Timestamp} {r : CodeRow}
    (h : r ∈ countAttempt max codes id clock) : ∃ x ∈ codes, r = if x.id = id then { x with
      attempts := x.attempts + 1
      closedAt := if max ≤ x.attempts + 1 then some clock else x.closedAt } else x := by
  rw [countAttempt, Table.mem_update] at h
  simpa using h

theorem mem_claimCode {id : Uuid} {tokenHash tokenTtl : ℕ} {now : Timestamp} {r : CodeRow}
    (h : r ∈ (claimCode codes id tokenHash tokenTtl now).2) : ∃ x ∈ codes,
      r = if x.id = id ∧ x.isOpen = true then { x with
        verifiedAt := some now, tokenHash := some tokenHash
        tokenExpiresAt := some (now + tokenTtl) } else x := by
  rw [claimCode, Table.mem_update] at h
  simpa using h

/-- Claiming a row that is not open changes nothing. -/
theorem claimCode_false {id : Uuid} {tokenHash tokenTtl : ℕ} {now : Timestamp} {codes' : CodeTable}
    (h : claimCode codes id tokenHash tokenTtl now = (false, codes')) : codes' = codes := by
  obtain ⟨hany, rfl⟩ := Prod.mk.inj h
  apply Table.update_eq_self
  intro r hr
  exact decide_eq_false (by simpa using List.any_eq_false.mp hany r hr)

/-- Claiming a row, as the next statement. -/
theorem claim_statement (max : ℕ) (id : Uuid) (token : String) (tokenHash tokenTtl : ℕ)
    (now : Timestamp) : Statement max codes (.matched id)
      (match claimCode codes id tokenHash tokenTtl now with
        | (true, codes) => (.answered (some token), codes)
        | (false, codes) => (.answered none, codes) : VerifyState × CodeTable).1
      (match claimCode codes id tokenHash tokenTtl now with
        | (true, codes) => (.answered (some token), codes)
        | (false, codes) => (.answered none, codes) : VerifyState × CodeTable).2 := by
  cases hclaim : claimCode codes id tokenHash tokenTtl now with
  | mk claimed codes' =>
    cases claimed with
    | true =>
      have hopen : ∃ r ∈ codes, r.id = id ∧ r.isOpen = true := by
        simpa using (Prod.mk.inj hclaim).1
      have hstatement :=
        (Statement.claim id token tokenHash tokenTtl now hopen : Statement max codes _ _ _)
      rwa [hclaim] at hstatement
    | false =>
      obtain rfl := claimCode_false hclaim
      exact .lose id

/-- Both services run these statements, with five as the bound. -/
theorem CodeService.verify_statement (service : CodeService) (hashes : Hashes)
    (accounts : Table AccountRow.id) (codes : CodeTable) (req : VerifyRequest) (token : String)
    (clock : Timestamp) (state : VerifyState) : Statement 5 codes state
      (service.verify hashes accounts codes req token clock state).1
      (service.verify hashes accounts codes req token clock state).2 := by
  cases service with
  | signup =>
    cases state with
    | received =>
      simp only [verify, SignupService.verify]
      cases hpending : pendingCode codes req.email req.now with
      | none => exact .refuse
      | some pending =>
        have hmem := mem_of_pendingCode hpending
        dsimp only
        split
        · exact .mismatch pending _ (Or.inl ⟨rfl, hmem⟩)
        · exact .isMatch pending _ (Or.inl ⟨rfl, hmem⟩)
    | selected pending => exact .idle _ (by simp)
    | mismatched id => exact .count id clock
    | matched id => exact claim_statement 5 id token _ _ _
    | answered token => exact .idle _ (by simp)
  | recovery =>
    cases state with
    | received =>
      simp only [verify, RecoveryService.verify]
      cases hpending : pendingCode codes req.email req.now with
      | none => exact .refuse
      | some pending =>
        dsimp only
        split
        · exact .refuse
        · exact .select pending (mem_of_pendingCode hpending)
    | selected pending =>
      simp only [verify, RecoveryService.verify]
      split
      · exact .mismatch pending _ (Or.inr rfl)
      · exact .isMatch pending _ (Or.inr rfl)
    | mismatched id => exact .count id clock
    | matched id => exact claim_statement 5 id token _ _ _
    | answered token => exact .idle _ (by simp)

end Verify

/-- A request to `verify`. `rank` is how many wrong submissions of the same row had been
compared before this one. -/
structure Submission where
  req : VerifyRequest
  state : VerifyState := .received
  rank : ℕ := 0
  deriving DecidableEq, Repr

/-- A token handed out. -/
structure Acceptance where
  id : Uuid
  rank : ℕ
  token : String
  deriving DecidableEq, Repr

/-- The tables of one service and its requests. `issued`, `compared` and `accepted` only
record what happened: the ids drawn, the wrong submissions compared for each row, and the
tokens handed out. -/
structure CodeWorld where
  codes : CodeTable
  accounts : Table AccountRow.id
  submissions : List Submission
  issued : List Uuid
  compared : Uuid → ℕ
  accepted : List Acceptance

/-- No codes, accounts or requests. -/
def CodeWorld.empty : CodeWorld :=
  ⟨Table.empty, Table.empty, [], [], fun _ => 0, []⟩

/-- What can happen next. Requests to `verify` run statement by statement; the others are
single transactions. -/
inductive CodeAction where
  | receive (req : VerifyRequest)
  | proceed (i : ℕ) (token : String) (clock : Timestamp)
  | start (id : Uuid) (email code : String) (randomHash : ℕ) (now : Timestamp)
  | complete (token : String) (now : Timestamp)
  | putAccount (account : AccountRow)
  | deleteAccount (id : Uuid)
  deriving Repr

/-- The ranks of the wrong submissions of a row that are not counted yet. -/
def waiting (submissions : List Submission) (id : Uuid) : List ℕ :=
  (submissions.filter fun s => s.state = .mismatched id).map Submission.rank

namespace CodeWorld

/-- A submission ran a statement that left it in `state` and the table as `codes`. -/
def advance (w : CodeWorld) (s : Submission) (rest : List Submission) (state : VerifyState)
    (codes : CodeTable) : CodeWorld :=
  match s.state, state with
  | .matched id, .answered (some token) =>
    { w with
      codes
      submissions := { s with state := .answered (some token) } :: rest
      accepted := ⟨id, s.rank, token⟩ :: w.accepted }
  | _, .mismatched id =>
    { w with
      codes
      submissions := { s with state := .mismatched id, rank := w.compared id } :: rest
      compared := Function.update w.compared id (w.compared id + 1) }
  | _, .matched id =>
    { w with codes, submissions := { s with state := .matched id, rank := w.compared id } :: rest }
  | _, state => { w with codes, submissions := { s with state } :: rest }

/-- One action. The database draws an id that was never used. -/
def step (service : CodeService) (hashes : Hashes) (w : CodeWorld) : CodeAction → CodeWorld
  | .receive req => { w with submissions := { req } :: w.submissions }
  | .proceed i token clock =>
    match w.submissions[i]? with
    | none => w
    | some s =>
      let next := service.verify hashes w.accounts w.codes s.req token clock s.state
      w.advance s (w.submissions.eraseIdx i) next.1 next.2
  | .start id email code randomHash now =>
    if id ∈ w.issued then w
    else
      match service.start hashes w.accounts w.codes id email code randomHash now with
      | none => w
      | some codes => { w with codes, issued := id :: w.issued }
  | .complete token now => { w with codes := spendToken w.codes (hashes.hashToken token) now }
  | .putAccount account =>
    { w with accounts := w.accounts.upsert account fun a => { account with id := a.id } }
  | .deleteAccount id =>
    -- the foreign key removes the account's recoveries with it
    { w with
      accounts := w.accounts.delete fun a => a.id = id
      codes := w.codes.delete fun r => r.accountId = some id }

/-- A whole run. -/
def run (service : CodeService) (hashes : Hashes) (w : CodeWorld) (actions : List CodeAction) :
    CodeWorld :=
  actions.foldl (step service hashes) w

/-- No submission claims an open row while a wrong one that was compared before it waits to be
counted. -/
def Counted (w : CodeWorld) : CodeAction → Prop
  | .proceed i _ _ => ∀ s id, w.submissions[i]? = some s → s.state = .matched id →
      (∃ r ∈ w.codes, r.id = id ∧ r.isOpen = true) →
        ∀ rank ∈ waiting w.submissions id, s.rank ≤ rank
  | _ => True

/-- Every step of the run is `Counted`. -/
def CountedRun (service : CodeService) (hashes : Hashes) : CodeWorld → List CodeAction → Prop
  | _, [] => True
  | w, action :: actions =>
    w.Counted action ∧ CountedRun service hashes (w.step service hashes action) actions

end CodeWorld

/-- The row a request is about, once it read one. -/
def VerifyState.about : VerifyState → Option Uuid
  | .selected pending => some pending.id
  | .mismatched id => some id
  | .matched id => some id
  | _ => none

/-- What holds after any run: every wrong submission that was compared is either counted
or waits to be, open rows are below the limit, and rows with a token are verified. -/
structure Counts (w : CodeWorld) : Prop where
  rows : ∀ r ∈ w.codes, r.id ∈ w.issued ∧
    r.attempts + (waiting w.submissions r.id).length = w.compared r.id ∧
    (r.closedAt = none → r.attempts < 5)
  ranks : ∀ id, (waiting w.submissions id).Nodup ∧ ∀ k ∈ waiting w.submissions id, k < w.compared id
  about : ∀ s ∈ w.submissions, ∀ id, s.state.about = some id → id ∈ w.issued
  matched : ∀ s ∈ w.submissions, ∀ id, s.state = .matched id → s.rank ≤ w.compared id
  unissued : ∀ id, id ∉ w.issued → w.compared id = 0
  once : (w.accepted.map Acceptance.id).Nodup
  verified : ∀ a ∈ w.accepted, a.id ∈ w.issued ∧
    ∀ r ∈ w.codes, r.id = a.id → r.verifiedAt ≠ none

section Waiting

variable {submissions : List Submission} {s : Submission}

theorem waiting_cons_of_ne (id : Uuid) (h : s.state ≠ .mismatched id) :
    waiting (s :: submissions) id = waiting submissions id := by
  simp [waiting, h]

theorem waiting_cons_of_eq {id : Uuid} (h : s.state = .mismatched id) :
    waiting (s :: submissions) id = s.rank :: waiting submissions id := by
  simp [waiting, h]

theorem waiting_perm {l : List Submission} (h : submissions.Perm l) (id : Uuid) :
    (waiting submissions id).Perm (waiting l id) :=
  (h.filter _).map _

/-- Nothing waits for a row that no submission is about. -/
theorem waiting_eq_nil {id : Uuid} (h : ∀ s ∈ submissions, s.state ≠ .mismatched id) :
    waiting submissions id = [] := by
  rw [waiting, List.map_eq_nil_iff, List.filter_eq_nil_iff]
  intro s hs
  simpa using h s hs

end Waiting

/-- There are at most `c - k` distinct numbers from `k` to below `c`. -/
theorem length_add_le {l : List ℕ} (hnodup : l.Nodup) {c k : ℕ} (hlt : ∀ x ∈ l, x < c)
    (hle : ∀ x ∈ l, k ≤ x) (hk : k ≤ c) : l.length + k ≤ c := by
  have hcard : l.length ≤ c - k := by
    rw [← Nat.card_Ico, ← List.toFinset_card_of_nodup hnodup]
    apply Finset.card_le_card
    intro x hx
    rw [List.mem_toFinset] at hx
    exact Finset.mem_Ico.mpr ⟨hle x hx, hlt x hx⟩
  omega

namespace Counts

variable {w : CodeWorld}

theorem empty : Counts CodeWorld.empty where
  rows r hr := absurd hr (Table.not_mem_empty r)
  ranks _ := ⟨List.nodup_nil, by simp [CodeWorld.empty, waiting]⟩
  about s hs := absurd hs List.not_mem_nil
  matched s hs := absurd hs List.not_mem_nil
  unissued _ _ := rfl
  once := List.nodup_nil
  verified a ha := absurd ha List.not_mem_nil

/-- The order of the requests does not matter. -/
theorem perm (h : Counts w) {l : List Submission} (hperm : w.submissions.Perm l) :
    Counts { w with submissions := l } where
  rows r hr := by
    obtain ⟨hid, hcount, hopen⟩ := h.rows r hr
    exact ⟨hid, (waiting_perm hperm r.id).length_eq ▸ hcount, hopen⟩
  ranks id := by
    obtain ⟨hnodup, hlt⟩ := h.ranks id
    exact ⟨(waiting_perm hperm id).nodup_iff.mp hnodup,
      fun k hk => hlt k ((waiting_perm hperm id).mem_iff.mpr hk)⟩
  about s hs := h.about s (hperm.mem_iff.mpr hs)
  matched s hs := h.matched s (hperm.mem_iff.mpr hs)
  unissued := h.unissued
  once := h.once
  verified := h.verified

/-- A statement that keeps rows verified. -/
theorem verified_codes (h : Counts w) {codes : CodeTable} (hcodes : ∀ r ∈ codes, ∃ x ∈ w.codes,
    x.id = r.id ∧ (x.verifiedAt ≠ none → r.verifiedAt ≠ none)) :
    ∀ a ∈ w.accepted, a.id ∈ w.issued ∧ ∀ r ∈ codes, r.id = a.id → r.verifiedAt ≠ none := by
  intro a ha
  obtain ⟨hissued, hrows⟩ := h.verified a ha
  refine ⟨hissued, ?_⟩
  intro r hr heq
  obtain ⟨x, hx, hid, hverified⟩ := hcodes r hr
  exact hverified (hrows x hx (hid.trans heq))

/-- A statement that counts nothing, reopens nothing and keeps rows verified. -/
theorem codes (h : Counts w) (codes : CodeTable) (hcodes : ∀ r ∈ codes, ∃ x ∈ w.codes,
    x.id = r.id ∧ x.attempts = r.attempts ∧ (r.closedAt = none → x.closedAt = none) ∧
      (x.verifiedAt ≠ none → r.verifiedAt ≠ none)) : Counts { w with codes } := by
  refine { h with rows := ?_, verified := ?_ }
  · intro r hr
    obtain ⟨x, hx, hid, hattempts, hclosed, _⟩ := hcodes r hr
    obtain ⟨hissued, hcount, hopen⟩ := h.rows x hx
    rw [hid] at hissued hcount
    rw [hattempts] at hcount hopen
    exact ⟨hissued, hcount, fun hr => hopen (hclosed hr)⟩
  · apply h.verified_codes
    intro r hr
    obtain ⟨x, hx, hid, _, _, hverified⟩ := hcodes r hr
    exact ⟨x, hx, hid, hverified⟩

/-- A request that compares nothing wrong and counts nothing. -/
theorem proceed (h : Counts w) {l : List Submission}
    (hwaiting : ∀ id, waiting l id = waiting w.submissions id)
    (hmem : ∀ s ∈ l, s ∈ w.submissions ∨ (∀ id, s.state.about = some id → id ∈ w.issued) ∧
      ∀ id, s.state = .matched id → s.rank ≤ w.compared id) :
    Counts { w with submissions := l } where
  rows r hr := by
    obtain ⟨hid, hcount, hopen⟩ := h.rows r hr
    exact ⟨hid, (hwaiting r.id).symm ▸ hcount, hopen⟩
  ranks id := (hwaiting id).symm ▸ h.ranks id
  about s hs id hid := by
    rcases hmem s hs with hs | ⟨habout, _⟩
    · exact h.about s hs id hid
    · exact habout id hid
  matched s hs id hid := by
    rcases hmem s hs with hs | ⟨_, hrank⟩
    · exact h.matched s hs id hid
    · exact hrank id hid
  unissued := h.unissued
  once := h.once
  verified := h.verified

/-- The first request moves on, comparing nothing wrong and counting nothing. -/
theorem head (h : Counts w) {s : Submission} (s' : Submission) {rest : List Submission}
    (hsub : w.submissions = s :: rest) (hs : ∀ id, s.state ≠ .mismatched id)
    (hs' : ∀ id, s'.state ≠ .mismatched id)
    (habout : ∀ id, s'.state.about = some id → id ∈ w.issued)
    (hrank : ∀ id, s'.state = .matched id → s'.rank ≤ w.compared id) :
    Counts { w with submissions := s' :: rest } := by
  apply h.proceed
  · intro id
    rw [hsub, waiting_cons_of_ne id (hs id), waiting_cons_of_ne id (hs' id)]
  · intro x hx
    rcases List.mem_cons.mp hx with rfl | hx
    · exact Or.inr ⟨habout, hrank⟩
    · exact Or.inl (hsub ▸ List.mem_cons_of_mem _ hx)

/-- A wrong submission is compared: it waits with the next rank. -/
theorem mismatch (h : Counts w) {s : Submission} {rest : List Submission}
    (hsub : w.submissions = s :: rest) (hs : ∀ id, s.state ≠ .mismatched id) {id : Uuid}
    (hid : id ∈ w.issued) : Counts { w with
      submissions := { s with state := .mismatched id, rank := w.compared id } :: rest
      compared := Function.update w.compared id (w.compared id + 1) } := by
  have hrest : ∀ x, waiting w.submissions x = waiting rest x := fun x =>
    hsub ▸ waiting_cons_of_ne x (hs x)
  have hle : ∀ x, w.compared x ≤ Function.update w.compared id (w.compared id + 1) x := by
    intro x
    by_cases hx : x = id
    · subst hx
      rw [Function.update_self]
      omega
    · rw [Function.update_of_ne hx]
  have hself : waiting ({ s with state := .mismatched id, rank := w.compared id } :: rest) id =
      w.compared id :: waiting rest id := waiting_cons_of_eq rfl
  have hother : ∀ x, x ≠ id →
      waiting ({ s with state := .mismatched id, rank := w.compared id } :: rest) x =
        waiting rest x := fun x hx =>
    waiting_cons_of_ne x fun heq => hx (VerifyState.mismatched.inj heq).symm
  refine { h with rows := ?_, ranks := ?_, about := ?_, matched := ?_, unissued := ?_ }
  · intro r hr
    obtain ⟨hissued, hcount, hopen⟩ := h.rows r hr
    refine ⟨hissued, ?_, hopen⟩
    rw [hrest] at hcount
    by_cases hx : r.id = id
    · dsimp only
      rw [hx, hself, Function.update_self, List.length_cons]
      rw [hx] at hcount
      omega
    · dsimp only
      rw [hother _ hx, Function.update_of_ne hx]
      exact hcount
  · intro x
    obtain ⟨hnodup, hlt⟩ := h.ranks x
    rw [hrest] at hnodup hlt
    by_cases hx : x = id
    · subst hx
      dsimp only
      rw [hself, Function.update_self]
      refine ⟨List.nodup_cons.mpr ⟨fun hmem => (hlt _ hmem).ne rfl, hnodup⟩, ?_⟩
      intro k hk
      rcases List.mem_cons.mp hk with rfl | hk
      · omega
      · have := hlt k hk
        omega
    · dsimp only
      rw [hother x hx, Function.update_of_ne hx]
      exact ⟨hnodup, hlt⟩
  · intro x hx y hy
    rcases List.mem_cons.mp hx with rfl | hx
    · exact Option.some.inj hy ▸ hid
    · exact h.about x (hsub ▸ List.mem_cons_of_mem _ hx) y hy
  · intro x hx y hy
    rcases List.mem_cons.mp hx with rfl | hx
    · cases hy
    · exact (h.matched x (hsub ▸ List.mem_cons_of_mem _ hx) y hy).trans (hle y)
  · intro x hx
    have hne : x ≠ id := fun heq => hx (heq ▸ hid)
    dsimp only
    rw [Function.update_of_ne hne]
    exact h.unissued x hx

/-- A wrong submission is counted: it waits no longer. -/
theorem count (h : Counts w) {s : Submission} {rest : List Submission}
    (hsub : w.submissions = s :: rest) {id : Uuid} (hs : s.state = .mismatched id)
    (clock : Timestamp) : Counts { w with
      codes := countAttempt 5 w.codes id clock
      submissions := { s with state := .answered none } :: rest } := by
  have hself : waiting w.submissions id = s.rank :: waiting rest id := hsub ▸ waiting_cons_of_eq hs
  have hother : ∀ x, x ≠ id → waiting w.submissions x = waiting rest x := fun x hx =>
    hsub ▸ waiting_cons_of_ne x fun heq => hx (VerifyState.mismatched.inj (hs.symm.trans heq)).symm
  have hrest : ∀ x, waiting ({ s with state := .answered none } :: rest) x = waiting rest x :=
    fun x => waiting_cons_of_ne x (by simp)
  refine { h with rows := ?_, ranks := ?_, about := ?_, matched := ?_, verified := ?_ }
  · intro r hr
    obtain ⟨x, hx, rfl⟩ := mem_countAttempt hr
    obtain ⟨hissued, hcount, hopen⟩ := h.rows x hx
    dsimp only
    rw [hrest]
    by_cases hx : x.id = id
    · simp only [hx, if_true]
      rw [hx, hself, List.length_cons] at hcount
      refine ⟨hx ▸ hissued, by omega, ?_⟩
      intro hclosed
      split_ifs at hclosed with hmax
      omega
    · simp only [hx, if_false]
      exact ⟨hissued, hother _ hx ▸ hcount, hopen⟩
  · intro x
    obtain ⟨hnodup, hlt⟩ := h.ranks x
    dsimp only
    rw [hrest]
    by_cases hx : x = id
    · subst hx
      rw [hself] at hnodup hlt
      exact ⟨(List.nodup_cons.mp hnodup).2, fun k hk => hlt k (List.mem_cons_of_mem _ hk)⟩
    · rw [hother x hx] at hnodup hlt
      exact ⟨hnodup, hlt⟩
  · intro x hx y hy
    rcases List.mem_cons.mp hx with rfl | hx
    · cases hy
    · exact h.about x (hsub ▸ List.mem_cons_of_mem _ hx) y hy
  · intro x hx y hy
    rcases List.mem_cons.mp hx with rfl | hx
    · cases hy
    · exact h.matched x (hsub ▸ List.mem_cons_of_mem _ hx) y hy
  · apply h.verified_codes
    intro r hr
    obtain ⟨x, hx, rfl⟩ := mem_countAttempt hr
    refine ⟨x, hx, ?_⟩
    split <;> exact ⟨rfl, fun h => h⟩

/-- An open row has handed out no token. -/
theorem not_accepted (h : Counts w) {r : CodeRow} (hr : r ∈ w.codes) (hopen : r.isOpen = true) :
    r.id ∉ w.accepted.map Acceptance.id := by
  intro hmem
  obtain ⟨a, ha, heq⟩ := List.mem_map.mp hmem
  exact (h.verified a ha).2 r hr heq.symm (CodeRow.isOpen_iff.mp hopen).1

/-- A submission claims an open row and is handed a token. -/
theorem claim (h : Counts w) {s : Submission} {rest : List Submission}
    (hsub : w.submissions = s :: rest) {id : Uuid} (hs : s.state = .matched id) {token : String}
    {tokenHash tokenTtl : ℕ} {now : Timestamp} (hopen : ∃ r ∈ w.codes, r.id = id ∧ r.isOpen = true) :
    Counts { w with
      codes := (claimCode w.codes id tokenHash tokenTtl now).2
      submissions := { s with state := .answered (some token) } :: rest
      accepted := ⟨id, s.rank, token⟩ :: w.accepted } := by
  have hkept : ∀ r ∈ (claimCode w.codes id tokenHash tokenTtl now).2, ∃ x ∈ w.codes,
      x.id = r.id ∧ x.attempts = r.attempts ∧ (r.closedAt = none → x.closedAt = none) ∧
        (x.verifiedAt ≠ none → r.verifiedAt ≠ none) := by
    intro r hr
    obtain ⟨x, hx, rfl⟩ := mem_claimCode hr
    refine ⟨x, hx, ?_⟩
    split
    · exact ⟨rfl, rfl, fun h => h, fun _ => Option.some_ne_none _⟩
    · exact ⟨rfl, rfl, fun h => h, fun h => h⟩
  have hclaimed : ∀ r ∈ (claimCode w.codes id tokenHash tokenTtl now).2,
      r.id = id → r.verifiedAt ≠ none := by
    intro r hr heq
    obtain ⟨x, hx, rfl⟩ := mem_claimCode hr
    by_cases hclaimed : x.id = id ∧ x.isOpen = true
    · rw [if_pos hclaimed]
      exact Option.some_ne_none _
    · rw [if_neg hclaimed] at heq
      obtain ⟨y, hy, rfl, hy'⟩ := hopen
      obtain rfl := Table.eq_of_key_eq hx hy heq
      exact absurd ⟨rfl, hy'⟩ hclaimed
  have hbase := (h.head { s with state := .answered (some token) } hsub (by simp [hs])
    (by simp) (by simp [VerifyState.about]) (by simp)).codes _ hkept
  refine { hbase with once := ?_, verified := ?_ }
  · obtain ⟨r, hr, rfl, hr'⟩ := hopen
    exact List.nodup_cons.mpr ⟨h.not_accepted hr hr', h.once⟩
  · intro a ha
    rcases List.mem_cons.mp ha with rfl | ha
    · exact ⟨h.about s (by simp [hsub]) id (by simp [hs, VerifyState.about]), hclaimed⟩
    · exact hbase.verified a ha

/-- One statement of `verify`, run by the first request. -/
theorem advance (h : Counts w) {s : Submission} {rest : List Submission} {state : VerifyState}
    {codes : CodeTable} (hsub : w.submissions = s :: rest)
    (hstatement : Statement 5 w.codes s.state state codes) :
    Counts (w.advance s rest state codes) := by
  have habout : ∀ pending, (s.state = .received ∧ pending ∈ w.codes) ∨
      s.state = .selected pending → pending.id ∈ w.issued := by
    rintro pending (⟨_, hpending⟩ | hs)
    · exact (h.rows pending hpending).1
    · exact h.about s (by simp [hsub]) pending.id (by simp [hs, VerifyState.about])
  obtain ⟨req, old, rank⟩ := s
  cases hstatement with
  | refuse =>
    exact h.head ⟨req, .answered none, rank⟩ hsub (by simp) (by simp) (by simp [VerifyState.about])
      (by simp)
  | select pending hpending =>
    refine h.head ⟨req, .selected pending, rank⟩ hsub (by simp) (by simp) ?_ (by simp)
    intro id hid
    exact Option.some.inj hid ▸ (h.rows pending hpending).1
  | mismatch pending _ hs =>
    have hne : ∀ id, old ≠ .mismatched id := by
      rintro id rfl
      simp at hs
    have hmismatch := h.mismatch hsub hne (habout pending hs)
    cases old <;> exact hmismatch
  | isMatch pending _ hs =>
    have hne : ∀ id, old ≠ .mismatched id := by
      rintro id rfl
      simp at hs
    have hmatch := h.head ⟨req, .matched pending.id, w.compared pending.id⟩ hsub hne
      (by simp) (fun id hid => Option.some.inj hid ▸ habout pending hs)
      (fun id hid => VerifyState.matched.inj hid ▸ le_refl _)
    cases old <;> exact hmatch
  | count id clock => exact h.count hsub rfl clock
  | claim id token tokenHash tokenTtl now hopen => exact h.claim hsub rfl hopen
  | lose id =>
    exact h.head ⟨req, .answered none, rank⟩ hsub (by simp) (by simp) (by simp [VerifyState.about])
      (by simp)
  | idle _ hstate =>
    have hidle := h.head ⟨req, old, rank⟩ hsub (fun id => (hstate id).1)
      (fun id => (hstate id).1) (h.about ⟨req, old, rank⟩ (by simp [hsub]))
      (h.matched ⟨req, old, rank⟩ (by simp [hsub]))
    cases old with
    | mismatched id => exact absurd rfl (hstate id).1
    | matched id => exact absurd rfl (hstate id).2
    | _ => exact hidle

/-- `start` adds a row with an id never drawn before. -/
theorem issue (h : Counts w) {id : Uuid} (hid : id ∉ w.issued) {accountId : Option Uuid}
    {email : String} {codeHash : ℕ} {valid : Bool} {now : Timestamp} {codes : CodeTable}
    (hcodes : issueCode w.codes id accountId email codeHash valid now = some codes) :
    Counts { w with codes, issued := id :: w.issued } := by
  simp only [issueCode] at hcodes
  split at hcodes
  · cases hcodes
  have hclosed := h.codes (w.codes.update (fun r => r.email = email ∧ r.isOpen)
      fun r => { r with closedAt := some now }) (by
    intro r hr
    obtain ⟨x, hx, rfl⟩ := Table.mem_update.mp hr
    refine ⟨x, hx, ?_⟩
    split
    · exact ⟨rfl, rfl, fun h => absurd h (Option.some_ne_none _), fun h => h⟩
    · exact ⟨rfl, rfl, fun h => h, fun h => h⟩)
  have hnew : waiting w.submissions id = [] := by
    apply waiting_eq_nil
    intro s hs heq
    exact hid (h.about s hs id (by simp [heq, VerifyState.about]))
  refine ⟨?_, h.ranks, ?_, h.matched, ?_, h.once, ?_⟩
  · intro r hr
    rcases (Table.mem_insertAll hcodes r).mp hr with hr | hr
    · obtain ⟨hissued, hrest⟩ := hclosed.rows r hr
      exact ⟨List.mem_cons_of_mem _ hissued, hrest⟩
    · obtain rfl := List.mem_singleton.mp hr
      refine ⟨List.mem_cons_self, ?_, fun _ => Nat.zero_lt_succ _⟩
      dsimp only
      rw [hnew, h.unissued id hid, List.length_nil]
  · intro s hs x hx
    exact List.mem_cons_of_mem _ (h.about s hs x hx)
  · intro x hx
    exact h.unissued x fun hmem => hx (List.mem_cons_of_mem _ hmem)
  · intro a ha
    obtain ⟨hissued, hrows⟩ := hclosed.verified a ha
    refine ⟨List.mem_cons_of_mem _ hissued, ?_⟩
    intro r hr heq
    rcases (Table.mem_insertAll hcodes r).mp hr with hr | hr
    · exact hrows r hr heq
    · obtain rfl := List.mem_singleton.mp hr
      have hself : id = a.id := heq
      exact absurd (hself ▸ hissued) hid

end Counts

/-- Every `start` issues a code, or does nothing. -/
theorem CodeService.start_eq_some {service : CodeService} {hashes : Hashes}
    {accounts : Table AccountRow.id} {codes codes' : CodeTable} {id : Uuid} {email code : String}
    {randomHash : ℕ} {now : Timestamp}
    (h : service.start hashes accounts codes id email code randomHash now = some codes') :
    ∃ accountId codeHash valid,
      issueCode codes id accountId email codeHash valid now = some codes' := by
  cases service with
  | signup => exact ⟨_, _, _, h⟩
  | recovery => exact ⟨_, _, _, h⟩

namespace CodeWorld

variable (service : CodeService) (hashes : Hashes) (w : CodeWorld)

/-- Every action keeps the counts. -/
theorem step_counts (h : Counts w) (action : CodeAction) : Counts (w.step service hashes action) := by
  cases action with
  | receive req =>
    apply h.proceed
    · intro id
      exact waiting_cons_of_ne id (by simp)
    · intro s hs
      rcases List.mem_cons.mp hs with rfl | hs
      · exact Or.inr ⟨by simp [VerifyState.about], by simp⟩
      · exact Or.inl hs
  | proceed i token clock =>
    simp only [step]
    cases hs : w.submissions[i]? with
    | none => exact h
    | some s =>
      obtain ⟨hi, rfl⟩ := List.getElem?_eq_some_iff.mp hs
      have hperm := (List.getElem_cons_eraseIdx_perm hi).symm
      have hadvance := (h.perm hperm).advance rfl (service.verify_statement hashes w.accounts
        w.codes w.submissions[i].req token clock w.submissions[i].state)
      exact hadvance
  | start id email code randomHash now =>
    simp only [step]
    split_ifs with hid
    · exact h
    · cases hstart : service.start hashes w.accounts w.codes id email code randomHash now with
      | none => exact h
      | some codes =>
        obtain ⟨_, _, _, hissue⟩ := CodeService.start_eq_some hstart
        exact h.issue hid hissue
  | complete token now =>
    apply h.codes _
    intro r hr
    obtain ⟨x, hx, rfl⟩ := Table.mem_update.mp hr
    refine ⟨x, hx, ?_⟩
    split <;> exact ⟨rfl, rfl, fun h => h, fun h => h⟩
  | putAccount account => exact { h with }
  | deleteAccount id =>
    have hdeleted := h.codes (w.codes.delete fun r => r.accountId = some id) fun r hr =>
      ⟨r, (Table.mem_delete.mp hr).1, rfl, rfl, fun h => h, fun h => h⟩
    exact { hdeleted with }

/-- Every run keeps the counts. -/
theorem run_counts (h : Counts w) (actions : List CodeAction) :
    Counts (w.run service hashes actions) := by
  induction actions generalizing w with
  | nil => exact h
  | cons action actions ih => exact ih _ (step_counts service hashes w h action)

variable {w}

/-- A token is only handed out by the claim of an open row. -/
theorem mem_accepted_advance {s : Submission} {rest : List Submission} {state : VerifyState}
    {codes : CodeTable} (hstatement : Statement 5 w.codes s.state state codes) {a : Acceptance}
    (ha : a ∈ (w.advance s rest state codes).accepted) : a ∈ w.accepted ∨ a.rank = s.rank ∧
      ∃ r ∈ w.codes, s.state = .matched r.id ∧ r.isOpen = true := by
  obtain ⟨req, old, rank⟩ := s
  cases hstatement with
  | claim id token tokenHash tokenTtl now hopen =>
    rcases List.mem_cons.mp ha with rfl | ha
    · obtain ⟨r, hr, rfl, hr'⟩ := hopen
      exact Or.inr ⟨rfl, r, hr, rfl, hr'⟩
    · exact Or.inl ha
  | refuse => exact Or.inl ha
  | select => exact Or.inl ha
  | count => exact Or.inl ha
  | lose => exact Or.inl ha
  | mismatch => cases old <;> exact Or.inl ha
  | isMatch => cases old <;> exact Or.inl ha
  | idle => cases old <;> exact Or.inl ha

/-- Where no earlier wrong submission waits, a submission was compared after no more wrong ones
than are counted. -/
theorem rank_le (h : Counts w) {s : Submission} (hs : s ∈ w.submissions) {r : CodeRow}
    (hr : r ∈ w.codes) (hmatched : s.state = .matched r.id)
    (hcounted : ∀ rank ∈ waiting w.submissions r.id, s.rank ≤ rank) : s.rank ≤ r.attempts := by
  obtain ⟨_, hcount, _⟩ := h.rows r hr
  obtain ⟨hnodup, hlt⟩ := h.ranks r.id
  have hle := length_add_le hnodup hlt hcounted (h.matched s hs r.id hmatched)
  omega

/-- A counted step accepts no submission after five wrong ones. -/
theorem step_accepted (h : Counts w) {action : CodeAction} (hcounted : w.Counted action)
    {a : Acceptance} (ha : a ∈ (w.step service hashes action).accepted) :
    a ∈ w.accepted ∨ a.rank < 5 := by
  cases action with
  | proceed i token clock =>
    simp only [step] at ha
    cases hs : w.submissions[i]? with
    | none =>
      rw [hs] at ha
      exact Or.inl ha
    | some s =>
      rw [hs] at ha
      have hstatement := service.verify_statement hashes w.accounts w.codes s.req token clock s.state
      rcases mem_accepted_advance hstatement ha with ha | ⟨hrank, r, hr, hmatched, hopen⟩
      · exact Or.inl ha
      · have hle := rank_le h (List.mem_of_getElem? hs) hr hmatched
          (hcounted s r.id hs hmatched ⟨r, hr, rfl, hopen⟩)
        -- the fifth wrong submission that was counted would have closed the row
        have hlt := (h.rows r hr).2.2 (CodeRow.isOpen_iff.mp hopen).2
        omega
  | start id email code randomHash now =>
    simp only [step] at ha
    split at ha
    · exact Or.inl ha
    · split at ha <;> exact Or.inl ha
  | _ => exact Or.inl ha

/-- A counted run accepts no submission after five wrong ones. -/
theorem run_accepted (h : Counts w) {actions : List CodeAction}
    (hcounted : CountedRun service hashes w actions) (hlt : ∀ a ∈ w.accepted, a.rank < 5) :
    ∀ a ∈ (w.run service hashes actions).accepted, a.rank < 5 := by
  induction actions generalizing w with
  | nil => exact hlt
  | cons action actions ih =>
    refine ih (step_counts service hashes w h action) hcounted.2 ?_
    intro a ha
    rcases step_accepted service hashes h hcounted.1 ha with ha | ha
    · exact hlt a ha
    · exact ha

end CodeWorld

/-- For either service and any interleaving of its statements, a row hands out at most one
token; and in a run in which no submission claims a row while an earlier wrong one waits to be
counted, one is accepted only when fewer than five wrong submissions of its row were compared
before it. -/
theorem guesses_limited (service : CodeService) (hashes : Hashes) (actions : List CodeAction) :
    ((CodeWorld.empty.run service hashes actions).accepted.map Acceptance.id).Nodup ∧
      (CodeWorld.CountedRun service hashes CodeWorld.empty actions →
        ∀ a ∈ (CodeWorld.empty.run service hashes actions).accepted, a.rank < 5) := by
  refine ⟨(CodeWorld.run_counts service hashes _ Counts.empty actions).once, ?_⟩
  intro hcounted
  exact CodeWorld.run_accepted service hashes Counts.empty hcounted
    fun a ha => absurd ha List.not_mem_nil

/-- Hashes for the runs below, where the emailed code is 246810. -/
def sampleHashes : Hashes where
  codeHash _ code := if code = "246810" then 1 else 0
  hashToken := String.length
  authHash := String.length

/-- A submission for the runs below. -/
def guess (code : String) : VerifyRequest := ⟨"ann@example.com", code, "", 1000⟩

/-- A wrong submission is compared and counted before the right one is compared. -/
def countedGuesses : List CodeAction :=
  [.start 1 "ann@example.com" "246810" 0 0, .receive (guess "000000"), .proceed 0 "" 1000,
    .proceed 0 "" 1000, .receive (guess "246810"), .proceed 0 "" 1000, .proceed 0 "token" 1000]

theorem countedGuesses_limited :
    CodeWorld.CountedRun .signup sampleHashes CodeWorld.empty countedGuesses ∧
      (CodeWorld.empty.run .signup sampleHashes countedGuesses).accepted = [⟨1, 1, "token"⟩] ∧
      ∀ a ∈ (CodeWorld.empty.run .signup sampleHashes countedGuesses).accepted, a.rank < 5 := by
  have hcounted : CodeWorld.CountedRun .signup sampleHashes CodeWorld.empty countedGuesses := by
    refine ⟨trivial, trivial, ?_, ?_, trivial, ?_, ?_, trivial⟩
    · rintro s id ⟨⟩ ⟨⟩
    · rintro s id ⟨⟩ ⟨⟩
    · rintro s id ⟨⟩ ⟨⟩
    · rintro s id ⟨⟩ ⟨⟩ -
      decide
  exact ⟨hcounted, by decide, (guesses_limited .signup sampleHashes countedGuesses).2 hcounted⟩

/-- Six wrong submissions and the right one are all compared before any is counted. -/
def parallelGuesses : List CodeAction :=
  .start 1 "ann@example.com" "246810" 0 0 ::
    (List.replicate 6 (.receive (guess "000000")) ++ [.receive (guess "246810")] ++
      List.replicate 7 (.proceed 6 "" 1000) ++ [.proceed 0 "token" 1000])

/-- The right submission is accepted after six wrong ones. -/
theorem parallelGuesses_exceed :
    ¬ ∀ a ∈ (CodeWorld.empty.run .signup sampleHashes parallelGuesses).accepted, a.rank < 5 := by
  decide

end Zvault
