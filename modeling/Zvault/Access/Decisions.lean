import Zvault.Access.Approvals
import Zvault.Concurrent.Tasks

/-!
# One decision a request

The calls about requests, each statement on `access_requests` a step of its own.
The checks between two such statements read tables that anyone may be changing;
they are one step that goes either way. A decision is written where the request
is still undecided, so whatever the checks read, no request is decided twice.
-/

namespace Zvault

open Relational Concurrent EnvironmentsService

/-- A write to `access_requests`. -/
inductive RequestEvent where
  | made (id : Uuid)
  | decided (id : Uuid) (status : RequestStatus)
  deriving DecidableEq, Repr

/-- `access_requests`, and what was written to it, the latest first. -/
structure RequestTable where
  rows : Table AccessRequestRow.id
  history : List RequestEvent

/-- The decisions about a request since it was made. -/
def decisionsAbout (id : Uuid) : List RequestEvent → ℕ
  | [] => 0
  | .made id' :: past => if id' = id then 0 else decisionsAbout id past
  | .decided id' _ :: past => if id' = id then decisionsAbout id past + 1 else decisionsAbout id past

/-- What a step finds outside `access_requests`. -/
structure Found where
  now : Timestamp
  /-- Whether the checks let the call go on. -/
  passes : Bool
  /-- The key on file of who asks. -/
  publicKey : PublicKey
  /-- The id the database generates. -/
  id : Uuid
  deriving DecidableEq, Repr

/-- A call, at the step it does next. -/
inductive RequestTask where
  | createRequest (holder : Holder) (environmentId : Uuid) (req : CreateAccessRequest)
  | insertRequest (row : AccessRequestRow)
  | listRequests (accountId environmentId : Uuid)
  | selectRequests (accountId environmentId : Uuid)
  | getRequest (holder : Holder) (requestId : Uuid)
  | showRequest (holder : Holder) (r : AccessRequestRow)
  | approve (accountId requestId : Uuid) (req : ApproveAccessRequest)
  | checkApprove (accountId requestId : Uuid) (req : ApproveAccessRequest) (r : AccessRequestRow)
  | setApproved (accountId requestId : Uuid) (req : ApproveAccessRequest) (now : Timestamp)
  | deny (accountId requestId : Uuid)
  | checkDeny (accountId requestId : Uuid) (r : AccessRequestRow)
  | setDenied (accountId requestId : Uuid) (now : Timestamp)
  /-- The requests of an environment go with its access row. -/
  | dropEnvironment (environmentId : Uuid)
  deriving DecidableEq, Repr

namespace RequestTask

/-- The update of a decision. -/
def setDecision (s : RequestTable) (requestId : Uuid) (status : RequestStatus)
    (decision : AccessRequestRow → AccessRequestRow) (hid : ∀ r, (decision r).id = r.id) :
    RequestTable :=
  match decideWhere s.rows requestId decision hid with
  | (none, rows) => ⟨rows, s.history⟩
  | (some _, rows) => ⟨rows, .decided requestId status :: s.history⟩

/-- One step of a call, and how it goes on. -/
def step (s : RequestTable) (found : Found) : RequestTask → RequestTable × Option RequestTask
  | .createRequest holder environmentId req =>
    if found.passes then
      (s, some (.insertRequest
        (newRequest found.id holder found.publicKey environmentId req found.now)))
    else (s, none)
  | .insertRequest row =>
    match s.rows.insertAll [row] with
    | none => (s, none)
    | some rows => (⟨rows, .made row.id :: s.history⟩, none)
  | .listRequests accountId environmentId =>
    (s, if found.passes then some (.selectRequests accountId environmentId) else none)
  | .selectRequests .. => (s, none)
  | .getRequest holder requestId => (s, (s.rows.find requestId).map (.showRequest holder))
  | .showRequest .. => (s, none)
  | .approve accountId requestId req =>
    (s, (s.rows.find requestId).map (.checkApprove accountId requestId req))
  | .checkApprove accountId requestId req r =>
    if found.passes = false ∨ r.status ≠ .pending ∨ r.expiresAt ≤ found.now then (s, none)
    else (s, some (.setApproved accountId requestId req found.now))
  | .setApproved accountId requestId req now =>
    (setDecision s requestId .approved (AccessRequestRow.approve accountId req now)
      (AccessRequestRow.id_approve accountId req now), none)
  | .deny accountId requestId => (s, (s.rows.find requestId).map (.checkDeny accountId requestId))
  | .checkDeny accountId requestId r =>
    if found.passes = false ∨ r.status ≠ .pending ∨ r.expiresAt ≤ found.now then (s, none)
    else (s, some (.setDenied accountId requestId found.now))
  | .setDenied accountId requestId now =>
    (setDecision s requestId .denied (AccessRequestRow.deny accountId now)
      (AccessRequestRow.id_deny accountId now), none)
  | .dropEnvironment environmentId =>
    (⟨s.rows.delete fun r => r.environmentId = environmentId, s.history⟩, none)

/-- The steps of a call that no other step comes between, with what each of them finds. -/
def alone : List Found → RequestTable → Option RequestTask → RequestTable × Option RequestTask
  | _, s, none => (s, none)
  | [], s, some t => (s, some t)
  | found :: rest, s, some t => alone rest (t.step s found).1 (t.step s found).2

/-- The calls, and the end of an environment. -/
def IsCall : RequestTask → Prop
  | .createRequest .. | .listRequests .. | .getRequest .. | .approve .. | .deny ..
  | .dropEnvironment .. => True
  | _ => False

end RequestTask

/-- Any calls, in any order of steps. -/
def requestProgram : Program RequestTable RequestTask where
  start _ t := t.IsCall
  act s t s' next := ∃ found, t.step s found = (s', next)

/-- A request that waits for a decision has had none, and none has had two. -/
def DecidedOnce (s : RequestTable) : Prop :=
  ∀ id, decisionsAbout id s.history ≤ 1 ∧
    ∀ r ∈ s.rows, r.id = id → r.status = .pending → decisionsAbout id s.history = 0

section Steps

variable {s s' : RequestTable} {requests : Table AccessRequestRow.id} {requestId : Uuid}
  {decision : AccessRequestRow → AccessRequestRow} {hid : ∀ r, (decision r).id = r.id}

/-- A decision is about a request that waits for one. -/
theorem decideWhere_fst_eq_some {row : AccessRequestRow}
    (h : (decideWhere requests requestId decision hid).1 = some row) :
    ∃ r ∈ requests, r.id = requestId ∧ r.status = .pending ∧ row = decision r := by
  unfold decideWhere at h
  obtain ⟨r, hr, rfl⟩ := Option.map_eq_some_iff.mp h
  obtain ⟨hmem, hundecided⟩ := Table.mem_select.mp (List.mem_of_mem_head? hr)
  obtain ⟨hid, hpending⟩ := of_decide_eq_true hundecided
  exact ⟨r, hmem, hid, hpending, rfl⟩

/-- Nothing is decided where no request waits. -/
theorem decideWhere_fst_eq_none (h : (decideWhere requests requestId decision hid).1 = none) :
    (decideWhere requests requestId decision hid).2 = requests := by
  change requests.update (AccessRequestRow.undecided requestId) decision hid = requests
  unfold decideWhere at h
  rw [Option.map_eq_none_iff, List.head?_eq_none_iff] at h
  refine Table.update_eq_self fun r hr => ?_
  by_contra hmatch
  rw [Bool.not_eq_false] at hmatch
  have hmem := Table.mem_select.mpr ⟨hr, hmatch⟩
  rw [h] at hmem
  exact absurd hmem List.not_mem_nil

theorem setDecision_rows (s : RequestTable) (requestId : Uuid) (status : RequestStatus)
    (decision : AccessRequestRow → AccessRequestRow) (hid : ∀ r, (decision r).id = r.id) :
    RequestTask.setDecision s requestId status decision hid =
      ⟨(decideWhere s.rows requestId decision hid).2,
        (RequestTask.setDecision s requestId status decision hid).history⟩ := by
  unfold RequestTask.setDecision
  split <;> rename_i hdecided <;> rw [hdecided]

/-- A row after a decision was there before, or is the row the decision is about. -/
theorem mem_decideWhere {r : AccessRequestRow}
    (h : r ∈ (decideWhere requests requestId decision hid).2) :
    (r ∈ requests ∧ (r.id = requestId → r.status ≠ .pending)) ∨
      ∃ r₀ ∈ requests, r₀.id = requestId ∧ r₀.status = .pending ∧ r = decision r₀ := by
  have hupdated : r ∈ requests.update (AccessRequestRow.undecided requestId) decision hid := h
  obtain ⟨r₀, hr₀, rfl⟩ := Table.mem_update.mp hupdated
  split
  · rename_i hundecided
    obtain ⟨hid, hpending⟩ := of_decide_eq_true hundecided
    exact Or.inr ⟨r₀, hr₀, hid, hpending, rfl⟩
  · rename_i hdecided
    refine Or.inl ⟨hr₀, fun hid hpending => hdecided ?_⟩
    exact decide_eq_true ⟨hid, hpending⟩

/-- A decision counts once, and only for the request it is about. -/
theorem decidedOnce_setDecision {status : RequestStatus} (h : DecidedOnce s)
    (hdecided : ∀ r, (decision r).status ≠ .pending) :
    DecidedOnce (RequestTask.setDecision s requestId status decision hid) := by
  unfold RequestTask.setDecision
  split
  · rename_i rows heq
    have hsame : rows = s.rows := by
      rw [← decideWhere_fst_eq_none (congrArg Prod.fst heq), heq]
    rw [hsame]
    exact h
  · rename_i row rows heq
    obtain ⟨r₀, hr₀, hr₀id, hpending, -⟩ := decideWhere_fst_eq_some (congrArg Prod.fst heq)
    intro id
    obtain ⟨hone, hzero⟩ := h id
    have hcount : decisionsAbout id (.decided requestId status :: s.history) =
        if requestId = id then decisionsAbout id s.history + 1
        else decisionsAbout id s.history := rfl
    rw [hcount]
    split
    · rename_i hsame
      rw [hzero r₀ hr₀ (hr₀id.trans hsame) hpending]
      refine ⟨le_rfl, fun r hr hrid hrpending => ?_⟩
      have hmem : r ∈ (decideWhere s.rows requestId decision hid).2 := by rwa [heq]
      rcases mem_decideWhere hmem with ⟨-, hnot⟩ | ⟨r₁, -, -, -, rfl⟩
      · exact absurd hrpending (hnot (hrid.trans hsame.symm))
      · exact absurd hrpending (hdecided r₁)
    · refine ⟨hone, fun r hr hrid hrpending => ?_⟩
      have hmem : r ∈ (decideWhere s.rows requestId decision hid).2 := by rwa [heq]
      rcases mem_decideWhere hmem with ⟨hkept, -⟩ | ⟨r₁, -, -, -, rfl⟩
      · exact hzero r hkept hrid hrpending
      · exact absurd hrpending (hdecided r₁)

/-- A request that is made has had no decision. -/
theorem decidedOnce_insert {row : AccessRequestRow} {rows : Table AccessRequestRow.id}
    (h : DecidedOnce s) (hrows : s.rows.insertAll [row] = some rows) :
    DecidedOnce ⟨rows, .made row.id :: s.history⟩ := by
  intro id
  obtain ⟨hone, hzero⟩ := h id
  have hcount : decisionsAbout id (.made row.id :: s.history) =
      if row.id = id then 0 else decisionsAbout id s.history := rfl
  rw [hcount]
  split
  · exact ⟨Nat.zero_le _, fun _ _ _ _ => rfl⟩
  · rename_i hother
    refine ⟨hone, fun r hr hrid hpending => ?_⟩
    rcases (Table.mem_insertAll hrows r).mp hr with hr | hr
    · exact hzero r hr hrid hpending
    · rw [List.mem_singleton.mp hr] at hrid
      exact absurd hrid hother

theorem DecidedOnce.step (h : DecidedOnce s) (found : Found) (t : RequestTask) :
    DecidedOnce (t.step s found).1 := by
  cases t with
  | createRequest =>
    dsimp only [RequestTask.step]
    split <;> exact h
  | insertRequest row =>
    dsimp only [RequestTask.step]
    split
    · exact h
    · rename_i rows hrows
      exact decidedOnce_insert h hrows
  | listRequests => exact h
  | selectRequests => exact h
  | getRequest => exact h
  | showRequest => exact h
  | approve => exact h
  | checkApprove =>
    dsimp only [RequestTask.step]
    split <;> exact h
  | setApproved =>
    refine decidedOnce_setDecision h fun r hpending => ?_
    cases hpending
  | deny => exact h
  | checkDeny =>
    dsimp only [RequestTask.step]
    split <;> exact h
  | setDenied =>
    refine decidedOnce_setDecision h fun r hpending => ?_
    cases hpending
  | dropEnvironment =>
    intro id
    obtain ⟨hone, hzero⟩ := h id
    exact ⟨hone, fun r hr => hzero r (Table.mem_delete.mp hr).1⟩

/-- The invariant is an outline in which no task waits for anything. -/
theorem requestProgram_outline :
    Outline requestProgram DecidedOnce (fun _ _ => True) fun _ _ => True := by
  refine .of_free (fun _ _ => trivial) ?_ (fun _ _ _ => trivial) (fun _ _ _ _ => trivial)
  intro s t s' next h _ hact
  obtain ⟨found, hstep⟩ := hact
  have hkept := h.step found t
  rwa [hstep] at hkept

/-- However the steps of calls come in between, no request is decided twice. -/
theorem decisionsAbout_le_one {system : System RequestTable RequestTask}
    (hrun : Run requestProgram ⟨⟨requests, []⟩, []⟩ system) (id : Uuid) :
    decisionsAbout id system.shared.history ≤ 1 := by
  have hstart : DecidedOnce ⟨requests, []⟩ := fun id => ⟨Nat.zero_le _, fun _ _ _ _ => rfl⟩
  exact ((requestProgram_outline.run_idle hstart hrun).inv id).1

end Steps

end Zvault
