import Zvault.Agents.Server

/-!
# Approvals end with a lock

Every step of the agent server does to the prompts and approvals what
`Book.Moves` lists. In a run whose locks find no guarded request under way, what
is released after a lock rests on no prompt that was asked before it. A request
that is under way at a lock keeps its approval after the lock has forgotten the
others.
-/

namespace Zvault.Agents

open Concurrent

/-- The prompts and approvals of the server. -/
def World.book (w : World) : Book where
  locks := w.locks
  prompts := w.prompts
  asked := w.asked
  guarded := w.guarded
  shown := w.approvals
  channels := w.channels
  underway := w.underway
  kept n := w.registry.Keeps n ∨ w.terminals.Keeps n
  releases := w.releases

/-- Where a task stands with its prompt. -/
def Task.stage : Task → Stage
  | .waits id req _ => .waits id req.work.isGuarded
  | .closes id req _ approved => .closes id req.work.isGuarded approved
  | .touchId id req asked | .respond id req asked => .holds id req.work.isGuarded asked
  | .work id req asked _ | .record id req asked _ => .holds id req.work.isGuarded asked
  | .sendAnswer id approve => .answers id approve
  | _ => .idle

/-- When the hub is locked, no request that releases a secret or keeps an approval is under way
since it was approved. -/
def LocksBetweenRequests (w : World) (task : Task) : Prop :=
  task = .lockHub → ∀ id, w.underway id = true → w.guarded id = false

section Steps

variable {w w' : World} {ok : Bool}

theorem Task.stage_of_canStart {task : Task} (h : task.canStart = true) : task.stage = .idle := by
  cases task <;> first | rfl | cases h

theorem fetch_stage {who : Who} {refs : List SecretRef} {purpose : PurposeKind} {sid : Option ℤ} :
    (fetch who refs purpose sid).elim .idle Task.stage = .idle := by
  unfold fetch
  simp only
  split
  · rfl
  · rfl

theorem handle_stage {sid : Option ℤ} {who : Who} {body : RequestBody} :
    (handle sid who body).elim .idle Task.stage = .idle := by
  unfold handle
  split
  all_goals first
    | rfl
    | exact fetch_stage
    | (split <;> rfl)
    | (cases sid <;> rfl)

/-- What an allowed request rests on is kept. -/
theorem Registry.keeps_of_restsOn {registry : Registry} {id : String} {refs : List SecretRef}
    {now n : ℕ} (h : n ∈ registry.restsOn id refs now) : registry.Keeps n := by
  unfold restsOn at h
  split at h
  · obtain ⟨g, hg, hn⟩ := List.mem_flatMap.mp h
    exact keeps_of_live hg hn
  · cases h

/-- A task that touches no prompt and adds no approval. -/
theorem moves_of_book_eq {next : Option Task} (hbook : w'.book = w.book)
    (hnext : next.elim .idle Task.stage = .idle) :
    w.book.Moves .idle w'.book (next.elim .idle Task.stage) := by
  rw [hbook, hnext]
  exact .stays _

/-- The registry or the terminals keep nothing that was not kept. -/
theorem moves_of_kept (registry : Registry) (terminals : TerminalGrants)
    (hregistry : ∀ n, registry.Keeps n → w.registry.Keeps n)
    (hterminals : ∀ n, terminals.Keeps n → w.terminals.Keeps n) :
    w.book.Moves .idle (World.book { w with registry, terminals }) .idle :=
  .forgets _ fun n h => h.imp (hregistry n) (hterminals n)

theorem waitUnlocked_moves {again next : Task} (hagain : again.stage = .idle)
    (hnext : next.stage = .idle) :
    w.book.Moves .idle (w.waitUnlocked ok again next).1.book
      ((w.waitUnlocked ok again next).2.elim .idle Task.stage) := by
  refine moves_of_book_eq rfl ?_
  unfold World.waitUnlocked
  split
  · exact hnext
  · split
    · exact hagain
    · rfl

theorem World.book_send (id : ℕ) (approve : Bool) :
    (w.send id approve).book = w.book.send id approve := by
  unfold send Book.send
  rw [show w.book.channels id = w.channels id from rfl]
  split
  · rfl
  · rfl

/-- What a step does to the prompts and approvals, when a lock of the hub comes at a quiet time. -/
theorem Task.proceed_moves (task : Task) (hquiet : task = .lockHub → w.book.IsQuiet) :
    w.book.Moves task.stage (task.proceed w ok).1.book
      ((task.proceed w ok).2.elim .idle Task.stage) := by
  cases task with
  | handle agentId sid body =>
    cases agentId with
    | none => exact moves_of_book_eq rfl handle_stage
    | some id =>
      refine moves_of_book_eq rfl ?_
      simp only [proceed]
      split
      · cases w.registry.get id with
        | none => rfl
        | some a => exact handle_stage
      · rfl
  | exporting who sid place purpose found =>
    cases who with
    | agent a =>
      refine moves_of_book_eq rfl ?_
      simp only [proceed]
      split
      · rfl
      · exact fetch_stage
    | user =>
      refine moves_of_book_eq rfl ?_
      simp only [proceed]
      split
      · exact fetch_stage
      · split
        · rfl
        · rfl
    | ssh => exact .stays _
  | authorize req =>
    simp only [proceed]
    split
    · exact .stays _
    · exact waitUnlocked_moves rfl rfl
    · exact waitUnlocked_moves rfl rfl
  | decide req agentId unlocked =>
    simp only [proceed]
    split
    · exact .stays _
    · exact .passes _ _ _ (fun _ h => h) fun n hn => Or.inl (Registry.keeps_of_restsOn hn)
    · exact .stays _
  | skip req =>
    simp only [proceed]
    split
    · exact .stays _
    · rename_i sid hsid
      split
      · exact .stays _
      · obtain ⟨hkept, hused⟩ := w.terminals.keeps_of_useGrant sid w.now
        split
        · exact moves_of_kept _ _ (fun _ h => h) hkept
        · rename_i signIn hsignIn
          exact .passes _ _ _ (fun n h => h.imp_right (hkept n))
            fun n hn => Or.inr (hused signIn hsignIn n hn)
  | ask req withTouchId =>
    simp only [proceed]
    split
    · exact .stays _
    · exact .asks _
  | waits id req touchIdReady =>
    simp only [proceed]
    split
    · rename_i approve hsent
      exact .receives _ hsent
    · split
      · exact .stays _
      · exact .timesOut _ _
  | closes id req touchIdReady approved =>
    cases approved with
    | true => cases touchIdReady <;> exact .goesOn _ _
    | false => exact .denied _ _
  | touchId id req asked =>
    simp only [proceed]
    split
    · exact .stays _
    · exact .finishes _ _ _
  | work id req asked verified =>
    simp only [proceed]
    split
    · cases hwork : req.work with
      | signIn sid =>
        simp only [stage, Option.elim_some, hwork]
        exact .keeps _ _ _ fun n h => h.elim (fun h => Or.inl (Or.inl h)) fun h =>
          (TerminalGrants.keeps_of_grant h).imp_left Or.inr
      | copy =>
        simp only [stage, Option.elim_some, hwork]
        exact .releases _ _
      | _ => exact .stays _
    · exact .finishes _ _ _
  | record id req asked verified =>
    simp only [proceed]
    split
    · rename_i a hwho hwork
      split
      · simp only [stage, Option.elim_some, hwork]
        exact .keeps _ _ _ fun n h => h.elim
          (fun h => (Registry.keeps_of_approved h).imp_left Or.inl) fun h => Or.inl (Or.inr h)
      · exact .stays _
    · exact .stays _
  | respond id req asked =>
    simp only [proceed]
    split
    · rename_i hreveals
      simp only [stage, Work.isGuarded_of_reveals hreveals]
      exact .answers _ _
    · exact .finishes _ _ _
  | openLogin a sid =>
    simp only [proceed]
    split
    · split
      · exact .passes _ _ _ (fun _ h => h) nofun
      · exact .stays _
    · exact .stays _
  | browserFill a sid => exact moves_of_book_eq rfl (by simp only [proceed]; split <;> rfl)
  | browserSave a sid => exact moves_of_book_eq rfl (by simp only [proceed]; split <;> rfl)
  | pair kind agentId => exact waitUnlocked_moves rfl rfl
  | askPairing kind agentId =>
    simp only [proceed]
    split
    · exact .stays _
    · exact .stays _
  | waitsPairing id kind agentId =>
    simp only [proceed]
    split
    · exact .stays _
    · split
      · exact .stays _
      · exact .stays _
  | closesPairing id kind agentId answer => exact moves_of_book_eq rfl (by cases answer <;> rfl)
  | paired kind agentId answer =>
    simp only [proceed]
    split
    · exact .stays _
    · rename_i registry hpair
      exact moves_of_kept registry _ (fun _ h => Registry.keeps_of_pairKind hpair h) fun _ h => h
  | unpair agentId => exact moves_of_kept _ _ (fun _ h => Registry.keeps_of_unpair h) fun _ h => h
  | signOut sid => exact moves_of_kept _ _ (fun _ h => h) fun _ h => TerminalGrants.keeps_of_revoke h
  | agentApprovalRespond id approve =>
    simp only [proceed]
    split
    · rename_i hshown
      exact .takes approve hshown
    · exact .stays _
  | sendAnswer id approve =>
    have hmove : w.book.Moves (.answers id approve) (w.book.send id (approve && w.sessionUnlocked))
      .idle := .sends id fun h => (Bool.and_eq_true_iff.mp h).1
    rw [← World.book_send] at hmove
    exact hmove
  | agentPairingRespond id answer =>
    simp only [proceed]
    split
    · exact .stays _
    · exact .stays _
  | agentUpdate agentId paused approval scopes =>
    exact moves_of_book_eq rfl (by simp only [proceed]; split <;> rfl)
  | updates agentId paused approval scopes =>
    simp only [proceed]
    split
    · exact .stays _
    · split
      · exact .stays _
      · rename_i registry hupdate
        exact moves_of_kept registry _ (fun _ h => Registry.keeps_of_update hupdate h) fun _ h => h
  | agentUnpair agentId => exact moves_of_book_eq rfl (by simp only [proceed]; split <;> rfl)
  | lock =>
    simp only [proceed]
    split
    · exact .stays _
    · exact .stays _
  | lockHub =>
    have hmove := Book.Moves.locks (hquiet rfl)
    have hkept : w.onLock.book.kept = fun _ => False := by
      funext n
      refine eq_false fun h => h.elim Registry.not_keeps_onLock fun h => ?_
      exact w.terminals.not_keeps_clear h
    have hbook : w.onLock.book = w.book.lock := by
      rw [show w.onLock.book = { w.book.lock with kept := w.onLock.book.kept } from rfl, hkept]
      rfl
    rw [← hbook] at hmove
    exact hmove
  | _ => exact .stays _

end Steps

theorem agent_outline : Outline (agentProgram.when LocksBetweenRequests) (fun w => w.book.Sound)
    (fun w task => task.stage.Sound w.book) (fun task other => task.stage.Apart other.stage) :=
  Book.outline World.book Task.stage Task.stage_of_canStart fun {w task w' next} hact => by
    obtain ⟨hquiet, ok, hproceed⟩ := hact
    have hmoves : w.book.Moves task.stage (task.proceed w ok).1.book
      ((task.proceed w ok).2.elim .idle Task.stage) := task.proceed_moves hquiet
    rw [hproceed] at hmoves
    exact hmoves

/-- In every run whose locks find no guarded request under way, what is released rests only on
prompts that were asked since the last lock. -/
theorem approvals_end_with_lock {agents : List AgentRecord} {w : World} {tasks : List Task}
    (hrun : Run (agentProgram.when LocksBetweenRequests) ⟨.initial agents, []⟩ ⟨w, tasks⟩) :
    ∀ r ∈ w.releases, ∀ n ∈ r.asked, n = r.locks := by
  have hinitial : (World.initial agents).book.Sound := by
    refine ⟨nofun, nofun, nofun, fun n hn => ?_, nofun⟩
    rcases hn with ⟨id, grants, hgrants, -⟩ | ⟨sid, signIn, hsignIn, -⟩
    · cases hgrants
    · cases hsignIn
  exact (agent_outline.run_idle hinitial hrun).inv.releases

/-- A terminal signs in, reads a secret and is signed out by a lock. -/
theorem approvals_end_with_lock_signIn : ∃ w,
    Run (agentProgram.when LocksBetweenRequests) ⟨.initial [], []⟩ ⟨w, []⟩ ∧
      w.releases = [⟨[0], 0⟩] ∧ w.locks = 1 ∧ w.terminals.grants 7 = none ∧
      ∀ r ∈ w.releases, ∀ n ∈ r.asked, n = r.locks := by
  obtain ⟨w, hrun, hidle, hreleases, hlocks⟩ : ∃ w,
      Run (agentProgram.when LocksBetweenRequests) ⟨.initial [], []⟩ ⟨w, []⟩ ∧
        (∀ id, w.underway id = false) ∧ w.releases = [⟨[0], 0⟩] ∧ w.locks = 0 := by
    have hinitial : Run (agentProgram.when LocksBetweenRequests) ⟨.initial [], []⟩
      ⟨.initial [], []⟩ := .refl
    have hkeyring := task_proceeds true (task_starts hinitial .unlockWithPassword rfl) rfl nofun
    have hunlocked := task_proceeds true hkeyring rfl nofun
    have hhandled := task_proceeds true (task_starts hunlocked (.handle none (some 7) .signIn) rfl)
      rfl nofun
    have hauthorized := task_proceeds true hhandled rfl nofun
    have hskipped := task_proceeds true hauthorized rfl nofun
    have hasked := task_proceeds false hskipped rfl nofun
    have htaken := task_proceeds true (task_starts hasked (.agentApprovalRespond 0 true) rfl) rfl
      nofun
    have hsent := task_proceeds true htaken rfl nofun
    have hreceived := task_proceeds true hsent rfl nofun
    have hclosed := task_proceeds true hreceived rfl nofun
    have hgranted := task_proceeds true hclosed rfl nofun
    have hrecorded := task_proceeds true hgranted rfl nofun
    have hsignedIn := task_proceeds true hrecorded rfl nofun
    have hread := task_proceeds true (task_starts hsignedIn (.handle none (some 7)
      (.fetch [⟨"web", "dev", none, "KEY"⟩] .read)) rfl) rfl nofun
    have hwaited := task_proceeds true hread rfl nofun
    have hpassed := task_proceeds true hwaited rfl nofun
    have hdecrypted := task_proceeds true hpassed rfl nofun
    have hlogged := task_proceeds true hdecrypted rfl nofun
    have hresponded := task_proceeds true hlogged rfl nofun
    refine ⟨_, hresponded, fun id => ?_, rfl, rfl⟩
    match id with
    | 0 => rfl
    | 1 => rfl
    | _ + 2 => rfl
  have hlocking := task_proceeds true (task_starts hrun .lock rfl) rfl nofun
  have hlockKeyring := task_proceeds true hlocking rfl nofun
  have hlocked := task_proceeds true hlockKeyring rfl fun _ id hid =>
    absurd hid (by simp [hidle id])
  exact ⟨_, hlocked, hreleases, congrArg Nat.succ hlocks, rfl, approvals_end_with_lock hlocked⟩

/-- Zvault is locked between the answer to a sign-in and its recording: after an unlock the terminal
reads a secret without a prompt. The same with the approval of an agent, which has also read the
secret it was approved for. -/
theorem approvals_outlive_lock :
    (∃ w, Run agentProgram ⟨.initial [], []⟩ ⟨w, []⟩ ∧ w.releases = [⟨[0], 1⟩]) ∧
      ∃ w, Run agentProgram ⟨.initial [⟨"agt_1", .agent, false, .session15m, [.under ["web"]]⟩], []⟩
        ⟨w, []⟩ ∧ w.releases = [⟨[0], 1⟩, ⟨[0], 1⟩] := by
  have hinitial (agents : List AgentRecord) :
      Run (agentProgram.when fun _ _ => True) ⟨.initial agents, []⟩ ⟨.initial agents, []⟩ := .refl
  refine ⟨?_, ?_⟩
  · have hkeyring := task_proceeds true (task_starts (hinitial []) .unlockWithPassword rfl) rfl
      trivial
    have hunlocked := task_proceeds true hkeyring rfl trivial
    have hhandled := task_proceeds true (task_starts hunlocked (.handle none (some 7) .signIn) rfl)
      rfl trivial
    have hauthorized := task_proceeds true hhandled rfl trivial
    have hskipped := task_proceeds true hauthorized rfl trivial
    have hasked := task_proceeds false hskipped rfl trivial
    have htaken := task_proceeds true (task_starts hasked (.agentApprovalRespond 0 true) rfl) rfl
      trivial
    have hsent := task_proceeds true htaken rfl trivial
    have hreceived := task_proceeds true hsent rfl trivial
    have hclosed := task_proceeds true hreceived rfl trivial
    -- the lock clears the sign-ins before this one is there
    have hlocking := task_proceeds true (task_starts hclosed .lock rfl) rfl trivial
    have hlockKeyring := task_proceeds true hlocking rfl trivial
    have hlocked := task_proceeds true hlockKeyring rfl trivial
    have hgranted := task_proceeds true hlocked rfl trivial
    have hrecorded := task_proceeds true hgranted rfl trivial
    have hsignedIn := task_proceeds true hrecorded rfl trivial
    have hkeyring' := task_proceeds true (task_starts hsignedIn .unlockWithPassword rfl) rfl trivial
    have hunlocked' := task_proceeds true hkeyring' rfl trivial
    have hread := task_proceeds true (task_starts hunlocked' (.handle none (some 7)
      (.fetch [⟨"web", "dev", none, "KEY"⟩] .read)) rfl) rfl trivial
    have hwaited := task_proceeds true hread rfl trivial
    have hpassed := task_proceeds true hwaited rfl trivial
    have hdecrypted := task_proceeds true hpassed rfl trivial
    have hlogged := task_proceeds true hdecrypted rfl trivial
    have hresponded := task_proceeds true hlogged rfl trivial
    exact ⟨_, .of_when hresponded, rfl⟩
  · have hpaired := hinitial [⟨"agt_1", .agent, false, .session15m, [.under ["web"]]⟩]
    have hkeyring := task_proceeds true (task_starts hpaired .unlockWithPassword rfl) rfl trivial
    have hunlocked := task_proceeds true hkeyring rfl trivial
    have hfetch := task_proceeds true (task_starts hunlocked (.handle (some "agt_1") none
      (.fetch [⟨"web", "dev", none, "KEY"⟩] .read)) rfl) rfl trivial
    have hauthorized := task_proceeds true hfetch rfl trivial
    have hdecided := task_proceeds true hauthorized rfl trivial
    have hasked := task_proceeds false hdecided rfl trivial
    have htaken := task_proceeds true (task_starts hasked (.agentApprovalRespond 0 true) rfl) rfl
      trivial
    have hsent := task_proceeds true htaken rfl trivial
    have hreceived := task_proceeds true hsent rfl trivial
    have hclosed := task_proceeds true hreceived rfl trivial
    have hdecrypted := task_proceeds true hclosed rfl trivial
    -- the lock clears the approvals before this one is there
    have hlocking := task_proceeds true (task_starts hdecrypted .lock rfl) rfl trivial
    have hlockKeyring := task_proceeds true hlocking rfl trivial
    have hlocked := task_proceeds true hlockKeyring rfl trivial
    have hrecorded := task_proceeds true hlocked rfl trivial
    have hresponded := task_proceeds true hrecorded rfl trivial
    have hkeyring' := task_proceeds true (task_starts hresponded .unlockWithPassword rfl) rfl trivial
    have hunlocked' := task_proceeds true hkeyring' rfl trivial
    have hfetch' := task_proceeds true (task_starts hunlocked' (.handle (some "agt_1") none
      (.fetch [⟨"web", "dev", none, "KEY"⟩] .read)) rfl) rfl trivial
    have hauthorized' := task_proceeds true hfetch' rfl trivial
    have hallowed := task_proceeds true hauthorized' rfl trivial
    have hdecrypted' := task_proceeds true hallowed rfl trivial
    have hlogged := task_proceeds true hdecrypted' rfl trivial
    have hresponded' := task_proceeds true hlogged rfl trivial
    exact ⟨_, .of_when hresponded', rfl⟩

end Zvault.Agents
