import Mathlib.Logic.Basic
import Zvault.Agents.Settings

/-!
# Settings that do not change under a request

A request relies on the settings it was decided under. They stay as they are
until it ends when the user changes them only between requests, and then what is
decrypted and what is recorded obeys them.
-/

namespace Zvault.Agents

open Concurrent Relation
open Function (update)

section Own

variable {w : World} {ok : Bool} {next : Task}

/-- A task that works on a request passes it on. -/
theorem Task.request_of_proceed {task : Task} {req : Request} (h : task.request = some req)
    (hnext : (task.proceed w ok).2 = some next) : next.request = some req := by
  cases task with
  | ask r =>
    obtain rfl := Option.some_inj.mp h
    simp only [proceed] at hnext
    split at hnext
    · cases hnext
    · obtain rfl := Option.some_inj.mp hnext
      rfl
  | waits id r =>
    obtain rfl := Option.some_inj.mp h
    simp only [proceed] at hnext
    split at hnext
    · obtain rfl := Option.some_inj.mp hnext
      rfl
    · split at hnext <;> obtain rfl := Option.some_inj.mp hnext <;> rfl
  | closes id r =>
    obtain rfl := Option.some_inj.mp h
    simp only [proceed] at hnext
    split at hnext
    · split at hnext <;> obtain rfl := Option.some_inj.mp hnext <;> rfl
    · cases hnext
  | touchId id r =>
    obtain rfl := Option.some_inj.mp h
    simp only [proceed] at hnext
    split at hnext
    · obtain rfl := Option.some_inj.mp hnext
      rfl
    · cases hnext
  | work id r =>
    obtain rfl := Option.some_inj.mp h
    simp only [proceed] at hnext
    split at hnext
    · obtain rfl := Option.some_inj.mp hnext
      rfl
    · cases hnext
  | record id r =>
    obtain rfl := Option.some_inj.mp h
    obtain rfl := Option.some_inj.mp hnext
    rfl
  | respond => cases hnext
  | _ => cases h

/-- A task that relies on nothing yet. -/
def Task.IsFresh (task : Task) : Prop :=
  task.subject = none ∧ ∀ registry, task.Obeys registry

theorem Task.isFresh_of_obeys {task : Task} (hsubject : task.subject = none)
    (hobeys : ∀ registry, task.Obeys registry ↔
      ∀ fetched ∈ (none : Option (String × List SecretRef)), registry.Admits fetched.1 fetched.2) :
    task.IsFresh :=
  ⟨hsubject, fun registry => (hobeys registry).mpr nofun⟩

/-- A request that fetches nothing for an agent relies on no settings. -/
theorem Task.isFresh_of_request {task : Task} {req : Request} (h : task.request = some req)
    (hnone : req.fetches = none) : task.IsFresh := by
  refine ⟨by rw [subject_of_request h, hnone]; rfl, fun registry => (obeys_of_request h).mpr ?_⟩
  rw [hnone]
  exact nofun

theorem Request.who_of_fetches {req : Request} {fetched : String × List SecretRef}
    (h : fetched ∈ req.fetches) :
    ∃ a, req.who = .agent a ∧ fetched.1 = a.id ∧ fetched.2 = req.refs := by
  unfold fetches at h
  split at h
  · rename_i a hagent _
    obtain rfl := Option.some_inj.mp h
    exact ⟨a, hagent, rfl, rfl⟩
  · cases h

theorem Request.fetches_of_who {req : Request} (h : ∀ a, req.who ≠ .agent a) :
    req.fetches = none :=
  Option.eq_none_iff_forall_not_mem.mpr fun _ hfetched =>
    let ⟨a, ha, _⟩ := who_of_fetches hfetched
    h a ha

theorem isFresh_of_fetch {who : Who} {refs : List SecretRef} {purpose : PurposeKind}
    {sid : Option ℤ} (h : fetch who refs purpose sid = some next) : next.IsFresh := by
  simp only [fetch] at h
  split at h
  · cases h
  · obtain rfl := Option.some_inj.mp h
    exact Task.isFresh_of_obeys rfl fun _ => Iff.rfl

/-- What arrives on the socket is decided later, except for a fill. -/
theorem isFresh_of_handle {who : Who} {sid : Option ℤ} {body : RequestBody}
    (h : handle sid who body = some next) :
    next.IsFresh ∨ ∃ a, who = .agent a ∧ next = .browserFill a sid := by
  have hfresh : ∀ task : Task, task.IsFresh → task = next →
      next.IsFresh ∨ ∃ a, who = .agent a ∧ next = .browserFill a sid := by
    rintro task hfresh rfl
    exact Or.inl hfresh
  cases who with
  | ssh => cases h
  | agent a =>
    cases body with
    | fetch => exact Or.inl (isFresh_of_fetch h)
    | exporting => exact hfresh _ (Task.isFresh_of_obeys rfl fun _ => Iff.rfl) (Option.some_inj.mp h)
    | unpair => exact hfresh _ (Task.isFresh_of_obeys rfl fun _ => Iff.rfl) (Option.some_inj.mp h)
    | browserFill =>
      simp only [handle] at h
      split at h
      · exact Or.inr ⟨a, rfl, (Option.some_inj.mp h).symm⟩
      · cases h
    | browserSave =>
      simp only [handle] at h
      split at h
      · exact hfresh _ (Task.isFresh_of_obeys rfl fun _ => Iff.rfl) (Option.some_inj.mp h)
      · cases h
    | _ => cases h
  | user =>
    cases body with
    | fetch => exact Or.inl (isFresh_of_fetch h)
    | signIn | signOut =>
      obtain ⟨s, -, hs⟩ := Option.map_eq_some_iff.mp h
      exact hfresh _ (Task.isFresh_of_obeys rfl fun _ => Iff.rfl) hs
    | unpair | browserFill | browserSave => cases h
    | _ => exact hfresh _ (Task.isFresh_of_obeys rfl fun _ => Iff.rfl) (Option.some_inj.mp h)

/-- A step leads to what the next one relies on, of an agent that is decided by the step or that
the task relied on. -/
theorem Task.obeys_own_step {task : Task} (hobeys : task.Obeys w.registry)
    (hnext : (task.proceed w ok).2 = some next) :
    next.Obeys w.registry ∧ ∀ id ∈ next.subject,
      task.decides next = some id ∨ (task.decides next = none ∧ task.subject = some id) := by
  cases hreq : task.request with
  | some req =>
    have hreq' := request_of_proceed hreq hnext
    refine ⟨(obeys_of_request hreq').mpr ((obeys_of_request hreq).mp hobeys), fun id hid => ?_⟩
    rw [subject_of_request hreq', ← subject_of_request hreq] at hid
    refine Or.inr ⟨?_, hid⟩
    cases task <;> first | rfl | cases hreq
  | none =>
    have hfresh : next.IsFresh → next.Obeys w.registry ∧ ∀ id ∈ next.subject,
        task.decides next = some id ∨ (task.decides next = none ∧ task.subject = some id) := by
      rintro ⟨hsubject, hobeys⟩
      exact ⟨hobeys _, by simp [hsubject]⟩
    cases task with
    | handle agentId sid body =>
      cases agentId with
      | none =>
        refine hfresh ((isFresh_of_handle hnext).resolve_right ?_)
        rintro ⟨a, ha, -⟩
        cases ha
      | some id =>
        simp only [proceed] at hnext
        split at hnext
        · obtain ⟨a, hget, hhandle⟩ := Option.bind_eq_some_iff.mp hnext
          rcases isFresh_of_handle hhandle with hnext | ⟨b, hb, rfl⟩
          · exact hfresh hnext
          · obtain rfl := Who.agent.inj hb
            have hid : a.id = id := by simpa using List.find?_some hget
            subst hid
            exact ⟨hget, fun i hi => Or.inl hi⟩
        · cases hnext
    | exporting who =>
      refine hfresh ?_
      cases who with
      | agent a =>
        simp only [proceed] at hnext
        split at hnext
        · cases hnext
        · exact isFresh_of_fetch hnext
      | user =>
        simp only [proceed] at hnext
        split at hnext
        · exact isFresh_of_fetch hnext
        · split at hnext
          · obtain rfl := Option.some_inj.mp hnext
            exact isFresh_of_obeys rfl fun _ => Iff.rfl
          · cases hnext
      | ssh => cases hnext
    | authorize req =>
      simp only [proceed] at hnext
      split at hnext
      · rename_i a hagent
        obtain rfl := Option.some_inj.mp hnext
        refine ⟨fun fetched hfetched => ?_, by rintro _ ⟨⟩⟩
        obtain ⟨b, hb, hid, -⟩ := Request.who_of_fetches hfetched
        obtain rfl := Who.agent.inj (hagent.symm.trans hb)
        exact hid
      · rename_i huser
        have hnone : req.fetches = none := Request.fetches_of_who (by simp [huser])
        simp only [World.waitUnlocked] at hnext
        split at hnext
        · obtain rfl := Option.some_inj.mp hnext
          exact ⟨hnone, by rintro _ ⟨⟩⟩
        · split at hnext
          · obtain rfl := Option.some_inj.mp hnext
            exact hfresh (isFresh_of_obeys rfl fun _ => Iff.rfl)
          · cases hnext
      · rename_i hssh
        have hnone : req.fetches = none := Request.fetches_of_who (by simp [hssh])
        simp only [World.waitUnlocked] at hnext
        split at hnext
        · obtain rfl := Option.some_inj.mp hnext
          exact hfresh (isFresh_of_request rfl hnone)
        · split at hnext
          · obtain rfl := Option.some_inj.mp hnext
            exact hfresh (isFresh_of_obeys rfl fun _ => Iff.rfl)
          · cases hnext
    | decide req id unlocked =>
      have hpassed : next.request = some req ∧
          ∀ code, w.registry.decide id req.refs unlocked w.now ≠ .deny code := by
        simp only [proceed] at hnext
        split at hnext
        · cases hnext
        all_goals
          rename_i hdecide
          obtain rfl := Option.some_inj.mp hnext
          exact ⟨rfl, fun code => by simp [hdecide]⟩
      obtain ⟨hreq', hpassed⟩ := hpassed
      refine ⟨(obeys_of_request hreq').mpr fun fetched hfetched => ?_, fun i hi => Or.inl ?_⟩
      · obtain ⟨a, -, -, hrefs⟩ := Request.who_of_fetches hfetched
        rw [hobeys fetched hfetched, hrefs]
        exact Registry.admits_of_decide hpassed
      · rw [subject_of_request hreq'] at hi
        obtain ⟨fetched, hfetched, rfl⟩ := Option.map_eq_some_iff.mp hi
        exact congrArg some (hobeys fetched hfetched).symm
    | skip req =>
      have hreq' : next.request = some req := by
        simp only [proceed] at hnext
        split at hnext
        · obtain rfl := Option.some_inj.mp hnext
          rfl
        · split at hnext
          · obtain rfl := Option.some_inj.mp hnext
            rfl
          · split at hnext <;> obtain rfl := Option.some_inj.mp hnext <;> rfl
      exact hfresh (isFresh_of_request hreq' hobeys)
    | browserFill a =>
      simp only [proceed] at hnext
      split at hnext
      · cases hnext
      · rename_i hopen
        obtain rfl := Option.some_inj.mp hnext
        refine ⟨⟨hobeys, ?_⟩, fun i hi => Or.inr ⟨rfl, hi⟩⟩
        simp only [Bool.or_eq_true, not_or] at hopen
        simpa using hopen.1
    | openLogin a =>
      simp only [proceed] at hnext
      split at hnext
      · split at hnext
        · obtain rfl := Option.some_inj.mp hnext
          exact hfresh (isFresh_of_obeys rfl fun _ => Iff.rfl)
        · obtain rfl := Option.some_inj.mp hnext
          exact hfresh (isFresh_of_obeys rfl fun _ => Iff.rfl)
      · cases hnext
    | approveSshSign =>
      obtain rfl := Option.some_inj.mp hnext
      exact hfresh (isFresh_of_obeys rfl fun _ => Iff.rfl)
    | browserSave a sid =>
      simp only [proceed] at hnext
      split at hnext
      · cases hnext
      · obtain rfl := Option.some_inj.mp hnext
        exact hfresh (isFresh_of_request rfl rfl)
    | pair =>
      simp only [proceed, World.waitUnlocked] at hnext
      split at hnext
      · obtain rfl := Option.some_inj.mp hnext
        exact hfresh (isFresh_of_obeys rfl fun _ => Iff.rfl)
      · split at hnext
        · obtain rfl := Option.some_inj.mp hnext
          exact hfresh (isFresh_of_obeys rfl fun _ => Iff.rfl)
        · cases hnext
    | askPairing | agentApprovalRespond | agentPairingRespond | agentUpdate | agentUnpair | lock =>
      simp only [proceed] at hnext
      split at hnext
      all_goals first
        | (obtain rfl := Option.some_inj.mp hnext
           exact hfresh (isFresh_of_obeys rfl fun _ => Iff.rfl))
        | cases hnext
    | waitsPairing =>
      simp only [proceed] at hnext
      split at hnext
      · obtain rfl := Option.some_inj.mp hnext
        exact hfresh (isFresh_of_obeys rfl fun _ => Iff.rfl)
      · split at hnext <;> obtain rfl := Option.some_inj.mp hnext <;>
          exact hfresh (isFresh_of_obeys rfl fun _ => Iff.rfl)
    | closesPairing =>
      obtain ⟨answer, -, rfl⟩ := Option.map_eq_some_iff.mp hnext
      exact hfresh (isFresh_of_obeys rfl fun _ => Iff.rfl)
    | lockKeyring | unlockWithPassword | quickUnlock =>
      obtain rfl := Option.some_inj.mp hnext
      exact hfresh (isFresh_of_obeys rfl fun _ => Iff.rfl)
    | paired =>
      simp only [proceed] at hnext
      split at hnext <;> cases hnext
    | updates =>
      simp only [proceed] at hnext
      split at hnext
      · cases hnext
      · split at hnext <;> cases hnext
    | sendAnswer | unpair | signOut | sendPairing | lockHub | unlockSession | unlockKeyring
      | pass => cases hnext
    | ask | waits | closes | touchId | work | record | respond => cases hreq

end Own

section Stable

variable {w : World} {ok : Bool} {registry registry' : Registry}

/-- What a task relies on stays so while its agent's settings stay as they are. -/
theorem Task.Obeys.mono {task : Task} (hobeys : task.Obeys registry)
    (hget : ∀ id ∈ task.subject, ∀ a, registry.get id = some a → registry'.get id = some a) :
    task.Obeys registry' := by
  have hadmits : ∀ fetched : String × List SecretRef, fetched.1 ∈ task.subject →
      registry.Admits fetched.1 fetched.2 → registry'.Admits fetched.1 fetched.2 := by
    rintro fetched hsubject ⟨a, ha, hrest⟩
    exact ⟨a, hget _ hsubject a ha, hrest⟩
  cases hreq : task.request with
  | some req =>
    refine (obeys_of_request hreq).mpr fun fetched hfetched => hadmits fetched ?_
      ((obeys_of_request hreq).mp hobeys fetched hfetched)
    rw [subject_of_request hreq, Option.mem_def.mp hfetched]
    rfl
  | none =>
    cases task with
    | browserFill a => exact hget a.id rfl a hobeys
    | openLogin a => exact ⟨hget a.id rfl a hobeys.1, hobeys.2⟩
    | decide | skip => exact hobeys
    | ask | waits | closes | touchId | work | record | respond => cases hreq
    | _ => exact nofun

/-- A step that changes an agent's settings is the last of its task. -/
theorem Task.changes_eq_none {task next : Task} (hnext : (task.proceed w ok).2 = some next) :
    task.changes w = none := by
  cases task with
  | unpair => cases hnext
  | updates =>
    simp only [proceed] at hnext
    split at hnext
    · cases hnext
    · split at hnext <;> cases hnext
  | _ => rfl

end Stable

/-- What has been decrypted and recorded obeyed the settings in force. -/
structure Watched.Sound (s : Watched) : Prop where
  admitted : ∀ d ∈ s.decryptions, d.IsAdmitted
  current : ∀ r ∈ s.recordings, r.decided = r.recorded

/-- A waiting task works for a request that is under way, and the agent's settings have not changed
since it was decided. -/
structure WatchedTask.Waits (s : Watched) (t : WatchedTask) : Prop where
  obeys : t.task.Obeys s.world.registry
  lt : ∀ n ∈ t.number, n < s.requests
  underway : ∀ id ∈ t.task.subject,
    ∃ n ∈ t.number, s.underway n = some id ∧ s.decided n = s.changes id

/-- Two tasks do not work for one request. -/
def WatchedTask.Apart (t u : WatchedTask) : Prop := ∀ n ∈ t.number, n ∉ u.number

section Watch

variable {s s' : Watched} {t u : WatchedTask} {next : Option WatchedTask} {ok : Bool}

/-- A step ends the request, goes on with it, or decides one. -/
theorem WatchedTask.proceed_cases (h : t.proceed s ok = (s', next)) :
    (next = none ∧ s' = (s.observe t (t.task.proceed s.world ok).1 false).finish t.number) ∨
    ∃ task, (t.task.proceed s.world ok).2 = some task ∧
      ((t.task.decides task = none ∧ next = some ⟨task, t.number⟩ ∧
        s' = s.observe t (t.task.proceed s.world ok).1 true) ∨
      ∃ id, t.task.decides task = some id ∧ next = some ⟨task, some s.requests⟩ ∧
        s' = (s.observe t (t.task.proceed s.world ok).1 true).begin id) := by
  unfold proceed at h
  split at h
  · rename_i world hproceed
    obtain ⟨rfl, rfl⟩ := Prod.mk.inj h
    exact Or.inl ⟨rfl, by rw [hproceed]⟩
  · rename_i world task hproceed
    refine Or.inr ⟨task, by rw [hproceed], ?_⟩
    rw [hproceed]
    split at h
    · rename_i hdecides
      obtain ⟨rfl, rfl⟩ := Prod.mk.inj h
      exact Or.inl ⟨hdecides, rfl, rfl⟩
    · rename_i id hdecides
      obtain ⟨rfl, rfl⟩ := Prod.mk.inj h
      exact Or.inr ⟨id, hdecides, rfl, rfl⟩

/-- What a step leaves, whatever becomes of the request. -/
theorem WatchedTask.proceed_observes (h : t.proceed s ok = (s', next)) :
    s'.world = (t.task.proceed s.world ok).1 ∧ ∃ goesOn,
      s'.changes = (s.observe t s'.world goesOn).changes ∧
      s'.decryptions = (s.observe t s'.world goesOn).decryptions ∧
      s'.recordings = (s.observe t s'.world goesOn).recordings := by
  rcases proceed_cases h with ⟨-, rfl⟩ | ⟨task, -, ⟨-, -, rfl⟩ | ⟨id, -, -, rfl⟩⟩
  · exact ⟨rfl, false, rfl, rfl, rfl⟩
  · exact ⟨rfl, true, rfl, rfl, rfl⟩
  · exact ⟨rfl, true, rfl, rfl, rfl⟩

theorem Watched.changes_of_ne {id : String} (h : t.proceed s ok = (s', next))
    (hchanges : t.task.changes s.world ≠ some id) : s'.changes id = s.changes id := by
  obtain ⟨-, goesOn, hs', -⟩ := WatchedTask.proceed_observes h
  rw [hs']
  exact if_neg hchanges

/-- What is decrypted for a request is admitted by what it relies on. -/
theorem Task.isAdmitted_of_decrypts {w : World} {task : Task} {d : Decryption}
    (hobeys : task.Obeys w.registry) (h : task.decrypts w = some d) : d.IsAdmitted := by
  unfold decrypts at h
  split at h
  · split at h
    · rename_i id req asked verified _ _ a hagent hwork
      obtain rfl := Option.some_inj.mp h
      exact (obeys_of_request rfl).mp hobeys (a.id, req.refs) (by simp [Request.fetches, hagent, hwork])
    · cases h
  · rename_i a sid
    obtain rfl := Option.some_inj.mp h
    exact ⟨a, hobeys.1, hobeys.2, nofun⟩
  · cases h

/-- An approval is recorded for the agent that the task relies on. -/
theorem Task.subject_of_records {w : World} {task : Task} {id : String}
    (h : task.records w = some id) : task.subject = some id := by
  unfold records at h
  split at h
  · split at h
    · rename_i req _ _ a hagent hwork
      split at h
      · obtain rfl := Option.some_inj.mp h
        rw [subject_of_request rfl]
        simp [Request.fetches, hagent, hwork]
      · cases h
    · cases h
  · cases h

theorem WatchedTask.keeps_sound (hsound : s.Sound) (hwaits : t.Waits s)
    (h : t.proceed s ok = (s', next)) : s'.Sound := by
  obtain ⟨-, goesOn, -, hdecryptions, hrecordings⟩ := proceed_observes h
  constructor
  · intro d hd
    rw [hdecryptions] at hd
    rcases List.mem_append.mp hd with hd | hd
    · rw [Option.mem_toList] at hd
      split at hd
      · exact Task.isAdmitted_of_decrypts hwaits.obeys hd
      · cases hd
    · exact hsound.admitted d hd
  · intro r hr
    rw [hrecordings] at hr
    rcases List.mem_append.mp hr with hr | hr
    · obtain ⟨id, hid, rfl⟩ := Option.map_eq_some_iff.mp (Option.mem_toList.mp hr)
      obtain ⟨n, hn, -, hdecided⟩ := hwaits.underway id (Task.subject_of_records hid)
      rw [Option.mem_def.mp hn]
      exact hdecided
    · exact hsound.current r hr

theorem WatchedTask.leads_waits {n : WatchedTask} (hwaits : t.Waits s)
    (h : t.proceed s ok = (s', some n)) : n.Waits s' := by
  have hworld := (proceed_observes h).1
  rcases proceed_cases h with ⟨hnone, -⟩ | ⟨task, htask, hcases⟩
  · cases hnone
  · have hchanges : ∀ id, t.task.changes s.world ≠ some id := by
      simp [Task.changes_eq_none htask]
    obtain ⟨hobeys, hsubject⟩ := Task.obeys_own_step hwaits.obeys htask
    have hobeys' : task.Obeys s'.world.registry := by
      rw [hworld]
      exact hobeys.mono fun id _ a ha => Task.proceed_get t.task ha (hchanges id)
    rcases hcases with ⟨hdecides, hn, rfl⟩ | ⟨id, hdecides, hn, rfl⟩
    · obtain rfl := Option.some_inj.mp hn
      refine ⟨hobeys', hwaits.lt, fun i hi => ?_⟩
      have hi' : t.task.subject = some i := by simpa [hdecides] using hsubject i hi
      obtain ⟨m, hm, hunderway, hdecided⟩ := hwaits.underway i hi'
      refine ⟨m, hm, hunderway, hdecided.trans (Watched.changes_of_ne h (hchanges i)).symm⟩
    · obtain rfl := Option.some_inj.mp hn
      refine ⟨hobeys', fun m hm => ?_, fun i hi => ⟨s.requests, rfl, ?_, ?_⟩⟩
      · obtain rfl := Option.some_inj.mp hm
        exact Nat.lt_succ_self _
      · have hi' : id = i := by simpa [hdecides] using hsubject i hi
        subst hi'
        exact Function.update_self ..
      · have hi' : id = i := by simpa [hdecides] using hsubject i hi
        subst hi'
        exact Function.update_self ..

/-- What a step of another task leaves of a request. -/
theorem WatchedTask.underway_of_apart {n : ℕ} (hlt : n < s.requests) (hn : n ∉ t.number)
    (h : t.proceed s ok = (s', next)) :
    n < s'.requests ∧ s'.underway n = s.underway n ∧ s'.decided n = s.decided n := by
  rcases proceed_cases h with ⟨-, rfl⟩ | ⟨task, -, ⟨-, -, rfl⟩ | ⟨id, -, -, rfl⟩⟩
  · refine ⟨hlt, ?_, rfl⟩
    cases hnumber : t.number with
    | none => rfl
    | some m => exact Function.update_of_ne (fun heq => hn (hnumber.trans (congrArg some heq.symm))) ..
  · exact ⟨hlt, rfl, rfl⟩
  · exact ⟨Nat.lt_succ_of_lt hlt, Function.update_of_ne hlt.ne .., Function.update_of_ne hlt.ne ..⟩

theorem WatchedTask.free_waits (hcondition : ChangesBetweenRequests s t)
    (hu : u.Waits s) (hapart : t.Apart u) (h : t.proceed s ok = (s', next)) : u.Waits s' := by
  have hchanges : ∀ id ∈ u.task.subject, t.task.changes s.world ≠ some id := by
    intro id hid heq
    obtain ⟨n, -, hunderway, -⟩ := hu.underway id hid
    exact hcondition id heq n hunderway
  have hother : ∀ n ∈ u.number,
      n < s'.requests ∧ s'.underway n = s.underway n ∧ s'.decided n = s.decided n :=
    fun n hn => underway_of_apart (hu.lt n hn) (fun ht => hapart n ht hn) h
  refine ⟨?_, fun n hn => (hother n hn).1, fun id hid => ?_⟩
  · rw [(proceed_observes h).1]
    exact hu.obeys.mono fun id hid a ha => Task.proceed_get t.task ha (hchanges id hid)
  · obtain ⟨n, hn, hunderway, hdecided⟩ := hu.underway id hid
    obtain ⟨-, hunderway', hdecided'⟩ := hother n hn
    refine ⟨n, hn, hunderway'.trans hunderway, ?_⟩
    rw [hdecided', hdecided, Watched.changes_of_ne h (hchanges id hid)]

theorem WatchedTask.waits_of_start (hstart : watchedProgram.start s t) : t.Waits s := by
  obtain ⟨task, number⟩ := t
  obtain ⟨hcan, rfl⟩ : task.canStart = true ∧ number = none := hstart
  have hfresh : task.IsFresh := by
    cases task <;> first
      | exact Task.isFresh_of_obeys rfl fun _ => Iff.rfl
      | cases hcan
  exact ⟨hfresh.2 _, nofun, by simp [hfresh.1]⟩

theorem WatchedTask.leads_apart {n : WatchedTask} (hu : u.Waits s) (hapart : t.Apart u)
    (h : t.proceed s ok = (s', some n)) : n.Apart u := by
  rcases proceed_cases h with ⟨hnone, -⟩ | ⟨task, -, ⟨-, hn, -⟩ | ⟨id, -, hn, -⟩⟩
  · cases hnone
  · obtain rfl := Option.some_inj.mp hn
    exact hapart
  · obtain rfl := Option.some_inj.mp hn
    intro m hm hum
    obtain rfl := Option.some_inj.mp hm
    exact (hu.lt _ hum).false

theorem settingsOutline :
    Outline (watchedProgram.when ChangesBetweenRequests) Watched.Sound
      (fun s t => t.Waits s) WatchedTask.Apart where
  start _ hstart := WatchedTask.waits_of_start hstart
  starts_apart := by
    rintro s t u - ⟨-, hnumber⟩ - n hn
    rw [hnumber] at hn
    cases hn
  keeps := by
    rintro s t s' next hsound hwaits ⟨-, ok, h⟩
    exact WatchedTask.keeps_sound hsound hwaits h
  leads := by
    rintro s t s' next - hwaits ⟨-, ok, h⟩
    exact WatchedTask.leads_waits hwaits h
  leads_apart := by
    rintro s t s' next u - - hu hapart ⟨-, ok, h⟩
    exact WatchedTask.leads_apart hu hapart h
  free := by
    rintro s t s' next u - - hu hapart ⟨hcondition, ok, h⟩
    exact WatchedTask.free_waits hcondition hu hapart h
  symm h n hu ht := h n ht hu

end Watch

section Runs

variable {condition : Watched → WatchedTask → Prop} {s : Concurrent.System Watched WatchedTask}
  {w w' : Watched} {rest : List WatchedTask}

theorem watched_starts (h : Run (watchedProgram.when condition) s ⟨w, rest⟩) (task : Task)
    (hstart : task.canStart = true) :
    Run (watchedProgram.when condition) s ⟨w, ⟨task, none⟩ :: rest⟩ :=
  h.tail (.start ⟨hstart, rfl⟩)

theorem watched_proceeds {t : WatchedTask} {next : Option WatchedTask} (ok : Bool)
    (h : Run (watchedProgram.when condition) s ⟨w, t :: rest⟩)
    (hproceed : t.proceed w ok = (w', next)) (hcondition : condition w t) :
    Run (watchedProgram.when condition) s ⟨w', next.toList ++ rest⟩ := by
  have hact : (watchedProgram.when condition).act w t w' next := ⟨hcondition, ok, hproceed⟩
  exact h.proceeds hact

theorem changesBetweenRequests_of_idle {t : WatchedTask} (h : ∀ n, w.underway n = none) :
    ChangesBetweenRequests w t :=
  fun _ _ n => by simp [h n]

end Runs

/-- In every run whose updates and unpairings find no request of the agent under way, what is
decrypted for an agent is within its settings at that time, and no approval is recorded after the
settings it was asked under have changed. -/
theorem release_obeys_settings {agents : List AgentRecord} {w : Watched} {tasks : List WatchedTask}
    (hrun : Run (watchedProgram.when ChangesBetweenRequests) ⟨.initial agents, []⟩ ⟨w, tasks⟩) :
    (∀ d ∈ w.decryptions, d.IsAdmitted) ∧ ∀ r ∈ w.recordings, r.decided = r.recorded := by
  have hinitial : (Watched.initial agents).Sound := ⟨nofun, nofun⟩
  have hsound := (settingsOutline.run_idle hinitial hrun).inv
  exact ⟨hsound.admitted, hsound.current⟩

/-- An agent is asked about, reads a secret, and is paused. -/
theorem release_obeys_settings_asked : ∃ w,
    Run (watchedProgram.when ChangesBetweenRequests)
      ⟨.initial [⟨"agt_1", .agent, false, .session15m, [.under ["web"]]⟩], []⟩ ⟨w, []⟩ ∧
      w.decryptions.length = 1 ∧ w.recordings = [⟨"agt_1", 0, 0⟩] ∧
      (w.world.registry.get "agt_1").any (·.paused) = true ∧
      (∀ d ∈ w.decryptions, d.IsAdmitted) ∧ ∀ r ∈ w.recordings, r.decided = r.recorded := by
  have hinitial : Run (watchedProgram.when ChangesBetweenRequests)
    ⟨.initial [⟨"agt_1", .agent, false, .session15m, [.under ["web"]]⟩], []⟩
    ⟨.initial [⟨"agt_1", .agent, false, .session15m, [.under ["web"]]⟩], []⟩ := .refl
  have hkeyring := watched_proceeds true (watched_starts hinitial .unlockWithPassword rfl) rfl nofun
  have hunlocked := watched_proceeds true hkeyring rfl nofun
  have hfetch := watched_proceeds true (watched_starts hunlocked (.handle (some "agt_1") none
    (.fetch [⟨"web", "dev", none, "KEY"⟩] .read)) rfl) rfl nofun
  have hauthorized := watched_proceeds true hfetch rfl nofun
  have hdecided := watched_proceeds true hauthorized rfl nofun
  have hasked := watched_proceeds false hdecided rfl nofun
  have htaken := watched_proceeds true (watched_starts hasked (.agentApprovalRespond 0 true) rfl)
    rfl nofun
  have hsent := watched_proceeds true htaken rfl nofun
  have hreceived := watched_proceeds true hsent rfl nofun
  have hclosed := watched_proceeds true hreceived rfl nofun
  have hdecrypted := watched_proceeds true hclosed rfl nofun
  have hrecorded := watched_proceeds true hdecrypted rfl nofun
  have hresponded := watched_proceeds true hrecorded rfl nofun
  have hupdating := watched_proceeds true (watched_starts hresponded
    (.agentUpdate "agt_1" (some true) none none) rfl) rfl nofun
  have hupdated := watched_proceeds true hupdating rfl (changesBetweenRequests_of_idle fun n =>
    match n with
    | 0 => rfl
    | _ + 1 => rfl)
  exact ⟨_, hupdated, rfl, rfl, rfl, release_obeys_settings hupdated⟩

/-- An agent is paused while it is asked about, and still reads the secret. In the other run its
prompt is approved, and then its settings are changed; the approval is recorded after that, and
lets the next request pass. -/
theorem release_ignores_settings :
    (∃ w, Run watchedProgram
      ⟨.initial [⟨"agt_1", .agent, false, .askEveryTime, [.under ["web"]]⟩], []⟩ ⟨w, []⟩ ∧
      ∃ d ∈ w.decryptions, d.agentId = "agt_1" ∧ ¬ d.IsAdmitted) ∧
    ∃ answered task w, Run watchedProgram
        ⟨.initial [⟨"agt_1", .agent, false, .session15m, [.under ["web"]]⟩], []⟩
        ⟨answered, [task]⟩ ∧
      (∃ id req ready, task.task = .closes id req ready true) ∧ answered.changes "agt_1" = 0 ∧
      Run watchedProgram ⟨answered, [task]⟩ ⟨w, []⟩ ∧ w.changes "agt_1" = 1 ∧
      w.recordings = [⟨"agt_1", 0, 1⟩] ∧
      w.world.registry.decide "agt_1" [⟨"web", "dev", none, "KEY"⟩] true w.world.now = .allow := by
  have hinitial (agents : List AgentRecord) :
      Run (watchedProgram.when fun _ _ => True) ⟨.initial agents, []⟩ ⟨.initial agents, []⟩ := .refl
  refine ⟨?_, ?_⟩
  · have hpaired := hinitial [⟨"agt_1", .agent, false, .askEveryTime, [.under ["web"]]⟩]
    have hkeyring := watched_proceeds true (watched_starts hpaired .unlockWithPassword rfl) rfl
      trivial
    have hunlocked := watched_proceeds true hkeyring rfl trivial
    have hfetch := watched_proceeds true (watched_starts hunlocked (.handle (some "agt_1") none
      (.fetch [⟨"web", "dev", none, "KEY"⟩] .read)) rfl) rfl trivial
    have hauthorized := watched_proceeds true hfetch rfl trivial
    have hdecided := watched_proceeds true hauthorized rfl trivial
    have hasked := watched_proceeds true hdecided rfl trivial
    -- the agent is paused while the prompt is open
    have hupdating := watched_proceeds true (watched_starts hasked
      (.agentUpdate "agt_1" (some true) none none) rfl) rfl trivial
    have hupdated := watched_proceeds true hupdating rfl trivial
    have htaken := watched_proceeds true (watched_starts hupdated (.agentApprovalRespond 0 true)
      rfl) rfl trivial
    have hsent := watched_proceeds true htaken rfl trivial
    have hreceived := watched_proceeds true hsent rfl trivial
    have hclosed := watched_proceeds true hreceived rfl trivial
    have hverified := watched_proceeds true hclosed rfl trivial
    have hdecrypted := watched_proceeds true hverified rfl trivial
    have hrecorded := watched_proceeds true hdecrypted rfl trivial
    have hresponded := watched_proceeds true hrecorded rfl trivial
    refine ⟨_, .of_when hresponded, _, List.mem_cons_self, rfl, ?_⟩
    rintro ⟨agent, hagent, hpaused, -⟩
    obtain rfl := Option.some_inj.mp hagent
    cases hpaused
  · have hpaired := hinitial [⟨"agt_1", .agent, false, .session15m, [.under ["web"]]⟩]
    have hkeyring := watched_proceeds true (watched_starts hpaired .unlockWithPassword rfl) rfl
      trivial
    have hunlocked := watched_proceeds true hkeyring rfl trivial
    have hfetch := watched_proceeds true (watched_starts hunlocked (.handle (some "agt_1") none
      (.fetch [⟨"web", "dev", none, "KEY"⟩] .read)) rfl) rfl trivial
    have hauthorized := watched_proceeds true hfetch rfl trivial
    have hdecided := watched_proceeds true hauthorized rfl trivial
    have hasked := watched_proceeds false hdecided rfl trivial
    have htaken := watched_proceeds true (watched_starts hasked (.agentApprovalRespond 0 true) rfl)
      rfl trivial
    have hsent := watched_proceeds true htaken rfl trivial
    have hreceived := watched_proceeds true hsent rfl trivial
    have hagain {s s' : System Watched WatchedTask}
        (_ : Run (watchedProgram.when fun _ _ => True) s s') :
        Run (watchedProgram.when fun _ _ => True) s' s' := .refl
    have hclosed := watched_proceeds true (hagain hreceived) rfl trivial
    -- the update drops the approvals before this one is there
    have hupdating := watched_proceeds true (watched_starts hclosed
      (.agentUpdate "agt_1" none none (some [.under ["web", "dev"]])) rfl) rfl trivial
    have hupdated := watched_proceeds true hupdating rfl trivial
    have hdecrypted := watched_proceeds true hupdated rfl trivial
    have hrecorded := watched_proceeds true hdecrypted rfl trivial
    have hresponded := watched_proceeds true hrecorded rfl trivial
    exact ⟨_, _, _, .of_when hreceived, ⟨_, _, _, rfl⟩, rfl, .of_when hresponded, rfl, rfl,
      by decide⟩

end Zvault.Agents
