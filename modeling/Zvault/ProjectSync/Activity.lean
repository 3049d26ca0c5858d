import Mathlib.Data.Int.Notation
import Mathlib.Data.List.Nodup
import Mathlib.Logic.Function.Basic
import Zvault.Past.Since
import Zvault.ProjectSync.Metas

/-!
# Reports to the activity log

`ActivityReporter` of `projects/activity.ts`. Reports are queued for their project, and
a flush sends all that is queued in batches. A batch that the server did not take is
dropped: reporting is best effort.
-/

namespace Zvault.ProjectSync

open Past

inductive ReportedAction where
  | secretViewed
  | secretCopied
  | secretShared
  | agentUsed
  | agentDenied
  deriving DecidableEq, Repr

inductive ShareChannel where
  | link
  | person
  deriving DecidableEq, Repr

structure AgentUse where
  name : String
  purpose : Option String
  verifiedBy : Option String
  deriving DecidableEq, Repr

structure ReportedEvent where
  action : ReportedAction
  secretId : RecordId
  environmentId : RecordId
  share : Option ShareChannel
  agent : Option AgentUse
  deriving DecidableEq, Repr

def repeatMs : ℤ := 60000

def maxReportedEvents : ℕ := 50

/-- What tells uses apart. -/
structure UseKey where
  projectId : RecordId
  action : ReportedAction
  secretId : RecordId
  environmentId : RecordId
  deriving DecidableEq, Repr

/-- A call of `add`, and what the clock says then. -/
structure Report where
  projectId : RecordId
  event : ReportedEvent
  collapse : Bool
  now : ℤ
  deriving DecidableEq, Repr

def Report.key (r : Report) : UseKey :=
  ⟨r.projectId, r.event.action, r.event.secretId, r.event.environmentId⟩

def viewed (projectId secretId environmentId : RecordId) (now : ℤ) : Report :=
  ⟨projectId, ⟨.secretViewed, secretId, environmentId, none, none⟩, true, now⟩

def copied (projectId secretId environmentId : RecordId) (now : ℤ) : Report :=
  ⟨projectId, ⟨.secretCopied, secretId, environmentId, none, none⟩, true, now⟩

def shared (projectId secretId environmentId : RecordId) (share : ShareChannel) (now : ℤ) : Report :=
  ⟨projectId, ⟨.secretShared, secretId, environmentId, some share, none⟩, false, now⟩

def agent (projectId : RecordId) (event : ReportedEvent) (now : ℤ) : Report :=
  ⟨projectId, event, false, now⟩

/-- The loop of a flush over the events of one project: it waits for the batch at `i`. The results of
the batches before are kept for the record, and so is a loop that has ended. -/
structure Loop where
  projectId : RecordId
  events : List ReportedEvent
  i : ℕ
  results : List Bool
  deriving DecidableEq, Repr

/-- `events.slice(i, i + MAX_REPORTED_EVENTS)` in the `n`-th round. -/
def batch (events : List ReportedEvent) (n : ℕ) : List ReportedEvent :=
  (events.drop (n * maxReportedEvents)).take maxReportedEvents

/-- A batch is being sent. -/
def Loop.Sending (l : Loop) : Prop := l.i < l.events.length

instance (l : Loop) : Decidable l.Sending := inferInstanceAs (Decidable (_ < _))

/-- The batch was taken, or its failure is caught; the next one is sent. -/
def Loop.settle (l : Loop) (taken : Bool) : Loop :=
  if l.Sending then ⟨l.projectId, l.events, l.i + maxReportedEvents, l.results ++ [taken]⟩ else l

/-- The batches that the API was called with. -/
def Loop.handed (l : Loop) : List (List ReportedEvent) :=
  (List.range (l.results.length + if l.Sending then 1 else 0)).map (batch l.events)

/-- The events that come after the batch that is being sent. -/
def Loop.waiting (l : Loop) : List ReportedEvent := l.events.drop (l.i + maxReportedEvents)

/-- `ActivityReporter`, with the entries of the map in the order they were put in, the timers that
have not fired and the loops of its flushes. -/
structure ActivityReporter where
  queued : List (RecordId × List ReportedEvent)
  recent : UseKey → Option ℤ
  timer : Bool
  timers : ℕ
  loops : List Loop

namespace ActivityReporter

def start : ActivityReporter := ⟨[], fun _ => none, false, 0, []⟩

/-- `list.push(event)` for a project of the map, or a new list for it. -/
def push (projectId : RecordId) (event : ReportedEvent) :
    List (RecordId × List ReportedEvent) → List (RecordId × List ReportedEvent)
  | [] => [(projectId, [event])]
  | q :: queued =>
    if q.1 = projectId then (q.1, q.2 ++ [event]) :: queued else q :: push projectId event queued

/-- The same use was reported within the window. -/
def isRepeat (s : ActivityReporter) (r : Report) : Bool :=
  r.collapse && (s.recent r.key).any fun last => r.now - last < repeatMs

def add (s : ActivityReporter) (r : Report) : ActivityReporter :=
  if s.isRepeat r then s
  else
    { s with
      recent := if r.collapse then Function.update s.recent r.key (some r.now) else s.recent
      queued := push r.projectId r.event s.queued
      timer := true
      timers := if s.timer then s.timers else s.timers + 1 }

/-- `flush`, up to the first `await`s. -/
def flush (s : ActivityReporter) : ActivityReporter :=
  { s with
    timer := false
    queued := []
    loops := s.loops ++ s.queued.map fun q => ⟨q.1, q.2, 0, []⟩ }

def settle (s : ActivityReporter) (loop : ℕ) (taken : Bool) : ActivityReporter :=
  { s with loops := s.loops.modify loop (·.settle taken) }

inductive Event where
  | report (r : Report)
  | timer
  | flush
  | settled (loop : ℕ) (taken : Bool)
  deriving DecidableEq, Repr

def step (s : ActivityReporter) : Event → ActivityReporter
  | .report r => s.add r
  | .timer => if s.timers = 0 then s else { s.flush with timers := s.timers - 1 }
  | .flush => s.flush
  | .settled loop taken => s.settle loop taken

end ActivityReporter

/-- The reporter, and every report that it queued. -/
structure Reported where
  reporter : ActivityReporter
  reports : List Report

def Reported.step (s : Reported) (e : ActivityReporter.Event) : Reported :=
  ⟨s.reporter.step e,
    match e with
    | .report r => if s.reporter.isRepeat r then s.reports else s.reports ++ [r]
    | _ => s.reports⟩

/-- The events of a project that are queued. -/
def ActivityReporter.queuedFor (s : ActivityReporter) (projectId : RecordId) : List ReportedEvent :=
  (s.queued.filter (·.1 = projectId)).flatMap Prod.snd

/-- The batches that the server took. -/
def Loop.taken (l : Loop) : List (List ReportedEvent) :=
  ((l.handed.zip l.results).filter (·.2)).map Prod.fst

/-- The reports of one use that may be collapsed. -/
def Reported.sameUse (s : Reported) (key : UseKey) : List Report :=
  s.reports.filter fun r => r.collapse && r.key = key

/-- What a list of events leads to. -/
def Reported.after (events : List ActivityReporter.Event) : Reported :=
  events.foldl Reported.step ⟨.start, []⟩

section Queue

variable {queued : List (RecordId × List ReportedEvent)} {projectId p : RecordId}
  {event : ReportedEvent}

theorem fst_of_mem_push {q : RecordId × List ReportedEvent}
    (hq : q ∈ ActivityReporter.push projectId event queued) :
    q.1 = projectId ∨ q.1 ∈ queued.map Prod.fst := by
  induction queued with
  | nil => exact Or.inl (congrArg Prod.fst (List.mem_singleton.mp hq))
  | cons r queued ih =>
    unfold ActivityReporter.push at hq
    split at hq
    · rename_i hr
      rcases List.mem_cons.mp hq with rfl | hq
      · exact Or.inl hr
      · exact Or.inr (List.mem_cons_of_mem _ (List.mem_map_of_mem hq))
    · rcases List.mem_cons.mp hq with rfl | hq
      · exact Or.inr (List.mem_cons_self ..)
      · exact (ih hq).imp_right (List.mem_cons_of_mem _)

theorem nodup_push (h : (queued.map Prod.fst).Nodup) :
    ((ActivityReporter.push projectId event queued).map Prod.fst).Nodup := by
  induction queued with
  | nil => exact List.nodup_singleton _
  | cons r queued ih =>
    obtain ⟨hr, hrest⟩ := List.nodup_cons.mp h
    unfold ActivityReporter.push
    split
    · exact h
    · rename_i hne
      refine List.nodup_cons.mpr ⟨fun hmem => ?_, ih hrest⟩
      obtain ⟨q, hq, hsame⟩ := List.mem_map.mp hmem
      rcases fst_of_mem_push hq with hnew | hold
      · exact hne (hsame.symm.trans hnew)
      · exact hr (hsame ▸ hold)

theorem ne_nil_of_mem_push (h : ∀ q ∈ queued, q.2 ≠ []) :
    ∀ q ∈ ActivityReporter.push projectId event queued, q.2 ≠ [] := by
  induction queued with
  | nil => simp [ActivityReporter.push]
  | cons r queued ih =>
    obtain ⟨hr, hrest⟩ := List.forall_mem_cons.mp h
    unfold ActivityReporter.push
    split
    · exact List.forall_mem_cons.mpr ⟨by simp, hrest⟩
    · exact List.forall_mem_cons.mpr ⟨hr, ih hrest⟩

/-- Only the project of the event has one more, behind the others. -/
theorem flatMap_filter_push (h : (queued.map Prod.fst).Nodup) :
    ((ActivityReporter.push projectId event queued).filter (·.1 = p)).flatMap Prod.snd =
      (queued.filter (·.1 = p)).flatMap Prod.snd ++ if projectId = p then [event] else [] := by
  induction queued with
  | nil =>
    by_cases hp : projectId = p
    · simp [ActivityReporter.push, hp]
    · simp [ActivityReporter.push, hp]
  | cons r queued ih =>
    obtain ⟨hr, hrest⟩ := List.nodup_cons.mp h
    unfold ActivityReporter.push
    split
    · rename_i hsame
      by_cases hp : r.1 = p
      · have hnone : queued.filter (·.1 = p) = [] := by
          refine List.filter_eq_nil_iff.mpr fun q hq => ?_
          have hne : q.1 ≠ p := fun h => hr (by rw [hp, ← h]; exact List.mem_map_of_mem hq)
          simpa using hne
        rw [List.filter_cons_of_pos (by simpa using hp), List.filter_cons_of_pos (by simpa using hp),
          hnone, if_pos (hsame.symm.trans hp)]
        simp
      · rw [List.filter_cons_of_neg (by simpa using hp), List.filter_cons_of_neg (by simpa using hp),
          if_neg fun h => hp (hsame.trans h), List.append_nil]
    · by_cases hp : r.1 = p
      · rw [List.filter_cons_of_pos (by simpa using hp), List.filter_cons_of_pos (by simpa using hp),
          List.flatMap_cons, List.flatMap_cons, ih hrest, List.append_assoc]
      · rw [List.filter_cons_of_neg (by simpa using hp), List.filter_cons_of_neg (by simpa using hp),
          ih hrest]

end Queue

section Batches

/-- The first batches are the first events. -/
theorem flatMap_batch (events : List ReportedEvent) (n : ℕ) :
    (List.range n).flatMap (batch events) = events.take (n * maxReportedEvents) := by
  induction n with
  | zero => simp
  | succ n ih =>
    rw [List.range_succ, List.flatMap_append, ih, List.flatMap_singleton, batch, Nat.succ_mul,
      List.take_add]

theorem length_batch_le (events : List ReportedEvent) (n : ℕ) :
    (batch events n).length ≤ maxReportedEvents := by
  rw [batch, List.length_take]
  exact Nat.min_le_left ..

theorem batch_ne_nil {events : List ReportedEvent} {n : ℕ}
    (h : n * maxReportedEvents < events.length) : batch events n ≠ [] := by
  intro hnil
  have hlength := congrArg List.length hnil
  rw [batch, List.length_take, List.length_drop, List.length_nil] at hlength
  unfold maxReportedEvents at h hlength
  omega

/-- A loop stands where its next batch begins, and every batch before began within the events. -/
structure Loop.IsValid (l : Loop) : Prop where
  at_batch : l.i = l.results.length * maxReportedEvents
  within : l.i < l.events.length + maxReportedEvents
  nonempty : l.events ≠ []

theorem Loop.isValid_settle {l : Loop} (h : l.IsValid) (taken : Bool) : (l.settle taken).IsValid := by
  unfold Loop.settle
  split
  · rename_i hsending
    refine ⟨?_, ?_, h.nonempty⟩
    · change l.i + maxReportedEvents = (l.results ++ [taken]).length * maxReportedEvents
      rw [List.length_append, List.length_singleton, Nat.succ_mul, h.at_batch]
    · change l.i + maxReportedEvents < l.events.length + maxReportedEvents
      exact Nat.add_lt_add_right hsending _
  · exact h

/-- The events of a loop are those of the batches that were handed over and the ones after. -/
theorem Loop.flatten_handed {l : Loop} (h : l.IsValid) : l.handed.flatten ++ l.waiting = l.events := by
  rw [handed, ← List.flatMap_def, flatMap_batch, waiting]
  split
  · rw [h.at_batch, ← Nat.succ_mul]
    exact List.take_append_drop ..
  · rename_i hended
    have hlength : l.events.length ≤ l.i := Nat.le_of_not_lt hended
    rw [Nat.add_zero, ← h.at_batch, List.take_of_length_le hlength,
      List.drop_eq_nil_of_le (by omega), List.append_nil]

theorem Loop.bounds_of_mem_handed {l : Loop} (h : l.IsValid) {b : List ReportedEvent}
    (hb : b ∈ l.handed) : b ≠ [] ∧ b.length ≤ maxReportedEvents := by
  obtain ⟨n, hn, rfl⟩ := List.mem_map.mp hb
  refine ⟨batch_ne_nil ?_, length_batch_le ..⟩
  have hrange := List.mem_range.mp hn
  have hbatch := h.at_batch
  have hwithin := h.within
  have hsending : l.Sending ↔ l.i < l.events.length := Iff.rfl
  unfold maxReportedEvents at hbatch hwithin ⊢
  split at hrange
  · rename_i hl
    have := hsending.mp hl
    omega
  · omega

end Batches

/-- What holds of the reporter after any events. -/
structure Reported.IsValid (s : Reported) : Prop where
  keys : (s.reporter.queued.map Prod.fst).Nodup
  nonempty : ∀ q ∈ s.reporter.queued, q.2 ≠ []
  loops : ∀ l ∈ s.reporter.loops, l.IsValid
  kept : ∀ p, (s.reports.filter (·.projectId = p)).map (·.event) =
    (s.reporter.loops.filter (·.projectId = p)).flatMap (·.events) ++ s.reporter.queuedFor p
  timer : s.reporter.queued ≠ [] → s.reporter.timer = true
  timers : s.reporter.timer = true → 0 < s.reporter.timers
  recent : ∀ key, s.reporter.recent key = ((s.sameUse key).map (·.now)).getLast?
  spaced : ∀ key, ((s.sameUse key).map (·.now)).Pairwise fun a b => a + repeatMs ≤ b

namespace Reported

theorem isValid_start : IsValid ⟨.start, []⟩ where
  keys := List.nodup_nil
  nonempty := nofun
  loops := nofun
  kept := fun _ => rfl
  timer := fun h => absurd rfl h
  timers := nofun
  recent := fun _ => rfl
  spaced := fun _ => List.Pairwise.nil

theorem sameUse_append (s : Reported) (reporter : ActivityReporter) (r : Report) (key : UseKey) :
    (Reported.mk reporter (s.reports ++ [r])).sameUse key =
      s.sameUse key ++ if (r.collapse && r.key = key) = true then [r] else [] := by
  rw [sameUse, List.filter_append, List.filter_singleton, Bool.cond_eq_ite]
  rfl

/-- A report of which there is no repeat is the first one, or comes a while after the last one. -/
theorem spaced_of_not_isRepeat {s : Reported} (h : s.IsValid) {r : Report}
    (hnew : s.reporter.isRepeat r = false) (hcollapse : r.collapse = true) :
    ∀ last ∈ (s.sameUse r.key).map (·.now), last + repeatMs ≤ r.now := by
  intro now hnow
  rw [ActivityReporter.isRepeat, hcollapse, Bool.true_and, h.recent] at hnew
  cases hlast : ((s.sameUse r.key).map (·.now)).getLast? with
  | none =>
    rw [List.getLast?_eq_none_iff.mp hlast] at hnow
    cases hnow
  | some last =>
    rw [hlast] at hnew
    have hwindow : ¬ r.now - last < repeatMs := by simpa using hnew
    obtain ⟨before, hbefore⟩ := List.getLast?_eq_some_iff.mp hlast
    have hspaced := h.spaced r.key
    rw [hbefore] at hspaced hnow
    rcases List.mem_append.mp hnow with hnow | hnow
    · have hle := (List.pairwise_append.mp hspaced).2.2 now hnow last (List.mem_singleton_self _)
      unfold repeatMs at *
      omega
    · rw [List.mem_singleton.mp hnow]
      omega

/-- A report is taken for a repeat when some report of the same use was queued within the window. -/
theorem isRepeat_iff {s : Reported} (h : s.IsValid) (r : Report) :
    s.reporter.isRepeat r = true ↔
      r.collapse = true ∧ ∃ earlier ∈ s.sameUse r.key, r.now - earlier.now < repeatMs := by
  constructor
  · intro hrepeat
    obtain ⟨hcollapse, hrecent⟩ := Bool.and_eq_true_iff.mp hrepeat
    rw [h.recent] at hrecent
    refine ⟨hcollapse, ?_⟩
    cases hlast : ((s.sameUse r.key).map (·.now)).getLast? with
    | none =>
      rw [hlast] at hrecent
      cases hrecent
    | some last =>
      rw [hlast] at hrecent
      obtain ⟨earlier, hearlier, rfl⟩ := List.mem_map.mp (List.mem_of_getLast? hlast)
      exact ⟨earlier, hearlier, of_decide_eq_true hrecent⟩
  · rintro ⟨hcollapse, earlier, hearlier, hwindow⟩
    cases hrepeat : s.reporter.isRepeat r with
    | true => rfl
    | false =>
      have hspaced := spaced_of_not_isRepeat h hrepeat hcollapse earlier.now
        (List.mem_map_of_mem hearlier)
      unfold repeatMs at *
      omega

theorem isValid_add {s : Reported} (h : s.IsValid) (r : Report) :
    (s.step (.report r)).IsValid := by
  cases hrepeat : s.reporter.isRepeat r with
  | true =>
    have hsame : s.step (.report r) = s := by
      simp only [step, ActivityReporter.step, ActivityReporter.add, hrepeat, if_true]
    rwa [hsame]
  | false =>
    have hstep : s.step (.report r) = ⟨s.reporter.add r, s.reports ++ [r]⟩ := by
      simp only [step, ActivityReporter.step, hrepeat, Bool.false_eq_true, if_false]
    have hadd : s.reporter.add r = { s.reporter with
        recent := if r.collapse then Function.update s.reporter.recent r.key (some r.now)
          else s.reporter.recent
        queued := ActivityReporter.push r.projectId r.event s.reporter.queued
        timer := true
        timers := if s.reporter.timer then s.reporter.timers else s.reporter.timers + 1 } := by
      rw [ActivityReporter.add, hrepeat]
      rfl
    rw [hstep, hadd]
    refine ⟨nodup_push h.keys, ne_nil_of_mem_push h.nonempty, h.loops, fun p => ?_, fun _ => rfl,
      fun _ => ?_, fun key => ?_, fun key => ?_⟩
    · rw [List.filter_append, List.map_append, h.kept, ActivityReporter.queuedFor,
        ActivityReporter.queuedFor, flatMap_filter_push h.keys, List.append_assoc]
      congr 2
      by_cases hp : r.projectId = p
      · simp [hp]
      · simp [hp]
    · dsimp only
      split
      · rename_i htimer
        exact h.timers htimer
      · exact Nat.succ_pos _
    · rw [sameUse_append]
      by_cases hsame : (r.collapse && r.key = key) = true
      · obtain ⟨hcollapse, hkey⟩ := Bool.and_eq_true_iff.mp hsame
        obtain rfl := of_decide_eq_true hkey
        simp [hcollapse]
      · rw [if_neg hsame, List.append_nil, ← h.recent]
        dsimp only
        split
        · rename_i hcollapse
          have hne : key ≠ r.key := by
            rintro rfl
            exact hsame (by simp [hcollapse])
          rw [Function.update_of_ne hne]
        · rfl
    · rw [sameUse_append]
      split
      · rename_i hsame
        obtain ⟨hcollapse, hkey⟩ := Bool.and_eq_true_iff.mp hsame
        obtain rfl := of_decide_eq_true hkey
        rw [List.map_append, List.pairwise_append]
        refine ⟨h.spaced _, List.pairwise_singleton _ _, fun a ha b hb => ?_⟩
        rw [List.mem_singleton.mp hb]
        exact spaced_of_not_isRepeat h hrepeat hcollapse a ha
      · rw [List.append_nil]
        exact h.spaced key

theorem isValid_flush {s : Reported} (h : s.IsValid) : (s.step .flush).IsValid where
  keys := List.nodup_nil
  nonempty := nofun
  loops := by
    intro l hl
    rcases List.mem_append.mp hl with hl | hl
    · exact h.loops l hl
    · obtain ⟨q, hq, rfl⟩ := List.mem_map.mp hl
      have hne := h.nonempty q hq
      have hpos := List.length_pos_of_ne_nil hne
      exact ⟨rfl, Nat.lt_of_lt_of_le hpos (Nat.le_add_right ..), hne⟩
  kept := by
    intro p
    change _ = ((s.reporter.loops ++ s.reporter.queued.map fun q => (⟨q.1, q.2, 0, []⟩ : Loop)).filter
      (·.projectId = p)).flatMap (·.events) ++ []
    rw [List.append_nil, List.filter_append, List.flatMap_append, List.filter_map, List.flatMap_map]
    exact h.kept p
  timer := fun hne => absurd rfl hne
  timers := nofun
  recent := h.recent
  spaced := h.spaced

/-- What a loop does leaves its project and its events. -/
theorem filter_modify_settle (loops : List Loop) (i : ℕ) (taken : Bool) (p : RecordId) :
    ((loops.modify i (·.settle taken)).filter (·.projectId = p)).flatMap (·.events) =
      (loops.filter (·.projectId = p)).flatMap (·.events) := by
  have hsettle : ∀ l : Loop, (l.settle taken).projectId = l.projectId ∧
      (l.settle taken).events = l.events := by
    intro l
    unfold Loop.settle
    split
    · exact ⟨rfl, rfl⟩
    · exact ⟨rfl, rfl⟩
  induction loops generalizing i with
  | nil => rw [List.modify_nil]
  | cons l loops ih =>
    cases i with
    | zero =>
      rw [List.modify_zero_cons, List.filter_cons, List.filter_cons, (hsettle l).1]
      split
      · rw [List.flatMap_cons, List.flatMap_cons, (hsettle l).2]
      · rfl
    | succ i =>
      rw [List.modify_succ_cons, List.filter_cons, List.filter_cons]
      split
      · rw [List.flatMap_cons, List.flatMap_cons, ih]
      · exact ih i

theorem isValid_settled {s : Reported} (h : s.IsValid) (loop : ℕ) (taken : Bool) :
    (s.step (.settled loop taken)).IsValid where
  keys := h.keys
  nonempty := h.nonempty
  loops := by
    intro l hl
    obtain ⟨i, hi⟩ := List.mem_iff_getElem?.mp hl
    change (s.reporter.loops.modify loop (·.settle taken))[i]? = some l at hi
    rw [List.getElem?_modify] at hi
    obtain ⟨l₀, hl₀, hl⟩ := Option.map_eq_some_iff.mp hi
    have hvalid := h.loops l₀ (List.mem_of_getElem? hl₀)
    split at hl
    · rw [← hl]
      exact Loop.isValid_settle hvalid taken
    · rw [← hl]
      exact hvalid
  kept := by
    intro p
    change _ = ((s.reporter.loops.modify loop (·.settle taken)).filter
      (·.projectId = p)).flatMap (·.events) ++ s.reporter.queuedFor p
    rw [filter_modify_settle]
    exact h.kept p
  timer := h.timer
  timers := h.timers
  recent := h.recent
  spaced := h.spaced

theorem isValid_step {s : Reported} (h : s.IsValid) (e : ActivityReporter.Event) :
    (s.step e).IsValid := by
  cases e with
  | report r => exact isValid_add h r
  | flush => exact isValid_flush h
  | settled loop taken => exact isValid_settled h loop taken
  | timer =>
    have hflush := isValid_flush h
    by_cases hnone : s.reporter.timers = 0
    · have hsame : s.step .timer = s := by
        simp only [step, ActivityReporter.step, hnone, if_true]
      rwa [hsame]
    · have hfires : s.step .timer = ⟨{ s.reporter.flush with timers := s.reporter.timers - 1 },
          s.reports⟩ := by
        simp only [step, ActivityReporter.step, hnone, if_false]
      rw [hfires]
      exact ⟨hflush.keys, hflush.nonempty, hflush.loops, hflush.kept, hflush.timer, nofun,
        hflush.recent, hflush.spaced⟩

theorem isValid_after (events : List ActivityReporter.Event) : (after events).IsValid :=
  @foldl_induction _ _ step ⟨.start, []⟩ (fun _ s => s.IsValid) isValid_start
    (fun _ _ e h => isValid_step h e) events

end Reported

/-- After any events, what was queued for a project is, in order, what its flushes handed over in
batches, what waits behind a batch of theirs, and what is queued still, for which a timer is set. A
view or copy is queued unless it follows another one of the same use too soon. -/
theorem reports_kept (events : List ActivityReporter.Event) :
    (∀ p, ((Reported.after events).reports.filter (·.projectId = p)).map (·.event) =
        ((Reported.after events).reporter.loops.filter (·.projectId = p)).flatMap
            (fun l => l.handed.flatten ++ l.waiting) ++
          (Reported.after events).reporter.queuedFor p) ∧
      (∀ l ∈ (Reported.after events).reporter.loops,
        (∀ b ∈ l.handed, b ≠ [] ∧ b.length ≤ maxReportedEvents) ∧ (l.Sending ∨ l.waiting = [])) ∧
      ((Reported.after events).reporter.queued ≠ [] →
        0 < (Reported.after events).reporter.timers) ∧
      ∀ r : Report, (Reported.after (events ++ [.report r])).reports =
        (Reported.after events).reports ++
          if r.collapse = true ∧ ∃ earlier ∈ (Reported.after events).sameUse r.key,
            r.now - earlier.now < repeatMs then [] else [r] := by
  have h := Reported.isValid_after events
  refine ⟨fun p => ?_, fun l hl => ⟨fun b hb => Loop.bounds_of_mem_handed (h.loops l hl) hb, ?_⟩,
    fun hne => h.timers (h.timer hne), fun r => ?_⟩
  · rw [h.kept]
    congr 1
    refine List.flatMap_congr fun l hl => ?_
    exact (Loop.flatten_handed (h.loops l (List.mem_filter.mp hl).1)).symm
  · by_cases hsending : l.Sending
    · exact Or.inl hsending
    · refine Or.inr (List.drop_eq_nil_of_le ?_)
      have hlength : l.events.length ≤ l.i := Nat.le_of_not_lt hsending
      omega
  · have hstep : Reported.after (events ++ [.report r]) = (Reported.after events).step (.report r) :=
      List.foldl_append ..
    rw [hstep]
    have hiff := Reported.isRepeat_iff h r
    cases hrepeat : (Reported.after events).reporter.isRepeat r with
    | true =>
      rw [if_pos (hiff.mp hrepeat), List.append_nil]
      simp only [Reported.step, hrepeat, if_true]
    | false =>
      rw [if_neg fun hno => by rw [hiff.mpr hno] at hrepeat; cases hrepeat]
      simp only [Reported.step, hrepeat, Bool.false_eq_true, if_false]

/-- A batch that fails is neither sent nor queued again, and views further apart than the window are
not both queued when one between them is. -/
theorem report_dropped :
    (let s := Reported.after [.report (shared 1 2 3 .link 0), .flush, .settled 0 false]
     s.reports = [shared 1 2 3 .link 0] ∧ s.reporter.queued = [] ∧
      s.reporter.loops.flatMap Loop.taken = []) ∧
    (Reported.after [.report (viewed 1 2 3 0), .report (viewed 1 2 3 40000),
      .report (viewed 1 2 3 120000)]).reports = [viewed 1 2 3 0, viewed 1 2 3 120000] :=
  ⟨⟨rfl, rfl, rfl⟩, rfl⟩

end Zvault.ProjectSync
