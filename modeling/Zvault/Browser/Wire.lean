import Mathlib.Data.List.Perm.Basic
import Mathlib.Data.List.Nodup
import Zvault.Browser.Channel

/-!
# What is on the wire

The bytes between the two ends are the frames of the requests that `zv` has not read, and of what
it has sent and the extension has not received.
-/

/-! ### What the extension notes

The messages the two ends exchange, read by the extension, and its ledger of requests:
each has an id of its own, and is pending or settled. -/

namespace Zvault.NativeHost

open Json (Value lookup_cons lookup_setMember)

variable {w : Channel} {id : ℕ} {r : Result}

section Values

theorem get_posted (id : ℕ) (message : List (String × Value)) :
    (posted id message).get "id" = some (.num id) := by
  rw [posted, Value.get, lookup_setMember, if_pos rfl]

/-- What `zv` repeats is the id that was posted. -/
theorem eq_of_readEnvelope {message : List (String × Value)} {v : Value} {m : Message}
    (h : readEnvelope (posted id message) = some (v, m)) : v = .num id := by
  simp only [readEnvelope, get_posted, Option.bind_eq_bind, Option.bind_some, Option.pure_def,
    Option.bind_eq_some_iff, Option.some_inj] at h
  obtain ⟨m', -, h⟩ := h
  exact (Prod.mk.inj h).1.symm

theorem Reply.lookup_event (reply : Reply) : reply.members.lookup "event" = none := by
  cases reply with
  | status running locked isPaired known => cases known <;> rfl
  | _ => rfl

theorem Answer.get_id (answer : Answer) (v : Value) : (answer.toJson v).get "id" = some v := by
  cases answer with
  | ok reply =>
    simp only [toJson, Value.get, lookup_setMember, if_pos]
    rfl
  | refused code message => rfl

theorem Answer.get_event (answer : Answer) (v : Value) : (answer.toJson v).get "event" = none := by
  cases answer with
  | ok reply =>
    simp only [toJson, Value.get, lookup_setMember, reply.lookup_event]
    rfl
  | refused code message => rfl

/-- What the extension makes of an answer. -/
def Answer.result (id : Value) : Answer → Result
  | ok reply => .ok ((ok reply).toJson id)
  | refused code message => .failed (.str code) message

end Values

section Receive

theorem addressee_eq {v : Value} (h : v.get "id" = some (.num id)) :
    w.addressee v = if id ∈ w.pending then some id else none := by
  have hfind : w.addressee v = w.pending.find? fun id' : ℕ => (id' : ℤ) = id := by
    rw [Channel.addressee, h]
  rw [hfind]
  split
  · rename_i hmem
    cases hsome : w.pending.find? fun id' : ℕ => (id' : ℤ) = id with
    | none => simpa using List.find?_eq_none.mp hsome id hmem
    | some id' =>
      have hsame := List.find?_some hsome
      exact congrArg some (Int.ofNat_inj.mp (of_decide_eq_true hsame))
  · rename_i hmem
    refine List.find?_eq_none.mpr fun id' hid' heq => hmem ?_
    have hsame : (id' : ℤ) = id := of_decide_eq_true heq
    exact Int.ofNat_inj.mp hsame ▸ hid'

theorem receive_answer (answer : Answer) (id : ℕ) :
    w.receive (answer.toJson (.num id)) = w.finish id (answer.result (.num id)) := by
  unfold Channel.receive
  rw [addressee_eq (answer.get_id _)]
  by_cases hmem : id ∈ w.pending
  · rw [if_pos hmem]
    simp only [answer.get_event]
    cases answer with
    | ok reply =>
      simp only [Answer.toJson, Value.get, lookup_setMember, if_pos]
      rfl
    | refused code message => rfl
  · rw [if_neg hmem, Channel.finish, if_neg hmem]

theorem receive_pairingCode (id : ℕ) (code : String) :
    w.receive (pairingCode (.num id) code) =
      if id ∈ w.pending then { w with log := w.log ++ [.told id (pairingCode (.num id) code)] }
      else w := by
  have haddressee : w.addressee (pairingCode (.num id) code) = _ := addressee_eq rfl
  unfold Channel.receive
  rw [haddressee]
  by_cases hmem : id ∈ w.pending
  · rw [if_pos hmem, if_pos hmem]
    rfl
  · rw [if_neg hmem, if_neg hmem]

theorem receive_unreadable : w.receive unreadable = w := rfl

end Receive

section Ledger

/-- The requests that were made. -/
def requestedIds (log : List Event) : List ℕ :=
  log.filterMap fun
    | .requested id _ => some id
    | _ => none

/-- The requests that were settled. -/
def settledIds (log : List Event) : List ℕ :=
  log.filterMap fun
    | .settled id _ => some id
    | _ => none

/-- The ids that `zv` has answered. -/
def answeredIds (log : List Event) : List Value :=
  log.filterMap fun
    | .answered id _ _ => some id
    | _ => none

/-- Whom an event of the extension is about. -/
def Event.about : Event → Option ℕ
  | requested id _ | told id _ | settled id _ => some id
  | answered .. => none

/-- Nothing happens to a request after it was settled. -/
def Before (e e' : Event) : Prop := ∀ id r, e = .settled id r → e'.about ≠ some id

/-- Each request has an id of its own, and is pending or settled. -/
structure Ledger (w : Channel) : Prop where
  next : ∀ id ∈ requestedIds w.log, id < w.next
  once : (requestedIds w.log).Nodup
  split : (requestedIds w.log).Perm (w.pending ++ settledIds w.log)
  order : w.log.Pairwise Before

theorem mem_requestedIds {log : List Event} :
    id ∈ requestedIds log ↔ ∃ message, Event.requested id message ∈ log := by
  simp only [requestedIds, List.mem_filterMap]
  constructor
  · rintro ⟨e, he, h⟩
    cases e <;> cases h
    exact ⟨_, he⟩
  · rintro ⟨message, he⟩
    exact ⟨_, he, rfl⟩

theorem mem_settledIds {log : List Event} :
    id ∈ settledIds log ↔ ∃ r, Event.settled id r ∈ log := by
  simp only [settledIds, List.mem_filterMap]
  constructor
  · rintro ⟨e, he, h⟩
    cases e <;> cases h
    exact ⟨_, he⟩
  · rintro ⟨r, he⟩
    exact ⟨_, he, rfl⟩

theorem mem_answeredIds {log : List Event} {v : Value} :
    v ∈ answeredIds log ↔ ∃ message answer, Event.answered v message answer ∈ log := by
  simp only [answeredIds, List.mem_filterMap]
  constructor
  · rintro ⟨e, he, h⟩
    cases e <;> cases h
    exact ⟨_, _, he⟩
  · rintro ⟨message, answer, he⟩
    exact ⟨_, he, rfl⟩

namespace Ledger

theorem nodup (h : Ledger w) : (w.pending ++ settledIds w.log).Nodup := h.split.nodup_iff.mp h.once

theorem not_settled (h : Ledger w) (hid : id ∈ w.pending) : id ∉ settledIds w.log :=
  fun hsettled => List.disjoint_of_nodup_append h.nodup hid hsettled

/-- An event about nobody, or about somebody who is not settled yet, goes behind the others. -/
theorem order_append (h : Ledger w) {e : Event} (he : ∀ id ∈ e.about, id ∉ settledIds w.log) :
    (w.log ++ [e]).Pairwise Before := by
  refine List.pairwise_append.mpr ⟨h.order, List.pairwise_singleton _ _, fun e₀ he₀ e' he' => ?_⟩
  obtain rfl := List.mem_singleton.mp he'
  rintro id r rfl habout
  exact he id habout (mem_settledIds.mpr ⟨r, he₀⟩)

theorem finish (h : Ledger w) (id : ℕ) (r : Result) : Ledger (w.finish id r) := by
  unfold Channel.finish
  split
  · rename_i hid
    have hrequested : requestedIds (w.log ++ [.settled id r]) = requestedIds w.log := by
      simp [requestedIds]
    have hsettled : settledIds (w.log ++ [.settled id r]) = settledIds w.log ++ [id] := by
      simp [settledIds]
    refine ⟨by rw [hrequested]; exact h.next, by rw [hrequested]; exact h.once, ?_,
      h.order_append ?_⟩
    · rw [hrequested, hsettled, ← List.append_assoc]
      refine h.split.trans (((List.perm_cons_erase hid).append_right _).trans ?_)
      exact (List.perm_append_singleton _ _).symm
    · rintro _ ⟨⟩
      exact h.not_settled hid
  · exact h

theorem foldl_finish (h : Ledger w) (r : Result) (ids : List ℕ) :
    Ledger (ids.foldl (fun w id => w.finish id r) w) := by
  induction ids generalizing w with
  | nil => exact h
  | cons id ids ih => exact ih (h.finish id r)

/-- An event that neither makes a request nor settles one. -/
theorem note (h : Ledger w) {e : Event} (hrequested : requestedIds [e] = [])
    (hsettled : settledIds [e] = []) (he : ∀ id ∈ e.about, id ∉ settledIds w.log)
    (port : Option Port) : Ledger { w with port := port, log := w.log ++ [e] } := by
  have hrequestedIds : requestedIds (w.log ++ [e]) = requestedIds w.log := by
    rw [requestedIds, List.filterMap_append, ← requestedIds, ← requestedIds, hrequested,
      List.append_nil]
  have hsettledIds : settledIds (w.log ++ [e]) = settledIds w.log := by
    rw [settledIds, List.filterMap_append, ← settledIds, ← settledIds, hsettled, List.append_nil]
  refine ⟨?_, ?_, ?_, h.order_append he⟩
  · rw [hrequestedIds]
    exact h.next
  · rw [hrequestedIds]
    exact h.once
  · rw [hrequestedIds, hsettledIds]
    exact h.split

/-- A new request. -/
theorem requests (h : Ledger w) (message : List (String × Value)) :
    Ledger { w with
      next := w.next + 1
      pending := w.pending ++ [w.next]
      log := w.log ++ [.requested w.next message] } := by
  have hrequested : requestedIds (w.log ++ [.requested w.next message]) =
      requestedIds w.log ++ [w.next] := by
    simp [requestedIds]
  have hsettled : settledIds (w.log ++ [.requested w.next message]) = settledIds w.log := by
    simp [settledIds]
  have hfresh : w.next ∉ requestedIds w.log := fun hmem => lt_irrefl _ (h.next _ hmem)
  refine ⟨?_, ?_, ?_, h.order_append ?_⟩
  · rw [hrequested]
    intro id hid
    rcases List.mem_append.mp hid with hid | hid
    · exact Nat.lt_succ_of_lt (h.next id hid)
    · rw [List.mem_singleton.mp hid]
      exact Nat.lt_succ_self _
  · rw [hrequested]
    exact List.concat_eq_append ▸ h.once.concat hfresh
  · rw [hrequested, hsettled, List.append_assoc]
    refine (h.split.append_right _).trans ?_
    rw [List.append_assoc]
    exact (List.perm_append_comm).append_left _
  · rintro _ ⟨⟩ hmem
    exact hfresh (h.split.mem_iff.mpr (List.mem_append_right _ hmem))

end Ledger

end Ledger

end Zvault.NativeHost

namespace Zvault.NativeHost

open Frames
open Json (Value)

variable {J : JsonText} {w : Channel} {port : Port} {id : ℕ} {r : Result} {log : List Event}
  {queue : List (ℕ × List (String × Value))} {out : List Value}

section Wire

/-- A message that `zv` has read was posted for a request. -/
def Taken (log : List Event) (v : Value) (m : Message) : Prop :=
  ∃ (id : ℕ) (message : List (String × Value)), .requested id message ∈ log ∧ v = .num id ∧
    readEnvelope (posted id message) = some (v, m)

/-- What `zv` sends. -/
def FromZv (log : List Event) (v : Value) : Prop :=
  v = unreadable ∨
  (∃ (id : ℕ) (name : Option String) (code : String),
    Taken log (.num id) (.pair name) ∧ v = pairingCode (.num id) code) ∨
  ∃ (id : ℕ) (message : Message) (answer : Answer),
    .answered (.num id) message answer ∈ log ∧ v = answer.toJson (.num id)

def Channel.threads (w : Channel) : List Thread := (w.port.map Port.threads).getD []

theorem Channel.threads_eq (hport : w.port = some port) : w.threads = port.threads := by
  rw [threads, hport]
  rfl

/-- What is posted for the requests of a queue, as text. -/
def postedTexts (J : JsonText) (queue : List (ℕ × List (String × Value))) : List (List UInt8) :=
  queue.map fun q => J.write (posted q.1 q.2)

/-- The bytes between the two ends are the frames of requests that `zv` has not read, and of what
the extension has not received. -/
structure Wire (J : JsonText) (w : Channel) (queue : List (ℕ × List (String × Value)))
    (out : List Value) : Prop where
  toHost : ∀ port ∈ w.port, port.stdin ++ port.toHost = frames u32le (postedTexts J queue)
  toBrowser : ∀ port ∈ w.port, port.arrived ++ port.stdout = frames u32le (out.map J.write)
  fits : ∀ text ∈ postedTexts J queue, text.length < u32le.bound
  small : ∀ text ∈ out.map J.write, text.length < u32le.bound
  queued : ∀ q ∈ queue, .requested q.1 q.2 ∈ w.log
  threads : ∀ t ∈ w.threads, Taken w.log t.id t.message
  answers : ∀ v message answer, .answered v message answer ∈ w.log →
    Taken w.log v message ∧ answer.suits message = true
  out : ∀ v ∈ out, FromZv w.log v
  /-- Each request is on its way to `zv`, in its hands, or answered, and only once. -/
  handled : (queue.map (fun q => Value.num q.1) ++ w.threads.map Thread.id ++
    answeredIds w.log).Nodup

theorem Taken.append {v : Value} {m : Message} (h : Taken log v m) (e : Event) :
    Taken (log ++ [e]) v m := by
  obtain ⟨id, message, hmem, h⟩ := h
  exact ⟨id, message, List.mem_append_left _ hmem, h⟩

theorem FromZv.append {v : Value} (h : FromZv log v) (e : Event) : FromZv (log ++ [e]) v := by
  rcases h with rfl | ⟨id, name, code, htaken, rfl⟩ | ⟨id, message, answer, hmem, rfl⟩
  · exact .inl rfl
  · exact .inr (.inl ⟨id, name, code, htaken.append e, rfl⟩)
  · exact .inr (.inr ⟨id, message, answer, List.mem_append_left _ hmem, rfl⟩)

/-- A message that was read is not mistaken for another. -/
theorem Taken.num {v : Value} {m : Message} (h : Taken log v m) : ∃ id : ℕ, v = .num id := by
  obtain ⟨id, -, -, rfl, -⟩ := h
  exact ⟨id, rfl⟩

namespace Wire

/-- What the extension notes by itself changes nothing on the wire. -/
theorem note (h : Wire J w queue out) {e : Event} (he : answeredIds [e] = []) (pending : List ℕ)
    (next : ℕ) :
    Wire J { w with next := next, pending := pending, log := w.log ++ [e] } queue out where
  toHost := h.toHost
  toBrowser := h.toBrowser
  fits := h.fits
  small := h.small
  queued q hq := List.mem_append_left _ (h.queued q hq)
  threads t ht := (h.threads t ht).append e
  answers v message answer hmem := by
    rcases List.mem_append.mp hmem with hmem | hmem
    · obtain ⟨htaken, hsuits⟩ := h.answers v message answer hmem
      exact ⟨htaken.append e, hsuits⟩
    · obtain rfl := List.mem_singleton.mp hmem
      cases he
  out v hv := (h.out v hv).append e
  handled := by
    have hanswered : answeredIds (w.log ++ [e]) = answeredIds w.log := by
      rw [answeredIds, List.filterMap_append, ← answeredIds, ← answeredIds, he, List.append_nil]
    rw [hanswered]
    exact h.handled

theorem finish (h : Wire J w queue out) (id : ℕ) (r : Result) :
    Wire J (w.finish id r) queue out := by
  unfold Channel.finish
  split
  · exact h.note rfl _ _
  · exact h

theorem foldl_finish (h : Wire J w queue out) (r : Result) (ids : List ℕ) :
    Wire J (ids.foldl (fun w id => w.finish id r) w) queue out := by
  induction ids generalizing w with
  | nil => exact h
  | cons id ids ih => exact ih (h.finish id r)

/-- Without a port there is nothing on the wire. -/
theorem close (h : Wire J w queue out) : Wire J { w with port := none } [] [] where
  toHost := by rintro _ ⟨⟩
  toBrowser := by rintro _ ⟨⟩
  fits := by rintro _ ⟨⟩
  small := by rintro _ ⟨⟩
  queued := by rintro _ ⟨⟩
  threads := by rintro _ ⟨⟩
  answers := h.answers
  out := by rintro _ ⟨⟩
  handled := (List.sublist_append_right _ _).nodup h.handled

/-- The port is in another state, with nothing new in the history. -/
theorem withPort (h : Wire J w queue out) {queue' : List (ℕ × List (String × Value))}
    {out' : List Value} (port : Port)
    (toHost : port.stdin ++ port.toHost = frames u32le (postedTexts J queue'))
    (toBrowser : port.arrived ++ port.stdout = frames u32le (out'.map J.write))
    (fits : ∀ text ∈ postedTexts J queue', text.length < u32le.bound)
    (small : ∀ text ∈ out'.map J.write, text.length < u32le.bound)
    (queued : ∀ q ∈ queue', .requested q.1 q.2 ∈ w.log)
    (threads : ∀ t ∈ port.threads, Taken w.log t.id t.message)
    (hout : ∀ v ∈ out', FromZv w.log v)
    (handled : (queue'.map (fun q => Value.num q.1) ++ port.threads.map Thread.id ++
      answeredIds w.log).Nodup) : Wire J { w with port := some port } queue' out' where
  toHost := by
    rintro _ ⟨⟩
    exact toHost
  toBrowser := by
    rintro _ ⟨⟩
    exact toBrowser
  fits := fits
  small := small
  queued := queued
  threads := threads
  answers := h.answers
  out := hout
  handled := handled

/-- A new port. -/
theorem openPort (h : Wire J w queue out) : Wire J { w with port := some .opened } [] [] :=
  h.withPort .opened rfl rfl (by rintro _ ⟨⟩) (by rintro _ ⟨⟩) (by rintro _ ⟨⟩) (by rintro _ ⟨⟩)
    (by rintro _ ⟨⟩) ((List.sublist_append_right _ _).nodup h.handled)

section Port

variable (h : Wire J w queue out) (hport : w.port = some port)
include h hport

theorem taken : ∀ t ∈ port.threads, Taken w.log t.id t.message := by
  have hthreads := h.threads
  rwa [Channel.threads_eq hport] at hthreads

theorem nodup : (queue.map (fun q => Value.num q.1) ++ port.threads.map Thread.id ++
    answeredIds w.log).Nodup := by
  have hhandled := h.handled
  rwa [Channel.threads_eq hport] at hhandled

/-- A request that was just made is posted. -/
theorem post {message : List (String × Value)} (hrequested : .requested id message ∈ w.log)
    (hfits : (J.write (posted id message)).length < u32le.bound)
    (hnew : .num id ∉ queue.map (fun q => Value.num q.1) ++ port.threads.map Thread.id ++
      answeredIds w.log) :
    Wire J { w with port := some { port with
      toHost := port.toHost ++ frame u32le (J.write (posted id message)) } }
      (queue ++ [(id, message)]) out := by
  have htaken := h.taken hport
  have hnodup := h.nodup hport
  refine h.withPort _ ?_ (h.toBrowser port hport) (fun text htext => ?_) h.small (fun q hq => ?_)
    htaken h.out ?_
  · rw [postedTexts, List.map_append, frames_append, ← postedTexts, ← h.toHost port hport,
      List.append_assoc]
    exact congrArg _ (congrArg _ (frames_singleton _).symm)
  · rw [postedTexts, List.map_append] at htext
    rcases List.mem_append.mp htext with htext | htext
    · exact h.fits text htext
    · rw [List.mem_singleton.mp htext]
      exact hfits
  · rcases List.mem_append.mp hq with hq | hq
    · exact h.queued q hq
    · rw [List.mem_singleton.mp hq]
      exact hrequested
  · rw [List.append_assoc] at hnew hnodup
    rw [List.map_append, List.append_assoc, List.append_assoc]
    exact List.perm_middle.nodup_iff.mpr (List.nodup_cons.mpr ⟨hnew, hnodup⟩)

theorem arriveAtHost (n : ℕ) : Wire J { w with port := some (port.arriveAtHost n) } queue out := by
  have htaken := h.taken hport
  have hnodup := h.nodup hport
  refine h.withPort _ ?_ (h.toBrowser port hport) h.fits h.small h.queued htaken h.out hnodup
  rw [Port.arriveAtHost, List.append_assoc, List.take_append_drop]
  exact h.toHost port hport

theorem arriveAtBrowser (n : ℕ) :
    Wire J { w with port := some (port.arriveAtBrowser n) } queue out := by
  have htaken := h.taken hport
  have hnodup := h.nodup hport
  refine h.withPort _ (h.toHost port hport) ?_ h.fits h.small h.queued htaken h.out hnodup
  rw [Port.arriveAtBrowser, List.append_assoc, List.take_append_drop]
  exact h.toBrowser port hport

end Port

/-- What `zv` sends is on its way behind the others, unless it is too large. -/
theorem send (h : Wire J { w with port := some port } queue out) {v : Value}
    (hv : FromZv w.log v) : Wire J { w with port := some (port.send J v) } queue
      (if maxToBrowser < (J.write v).length then out else out ++ [v]) := by
  unfold Port.send
  dsimp only
  split
  · exact h
  · rename_i hsmall
    have htaken := h.taken rfl
    have hnodup := h.nodup rfl
    refine h.withPort _ (h.toHost port rfl) ?_ h.fits (fun text htext => ?_) h.queued
      htaken (fun v' hv' => ?_) hnodup
    · rw [List.map_append, frames_append, ← h.toBrowser port rfl, List.append_assoc]
      exact congrArg _ (congrArg _ (frames_singleton _).symm)
    · rw [List.map_append] at htext
      rcases List.mem_append.mp htext with htext | htext
      · exact h.small text htext
      · rw [List.mem_singleton.mp htext]
        exact lt_of_le_of_lt (not_lt.mp hsmall) (by decide)
    · rcases List.mem_append.mp hv' with hv' | hv'
      · exact h.out v' hv'
      · rw [List.mem_singleton.mp hv']
        exact hv

end Wire

end Wire

section Whereabouts

/-- Where a request is that is not settled: on its way, in the hands of `zv`, answered, or not to
be answered. -/
def Whereabouts (J : JsonText) (port : Port) (log : List Event)
    (queue : List (ℕ × List (String × Value))) (out : List Value) (id : ℕ)
    (message : List (String × Value)) : Prop :=
  (id, message) ∈ queue ∨ (∃ t ∈ port.threads, t.id = .num id) ∨
  (∃ m answer, .answered (.num id) m answer ∈ log ∧ (answer.toJson (.num id) ∈ out ∨
    maxToBrowser < (J.write (answer.toJson (.num id))).length)) ∨
  (J.read (J.write (posted id message))).bind readEnvelope = none ∨ port.running = false

@[simp] theorem Port.send_threads (v : Value) : (port.send J v).threads = port.threads := by
  unfold send
  dsimp only
  split <;> rfl

@[simp] theorem Port.send_running (v : Value) : (port.send J v).running = port.running := by
  unfold send
  dsimp only
  split <;> rfl

theorem Whereabouts.mono {port' : Port} {queue' : List (ℕ × List (String × Value))}
    {out' : List Value} {log' : List Event} {message : List (String × Value)}
    (h : Whereabouts J port log queue out id message)
    (hqueue : (id, message) ∈ queue → Whereabouts J port' log' queue' out' id message)
    (hthreads : ∀ t ∈ port.threads, t.id = .num id →
      Whereabouts J port' log' queue' out' id message)
    (hlog : ∀ e ∈ log, e ∈ log') (hout : ∀ v ∈ out, v ∈ out')
    (hrunning : port.running = false → port'.running = false) :
    Whereabouts J port' log' queue' out' id message := by
  rcases h with hq | ⟨t, ht, hid⟩ | ⟨m, answer, hanswered, hsent⟩ | hunread | hended
  · exact hqueue hq
  · exact hthreads t ht hid
  · exact .inr (.inr (.inl ⟨m, answer, hlog _ hanswered, hsent.imp_left (hout _)⟩))
  · exact .inr (.inr (.inr (.inl hunread)))
  · exact .inr (.inr (.inr (.inr (hrunning hended))))

theorem mem_sent {out : List Value} {v v' : Value} (hv : v' ∈ out) :
    v' ∈ if maxToBrowser < (J.write v).length then out else out ++ [v] := by
  split
  · exact hv
  · exact List.mem_append_left _ hv

variable (h : Wire J w queue out) (hport : w.port = some port)
include h hport

/-- `zv` reads a request: the first of those on their way. -/
theorem Wire.read {port' : Port} (hread : port.read J = some port') :
    ∃ queue' out', Wire J { w with port := some port' } queue' out' ∧ ∀ id message,
      Whereabouts J port w.log queue out id message →
        Whereabouts J port' w.log queue' out' id message := by
  have htaken := h.taken hport
  have hnodup := h.nodup hport
  unfold Port.read at hread
  split at hread
  · cases hread
  split at hread
  · cases hread
  · cases hread
    refine ⟨queue, out, h.withPort _ (h.toHost port hport) (h.toBrowser port hport) h.fits h.small
      h.queued (by rintro _ ⟨⟩) h.out ?_, fun _ _ _ => .inr (.inr (.inr (.inr rfl)))⟩
    exact (((List.nil_sublist _).append_left _).append_right _).nodup hnodup
  · rename_i content rest hfront
    obtain ⟨texts, htexts, -, hrest⟩ := front_eq_whole h.fits (h.toHost port hport) hfront
    obtain ⟨⟨id₀, message₀⟩, others, rfl, rfl, rfl⟩ := List.map_eq_cons_iff.mp htexts
    have hothers : ∀ q ∈ others, q ∈ (id₀, message₀) :: others := fun q =>
      List.mem_cons_of_mem _
    have hpopped : Wire J { w with port := some { port with stdin := rest } } others out :=
      h.withPort _ hrest (h.toBrowser port hport)
        (fun text htext => h.fits text (List.mem_cons_of_mem _ htext)) h.small
        (fun q hq => h.queued q (hothers q hq)) htaken h.out (List.nodup_cons.mp hnodup).2
    dsimp only at hread
    split at hread
    · rename_i hunread
      cases hread
      refine ⟨others, _, hpopped.send (.inl rfl), fun id message hwhere => ?_⟩
      refine hwhere.mono (fun hq => ?_) (fun t ht hid => ?_) (fun _ he => he)
        (fun v hv => mem_sent hv) (fun hended => by simpa using hended)
      · rcases List.mem_cons.mp hq with heq | hq
        · obtain ⟨rfl, rfl⟩ := Prod.mk.inj heq
          exact .inr (.inr (.inr (.inl hunread)))
        · exact .inl hq
      · exact .inr (.inl ⟨t, by simpa using ht, hid⟩)
    · rename_i v m hread'
      cases hread
      obtain ⟨posted', hjson, henvelope⟩ := Option.bind_eq_some_iff.mp hread'
      obtain rfl := J.eq_of_read hjson
      obtain rfl := eq_of_readEnvelope henvelope
      refine ⟨others, out, hpopped.withPort _ hrest (h.toBrowser port hport) hpopped.fits h.small
        hpopped.queued (fun t ht => ?_) h.out ?_, fun id message hwhere => ?_⟩
      · rcases List.mem_append.mp ht with ht | ht
        · exact htaken t ht
        · rw [List.mem_singleton.mp ht]
          exact ⟨id₀, message₀, h.queued _ List.mem_cons_self, rfl, henvelope⟩
      · have hperm : (others.map (fun q => Value.num q.1) ++ port.threads.map Thread.id ++
            Value.num id₀ :: answeredIds w.log).Perm (Value.num id₀ ::
              (others.map (fun q => Value.num q.1) ++ port.threads.map Thread.id ++
                answeredIds w.log)) := List.perm_middle
        rw [List.map_append, ← List.append_assoc, List.append_assoc]
        exact hperm.nodup_iff.mpr hnodup
      · refine hwhere.mono (fun hq => ?_) (fun t ht hid => ?_) (fun _ he => he) (fun _ hv => hv)
          (fun hended => hended)
        · rcases List.mem_cons.mp hq with heq | hq
          · obtain ⟨rfl, rfl⟩ := Prod.mk.inj heq
            exact .inr (.inl ⟨_, List.mem_append_right _ (List.mem_singleton_self _), rfl⟩)
          · exact .inl hq
        · exact .inr (.inl ⟨t, List.mem_append_left _ ht, hid⟩)

/-- `zv` sends a pairing code. -/
theorem Wire.tell {port' : Port} {i : ℕ} {code : String} (htell : port.tell J i code = some port') :
    ∃ out', Wire J { w with port := some port' } queue out' ∧ ∀ id message,
      Whereabouts J port w.log queue out id message →
        Whereabouts J port' w.log queue out' id message := by
  have htaken := h.taken hport
  have hnodup := h.nodup hport
  unfold Port.tell at htell
  split at htell
  · rename_i v name hget
    cases htell
    obtain ⟨hi, hget⟩ := List.getElem?_eq_some_iff.mp hget
    have hids : (port.threads.set i ⟨v, .pair name, true⟩).map Thread.id =
        port.threads.map Thread.id := by
      have hsame := @List.set_getElem_self _ (port.threads.map Thread.id) i (by simpa)
      rw [List.getElem_map, hget] at hsame
      rwa [List.map_set]
    have hpair := htaken _ (hget ▸ List.getElem_mem hi)
    obtain ⟨id₀, rfl⟩ := hpair.num
    have htold : Wire J { w with port := some { port with
        threads := port.threads.set i ⟨.num id₀, .pair name, true⟩ } } queue out := by
      refine h.withPort _ (h.toHost port hport) (h.toBrowser port hport) h.fits h.small h.queued
        (fun t ht => ?_) h.out ?_
      · rcases List.mem_or_eq_of_mem_set ht with ht | rfl
        · exact htaken t ht
        · exact hpair
      · dsimp only
        rwa [hids]
    refine ⟨_, htold.send (.inr (.inl ⟨id₀, name, code, hpair, rfl⟩)), fun id message hwhere => ?_⟩
    refine hwhere.mono .inl (fun t ht hid => ?_) (fun _ he => he) (fun v hv => mem_sent hv)
      (fun hended => by simpa using hended)
    have hmem : t.id ∈ (port.threads.set i ⟨.num id₀, .pair name, true⟩).map Thread.id := by
      rw [hids]
      exact List.mem_map_of_mem ht
    obtain ⟨t', ht', hsame⟩ := List.mem_map.mp hmem
    exact .inr (.inl ⟨t', by simpa using ht', hsame.trans hid⟩)
  · cases htell

/-- A thread comes to an answer. -/
theorem Wire.answer {i : ℕ} {t : Thread} {answer : Answer} (ht : port.threads[i]? = some t)
    (hsuits : answer.suits t.message = true) :
    ∃ out', Wire J { w with
        port := some (Port.send J { port with threads := port.threads.eraseIdx i }
          (answer.toJson t.id))
        log := w.log ++ [.answered t.id t.message answer] } queue out' ∧ ∀ id message,
      Whereabouts J port w.log queue out id message →
        Whereabouts J (Port.send J { port with threads := port.threads.eraseIdx i }
          (answer.toJson t.id)) (w.log ++ [.answered t.id t.message answer]) queue out'
          id message := by
  have htaken := h.taken hport
  have hnodup := h.nodup hport
  obtain ⟨v, m, told⟩ := t
  obtain ⟨hi, hget⟩ := List.getElem?_eq_some_iff.mp ht
  have hperm : (⟨v, m, told⟩ :: port.threads.eraseIdx i).Perm port.threads :=
    hget ▸ List.getElem_cons_eraseIdx_perm hi
  have hthread : Taken w.log v m := htaken _ (hget ▸ List.getElem_mem hi)
  obtain ⟨id₀, rfl⟩ := hthread.num
  have hlog : ∀ e ∈ w.log, e ∈ w.log ++ [.answered (.num id₀) m answer] :=
    fun _ => List.mem_append_left _
  have hlast : Event.answered (.num id₀) m answer ∈ w.log ++ [.answered (.num id₀) m answer] :=
    List.mem_append_right _ (List.mem_singleton_self _)
  have hended : Wire J { w with
      port := some { port with threads := port.threads.eraseIdx i }
      log := w.log ++ [.answered (.num id₀) m answer] } queue out := {
    toHost := by
      rintro _ ⟨⟩
      exact h.toHost port hport
    toBrowser := by
      rintro _ ⟨⟩
      exact h.toBrowser port hport
    fits := h.fits
    small := h.small
    queued := fun q hq => hlog _ (h.queued q hq)
    threads := fun t ht => (htaken t (List.mem_of_mem_eraseIdx ht)).append _
    answers := fun v' m' a hmem => by
      rcases List.mem_append.mp hmem with hmem | hmem
      · obtain ⟨htaken, hsuits⟩ := h.answers v' m' a hmem
        exact ⟨htaken.append _, hsuits⟩
      · cases List.mem_singleton.mp hmem
        exact ⟨hthread.append _, hsuits⟩
    out := fun v hv => (h.out v hv).append _
    handled := by
      have hanswered : answeredIds (w.log ++ [.answered (.num id₀) m answer]) =
          answeredIds w.log ++ [.num id₀] := by
        simp [answeredIds]
      rw [hanswered, List.append_assoc]
      rw [List.append_assoc] at hnodup
      refine (List.Perm.append_left _ ?_).nodup_iff.mpr hnodup
      refine List.Perm.trans ?_ ((hperm.map Thread.id).append_right _)
      rw [← List.append_assoc]
      exact List.perm_append_singleton _ _ }
  have hsent := hended.send (w := { w with log := w.log ++ [.answered (.num id₀) m answer] })
    (.inr (.inr ⟨id₀, m, answer, hlast, rfl⟩))
  refine ⟨_, hsent, fun id message hwhere => ?_⟩
  refine hwhere.mono .inl (fun t' ht' hid => ?_) hlog (fun v hv => mem_sent hv)
    (fun hended => by simpa using hended)
  rcases List.mem_cons.mp (hperm.mem_iff.mpr ht') with rfl | ht'
  · -- the thread that ends has answered
    obtain rfl : id₀ = id := Int.ofNat_inj.mp (Value.num.inj hid)
    refine .inr (.inr (.inl ⟨m, answer, hlast, ?_⟩))
    by_cases hlarge : maxToBrowser < (J.write (answer.toJson (.num id₀))).length
    · exact .inr hlarge
    · rw [if_neg hlarge]
      exact .inl (List.mem_append_right _ (List.mem_singleton_self _))
  · exact .inr (.inl ⟨t', by simpa using ht', hid⟩)

end Whereabouts

end Zvault.NativeHost
