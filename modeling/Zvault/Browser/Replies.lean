import Mathlib.Logic.Relation
import Zvault.Browser.Wire

/-!
# Every request has its own answer

What holds between the extension and `zv` however their steps interleave: a request
is settled once, with what `zv` answered to that very message or with a failure of
the connection, and none is lost.
-/

namespace Zvault.NativeHost

open Frames Relation
open Json (Value)

variable {J : JsonText} {w w' : Channel} {port : Port} {id : ℕ} {r : Result} {log : List Event}
  {queue : List (ℕ × List (String × Value))} {out : List Value}

section Provenance

/-- What a request ends in is a failure of the connection or the answer of `zv` to that request, and
what it is told is the pairing code that it asked for. -/
structure Provenance (log : List Event) : Prop where
  settled : ∀ (id : ℕ) (r : Result), .settled id r ∈ log →
    r.isLocal ∨ ∃ m answer, .answered (.num id) m answer ∈ log ∧ r = answer.result (.num id)
  told : ∀ (id : ℕ) (v : Value), .told id v ∈ log →
    ∃ name code, Taken log (.num id) (.pair name) ∧ v = pairingCode (.num id) code

theorem Provenance.append (h : Provenance log) {e : Event}
    (hsettled : ∀ (id : ℕ) (r : Result), e = .settled id r →
      r.isLocal ∨ ∃ m answer, .answered (.num id) m answer ∈ log ∧ r = answer.result (.num id))
    (htold : ∀ (id : ℕ) (v : Value), e = .told id v →
      ∃ name code, Taken log (.num id) (.pair name) ∧ v = pairingCode (.num id) code) :
    Provenance (log ++ [e]) where
  settled id r hmem := by
    have hr : r.isLocal ∨
        ∃ m answer, .answered (.num id) m answer ∈ log ∧ r = answer.result (.num id) := by
      rcases List.mem_append.mp hmem with hmem | hmem
      · exact h.settled id r hmem
      · exact hsettled id r (List.mem_singleton.mp hmem).symm
    refine hr.imp_right ?_
    rintro ⟨m, answer, hanswered, hresult⟩
    exact ⟨m, answer, List.mem_append_left _ hanswered, hresult⟩
  told id v hmem := by
    have hv : ∃ name code, Taken log (.num id) (.pair name) ∧ v = pairingCode (.num id) code := by
      rcases List.mem_append.mp hmem with hmem | hmem
      · exact h.told id v hmem
      · exact htold id v (List.mem_singleton.mp hmem).symm
    obtain ⟨name, code, htaken, hcode⟩ := hv
    exact ⟨name, code, htaken.append e, hcode⟩

theorem Provenance.finish (h : Provenance w.log) (hr : r.isLocal ∨
    ∃ m answer, .answered (.num id) m answer ∈ w.log ∧ r = answer.result (.num id)) :
    Provenance (w.finish id r).log := by
  unfold Channel.finish
  split
  · exact h.append (by rintro _ _ ⟨⟩; exact hr) (by rintro _ _ ⟨⟩)
  · exact h

theorem Provenance.foldl_finish (h : Provenance w.log) (hr : r.isLocal) (ids : List ℕ) :
    Provenance (ids.foldl (fun w id => w.finish id r) w).log := by
  induction ids generalizing w with
  | nil => exact h
  | cons id ids ih => exact ih (h.finish (.inl hr))

end Provenance

section Sound

/-- A pending request is somewhere behind the port that is open. -/
def Located (J : JsonText) (w : Channel) (queue : List (ℕ × List (String × Value)))
    (out : List Value) (id : ℕ) : Prop :=
  ∃ port ∈ w.port, ∃ message, .requested id message ∈ w.log ∧
    Whereabouts J port w.log queue out id message

/-- What holds between the extension and `zv`. -/
structure Sound (J : JsonText) (w : Channel) : Prop where
  ledger : Ledger w
  provenance : Provenance w.log
  wire : ∃ queue out, Wire J w queue out ∧ ∀ id ∈ w.pending, Located J w queue out id

theorem Sound.idle (J : JsonText) : Sound J .idle where
  ledger := ⟨by rintro _ ⟨⟩, List.nodup_nil, .refl _, .nil⟩
  provenance := ⟨by rintro _ _ ⟨⟩, by rintro _ _ ⟨⟩⟩
  wire := ⟨[], [], ⟨by rintro _ ⟨⟩, by rintro _ ⟨⟩, by rintro _ ⟨⟩, by rintro _ ⟨⟩, by rintro _ ⟨⟩,
    by rintro _ ⟨⟩, by rintro _ _ _ ⟨⟩, by rintro _ ⟨⟩, List.nodup_nil⟩, by rintro _ ⟨⟩⟩

theorem Located.append {pending : List ℕ} {next : ℕ} (h : Located J w queue out id) (e : Event) :
    Located J { w with next := next, pending := pending, log := w.log ++ [e] } queue out id := by
  obtain ⟨port, hport, message, hrequested, hwhere⟩ := h
  refine ⟨port, hport, message, List.mem_append_left _ hrequested, ?_⟩
  exact hwhere.mono .inl (fun t ht hid => .inr (.inl ⟨t, ht, hid⟩))
    (fun _ => List.mem_append_left _) (fun _ hv => hv) fun hended => hended

/-- A request is settled: the others are where they were. -/
theorem Sound.finish (hledger : Ledger w) (hprovenance : Provenance w.log)
    (hwire : Wire J w queue out)
    (hlocated : ∀ id' ∈ w.pending, id' ≠ id → Located J w queue out id')
    (hr : r.isLocal ∨
      ∃ m answer, .answered (.num id) m answer ∈ w.log ∧ r = answer.result (.num id)) :
    Sound J (w.finish id r) := by
  refine ⟨hledger.finish id r, hprovenance.finish hr, queue, out, hwire.finish id r, ?_⟩
  unfold Channel.finish
  split
  · intro id' hid'
    have honce := List.Nodup.of_append_left hledger.nodup
    obtain ⟨hne, hid'⟩ := (List.Nodup.mem_erase_iff honce).mp hid'
    exact (hlocated id' hid' hne).append _
  · rename_i hid
    exact fun id' hid' => hlocated id' hid' fun hsame => hid (hsame ▸ hid')

theorem foldl_finish_pending (w : Channel) (r : Result) (ids : List ℕ) (hids : w.pending = ids) :
    (ids.foldl (fun w id => w.finish id r) w).pending = [] := by
  induction ids generalizing w with
  | nil => exact hids
  | cons id ids ih =>
    have hid : id ∈ w.pending := hids ▸ List.mem_cons_self
    have hrest : (w.finish id r).pending = ids := by
      rw [Channel.finish, if_pos hid, hids, List.erase_cons_head]
    exact ih _ hrest

theorem Sound.disconnect (h : Sound J w) (why : String) : Sound J (w.disconnect why) := by
  obtain ⟨queue, out, hwire, -⟩ := h.wire
  have hclosed := (hwire.close).foldl_finish (.lost why) w.pending
  refine ⟨?_, ?_, [], [], hclosed, fun id hid => ?_⟩
  · have hledger : Ledger { w with port := none } := ⟨h.ledger.next, h.ledger.once, h.ledger.split,
      h.ledger.order⟩
    exact hledger.foldl_finish _ _
  · exact Provenance.foldl_finish (w := { w with port := none }) h.provenance
      (.inr (.inr ⟨why, rfl⟩)) _
  · rw [Channel.disconnect, foldl_finish_pending _ _ _ rfl] at hid
    cases hid

/-- The id of a new request is not on the wire. -/
theorem Wire.fresh (hledger : Ledger w) (h : Wire J w queue out) :
    Value.num w.next ∉ queue.map (fun q => Value.num q.1) ++ w.threads.map Thread.id ++
      answeredIds w.log := by
  have hlt : ∀ id message, Event.requested id message ∈ w.log → id < w.next :=
    fun id message hmem => hledger.next id (mem_requestedIds.mpr ⟨message, hmem⟩)
  have htaken : ∀ m, ¬ Taken w.log (.num w.next) m := by
    rintro m ⟨id, message, hmem, hsame, -⟩
    obtain rfl : w.next = id := Int.ofNat_inj.mp (Value.num.inj hsame)
    exact lt_irrefl _ (hlt _ _ hmem)
  intro hmem
  rcases List.mem_append.mp hmem with hmem | hmem
  · rcases List.mem_append.mp hmem with hmem | hmem
    · obtain ⟨q, hq, hsame⟩ := List.mem_map.mp hmem
      have hid : q.1 = w.next := Int.ofNat_inj.mp (Value.num.inj hsame)
      exact lt_irrefl _ (hid ▸ hlt _ _ (h.queued q hq))
    · obtain ⟨t, ht, hsame⟩ := List.mem_map.mp hmem
      exact htaken _ (hsame ▸ h.threads t ht)
  · obtain ⟨m, answer, hanswered⟩ := mem_answeredIds.mp hmem
    exact htaken _ (h.answers _ m answer hanswered).1

/-- A request is posted to the port that is open, or settled at once. -/
theorem Sound.post (hledger : Ledger w) (hprovenance : Provenance w.log)
    (hwire : Wire J w queue out) (hport : w.port = some port)
    {message : List (String × Value)} (hrequested : .requested id message ∈ w.log)
    (hnew : .num id ∉ queue.map (fun q => Value.num q.1) ++ w.threads.map Thread.id ++
      answeredIds w.log)
    (hlocated : ∀ id' ∈ w.pending, id' ≠ id → Located J w queue out id') (posts : Bool) :
    Sound J (w.post J port id message posts) := by
  unfold Channel.post
  dsimp only
  split
  · rename_i hposts
    rw [Channel.threads_eq hport] at hnew
    refine ⟨⟨hledger.next, hledger.once, hledger.split, hledger.order⟩, hprovenance, _, _,
      hwire.post hport hrequested hposts.2 hnew, fun id' hid' => ?_⟩
    by_cases hsame : id' = id
    · subst hsame
      exact ⟨_, rfl, message, hrequested,
        .inl (List.mem_append_right _ (List.mem_singleton_self _))⟩
    · obtain ⟨port', hport', message', hmem, hwhere⟩ := hlocated id' hid' hsame
      obtain rfl : port = port' := Option.some_inj.mp (hport.symm.trans hport')
      exact ⟨_, rfl, message', hmem, hwhere.mono (fun hq => .inl (List.mem_append_left _ hq))
        (fun t ht hid => .inr (.inl ⟨t, ht, hid⟩)) (fun _ he => he) (fun _ hv => hv)
        fun hended => hended⟩
  · have hsame : ({ w with port := some port } : Channel) = w := by rw [← hport]
    rw [hsame]
    exact Sound.finish hledger hprovenance hwire hlocated (.inl (.inr (.inl rfl)))

theorem Sound.request (h : Sound J w) (message : List (String × Value)) (connects posts : Bool) :
    Sound J (w.request J message connects posts) := by
  obtain ⟨queue, out, hwire, hlocated⟩ := h.wire
  have hledger := h.ledger.requests message
  have hprovenance : Provenance (w.log ++ [.requested w.next message]) :=
    h.provenance.append (by rintro _ _ ⟨⟩) (by rintro _ _ ⟨⟩)
  have hnoted := hwire.note (e := .requested w.next message) rfl (w.pending ++ [w.next])
    (w.next + 1)
  have hrequested : Event.requested w.next message ∈ w.log ++ [.requested w.next message] :=
    List.mem_append_right _ (List.mem_singleton_self _)
  have hothers : ∀ id' ∈ w.pending ++ [w.next], id' ≠ w.next → Located J { w with
      next := w.next + 1
      pending := w.pending ++ [w.next]
      log := w.log ++ [.requested w.next message] } queue out id' := by
    intro id' hid' hne
    rcases List.mem_append.mp hid' with hid' | hid'
    · exact (hlocated id' hid').append _
    · exact absurd (List.mem_singleton.mp hid') hne
  have hanswered : answeredIds (w.log ++ [.requested w.next message]) = answeredIds w.log := by
    simp [answeredIds]
  have hfresh := hwire.fresh h.ledger
  unfold Channel.request
  dsimp only
  split
  · rename_i port hport
    refine Sound.post hledger hprovenance hnoted hport hrequested ?_ hothers posts
    rw [hanswered]
    exact hfresh
  · rename_i hport
    have hnobody : ∀ id' ∈ w.pending, False := by
      intro id' hid'
      obtain ⟨port, hport', -⟩ := hlocated id' hid'
      rw [hport] at hport'
      cases hport'
    split
    · refine Sound.post (w := { w with
          port := some .opened
          next := w.next + 1
          pending := w.pending ++ [w.next]
          log := w.log ++ [.requested w.next message] })
        ⟨hledger.next, hledger.once, hledger.split, hledger.order⟩ hprovenance hnoted.openPort rfl
        hrequested (fun hmem => hfresh ?_) (fun id' hid' hne => ?_) posts
      · refine List.mem_append_right _ ?_
        rw [← hanswered]
        exact hmem
      · rcases List.mem_append.mp hid' with hid' | hid'
        · exact (hnobody id' hid').elim
        · exact absurd (List.mem_singleton.mp hid') hne
    · exact Sound.finish hledger hprovenance hnoted hothers (.inl (.inr (.inl rfl)))

/-- The port is in another state, with nothing new in the history. -/
theorem Sound.withPort (h : Sound J w) (hport : w.port = some port) {port' : Port}
    (hstep : ∀ queue out, Wire J w queue out →
      ∃ queue' out', Wire J { w with port := some port' } queue' out' ∧ ∀ id message,
        Whereabouts J port w.log queue out id message →
          Whereabouts J port' w.log queue' out' id message) :
    Sound J { w with port := some port' } := by
  obtain ⟨queue, out, hwire, hlocated⟩ := h.wire
  obtain ⟨queue', out', hwire', hkept⟩ := hstep queue out hwire
  refine ⟨⟨h.ledger.next, h.ledger.once, h.ledger.split, h.ledger.order⟩, h.provenance, queue',
    out', hwire', fun id hid => ?_⟩
  obtain ⟨port₀, hport₀, message, hrequested, hwhere⟩ := hlocated id hid
  obtain rfl : port = port₀ := Option.some_inj.mp (hport.symm.trans hport₀)
  exact ⟨port', rfl, message, hrequested, hkept id message hwhere⟩

theorem Sound.answer (h : Sound J w) (hport : w.port = some port) {i : ℕ} {t : Thread}
    {answer : Answer} (ht : port.threads[i]? = some t) (hsuits : answer.suits t.message = true) :
    Sound J { w with
      port := some (Port.send J { port with threads := port.threads.eraseIdx i }
        (answer.toJson t.id))
      log := w.log ++ [.answered t.id t.message answer] } := by
  obtain ⟨queue, out, hwire, hlocated⟩ := h.wire
  obtain ⟨out', hwire', hkept⟩ := hwire.answer hport ht hsuits
  refine ⟨h.ledger.note rfl rfl (by rintro _ ⟨⟩) _,
    h.provenance.append (by rintro _ _ ⟨⟩) (by rintro _ _ ⟨⟩), queue, out', hwire',
    fun id hid => ?_⟩
  obtain ⟨port₀, hport₀, message, hrequested, hwhere⟩ := hlocated id hid
  obtain rfl : port = port₀ := Option.some_inj.mp (hport.symm.trans hport₀)
  exact ⟨_, rfl, message, List.mem_append_left _ hrequested, hkept id message hwhere⟩

theorem Sound.told (h : Sound J w) (hid : id ∈ w.pending) {name : Option String} {code : String}
    (htaken : Taken w.log (.num id) (.pair name)) :
    Sound J { w with log := w.log ++ [.told id (pairingCode (.num id) code)] } := by
  obtain ⟨queue, out, hwire, hlocated⟩ := h.wire
  refine ⟨h.ledger.note rfl rfl ?_ w.port, h.provenance.append (by rintro _ _ ⟨⟩) ?_, queue, out,
    hwire.note rfl w.pending w.next, fun id' hid' => (hlocated id' hid').append _⟩
  · rintro _ ⟨⟩
    exact h.ledger.not_settled hid
  · rintro _ _ ⟨⟩
    exact ⟨name, code, htaken, rfl⟩

/-- The extension receives what `zv` sent first of what it has not received. -/
theorem Sound.receive (h : Sound J w) (hport : w.port = some port) {content rest : List UInt8}
    {v : Value} (hfront : front u32le maxToBrowser port.arrived = .whole content rest)
    (hjson : J.read content = some v) :
    Sound J (Channel.receive { w with port := some { port with arrived := rest } } v) := by
  obtain ⟨queue, out, hwire, hlocated⟩ := h.wire
  obtain ⟨texts, htexts, -, hrest⟩ := front_eq_whole hwire.small (hwire.toBrowser port hport) hfront
  obtain ⟨v', out', rfl, rfl, rfl⟩ := List.map_eq_cons_iff.mp htexts
  obtain rfl := J.eq_of_read hjson
  have htaken := hwire.taken hport
  have hnodup := hwire.nodup hport
  have hpopped : Wire J { w with port := some { port with arrived := rest } } queue out' :=
    hwire.withPort _ (hwire.toHost port hport) hrest hwire.fits
      (fun text htext => hwire.small text (List.mem_cons_of_mem _ htext)) hwire.queued htaken
      (fun v' hv' => hwire.out v' (List.mem_cons_of_mem _ hv')) hnodup
  have hledger : Ledger { w with port := some { port with arrived := rest } } :=
    ⟨h.ledger.next, h.ledger.once, h.ledger.split, h.ledger.order⟩
  have hothers : ∀ id' ∈ w.pending, (∀ answer, Answer.toJson (.num id') answer ≠ v) →
      Located J { w with port := some { port with arrived := rest } } queue out' id' := by
    intro id' hid' hne
    obtain ⟨port₀, hport₀, message, hrequested, hwhere⟩ := hlocated id' hid'
    obtain rfl : port = port₀ := Option.some_inj.mp (hport.symm.trans hport₀)
    refine ⟨_, rfl, message, hrequested, ?_⟩
    rcases hwhere with hq | hthread | ⟨m, answer, hanswered, hsent⟩ | hnever
    · exact .inl hq
    · exact .inr (.inl hthread)
    · refine .inr (.inr (.inl ⟨m, answer, hanswered, hsent.imp_left fun hmem => ?_⟩))
      exact (List.mem_cons.mp hmem).resolve_left (hne answer)
    · exact .inr (.inr (.inr hnever))
  rcases hwire.out v List.mem_cons_self with rfl | ⟨id, name, code, hpair, rfl⟩ |
    ⟨id, m, answer, hanswered, rfl⟩
  · rw [receive_unreadable]
    refine ⟨hledger, h.provenance, queue, out', hpopped, fun id' hid' => hothers id' hid' ?_⟩
    intro answer hsame
    have hid := congrArg (Value.get "id") hsame
    rw [answer.get_id] at hid
    cases hid
  · have hsound : Sound J { w with port := some { port with arrived := rest } } := by
      refine ⟨hledger, h.provenance, queue, out', hpopped, fun id' hid' => hothers id' hid' ?_⟩
      intro answer hsame
      have hevent := congrArg (Value.get "event") hsame
      rw [answer.get_event] at hevent
      cases hevent
    rw [receive_pairingCode]
    split
    · rename_i hid
      exact hsound.told hid hpair
    · exact hsound
  · rw [receive_answer]
    refine Sound.finish hledger h.provenance hpopped (fun id' hid' hne => hothers id' hid' ?_)
      (.inr ⟨m, answer, hanswered, rfl⟩)
    intro answer' hsame
    have hid := congrArg (Value.get "id") hsame
    rw [answer.get_id, answer'.get_id] at hid
    exact hne (Int.ofNat_inj.mp (Value.num.inj (Option.some_inj.mp hid)))

theorem Sound.act (h : Sound J w) {a : Action} (hact : w.act J a = some w') : Sound J w' := by
  cases a with
  | request message connects posts =>
    cases hact
    exact h.request message connects posts
  | timeout id =>
    obtain ⟨queue, out, hwire, hlocated⟩ := h.wire
    unfold Channel.act at hact
    dsimp only at hact
    split at hact
    · cases hact
      exact Sound.finish h.ledger h.provenance hwire (fun id' hid' _ => hlocated id' hid')
        (.inl (.inl rfl))
    · cases hact
  | disconnect why =>
    obtain ⟨port, -, rfl⟩ := Option.map_eq_some_iff.mp hact
    exact h.disconnect why
  | arriveAtHost n =>
    obtain ⟨port, hport, rfl⟩ := Option.map_eq_some_iff.mp hact
    refine h.withPort hport fun queue out hwire => ⟨queue, out, hwire.arriveAtHost hport n, ?_⟩
    exact fun _ _ hwhere => hwhere
  | arriveAtBrowser n =>
    obtain ⟨port, hport, rfl⟩ := Option.map_eq_some_iff.mp hact
    refine h.withPort hport fun queue out hwire => ⟨queue, out, hwire.arriveAtBrowser hport n, ?_⟩
    exact fun _ _ hwhere => hwhere
  | read =>
    obtain ⟨port, hport, hact⟩ := Option.bind_eq_some_iff.mp hact
    obtain ⟨port', hread, rfl⟩ := Option.map_eq_some_iff.mp hact
    exact h.withPort hport fun queue out hwire => hwire.read hport hread
  | tell i code =>
    obtain ⟨port, hport, hact⟩ := Option.bind_eq_some_iff.mp hact
    obtain ⟨port', htell, rfl⟩ := Option.map_eq_some_iff.mp hact
    refine h.withPort hport fun queue out hwire => ?_
    obtain ⟨out', hwire', hkept⟩ := hwire.tell hport htell
    exact ⟨queue, out', hwire', hkept⟩
  | answer i answer =>
    obtain ⟨port, hport, hact⟩ := Option.bind_eq_some_iff.mp hact
    obtain ⟨t, ht, hact⟩ := Option.bind_eq_some_iff.mp hact
    split at hact
    · rename_i hsuits
      cases hact
      exact h.answer hport ht hsuits.2
    · cases hact
  | receive =>
    obtain ⟨port, hport, hact⟩ := Option.bind_eq_some_iff.mp hact
    split at hact
    · rename_i content rest hfront
      obtain ⟨v, hjson, rfl⟩ := Option.map_eq_some_iff.mp hact
      exact h.receive hport hfront hjson
    · cases hact

/-- What may be come to, in any order. -/
def Reaches (J : JsonText) : Channel → Channel → Prop :=
  ReflTransGen fun w w' => ∃ a, w.act J a = some w'

theorem sound_of_reaches (h : Reaches J .idle w) : Sound J w := by
  induction h with
  | refl => exact .idle J
  | tail _ hstep ih =>
    obtain ⟨a, hact⟩ := hstep
    exact ih.act hact

/-- **Every request has its own answer.** In every run of the extension, of `zv` and of the bytes
between them, a request has an id of its own and is either pending or settled, once, and nothing
happens to it after. `zv` comes to at most one answer for it. What it is settled with is a failure
of the connection, or what `zv` answered to the message of that request, with a reply of its kind;
and what it is told before is the pairing code that it asked for. None is lost: while it is
pending, its frame is on the way to `zv`, or a thread of `zv` has it, or its answer is on the way
back, unless it could not be read, its answer was too large, or `zv` has ended. -/
theorem requests_answered_once (hrun : Reaches J .idle w) :
    (requestedIds w.log).Nodup ∧ (requestedIds w.log).Perm (w.pending ++ settledIds w.log) ∧
    w.log.Pairwise Before ∧ (answeredIds w.log).Nodup ∧
    (∀ id r, .settled id r ∈ w.log → r.isLocal ∨ ∃ message m answer,
      .requested id message ∈ w.log ∧ readEnvelope (posted id message) = some (.num id, m) ∧
      .answered (.num id) m answer ∈ w.log ∧ answer.suits m = true ∧
      r = answer.result (.num id)) ∧
    (∀ id v, .told id v ∈ w.log → ∃ message name code, .requested id message ∈ w.log ∧
      readEnvelope (posted id message) = some (.num id, .pair name) ∧
      v = pairingCode (.num id) code) ∧
    ∃ queue out, Wire J w queue out ∧ ∀ id ∈ w.pending, Located J w queue out id := by
  obtain ⟨hledger, hprovenance, queue, out, hwire, hlocated⟩ := sound_of_reaches hrun
  refine ⟨hledger.once, hledger.split, hledger.order,
    (List.sublist_append_right _ _).nodup hwire.handled, fun id r hr => ?_, fun id v hv => ?_,
    queue, out, hwire, hlocated⟩
  · refine (hprovenance.settled id r hr).imp_right ?_
    rintro ⟨m, answer, hanswered, hresult⟩
    obtain ⟨⟨id', message, hrequested, hsame, henvelope⟩, hsuits⟩ :=
      hwire.answers _ m answer hanswered
    obtain rfl : id = id' := Int.ofNat_inj.mp (Value.num.inj hsame)
    exact ⟨message, m, answer, hrequested, henvelope, hanswered, hsuits, hresult⟩
  · obtain ⟨name, code, ⟨id', message, hrequested, hsame, henvelope⟩, hcode⟩ :=
      hprovenance.told id v hv
    obtain rfl : id = id' := Int.ofNat_inj.mp (Value.num.inj hsame)
    exact ⟨message, name, code, hrequested, henvelope, hcode⟩

/-- JSON text in UTF-8, which reads back the values that are in use. -/
def textOf (known : List Value) : JsonText where
  write := Value.toUtf8
  read text := known.find? fun v => v.toUtf8 = text
  eq_of_read h := by
    have hsame := List.find?_some h
    exact Json.toUtf8_inj (of_decide_eq_true hsame)

/-- Things that happen one after another. -/
def acts (J : JsonText) (w : Channel) : List Action → Option Channel
  | [] => some w
  | a :: as => (w.act J a).bind fun w => acts J w as

theorem reaches_of_acts {as : List Action} (h : acts J w as = some w') : Reaches J w w' := by
  induction as generalizing w with
  | nil =>
    obtain rfl : w = w' := Option.some_inj.mp h
    exact .refl
  | cons a as ih =>
    obtain ⟨v, hact, hacts⟩ := Option.bind_eq_some_iff.mp h
    exact .head ⟨a, hact⟩ (ih hacts)

/-- What requests were told and what they were settled with, as text. -/
def shown (log : List Event) : List (ℕ × List Char) :=
  log.filterMap fun
    | .told id v | .settled id (.ok v) => some (id, v.text)
    | _ => none

def pairMessage : List (String × Value) := [("type", .str "pair"), ("name", .str "Chrome")]

def statusMessage : List (String × Value) := [("type", .str "status")]

def showsCode : Value := pairingCode (.num 1) "417 265"

def pairAnswer : Answer := .ok (.paired "Chrome")

def statusAnswer : Answer := .ok (.status true false false none)

def inUse : JsonText :=
  textOf [posted 1 pairMessage, posted 2 statusMessage, showsCode, pairAnswer.toJson (.num 1),
    statusAnswer.toJson (.num 2)]

/-- Two requests at once, whose frames arrive in pieces. The second is answered while the code of
the first is shown. -/
def exchange : List Action :=
  [.request pairMessage true true, .request statusMessage true true, .arriveAtHost 20,
    .arriveAtHost 50, .read, .tell 0 "417 265", .read, .arriveAtBrowser 30,
    .answer 1 statusAnswer, .arriveAtBrowser 100, .receive, .receive, .answer 0 pairAnswer,
    .arriveAtBrowser 52, .receive]

theorem requests_answered_once_exchange : ∃ w, Reaches inUse .idle w ∧ w.pending = [] ∧
    shown w.log = [(1, showsCode.text), (2, (statusAnswer.toJson (.num 2)).text),
      (1, (pairAnswer.toJson (.num 1)).text)] ∧
    (requestedIds w.log).Perm (w.pending ++ settledIds w.log) ∧ (answeredIds w.log).Nodup := by
  have hran : (acts inUse .idle exchange).map (fun w => (w.pending, shown w.log)) =
      some ([], [(1, showsCode.text), (2, (statusAnswer.toJson (.num 2)).text),
        (1, (pairAnswer.toJson (.num 1)).text)]) := by decide +kernel
  obtain ⟨w, hacts, hw⟩ := Option.map_eq_some_iff.mp hran
  have hrun := reaches_of_acts hacts
  obtain ⟨-, hsplit, -, honce, -⟩ := requests_answered_once hrun
  exact ⟨w, hrun, congrArg Prod.fst hw, congrArg Prod.snd hw, hsplit, honce⟩

end Sound

end Zvault.NativeHost
