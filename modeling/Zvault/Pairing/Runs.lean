import Zvault.Pairing.Safety

/-!
# Any number of requests to add phones

Every step that finds the pairings in order keeps them so: a waiting `approve`
relies on its pairing having no session yet, or the one it has issued.
-/

namespace Zvault

open Relational Concurrent

section Runs

variable {hashClaim : String → ℕ} {db db' : PairingDb} {now : Timestamp} {L : PairingLife}

theorem PairingPhase.of_issuing (h : PairingPhase now L) (hsessions : L.sessions = [])
    (happroving : L.approving = 1) : ∃ r c, r.status = .claimed ∧ now < r.expiresAt ∧
      L = ⟨some r, [(r.id, r.expiresAt)], [], [c], false, [], 1⟩ := by
  cases h <;> simp_all

theorem PairingPhase.of_issued {s : PairedSession} (h : PairingPhase now L)
    (hsessions : L.sessions = [s]) (happroving : L.approving = 1) :
    ∃ r c, r.status = .claimed ∧ now < r.expiresAt ∧
      L = ⟨some r, [(r.id, r.expiresAt)], [s], [c], false, [], 1⟩ := by
  cases h <;> simp_all

/-- The pairing whose `approve` waits. -/
def PairingTask.approves : PairingTask → Option Uuid
  | .received _ => none
  | .issuing s => some s.pairingId
  | .issued s => some s.pairingId

/-- What a waiting `approve` relies on. -/
def PairingTask.Waits (db : PairingDb) : PairingTask → Prop
  | .received _ => True
  | .issuing s => (db.life s.pairingId).sessions = [] ∧ (db.life s.pairingId).approving = 1
  | .issued s => (db.life s.pairingId).sessions = [s] ∧ (db.life s.pairingId).approving = 1

/-- Two tasks do not wait for the same pairing. -/
def PairingTask.Apart (t u : PairingTask) : Prop := ∀ id, t.approves = some id → u.approves ≠ some id

/-- Dropping expired pairings does not put a step out of order. -/
theorem PairingOrderly.dropped {task : PairingTask} (h : PairingOrderly db task)
    (hdropped : Dropped db db') : PairingOrderly db' task := by
  obtain ⟨heq, hfind⟩ := hdropped
  have hmem : ∀ r ∈ db'.pairings, r ∈ db.pairings := by
    intro r hr
    have hr' : db'.pairings.find r.id = some r := Table.find_eq_some.mpr ⟨hr, rfl⟩
    rcases hfind r.id with hsame | ⟨x, -, -, hnone⟩
    · rw [hsame] at hr'
      exact (Table.find_eq_some.mp hr').1
    · rw [hnone] at hr'
      cases hr'
  have happroving : db'.approving = db.approving := by rw [heq]
  have hnow : db'.now = db.now := by rw [heq]
  cases task with
  | received request =>
    cases request with
    | approve userId id grant =>
      intro r hr
      rw [happroving]
      exact h r (hmem r hr)
    | deny userId id =>
      intro r hr
      rw [happroving]
      exact h r (hmem r hr)
    | clock now =>
      intro r hr hended
      rw [hnow] at hended
      rw [happroving]
      exact h r (hmem r hr) hended
    | _ => trivial
  | _ => trivial

/-- Only a waiting `approve` adds sessions, and only `approve` starts to wait. -/
theorem Effect.held {request : PairingRequest} {next : Option PairingTask}
    (h : Effect db request db' next) : db'.sessions = db.sessions ∧
      ((db'.approving = db.approving ∧ next = none) ∨ ∃ r s grant,
        db.pairings.find r.id = some r ∧ r.status = .claimed ∧
        request = .approve r.userId r.id grant ∧ s.pairingId = r.id ∧ next = some (.issuing s) ∧
        db'.approving = r.id :: db.approving) := by
  cases h with
  | approve grant s r hfind hstatus hlive hsession =>
    exact ⟨rfl, Or.inr ⟨r, s, grant, hfind, hstatus, rfl, hsession, rfl, rfl⟩⟩
  | _ => exact ⟨rfl, Or.inl ⟨rfl, rfl⟩⟩

/-- What a waiting `approve` relies on, from what concerns its pairing. -/
theorem PairingTask.Waits.congr {task : PairingTask} (h : task.Waits db)
    (hsame : ∀ id, task.approves = some id →
      (db'.life id).sessions = (db.life id).sessions ∧
        (db'.life id).approving = (db.life id).approving) : task.Waits db' := by
  cases task with
  | received => trivial
  | issuing s =>
    obtain ⟨hsessions, happroving⟩ := hsame s.pairingId rfl
    exact ⟨hsessions.trans h.1, happroving.trans h.2⟩
  | issued s =>
    obtain ⟨hsessions, happroving⟩ := hsame s.pairingId rfl
    exact ⟨hsessions.trans h.1, happroving.trans h.2⟩

/-- The pairing of a waiting `approve` is marked. -/
theorem PairingTask.Waits.mem_approving {task : PairingTask} {id : Uuid} (h : task.Waits db)
    (hid : task.approves = some id) : id ∈ db.approving := by
  have hcount : db.approving.count id = 1 := by
    cases task with
    | received => cases hid
    | issuing s =>
      obtain rfl := Option.some_inj.mp hid
      exact h.2
    | issued s =>
      obtain rfl := Option.some_inj.mp hid
      exact h.2
  exact List.count_pos_iff.mp (by omega)

/-- The session is issued, or issuing it fails. -/
theorem PairingPhase.proceed_issuing {s : PairedSession} {token : Option SessionToken}
    {next : Option PairingTask} (hphase : ∀ id, PairingPhase db.now (db.life id))
    (hwaits : (PairingTask.issuing s).Waits db)
    (h : (PairingTask.issuing s).proceed hashClaim db token = (db', next)) (p : Uuid) :
    PairingPhase db'.now (db'.life p) := by
  obtain ⟨r, c, hstatus, hlive, hlife⟩ := (hphase s.pairingId).of_issuing hwaits.1 hwaits.2
  obtain ⟨hrecord, hcreated, hsessions, hclaims, hdenied, hresults, happroving⟩ :=
    PairingLife.mk.inj hlife
  cases token with
  | none =>
    obtain ⟨rfl, -⟩ := Prod.mk.inj h
    by_cases hp : s.pairingId = p
    · subst hp
      simp only [PairingDb.life, List.count_erase_self, hrecord, hcreated, hsessions, hclaims,
        hdenied, hresults, happroving]
      exact .claimed r c hstatus
    · refine (hphase p).congr rfl rfl rfl rfl rfl rfl rfl ?_
      exact List.count_erase_of_ne (Ne.symm hp)
  | some token =>
    obtain ⟨rfl, -⟩ := Prod.mk.inj h
    by_cases hp : s.pairingId = p
    · subst hp
      simp only [PairingDb.life, List.filter_cons, decide_true, if_true, hrecord, hcreated,
        hsessions, hclaims, hdenied, hresults, happroving]
      exact .issued r c _ hstatus hlive
    · refine (hphase p).congr rfl rfl rfl ?_ rfl rfl rfl rfl
      simp [hp]

/-- The approval is stored. -/
theorem PairingPhase.proceed_issued {s : PairedSession}
    (hphase : ∀ id, PairingPhase db.now (db.life id)) (hwaits : (PairingTask.issued s).Waits db)
    (p : Uuid) : PairingPhase (PairingService.approved db s).now
      ((PairingService.approved db s).life p) := by
  obtain ⟨r, c, hstatus, hlive, hlife⟩ := (hphase s.pairingId).of_issued hwaits.1 hwaits.2
  obtain ⟨hrecord, hcreated, hsessions, hclaims, hdenied, hresults, happroving⟩ :=
    PairingLife.mk.inj hlife
  by_cases hp : s.pairingId = p
  · subst hp
    simp only [PairingService.approved, PairingDb.life, find_changeRecord, Option.map_some,
      List.count_erase_self, hrecord, hcreated, hsessions, hclaims, hdenied, hresults, happroving]
    exact .approved { r with
      status := .approved, grant := some s.grant, sessionToken := some s.token
      sessionExpiresAt := some s.expiresAt } c s rfl rfl rfl rfl hlive
  · refine (hphase p).congr rfl ?_ rfl rfl rfl rfl rfl ?_
    · simp only [PairingService.approved]
      rw [find_changeRecord_of_ne _ hp]
    · exact List.count_erase_of_ne (Ne.symm hp)

/-- What a step leaves behind: the pairings in order, what the next step relies on, what other
waiting `approve`s rely on, and a task that waits for no pairing another one waits for. -/
structure Led (task : PairingTask) (db db' : PairingDb) (next : Option PairingTask) : Prop where
  phase : ∀ id, PairingPhase db'.now (db'.life id)
  waits : ∀ t ∈ next, t.Waits db'
  same : ∀ id, task.approves ≠ some id → id ∈ db.approving →
    (db'.life id).sessions = (db.life id).sessions ∧
      (db'.life id).approving = (db.life id).approving
  apart : ∀ t ∈ next, ∀ id, t.approves = some id → task.approves = some id ∨ id ∉ db.approving

/-- A request, or the first step of `approve`. -/
theorem led_received {request : PairingRequest} {next : Option PairingTask}
    (horderly : PairingOrderly db (.received request))
    (hnew : ∀ userId claimToken id, request = .create userId claimToken id →
      ∀ expiresAt, (id, expiresAt) ∉ db.created)
    (hphase : ∀ id, PairingPhase db.now (db.life id))
    (h : request.serve hashClaim db = (db', next)) : Led (.received request) db db' next := by
  obtain ⟨db₁, hdropped, heffect⟩ := serve_cases h
  have horderly₁ := horderly.dropped hdropped
  have hphase₁ : ∀ id, PairingPhase db₁.now (db₁.life id) := fun id => (hphase id).dropped hdropped
  have hcreated : db₁.created = db.created := by rw [hdropped.eq]
  have hsessions₁ : db₁.sessions = db.sessions := by rw [hdropped.eq]
  have happroving₁ : db₁.approving = db.approving := by rw [hdropped.eq]
  have hphase' := heffect.phase horderly₁ (by rwa [hcreated]) hphase₁
  obtain ⟨hsessions, hnone | ⟨r, s, grant, hfind, hstatus, rfl, hs, rfl, happroving⟩⟩ := heffect.held
  · obtain ⟨happroving, rfl⟩ := hnone
    refine ⟨hphase', nofun, fun id _ _ => ?_, nofun⟩
    simp only [PairingDb.life, hsessions, happroving, hsessions₁, happroving₁, and_self]
  · have hfree : r.id ∉ db₁.approving := horderly₁ r (Table.find_eq_some.mp hfind).1 rfl rfl
    obtain ⟨c, hlife⟩ := (hphase₁ r.id).of_claimed hfind hstatus (List.count_eq_zero.mpr hfree)
    refine ⟨hphase', fun t ht => ?_, fun id _ hid => ?_, fun t ht id hid => Or.inr ?_⟩
    · obtain rfl := Option.some_inj.mp ht
      have hempty : (db₁.life r.id).sessions = [] := congrArg PairingLife.sessions hlife
      have hcount : (db₁.life r.id).approving = 0 := congrArg PairingLife.approving hlife
      simp only [PairingDb.life] at hempty hcount
      simp only [PairingTask.Waits, PairingDb.life, hs, hsessions, happroving, List.count_cons_self,
        hempty, hcount, and_self]
    · have hne : r.id ≠ id := by
        rintro rfl
        exact hfree (by rwa [happroving₁])
      simp only [PairingDb.life, hsessions, happroving, hsessions₁, happroving₁,
        List.count_cons_of_ne hne, and_self]
    · obtain rfl := Option.some_inj.mp ht
      obtain rfl : s.pairingId = id := Option.some_inj.mp hid
      rwa [hs, ← happroving₁]

/-- A step that finds the pairings in order keeps them so. -/
theorem led {task : PairingTask} {next : Option PairingTask}
    (h : ((pairingProgram hashClaim).when PairingOrderly).act db task db' next)
    (hphase : ∀ id, PairingPhase db.now (db.life id)) (hwaits : task.Waits db) :
    Led task db db' next := by
  obtain ⟨horderly, hnew, token, hproceed⟩ := h
  cases task with
  | received request =>
    exact led_received horderly (fun userId claimToken id heq => hnew _ _ _ (by rw [heq])) hphase
      hproceed
  | issuing s =>
    have hphase' := PairingPhase.proceed_issuing hphase hwaits hproceed
    cases token with
    | none =>
      obtain ⟨rfl, rfl⟩ := Prod.mk.inj hproceed
      refine ⟨hphase', nofun, fun id hid _ => ⟨rfl, ?_⟩, nofun⟩
      exact List.count_erase_of_ne fun heq => hid (by rw [heq]; rfl)
    | some token =>
      obtain ⟨rfl, rfl⟩ := Prod.mk.inj hproceed
      refine ⟨hphase', fun t ht => ?_, fun id hid _ => ⟨?_, rfl⟩, fun t ht id hid => Or.inl ?_⟩
      · obtain rfl := Option.some_inj.mp ht
        have hempty := hwaits.1
        simp only [PairingDb.life] at hempty
        refine ⟨?_, hwaits.2⟩
        simp [PairingDb.life, hempty]
      · have hne : s.pairingId ≠ id := fun heq => hid (congrArg some heq)
        simp [PairingDb.life, hne]
      · obtain rfl := Option.some_inj.mp ht
        exact hid
  | issued s =>
    obtain ⟨rfl, rfl⟩ := Prod.mk.inj hproceed
    refine ⟨PairingPhase.proceed_issued hphase hwaits, nofun, fun id hid _ => ⟨rfl, ?_⟩, nofun⟩
    exact List.count_erase_of_ne fun heq => hid (by rw [heq]; rfl)

/-- The pairings stay in order, whatever requests run. -/
theorem pairing_outline (hashClaim : String → ℕ) :
    Outline ((pairingProgram hashClaim).when PairingOrderly)
      (fun db => ∀ id, PairingPhase db.now (db.life id)) (fun db task => task.Waits db)
      PairingTask.Apart where
  start {db task} _ hstart := by
    obtain ⟨request, rfl⟩ := hstart
    trivial
  starts_apart {db task other} _ hstart _ := by
    obtain ⟨request, rfl⟩ := hstart
    exact nofun
  keeps hinv hwaits hact := (led hact hinv hwaits).phase
  leads hinv hwaits hact := (led hact hinv hwaits).waits _ rfl
  leads_apart {db task db' next other} hinv hwaits hother hapart hact := by
    intro id hid hother'
    rcases (led hact hinv hwaits).apart next rfl id hid with hsame | hfree
    · exact hapart id hsame hother'
    · exact hfree (hother.mem_approving hother')
  free {db task db' next other} hinv hwaits hother hapart hact := by
    refine hother.congr fun id hid => (led hact hinv hwaits).same id (fun hsame => ?_)
      (hother.mem_approving hid)
    exact hapart id hsame hid
  symm {task other} hapart id hid hother := hapart id hother hid

end Runs

/-- What a pairing promises: one session, one phone, one answer, the approving device's grant and
in time, and nothing of a pairing that was denied or ended before the phone collected it. -/
structure PairingSafe (db : PairingDb) (id : Uuid) : Prop where
  oneSession : (db.sessions.filter fun s => s.pairingId = id).length ≤ 1
  onePhone : (db.claims.filter fun c => c.1 = id).length ≤ 1
  oneResult : (db.results.filter fun x => x.1 = id).length ≤ 1
  ownGrant : ∀ time token expiresAt grant, (id, time, .approved token expiresAt grant) ∈ db.results →
    ∃ s ∈ db.sessions, s.pairingId = id ∧ s.token = token ∧ s.expiresAt = expiresAt ∧ s.grant = grant
  inTime : ∀ time token expiresAt grant, (id, time, .approved token expiresAt grant) ∈ db.results →
    ∀ e, (id, e) ∈ db.created → time < e
  denied : id ∈ db.denials → ∀ s ∈ db.sessions, s.pairingId ≠ id
  ended : ∀ e, (id, e) ∈ db.created → e ≤ db.now →
    (∀ time token expiresAt grant, (id, time, .approved token expiresAt grant) ∉ db.results) →
    ∀ s ∈ db.sessions, s.pairingId ≠ id

section Safe

variable {hashClaim : String → ℕ} {db : PairingDb} {tasks : List PairingTask} {id : Uuid}

/-- A life in a phase is safe. -/
theorem PairingPhase.safe {now : Timestamp} {L : PairingLife} (h : PairingPhase now L) :
    L.sessions.length ≤ 1 ∧ L.claims.length ≤ 1 ∧ L.results.length ≤ 1 ∧
      (∀ x ∈ L.results, ∀ token expiresAt grant, x.2.2 = .approved token expiresAt grant →
        (∃ s ∈ L.sessions, s.token = token ∧ s.expiresAt = expiresAt ∧ s.grant = grant) ∧
        ∀ e ∈ L.created, x.2.1 < e.2) ∧
      (L.denied = true → L.sessions = []) ∧
      ∀ e ∈ L.created, e.2 ≤ now → (∀ x ∈ L.results, x.2.2 = .denied) → L.sessions = [] := by
  cases h <;> simp_all

/-- In order, every pairing is safe. -/
theorem safe_of_phase (h : PairingPhase db.now (db.life id)) : PairingSafe db id := by
  obtain ⟨hsession, hphone, hresult, hgrant, hdenied, hended⟩ := h.safe
  have hmem : ∀ {x}, x ∈ db.results → x.1 = id → x ∈ (db.life id).results := fun hx hid =>
    List.mem_filter.mpr ⟨hx, decide_eq_true hid⟩
  have hcreated : ∀ {e}, (id, e) ∈ db.created → (id, e) ∈ (db.life id).created := fun he =>
    List.mem_filter.mpr ⟨he, decide_eq_true rfl⟩
  have hnone : (db.life id).sessions = [] → ∀ s ∈ db.sessions, s.pairingId ≠ id := by
    intro hempty s hs hid
    have hs' : s ∈ (db.life id).sessions := List.mem_filter.mpr ⟨hs, decide_eq_true hid⟩
    rw [hempty] at hs'
    cases hs'
  refine ⟨hsession, hphone, hresult, fun time token expiresAt grant hx => ?_,
    fun time token expiresAt grant hx e he => ?_, fun hid => ?_, fun e he hnow huncollected => ?_⟩
  · obtain ⟨⟨s, hs, htoken, hexpires, hsgrant⟩, -⟩ := hgrant _ (hmem hx rfl) token expiresAt grant rfl
    obtain ⟨hs, hid⟩ := List.mem_filter.mp hs
    exact ⟨s, hs, of_decide_eq_true hid, htoken, hexpires, hsgrant⟩
  · exact (hgrant _ (hmem hx rfl) token expiresAt grant rfl).2 _ (hcreated he)
  · exact hnone (hdenied (List.contains_iff_mem.mpr hid))
  · refine hnone (hended _ (hcreated he) hnow fun x hx => ?_)
    obtain ⟨hstored, hid⟩ := List.mem_filter.mp hx
    obtain ⟨pairing, time, result⟩ := x
    obtain rfl : pairing = id := of_decide_eq_true hid
    cases result with
    | denied => rfl
    | approved token expiresAt grant => exact absurd hstored (huncollected time token expiresAt grant)

/-- In a run whose steps find the pairings in order, every pairing is safe all the time. -/
theorem pairing_safe
    (hrun : Run ((pairingProgram hashClaim).when PairingOrderly) ⟨.initial, []⟩ ⟨db, tasks⟩) :
    ∀ id, PairingSafe db id := by
  have hinitial : ∀ id, PairingPhase PairingDb.initial.now (PairingDb.initial.life id) :=
    fun _ => .unknown
  intro id
  exact safe_of_phase (((pairing_outline hashClaim).run_idle hinitial hrun).inv id)

end Safe

/-- A phone has claimed pairing 1 of account 10. -/
def claimedPairing : PairingDb :=
  ((PairingRequest.claim 1 "token" "phone" 7).serve String.length
    ((PairingRequest.create 10 "token" 1).serve String.length PairingDb.initial).1).1

/-- The session an approval of pairing 1 issues. -/
def phoneSession : PairedSession := ⟨1, "keys", 10, "phone", "bearer", sessionAbsoluteTtl⟩

/-- `approve` has checked the claimed pairing and waits. -/
def checkedPairing : PairingDb := { claimedPairing with approving := [1] }

/-- The pairing is approved, and the phone has collected its session. -/
def collectedPairing : PairingDb :=
  ((PairingRequest.result 1 "token").serve String.length
    (PairingService.approved { checkedPairing with sessions := [phoneSession] } phoneSession)).1

theorem claimedPairing_run : Run ((pairingProgram String.length).when PairingOrderly)
    ⟨.initial, []⟩ ⟨claimedPairing, []⟩ := by
  have hcreate : Step ((pairingProgram String.length).when PairingOrderly)
      ⟨.initial, [.received (.create 10 "token" 1)]⟩
      ⟨((PairingRequest.create 10 "token" 1).serve String.length PairingDb.initial).1, []⟩ :=
    .last ⟨trivial, fun _ _ _ _ _ => List.not_mem_nil, none, rfl⟩
  have hclaim : Step ((pairingProgram String.length).when PairingOrderly)
      ⟨((PairingRequest.create 10 "token" 1).serve String.length PairingDb.initial).1,
        [.received (.claim 1 "token" "phone" 7)]⟩ ⟨claimedPairing, []⟩ :=
    .last ⟨trivial, nofun, none, rfl⟩
  exact (((Relation.ReflTransGen.single (.start ⟨_, rfl⟩)).tail hcreate).tail
    (.start ⟨_, rfl⟩)).tail hclaim

/-- A phone that is approved and collects its session is the only one. -/
theorem pairing_safe_collected : collectedPairing.sessions = [phoneSession] ∧
    PairingSafe collectedPairing 1 := by
  have hcheck : Step ((pairingProgram String.length).when PairingOrderly)
      ⟨claimedPairing, [.received (.approve 10 1 "keys")]⟩
      ⟨checkedPairing, [.issuing { phoneSession with token := "" }]⟩ :=
    .next ⟨fun _ _ _ _ => List.not_mem_nil, nofun, none, rfl⟩
  have hissue : Step ((pairingProgram String.length).when PairingOrderly)
      ⟨checkedPairing, [.issuing { phoneSession with token := "" }]⟩
      ⟨{ checkedPairing with sessions := [phoneSession] }, [.issued phoneSession]⟩ :=
    .next ⟨trivial, nofun, some "bearer", rfl⟩
  have happrove : Step ((pairingProgram String.length).when PairingOrderly)
      ⟨{ checkedPairing with sessions := [phoneSession] }, [.issued phoneSession]⟩
      ⟨PairingService.approved { checkedPairing with sessions := [phoneSession] } phoneSession, []⟩ :=
    .last ⟨trivial, nofun, none, rfl⟩
  have hcollect : Step ((pairingProgram String.length).when PairingOrderly)
      ⟨PairingService.approved { checkedPairing with sessions := [phoneSession] } phoneSession,
        [.received (.result 1 "token")]⟩ ⟨collectedPairing, []⟩ :=
    .last ⟨trivial, nofun, none, rfl⟩
  exact ⟨rfl, pairing_safe ((((((claimedPairing_run.tail (.start ⟨_, rfl⟩)).tail hcheck).tail
    hissue).tail happrove).tail (.start ⟨_, rfl⟩)).tail hcollect) 1⟩

/-- The pairing is denied while `approve` waits. -/
def deniedPairing : PairingDb := ((PairingRequest.deny 10 1).serve String.length checkedPairing).1

/-- A denial while `approve` waits for the session is forgotten: the phone that was denied is signed
in. -/
theorem deniedPairing_unsafe : ¬ ∀ db tasks,
    Run (pairingProgram String.length) ⟨.initial, []⟩ ⟨db, tasks⟩ → ∀ id, PairingSafe db id := by
  intro hsafe
  have hcheck : Step (pairingProgram String.length)
      ⟨claimedPairing, [.received (.approve 10 1 "keys")]⟩
      ⟨checkedPairing, [.issuing { phoneSession with token := "" }]⟩ := .next ⟨nofun, none, rfl⟩
  have hdeny : Step (pairingProgram String.length)
      ⟨checkedPairing, [.received (.deny 10 1), .issuing { phoneSession with token := "" }]⟩
      ⟨deniedPairing, [.issuing { phoneSession with token := "" }]⟩ := .last ⟨nofun, none, rfl⟩
  have hissue : Step (pairingProgram String.length)
      ⟨deniedPairing, [.issuing { phoneSession with token := "" }]⟩
      ⟨{ deniedPairing with sessions := [phoneSession] }, [.issued phoneSession]⟩ :=
    .next ⟨nofun, some "bearer", rfl⟩
  have hrun := (((((Run.of_when claimedPairing_run).tail (.start ⟨_, rfl⟩)).tail hcheck).tail
    (.start ⟨_, rfl⟩)).tail hdeny).tail hissue
  have hdenied : (1 : Uuid) ∈ deniedPairing.denials := by decide
  exact (hsafe _ _ hrun 1).denied hdenied phoneSession List.mem_cons_self rfl

end Zvault
