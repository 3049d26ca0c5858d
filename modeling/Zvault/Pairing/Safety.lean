import Zvault.Pairing.Service

/-!
# What a pairing goes through

Seen from one pairing, the store and the history are a `PairingLife`, and a life
in order is in one of few phases. `approve` checks the record before it waits and
changes it afterwards, so a second `approve`, a `deny` or the end of the pairing
in between leads out of the phases. Where none of these happens, every step leads
from phase to phase.
-/

namespace Zvault

open Relational Concurrent

/-- What concerns one pairing. -/
structure PairingLife where
  record : Option PairingRecord
  created : List (Uuid × Timestamp)
  sessions : List PairedSession
  claims : List (Uuid × DeviceInfo)
  denied : Bool
  results : List (Uuid × Timestamp × PairingResult)
  approving : ℕ

def PairingDb.life (db : PairingDb) (id : Uuid) : PairingLife where
  record := db.pairings.find id
  created := db.created.filter fun c => c.1 = id
  sessions := db.sessions.filter fun s => s.pairingId = id
  claims := db.claims.filter fun c => c.1 = id
  denied := db.denials.contains id
  results := db.results.filter fun x => x.1 = id
  approving := db.approving.count id

/-- The phases of a pairing. -/
inductive PairingPhase (now : Timestamp) : PairingLife → Prop
  | unknown : PairingPhase now ⟨none, [], [], [], false, [], 0⟩
  | waiting (r : PairingRecord) (h : r.status = .waiting) :
      PairingPhase now ⟨some r, [(r.id, r.expiresAt)], [], [], false, [], 0⟩
  | claimed (r : PairingRecord) (c : Uuid × DeviceInfo) (h : r.status = .claimed) :
      PairingPhase now ⟨some r, [(r.id, r.expiresAt)], [], [c], false, [], 0⟩
  | issuing (r : PairingRecord) (c : Uuid × DeviceInfo) (h : r.status = .claimed)
      (hlive : now < r.expiresAt) :
      PairingPhase now ⟨some r, [(r.id, r.expiresAt)], [], [c], false, [], 1⟩
  | issued (r : PairingRecord) (c : Uuid × DeviceInfo) (s : PairedSession) (h : r.status = .claimed)
      (hlive : now < r.expiresAt) :
      PairingPhase now ⟨some r, [(r.id, r.expiresAt)], [s], [c], false, [], 1⟩
  | approved (r : PairingRecord) (c : Uuid × DeviceInfo) (s : PairedSession)
      (h : r.status = .approved) (hgrant : r.grant = some s.grant)
      (htoken : r.sessionToken = some s.token) (hexpires : r.sessionExpiresAt = some s.expiresAt)
      (hlive : now < r.expiresAt) :
      PairingPhase now ⟨some r, [(r.id, r.expiresAt)], [s], [c], false, [], 0⟩
  | denied (r : PairingRecord) (cs : List (Uuid × DeviceInfo)) (h : r.status = .denied)
      (hcs : cs.length ≤ 1) : PairingPhase now ⟨some r, [(r.id, r.expiresAt)], [], cs, true, [], 0⟩
  | collected (e : Uuid × Timestamp) (c : Uuid × DeviceInfo) (s : PairedSession) (id : Uuid)
      (time : Timestamp) (htime : time < e.2) : PairingPhase now
        ⟨none, [e], [s], [c], false, [(id, time, .approved s.token s.expiresAt s.grant)], 0⟩
  | refused (e : Uuid × Timestamp) (cs : List (Uuid × DeviceInfo)) (id : Uuid) (time : Timestamp)
      (hcs : cs.length ≤ 1) : PairingPhase now ⟨none, [e], [], cs, true, [(id, time, .denied)], 0⟩
  | expired (e : Uuid × Timestamp) (cs : List (Uuid × DeviceInfo)) (denied : Bool)
      (hcs : cs.length ≤ 1) : PairingPhase now ⟨none, [e], [], cs, denied, [], 0⟩

section Steps

variable {hashClaim : String → ℕ} {db db' : PairingDb}

/-- Some expired pairings were dropped. -/
structure Dropped (db db' : PairingDb) : Prop where
  eq : db' = { db with pairings := db'.pairings }
  find : ∀ id, db'.pairings.find id = db.pairings.find id ∨
    ∃ r, db.pairings.find id = some r ∧ r.expiresAt ≤ db.now ∧ db'.pairings.find id = none

theorem Dropped.refl (db : PairingDb) : Dropped db db := ⟨rfl, fun _ => Or.inl rfl⟩

/-- Deleting expired pairings. -/
theorem Dropped.delete (p : PairingRecord → Bool)
    (hp : ∀ r ∈ db.pairings, p r = true → r.expiresAt ≤ db.now) :
    Dropped db { db with pairings := db.pairings.delete p } where
  eq := rfl
  find id := by
    change (db.pairings.delete p).find id = _ ∨ ∃ r, _ ∧ _ ∧ (db.pairings.delete p).find id = none
    rw [Table.find_delete_eq]
    cases hfind : db.pairings.find id with
    | none => exact Or.inl rfl
    | some r =>
      cases hdelete : p r with
      | false => exact Or.inl (by simp [hdelete])
      | true =>
        exact Or.inr ⟨r, rfl, hp r (Table.find_eq_some.mp hfind).1 hdelete, by simp [hdelete]⟩

/-- What `get` returns is live and stored. -/
theorem get_cases (db : PairingDb) (id : Uuid) : Dropped db (db.get id).2 ∧
    ∀ r, (db.get id).1 = some r →
      (db.get id).2 = db ∧ db.pairings.find id = some r ∧ db.now < r.expiresAt := by
  rw [PairingDb.get]
  cases hfind : db.pairings.find id with
  | none => exact ⟨.refl db, nofun⟩
  | some record =>
    dsimp only
    split
    · rename_i hexpired
      refine ⟨.delete _ fun r hr hid => ?_, nofun⟩
      have hfound : db.pairings.find id = some r :=
        Table.find_eq_some.mpr ⟨hr, of_decide_eq_true hid⟩
      obtain rfl := Option.some_inj.mp (hfind.symm.trans hfound)
      exact hexpired
    · rename_i hlive
      refine ⟨.refl db, fun r hr => ?_⟩
      obtain rfl := Option.some_inj.mp hr
      exact ⟨rfl, rfl, Nat.not_le.mp hlive⟩

theorem owned_cases (db : PairingDb) (userId id : Uuid) :
    Dropped db (PairingService.owned db userId id).2 ∧
      ∀ r, (PairingService.owned db userId id).1 = .ok r →
        (PairingService.owned db userId id).2 = db ∧ db.pairings.find id = some r ∧
          db.now < r.expiresAt ∧ r.userId = userId := by
  obtain ⟨hdropped, hfound⟩ := get_cases db id
  rw [PairingService.owned]
  cases hget : db.get id with
  | mk found db₁ =>
    rw [hget] at hdropped hfound
    cases found with
    | none => exact ⟨hdropped, fun _ hr => by cases hr⟩
    | some record =>
      dsimp only
      split
      · exact ⟨hdropped, fun _ hr => by cases hr⟩
      · rename_i howner
        refine ⟨hdropped, fun r hr => ?_⟩
        obtain rfl := Except.ok.inj hr
        obtain ⟨hdb, hfind, hlive⟩ := hfound record rfl
        exact ⟨hdb, hfind, hlive, not_not.mp howner⟩

theorem withToken_cases (hashClaim : String → ℕ) (db : PairingDb) (id : Uuid)
    (claimToken : String) :
    Dropped db (PairingService.withToken hashClaim db id claimToken).2 ∧
      ∀ r, (PairingService.withToken hashClaim db id claimToken).1 = .ok r →
        (PairingService.withToken hashClaim db id claimToken).2 = db ∧
          db.pairings.find id = some r ∧ db.now < r.expiresAt := by
  obtain ⟨hdropped, hfound⟩ := get_cases db id
  rw [PairingService.withToken]
  cases hget : db.get id with
  | mk found db₁ =>
    rw [hget] at hdropped hfound
    cases found with
    | none => exact ⟨hdropped, fun _ hr => by cases hr⟩
    | some record =>
      dsimp only
      split
      · exact ⟨hdropped, fun _ hr => by cases hr⟩
      · refine ⟨hdropped, fun r hr => ?_⟩
        obtain rfl := Except.ok.inj hr
        exact hfound record rfl

/-- What a request does once expired pairings are dropped. -/
inductive Effect (db : PairingDb) : PairingRequest → PairingDb → Option PairingTask → Prop
  | nothing (request : PairingRequest) : Effect db request db none
  | create (userId : Uuid) (claimToken : String) (r : PairingRecord) (h : r.status = .waiting) :
      Effect db (.create userId claimToken r.id) { db with
        pairings := db.pairings.insertNew r
        created := (r.id, r.expiresAt) :: db.created } none
  | claim (claimToken : String) (device : DeviceInfo) (publicKey : PublicKey) (r : PairingRecord)
      (hfind : db.pairings.find r.id = some r) (h : r.status = .waiting) :
      Effect db (.claim r.id claimToken device publicKey) { db with
        pairings := changeRecord db.pairings r.id fun r =>
          { r with status := .claimed, device := some device, publicKey := some publicKey }
        claims := (r.id, device) :: db.claims } none
  | approve (grant : PairingGrant) (s : PairedSession) (r : PairingRecord)
      (hfind : db.pairings.find r.id = some r) (h : r.status = .claimed)
      (hlive : db.now < r.expiresAt) (hsession : s.pairingId = r.id) :
      Effect db (.approve r.userId r.id grant) { db with approving := r.id :: db.approving }
        (some (.issuing s))
  | deny (r : PairingRecord) (hfind : db.pairings.find r.id = some r) (h : r.status ≠ .approved) :
      Effect db (.deny r.userId r.id) { db with
        pairings := changeRecord db.pairings r.id fun r => { r with status := .denied, grant := none }
        denials := r.id :: db.denials } none
  | refuse (claimToken : String) (r : PairingRecord) (hfind : db.pairings.find r.id = some r)
      (h : r.status = .denied) : Effect db (.result r.id claimToken) { db with
        pairings := removeRecord db.pairings r.id
        results := (r.id, db.now, .denied) :: db.results } none
  | collect (claimToken : String) (r : PairingRecord) (grant : PairingGrant)
      (token : SessionToken) (expiresAt : Timestamp) (hfind : db.pairings.find r.id = some r)
      (h : r.status = .approved) (hgrant : r.grant = some grant)
      (htoken : r.sessionToken = some token) (hexpires : r.sessionExpiresAt = some expiresAt) :
      Effect db (.result r.id claimToken) { db with
        pairings := removeRecord db.pairings r.id
        results := (r.id, db.now, .approved token expiresAt grant) :: db.results } none
  | lost (claimToken : String) (r : PairingRecord) (hfind : db.pairings.find r.id = some r)
      (h : r.status = .approved)
      (hmissing : r.grant = none ∨ r.sessionToken = none ∨ r.sessionExpiresAt = none) :
      Effect db (.result r.id claimToken) { db with
        pairings := removeRecord db.pairings r.id } none
  | clock (now : Timestamp) : Effect db (.clock now) { db with now := max db.now now } none

theorem createPairing_cases (userId : Uuid) (claimToken : String) (id : Uuid) :
    ∃ db₁, Dropped db db₁ ∧ Effect db₁ (.create userId claimToken id)
      (PairingService.create hashClaim db userId claimToken id).2 none := by
  refine ⟨(db.countLive userId).2, .delete _ fun r _ hr => of_decide_eq_true hr, ?_⟩
  rw [PairingService.create]
  split
  rename_i live db₁ hcount
  rw [hcount]
  dsimp only
  split
  · exact .nothing _
  · exact .create userId claimToken ⟨id, userId, hashClaim claimToken, .waiting,
      db₁.now + pairingTtl, none, none, none, none, none⟩ rfl

theorem claim_cases (id : Uuid) (claimToken : String) (device : DeviceInfo) (publicKey : PublicKey) :
    ∃ db₁, Dropped db db₁ ∧ Effect db₁ (.claim id claimToken device publicKey)
      (PairingService.claim hashClaim db id claimToken device publicKey).2 none := by
  obtain ⟨hdropped, hfound⟩ := withToken_cases hashClaim db id claimToken
  rw [PairingService.claim]
  cases htoken : PairingService.withToken hashClaim db id claimToken with
  | mk found db₁ =>
    rw [htoken] at hdropped hfound
    cases found with
    | error e => exact ⟨db₁, hdropped, .nothing _⟩
    | ok r =>
      obtain ⟨hdb, hfind, -⟩ := hfound r rfl
      obtain rfl : db₁ = db := hdb
      dsimp only
      split
      · exact ⟨db₁, .refl _, .nothing _⟩
      · rename_i hstatus
        obtain rfl := (Table.find_eq_some.mp hfind).2
        exact ⟨db₁, .refl _, .claim claimToken device publicKey r hfind (not_not.mp hstatus)⟩

theorem deny_cases (userId id : Uuid) : ∃ db₁, Dropped db db₁ ∧
    Effect db₁ (.deny userId id) (PairingService.deny db userId id).2 none := by
  obtain ⟨hdropped, hfound⟩ := owned_cases db userId id
  rw [PairingService.deny]
  cases howned : PairingService.owned db userId id with
  | mk found db₁ =>
    rw [howned] at hdropped hfound
    cases found with
    | error e => exact ⟨db₁, hdropped, .nothing _⟩
    | ok r =>
      obtain ⟨hdb, hfind, -, rfl⟩ := hfound r rfl
      obtain rfl : db₁ = db := hdb
      dsimp only
      split
      · exact ⟨db₁, .refl _, .nothing _⟩
      · rename_i hstatus
        obtain rfl := (Table.find_eq_some.mp hfind).2
        exact ⟨db₁, .refl _, .deny r hfind hstatus⟩

theorem result_cases (id : Uuid) (claimToken : String) : ∃ db₁, Dropped db db₁ ∧
    Effect db₁ (.result id claimToken) (PairingService.result hashClaim db id claimToken).2 none := by
  obtain ⟨hdropped, hfound⟩ := withToken_cases hashClaim db id claimToken
  rw [PairingService.result]
  cases htoken : PairingService.withToken hashClaim db id claimToken with
  | mk found db₁ =>
    rw [htoken] at hdropped hfound
    cases found with
    | error e => exact ⟨db₁, hdropped, .nothing _⟩
    | ok r =>
      obtain ⟨hdb, hfind, -⟩ := hfound r rfl
      obtain rfl : db₁ = db := hdb
      obtain rfl := (Table.find_eq_some.mp hfind).2
      refine ⟨db₁, .refl _, ?_⟩
      cases hstatus : r.status with
      | waiting => simp only [hstatus]; exact .nothing _
      | claimed => simp only [hstatus]; exact .nothing _
      | denied => simp only [hstatus]; exact .refuse claimToken r hfind hstatus
      | approved =>
        simp only [hstatus]
        cases hgrant : r.grant with
        | none => exact .lost claimToken r hfind hstatus (Or.inl hgrant)
        | some grant =>
          cases hsession : r.sessionToken with
          | none => exact .lost claimToken r hfind hstatus (Or.inr (Or.inl hsession))
          | some token =>
            cases hexpires : r.sessionExpiresAt with
            | none => exact .lost claimToken r hfind hstatus (Or.inr (Or.inr hexpires))
            | some expiresAt =>
              exact .collect claimToken r grant token expiresAt hfind hstatus hgrant hsession hexpires

theorem approve_cases {next : Option PairingTask} (userId id : Uuid) (grant : PairingGrant)
    (h : (PairingRequest.approve userId id grant).serve hashClaim db = (db', next)) :
    ∃ db₁, Dropped db db₁ ∧ Effect db₁ (.approve userId id grant) db' next := by
  obtain ⟨hdropped, hfound⟩ := owned_cases db userId id
  simp only [PairingRequest.serve, PairingService.approve] at h
  cases howned : PairingService.owned db userId id with
  | mk found db₁ =>
    rw [howned] at hdropped hfound h
    cases found with
    | error e =>
      obtain ⟨rfl, rfl⟩ := Prod.mk.inj h
      exact ⟨db₁, hdropped, .nothing _⟩
    | ok r =>
      obtain ⟨hdb, hfind, hlive, rfl⟩ := hfound r rfl
      obtain rfl : db₁ = db := hdb
      obtain rfl := (Table.find_eq_some.mp hfind).2
      refine ⟨db₁, .refl _, ?_⟩
      cases hdevice : r.device with
      | none =>
        simp only [hdevice] at h
        obtain ⟨rfl, rfl⟩ := Prod.mk.inj h
        exact .nothing _
      | some device =>
        by_cases hstatus : r.status = .claimed
        · simp only [hdevice, hstatus, ne_eq, not_true, if_false] at h
          obtain ⟨rfl, rfl⟩ := Prod.mk.inj h
          exact .approve grant _ r hfind hstatus hlive rfl
        · simp only [hdevice, hstatus, ne_eq, not_false_eq_true, if_true] at h
          obtain ⟨rfl, rfl⟩ := Prod.mk.inj h
          exact .nothing _

/-- Every request drops expired pairings and does one of these. -/
theorem serve_cases {request : PairingRequest} {next : Option PairingTask}
    (h : request.serve hashClaim db = (db', next)) :
    ∃ db₁, Dropped db db₁ ∧ Effect db₁ request db' next := by
  cases request with
  | approve userId id grant => exact approve_cases userId id grant h
  | create userId claimToken id =>
    obtain ⟨rfl, rfl⟩ := Prod.mk.inj h
    exact createPairing_cases userId claimToken id
  | claim id claimToken device publicKey =>
    obtain ⟨rfl, rfl⟩ := Prod.mk.inj h
    exact claim_cases id claimToken device publicKey
  | view userId id =>
    obtain ⟨rfl, rfl⟩ := Prod.mk.inj h
    exact ⟨_, (owned_cases db userId id).1, .nothing _⟩
  | deny userId id =>
    obtain ⟨rfl, rfl⟩ := Prod.mk.inj h
    exact deny_cases userId id
  | result id claimToken =>
    obtain ⟨rfl, rfl⟩ := Prod.mk.inj h
    exact result_cases id claimToken
  | clock now =>
    obtain ⟨rfl, rfl⟩ := Prod.mk.inj h
    exact ⟨db, .refl db, .clock now⟩

end Steps

section Phases

variable {db db' : PairingDb} {now : Timestamp} {L : PairingLife} {id p : Uuid}
  {f : PairingRecord → PairingRecord} {hf : ∀ r, (f r).id = r.id}

theorem find_changeRecord (pairings : PairingTable) (id : Uuid) :
    (changeRecord pairings id f hf).find id = (pairings.find id).map f := by
  rw [changeRecord, Table.find_update]
  cases hfind : pairings.find id with
  | none => rfl
  | some r =>
    have hid : r.id = id := (Table.find_eq_some.mp hfind).2
    simp [hid]

theorem find_changeRecord_of_ne (pairings : PairingTable) (hne : id ≠ p) :
    (changeRecord pairings id f hf).find p = pairings.find p := by
  rw [changeRecord, Table.find_update]
  cases hfind : pairings.find p with
  | none => rfl
  | some r =>
    have hid : r.id = p := (Table.find_eq_some.mp hfind).2
    have hne' : r.id ≠ id := by rw [hid]; exact hne.symm
    simp [hne']

theorem find_removeRecord (pairings : PairingTable) (id : Uuid) :
    (removeRecord pairings id).find id = none := by
  rw [removeRecord, Table.find_delete_eq]
  cases hfind : pairings.find id with
  | none => rfl
  | some r =>
    have hid : r.id = id := (Table.find_eq_some.mp hfind).2
    simp [hid]

theorem find_removeRecord_of_ne (pairings : PairingTable) (hne : id ≠ p) :
    (removeRecord pairings id).find p = pairings.find p := by
  refine Table.find_delete fun r _ hr => ?_
  rw [hr]
  exact decide_eq_false hne.symm

/-- Two states that agree on what concerns a pairing. -/
theorem PairingPhase.congr (h : PairingPhase db.now (db.life id)) (hnow : db'.now = db.now)
    (hrecord : db'.pairings.find id = db.pairings.find id)
    (hcreated : db'.created.filter (fun c => c.1 = id) = db.created.filter fun c => c.1 = id)
    (hsessions : db'.sessions.filter (fun s => s.pairingId = id) =
      db.sessions.filter fun s => s.pairingId = id)
    (hclaims : db'.claims.filter (fun c => c.1 = id) = db.claims.filter fun c => c.1 = id)
    (hdenials : db'.denials.contains id = db.denials.contains id)
    (hresults : db'.results.filter (fun x => x.1 = id) = db.results.filter fun x => x.1 = id)
    (happroving : db'.approving.count id = db.approving.count id) :
    PairingPhase db'.now (db'.life id) := by
  simp only [hnow, PairingDb.life, hrecord, hcreated, hsessions, hclaims, hdenials, hresults,
    happroving]
  exact h

/-- Time passes without an end: phases whose pairing must not end stay below it. -/
theorem PairingPhase.later {now' : Timestamp} (h : PairingPhase now L)
    (hlive : ∀ r, L.record = some r → r.status = .approved ∨ 0 < L.approving → now' < r.expiresAt) :
    PairingPhase now' L := by
  cases h with
  | unknown => exact .unknown
  | waiting r h => exact .waiting r h
  | claimed r c h => exact .claimed r c h
  | issuing r c h _ => exact .issuing r c h (hlive r rfl (Or.inr Nat.one_pos))
  | issued r c s h _ => exact .issued r c s h (hlive r rfl (Or.inr Nat.one_pos))
  | approved r c s h hgrant htoken hexpires _ =>
    exact .approved r c s h hgrant htoken hexpires (hlive r rfl (Or.inl h))
  | denied r cs h hcs => exact .denied r cs h hcs
  | collected e c s id time htime => exact .collected e c s id time htime
  | refused e cs id time hcs => exact .refused e cs id time hcs
  | expired e cs denied hcs => exact .expired e cs denied hcs

/-- A pairing that has ended is dropped. -/
theorem PairingPhase.drop {r : PairingRecord} (h : PairingPhase now L) (hrecord : L.record = some r)
    (hended : r.expiresAt ≤ now) : PairingPhase now { L with record := none } := by
  cases h with
  | unknown => cases hrecord
  | waiting r h => exact .expired _ [] false (by simp)
  | claimed r c h => exact .expired _ [c] false (by simp)
  | issuing r' c h hlive =>
    obtain rfl := Option.some_inj.mp hrecord
    exact absurd hended (Nat.not_le.mpr hlive)
  | issued r' c s h hlive =>
    obtain rfl := Option.some_inj.mp hrecord
    exact absurd hended (Nat.not_le.mpr hlive)
  | approved r' c s h hgrant htoken hexpires hlive =>
    obtain rfl := Option.some_inj.mp hrecord
    exact absurd hended (Nat.not_le.mpr hlive)
  | denied r cs h hcs => exact .expired _ cs true hcs
  | collected => cases hrecord
  | refused => cases hrecord
  | expired => cases hrecord

theorem PairingPhase.dropped (h : PairingPhase db.now (db.life id)) (hdropped : Dropped db db') :
    PairingPhase db'.now (db'.life id) := by
  obtain ⟨heq, hfind⟩ := hdropped
  have hnow : db'.now = db.now := by rw [heq]
  rcases hfind id with hsame | ⟨r, hr, hended, hnone⟩
  · apply h.congr hnow hsame <;> rw [heq]
  · have hlife : db'.life id = { db.life id with record := none } := by
      rw [heq] at hnone ⊢
      simp only [PairingDb.life, hnone]
    rw [hlife, hnow]
    exact h.drop hr hended

/-- What a step must find for the pairings to stay in order: no `approve` or `deny` by its owner
while an `approve` of the pairing waits, and no end of a pairing whose `approve` waits or whose
approval the phone has not collected. -/
def PairingOrderly (db : PairingDb) : PairingTask → Prop
  | .received (.approve userId id _) =>
    ∀ r ∈ db.pairings, r.id = id → r.userId = userId → id ∉ db.approving
  | .received (.deny userId id) =>
    ∀ r ∈ db.pairings, r.id = id → r.userId = userId → id ∉ db.approving
  | .received (.clock now) =>
    ∀ r ∈ db.pairings, r.expiresAt ≤ max db.now now → r.status ≠ .approved ∧ r.id ∉ db.approving
  | _ => True

section Inversion

variable {r : PairingRecord} (h : PairingPhase now L) (hrecord : L.record = some r)

include h hrecord

theorem PairingPhase.of_waiting (hstatus : r.status = .waiting) :
    L = ⟨some r, [(r.id, r.expiresAt)], [], [], false, [], 0⟩ := by
  cases h <;> simp_all

theorem PairingPhase.of_claimed (hstatus : r.status = .claimed) (happroving : L.approving = 0) :
    ∃ c, L = ⟨some r, [(r.id, r.expiresAt)], [], [c], false, [], 0⟩ := by
  cases h <;> simp_all

theorem PairingPhase.of_approved (hstatus : r.status = .approved) :
    now < r.expiresAt ∧ ∃ c s, r.grant = some s.grant ∧ r.sessionToken = some s.token ∧
      r.sessionExpiresAt = some s.expiresAt ∧
      L = ⟨some r, [(r.id, r.expiresAt)], [s], [c], false, [], 0⟩ := by
  cases h <;> simp_all

theorem PairingPhase.of_denied (hstatus : r.status = .denied) :
    ∃ cs, cs.length ≤ 1 ∧ L = ⟨some r, [(r.id, r.expiresAt)], [], cs, true, [], 0⟩ := by
  cases h <;> simp_all

theorem PairingPhase.of_undecided (hstatus : r.status ≠ .approved) (happroving : L.approving = 0) :
    ∃ cs denied, cs.length ≤ 1 ∧
      L = ⟨some r, [(r.id, r.expiresAt)], [], cs, denied, [], 0⟩ := by
  cases h <;> simp_all

end Inversion

theorem PairingPhase.of_unknown (h : PairingPhase now L) (hcreated : L.created = []) :
    L = ⟨none, [], [], [], false, [], 0⟩ := by
  cases h <;> simp_all

/-- An effect leads from phase to phase. -/
theorem Effect.phase {request : PairingRequest} {next : Option PairingTask}
    (h : Effect db request db' next) (horderly : PairingOrderly db (.received request))
    (hnew : ∀ userId claimToken id, request = .create userId claimToken id →
      ∀ expiresAt, (id, expiresAt) ∉ db.created)
    (hphase : ∀ id, PairingPhase db.now (db.life id)) (p : Uuid) :
    PairingPhase db'.now (db'.life p) := by
  cases h with
  | nothing => exact hphase p
  | create userId claimToken r hstatus =>
    have hcreated : (db.life r.id).created = [] := by
      refine List.filter_eq_nil_iff.mpr fun c hc heq => ?_
      have hid : c.1 = r.id := of_decide_eq_true heq
      refine hnew userId claimToken r.id rfl c.2 ?_
      rwa [← hid]
    have hlife := (hphase r.id).of_unknown hcreated
    have hfree : ∀ x ∈ db.pairings, x.id ≠ r.id :=
      Table.find_eq_none.mp (congrArg PairingLife.record hlife)
    by_cases hp : r.id = p
    · subst hp
      obtain ⟨-, hcreated, hsessions, hclaims, hdenied, hresults, happroving⟩ :=
        PairingLife.mk.inj hlife
      simp only [PairingDb.life, Table.find_insertNew hfree, if_true, List.filter_cons, decide_true,
        hcreated, hsessions, hclaims, hdenied, hresults, happroving]
      exact .waiting r hstatus
    · refine (hphase p).congr rfl ?_ ?_ rfl rfl rfl rfl rfl
      · simp [Table.find_insertNew hfree, hp]
      · simp [hp]
  | claim claimToken device publicKey r hfind hstatus =>
    by_cases hp : r.id = p
    · subst hp
      obtain ⟨-, hcreated, hsessions, hclaims, hdenied, hresults, happroving⟩ :=
        PairingLife.mk.inj ((hphase r.id).of_waiting hfind hstatus)
      simp only [PairingDb.life, find_changeRecord, hfind, Option.map_some, List.filter_cons,
        decide_true, if_true, hcreated, hsessions, hclaims, hdenied, hresults, happroving]
      exact .claimed { r with status := .claimed, device := some device, publicKey := some publicKey }
        _ rfl
    · refine (hphase p).congr rfl ?_ rfl rfl ?_ rfl rfl rfl
      · rw [find_changeRecord_of_ne _ hp]
      · simp [hp]
  | approve grant s r hfind hstatus hlive hsession =>
    have hfree : r.id ∉ db.approving := horderly r (Table.find_eq_some.mp hfind).1 rfl rfl
    by_cases hp : r.id = p
    · subst hp
      obtain ⟨c, hlife⟩ := (hphase r.id).of_claimed hfind hstatus (List.count_eq_zero.mpr hfree)
      obtain ⟨-, hcreated, hsessions, hclaims, hdenied, hresults, happroving⟩ :=
        PairingLife.mk.inj hlife
      simp only [PairingDb.life, hfind, List.count_cons_self, hcreated, hsessions, hclaims, hdenied,
        hresults, happroving]
      exact .issuing r c hstatus hlive
    · refine (hphase p).congr rfl rfl rfl rfl rfl rfl rfl ?_
      exact List.count_cons_of_ne hp
  | deny r hfind hstatus =>
    have hfree : r.id ∉ db.approving := horderly r (Table.find_eq_some.mp hfind).1 rfl rfl
    by_cases hp : r.id = p
    · subst hp
      obtain ⟨cs, denied, hcs, hlife⟩ :=
        (hphase r.id).of_undecided hfind hstatus (List.count_eq_zero.mpr hfree)
      obtain ⟨-, hcreated, hsessions, hclaims, -, hresults, happroving⟩ :=
        PairingLife.mk.inj hlife
      simp only [PairingDb.life, find_changeRecord, hfind, Option.map_some, hcreated, hsessions,
        hclaims, List.contains_cons, beq_self_eq_true, Bool.true_or, hresults, happroving]
      exact .denied { r with status := .denied, grant := none } cs rfl hcs
    · refine (hphase p).congr rfl ?_ rfl rfl rfl ?_ rfl rfl
      · rw [find_changeRecord_of_ne _ hp]
      · simp [Ne.symm hp]
  | refuse claimToken r hfind hstatus =>
    by_cases hp : r.id = p
    · subst hp
      obtain ⟨cs, hcs, hlife⟩ := (hphase r.id).of_denied hfind hstatus
      obtain ⟨-, hcreated, hsessions, hclaims, hdenied, hresults, happroving⟩ :=
        PairingLife.mk.inj hlife
      simp only [PairingDb.life, find_removeRecord, List.filter_cons, decide_true, if_true, hcreated,
        hsessions, hclaims, hdenied, hresults, happroving]
      exact .refused _ cs r.id _ hcs
    · refine (hphase p).congr rfl ?_ rfl rfl rfl rfl ?_ rfl
      · exact find_removeRecord_of_ne _ hp
      · simp [hp]
  | collect claimToken r grant token expiresAt hfind hstatus hgrant htoken hexpires =>
    by_cases hp : r.id = p
    · subst hp
      obtain ⟨hlive, c, s, hgrant', htoken', hexpires', hlife⟩ := (hphase r.id).of_approved hfind hstatus
      obtain ⟨-, hcreated, hsessions, hclaims, hdenied, hresults, happroving⟩ :=
        PairingLife.mk.inj hlife
      obtain rfl := Option.some_inj.mp (hgrant.symm.trans hgrant')
      obtain rfl := Option.some_inj.mp (htoken.symm.trans htoken')
      obtain rfl := Option.some_inj.mp (hexpires.symm.trans hexpires')
      simp only [PairingDb.life, find_removeRecord, List.filter_cons, decide_true, if_true, hcreated,
        hsessions, hclaims, hdenied, hresults, happroving]
      exact .collected _ c s r.id _ hlive
    · refine (hphase p).congr rfl ?_ rfl rfl rfl rfl ?_ rfl
      · exact find_removeRecord_of_ne _ hp
      · simp [hp]
  | lost claimToken r hfind hstatus hmissing =>
    obtain ⟨-, c, s, hgrant, htoken, hexpires, -⟩ := (hphase r.id).of_approved hfind hstatus
    rcases hmissing with hnone | hnone | hnone
    · cases hnone.symm.trans hgrant
    · cases hnone.symm.trans htoken
    · cases hnone.symm.trans hexpires
  | clock now =>
    refine (hphase p).later fun r hr hheld => ?_
    by_contra hended
    obtain ⟨hmem, rfl⟩ := Table.find_eq_some.mp hr
    obtain ⟨hstatus, hfree⟩ := horderly r hmem (Nat.not_lt.mp hended)
    rcases hheld with happroved | hwaits
    · exact hstatus happroved
    · exact hfree (List.count_pos_iff.mp hwaits)

end Phases

end Zvault
