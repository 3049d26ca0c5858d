import Mathlib.Data.List.Induction
import Zvault.Devices.SameSessions

/-!
# Runs of the session stores

Each store holds sessions that were issued, not revoked since, and last used when it says.
After calls with ids spelled as the stores write them, both agree on every session that
is live.
-/

namespace Zvault.Devices

open Relational Past

variable {Hash : Type} [DecidableEq Hash] {T : UuidText} {hashToken : String → Hash}

/-- What holds of the stores after some calls. -/
structure Agree (T : UuidText) (hashToken : String → Hash) (events : List Event)
    (s : Stores Hash) : Prop where
  mirrors : Mirrors T s.memory s.database
  /-- Memory holds every session that is live now or later. -/
  held : ∀ r ∈ s.database.sessions, ∀ now, (∀ e ∈ events, e.now ≤ now) → live r now = true →
    s.memory.byId.hasKey (T.print r.id) = true
  issued : ∀ r ∈ s.database.sessions, ∃ e ∈ events, ∃ p, issuedBy e = some p ∧ p.1 = r.id ∧
    hashToken p.2 = r.tokenHash

omit [DecidableEq Hash] in
theorem live_iff {r : SessionRow Hash} {now : ℤ} :
    live r now = true ↔ r.revokedAt = none ∧ isLive (r.toSession T) now = true := by
  rw [live, isLive, decide_eq_true_iff, decide_eq_true_iff]
  refine and_congr_right fun _ => and_congr_right fun _ => ?_
  have hseen : (r.toSession T).lastSeenAt = r.lastSeenAt := rfl
  rw [hseen]
  constructor <;> intro h <;> omega

omit [DecidableEq Hash] in
theorem revokedAt_of_live {r : SessionRow Hash} {now : ℤ} (h : live r now = true) :
    r.revokedAt = none := by
  rw [live, decide_eq_true_iff] at h
  exact h.1

omit [DecidableEq Hash] in
/-- What is live was live before. -/
theorem isLive_mono {m : Session Hash} {now now' : ℤ} (h : isLive m now' = true)
    (hle : now ≤ now') : isLive m now = true := by
  rw [isLive, decide_eq_true_iff] at h ⊢
  omega

section Steps

variable {events : List Event} {s : Stores Hash} {e : Event}

/-- Sessions that have ended are forgotten in memory. -/
theorem Agree.forget (h : Agree T hashToken events s) {ss : List (Session Hash)}
    (hss : ∀ m ∈ ss, m ∈ s.memory.byId ∧ isLive m e.now = false) :
    Agree T hashToken (events ++ [e])
      ⟨ss.foldl InMemorySessionStore.remove s.memory, s.database⟩ := by
  refine ⟨h.mirrors.remove fun m hm => (hss m hm).1, fun r hr now hnow hlive => ?_, fun r hr => ?_⟩
  · refine (s.memory.foldl_remove_hasKey ss (T.print r.id)).mpr
      ⟨h.held r hr now (fun e' he' => hnow e' (List.mem_append_left _ he')) hlive,
        fun m hm hid => ?_⟩
    obtain ⟨hmem, hended⟩ := hss m hm
    obtain ⟨r', hr', -, rfl⟩ := h.mirrors.mem_byId.mp hmem
    obtain rfl := Table.eq_of_key_eq hr hr' (T.print_inj.mp hid)
    have hnow' : e.now ≤ now := hnow e (by simp)
    rw [isLive_mono (live_iff.mp hlive).2 hnow'] at hended
    cases hended
  · obtain ⟨e', he', hissued⟩ := h.issued r hr
    exact ⟨e', List.mem_append_left _ he', hissued⟩

/-- The same sessions are revoked in both stores. -/
theorem Agree.revoke (h : Agree T hashToken events s) {ss : List (Session Hash)}
    {reached : Session Hash → Prop} {p : SessionRow Hash → Bool}
    (hss : ∀ m, m ∈ ss ↔ m ∈ s.memory.byId ∧ reached m)
    (hp : ∀ r, p r = true ↔ reached (r.toSession T) ∧ r.revokedAt = none) (now : ℤ) :
    Agree T hashToken (events ++ [e])
      ⟨ss.foldl InMemorySessionStore.remove s.memory, s.database.setRevoked p now⟩ := by
  have hremoved := h.mirrors.remove fun m hm => ((hss m).mp hm).1
  have hkey := s.memory.foldl_remove_hasKey ss
  refine ⟨hremoved.revoke now fun r hr hpr => ?_, fun r hr t ht hlive => ?_, fun r hr => ?_⟩
  · by_contra hheld
    obtain ⟨hold, hnot⟩ := (hkey (T.print r.id)).mp (by simpa using hheld)
    have hmem : (r.toSession T) ∈ s.memory.byId := h.mirrors.mem_byId.mpr ⟨r, hr, hold, rfl⟩
    exact hnot (r.toSession T) ((hss _).mpr ⟨hmem, ((hp r).mp hpr).1⟩) rfl
  · obtain ⟨r₀, hr₀, rfl⟩ := s.database.mem_setRevoked.mp hr
    have hunrevoked := revokedAt_of_live hlive
    by_cases hpr : p r₀ = true
    · rw [if_pos hpr] at hunrevoked
      cases hunrevoked
    · rw [if_neg hpr] at hlive hunrevoked ⊢
      have hold := h.held r₀ hr₀ t (fun e' he' => ht e' (List.mem_append_left _ he')) hlive
      refine (hkey (T.print r₀.id)).mpr ⟨hold, fun m hm hid => ?_⟩
      obtain ⟨hmem, hreached⟩ := (hss m).mp hm
      obtain ⟨r', hr', -, rfl⟩ := h.mirrors.mem_byId.mp hmem
      obtain rfl := Table.eq_of_key_eq hr₀ hr' (T.print_inj.mp hid)
      exact hpr ((hp r₀).mpr ⟨hreached, hunrevoked⟩)
  · obtain ⟨r₀, hr₀, rfl⟩ := s.database.mem_setRevoked.mp hr
    obtain ⟨e', he', p', hp', hid, hhash⟩ := h.issued r₀ hr₀
    refine ⟨e', List.mem_append_left _ he', p', hp', ?_⟩
    split <;> exact ⟨hid, hhash⟩

omit [DecidableEq Hash] in
/-- A live session is touched in both stores. -/
theorem Agree.touch (h : Agree T hashToken events s) (hordered : ∀ e' ∈ events, e'.now ≤ e.now)
    {r : SessionRow Hash} (hr : r ∈ s.database.sessions) (hlive : live r e.now = true) :
    Agree T hashToken (events ++ [e])
      ⟨s.memory.touch (T.print r.id) e.now, s.database.touch r.id e.now⟩ := by
  refine ⟨h.mirrors.touch r.id e.now, fun r' hr' now hnow hlive' => ?_, fun r' hr' => ?_⟩
  · obtain ⟨r₀, hr₀, rfl⟩ := s.database.mem_touch.mp hr'
    by_cases hid : r₀.id = r.id
    · rw [if_pos hid, touch_hasKey, hid]
      exact h.held r hr e.now hordered hlive
    · rw [if_neg hid] at hlive' ⊢
      rw [touch_hasKey]
      exact h.held r₀ hr₀ now (fun e' he' => hnow e' (List.mem_append_left _ he')) hlive'
  · obtain ⟨r₀, hr₀, rfl⟩ := s.database.mem_touch.mp hr'
    obtain ⟨e', he', p, hp, hid, hhash⟩ := h.issued r₀ hr₀
    refine ⟨e', List.mem_append_left _ he', p, hp, ?_⟩
    split <;> exact ⟨hid, hhash⟩

end Steps

/-- The row of a new session. -/
def newRow (id accountId : Uuid) (device : DeviceInfo) (tokenHash : Hash) (now : ℤ) :
    SessionRow Hash :=
  ⟨id, accountId, device, tokenHash, now, now, now + absoluteTtl, none⟩

section Issue

variable {events : List Event} {s : Stores Hash} {e : Event} {accountId id : Uuid}
  {device : DeviceInfo} {token : String}

/-- A new session is inserted. -/
theorem issue_database (hid : ∀ r ∈ s.database.sessions, r.id ≠ id)
    (hhash : ∀ r ∈ s.database.sessions, r.tokenHash ≠ hashToken token) (now : ℤ) :
    s.database.issue T hashToken (T.print accountId) device id token now =
      (.issued (newSession (T.print id) (T.print accountId) device (hashToken token) now) token,
        ⟨s.database.sessions.insertNew (newRow id accountId device (hashToken token) now)⟩) := by
  have hfree : ¬ (s.database.sessions.rows.any fun r => r.tokenHash = hashToken token) = true := by
    simpa using hhash
  have hkey : s.database.sessions.hasKey id = false := Table.hasKey_eq_false.mpr hid
  rw [DrizzleSessionStore.issue, T.parse_print]
  unfold DrizzleSessionStore.insertRow
  dsimp only
  rw [if_neg hfree]
  unfold Table.insertAll
  rw [if_neg (by simp [hkey])]
  rfl

theorem Agree.issue (h : Agree T hashToken events s)
    (hcall : e.call = .issue (T.print accountId) device id token)
    (hid : ∀ r ∈ s.database.sessions, r.id ≠ id)
    (hhash : ∀ r ∈ s.database.sessions, r.tokenHash ≠ hashToken token) :
    Agree T hashToken (events ++ [e])
      ⟨⟨s.memory.byId.insertNew
          (newSession (T.print id) (T.print accountId) device (hashToken token) e.now),
        s.memory.idByTokenHash.insertNew (hashToken token, T.print id)⟩,
        ⟨s.database.sessions.insertNew (newRow id accountId device (hashToken token) e.now)⟩⟩ := by
  have hmem : ∀ m ∈ s.memory.byId, ∃ r ∈ s.database.sessions, (r.toSession T) = m := fun m hm => by
    obtain ⟨r, hr, -, hrm⟩ := h.mirrors.mem_byId.mp hm
    exact ⟨r, hr, hrm⟩
  have hmemId : ∀ m ∈ s.memory.byId, m.id ≠ T.print id := by
    intro m hm
    obtain ⟨r, hr, rfl⟩ := hmem m hm
    exact fun hprint => hid r hr (T.print_inj.mp hprint)
  have hmemHash : ∀ x ∈ s.memory.idByTokenHash, x.1 ≠ hashToken token := by
    rintro ⟨hash, id'⟩ hx
    obtain ⟨m, hm, rfl, -⟩ := (h.mirrors.index _ _).mp hx
    obtain ⟨r, hr, rfl⟩ := hmem m hm
    exact hhash r hr
  let row := newRow id accountId device (hashToken token) e.now
  have hrow : ∀ r, r ∈ s.database.sessions.insertNew row ↔ r ∈ s.database.sessions ∨ r = row :=
    fun r => Table.mem_insertNew_of_new hid
  have hkey : ∀ id', (s.memory.byId.insertNew (row.toSession T)).hasKey id' = true ↔
      s.memory.byId.hasKey id' = true ∨ id' = T.print id := Table.hasKey_insertNew hmemId
  refine ⟨⟨?_, fun r hr hheld => ?_, fun hash id' => ?_, fun r hr r' hr' hsame => ?_⟩,
    fun r hr now hnow hlive => ?_, fun r hr => ?_⟩
  · have hold : (s.database.sessions.rows.filter fun r =>
        (s.memory.byId.insertNew (row.toSession T)).hasKey (T.print r.id)) =
        s.database.sessions.rows.filter fun r => s.memory.byId.hasKey (T.print r.id) := by
      refine List.filter_congr fun r hr => ?_
      rw [Bool.eq_iff_iff, hkey, T.print_inj, or_iff_left (hid r hr)]
    have hlast : ([row].filter fun r =>
        (s.memory.byId.insertNew (row.toSession T)).hasKey (T.print r.id)) =
        [row] := by
      refine List.filter_eq_self.mpr fun r hr => ?_
      rw [List.mem_singleton.mp hr]
      exact (hkey _).mpr (Or.inr rfl)
    change (s.memory.byId.insertNew (row.toSession T)).rows =
      ((s.database.sessions.insertNew row).rows.filter fun r =>
        (s.memory.byId.insertNew (row.toSession T)).hasKey (T.print r.id)).map
          (SessionRow.toSession T)
    rw [Table.rows_insertNew hmemId, Table.rows_insertNew hid, List.filter_append,
      List.map_append, hold, ← h.mirrors.kept, hlast]
    rfl
  · rcases (hrow r).mp hr with hr | rfl
    · have hother : T.print r.id ≠ T.print id := T.print_inj.not.mpr (hid r hr)
      exact h.mirrors.unrevoked r hr (((hkey (T.print r.id)).mp hheld).resolve_right hother)
    · rfl
  · rw [Table.mem_insertNew_of_new hmemHash, h.mirrors.index]
    simp only [Table.mem_insertNew_of_new (r := newSession (T.print id)
      (T.print accountId) device (hashToken token) e.now) hmemId]
    constructor
    · rintro (⟨m, hm, hmhash, hmid⟩ | heq)
      · exact ⟨m, Or.inl hm, hmhash, hmid⟩
      · cases heq
        exact ⟨_, Or.inr rfl, rfl, rfl⟩
    · rintro ⟨m, hm | rfl, rfl, rfl⟩
      · exact Or.inl ⟨m, hm, rfl, rfl⟩
      · exact Or.inr rfl
  · rcases (hrow r).mp hr with hr | rfl <;> rcases (hrow r').mp hr' with hr' | rfl
    · exact h.mirrors.hashes r hr r' hr' hsame
    · exact absurd hsame (hhash r hr)
    · exact absurd hsame.symm (hhash r' hr')
    · rfl
  · rcases (hrow r).mp hr with hr | rfl
    · exact (hkey (T.print r.id)).mpr (Or.inl (h.held r hr now
        (fun e' he' => hnow e' (List.mem_append_left _ he')) hlive))
    · exact (hkey _).mpr (Or.inr rfl)
  · rcases (hrow r).mp hr with hr | rfl
    · obtain ⟨e', he', hissued⟩ := h.issued r hr
      exact ⟨e', List.mem_append_left _ he', hissued⟩
    · exact ⟨e, by simp, (id, token), by rw [issuedBy, hcall], rfl, rfl⟩

end Issue

section Served

variable {events : List Event} {s : Stores Hash} {e : Event}

/-- What both stores know of a token. -/
theorem Agree.authenticate_cases (h : Agree T hashToken events s)
    (hordered : ∀ e' ∈ events, e'.now ≤ e.now) (token : String) :
    (∃ r ∈ s.database.sessions, live r e.now = true ∧
      s.memory.lookup (hashToken token) = some (r.toSession T) ∧
      (s.database.sessions.select fun r => r.tokenHash = hashToken token ∧ live r e.now).head? =
        some r) ∨
    ((s.database.sessions.select fun r => r.tokenHash = hashToken token ∧ live r e.now).head? =
        none ∧ ∀ m, s.memory.lookup (hashToken token) = some m → isLive m e.now = false) := by
  cases hselect :
      (s.database.sessions.select fun r => r.tokenHash = hashToken token ∧ live r e.now).head? with
  | some r =>
    obtain ⟨hr, hmatch⟩ := Table.mem_select.mp (List.mem_of_head? hselect)
    obtain ⟨hhash, hlive⟩ := of_decide_eq_true hmatch
    have hheld := h.held r hr e.now hordered hlive
    exact Or.inl ⟨r, hr, hlive, h.mirrors.lookup_eq_some.mpr
      ⟨h.mirrors.mem_byId.mpr ⟨r, hr, hheld, rfl⟩, hhash⟩, rfl⟩
  | none =>
    refine Or.inr ⟨rfl, fun m hm => ?_⟩
    obtain ⟨hmem, hhash⟩ := h.mirrors.lookup_eq_some.mp hm
    obtain ⟨r, hr, hheld, rfl⟩ := h.mirrors.mem_byId.mp hmem
    by_contra hlive
    have hfound : r ∈ s.database.sessions.select fun r =>
        r.tokenHash = hashToken token ∧ live r e.now := by
      refine Table.mem_select.mpr ⟨hr, decide_eq_true ⟨hhash, ?_⟩⟩
      exact live_iff.mpr ⟨h.mirrors.unrevoked r hr hheld, by simpa using hlive⟩
    rw [List.head?_eq_none_iff] at hselect
    rw [hselect] at hfound
    cases hfound

/-- A call keeps the stores in agreement. -/
theorem Agree.step (h : Agree T hashToken events s) (hordered : ∀ e' ∈ events, e'.now ≤ e.now)
    (hspelled : Spelled T e)
    (hfresh : ∀ p, issuedBy e = some p → ∀ e' ∈ events, ∀ p', issuedBy e' = some p' →
      p'.1 ≠ p.1 ∧ hashToken p'.2 ≠ hashToken p.2) :
    Agree T hashToken (events ++ [e]) (s.step T hashToken e) := by
  have hnone : ∀ m ∈ ([] : List (Session Hash)), m ∈ s.memory.byId ∧ isLive m e.now = false := by
    simp
  rw [Spelled] at hspelled
  cases hcall : e.call with
  | issue userId device id token =>
    rw [hcall] at hspelled
    obtain ⟨accountId, rfl⟩ := hspelled
    have hnew : ∀ r ∈ s.database.sessions, r.id ≠ id ∧ r.tokenHash ≠ hashToken token := by
      intro r hr
      obtain ⟨e', he', p, hp, hpid, hphash⟩ := h.issued r hr
      rw [← hpid, ← hphash]
      exact hfresh (id, token) (by rw [issuedBy, hcall]) e' he' p hp
    rw [Stores.step, InMemorySessionStore.serve, DrizzleSessionStore.serve, hcall]
    dsimp only
    rw [issue_database (fun r hr => (hnew r hr).1) fun r hr => (hnew r hr).2]
    exact h.issue hcall (fun r hr => (hnew r hr).1) fun r hr => (hnew r hr).2
  | authenticate token =>
    rw [Stores.step, InMemorySessionStore.serve, DrizzleSessionStore.serve, hcall]
    dsimp only
    rw [InMemorySessionStore.authenticate, DrizzleSessionStore.authenticate]
    rcases h.authenticate_cases hordered token with
      ⟨r, hr, hlive, hlookup, hselect⟩ | ⟨hselect, hended⟩
    · rw [hlookup, hselect]
      dsimp only
      have hisLive : isLive (r.toSession T) e.now = true := (live_iff.mp hlive).2
      rw [if_neg (by simp [hisLive])]
      have hseen : (r.toSession T).lastSeenAt = r.lastSeenAt := rfl
      rw [hseen]
      by_cases htouch : touchGranularity ≤ e.now - r.lastSeenAt
      · rw [if_pos htouch, if_pos htouch]
        exact h.touch hordered hr hlive
      · rw [if_neg htouch, if_neg htouch]
        exact h.forget hnone
    · rw [hselect]
      cases hlookup : s.memory.lookup (hashToken token) with
      | none => exact h.forget hnone
      | some m =>
        have hdead := hended m hlookup
        dsimp only
        rw [if_pos (by simp [hdead])]
        have hended' : ∀ m' ∈ [m], m' ∈ s.memory.byId ∧ isLive m' e.now = false := by
          intro m' hm'
          rw [List.mem_singleton.mp hm']
          exact ⟨(h.mirrors.lookup_eq_some.mp hlookup).1, hdead⟩
        exact h.forget hended'
  | listForUser userId =>
    rw [hcall] at hspelled
    obtain ⟨accountId, rfl⟩ := hspelled
    rw [Stores.step, InMemorySessionStore.serve, DrizzleSessionStore.serve, hcall]
    dsimp only
    rw [DrizzleSessionStore.listForUser, T.parse_print]
    refine h.forget fun m hm => ?_
    obtain ⟨hmine, hdead⟩ := List.mem_filter.mp hm
    exact ⟨(Table.mem_select.mp hmine).1, by simpa using hdead⟩
  | revoke userId sessionId =>
    rw [hcall] at hspelled
    obtain ⟨⟨accountId, rfl⟩, id, rfl⟩ := hspelled
    let reached (m : Session Hash) : Prop := m.id = T.print id ∧ m.userId = T.print accountId
    have hp : ∀ r : SessionRow Hash,
        decide (r.id = id ∧ r.accountId = accountId ∧ r.revokedAt = none) = true ↔
          reached (r.toSession T) ∧ r.revokedAt = none := by
      intro r
      have hsame : reached (r.toSession T) ↔ r.id = id ∧ r.accountId = accountId :=
        and_congr T.print_inj T.print_inj
      rw [hsame, decide_eq_true_iff, and_assoc]
    rw [Stores.step, InMemorySessionStore.serve, DrizzleSessionStore.serve, hcall]
    dsimp only
    rw [InMemorySessionStore.revoke, DrizzleSessionStore.revoke, T.parse_print, T.parse_print]
    cases hfind : s.memory.byId.find (T.print id) with
    | none =>
      have hss : ∀ m, m ∈ ([] : List (Session Hash)) ↔ m ∈ s.memory.byId ∧ reached m := by
        intro m
        refine iff_of_false List.not_mem_nil ?_
        rintro ⟨hm, hreached⟩
        exact Table.find_eq_none.mp hfind m hm hreached.1
      exact h.revoke hss hp e.now
    | some m =>
      obtain ⟨hm, hid⟩ := Table.find_eq_some.mp hfind
      have hsame : ∀ m' ∈ s.memory.byId, m'.id = T.print id → m' = m :=
        fun m' hm' hid' => Table.eq_of_key_eq hm' hm (hid'.trans hid.symm)
      dsimp only
      by_cases huser : m.userId = T.print accountId
      · rw [if_neg (not_not.mpr huser)]
        have hss : ∀ m', m' ∈ [m] ↔ m' ∈ s.memory.byId ∧ reached m' := by
          intro m'
          rw [List.mem_singleton]
          constructor
          · rintro rfl
            exact ⟨hm, hid, huser⟩
          · rintro ⟨hm', hid', -⟩
            exact hsame m' hm' hid'
        exact h.revoke hss hp e.now
      · rw [if_pos huser]
        have hss : ∀ m', m' ∈ ([] : List (Session Hash)) ↔ m' ∈ s.memory.byId ∧ reached m' := by
          intro m'
          refine iff_of_false List.not_mem_nil ?_
          rintro ⟨hm', hid', huser'⟩
          rw [hsame m' hm' hid'] at huser'
          exact huser huser'
        exact h.revoke hss hp e.now
  | revokeAllExcept userId keep =>
    rw [hcall] at hspelled
    obtain ⟨⟨accountId, rfl⟩, keepId, rfl⟩ := hspelled
    let reached (m : Session Hash) : Prop := m.userId = T.print accountId ∧ m.id ≠ T.print keepId
    rw [Stores.step, InMemorySessionStore.serve, DrizzleSessionStore.serve, hcall]
    dsimp only
    rw [DrizzleSessionStore.revokeAllExcept, T.parse_print, T.parse_print]
    have hss : ∀ m, m ∈ (s.memory.byId.select fun m =>
        m.userId = T.print accountId ∧ m.id ≠ T.print keepId) ↔ m ∈ s.memory.byId ∧ reached m := by
      intro m
      rw [Table.mem_select, decide_eq_true_iff]
    have hp : ∀ r : SessionRow Hash,
        decide (r.accountId = accountId ∧ r.id ≠ keepId ∧ r.revokedAt = none) = true ↔
          reached (r.toSession T) ∧ r.revokedAt = none := by
      intro r
      have hsame : reached (r.toSession T) ↔ r.accountId = accountId ∧ r.id ≠ keepId :=
        and_congr T.print_inj (not_congr T.print_inj)
      rw [hsame, decide_eq_true_iff, and_assoc]
    exact h.revoke hss hp e.now

end Served

/-- What holds of the sessions of a store after some calls. -/
structure Kept {ι : Type} (T : UuidText) (read : String → Option ι)
    (answer : List Event → Event → Returned Hash) (events : List Event)
    (held : Session Hash → Prop) : Prop where
  expires : ∀ m, held m → m.expiresAt = m.createdAt + absoluteTtl
  since : ∀ m, held m → Since (Issues T read m) (Revokes read m) events
  used : ∀ m, held m → UsedAt T answer m.id events m.lastSeenAt

/-- A session that a call leaves in a store: a new one, or one that was there and is at most
touched, when it is authenticated. -/
def Left {ι : Type} (T : UuidText) (read : String → Option ι) (returned : Returned Hash)
    (e : Event) (held : Session Hash → Prop) (m : Session Hash) : Prop :=
  (Issues T read m e ∧ m.expiresAt = e.now + absoluteTtl ∧ m.lastSeenAt = e.now) ∨
  ∃ m₀ seen, held m₀ ∧ ¬ Revokes read m₀ e ∧ m = { m₀ with lastSeenAt := seen } ∧
    (seen = m₀.lastSeenAt ∨ seen = e.now ∧ ∃ s, returned = .session (some s) ∧ s.id = m₀.id)

section Kept

variable {ι : Type} {read : String → Option ι} {answer : List Event → Event → Returned Hash}
  {events : List Event} {e : Event} {held held' : Session Hash → Prop} {returned : Returned Hash}

omit [DecidableEq Hash] in
/-- A call keeps what holds of the sessions. -/
theorem Kept.step (h : Kept T read answer events held)
    (hleft : ∀ m, held' m → Left T read (answer events e) e held m) :
    Kept T read answer (events ++ [e]) held' := by
  refine ⟨fun m hm => ?_, fun m hm => ?_, fun m hm => ?_⟩
  · obtain ⟨hissued, hexpires, -⟩ | ⟨m₀, seen, hm₀, -, rfl, -⟩ := hleft m hm
    · rw [hexpires, hissued.1]
    · exact h.expires m₀ hm₀
  · obtain ⟨hissued, -⟩ | ⟨m₀, seen, hm₀, hkeeps, rfl, -⟩ := hleft m hm
    · exact .now hissued
    · exact (h.since m₀ hm₀).later hkeeps
  · obtain ⟨⟨-, userId, id, token, hcall, -, hid⟩, -, hseen⟩ |
      ⟨m₀, seen, hm₀, -, rfl, rfl | ⟨rfl, hsession⟩⟩ := hleft m hm
    · exact ⟨events, e, [], rfl, hseen.symm, Or.inl ⟨userId, _, id, token, hcall, hid⟩⟩
    · obtain ⟨before, e', after, rfl, hused⟩ := h.used m₀ hm₀
      exact ⟨before, e', after ++ [e], by simp, hused⟩
    · exact ⟨events, e, [], rfl, rfl, Or.inr hsession⟩

omit [DecidableEq Hash] in
/-- A session that is held and live may be authenticated. -/
theorem Kept.current (h : Kept T read answer events held) {m : Session Hash} (hm : held m)
    {now : ℤ} (hlive : isLive m now = true) : Current T read answer events m now := by
  rw [isLive, decide_eq_true_iff, h.expires m hm] at hlive
  exact ⟨hlive.1, ⟨m.lastSeenAt, h.used m hm, by omega⟩, h.since m hm⟩

/-- A row that is not revoked. -/
def DrizzleSessionStore.Holds (T : UuidText) (store : DrizzleSessionStore Hash)
    (m : Session Hash) : Prop := ∃ r ∈ store.sessions, r.revokedAt = none ∧ r.toSession T = m

end Kept

end Zvault.Devices
