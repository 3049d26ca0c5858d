import Mathlib.Data.List.Basic
import Zvault.Devices.Sessions
import Zvault.Past.Since

/-!
# The two session stores

The stores run side by side. What memory holds is what rows of the table say, of
sessions that are not revoked; every live session is held. Sessions that ended by
themselves are forgotten in memory as soon as they are met, but their rows stay.
-/

namespace Zvault.Devices

open Relational Past

variable {Hash : Type} [DecidableEq Hash]

inductive SessionCall where
  | issue (userId : String) (device : DeviceInfo) (id : Uuid) (token : String)
  | authenticate (token : String)
  | listForUser (userId : String)
  | revoke (userId sessionId : String)
  | revokeAllExcept (userId keepSessionId : String)
  deriving DecidableEq, Repr

/-- A call, and when it is made. -/
structure Event where
  call : SessionCall
  now : ℤ
  deriving DecidableEq, Repr

def InMemorySessionStore.serve (T : UuidText) (hashToken : String → Hash)
    (store : InMemorySessionStore Hash) (e : Event) : Returned Hash × InMemorySessionStore Hash :=
  match e.call with
  | .issue userId device id token => store.issue hashToken userId device (T.print id) token e.now
  | .authenticate token => store.authenticate hashToken token e.now
  | .listForUser userId => store.listForUser userId e.now
  | .revoke userId sessionId => store.revoke userId sessionId
  | .revokeAllExcept userId keep => store.revokeAllExcept userId keep

def DrizzleSessionStore.serve (T : UuidText) (hashToken : String → Hash)
    (store : DrizzleSessionStore Hash) (e : Event) : Returned Hash × DrizzleSessionStore Hash :=
  match e.call with
  | .issue userId device id token => store.issue T hashToken userId device id token e.now
  | .authenticate token => store.authenticate T hashToken token e.now
  | .listForUser userId => store.listForUser T userId e.now
  | .revoke userId sessionId => store.revoke T userId sessionId e.now
  | .revokeAllExcept userId keep => store.revokeAllExcept T userId keep e.now

/-- Both stores. -/
structure Stores (Hash : Type) where
  memory : InMemorySessionStore Hash
  database : DrizzleSessionStore Hash

def Stores.step (T : UuidText) (hashToken : String → Hash) (s : Stores Hash) (e : Event) :
    Stores Hash :=
  ⟨(s.memory.serve T hashToken e).2, (s.database.serve T hashToken e).2⟩

/-- The stores after some calls. -/
def Stores.after (T : UuidText) (hashToken : String → Hash) (events : List Event) : Stores Hash :=
  events.foldl (Stores.step T hashToken) ⟨.empty, .empty⟩

/-- What a call returns after others, from memory. -/
def memoryAnswer (T : UuidText) (hashToken : String → Hash) (events : List Event) (e : Event) :
    Returned Hash :=
  ((Stores.after T hashToken events).memory.serve T hashToken e).1

/-- What a call returns after others, from the database. -/
def databaseAnswer (T : UuidText) (hashToken : String → Hash) (events : List Event) (e : Event) :
    Returned Hash :=
  ((Stores.after T hashToken events).database.serve T hashToken e).1

/-- The clock does not go back. -/
def Ordered (events : List Event) : Prop := events.Pairwise fun e e' => e.now ≤ e'.now

def issuedBy (e : Event) : Option (Uuid × String) :=
  match e.call with
  | .issue _ _ id token => some (id, token)
  | _ => none

/-- Generated ids and tokens are new, and so are the hashes of the tokens. -/
def Fresh (hashToken : String → Hash) (events : List Event) : Prop :=
  (events.filterMap issuedBy).Pairwise fun a b => a.1 ≠ b.1 ∧ hashToken a.2 ≠ hashToken b.2

/-- A text is the one that a uuid is written as. -/
def UuidText.Writes (T : UuidText) (text : String) : Prop := ∃ id, T.print id = text

/-- The ids that a call is given are spelled as the stores write them. -/
def Spelled (T : UuidText) (e : Event) : Prop :=
  match e.call with
  | .issue userId _ _ _ => T.Writes userId
  | .authenticate _ => True
  | .listForUser userId => T.Writes userId
  | .revoke userId sessionId => T.Writes userId ∧ T.Writes sessionId
  | .revokeAllExcept userId keep => T.Writes userId ∧ T.Writes keep

section Reading

variable {ι : Type} (T : UuidText) (read : String → Option ι)

/-- The call that issues a session, for a store that reads ids so. -/
def Issues (s : Session Hash) (e : Event) : Prop :=
  e.now = s.createdAt ∧ ∃ userId id token, e.call = .issue userId s.device id token ∧
    read userId = read s.userId ∧ T.print id = s.id

/-- The calls that revoke a session, for a store that reads ids so. -/
def Revokes (s : Session Hash) (e : Event) : Prop :=
  (∃ userId sessionId, e.call = .revoke userId sessionId ∧ read userId = read s.userId ∧
    read sessionId = read s.id) ∨
  ∃ userId keep, e.call = .revokeAllExcept userId keep ∧ read userId = read s.userId ∧
    (read keep).isSome = true ∧ read keep ≠ read s.id

/-- A session is issued, or authenticated, at a time. -/
def UsedAt (answer : List Event → Event → Returned Hash) (id : String) (events : List Event)
    (time : ℤ) : Prop :=
  ∃ before e after, events = before ++ e :: after ∧ e.now = time ∧
    ((∃ userId device id' token, e.call = .issue userId device id' token ∧ T.print id' = id) ∨
      ∃ s, answer before e = .session (some s) ∧ s.id = id)

/-- What a session must be to be authenticated after some calls: within its lifetime, used within
the idle limit, and not revoked since it was issued. -/
def Current (answer : List Event → Event → Returned Hash) (events : List Event)
    (session : Session Hash) (now : ℤ) : Prop :=
  now < session.createdAt + absoluteTtl ∧
    (∃ used, UsedAt T answer session.id events used ∧ now < used + idleTtl) ∧
    Since (Issues T read session) (Revokes read session) events

end Reading

/-- What memory holds is what the table says. -/
structure Mirrors (T : UuidText) (memory : InMemorySessionStore Hash)
    (database : DrizzleSessionStore Hash) : Prop where
  kept : memory.byId.rows = (database.sessions.rows.filter fun r =>
    memory.byId.hasKey (T.print r.id)).map (SessionRow.toSession T)
  unrevoked : ∀ r ∈ database.sessions, memory.byId.hasKey (T.print r.id) = true → r.revokedAt = none
  index : ∀ h id, (h, id) ∈ memory.idByTokenHash ↔
    ∃ m ∈ memory.byId, m.tokenHash = h ∧ m.id = id
  hashes : ∀ r ∈ database.sessions, ∀ r' ∈ database.sessions, r.tokenHash = r'.tokenHash → r = r'

section Mirrors

variable {T : UuidText} {memory : InMemorySessionStore Hash} {database : DrizzleSessionStore Hash}

omit [DecidableEq Hash] in
theorem Mirrors.mem_byId (h : Mirrors T memory database) {m : Session Hash} :
    m ∈ memory.byId ↔ ∃ r ∈ database.sessions,
      memory.byId.hasKey (T.print r.id) = true ∧ r.toSession T = m := by
  rw [← Table.mem_rows, h.kept, List.mem_map]
  simp only [List.mem_filter, Table.mem_rows, and_assoc]

omit [DecidableEq Hash] in
theorem Mirrors.hash_inj (h : Mirrors T memory database) {m m' : Session Hash}
    (hm : m ∈ memory.byId) (hm' : m' ∈ memory.byId) (hhash : m.tokenHash = m'.tokenHash) :
    m = m' := by
  obtain ⟨r, hr, -, rfl⟩ := h.mem_byId.mp hm
  obtain ⟨r', hr', -, rfl⟩ := h.mem_byId.mp hm'
  rw [h.hashes r hr r' hr' hhash]

/-- The session that memory finds for a token. -/
theorem Mirrors.lookup_eq_some (h : Mirrors T memory database) {hash : Hash} {m : Session Hash} :
    memory.lookup hash = some m ↔ m ∈ memory.byId ∧ m.tokenHash = hash := by
  rw [InMemorySessionStore.lookup, Option.bind_eq_some_iff]
  constructor
  · rintro ⟨⟨hash', id⟩, hfind, hbyId⟩
    obtain ⟨hentry, rfl⟩ := Table.find_eq_some.mp hfind
    obtain ⟨m', hm', hhash, hid⟩ := (h.index _ _).mp hentry
    obtain ⟨hm, hmid⟩ := Table.find_eq_some.mp hbyId
    obtain rfl := Table.eq_of_key_eq hm hm' (hmid.trans hid.symm)
    exact ⟨hm, hhash⟩
  · rintro ⟨hm, rfl⟩
    exact ⟨(m.tokenHash, m.id), Table.find_eq_some.mpr ⟨(h.index _ _).mpr ⟨m, hm, rfl, rfl⟩, rfl⟩,
      Table.find_eq_some.mpr ⟨hm, rfl⟩⟩

end Mirrors

namespace InMemorySessionStore

variable (memory : InMemorySessionStore Hash)

theorem foldl_remove_byId (ss : List (Session Hash)) :
    (ss.foldl remove memory).byId = memory.byId.delete fun m => ss.any fun s => m.id = s.id := by
  induction ss generalizing memory with
  | nil => exact (Table.delete_eq_self fun _ _ => rfl).symm
  | cons s ss ih =>
    rw [List.foldl_cons, ih]
    apply Table.ext
    simp [remove, Table.delete, List.filter_filter, Bool.and_comm]

theorem foldl_remove_index (ss : List (Session Hash)) :
    (ss.foldl remove memory).idByTokenHash =
      memory.idByTokenHash.delete fun e => ss.any fun s => e.1 = s.tokenHash := by
  induction ss generalizing memory with
  | nil => exact (Table.delete_eq_self fun _ _ => rfl).symm
  | cons s ss ih =>
    rw [List.foldl_cons, ih]
    apply Table.ext
    simp [remove, Table.delete, List.filter_filter, Bool.and_comm]

/-- What is still held after some sessions were deleted. -/
theorem foldl_remove_hasKey (ss : List (Session Hash)) (id : String) :
    (ss.foldl remove memory).byId.hasKey id = true ↔
      memory.byId.hasKey id = true ∧ ∀ s ∈ ss, id ≠ s.id := by
  rw [foldl_remove_byId, Table.hasKey_iff, Table.hasKey_iff]
  simp only [Table.mem_delete, List.any_eq_false, decide_eq_true_eq]
  constructor
  · rintro ⟨m, ⟨hm, hnone⟩, rfl⟩
    exact ⟨⟨m, hm, rfl⟩, hnone⟩
  · rintro ⟨⟨m, hm, rfl⟩, hnone⟩
    exact ⟨m, ⟨hm, hnone⟩, rfl⟩

end InMemorySessionStore

section Keeps

variable {T : UuidText} {memory : InMemorySessionStore Hash} {database : DrizzleSessionStore Hash}

/-- Memory may forget sessions. -/
theorem Mirrors.remove (h : Mirrors T memory database) {ss : List (Session Hash)}
    (hss : ∀ s ∈ ss, s ∈ memory.byId) :
    Mirrors T (ss.foldl InMemorySessionStore.remove memory) database := by
  have hkey := memory.foldl_remove_hasKey ss
  refine ⟨?_, fun r hr hheld => h.unrevoked r hr ((hkey (T.print r.id)).mp hheld).1,
    fun hash id => ?_, h.hashes⟩
  · have hrows : (ss.foldl InMemorySessionStore.remove memory).byId.rows =
        memory.byId.rows.filter fun m => !ss.any fun s => m.id = s.id := by
      rw [InMemorySessionStore.foldl_remove_byId]
      rfl
    rw [hrows, h.kept, List.filter_map, List.filter_filter]
    refine congrArg _ (List.filter_congr fun r _ => ?_)
    rw [Bool.eq_iff_iff, hkey]
    simp only [Function.comp_apply, SessionRow.toSession, Bool.and_eq_true, Bool.not_eq_true',
      List.any_eq_false, ne_eq]
    rw [and_comm]
    exact and_congr_right fun _ => forall₂_congr fun s _ => not_congr decide_eq_true_iff
  · rw [InMemorySessionStore.foldl_remove_index, Table.mem_delete, h.index,
      InMemorySessionStore.foldl_remove_byId]
    simp only [Table.mem_delete, List.any_eq_false, decide_eq_true_eq]
    constructor
    · rintro ⟨⟨m, hm, rfl, rfl⟩, hnone⟩
      refine ⟨m, ⟨hm, fun s hs hid => hnone s hs ?_⟩, rfl, rfl⟩
      rw [Table.eq_of_key_eq hm (hss s hs) hid]
    · rintro ⟨m, ⟨hm, hnone⟩, rfl, rfl⟩
      refine ⟨⟨m, hm, rfl, rfl⟩, fun s hs hhash => hnone s hs ?_⟩
      rw [h.hash_inj hm (hss s hs) hhash]

omit [DecidableEq Hash] in
theorem touch_hasKey (memory : InMemorySessionStore Hash) (id : String) (now : ℤ) (id' : String) :
    (memory.touch id now).byId.hasKey id' = memory.byId.hasKey id' :=
  Table.hasKey_update (t := memory.byId) (p := fun m => m.id = id)
    (f := fun m => { m with lastSeenAt := now }) (fun _ => rfl) id'

omit [DecidableEq Hash] in
/-- Both stores touch a session. -/
theorem Mirrors.touch (h : Mirrors T memory database) (id : Uuid) (now : ℤ) :
    Mirrors T (memory.touch (T.print id) now) (database.touch id now) := by
  have hupdated : ∀ r ∈ (database.touch id now).sessions, ∃ r₀ ∈ database.sessions,
      r.id = r₀.id ∧ r.tokenHash = r₀.tokenHash ∧ r.revokedAt = r₀.revokedAt ∧
        r = if r₀.id = id then { r₀ with lastSeenAt := now } else r₀ := by
    intro r hr
    obtain ⟨r₀, hr₀, rfl⟩ := database.mem_touch.mp hr
    refine ⟨r₀, hr₀, ?_⟩
    by_cases hid : r₀.id = id <;> simp [hid]
  refine ⟨?_, fun r hr hheld => ?_, fun hash id' => ?_, fun r hr r' hr' hhash => ?_⟩
  · have hheld : (fun r : SessionRow Hash =>
        (memory.touch (T.print id) now).byId.hasKey (T.print r.id)) =
        fun r => memory.byId.hasKey (T.print r.id) :=
      funext fun r => touch_hasKey memory (T.print id) now _
    change memory.byId.rows.map _ = ((database.sessions.rows.map _).filter _).map _
    rw [hheld, h.kept, List.filter_map, List.map_map, List.map_map]
    have hsame : (fun r : SessionRow Hash => memory.byId.hasKey (T.print r.id)) ∘
        (fun r : SessionRow Hash =>
        if decide (r.id = id) = true then { r with lastSeenAt := now } else r) =
        fun r => memory.byId.hasKey (T.print r.id) := by
      funext r
      by_cases hid : r.id = id <;> simp [hid]
    rw [hsame]
    refine List.map_congr_left fun r _ => ?_
    by_cases hid : r.id = id <;> simp [SessionRow.toSession, T.print_inj, hid]
  · obtain ⟨r₀, hr₀, hid, -, hrevoked, -⟩ := hupdated r hr
    rw [touch_hasKey, hid] at hheld
    rw [hrevoked]
    exact h.unrevoked r₀ hr₀ hheld
  · change (hash, id') ∈ memory.idByTokenHash ↔ _
    rw [h.index]
    constructor
    · rintro ⟨m, hm, rfl, rfl⟩
      refine ⟨_, memory.mem_touch.mpr ⟨m, hm, rfl⟩, ?_⟩
      split <;> exact ⟨rfl, rfl⟩
    · rintro ⟨m, hm, rfl, rfl⟩
      obtain ⟨m₀, hm₀, rfl⟩ := memory.mem_touch.mp hm
      refine ⟨m₀, hm₀, ?_⟩
      split <;> exact ⟨rfl, rfl⟩
  · obtain ⟨r₀, hr₀, -, hash₀, -, rfl⟩ := hupdated r hr
    obtain ⟨r₀', hr₀', -, hash₀', -, rfl⟩ := hupdated r' hr'
    rw [hash₀, hash₀'] at hhash
    rw [h.hashes r₀ hr₀ r₀' hr₀' hhash]

omit [DecidableEq Hash] in
/-- Rows that memory does not hold are revoked. -/
theorem Mirrors.revoke (h : Mirrors T memory database) {p : SessionRow Hash → Bool} (now : ℤ)
    (hp : ∀ r ∈ database.sessions, p r = true → memory.byId.hasKey (T.print r.id) = false) :
    Mirrors T memory (database.setRevoked p now) := by
  refine ⟨?_, fun r hr hheld => ?_, h.index, fun r hr r' hr' hhash => ?_⟩
  · change _ = ((database.sessions.rows.map _).filter _).map _
    have hsame : (fun r : SessionRow Hash => memory.byId.hasKey (T.print r.id)) ∘
        (fun r : SessionRow Hash =>
        if p r = true then { r with revokedAt := some now } else r) =
        fun r => memory.byId.hasKey (T.print r.id) := by
      funext r
      by_cases hr : p r = true <;> simp [hr]
    rw [List.filter_map, hsame, List.map_map, h.kept]
    refine List.map_congr_left fun r hr => ?_
    obtain ⟨hr, hheld⟩ := List.mem_filter.mp hr
    by_cases hpr : p r = true
    · rw [hp r hr hpr] at hheld
      cases hheld
    · simp [SessionRow.toSession, hpr]
  · obtain ⟨r₀, hr₀, rfl⟩ := database.mem_setRevoked.mp hr
    by_cases hpr : p r₀ = true
    · rw [if_pos hpr, hp r₀ hr₀ hpr] at hheld
      cases hheld
    · rw [if_neg hpr] at hheld ⊢
      exact h.unrevoked r₀ hr₀ hheld
  · obtain ⟨r₀, hr₀, rfl⟩ := database.mem_setRevoked.mp hr
    obtain ⟨r₀', hr₀', rfl⟩ := database.mem_setRevoked.mp hr'
    have hash₀ : ∀ r : SessionRow Hash,
        (if p r = true then { r with revokedAt := some now } else r).tokenHash = r.tokenHash := by
      intro r
      split <;> rfl
    have hhash₀ : r₀.tokenHash = r₀'.tokenHash := by rwa [hash₀, hash₀] at hhash
    rw [h.hashes r₀ hr₀ r₀' hr₀' hhash₀]

end Keeps

end Zvault.Devices
