import Zvault.Access.Decisions
import Zvault.Access.RotationExact
import Zvault.Projects.Requests

/-!
# The life of an access request

Whole calls about requests, in any order and mixed with any other change of the
database, at times that do not go back. Every approved request was approved by a
manager in time, and every release that is handed out was approved for the
caller less than fifteen minutes before.
-/

namespace Zvault

open Relational Concurrent AccessFacts EnvironmentsService

/-- A call about requests. `id` is the id the database generates for a new request. -/
inductive RequestCall where
  | create (holder : Holder) (environmentId : Uuid) (req : CreateAccessRequest) (id : Uuid)
  | list (accountId environmentId : Uuid)
  | get (holder : Holder) (requestId : Uuid)
  | approve (accountId requestId : Uuid) (release : ApproveAccessRequest)
  | deny (accountId requestId : Uuid)
  deriving DecidableEq, Repr

namespace RequestCall

/-- Who calls. -/
def caller : RequestCall → Holder
  | create holder .. => holder
  | list accountId _ => .account accountId
  | get holder _ => holder
  | approve accountId .. => .account accountId
  | deny accountId _ => .account accountId

/-- An answer of one view. -/
def single (answered : Answered AccessRequestView) : Answered (List AccessRequestView) :=
  (answered.1.map fun v => [v], answered.2)

/-- The views a call is answered with, and the store it leaves. -/
def serve (s : RequestStore) (now : Timestamp) : RequestCall → Answered (List AccessRequestView)
  | create holder environmentId req id => single (createRequest s holder environmentId req id now)
  | list accountId environmentId => listRequests s accountId environmentId now
  | get holder requestId => single (getRequest s holder requestId now)
  | approve accountId requestId release =>
    single (EnvironmentsService.approve s accountId requestId release now)
  | deny accountId requestId => single (EnvironmentsService.deny s accountId requestId now)

/-- The call as steps. -/
def task : RequestCall → RequestTask
  | create holder environmentId req _ => .createRequest holder environmentId req
  | list accountId environmentId => .listRequests accountId environmentId
  | get holder requestId => .getRequest holder requestId
  | approve accountId requestId release => .approve accountId requestId release
  | deny accountId requestId => .deny accountId requestId

end RequestCall

/-- A call that was served. -/
structure Called where
  now : Timestamp
  call : RequestCall
  answer : Except ApiError (List AccessRequestView)
  after : RequestStore

/-- A call served at a time. -/
def RequestCall.served (call : RequestCall) (s : RequestStore) (now : Timestamp) : Called :=
  ⟨now, call, (call.serve s now).1, (call.serve s now).2⟩

/-- The calls served so far, the store and the clock. Between two calls the database may
change in any way, and requests go with their environments. -/
inductive Calls (db : Db) : List Called → RequestStore → Timestamp → Prop
  | start : Calls db [] ⟨db, .empty⟩ 0
  | called {history : List Called} {s : RequestStore} {clock now : Timestamp}
      (h : Calls db history s clock) (hnow : clock ≤ now) (call : RequestCall) :
      Calls db (history ++ [call.served s now]) (call.served s now).after now
  | changed {history : List Called} {s : RequestStore} {clock : Timestamp}
      (h : Calls db history s clock) (db' : Db) (gone : AccessRequestRow → Bool) :
      Calls db history ⟨db', s.requests.delete gone⟩ clock

/-- A holder's level in an environment, with everything registered. -/
def LevelIn (db : Db) (environmentId : Uuid) (now : Timestamp) (holder : Holder)
    (level : AccessLevel) : Prop :=
  ∃ env, environment db environmentId now = (.ok env, db) ∧ levelOf db env holder now = level

/-- The call made the request, which expires an hour later. -/
structure Called.Made (c : Called) (r : AccessRequestRow) : Prop where
  call : c.call = .create r.requester r.environmentId ⟨r.items, r.reason⟩ r.id
  answered : ∃ v, c.answer = .ok [v]
  expiresAt : r.expiresAt = c.now + requestTtl

/-- The call approved the request before it expired, for an account that managed the
environment while the requester needed approval. -/
structure Called.Approved (c : Called) (accountId : Uuid) (release : ApproveAccessRequest)
    (r : AccessRequestRow) : Prop where
  call : c.call = .approve accountId r.id release
  answered : ∃ v, c.answer = .ok [v]
  inTime : c.now < r.expiresAt
  manager : LevelIn c.after.db r.environmentId c.now (.account accountId) .manage
  requester : LevelIn c.after.db r.environmentId c.now r.requester .needsApproval

/-- A stored request comes from the calls served so far: one made it, and if it is approved,
one approved it. -/
structure Traced (history : List Called) (r : AccessRequestRow) : Prop where
  made : ∃ c ∈ history, c.Made r
  approved : r.status = .approved → ∃ c ∈ history, ∃ accountId release,
    c.Approved accountId release r ∧ r.release = some release ∧
      r.releaseExpiresAt = some (c.now + releaseTtl)

theorem Traced.later {history : List Called} {r : AccessRequestRow} (h : Traced history r)
    (c : Called) : Traced (history ++ [c]) r where
  made := by
    obtain ⟨d, hd, hmade⟩ := h.made
    exact ⟨d, List.mem_append_left _ hd, hmade⟩
  approved hstatus := by
    obtain ⟨d, hd, happroved⟩ := h.approved hstatus
    exact ⟨d, List.mem_append_left _ hd, happroved⟩

/-- The level that includes everything is the highest. -/
theorem eq_manage_of_levelAtLeast {level : AccessLevel} (h : levelAtLeast level .manage = true) :
    level = .manage := by
  cases level <;> first | rfl | cases h

/-- A release is shown to the requester of an approved request, until it expires. -/
theorem view_release {r : AccessRequestRow} {forRequester : Bool} {now : Timestamp}
    {release : ApproveAccessRequest} (h : (view r forRequester now).release = some release) :
    forRequester = true ∧ r.status = .approved ∧ r.release = some release ∧
      ∃ t, r.releaseExpiresAt = some t ∧ now < t := by
  dsimp only [view] at h
  split at h
  · rename_i hlive
    obtain ⟨hrequester, hstatus, hexpires⟩ := of_decide_eq_true hlive
    obtain ⟨t, ht, hnow⟩ := (Option.any_eq_true _ _).mp hexpires
    exact ⟨hrequester, hstatus, h, t, ht, of_decide_eq_true hnow⟩
  · cases h

section Calls

variable {s s' : RequestStore} {holder : Holder} {accountId environmentId requestId id : Uuid}
  {now : Timestamp} {v : AccessRequestView}

/-- A request that is made is stored, undecided. -/
theorem createRequest_ok {req : CreateAccessRequest}
    (h : createRequest s holder environmentId req id now = (.ok v, s')) :
    ∃ publicKey, s.requests.insertAll [newRequest id holder publicKey environmentId req now] =
      some s'.requests ∧ v = view (newRequest id holder publicKey environmentId req now) true now := by
  unfold createRequest at h
  split at h
  · cases h
  split at h
  · cases h
  dsimp only at h
  split at h
  · cases h
  split at h
  · cases h
  rename_i publicKey _
  split at h
  · cases h
  rename_i requests hrequests
  cases h
  exact ⟨publicKey, hrequests, rfl⟩

theorem createRequest_error {req : CreateAccessRequest} {e : ApiError}
    (h : createRequest s holder environmentId req id now = (.error e, s')) :
    s'.requests = s.requests := by
  unfold createRequest at h
  split at h
  · cases h
    rfl
  split at h
  · cases h
    rfl
  dsimp only at h
  split at h
  · cases h
    rfl
  split at h
  · cases h
    rfl
  split at h <;> cases h
  rfl

/-- A request is decided by a manager, while it is pending and has not expired. -/
theorem decidable_ok {d : DecidableRequest} {db : Db}
    (h : decidable s accountId requestId now = (.ok d, db)) :
    s.requests.find requestId = some d.r ∧ d.r.status = .pending ∧ now < d.r.expiresAt ∧
      Loaded db accountId d.r.environmentId now ⟨d.env, d.me⟩ ∧
      levelOf db d.env (.account accountId) now = .manage := by
  unfold decidable at h
  split at h
  · cases h
  rename_i r hr
  split at h
  · cases h
  rename_i env me db₁ hvisible
  split at h
  · cases h
  rename_i hlevel
  split at h
  · cases h
  rename_i hopen
  cases h
  rw [not_or, not_not, not_le] at hopen
  rw [Bool.not_eq_true, Bool.not_eq_false'] at hlevel
  exact ⟨hr, hopen.1, hopen.2, visible_loaded hvisible, eq_manage_of_levelAtLeast hlevel⟩

theorem approve_ok {release : ApproveAccessRequest}
    (h : approve s accountId requestId release now = (.ok v, s')) :
    ∃ r, s.requests.find requestId = some r ∧ r.status = .pending ∧ now < r.expiresAt ∧
      LevelIn s'.db r.environmentId now (.account accountId) .manage ∧
      LevelIn s'.db r.environmentId now r.requester .needsApproval ∧
      s'.requests = (decideWhere s.requests requestId (AccessRequestRow.approve accountId release now)
        (AccessRequestRow.id_approve accountId release now)).2 ∧
      v = view (r.approve accountId release now) false now := by
  unfold approve at h
  split at h
  · cases h
  rename_i r env me db hdecidable
  obtain ⟨hr, hpending, hopen, hloaded, hmanage⟩ := decidable_ok hdecidable
  obtain ⟨hmem, hid⟩ := Table.find_eq_some.mp hr
  split at h
  · cases h
  split at h
  · cases h
  rename_i hlevel
  rw [not_not] at hlevel
  split at h
  · cases h
  rename_i row requests hdecided
  cases h
  obtain ⟨r', hr', hid', -, rfl⟩ := decideWhere_fst_eq_some (congrArg Prod.fst hdecided)
  obtain rfl : r' = r := Table.eq_of_key_eq hr' hmem (hid'.trans hid.symm)
  exact ⟨r', hr, hpending, hopen, ⟨env, hloaded.environment_eq, hmanage⟩,
    ⟨env, hloaded.environment_eq, hlevel⟩,
    (congrArg Prod.snd hdecided).symm, rfl⟩

theorem approve_error {release : ApproveAccessRequest} {e : ApiError}
    (h : approve s accountId requestId release now = (.error e, s')) :
    s'.requests = s.requests := by
  unfold approve at h
  split at h
  · cases h
    rfl
  split at h
  · cases h
    rfl
  split at h
  · cases h
    rfl
  split at h
  · rename_i requests hdecided
    cases h
    have hnone := decideWhere_fst_eq_none (congrArg Prod.fst hdecided)
    rwa [hdecided] at hnone
  · cases h

/-- What `deny` does to the requests. -/
theorem deny_requests (s : RequestStore) (accountId requestId : Uuid) (now : Timestamp) :
    (deny s accountId requestId now).2.requests = s.requests ∨
      (∃ r, s.requests.find requestId = some r ∧ r.status = .pending ∧ now < r.expiresAt) ∧
        (deny s accountId requestId now).2.requests =
          (decideWhere s.requests requestId (AccessRequestRow.deny accountId now)
            (AccessRequestRow.id_deny accountId now)).2 := by
  unfold deny
  split
  · exact Or.inl rfl
  · rename_i d db hdecidable
    obtain ⟨hr, hpending, hopen, -⟩ := decidable_ok hdecidable
    refine Or.inr ⟨⟨d.r, hr, hpending, hopen⟩, ?_⟩
    split <;> rename_i hdecided <;> rw [hdecided]

theorem listRequests_requests (s : RequestStore) (accountId environmentId : Uuid)
    (now : Timestamp) : (listRequests s accountId environmentId now).2.requests = s.requests := by
  unfold listRequests
  split <;> rfl

theorem getRequest_requests (s : RequestStore) (holder : Holder) (requestId : Uuid)
    (now : Timestamp) : (getRequest s holder requestId now).2.requests = s.requests := by
  unfold getRequest
  split
  · rfl
  split
  · rfl
  split
  · rfl
  split
  · rfl
  split
  · rfl
  split <;> rfl

/-- A list shows stored requests to an active member. A release in it is the member's own. -/
theorem listRequests_ok {views : List AccessRequestView}
    (h : listRequests s accountId environmentId now = (.ok views, s')) :
    (∃ env me, environment s'.db environmentId now = (.ok env, s'.db) ∧
      member s'.db env.orgId accountId true = .ok me) ∧
    ∀ v ∈ views, ∃ r ∈ s.requests, v = view r (r.requester = .account accountId) now := by
  unfold listRequests at h
  split at h
  · cases h
  rename_i env me db hvisible
  cases h
  have hloaded := visible_loaded hvisible
  refine ⟨⟨env, me, hloaded.environment_eq, hloaded.me⟩, fun v hv => ?_⟩
  obtain ⟨r, hr, rfl⟩ := List.mem_map.mp (List.mem_filter.mp hv).1
  have hselected := (List.perm_insertionSort _ _).mem_iff.mp hr
  exact ⟨r, (Table.mem_select.mp hselected).1, rfl⟩

/-- A request that is fetched is stored. -/
theorem getRequest_ok (h : getRequest s holder requestId now = (.ok v, s')) :
    ∃ r ∈ s.requests, v = view r (r.requester = holder) now := by
  unfold getRequest at h
  split at h
  · cases h
  rename_i r hr
  have hmem := (Table.find_eq_some.mp hr).1
  split at h
  · rename_i howner
    cases h
    exact ⟨r, hmem, by rw [decide_eq_true howner]⟩
  rename_i hother
  split at h
  · cases h
  split at h
  · cases h
  split at h
  · cases h
  split at h
  · cases h
  · cases h
    exact ⟨r, hmem, by rw [decide_eq_false hother]⟩

/-- Whatever has become of their access, the requester fetches their own request. -/
theorem getRequest_own {r : AccessRequestRow} (hr : r ∈ s.requests) (now : Timestamp) :
    getRequest s r.requester r.id now = (.ok (view r true now), s) := by
  have hfind : s.requests.find r.id = some r := Table.find_eq_some.mpr ⟨hr, rfl⟩
  unfold getRequest
  rw [hfind]
  dsimp only
  rw [if_pos rfl]

end Calls

section Runs

variable {db : Db} {history : List Called} {s : RequestStore} {clock now : Timestamp}

theorem RequestCall.single_ok {answered : Answered AccessRequestView}
    {views : List AccessRequestView} (h : (RequestCall.single answered).1 = .ok views) :
    ∃ v, views = [v] ∧ answered = (.ok v, answered.2) := by
  obtain ⟨answer, s'⟩ := answered
  cases answer with
  | error e => cases h
  | ok v =>
    cases h
    exact ⟨v, rfl, rfl⟩

/-- What one call leaves is traced to it and the calls before. -/
theorem traced_served (h : ∀ r ∈ s.requests, Traced history r) (call : RequestCall)
    (now : Timestamp) {r : AccessRequestRow} (hr : r ∈ (call.served s now).after.requests) :
    Traced (history ++ [call.served s now]) r := by
  have hlast : call.served s now ∈ history ++ [call.served s now] :=
    List.mem_append_right _ (List.mem_singleton_self _)
  cases call with
  | create holder environmentId req id =>
    cases hcreate : createRequest s holder environmentId req id now with
    | mk answer s' =>
      have hafter : ((RequestCall.create holder environmentId req id).served s now).after = s' :=
        congrArg Prod.snd hcreate
      rw [hafter] at hr
      cases answer with
      | error e =>
        rw [createRequest_error hcreate] at hr
        exact (h r hr).later _
      | ok v =>
        obtain ⟨publicKey, hinsert, -⟩ := createRequest_ok hcreate
        rcases (Table.mem_insertAll hinsert r).mp hr with hr | hr
        · exact (h r hr).later _
        · obtain rfl := List.mem_singleton.mp hr
          refine ⟨⟨_, hlast, rfl, ⟨v, ?_⟩, rfl⟩, fun hstatus => ?_⟩
          · exact congrArg (fun a => a.1.map fun v => [v]) hcreate
          · cases hstatus
  | list accountId environmentId =>
    rw [RequestCall.served, RequestCall.serve, listRequests_requests] at hr
    exact (h r hr).later _
  | get holder requestId =>
    have hsame := getRequest_requests s holder requestId now
    exact (h r (hsame ▸ hr)).later _
  | approve accountId requestId release =>
    cases happrove : EnvironmentsService.approve s accountId requestId release now with
    | mk answer s' =>
      have hafter : ((RequestCall.approve accountId requestId release).served s now).after = s' :=
        congrArg Prod.snd happrove
      rw [hafter] at hr
      cases answer with
      | error e =>
        rw [approve_error happrove] at hr
        exact (h r hr).later _
      | ok v =>
        obtain ⟨r₁, hfind, -, htime, hmanager, hrequester, hrequests, -⟩ := approve_ok happrove
        obtain ⟨hr₁, hid₁⟩ := Table.find_eq_some.mp hfind
        rw [hrequests] at hr
        rcases mem_decideWhere hr with ⟨hr, -⟩ | ⟨r₀, hr₀, hid₀, -, rfl⟩
        · exact (h r hr).later _
        obtain rfl : r₁ = r₀ := Table.eq_of_key_eq hr₁ hr₀ (hid₁.trans hid₀.symm)
        obtain ⟨c, hc, hmade⟩ := (h r₁ hr₁).made
        refine ⟨⟨c, List.mem_append_left _ hc, hmade.call, hmade.answered, hmade.expiresAt⟩,
          fun _ => ⟨_, hlast, accountId, release, ⟨?_, ⟨v, ?_⟩, htime, ?_, ?_⟩, rfl, rfl⟩⟩
        · exact congrArg (fun id => RequestCall.approve accountId id release) hid₁.symm
        · exact congrArg (fun a => a.1.map fun v => [v]) happrove
        · rw [hafter]
          exact hmanager
        · rw [hafter]
          exact hrequester
  | deny accountId requestId =>
    rcases deny_requests s accountId requestId now with hsame | ⟨-, hdecided⟩
    · exact (h r (hsame ▸ hr)).later _
    · rcases mem_decideWhere (hdecided ▸ hr) with ⟨hr, -⟩ | ⟨r₀, hr₀, -, -, rfl⟩
      · exact (h r hr).later _
      · obtain ⟨c, hc, hmade⟩ := (h r₀ hr₀).made
        refine ⟨⟨c, List.mem_append_left _ hc, hmade.call, hmade.answered, hmade.expiresAt⟩,
          fun hstatus => ?_⟩
        cases hstatus

/-- Every stored request is traced to the calls that were served. -/
theorem Calls.traced (h : Calls db history s clock) : ∀ r ∈ s.requests, Traced history r := by
  induction h with
  | start => exact fun r hr => absurd hr (Table.not_mem_empty r)
  | called _ _ call ih => exact fun r hr => traced_served ih call _ hr
  | changed _ db' gone ih => exact fun r hr => ih r (Table.mem_delete.mp hr).1

/-- What a whole call does to the requests, its steps do when no other step comes between. -/
theorem serve_alone (call : RequestCall) (s : RequestStore) (now : Timestamp)
    (events : List RequestEvent) : ∃ found events', RequestTask.alone found ⟨s.requests, events⟩
      (some call.task) = (⟨(call.serve s now).2.requests, events'⟩, none) := by
  -- The checks fail, at whichever step they are.
  let refused : Found := ⟨now, false, 0, 0⟩
  cases call with
  | create holder environmentId req id =>
    change ∃ found events', RequestTask.alone found ⟨s.requests, events⟩
      (some (.createRequest holder environmentId req)) =
        (⟨(createRequest s holder environmentId req id now).2.requests, events'⟩, none)
    cases hcreate : createRequest s holder environmentId req id now with
    | mk answer s' =>
      cases answer with
      | error e =>
        rw [createRequest_error hcreate]
        exact ⟨[refused], events, rfl⟩
      | ok v =>
        obtain ⟨publicKey, hinsert, -⟩ := createRequest_ok hcreate
        refine ⟨[⟨now, true, publicKey, id⟩, refused], .made id :: events, ?_⟩
        dsimp only [RequestTask.alone, RequestTask.step]
        rw [if_pos rfl]
        dsimp only [RequestTask.alone, RequestTask.step]
        rw [hinsert]
        rfl
  | list accountId environmentId =>
    refine ⟨[refused], events, ?_⟩
    rw [RequestCall.serve, listRequests_requests]
    rfl
  | get holder requestId =>
    have hsame : (RequestCall.serve s now (.get holder requestId)).2.requests = s.requests :=
      getRequest_requests s holder requestId now
    refine ⟨[refused, refused], events, ?_⟩
    rw [hsame]
    dsimp only [RequestCall.task, RequestTask.alone, RequestTask.step]
    cases s.requests.find requestId <;> rfl
  | approve accountId requestId release =>
    change ∃ found events', RequestTask.alone found ⟨s.requests, events⟩
      (some (.approve accountId requestId release)) =
        (⟨(EnvironmentsService.approve s accountId requestId release now).2.requests, events'⟩,
          none)
    cases happrove : EnvironmentsService.approve s accountId requestId release now with
    | mk answer s' =>
      cases answer with
      | error e =>
        rw [approve_error happrove]
        refine ⟨[refused, refused], events, ?_⟩
        dsimp only [RequestTask.alone, RequestTask.step]
        cases s.requests.find requestId <;> rfl
      | ok v =>
        obtain ⟨r, hfind, hpending, htime, -, -, hrequests, -⟩ := approve_ok happrove
        refine ⟨[refused, ⟨now, true, 0, 0⟩, refused], (RequestTask.setDecision ⟨s.requests, events⟩
          requestId .approved (AccessRequestRow.approve accountId release now)
          (AccessRequestRow.id_approve accountId release now)).history, ?_⟩
        dsimp only [RequestTask.alone, RequestTask.step]
        rw [hfind]
        dsimp only [Option.map_some, RequestTask.alone, RequestTask.step]
        rw [if_neg (by simp [hpending, htime])]
        dsimp only [RequestTask.alone, RequestTask.step]
        rw [hrequests, setDecision_rows]
  | deny accountId requestId =>
    change ∃ found events', RequestTask.alone found ⟨s.requests, events⟩
      (some (.deny accountId requestId)) =
        (⟨(EnvironmentsService.deny s accountId requestId now).2.requests, events'⟩, none)
    rcases deny_requests s accountId requestId now with
      hsame | ⟨⟨r, hfind, hpending, htime⟩, hdecided⟩
    · rw [hsame]
      refine ⟨[refused, refused], events, ?_⟩
      dsimp only [RequestTask.alone, RequestTask.step]
      cases s.requests.find requestId <;> rfl
    · refine ⟨[refused, ⟨now, true, 0, 0⟩, refused], (RequestTask.setDecision ⟨s.requests, events⟩
        requestId .denied (AccessRequestRow.deny accountId now)
        (AccessRequestRow.id_deny accountId now)).history, ?_⟩
      dsimp only [RequestTask.alone, RequestTask.step]
      rw [hfind]
      dsimp only [Option.map_some, RequestTask.alone, RequestTask.step]
      rw [if_neg (by simp [hpending, htime])]
      dsimp only [RequestTask.alone, RequestTask.step]
      rw [hdecided, setDecision_rows]

/-- The clock has not gone back. -/
theorem Calls.now_le (h : Calls db history s clock) : ∀ c ∈ history, c.now ≤ clock := by
  induction h with
  | start => exact fun c hc => absurd hc List.not_mem_nil
  | called _ hnow call ih =>
    intro c hc
    rcases List.mem_append.mp hc with hc | hc
    · exact (ih c hc).trans hnow
    · rw [List.mem_singleton.mp hc]
      exact le_rfl
  | changed _ db' gone ih => exact ih

/-- A view with a release shows the caller a stored request of their own. -/
theorem serve_release {call : RequestCall} {views : List AccessRequestView}
    {v : AccessRequestView} {release : ApproveAccessRequest}
    (h : (call.serve s now).1 = .ok views) (hv : v ∈ views) (hrelease : v.release = some release) :
    ∃ r ∈ s.requests, r.requester = call.caller ∧ v = view r true now := by
  cases call with
  | create holder environmentId req id =>
    obtain ⟨v', rfl, hcreate⟩ := RequestCall.single_ok h
    obtain rfl := List.mem_singleton.mp hv
    obtain ⟨publicKey, -, rfl⟩ := createRequest_ok hcreate
    cases hrelease
  | list accountId environmentId =>
    obtain ⟨r, hr, rfl⟩ := (listRequests_ok (Prod.ext h rfl)).2 v hv
    have hrequester := (view_release hrelease).1
    exact ⟨r, hr, of_decide_eq_true hrequester, by rw [hrequester]⟩
  | get holder requestId =>
    obtain ⟨v', rfl, hget⟩ := RequestCall.single_ok h
    obtain rfl := List.mem_singleton.mp hv
    obtain ⟨r, hr, rfl⟩ := getRequest_ok hget
    have hrequester := (view_release hrelease).1
    exact ⟨r, hr, of_decide_eq_true hrequester, by rw [hrequester]⟩
  | approve accountId requestId req =>
    obtain ⟨v', rfl, happrove⟩ := RequestCall.single_ok h
    obtain rfl := List.mem_singleton.mp hv
    obtain ⟨r, -, -, -, -, -, -, rfl⟩ := approve_ok happrove
    cases (view_release hrelease).1
  | deny accountId requestId =>
    obtain ⟨v', rfl, hdeny⟩ := RequestCall.single_ok h
    obtain rfl := List.mem_singleton.mp hv
    unfold EnvironmentsService.deny at hdeny
    split at hdeny
    · cases hdeny
    split at hdeny
    · cases hdeny
    · cases hdeny
      cases (view_release hrelease).1

/-- Steps of calls decide a request once. Whole calls approve a request only for an account that
manages the environment while the requester needs approval, before the request expires; its release
is handed out to the requester only, until it expires. The list of an environment is for active
members; the requester fetches a request of their own whatever their access has become. -/
theorem request_lifecycle {requests : Table AccessRequestRow.id}
    {system : System RequestTable RequestTask}
    (hsteps : Run requestProgram ⟨⟨requests, []⟩, []⟩ system) (hcalls : Calls db history s clock)
    (hnow : clock ≤ now) (call : RequestCall) :
    (∀ id, decisionsAbout id system.shared.history ≤ 1) ∧
    (∀ r ∈ s.requests, r.status = .approved →
      (∃ c ∈ history, c.Made r) ∧
        ∃ c ∈ history, ∃ accountId release, c.Approved accountId release r) ∧
    (∀ views v release, (call.serve s now).1 = .ok views → v ∈ views → v.release = some release →
      ∃ r ∈ s.requests, v = view r true now ∧ r.requester = call.caller ∧
        ∃ c ∈ history, ∃ accountId, c.Approved accountId release r ∧ c.now ≤ now ∧
          now < c.now + releaseTtl) ∧
    (∀ accountId environmentId views s', call = .list accountId environmentId →
      call.serve s now = (.ok views, s') →
        ∃ env me, environment s'.db environmentId now = (.ok env, s'.db) ∧
          member s'.db env.orgId accountId true = .ok me) ∧
    ∀ r ∈ s.requests, getRequest s r.requester r.id now = (.ok (view r true now), s) := by
  refine ⟨decisionsAbout_le_one hsteps, fun r hr hstatus => ?_,
    fun views v release hok hv hrelease => ?_,
    fun accountId environmentId views s' hcall hok => ?_, fun r hr => getRequest_own hr now⟩
  · have htraced := hcalls.traced r hr
    obtain ⟨c, hc, accountId, release, happroved, -⟩ := htraced.approved hstatus
    exact ⟨htraced.made, c, hc, accountId, release, happroved⟩
  · obtain ⟨r, hr, hcaller, rfl⟩ := serve_release hok hv hrelease
    obtain ⟨-, hstatus, hstored, t, ht, hbefore⟩ := view_release hrelease
    obtain ⟨c, hc, accountId, release', happroved, hrow, hexpires⟩ :=
      (hcalls.traced r hr).approved hstatus
    obtain rfl : release' = release := Option.some.inj (hrow.symm.trans hstored)
    obtain rfl : t = c.now + releaseTtl := Option.some.inj (ht.symm.trans hexpires)
    exact ⟨r, hr, rfl, hcaller, c, hc, accountId, happroved, (hcalls.now_le c hc).trans hnow,
      hbefore⟩
  · subst hcall
    exact (listRequests_ok hok).1

end Runs

section LeftOrganization

/-- Environment 2 of account 10's project 1. Organization 5, which it is shared with, has account 20
as a member, who needs approval. -/
def approvalNeeded : Db :=
  let own := (OrgsService.create Db.empty 10 5 77).2
  let project := (ProjectsService.create own 10 ⟨1, ⟨.record 1, 0, 0⟩, ⟨.account, 0, 0⟩,
    [⟨2, ⟨.record 2, 0, 0⟩, ⟨.account, 0, 0⟩⟩]⟩ 0).2
  let shared := (EnvironmentsService.linkProject project 10 1 5 0).2
  let joined := (OrgsService.accept (OrgsService.invite shared 5 10 .member (some 20)).2 5 20 88).2
  (EnvironmentsService.putGrant joined 10 2 ⟨⟨.account, 20⟩, .needsApproval, none⟩ 0).2

def sealedValues : ApproveAccessRequest := ⟨77, 99, ⟨0, 0⟩⟩

/-- The member asks. -/
def requestMade : Called :=
  (RequestCall.create (.account 20) 2 ⟨["zv://shop/dev/api_key"], "npm test"⟩ 100).served
    ⟨approvalNeeded, .empty⟩ 1

/-- The manager approves. -/
def requestApproved : Called :=
  (RequestCall.approve 10 100 sealedValues).served requestMade.after 2

/-- The member leaves the organization. -/
def leftOrganization : RequestStore :=
  ⟨(OrgsService.remove requestApproved.after.db 5 20 20 3).2,
    requestApproved.after.requests.delete fun _ => false⟩

theorem requestApproved_calls :
    Calls approvalNeeded [requestMade, requestApproved] requestApproved.after 2 :=
  .called (.called .start (Nat.zero_le 1) (.create (.account 20) 2
    ⟨["zv://shop/dev/api_key"], "npm test"⟩ 100)) (by decide) (.approve 10 100 sealedValues)

/-- A release is handed out to a requester who has left the organization and lost all access. -/
theorem release_after_leaving : ¬ ∀ (db : Db) (history : List Called) (s : RequestStore)
    (clock now : Timestamp) (call : RequestCall) (views : List AccessRequestView)
    (v : AccessRequestView) (accountId : Uuid), Calls db history s clock → clock ≤ now →
    (call.serve s now).1 = .ok views → v ∈ views → v.release.isSome = true →
    v.requester = .account accountId →
    ∃ env, (environment s.db v.environmentId now).1 = .ok env ∧
      (∃ me, member s.db env.orgId accountId false = .ok me) ∧
      levelOf s.db env v.requester now ≠ .none := by
  intro hall
  have hleft : Calls approvalNeeded [requestMade, requestApproved] leftOrganization 2 :=
    .changed requestApproved_calls _ _
  obtain ⟨env, henv, ⟨me, hme⟩, -⟩ := hall _ _ _ 2 4 (.get (.account 20) 100) _ _ 20 hleft
    (by decide) rfl (List.mem_singleton_self _) rfl rfl
  obtain rfl : (⟨⟨2, 1, 5, 1, none, 0⟩, 10⟩ : Env) = env := by
    cases henv
    rfl
  cases hme

/-- What the steps of the calls find. -/
def checksPass : Found := ⟨2, true, 88, 100⟩

/-- Two managers have read the request; one approves it, and the other's denial comes too late. -/
theorem approved_before_denied : ∃ system, Run requestProgram ⟨⟨.empty, []⟩, []⟩ system ∧
    system.shared.history = [.decided 100 .approved, .made 100] := by
  have hbegun : Run requestProgram ⟨⟨.empty, []⟩, []⟩ ⟨⟨.empty, []⟩,
      [.createRequest (.account 20) 2 ⟨["zv://shop/dev/api_key"], "npm test"⟩]⟩ :=
    Run.starts .refl _ trivial
  have hmade := (hbegun.proceeds ⟨checksPass, rfl⟩).proceeds ⟨checksPass, rfl⟩
  have happrove := hmade.starts (.approve 10 100 sealedValues) trivial
  have hread := happrove.proceeds ⟨checksPass, rfl⟩
  have hdeny := hread.starts (.deny 11 100) trivial
  have hboth := hdeny.proceeds ⟨checksPass, rfl⟩
  have hchecked := (hboth.proceeds_under ⟨checksPass, rfl⟩).proceeds ⟨checksPass, rfl⟩
  have happroved := hchecked.proceeds_under ⟨checksPass, rfl⟩
  have hlate := happroved.proceeds ⟨checksPass, rfl⟩
  exact ⟨_, hlate, rfl⟩

/-- The member fetches the release before leaving. -/
theorem request_lifecycle_raced :
    (∃ system, Run requestProgram ⟨⟨.empty, []⟩, []⟩ system ∧
      system.shared.history = [.decided 100 .approved, .made 100] ∧
      ∀ id, decisionsAbout id system.shared.history ≤ 1) ∧
    ((RequestCall.get (.account 20) 100).serve requestApproved.after 4).1 =
        .ok [view ((newRequest 100 (.account 20) 88 2 ⟨["zv://shop/dev/api_key"], "npm test"⟩ 1).approve
          10 sealedValues 2) true 4] ∧
      ∃ c ∈ [requestMade, requestApproved], 4 < c.now + releaseTtl := by
  obtain ⟨system, hsteps, hhistory⟩ := approved_before_denied
  have hlater : 2 ≤ 4 := by decide
  obtain ⟨honce, -, hreleased, -, -⟩ := request_lifecycle hsteps requestApproved_calls hlater
    (.get (.account 20) 100)
  obtain ⟨r, -, -, -, c, hc, accountId, -, -, hbefore⟩ := hreleased _ _ sealedValues rfl
    (List.mem_singleton_self _) rfl
  exact ⟨⟨system, hsteps, hhistory, honce⟩, rfl, c, hc, hbefore⟩

end LeftOrganization

end Zvault
