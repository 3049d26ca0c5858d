import Mathlib.Logic.Relation
import Zvault.SecretSync.Written

/-!
# Names that are forgotten at a target

A push of a GitHub target by `SecretSyncer`, and when the names that it wrote are all in
the status that the client keeps of the target.
-/

namespace Zvault.SecretSync

open ProjectSync Text Relation

/-- A target at GitHub. -/
structure GithubTarget where
  id : String
  repo : String
  environment : Option String
  auto : Option Bool

/-- What a push of a target finds: the project, this Mac's credentials and keys, and GitHub. -/
structure Attempt (V : Type) where
  secrets : List (ProjectSecret V)
  project : Project
  env : Environment
  /-- `connections`, which may fail to load. -/
  connected : Option Bool
  saved : Bool
  openValue : SyncItem V → Except String String
  service : Service

/-- What the client keeps of a target, and the names that it wrote and that are still there. -/
structure TargetState where
  status : Option TargetStatus
  remote : Remote

namespace GithubTarget

variable {V : Type} (f : Formats V) (t : GithubTarget)

/-- The current items. -/
def items (a : Attempt V) : List (SyncItem V) := itemsFor f.localeLE a.secrets a.project a.env

/-- `SecretSyncer.push` of a GitHub target. -/
def push (a : Attempt V) (s : TargetState) : TargetState :=
  let print := f.fingerprint (.github t.id t.repo t.environment t.auto) (items f a)
  if a.env.locked then ⟨some (.locked s.status print), s.remote⟩
  else if a.connected = some false then ⟨some (.unconnected s.status print .github), s.remote⟩
  else
    let (answer, remote) := syncPush t.repo t.environment a.saved a.openValue a.service (items f a)
      (namesOf s.status) s.remote
    ⟨some (.afterPush s.status print answer), remote⟩

/-- Nothing is known of a target at first, and nothing is there. -/
def start : TargetState := ⟨none, []⟩

/-- The items that a push asks GitHub to write. -/
def request (a : Attempt V) : Option (List Item) :=
  if a.env.locked ∨ a.connected = some false then none
  else (prepare t.repo t.environment a.saved a.openValue (items f a)).toOption

/-- When a push does not forget a name. If an error ends it midway, what was written by then was
listed before; if it comes to its end, an item whose upload fails is listed in its own letter
case when it is at the target. -/
def Remembers (a : Attempt V) (s : TargetState) : Prop :=
  ∀ plain usable, request f t a = some plain → a.service.publicKey = .key usable →
    if plain.any (Ends a.service usable) ∨
        (stale plain (namesOf s.status)).any (DeletionLost a.service) then
      ∀ i ∈ written a.service usable plain, ∃ n ∈ namesOf s.status, upper n = upper i.name
    else
      ∀ i ∈ plain, Stores a.service usable i = false → upper i.name ∈ s.remote →
        i.name ∈ namesOf s.status

/-- Every name at the target is listed in the status. -/
def Tracked (s : TargetState) : Prop := ∀ w ∈ s.remote, ∃ n ∈ namesOf s.status, upper n = w

/-- Every name at the target is one that GitHub takes. -/
def WellNamed (s : TargetState) : Prop := ∀ w ∈ s.remote, nameProblem w = none

theorem tracked_start : Tracked start := List.forall_mem_nil _

theorem wellNamed_start : WellNamed start := List.forall_mem_nil _

/-- A push that does not get to write, or the push that GitHub gets. -/
theorem push_cases (a : Attempt V) (s : TargetState) :
    ((∀ plain usable, request f t a = some plain → a.service.publicKey ≠ .key usable) ∧
      (push f t a s).remote = s.remote ∧ ∃ st, (push f t a s).status = some st ∧
        st.state = .failed ∧ st.names = namesOf s.status) ∨
    ∃ plain usable answer remote print, request f t a = some plain ∧
      a.service.publicKey = .key usable ∧
      SecretSync.push (describe t.repo t.environment) a.service plain (namesOf s.status) s.remote =
        (answer, remote) ∧
      push f t a s = ⟨some (.afterPush s.status print (answer.mapError Error.text)), remote⟩ := by
  unfold push
  dsimp only
  split
  · rename_i hlocked
    refine Or.inl ⟨fun plain usable h => ?_, rfl, _, rfl, rfl, rfl⟩
    rw [request, if_pos (Or.inl hlocked)] at h
    cases h
  rename_i hlocked
  split
  · rename_i hconnected
    refine Or.inl ⟨fun plain usable h => ?_, rfl, _, rfl, rfl, rfl⟩
    rw [request, if_pos (Or.inr hconnected)] at h
    cases h
  rename_i hconnected
  have hrequest : request f t a =
      (prepare t.repo t.environment a.saved a.openValue (items f a)).toOption := by
    rw [request, if_neg (not_or.mpr ⟨hlocked, hconnected⟩)]
  unfold syncPush
  cases hprepare : prepare t.repo t.environment a.saved a.openValue (items f a) with
  | error e =>
    refine Or.inl ⟨fun plain usable h => ?_, rfl, _, rfl, rfl, rfl⟩
    rw [hrequest, hprepare] at h
    cases h
  | ok plain =>
    rw [hprepare] at hrequest
    dsimp only
    generalize hanswer : SecretSync.push (describe t.repo t.environment) a.service plain
      (namesOf s.status) s.remote = result
    obtain ⟨answer, remote⟩ := result
    cases hkey : a.service.publicKey with
    | key usable =>
      refine Or.inr ⟨plain, usable, answer, remote,
        f.fingerprint (.github t.id t.repo t.environment t.auto) (items f a), hrequest, rfl, hanswer, ?_⟩
      cases answer <;> rfl
    | _ =>
      rw [SecretSync.push, hkey] at hanswer
      cases hanswer
      refine Or.inl ⟨fun plain usable _ h => ?_, rfl, _, rfl, rfl, rfl⟩
      cases h

theorem request_eq_some {a : Attempt V} {plain : List Item} (h : request f t a = some plain) :
    plain.map (·.name) = (items f a).map (·.name) ∧ Distinct plain := by
  unfold request at h
  split at h
  · cases h
  cases hprepare : prepare t.repo t.environment a.saved a.openValue (items f a) with
  | error e =>
    rw [hprepare] at h
    cases h
  | ok _ =>
    rw [hprepare] at h
    cases h
    exact prepare_ok hprepare

/-- A name that no item has and that is still at the target after the second loop was listed, and
GitHub did not delete it. -/
theorem exists_stale_of_kept {service : Service} {usable : Bool} {plain : List Item}
    {s : TargetState} {remote : Remote} {w : String} (htracked : Tracked s) (hnamed : WellNamed s)
    (hsubset : ∀ w ∈ remote, w ∈ s.remote ∨ ∃ i ∈ written service usable plain, upper i.name = w)
    (hdeleted : ∀ n ∈ stale plain (namesOf s.status), Deletes service n = true → upper n ∉ remote)
    (hw : w ∈ remote) (hitem : ¬ ∃ i ∈ plain, upper i.name = w) :
    ∃ n ∈ stale plain (namesOf s.status), upper n = w ∧ nameProblem n = none ∧
      Deletes service n = false := by
  have hbefore : w ∈ s.remote := by
    refine (hsubset w hw).resolve_right ?_
    rintro ⟨i, hi, hname⟩
    exact hitem ⟨i, (mem_of_mem_written _ _ hi).1, hname⟩
  obtain ⟨n, hn, rfl⟩ := htracked w hbefore
  have hstale : n ∈ stale plain (namesOf s.status) :=
    mem_stale.mpr ⟨hn, fun i hi hname => hitem ⟨i, hi, hname⟩⟩
  refine ⟨n, hstale, rfl, nameProblem_upper n ▸ hnamed _ hbefore, ?_⟩
  rw [Bool.eq_false_iff]
  exact fun hdeletes => hdeleted n hstale hdeletes hw

/-- A push keeps every name at the target listed exactly when it remembers them. -/
theorem tracked_push_iff {a : Attempt V} {s : TargetState} (htracked : Tracked s)
    (hnamed : WellNamed s) : Tracked (push f t a s) ↔ Remembers f t a s := by
  rcases push_cases f t a s with
    ⟨hnone, hremote, st, hst, -, hnames⟩ | ⟨plain, usable, answer, remote, print, hrequest, hkey,
      hanswer, hpush⟩
  · refine iff_of_true (fun w hw => ?_) fun plain usable hplain hkey => absurd hkey (hnone _ _ hplain)
    rw [hremote] at hw
    obtain ⟨n, hn, hname⟩ := htracked w hw
    refine ⟨n, ?_, hname⟩
    rw [hst, ← hnames] at *
    exact hn
  obtain ⟨hsubset, hkept, hreport⟩ := push_spec hkey hanswer
  have hdistinct := (request_eq_some f t hrequest).2
  have hremembers : Remembers f t a s ↔
      if plain.any (Ends a.service usable) ∨
          (stale plain (namesOf s.status)).any (DeletionLost a.service) then
        ∀ i ∈ written a.service usable plain, ∃ n ∈ namesOf s.status, upper n = upper i.name
      else
        ∀ i ∈ plain, Stores a.service usable i = false → upper i.name ∈ s.remote →
          i.name ∈ namesOf s.status := by
    refine ⟨fun h => h plain usable hrequest hkey, fun h plain' usable' hrequest' hkey' => ?_⟩
    cases hrequest.symm.trans hrequest'
    cases hkey.symm.trans hkey'
    exact h
  rw [hremembers, hpush]
  cases answer with
  | error e =>
    rw [if_pos hreport]
    constructor
    · intro h i hi
      exact h _ (hkept i (mem_of_mem_written _ _ hi).1 (Or.inr hi))
    · intro h w hw
      rcases hsubset w hw with hw | ⟨i, hi, rfl⟩
      · exact htracked w hw
      · exact h i hi
  | ok report =>
    obtain ⟨hends, hlost, hpushed, hfailed, hdeleted⟩ := hreport
    rw [if_neg (by rw [hends, hlost]; decide)]
    have hlisted : ∀ n, n ∈ namesOf (some (TargetStatus.afterPush s.status print (.ok report))) ↔
        (∃ i ∈ plain, Stores a.service usable i = true ∧ i.name = n) ∨
          (n ∈ namesOf s.status ∧ n ∈ report.failedNames) := by
      intro n
      simp [namesOf, TargetStatus.afterPush, hpushed, and_assoc]
    constructor
    · intro h i hi hstores hw
      -- the item stays at the target, and only its own name can be listed for it
      obtain ⟨n, hn, hname⟩ := h _ (hkept i hi (Or.inl hw))
      rcases (hlisted n).mp hn with ⟨j, hj, hstored, rfl⟩ | ⟨hn, hfailed'⟩
      · cases List.inj_on_of_nodup_map hdistinct hj hi hname
        exact absurd (hstores.symm.trans hstored) Bool.false_ne_true
      · rw [hfailed, List.mem_append] at hfailed'
        rcases hfailed' with hfailed' | hstale
        · obtain ⟨j, hj, rfl⟩ := List.mem_map.mp hfailed'
          cases List.inj_on_of_nodup_map hdistinct (List.mem_filter.mp hj).1 hi hname
          exact hn
        · exact absurd hname.symm ((mem_stale.mp (List.mem_filter.mp hstale).1).2 i hi)
    · intro h w hw
      by_cases hitem : ∃ i ∈ plain, upper i.name = w
      · obtain ⟨i, hi, rfl⟩ := hitem
        cases hstores : Stores a.service usable i with
        | true => exact ⟨i.name, (hlisted _).mpr (Or.inl ⟨i, hi, hstores, rfl⟩), rfl⟩
        | false =>
          have hbefore : upper i.name ∈ s.remote := by
            refine (hsubset _ hw).resolve_right ?_
            rintro ⟨j, hj, hname⟩
            obtain ⟨hj, hstored⟩ := mem_of_mem_written _ _ hj
            cases List.inj_on_of_nodup_map hdistinct hj hi hname
            exact absurd (hstores.symm.trans hstored) Bool.false_ne_true
          refine ⟨i.name, (hlisted _).mpr (Or.inr ⟨h i hi hstores hbefore, ?_⟩), rfl⟩
          rw [hfailed]
          refine List.mem_append_left _ (List.mem_map_of_mem (List.mem_filter.mpr ⟨hi, ?_⟩))
          rw [hstores]
          rfl
      · obtain ⟨n, hstale, rfl, hproblem, hnot⟩ :=
          exists_stale_of_kept htracked hnamed hsubset hdeleted hw hitem
        refine ⟨n, (hlisted _).mpr (Or.inr ⟨(mem_stale.mp hstale).1, ?_⟩), rfl⟩
        rw [hfailed]
        refine List.mem_append_right _ (List.mem_filter.mpr ⟨hstale, ?_⟩)
        simpa [Deletes, hproblem] using hnot

theorem wellNamed_push {a : Attempt V} {s : TargetState} (hnamed : WellNamed s) :
    WellNamed (push f t a s) := by
  intro w hw
  rcases push_cases f t a s with
    ⟨-, hremote, -⟩ | ⟨plain, usable, answer, remote, print, -, hkey, hanswer, hpush⟩
  · exact hnamed w (hremote ▸ hw)
  rw [hpush] at hw
  rcases (push_spec hkey hanswer).1 w hw with hw | ⟨i, hi, rfl⟩
  · exact hnamed w hw
  · have hstores := (mem_of_mem_written _ _ hi).2
    simp only [Stores, Bool.and_eq_true, Option.isNone_iff_eq_none] at hstores
    have hproblem := hstores.1.1
    rw [nameProblem_upper]
    unfold itemProblem at hproblem
    split at hproblem
    · cases hproblem
    · assumption

/-- After a push that succeeds, the names at the target are those of the items. -/
theorem remote_of_synced {a : Attempt V} {s : TargetState} (htracked : Tracked s)
    (hnamed : WellNamed s) {st : TargetStatus} (hst : (push f t a s).status = some st)
    (hsynced : st.state = .synced) (w : String) :
    w ∈ (push f t a s).remote ↔ ∃ i ∈ items f a, upper i.name = w := by
  rcases push_cases f t a s with
    ⟨-, -, st', hst', hfailed, -⟩ | ⟨plain, usable, answer, remote, print, hrequest, hkey, hanswer,
      hpush⟩
  · cases hst.symm.trans hst'
    exact absurd (hfailed.symm.trans hsynced) (by decide)
  have hnames : (∃ i ∈ items f a, upper i.name = w) ↔ ∃ i ∈ plain, upper i.name = w := by
    have hmap := (request_eq_some f t hrequest).1
    have hexists := congrArg (fun names : List String => ∃ n ∈ names, upper n = w) hmap
    simpa using hexists.symm
  rw [hnames, hpush]
  rw [hpush] at hst
  obtain ⟨hsubset, hkept, hreport⟩ := push_spec hkey hanswer
  cases answer with
  | error e =>
    cases hst
    cases hsynced
  | ok report =>
    obtain ⟨hends, -, -, hfailed, hdeleted⟩ := hreport
    cases hst
    have hnone : report.failedNames = [] := by
      by_contra hne
      have : report.failed ≠ [] := fun h => hne (by rw [Report.failedNames, h]; rfl)
      rw [Except.mapError, TargetStatus.afterPush, if_neg this] at hsynced
      cases hsynced
    rw [hnone, eq_comm, List.append_eq_nil_iff, List.map_eq_nil_iff, List.filter_eq_nil_iff,
      List.filter_eq_nil_iff] at hfailed
    have hstores : ∀ i ∈ plain, Stores a.service usable i = true := by
      intro i hi
      simpa using hfailed.1 i hi
    constructor
    · intro hw
      by_contra hitem
      obtain ⟨n, hstale, rfl, hproblem, hnot⟩ :=
        exists_stale_of_kept htracked hnamed hsubset hdeleted hw hitem
      have hkept' : (a.service.delete n).deletes = false := by simpa [Deletes, hproblem] using hnot
      exact absurd (hfailed.2 n hstale) (by simp [hproblem, hkept'])
    · rintro ⟨i, hi, rfl⟩
      refine hkept i hi (Or.inr ?_)
      rw [written_of_not_ends _ _ hends]
      exact List.mem_filter.mpr ⟨hi, hstores i hi⟩

/-- One push of the target. -/
def Pushes (s s' : TargetState) : Prop := ∃ a : Attempt V, s' = push f t a s

/-- One push that does not forget a name. -/
def PushesRemembering (s s' : TargetState) : Prop :=
  ∃ a : Attempt V, Remembers f t a s ∧ s' = push f t a s

theorem tracked_run {s : TargetState} (hrun : ReflTransGen (PushesRemembering f t) start s) :
    Tracked s ∧ WellNamed s := by
  induction hrun with
  | refl => exact ⟨tracked_start, wellNamed_start⟩
  | tail _ hstep ih =>
    obtain ⟨a, hremembers, rfl⟩ := hstep
    exact ⟨(tracked_push_iff f t ih.1 ih.2).mpr hremembers, wellNamed_push f t ih.2⟩

/-- As long as no push forgets a name, every name that is still at the target is listed in the
status, and a push that succeeds leaves exactly the current items there. -/
theorem names_tracked {s : TargetState} (hrun : ReflTransGen (PushesRemembering f t) start s) :
    (∀ w ∈ s.remote, ∃ n ∈ namesOf s.status, upper n = w) ∧
      ∀ (a : Attempt V) (st : TargetStatus), (push f t a s).status = some st →
        st.state = .synced →
          ∀ w, w ∈ (push f t a s).remote ↔ ∃ i ∈ items f a, upper i.name = w := by
  obtain ⟨htracked, hnamed⟩ := tracked_run f t hrun
  exact ⟨htracked, fun a st hst hsynced w => remote_of_synced f t htracked hnamed hst hsynced w⟩

/-- Items are kept as they come, and nothing is written of them. -/
def plainFormats : Formats Unit := ⟨fun _ _ => true, fun _ _ => ""⟩

def webTarget : GithubTarget := ⟨"t", "acme/web", none, none⟩

/-- The environment of the examples. -/
def devEnv : Environment := ⟨2, "Dev", "dev", .development, 0, none, false, []⟩

def secretA : ProjectSecret Unit := ⟨3, 1, "A", "A", none, fun _ => some ()⟩

def secretB : ProjectSecret Unit := ⟨4, 1, "B", "B", none, fun _ => some ()⟩

/-- A push of the secrets of a project. -/
def webAttempt (secrets : List (ProjectSecret Unit)) (service : Service) : Attempt Unit where
  secrets
  project := ⟨1, "web", "Web", true, [devEnv], []⟩
  env := devEnv
  connected := some true
  saved := true
  openValue _ := .ok "value"
  service := service

theorem items_webAttempt (service : Service) :
    items plainFormats (webAttempt [secretA, secretB] service) =
      [⟨"A", 3, 2, ()⟩, ⟨"B", 4, 2, ()⟩] := by
  unfold items itemsFor
  rw [List.mergeSort_of_pairwise]
  · rfl
  · exact List.pairwise_of_forall fun _ _ => rfl

theorem items_webAttempt_secretA (service : Service) :
    items plainFormats (webAttempt [secretA] service) = [⟨"A", 3, 2, ()⟩] :=
  List.mergeSort_singleton _

/-- GitHub takes everything. -/
def taking : Service := ⟨.key true, fun _ => .status 201 "", fun _ => .status 204 ""⟩

/-- GitHub takes `A`; then the connection is lost. -/
def losing : Service :=
  ⟨.key true, fun name => if name = "A" then .status 201 "" else .lost false, fun _ => .lost false⟩

/-- GitHub takes nothing and deletes nothing. -/
def refusing : Service := ⟨.key true, fun _ => .status 422 "", fun _ => .status 500 ""⟩

theorem fingerprint_plainFormats (target : SyncTarget) (items : List (SyncItem Unit)) :
    plainFormats.fingerprint target items = "811c9dc501000193" := by
  have hplain : plainFormats.fingerprint target items =
      plainFormats.fingerprint (.github "" "" none none) [] := rfl
  rw [hplain]
  rfl

theorem push_webAttempt {secrets : List (ProjectSecret Unit)} {service : Service}
    {found : List (SyncItem Unit)} (h : items plainFormats (webAttempt secrets service) = found)
    (s : TargetState) : push plainFormats webTarget (webAttempt secrets service) s =
      let (answer, remote) := syncPush "acme/web" none true (fun _ : SyncItem Unit => .ok "value")
        service found (namesOf s.status) s.remote
      ⟨some (.afterPush s.status "811c9dc501000193" answer), remote⟩ := by
  unfold push
  rw [h, fingerprint_plainFormats]
  rfl

/-- An error that ends a push midway makes the client forget what was written. -/
theorem names_forgotten : ¬ ∀ s, ReflTransGen (Pushes plainFormats webTarget) start s →
    ∀ w ∈ s.remote, ∃ n ∈ namesOf s.status, upper n = w := by
  intro hall
  have hlost : push plainFormats webTarget (webAttempt [secretA, secretB] losing) start =
      ⟨some ⟨.failed, "811c9dc501000193", [], none⟩, ["A"]⟩ := by
    rw [push_webAttempt (items_webAttempt losing)]
    rfl
  obtain ⟨n, hn, -⟩ := hall _ (.single ⟨webAttempt [secretA, secretB] losing, hlost.symm⟩) "A"
    (by decide)
  exact List.not_mem_nil hn

/-- What a push leaves of the names `A` and `B`. -/
def bothPushed (state : SyncState) : TargetState :=
  ⟨some ⟨state, "811c9dc501000193", ["A", "B"], none⟩, ["B", "A"]⟩

theorem bothPushed_tracked (state : SyncState) : Tracked (bothPushed state) := by
  intro w hw
  simp only [bothPushed, List.mem_cons, List.not_mem_nil, or_false] at hw
  rcases hw with rfl | rfl
  · exact ⟨"B", List.mem_cons_of_mem _ (List.mem_singleton_self _), rfl⟩
  · exact ⟨"A", List.mem_cons_self, rfl⟩

/-- Both names are taken; then `B` is deleted, and GitHub refuses to write `A` and to delete `B`. -/
theorem bothPushed_run :
    ReflTransGen (PushesRemembering plainFormats webTarget) start (bothPushed .partly) := by
  have htaken : push plainFormats webTarget (webAttempt [secretA, secretB] taking) start =
      bothPushed .synced := by
    rw [push_webAttempt (items_webAttempt taking)]
    rfl
  have hrefused : push plainFormats webTarget (webAttempt [secretA] refusing)
      (bothPushed .synced) = bothPushed .partly := by
    rw [push_webAttempt (items_webAttempt_secretA refusing)]
    rfl
  have hfirst : ReflTransGen (PushesRemembering plainFormats webTarget) start
      (bothPushed .synced) := by
    refine .single ⟨_, ?_, htaken.symm⟩
    exact (tracked_push_iff _ _ tracked_start wellNamed_start).mp (htaken ▸ bothPushed_tracked _)
  obtain ⟨htracked, hnamed⟩ := tracked_run _ _ hfirst
  refine hfirst.tail ⟨_, ?_, hrefused.symm⟩
  exact (tracked_push_iff _ _ htracked hnamed).mp (hrefused ▸ bothPushed_tracked _)

theorem names_tracked_refused :
    (∀ w ∈ (bothPushed .partly).remote, ∃ n ∈ namesOf (bothPushed .partly).status, upper n = w) ∧
      ∀ w, w ∈ (push plainFormats webTarget (webAttempt [secretA] taking)
          (bothPushed .partly)).remote ↔
        ∃ i ∈ items plainFormats (webAttempt [secretA] taking), upper i.name = w := by
  obtain ⟨htracked, hsynced⟩ := names_tracked plainFormats webTarget bothPushed_run
  refine ⟨htracked, hsynced _ ⟨.synced, "811c9dc501000193", ["A"], none⟩ ?_ rfl⟩
  rw [push_webAttempt (items_webAttempt_secretA taking)]
  rfl

end GithubTarget

end Zvault.SecretSync
