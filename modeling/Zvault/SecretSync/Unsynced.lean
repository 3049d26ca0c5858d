import Mathlib.Data.List.Nodup
import Mathlib.Logic.Relation
import Zvault.Json.Value
import Zvault.SecretSync.Engine

/-!
# Changes that are left unsynced

When the engine has nothing left to do, every automatic target was attempted with its
current contents, unless a check passed over it.
-/

namespace Zvault.SecretSync

open ProjectSync Relation

theorem mem_targetsOf {projects : List Project} {x : Located} :
    x ∈ targetsOf projects ↔
      x.project ∈ projects ∧ x.env ∈ x.project.environments ∧ x.target ∈ x.env.sync := by
  simp only [targetsOf, List.mem_flatMap, List.mem_map]
  constructor
  · rintro ⟨p, hp, e, he, t, ht, rfl⟩
    exact ⟨hp, he, ht⟩
  · rintro ⟨hp, he, ht⟩
    exact ⟨x.project, hp, x.env, he, x.target, ht, rfl⟩

/-- An element is found by a key that no two have. -/
theorem find?_of_nodup_map {α β : Type} [DecidableEq β] {key : α → β} {l : List α}
    (hnodup : (l.map key).Nodup) {a : α} (ha : a ∈ l) :
    l.find? (fun b => key b = key a) = some a := by
  cases hfind : l.find? fun b => key b = key a with
  | none => exact absurd (decide_eq_true rfl) (List.find?_eq_none.mp hfind a ha)
  | some b =>
    have hkey : key b = key a := by simpa using List.find?_some hfind
    rw [List.inj_on_of_nodup_map hnodup (List.mem_of_find?_eq_some hfind) ha hkey]

namespace Engine

variable {V : Type} (f : Formats V) {s s' : Engine V} {x y : Located}

theorem eq_of_target_id (hx : x ∈ targetsOf s.loaded.view.projects)
    (hy : y ∈ targetsOf s.loaded.view.projects) (hid : x.target.id = y.target.id) : x = y :=
  List.inj_on_of_nodup_map s.loaded.targets_nodup hx hy hid

theorem find_eq_some {place : Place} (h : s.find place = some x) :
    x ∈ targetsOf s.loaded.view.projects ∧ x.place = place := by
  simp only [find, Option.bind_eq_bind, Option.bind_eq_some_iff, Option.pure_def,
    Option.some.injEq] at h
  obtain ⟨p, hp, e, he, t, ht, rfl⟩ := h
  refine ⟨mem_targetsOf.mpr ⟨List.mem_of_find?_eq_some hp, List.mem_of_find?_eq_some he,
    List.mem_of_find?_eq_some ht⟩, ?_⟩
  have hpid : p.id = place.project := by simpa using List.find?_some hp
  have heid : e.id = place.env := by simpa using List.find?_some he
  have htid : t.id = place.target := by simpa using List.find?_some ht
  rw [Located.place, hpid, heid, htid]

theorem find_place (hx : x ∈ targetsOf s.loaded.view.projects) : s.find x.place = some x := by
  obtain ⟨hp, he, ht⟩ := mem_targetsOf.mp hx
  have hproject := find?_of_nodup_map s.loaded.projects_nodup hp
  have henv := find?_of_nodup_map (s.loaded.environments_nodup x.project hp) he
  cases hfind : x.env.sync.find? (·.id = x.target.id) with
  | none => exact absurd (decide_eq_true rfl) (List.find?_eq_none.mp hfind _ ht)
  | some t =>
    have hsome : s.find x.place = some ⟨x.project, x.env, t⟩ :=
      Option.bind_eq_some_iff.mpr ⟨x.project, hproject,
        Option.bind_eq_some_iff.mpr ⟨x.env, henv, Option.bind_eq_some_iff.mpr ⟨t, hfind, rfl⟩⟩⟩
    rw [hsome, eq_of_target_id (find_eq_some hsome).1 hx]
    simpa using List.find?_some hfind

/-- A target that is synced as it changes: one of an environment that can be read. -/
def Automatic (s : Engine V) (x : Located) : Prop :=
  x ∈ targetsOf s.loaded.view.projects ∧ x.env.locked = false ∧ x.target.auto ≠ some false

/-- The last attempt of a target was made with its current contents. -/
def UpToDate (s : Engine V) (x : Located) : Prop :=
  ∃ st, s.status x.target.id = some st ∧ st.fingerprint = print f s.loaded x

/-- A push of a target that is under way has its current contents. -/
def PushesCurrent (s : Engine V) (x : Located) : Prop :=
  ∀ r ∈ s.running, r.target = x.target.id → r.print = print f s.loaded x

/-- An event does not pass over a target. The timer does not go off while a push runs with
contents that have changed since, nor before the projects are loaded, and a check of a target gets
the connections; it may where there is nothing to be done. -/
def Attends (s : Engine V) : Event V → Prop
  | .timer => ∀ x, Automatic s x → PushesCurrent f s x ∧
      (s.loaded.ready = true ∨ UpToDate f s x ∨ s.isRunning x.target.id = true)
  | .check i connections => connections.isSome ∨ s.timer ∨ ∀ k, s.checks[i]? = some k →
      ∀ x, Automatic s x → x.place ∈ k.due → UpToDate f s x ∨ s.isRunning x.target.id = true
  | _ => True

/-- What keeps a target from being left unsynced when no timer is set. -/
def Attended (s : Engine V) (x : Located) : Prop :=
  UpToDate f s x ∨ s.isRunning x.target.id = true ∨ ∃ k ∈ s.checks, x.place ∈ k.due

/-- The invariant of the engine. -/
def Covered (s : Engine V) : Prop :=
  s.timer = true ∨ ∀ x, Automatic s x → PushesCurrent f s x ∧ Attended f s x

/-- Pushes that start: what was known of the automatic targets stays. -/
structure Starts (s s' : Engine V) : Prop where
  loaded : s'.loaded = s.loaded
  timer : s'.timer = s.timer
  checks : s'.checks = s.checks
  running : ∀ target, s.isRunning target = true → s'.isRunning target = true
  current : ∀ x, Automatic s x → PushesCurrent f s x → PushesCurrent f s' x
  upToDate : ∀ x, Automatic s x → UpToDate f s x → UpToDate f s' x

theorem Starts.refl (s : Engine V) : Starts f s s :=
  ⟨rfl, rfl, rfl, fun _ h => h, fun _ _ h => h, fun _ _ h => h⟩

theorem Automatic.of_loaded (h : s'.loaded = s.loaded) : Automatic s' x ↔ Automatic s x := by
  rw [Automatic, Automatic, h]

theorem Starts.trans {s'' : Engine V} (h : Starts f s s') (h' : Starts f s' s'') :
    Starts f s s'' where
  loaded := h'.loaded.trans h.loaded
  timer := h'.timer.trans h.timer
  checks := h'.checks.trans h.checks
  running target hrun := h'.running target (h.running target hrun)
  current x hx hcurrent := h'.current x ((Automatic.of_loaded h.loaded).mpr hx) (h.current x hx hcurrent)
  upToDate x hx hup := h'.upToDate x ((Automatic.of_loaded h.loaded).mpr hx) (h.upToDate x hx hup)

/-- A push that starts. -/
theorem starts_syncTarget (s : Engine V) (place : Place) : Starts f s (s.syncTarget f place) := by
  unfold syncTarget
  split
  · exact Starts.refl f s
  split
  · exact Starts.refl f s
  rename_i y hfind
  obtain ⟨hy, hplace⟩ := find_eq_some hfind
  have htarget : place.target = y.target.id := congrArg Place.target hplace.symm
  dsimp only
  split
  · rename_i hlocked
    refine ⟨rfl, rfl, rfl, fun _ h => h, fun _ _ h => h, fun x hx hup => ?_⟩
    have hne : x.target.id ≠ place.target := by
      intro hid
      obtain rfl := eq_of_target_id hx.1 hy (hid.trans htarget)
      exact absurd (hx.2.1.symm.trans hlocked) Bool.false_ne_true
    obtain ⟨st, hst, hprint⟩ := hup
    exact ⟨st, (Function.update_of_ne hne _ _).trans hst, hprint⟩
  · refine ⟨rfl, rfl, rfl, fun target h => ?_, fun x hx hcurrent r hr hid => ?_, fun x _ h => h⟩
    · rw [isRunning, List.any_append, Bool.or_eq_true]
      exact Or.inl h
    · rcases List.mem_append.mp hr with hr | hr
      · exact hcurrent r hr hid
      · cases List.mem_singleton.mp hr
        obtain rfl := eq_of_target_id hx.1 hy (hid.symm.trans htarget)
        rfl

/-- An automatic target is pushed when it is due. -/
theorem isRunning_syncTarget (hx : Automatic s x) :
    (s.syncTarget f x.place).isRunning x.target.id = true := by
  unfold syncTarget
  split
  · assumption
  · rw [find_place hx.1]
    dsimp only
    rw [if_neg (by rw [hx.2.1]; exact Bool.false_ne_true)]
    simp [isRunning, Located.place]

theorem starts_foldl (places : List Place) (s : Engine V) :
    Starts f s (places.foldl (syncTarget f) s) := by
  induction places generalizing s with
  | nil => exact Starts.refl f s
  | cons place places ih => exact (starts_syncTarget f s place).trans f (ih _)

theorem isRunning_foldl {places : List Place} (hx : Automatic s x) (hplace : x.place ∈ places) :
    (places.foldl (syncTarget f) s).isRunning x.target.id = true := by
  induction places generalizing s with
  | nil => exact absurd hplace List.not_mem_nil
  | cons place places ih =>
    rcases List.mem_cons.mp hplace with rfl | hplace
    · exact (starts_foldl f places _).running _ (isRunning_syncTarget f hx)
    · exact ih ((Automatic.of_loaded (starts_syncTarget f s place).loaded).mpr hx) hplace

theorem mem_alsoDue {connections : Connections} {place : Place} {due : List Place}
    (targets : List Located) (h : place ∈ due) :
    place ∈ targets.foldl (s.alsoDue connections) due := by
  induction targets generalizing due with
  | nil => exact h
  | cons y targets ih =>
    refine ih ?_
    unfold alsoDue
    split
    · exact h
    · split
      · exact List.mem_append_left _ h
      · exact h

/-- The timer goes off. -/
theorem covered_check (hattends : Attends f s .timer) : Covered f (s.check f) := by
  refine Or.inr fun x hx => ?_
  have hloaded : (s.check f).loaded = s.loaded := by
    unfold check
    split <;> rfl
  have hrunning : (s.check f).running = s.running := by
    unfold check
    split <;> rfl
  have hstatus : (s.check f).status = s.status := by
    unfold check
    split <;> rfl
  have hx' := (Automatic.of_loaded hloaded).mp hx
  obtain ⟨hcurrent, hready⟩ := hattends x hx'
  have hup : UpToDate f (s.check f) x ↔ UpToDate f s x := by
    rw [UpToDate, UpToDate, hstatus, hloaded]
  rw [PushesCurrent, Attended, isRunning, hrunning, hloaded, hup]
  refine ⟨hcurrent, ?_⟩
  rcases hready with hready | hready | hready
  · by_cases hrun : s.isRunning x.target.id = true
    · exact Or.inr (Or.inl hrun)
    by_cases hdone : UpToDate f s x
    · exact Or.inl hdone
    -- it is found to be due
    refine Or.inr (Or.inr ⟨⟨s.loaded.view.projects,
      ((targetsOf s.loaded.view.projects).filter (s.isDue f)).map Located.place⟩, ?_,
      List.mem_map_of_mem (List.mem_filter.mpr ⟨hx'.1, ?_⟩)⟩)
    · unfold check
      rw [if_pos hready]
      exact List.mem_append_right _ (List.mem_singleton_self _)
    · have hstale : (s.status x.target.id).map (·.fingerprint) ≠ some (print f s.loaded x) := by
        intro h
        obtain ⟨st, hst, hprint⟩ := Option.map_eq_some_iff.mp h
        exact hdone ⟨st, hst, hprint⟩
      simp [isDue, hx'.2.1, hx'.2.2, hrun, hstale]
  · exact Or.inl hready
  · exact Or.inr (Or.inl hready)

theorem mem_eraseIdx_or {α : Type} {l : List α} {i : ℕ} {a : α} (h : a ∈ l) :
    l[i]? = some a ∨ a ∈ l.eraseIdx i := by
  by_cases hi : i < l.length
  · rw [← List.take_append_drop i l, List.drop_eq_getElem_cons hi, List.mem_append,
      List.mem_cons] at h
    rw [List.eraseIdx_eq_take_drop_succ, List.mem_append, List.getElem?_eq_getElem hi]
    rcases h with h | rfl | h
    · exact Or.inr (Or.inl h)
    · exact Or.inl rfl
    · exact Or.inr (Or.inr h)
  · rw [List.eraseIdx_of_length_le (not_lt.mp hi)]
    exact Or.inr h

/-- A check goes on. -/
theorem covered_pushDue {i : ℕ} {k : Check} {connections : Option Connections}
    (hk : s.checks[i]? = some k) (hcovered : Covered f s)
    (hattends : Attends f s (.check i connections)) :
    Covered f (pushDue f ⟨s.loaded, s.status, s.timer, s.checks.eraseIdx i, s.running⟩ k
      connections) := by
  rcases hcovered with htimer | hcovered
  · cases connections with
    | none => exact Or.inl htimer
    | some _ => exact Or.inl ((starts_foldl f _ _).timer.trans htimer)
  cases connections with
  | none =>
    rcases hattends with h | htimer | hattends
    · cases h
    · exact Or.inl htimer
    refine Or.inr fun x hx => ⟨(hcovered x hx).1, ?_⟩
    rcases (hcovered x hx).2 with h | h | ⟨k', hk', hplace⟩
    · exact Or.inl h
    · exact Or.inr (Or.inl h)
    · rcases mem_eraseIdx_or (i := i) hk' with hsome | hrest
      · rcases hattends k' hsome x hx hplace with h | h
        · exact Or.inl h
        · exact Or.inr (Or.inl h)
      · exact Or.inr (Or.inr ⟨k', hrest, hplace⟩)
  | some held =>
    refine Or.inr fun x hx => ?_
    have hstarts := starts_foldl f ((targetsOf k.projects).foldl
      (alsoDue ⟨s.loaded, s.status, s.timer, s.checks.eraseIdx i, s.running⟩ held) k.due)
      ⟨s.loaded, s.status, s.timer, s.checks.eraseIdx i, s.running⟩
    have hx' : Automatic s x := (Automatic.of_loaded hstarts.loaded).mp hx
    obtain ⟨hcurrent, hattended⟩ := hcovered x hx'
    refine ⟨hstarts.current x hx' hcurrent, ?_⟩
    rcases hattended with h | h | ⟨k', hk', hplace⟩
    · exact Or.inl (hstarts.upToDate x hx' h)
    · exact Or.inr (Or.inl (hstarts.running _ h))
    · rcases mem_eraseIdx_or (i := i) hk' with hsome | hrest
      · cases hk.symm.trans hsome
        exact Or.inr (Or.inl (isRunning_foldl f hx' (mem_alsoDue _ hplace)))
      · exact Or.inr (Or.inr ⟨k', hstarts.checks ▸ hrest, hplace⟩)

/-- `Sync now`. -/
theorem covered_syncTarget (hcovered : Covered f s) (place : Place) :
    Covered f (s.syncTarget f place) := by
  have hstarts := starts_syncTarget f s place
  rcases hcovered with htimer | hcovered
  · exact Or.inl (hstarts.timer.trans htimer)
  refine Or.inr fun x hx => ?_
  have hx' := (Automatic.of_loaded hstarts.loaded).mp hx
  obtain ⟨hcurrent, hattended⟩ := hcovered x hx'
  refine ⟨hstarts.current x hx' hcurrent, ?_⟩
  rcases hattended with h | h | ⟨k, hk, hplace⟩
  · exact Or.inl (hstarts.upToDate x hx' h)
  · exact Or.inr (Or.inl (hstarts.running _ h))
  · exact Or.inr (Or.inr ⟨k, hstarts.checks ▸ hk, hplace⟩)

/-- A push goes on or ends: the others stay, and its target is attempted with its contents or still
being pushed. -/
theorem covered_running {i : ℕ} {r : Running} {status : TargetStatus} (again : List Running)
    (hr : s.running[i]? = some r) (hcovered : Covered f s)
    (hagain : ∀ r' ∈ again, r'.target = r.target ∧ r'.print = r.print)
    (hdone : status.fingerprint = r.print ∨ again ≠ []) :
    Covered f (setStatus ⟨s.loaded, s.status, s.timer, s.checks, again ++ s.running.eraseIdx i⟩
      r.target status) := by
  rcases hcovered with htimer | hcovered
  · exact Or.inl htimer
  refine Or.inr fun x hx => ?_
  obtain ⟨hcurrent, hattended⟩ := hcovered x hx
  have hmem : r ∈ s.running := List.mem_of_getElem? hr
  constructor
  · intro r' hr' hid
    rcases List.mem_append.mp hr' with hr' | hr'
    · obtain ⟨htarget, hprint⟩ := hagain r' hr'
      rw [hprint]
      exact hcurrent r hmem (htarget.symm.trans hid)
    · exact hcurrent r' (List.mem_of_mem_eraseIdx hr') hid
  by_cases hid : r.target = x.target.id
  · rcases hdone with hdone | hne
    · exact Or.inl ⟨status, by rw [← hid]; exact Function.update_self _ _ _,
        hdone.trans (hcurrent r hmem hid)⟩
    · obtain ⟨r', hr'⟩ := List.exists_mem_of_ne_nil _ hne
      refine Or.inr (Or.inl (List.any_eq_true.mpr ⟨r', List.mem_append_left _ hr', ?_⟩))
      exact decide_eq_true ((hagain r' hr').1.trans hid)
  · rcases hattended with ⟨st, hst, hprint⟩ | h | h
    · exact Or.inl ⟨st, (Function.update_of_ne (Ne.symm hid) _ _).trans hst, hprint⟩
    · obtain ⟨r', hr', hid'⟩ := List.any_eq_true.mp h
      have hid' := of_decide_eq_true hid'
      refine Or.inr (Or.inl (List.any_eq_true.mpr ⟨r', List.mem_append_right _ ?_, decide_eq_true hid'⟩))
      refine (mem_eraseIdx_or hr').resolve_left fun hsome => hid ?_
      cases hr.symm.trans hsome
      exact hid'
    · exact Or.inr (Or.inr h)

theorem covered_step {e : Event V} (hcovered : Covered f s) (hattends : Attends f s e)
    (hstep : s.step f e = some s') : Covered f s' := by
  cases e with
  | change loaded =>
    dsimp only [step] at hstep
    cases hstep
    exact Or.inl rfl
  | connect =>
    dsimp only [step] at hstep
    cases hstep
    exact Or.inl rfl
  | timer =>
    dsimp only [step] at hstep
    split at hstep <;> cases hstep
    exact covered_check f hattends
  | check i connections =>
    dsimp only [step] at hstep
    split at hstep <;> cases hstep
    exact covered_pushDue f ‹_› hcovered hattends
  | sync place =>
    dsimp only [step] at hstep
    cases hstep
    exact covered_syncTarget f hcovered place
  | connections i connections =>
    dsimp only [step] at hstep
    split at hstep
    · cases hstep
    rename_i r hr
    split at hstep <;> cases hstep
    unfold withConnections
    split
    · exact covered_running f [] hr hcovered (List.forall_mem_nil _) (Or.inl rfl)
    · refine covered_running f [_] hr hcovered (fun r' hr' => ?_)
        (Or.inr (List.cons_ne_nil _ _))
      cases List.mem_singleton.mp hr'
      exact ⟨rfl, rfl⟩
  | report i answer =>
    dsimp only [step] at hstep
    split at hstep
    · cases hstep
    rename_i r hr
    split at hstep <;> cases hstep
    refine covered_running f [] hr hcovered (List.forall_mem_nil _) (Or.inl ?_)
    cases answer <;> rfl
  | restart loaded stored =>
    dsimp only [step] at hstep
    cases hstep
    exact Or.inl rfl

/-- One event after another. -/
def Steps (s s' : Engine V) : Prop := ∃ e, s.step f e = some s'

/-- One event after another, none of which passes over a target. -/
def StepsAttending (s s' : Engine V) : Prop := ∃ e, Attends f s e ∧ s.step f e = some s'

theorem covered_run {loaded : Loaded V} {status : String → Option TargetStatus}
    (hrun : ReflTransGen (StepsAttending f) (start loaded status) s) : Covered f s := by
  induction hrun with
  | refl => exact Or.inl rfl
  | tail _ hstep ih =>
    obtain ⟨e, hattends, hstep⟩ := hstep
    exact covered_step f ih hattends hstep

/-- When nothing is left to do, the last attempt of every automatic target was made with its current
contents, if no event passed over a target. -/
theorem none_left_unsynced {loaded : Loaded V} {status : String → Option TargetStatus}
    (hrun : ReflTransGen (StepsAttending f) (start loaded status) s) (htimer : s.timer = false)
    (hchecks : s.checks = []) (hrunning : s.running = []) (hx : Automatic s x) :
    ∃ st, s.status x.target.id = some st ∧ st.fingerprint = print f s.loaded x := by
  rcases covered_run f hrun with h | hcovered
  · exact absurd (htimer.symm.trans h) Bool.false_ne_true
  rcases (hcovered x hx).2 with h | h | ⟨k, hk, -⟩
  · exact h
  · rw [isRunning, hrunning] at h
    cases h
  · rw [hchecks] at hk
    exact absurd hk List.not_mem_nil

/-- Events in a row. -/
def run (s : Engine V) : List (Event V) → Option (Engine V)
  | [] => some s
  | e :: es => (s.step f e).bind fun s' => run s' es

theorem steps_of_run {es : List (Event V)} (h : run f s es = some s') :
    ReflTransGen (Steps f) s s' := by
  induction es generalizing s with
  | nil =>
    cases h
    exact .refl
  | cons e es ih =>
    obtain ⟨s'', hstep, hrest⟩ := Option.bind_eq_some_iff.mp h
    exact .head ⟨e, hstep⟩ (ih hrest)

/-- What is written of names and values. -/
def jsonFormats : Formats String where
  localeLE _ _ := true
  stringify target items := String.ofList (Json.Value.text (.arr [.str target.id,
    .arr (items.map fun i => .arr [.str i.name, .str i.encryptedValue])]))

/-- The target of the examples. -/
def webTarget : Located where
  project := ⟨1, "web", "Web", true,
    [⟨2, "Dev", "dev", .development, 0, none, false, [.github "t" "acme/web" none none]⟩], []⟩
  env := ⟨2, "Dev", "dev", .development, 0, none, false, [.github "t" "acme/web" none none]⟩
  target := .github "t" "acme/web" none none

/-- A project whose one secret has the given value. -/
def webProject (value : String) : Loaded String where
  view := ⟨[webTarget.project], [⟨3, 1, "A", "A", none, fun _ => some value⟩]⟩
  ready := true
  projects_nodup := List.nodup_singleton _
  environments_nodup := by
    intro p hp
    cases List.mem_singleton.mp hp
    exact List.nodup_singleton _
  targets_nodup := List.nodup_singleton _

theorem print_webProject (value : String) :
    print jsonFormats (webProject value) webTarget =
      jsonFormats.fingerprint webTarget.target [⟨"A", 3, 2, value⟩] := by
  unfold print itemsFor
  rw [List.mergeSort_of_pairwise]
  · rfl
  · exact List.pairwise_of_forall fun _ _ => rfl

theorem automatic_webTarget (s : Engine String) (value : String)
    (h : s.loaded = webProject value) : Automatic s webTarget := by
  refine ⟨?_, rfl, by decide⟩
  rw [h]
  exact List.mem_singleton_self _

/-- Connected to both providers. -/
def bothConnected : Connections := fun _ => true

/-- Nothing changes while the target is pushed. -/
theorem none_left_unsynced_web : ∃ s : Engine String, s.timer = false ∧ s.checks = [] ∧
    s.running = [] ∧ s.loaded = webProject "a" ∧
    ∃ st, s.status "t" = some st ∧ st.fingerprint = print jsonFormats s.loaded webTarget := by
  obtain ⟨s, hrun, htimer, hchecks, hrunning, hloaded⟩ : ∃ s : Engine String,
      ReflTransGen (StepsAttending jsonFormats) (start (webProject "a") fun _ => none) s ∧
        s.timer = false ∧ s.checks = [] ∧ s.running = [] ∧ s.loaded = webProject "a" := by
    have htimer : Attends jsonFormats (start (webProject "a") fun _ => none) .timer :=
      fun x _ => ⟨List.forall_mem_nil _, Or.inl rfl⟩
    refine ⟨_, .head ⟨.timer, htimer, rfl⟩ (.head ⟨.check 0 (some bothConnected), Or.inl rfl, rfl⟩
      (.head ⟨.connections 0 (some bothConnected), trivial, rfl⟩
        (.single ⟨.report 0 (.ok ⟨["A"], [], []⟩), trivial, rfl⟩))), rfl, rfl, rfl, rfl⟩
  exact ⟨s, htimer, hchecks, hrunning, hloaded, none_left_unsynced jsonFormats hrun htimer hchecks
    hrunning (automatic_webTarget s "a" hloaded)⟩

/-- A value changes during a push, and the timer goes off before the push has ended. -/
def changedWhilePushing : List (Event String) :=
  [.timer, .check 0 (some bothConnected), .connections 0 (some bothConnected),
    .change (webProject "b"), .timer, .check 0 (some bothConnected), .report 0 (.ok ⟨["A"], [], []⟩)]

theorem left_unsynced : ¬ ∀ (loaded : Loaded String) (status : String → Option TargetStatus)
    (s : Engine String) (x : Located),
    ReflTransGen (Steps jsonFormats) (start loaded status) s → s.timer = false → s.checks = [] →
      s.running = [] → Automatic s x →
        ∃ st, s.status x.target.id = some st ∧ st.fingerprint = print jsonFormats s.loaded x := by
  intro hall
  obtain ⟨s, hrun, htimer, hchecks, hrunning, hloaded, hstatus⟩ :
      ∃ s, run jsonFormats (start (webProject "a") fun _ => none) changedWhilePushing = some s ∧
        s.timer = false ∧ s.checks = [] ∧ s.running = [] ∧ s.loaded = webProject "b" ∧
        s.status "t" = some ⟨.synced, print jsonFormats (webProject "a") webTarget, ["A"], none⟩ :=
    ⟨_, rfl, rfl, rfl, rfl, rfl, rfl⟩
  obtain ⟨st, hst, hprint⟩ := hall _ _ s webTarget (steps_of_run _ hrun) htimer hchecks hrunning
    (automatic_webTarget s "b" hloaded)
  cases hstatus.symm.trans hst
  rw [hloaded, print_webProject, print_webProject] at hprint
  exact absurd hprint (by decide)

end Engine

end Zvault.SecretSync
