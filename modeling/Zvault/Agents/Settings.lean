import Mathlib.Logic.Function.Basic
import Zvault.Agents.PolicyTraces
import Zvault.Agents.Server

/-!
# Releases and the settings in force

The agent server with a record of what its steps do: when a request of an agent
is decided and ends, what is decrypted for it, and which approvals are recorded.
In a run whose updates and unpairings find no request of the agent under way,
every value is decrypted under the settings in force. Neither the decryption nor
the recording looks at the settings again.
-/

namespace Zvault.Agents

open Concurrent
open Function (update)

/-- The agent is paired and not paused, and the references are in its scopes. -/
def Registry.Admits (registry : Registry) (id : String) (refs : List SecretRef) : Prop :=
  ∃ agent, registry.get id = some agent ∧ agent.paused = false ∧
    ∀ r ∈ refs, ∃ scope ∈ agent.scopes, scope.allows r = true

/-- A decryption for an agent, with the agent's settings at that time. -/
structure Decryption where
  agentId : String
  refs : List SecretRef
  settings : Option AgentRecord
  deriving DecidableEq, Repr

def Decryption.IsAdmitted (d : Decryption) : Prop :=
  ∃ agent, d.settings = some agent ∧ agent.paused = false ∧
    ∀ r ∈ d.refs, ∃ scope ∈ agent.scopes, scope.allows r = true

/-- An approval that was recorded: how often the agent's settings had changed when its request was
decided, and how often then. -/
structure Recording where
  agentId : String
  decided : ℕ
  recorded : ℕ
  deriving DecidableEq, Repr

/-- The server, and what its steps have done. Requests of agents are numbered. -/
structure Watched where
  world : World
  requests : ℕ
  /-- The agent whose request is under way. -/
  underway : ℕ → Option String
  /-- How often an agent was updated or unpaired. -/
  changes : String → ℕ
  /-- How often that was when a request was decided. -/
  decided : ℕ → ℕ
  decryptions : List Decryption
  recordings : List Recording

def Watched.initial (agents : List AgentRecord) : Watched where
  world := .initial agents
  requests := 0
  underway := fun _ => none
  changes := fun _ => 0
  decided := fun _ => 0
  decryptions := []
  recordings := []

/-- A task, and the number of the agent's request it works for. -/
structure WatchedTask where
  task : Task
  number : Option ℕ

/-- The agent whose request is decided by a step: `decide` lets it pass or asks, or the browser
extension is authenticated for a fill. -/
def Task.decides : Task → Task → Option String
  | .decide _ id _, _ => some id
  | .handle (some id) _ _, .browserFill _ _ => some id
  | _, _ => none

/-- The agent whose settings a step changes: the update is not refused. -/
def Task.changes (w : World) : Task → Option String
  | .unpair id => some id
  | .updates id paused approval scopes =>
    if (w.registry.get id).any (·.kind = .browser) && scopes.any (!·.isEmpty) then none
    else (w.registry.update id paused approval scopes).map fun _ => id
  | _ => none

/-- What a step that goes on has decrypted for an agent. -/
def Task.decrypts (w : World) : Task → Option Decryption
  | .work _ req _ _ =>
    match req.who, req.work with
    | .agent a, .fetch => some ⟨a.id, req.refs, w.registry.get a.id⟩
    | _, _ => none
  | .openLogin a _ => some ⟨a.id, [], w.registry.get a.id⟩
  | _ => none

/-- The agent whose approval a step records, in the session mode. -/
def Task.records (w : World) : Task → Option String
  | .record _ req _ true =>
    match req.who, req.work with
    | .agent a, .fetch =>
      if (w.registry.get a.id).any (·.approval = .session15m) then some a.id else none
    | _, _ => none
  | _ => none

namespace Watched

/-- The step of a task, as far as it does not begin or end a request. -/
def observe (s : Watched) (t : WatchedTask) (world : World) (goesOn : Bool) : Watched :=
  { s with
    world
    changes := fun id =>
      if t.task.changes s.world = some id then s.changes id + 1 else s.changes id
    decryptions := (if goesOn then t.task.decrypts s.world else none).toList ++ s.decryptions
    recordings := ((t.task.records s.world).map fun id =>
      ⟨id, t.number.elim 0 s.decided, s.changes id⟩).toList ++ s.recordings }

/-- A request of the agent is decided. -/
def begin (s : Watched) (id : String) : Watched :=
  { s with
    requests := s.requests + 1
    underway := update s.underway s.requests (some id)
    decided := update s.decided s.requests (s.changes id) }

/-- The request ends. -/
def finish (s : Watched) (number : Option ℕ) : Watched :=
  { s with underway := number.elim s.underway fun n => update s.underway n none }

end Watched

def WatchedTask.proceed (s : Watched) (ok : Bool) (t : WatchedTask) :
    Watched × Option WatchedTask :=
  match t.task.proceed s.world ok with
  | (world, none) => ((s.observe t world false).finish t.number, none)
  | (world, some next) =>
    match t.task.decides next with
    | none => (s.observe t world true, some ⟨next, t.number⟩)
    | some id => ((s.observe t world true).begin id, some ⟨next, some s.requests⟩)

def watchedProgram : Program Watched WatchedTask where
  start _ t := t.task.canStart = true ∧ t.number = none
  act s t s' next := ∃ ok, t.proceed s ok = (s', next)

/-- When the settings of an agent are changed, none of its requests is under way since it was
decided. -/
def ChangesBetweenRequests (s : Watched) (t : WatchedTask) : Prop :=
  ∀ id ∈ t.task.changes s.world, ∀ n, s.underway n ≠ some id

/-- The request that a task works on. -/
def Task.request : Task → Option Request
  | .ask req _ | .waits _ req _ | .closes _ req _ _ | .touchId _ req _ => some req
  | .work _ req _ _ | .record _ req _ _ | .respond _ req _ => some req
  | _ => none

/-- The agent and the references, when secrets are fetched for an agent. -/
def Request.fetches (req : Request) : Option (String × List SecretRef) :=
  match req.who, req.work with
  | .agent a, .fetch => some (a.id, req.refs)
  | _, _ => none

/-- The agent whose settings a task relies on. -/
def Task.subject : Task → Option String
  | .browserFill a _ | .openLogin a _ => some a.id
  | task => (task.request.bind Request.fetches).map Prod.fst

/-- What a task relies on in the registry. -/
def Task.Obeys (registry : Registry) : Task → Prop
  | .browserFill a _ => registry.get a.id = some a
  | .openLogin a _ => registry.get a.id = some a ∧ a.paused = false
  | .decide req id _ => ∀ fetched ∈ req.fetches, fetched.1 = id
  | .skip req => req.fetches = none
  | task => ∀ fetched ∈ task.request.bind Request.fetches, registry.Admits fetched.1 fetched.2

section Steps

variable {w w' : World} {ok : Bool} {registry : Registry} {id : String}

theorem Task.obeys_of_request {task : Task} {req : Request} (h : task.request = some req) :
    task.Obeys registry ↔ ∀ fetched ∈ req.fetches, registry.Admits fetched.1 fetched.2 := by
  cases task <;> first
    | (obtain rfl := Option.some_inj.mp h; exact Iff.rfl)
    | cases h

theorem Task.subject_of_request {task : Task} {req : Request} (h : task.request = some req) :
    task.subject = req.fetches.map Prod.fst := by
  cases task <;> first
    | (obtain rfl := Option.some_inj.mp h; rfl)
    | cases h

/-- A request that is not denied is within the settings of its agent. -/
theorem Registry.admits_of_decide {refs : List SecretRef} {unlocked : Bool} {now : ℕ}
    (h : ∀ code, registry.decide id refs unlocked now ≠ .deny code) : registry.Admits id refs := by
  unfold decide at h
  split at h
  · exact absurd rfl (h _)
  · rename_i agent hagent
    split at h
    · exact absurd rfl (h _)
    · rename_i hpaused
      split at h
      · exact absurd rfl (h _)
      · split at h
        · exact absurd rfl (h _)
        · rename_i hscopes
          exact ⟨agent, hagent, by simpa using hpaused, by simpa using hscopes⟩

/-- Recording an approval changes no settings. -/
theorem Registry.get_approved {i : String} {refs : List SecretRef} {now : ℕ} {asked : List ℕ} :
    (registry.approved i refs now asked).get id = registry.get id := by
  unfold approved
  split
  · rfl
  · split
    · rfl
    · rfl

/-- Erasing an element that is not looked for does not change what is found. -/
theorem find?_eraseP {α : Type} {p q : α → Bool} (hpq : ∀ a, p a = true → q a = false) :
    ∀ l : List α, (l.eraseP p).find? q = l.find? q
  | [] => rfl
  | a :: l => by
    cases hp : p a with
    | true =>
      rw [List.eraseP_cons_of_pos hp, List.find?_cons_of_neg (by simp [hpq a hp])]
    | false =>
      rw [List.eraseP_cons_of_neg (by simp [hp]), List.find?_cons, List.find?_cons,
        find?_eraseP hpq l]

/-- Neither does replacing it with one that is not looked for. -/
theorem find?_set_findIdx {α : Type} {p q : α → Bool} {b : α} (hpq : ∀ a, p a = true → q a = false)
    (hb : q b = false) : ∀ l : List α, (l.set (l.findIdx p) b).find? q = l.find? q
  | [] => rfl
  | a :: l => by
    cases hp : p a with
    | true =>
      rw [List.findIdx_cons, hp, cond_true, List.set_cons_zero,
        List.find?_cons_of_neg (by simp [hb]), List.find?_cons_of_neg (by simp [hpq a hp])]
    | false =>
      rw [List.findIdx_cons, hp, cond_false, List.set_cons_succ, List.find?_cons,
        List.find?_cons, find?_set_findIdx hpq hb l]

theorem Registry.get_unpair_of_ne {i : String} (hne : i ≠ id) :
    (registry.unpair i).get id = registry.get id :=
  find?_eraseP (fun a ha => by
    have hi : a.id = i := of_decide_eq_true ha
    simpa [hi] using hne) registry.agents

theorem Registry.get_update_of_ne {registry' : Registry} {i : String} {paused : Option Bool}
    {approval : Option ApprovalMode} {scopes : Option (List ScopePattern)}
    (h : registry.update i paused approval scopes = some registry') (hne : i ≠ id) :
    registry'.get id = registry.get id := by
  unfold update at h
  split at h
  · cases h
  · obtain ⟨agent, hagent, rfl⟩ := Option.map_eq_some_iff.mp h
    have hi : agent.id = i := by simpa using List.find?_some hagent
    refine find?_set_findIdx (fun a ha => ?_) (by simpa [hi] using hne) registry.agents
    have hi : a.id = i := of_decide_eq_true ha
    simpa [hi] using hne

/-- The steps that reach the agents and their approvals. -/
def Task.reachesRegistry : Task → Bool
  | .record .. | .paired .. | .unpair _ | .updates .. | .lockHub => true
  | _ => false

theorem Task.proceed_registry {task : Task} (h : task.reachesRegistry = false) :
    (task.proceed w ok).1.registry = w.registry := by
  cases task with
  | handle agentId => cases agentId <;> rfl
  | exporting who => cases who <;> rfl
  | authorize req =>
    simp only [proceed]
    cases req.who <;> rfl
  | decide req =>
    simp only [proceed]
    split <;> rfl
  | skip req =>
    simp only [proceed]
    split
    · rfl
    · split
      · rfl
      · split <;> rfl
  | ask req =>
    simp only [proceed]
    split <;> rfl
  | waits id =>
    simp only [proceed]
    split
    · rfl
    · split <;> rfl
  | touchId id =>
    simp only [proceed]
    split <;> rfl
  | work id req =>
    simp only [proceed]
    split
    · cases req.work <;> rfl
    · rfl
  | respond id req =>
    simp only [proceed]
    split <;> rfl
  | openLogin a =>
    simp only [proceed]
    split
    · split <;> rfl
    · rfl
  | askPairing kind =>
    simp only [proceed]
    split <;> rfl
  | waitsPairing id =>
    simp only [proceed]
    split <;> rfl
  | agentApprovalRespond id =>
    simp only [proceed]
    split <;> rfl
  | sendAnswer id =>
    simp only [proceed, World.send]
    split <;> rfl
  | agentPairingRespond id =>
    simp only [proceed]
    split <;> rfl
  | lock =>
    simp only [proceed]
    split <;> rfl
  | record | paired | unpair | updates | lockHub => cases h
  | _ => rfl

/-- A step that does not change the settings of an agent leaves it as it is. -/
theorem Task.proceed_get {a : AgentRecord} (task : Task) (hget : w.registry.get id = some a)
    (hchanges : task.changes w ≠ some id) : (task.proceed w ok).1.registry.get id = some a := by
  cases task with
  | record n req asked verified =>
    simp only [proceed]
    split
    · split
      · exact Registry.get_approved.trans hget
      · exact hget
    · exact hget
  | paired kind newId answer =>
    simp only [proceed]
    split
    · exact hget
    · rename_i registry hpair
      obtain rfl := Registry.pairKind_eq_some hpair
      simp only [Registry.get, List.find?_append] at hget ⊢
      rw [hget]
      rfl
  | unpair i => exact (Registry.get_unpair_of_ne fun heq => hchanges (congrArg some heq)).trans hget
  | updates i paused approval scopes =>
    simp only [changes] at hchanges
    simp only [proceed]
    split
    · exact hget
    · rename_i hbrowser
      rw [if_neg hbrowser] at hchanges
      split
      · exact hget
      · rename_i registry hupdate
        rw [hupdate] at hchanges
        exact (Registry.get_update_of_ne hupdate fun heq => hchanges (congrArg some heq)).trans hget
  | lockHub => exact hget
  | _ =>
    rw [Task.proceed_registry rfl]
    exact hget

end Steps

end Zvault.Agents
