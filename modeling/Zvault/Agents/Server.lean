import Zvault.Agents.Approvals
import Zvault.Agents.Policy

/-!
# The agent server

`server.rs` and the commands of `mod.rs`. Every connection and every command has
a thread, which steps from one critical section to the next. A lock reaches the
session, the keyring and the hub one after the other. What the UI finds, what
decrypts and whether Touch ID is set up and accepts a finger is left open.
-/

namespace Zvault.Agents

open Function (update)

def maxRefs : ℕ := 64

def maxPendingPrompts : ℕ := 4

inductive PurposeKind where
  | run
  | read
  | exporting
  | list
  | copy
  | set
  | signIn
  | change
  | readItem
  | changeItem
  | fill
  | saveLogin
  | sshSign
  deriving DecidableEq, Repr

/-- Changes and new sign-ins always need the user. -/
def PurposeKind.needsUser : PurposeKind → Bool
  | .set | .signIn | .change | .changeItem => true
  | _ => false

inductive Who where
  | agent (a : AgentRecord)
  | user
  | ssh
  deriving DecidableEq, Repr

/-- What a request does once it is authorized. -/
inductive Work where
  | fetch
  | copy
  | itemGet
  /-- Names of projects, secrets or items. -/
  | names
  | set
  | change
  | itemPut
  | signIn (sid : ℤ)
  | sshSign
  | fill
  | saveLogin
  deriving DecidableEq, Repr

/-- The work opens or seals something. A login to fill has been opened before it is asked for. -/
def Work.usesKeyring : Work → Bool
  | .fetch | .copy | .itemGet | .set | .itemPut | .saveLogin => true
  | _ => false

/-- The response holds a secret. -/
def Work.reveals : Work → Bool
  | .fetch | .itemGet | .fill => true
  | _ => false

/-- The work releases a secret, in the response or to the clipboard, or keeps an approval. -/
def Work.isGuarded : Work → Bool
  | .fetch | .itemGet | .fill | .copy | .signIn _ => true
  | _ => false

theorem Work.isGuarded_of_reveals {work : Work} (h : work.reveals = true) :
    work.isGuarded = true := by
  cases work <;> first | rfl | cases h

structure Request where
  who : Who
  refs : List SecretRef
  purpose : PurposeKind
  sid : Option ℤ
  work : Work
  deriving DecidableEq, Repr

/-- What arrives on the socket. -/
inductive RequestBody where
  | fetch (refs : List SecretRef) (purpose : PurposeKind)
  /-- With what the UI is going to find. -/
  | exporting (place : ScopePattern) (purpose : PurposeKind) (found : List SecretRef)
  | names
  | unpair
  | pair (kind : AgentKind) (agentId : String)
  | browserFill
  | browserSave
  | signIn
  | signOut
  | copy (reference : SecretRef)
  | set (reference : SecretRef)
  | change (deletes : Option SecretRef)
  | itemGet
  | itemPut
  deriving DecidableEq, Repr

structure PairingAnswer where
  approval : ApprovalMode
  scopes : List ScopePattern
  deriving DecidableEq, Repr

/-- The session, the keyring and the hub. The fields from `locks` on record the past and are never
read. -/
structure World where
  now : ℕ
  sessionUnlocked : Bool
  keyringUnlocked : Bool
  registry : Registry
  terminals : TerminalGrants
  approvals : List ℕ
  pairings : List ℕ
  /-- How many approval prompts, and requests that needed none, there were. -/
  prompts : ℕ
  channels : ℕ → Channel
  pairingPrompts : ℕ
  pairingAnswers : ℕ → Option (Option PairingAnswer)
  /-- How many locks have reached the hub. -/
  locks : ℕ
  asked : ℕ → ℕ
  guarded : ℕ → Bool
  /-- Requests whose answer has been taken, or that needed no prompt, until they end. -/
  underway : ℕ → Bool
  releases : List Release

/-- The app has started, with the agents that were saved. -/
def World.initial (agents : List AgentRecord) : World where
  now := 0
  sessionUnlocked := false
  keyringUnlocked := false
  registry := ⟨agents, fun _ => none⟩
  terminals := ⟨fun _ => none⟩
  approvals := []
  pairings := []
  prompts := 0
  channels := fun _ => .awaited
  pairingPrompts := 0
  pairingAnswers := fun _ => none
  locks := 0
  asked := fun _ => 0
  guarded := fun _ => false
  underway := fun _ => false
  releases := []

/-- Where a thread stands, or what else happens. -/
inductive Task where
  | handle (agentId : Option String) (sid : Option ℤ) (body : RequestBody)
  | approveSshSign
  | exporting (who : Who) (sid : Option ℤ) (place : ScopePattern) (purpose : PurposeKind)
      (found : List SecretRef)
  | authorize (req : Request)
  /-- An agent's request, with whether the session was unlocked. -/
  | decide (req : Request) (agentId : String) (unlocked : Bool)
  /-- The user's request, unless the terminal is signed in. -/
  | skip (req : Request)
  | ask (req : Request) (withTouchId : Bool)
  | waits (id : ℕ) (req : Request) (touchIdReady : Bool)
  | closes (id : ℕ) (req : Request) (touchIdReady approved : Bool)
  | touchId (id : ℕ) (req : Request) (asked : List ℕ)
  | work (id : ℕ) (req : Request) (asked : List ℕ) (verified : Bool)
  | record (id : ℕ) (req : Request) (asked : List ℕ) (verified : Bool)
  | respond (id : ℕ) (req : Request) (asked : List ℕ)
  | browserFill (a : AgentRecord) (sid : Option ℤ)
  | browserSave (a : AgentRecord) (sid : Option ℤ)
  | openLogin (a : AgentRecord) (sid : Option ℤ)
  | pair (kind : AgentKind) (agentId : String)
  | askPairing (kind : AgentKind) (agentId : String)
  | waitsPairing (id : ℕ) (kind : AgentKind) (agentId : String)
  | closesPairing (id : ℕ) (kind : AgentKind) (agentId : String) (answer : Option PairingAnswer)
  | paired (kind : AgentKind) (agentId : String) (answer : PairingAnswer)
  | unpair (agentId : String)
  | signOut (sid : ℤ)
  | agentApprovalRespond (id : ℕ) (approve : Bool)
  | sendAnswer (id : ℕ) (approve : Bool)
  | agentPairingRespond (id : ℕ) (answer : Option PairingAnswer)
  | sendPairing (id : ℕ) (answer : Option PairingAnswer)
  | agentUpdate (agentId : String) (paused : Option Bool) (approval : Option ApprovalMode)
      (scopes : Option (List ScopePattern))
  | updates (agentId : String) (paused : Option Bool) (approval : Option ApprovalMode)
      (scopes : Option (List ScopePattern))
  | agentUnpair (agentId : String)
  | lock
  | lockKeyring
  | lockHub
  | unlockWithPassword
  | unlockSession
  | quickUnlock
  | unlockKeyring
  | pass (duration : ℕ)
  deriving DecidableEq, Repr

def fetch (who : Who) (refs : List SecretRef) (purpose : PurposeKind) (sid : Option ℤ) :
    Option Task :=
  let refs := refs.eraseDups
  if refs.isEmpty || maxRefs < refs.length then none
  else some (.authorize ⟨who, refs, purpose, sid, .fetch⟩)

/-- `handle`, for a request that is authenticated. Names an agent's scopes reach are listed without
a prompt. -/
def handle (sid : Option ℤ) : Who → RequestBody → Option Task
  | .ssh, _ => none
  | who, .fetch refs purpose => fetch who refs purpose sid
  | who, .exporting place purpose found => some (.exporting who sid place purpose found)
  | .agent a, .unpair => some (.unpair a.id)
  | .agent a, .browserFill => if a.kind = .browser then some (.browserFill a sid) else none
  | .agent a, .browserSave => if a.kind = .browser then some (.browserSave a sid) else none
  | .agent _, _ => none
  | .user, .names => some (.authorize ⟨.user, [], .list, sid, .names⟩)
  | .user, .pair kind agentId => some (.pair kind agentId)
  | .user, .signIn => sid.map fun s => .authorize ⟨.user, [], .signIn, sid, .signIn s⟩
  | .user, .signOut => sid.map .signOut
  | .user, .copy reference => some (.authorize ⟨.user, [reference], .copy, sid, .copy⟩)
  | .user, .set reference => some (.authorize ⟨.user, [reference], .set, sid, .set⟩)
  | .user, .change deletes => some (.authorize ⟨.user, deletes.toList, .change, sid, .change⟩)
  | .user, .itemGet => some (.authorize ⟨.user, [], .readItem, sid, .itemGet⟩)
  | .user, .itemPut => some (.authorize ⟨.user, [], .changeItem, sid, .itemPut⟩)
  | .user, _ => none

/-- The prompts that an allowed request of an agent rests on. -/
def Registry.restsOn (registry : Registry) (id : String) (refs : List SecretRef) (now : ℕ) :
    List ℕ :=
  if (registry.get id).any (·.approval = .session15m) then
    (registry.live id refs now).flatMap (·.asked)
  else []

namespace World

/-- A request goes on without a prompt. -/
def begin (w : World) (guarded : Bool) : World :=
  { w with
    prompts := w.prompts + 1
    asked := update w.asked w.prompts w.locks
    guarded := update w.guarded w.prompts guarded
    channels := update w.channels w.prompts .closed
    underway := update w.underway w.prompts true }

/-- `approvals.insert` of a fresh prompt. -/
def insertApproval (w : World) (guarded : Bool) : World :=
  { w with
    approvals := w.prompts :: w.approvals
    prompts := w.prompts + 1
    asked := update w.asked w.prompts w.locks
    guarded := update w.guarded w.prompts guarded
    channels := update w.channels w.prompts .awaited }

def pendingPrompts (w : World) : ℕ := w.approvals.length + w.pairings.length

/-- `approvals.remove`, to answer the prompt. -/
def takeApproval (w : World) (id : ℕ) (approve : Bool) : World :=
  { w with
    approvals := w.approvals.filter (· ≠ id)
    underway := if approve ∧ w.channels id = .awaited then update w.underway id true
      else w.underway }

/-- `tx.send`, which a request that no longer waits does not receive. -/
def send (w : World) (id : ℕ) (approve : Bool) : World :=
  if w.channels id = .awaited then
    { w with
      channels := update w.channels id (.sent approve)
      underway := update w.underway id approve }
  else w

/-- The request stops waiting. -/
def receive (w : World) (id : ℕ) : World := { w with channels := update w.channels id .closed }

/-- The request ends. -/
def finish (w : World) (id : ℕ) : World := { w with underway := update w.underway id false }

def closePrompt (w : World) (id : ℕ) : World :=
  { w with approvals := w.approvals.filter (· ≠ id) }

def release (w : World) (asked : List ℕ) : World :=
  { w with releases := ⟨asked, w.locks⟩ :: w.releases }

/-- `AgentHub::on_lock`. -/
def onLock (w : World) : World :=
  { w with
    registry := w.registry.onLock
    terminals := w.terminals.clear
    approvals := []
    channels := fun id =>
      if id ∈ w.approvals ∧ w.channels id = .awaited then .sent false else w.channels id
    pairings := []
    pairingAnswers := fun id => if id ∈ w.pairings then some none else w.pairingAnswers id
    locks := w.locks + 1 }

/-- `wait_unlocked`; `ok` says whether there is time left. -/
def waitUnlocked (w : World) (ok : Bool) (again next : Task) : World × Option Task :=
  (w, if w.sessionUnlocked then some next else if ok then some again else none)

end World

/-- The next step of a task; `ok` says whether what it uses works, or it waits longer. -/
def Task.proceed (w : World) (ok : Bool) : Task → World × Option Task
  | .handle none sid body => (w, Agents.handle sid .user body)
  | .handle (some id) sid body =>
    (w, if ok then (w.registry.get id).bind fun a => Agents.handle sid (.agent a) body else none)
  | .approveSshSign => (w, some (.authorize ⟨.ssh, [], .sshSign, none, .sshSign⟩))
  | .exporting who sid place purpose found =>
    let refs := found.filter place.allows
    match who with
    | .agent a =>
      (w, if a.paused || !w.sessionUnlocked then none
        else fetch who (refs.filter fun r => a.scopes.any (·.allows r)) purpose sid)
    | .user =>
      (w, if w.sessionUnlocked then fetch who refs purpose sid
        else if ok then some (.exporting who sid place purpose found) else none)
    | .ssh => (w, none)
  | .authorize req =>
    match req.who with
    | .agent a => (w, some (.decide req a.id w.sessionUnlocked))
    | .user => w.waitUnlocked ok (.authorize req) (.skip req)
    | .ssh => w.waitUnlocked ok (.authorize req) (.ask req true)
  | .decide req agentId unlocked =>
    match w.registry.decide agentId req.refs unlocked w.now with
    | .deny _ => (w, none)
    | .allow =>
      (w.begin req.work.isGuarded,
        some (.work w.prompts req (w.registry.restsOn agentId req.refs w.now) false))
    | .ask withTouchId => (w, some (.ask req withTouchId))
  | .skip req =>
    match req.sid with
    | none => (w, some (.ask req true))
    | some sid =>
      if req.purpose.needsUser then (w, some (.ask req true))
      else
        let (terminals, used) := w.terminals.useGrant sid w.now
        match used with
        | none => ({ w with terminals }, some (.ask req true))
        | some signIn =>
          ({ w with terminals }.begin req.work.isGuarded,
            some (.work w.prompts req signIn.asked false))
  | .ask req withTouchId =>
    if maxPendingPrompts ≤ w.pendingPrompts then (w, none)
    else (w.insertApproval req.work.isGuarded, some (.waits w.prompts req (withTouchId && ok)))
  | .waits id req touchIdReady =>
    match w.channels id with
    | .sent approve => (w.receive id, some (.closes id req touchIdReady approve))
    | _ =>
      if ok then (w, some (.waits id req touchIdReady))
      else ((w.receive id).finish id, some (.closes id req touchIdReady false))
  | .closes id req touchIdReady approved =>
    (w.closePrompt id,
      if approved then
        if touchIdReady then some (.touchId id req [w.asked id])
        else some (.work id req [w.asked id] true)
      else none)
  | .touchId id req asked =>
    if ok then (w, some (.work id req asked true)) else (w.finish id, none)
  | .work id req asked verified =>
    if ok && (!req.work.usesKeyring || w.keyringUnlocked) then
      (match req.work with
        | .signIn sid => { w with terminals := w.terminals.grant sid w.now asked }
        | .copy => w.release asked
        | _ => w, some (.record id req asked verified))
    else (w.finish id, none)
  | .record id req asked verified =>
    (match req.who, req.work with
      -- agents reach `logged` through `fetch` only
      | .agent a, .fetch =>
        if verified then { w with registry := w.registry.approved a.id req.refs w.now asked } else w
      | _, _ => w, some (.respond id req asked))
  | .respond id req asked => ((if req.work.reveals then w.release asked else w).finish id, none)
  | .browserFill a sid =>
    (w, if a.paused || !w.sessionUnlocked then none else some (.openLogin a sid))
  | .openLogin a sid =>
    let req : Request := ⟨.agent a, [], .fill, sid, .fill⟩
    if ok && w.keyringUnlocked then
      if a.approval = .whileUnlocked then
        (w.begin req.work.isGuarded, some (.work w.prompts req [] false))
      else (w, some (.ask req (a.approval = .askEveryTime)))
    else (w, none)
  | .browserSave a sid =>
    -- `ok` also stands for the login that is changed: it is found, and opens
    (w, if a.paused || !w.sessionUnlocked || !ok then none
      else some (.ask ⟨.agent a, [], .saveLogin, sid, .saveLogin⟩ false))
  | .pair kind agentId => w.waitUnlocked ok (.pair kind agentId) (.askPairing kind agentId)
  | .askPairing kind agentId =>
    if maxPendingPrompts ≤ w.pendingPrompts then (w, none)
    else
      let id := w.pairingPrompts
      ({ w with
        pairings := id :: w.pairings
        pairingPrompts := id + 1
        pairingAnswers := update w.pairingAnswers id none }, some (.waitsPairing id kind agentId))
  | .waitsPairing id kind agentId =>
    match w.pairingAnswers id with
    | some answer => (w, some (.closesPairing id kind agentId answer))
    | none => (w, some (if ok then .waitsPairing id kind agentId
        else .closesPairing id kind agentId none))
  | .closesPairing id kind agentId answer =>
    ({ w with pairings := w.pairings.filter (· ≠ id) }, answer.map (.paired kind agentId))
  | .paired kind agentId answer =>
    let scopes := match kind with
      | .agent => answer.scopes
      | .browser => []
    match w.registry.pairKind agentId kind answer.approval scopes with
    | none => (w, none)
    | some registry => ({ w with registry }, none)
  | .unpair agentId => ({ w with registry := w.registry.unpair agentId }, none)
  | .signOut sid => ({ w with terminals := w.terminals.revoke sid }, none)
  | .agentApprovalRespond id approve =>
    if id ∈ w.approvals then (w.takeApproval id approve, some (.sendAnswer id approve))
    else (w, none)
  | .sendAnswer id approve => (w.send id (approve && w.sessionUnlocked), none)
  | .agentPairingRespond id answer =>
    if id ∈ w.pairings then
      ({ w with pairings := w.pairings.filter (· ≠ id) }, some (.sendPairing id answer))
    else (w, none)
  | .sendPairing id answer =>
    ({ w with
      pairingAnswers := update w.pairingAnswers id (some (answer.filter fun _ => w.sessionUnlocked)) },
      none)
  | .agentUpdate agentId paused approval scopes =>
    (w, if w.sessionUnlocked then some (.updates agentId paused approval scopes) else none)
  | .updates agentId paused approval scopes =>
    if (w.registry.get agentId).any (·.kind = .browser) && scopes.any (!·.isEmpty) then (w, none)
    else match w.registry.update agentId paused approval scopes with
      | none => (w, none)
      | some registry => ({ w with registry }, none)
  | .agentUnpair agentId => (w, if w.sessionUnlocked then some (.unpair agentId) else none)
  | .lock => if ok then ({ w with sessionUnlocked := false }, some .lockKeyring) else (w, none)
  | .lockKeyring => ({ w with keyringUnlocked := false }, some .lockHub)
  | .lockHub => (w.onLock, none)
  | .unlockWithPassword => ({ w with keyringUnlocked := true }, some .unlockSession)
  | .unlockSession => ({ w with sessionUnlocked := true }, none)
  | .quickUnlock => ({ w with sessionUnlocked := true }, some .unlockKeyring)
  | .unlockKeyring => ({ w with keyringUnlocked := true }, none)
  | .pass duration => ({ w with now := w.now + duration }, none)

/-- What may start at any time. -/
def Task.canStart : Task → Bool
  | .handle .. | .approveSshSign | .agentApprovalRespond .. | .agentPairingRespond .. => true
  | .agentUpdate .. | .agentUnpair _ | .lock | .unlockWithPassword | .quickUnlock | .pass _ => true
  | _ => false

def agentProgram : Concurrent.Program World Task where
  start _ task := task.canStart = true
  act w task w' next := ∃ ok, task.proceed w ok = (w', next)

section Runs

open Concurrent

variable {condition : World → Task → Prop} {s : System World Task} {w w' : World}
  {rest : List Task}

theorem task_starts (h : Run (agentProgram.when condition) s ⟨w, rest⟩) (task : Task)
    (hstart : task.canStart = true) :
    Run (agentProgram.when condition) s ⟨w, task :: rest⟩ :=
  h.tail (.start hstart)

/-- The task that started last goes on. -/
theorem task_proceeds {task : Task} {next : Option Task} (ok : Bool)
    (h : Run (agentProgram.when condition) s ⟨w, task :: rest⟩)
    (hproceed : task.proceed w ok = (w', next)) (hcondition : condition w task) :
    Run (agentProgram.when condition) s ⟨w', next.toList ++ rest⟩ := by
  have hact : (agentProgram.when condition).act w task w' next := ⟨hcondition, ok, hproceed⟩
  exact h.proceeds hact

end Runs

end Zvault.Agents
