import Mathlib.Algebra.Ring.Nat
import Mathlib.Logic.Function.Basic
import Zvault.Concurrent.Tasks

/-!
# Rotating an environment's key

`team.rs` and `projects.rs` of the desktop app, `rotate` of `team.ts` and the pull
that it begins and ends with, for one environment of one project. A key stands for
itself: what is sealed or wrapped under it is opened by it alone.
-/

namespace Zvault.Rotations

open Concurrent
open Function (update)

/-- An environment key. -/
abbrev Key := ℕ

/-- A secret's value, sealed. -/
structure SealedValue where
  key : Key
  value : String
  deriving DecidableEq, Repr

structure SecretValueCipher where
  secretId : String
  encryptedValue : SealedValue
  deriving DecidableEq, Repr

/-- A key that is wrapped to each of the recipients. -/
structure Wraps where
  key : Key
  recipients : List String
  deriving DecidableEq, Repr

/-- The body of a rotation. -/
structure RotateEnvironmentKey where
  fromVersion : ℕ
  wraps : Wraps
  values : List SecretValueCipher
  deriving DecidableEq, Repr

/-- This account's key as the API has it: its own, or one that a member wrapped. -/
structure Grant where
  keyVersion : ℕ
  key : Key
  boxed : Bool
  deriving DecidableEq, Repr

/-- This account's wrap, with the version of the key. -/
structure StoredMemberWrap where
  keyVersion : ℕ
  key : Key
  deriving DecidableEq, Repr

/-- What the key ring holds of the environment. -/
structure EnvironmentKeys where
  unlocked : Bool
  project : Bool
  environment : Option Key
  rotation : Option Key
  deriving DecidableEq, Repr

namespace EnvironmentKeys

/-- `Keyring::lock`, and before anything is unlocked. -/
def locked : EnvironmentKeys := ⟨false, false, none, none⟩

variable (keys : EnvironmentKeys)

/-- `open_project`. -/
def openProject : Option EnvironmentKeys :=
  if keys.unlocked then some { keys with project := true } else none

/-- The key that an environment is opened with, and its version. -/
def granted (memberWrap : Option StoredMemberWrap) (encryptedKey : Option Grant) :
    Option (ℕ × Key) :=
  match memberWrap, encryptedKey with
  | some wrap, _ => some (wrap.keyVersion, wrap.key)
  | none, some grant => if grant.boxed then none else some (grant.keyVersion, grant.key)
  | none, none => none

/-- `open_environment`: whether the environment is unlocked. -/
def openEnvironment (memberWrap : Option StoredMemberWrap) (encryptedKey : Option Grant) :
    Option (Bool × EnvironmentKeys) :=
  if keys.unlocked && keys.project then
    some (match granted memberWrap encryptedKey with
      | some (_, key) => (true, { keys with environment := some key })
      | none => (false, keys))
  else none

/-- `open_value`. -/
def openValue (key : Key) (blob : SealedValue) : Option String :=
  if blob.key = key then some blob.value else none

/-- `seal_secret_value`. -/
def sealSecretValue (value : String) : Option SealedValue :=
  if keys.unlocked then keys.environment.map (⟨·, value⟩) else none

/-- `rotate_environment`, with the key that is drawn. -/
def rotateEnvironment (fromVersion : ℕ) (recipients : List String)
    (values : List SecretValueCipher) (next : Key) :
    Option (RotateEnvironmentKey × EnvironmentKeys) :=
  if 2 ^ 32 ≤ fromVersion + 1 || !keys.unlocked then none
  else do
    let current ← keys.environment
    let values ← values.mapM fun v =>
      (openValue current v.encryptedValue).map fun plain => ⟨v.secretId, ⟨next, plain⟩⟩
    return (⟨fromVersion, ⟨next, recipients⟩, values⟩, { keys with rotation := some next })

/-- `commit_rotation`: whether a new key was waiting. -/
def commitRotation : Option (Bool × EnvironmentKeys) :=
  if keys.unlocked then
    some (match keys.rotation with
      | some next => (true, { keys with environment := some next, rotation := none })
      | none => (false, keys))
  else none

end EnvironmentKeys

/-- The environment as the API has it. `stored` keeps, for every version, the key that was wrapped
to the members. -/
structure Api where
  keyVersion : ℕ
  stored : ℕ → Option Key
  mine : Option Grant
  revision : ℕ
  holders : List String
  values : List SecretValueCipher

/-- Why a rotation is refused. -/
inductive Refusal where
  | missing (ids : List String)
  | conflict
  deriving DecidableEq, Repr

/-- An environment in the change feed. -/
structure EnvironmentEntry where
  revision : ℕ
  encryptedKey : Option Grant
  deriving DecidableEq, Repr

/-- What a pull fetches at once. -/
structure Page where
  environment : Option EnvironmentEntry
  values : List SecretValueCipher
  hasMore : Bool
  deriving DecidableEq, Repr

namespace Api

/-- An environment that was just made. `own` is whether it is this account's. -/
def initial (own : Option Bool) (holders : List String) (values : List SecretValueCipher) : Api where
  keyVersion := 1
  stored := update (fun _ => none) 1 (some 0)
  mine := own.map fun own => ⟨1, 0, !own⟩
  revision := 1
  holders := holders
  values := values

variable (me : String) (api : Api)

/-- The environment under the next version of its key. -/
def rekeyed (wraps : Wraps) (values : List SecretValueCipher) : Api :=
  { api with
    keyVersion := api.keyVersion + 1
    stored := update api.stored (api.keyVersion + 1) (some wraps.key)
    mine := if me ∈ wraps.recipients then some ⟨api.keyVersion + 1, wraps.key, true⟩ else none
    values }

/-- `rotate` of the environments service, for a manager. -/
def rotate (req : RotateEnvironmentKey) : Except Refusal Api :=
  let missing := api.holders.filter (· ∉ req.wraps.recipients)
  let want := api.values.map (·.secretId)
  let got := req.values.map (·.secretId)
  if req.fromVersion ≠ api.keyVersion then .error .conflict
  else if req.wraps.recipients.any (· ∉ api.holders) then .error .conflict
  else if missing ≠ [] then .error (.missing missing)
  else if !(want.all (· ∈ got) && got.all (· ∈ want) && got.Nodup) then .error .conflict
  else .ok (api.rekeyed me req.wraps req.values)

/-- `myKeys`: this account's wrap. -/
def myWrap : Option StoredMemberWrap :=
  (api.mine.filter (·.boxed)).map fun grant => ⟨grant.keyVersion, grant.key⟩

/-- The environment in the feed, as it is now. -/
def entry : EnvironmentEntry := ⟨api.revision, api.mine⟩

/-- A page may hold the environment and any of its values. -/
structure Serves (page : Page) : Prop where
  environment : ∀ entry ∈ page.environment, entry = api.entry
  values : page.values ⊆ api.values

/-- What another device does. It may draw a key. -/
inductive Changes (drawn : Key) : Api → Prop
  | rotates (recipients : List String) (values : List SecretValueCipher) :
      Changes drawn (api.rekeyed me ⟨drawn, recipients⟩ values)
  | grants (key : Key) (h : api.stored api.keyVersion = some key) :
      Changes drawn { api with mine := some ⟨api.keyVersion, key, true⟩ }
  | revokes : Changes drawn { api with mine := none }
  | edits (revision : ℕ) : Changes drawn { api with revision }
  | admits (holders : List String) : Changes drawn { api with holders }
  | writes (values : List SecretValueCipher) : Changes drawn { api with values }

end Api

/-- What the projects view knows of the environment. -/
structure Client where
  wrap : Option StoredMemberWrap
  revision : Option ℕ
  unlocked : Bool
  values : List SecretValueCipher
  deriving DecidableEq, Repr

namespace Client

def initial : Client := ⟨none, none, false, []⟩

variable (client : Client)

/-- Whether the current wrap is fetched: it is missing, or may be for the previous key. -/
def refetches (entry : EnvironmentEntry) : Bool :=
  entry.encryptedKey.any (·.boxed) &&
    (client.wrap.isNone || client.revision == some entry.revision)

/-- An entry that is older than what is known is not applied. -/
def ignores (entry : EnvironmentEntry) : Bool := client.revision.any (entry.revision < ·)

def setValue (v : SecretValueCipher) : Client :=
  { client with values := v :: client.values.filter (·.secretId ≠ v.secretId) }

def setValues (values : List SecretValueCipher) : Client := values.foldl setValue client

def setEnvironment (entry : EnvironmentEntry) (unlocked : Bool) : Client :=
  { client with revision := some entry.revision, unlocked }

end Client

/-- What comes after a pull. -/
inductive After where
  | done
  | rotate
  deriving DecidableEq, Repr

/-- What a task does next. -/
inductive Task where
  | lock
  | unlock
  | listProjects
  | openProject (wrap : Option StoredMemberWrap)
  | fetchPage (after : After)
  | apply (page : Page) (after : After)
  | fetchWrap (entry : EnvironmentEntry) (page : Page) (after : After)
  | setWrap (wrap : Option StoredMemberWrap) (entry : EnvironmentEntry) (page : Page) (after : After)
  | openEnvironment (wrap : Option StoredMemberWrap) (entry : EnvironmentEntry) (page : Page)
      (after : After)
  | rotate
  | detail (values : List SecretValueCipher)
  | rotateEnvironment (fromVersion : ℕ) (recipients : List String) (values : List SecretValueCipher)
      (retried : Bool)
  | send (req : RotateEnvironmentKey) (values : List SecretValueCipher) (retried : Bool)
  | commitRotation (key : Key) (version : ℕ)
  | sealValue (secretId value : String)
  | putValue (v : SecretValueCipher)
  | others
  deriving DecidableEq, Repr

/-- The task after a page is applied. -/
def After.next (after : After) (hasMore : Bool) : Option Task :=
  if hasMore then some (.fetchPage after)
  else match after with
    | .done => none
    | .rotate => some .rotate

/-- The client and the API. `recorded` is the newest version of the key that the client was given,
`drawn` the number of keys that were drawn, `refused` the keys whose rotation was refused and
`sealedUnder` the keys that a value was sealed under. -/
structure World where
  keys : EnvironmentKeys
  client : Client
  api : Api
  drawn : Key
  recorded : Option ℕ
  refused : List Key
  sealedUnder : List Key

namespace World

def initial (api : Api) : World := ⟨.locked, .initial, api, 1, none, [], []⟩

variable (w : World)

/-- A version of the key is recorded. -/
def record (version : ℕ) : World := { w with recorded := some (max (w.recorded.getD 0) version) }

def refuse (key : Key) : World := { w with refused := key :: w.refused }

end World

/-- A step of a task. Whatever goes over the network may fail. -/
inductive Acts (me : String) (w : World) : Task → World → Option Task → Prop
  | lock : Acts me w .lock { w with keys := .locked, client := .initial, recorded := none } none
  | unlock :
      Acts me w .unlock
        { w with keys := { EnvironmentKeys.locked with unlocked := true }, recorded := none }
        (some .listProjects)
  /-- A project of one's own comes without wraps. -/
  | listProjects (own : Bool) :
      Acts me w .listProjects w (some (.openProject (if own then none else w.api.myWrap)))
  | openProject {wrap : Option StoredMemberWrap} {keys : EnvironmentKeys}
      (h : w.keys.openProject = some keys) :
      Acts me w (.openProject wrap) { w with keys, client := { w.client with wrap } }
        (some (.fetchPage .done))
  | fetchPage {after : After} (page : Page) (h : w.api.Serves page) :
      Acts me w (.fetchPage after) w (some (.apply page after))
  | skip {page : Page} {after : After} (h : page.environment.all w.client.ignores) :
      Acts me w (.apply page after) { w with client := w.client.setValues page.values }
        (after.next page.hasMore)
  | refetch {page : Page} {after : After} {entry : EnvironmentEntry}
      (hentry : page.environment = some entry) (hnew : ¬ w.client.ignores entry)
      (h : w.client.refetches entry) :
      Acts me w (.apply page after) w (some (.fetchWrap entry page after))
  | reuse {page : Page} {after : After} {entry : EnvironmentEntry}
      (hentry : page.environment = some entry) (hnew : ¬ w.client.ignores entry)
      (h : ¬ w.client.refetches entry) :
      Acts me w (.apply page after) w (some (.openEnvironment w.client.wrap entry page after))
  | fetchWrap {entry : EnvironmentEntry} {page : Page} {after : After} :
      Acts me w (.fetchWrap entry page after) w (some (.setWrap w.api.myWrap entry page after))
  | keepWrap {entry : EnvironmentEntry} {page : Page} {after : After} :
      Acts me w (.fetchWrap entry page after) w
        (some (.openEnvironment w.client.wrap entry page after))
  | setWrap {wrap : Option StoredMemberWrap} {entry : EnvironmentEntry} {page : Page} {after : After} :
      Acts me w (.setWrap wrap entry page after) { w with client := { w.client with wrap } }
        (some (.openEnvironment wrap entry page after))
  | unlocks {wrap : Option StoredMemberWrap} {entry : EnvironmentEntry} {page : Page} {after : After}
      {version : ℕ} {key : Key} {keys : EnvironmentKeys}
      (hgranted : EnvironmentKeys.granted wrap entry.encryptedKey = some (version, key))
      (h : w.keys.openEnvironment wrap entry.encryptedKey = some (true, keys)) :
      Acts me w (.openEnvironment wrap entry page after)
        ({ w with
            keys, client := (w.client.setEnvironment entry true).setValues page.values }.record
          version)
        (after.next page.hasMore)
  | staysLocked {wrap : Option StoredMemberWrap} {entry : EnvironmentEntry} {page : Page}
      {after : After} {keys : EnvironmentKeys}
      (h : w.keys.openEnvironment wrap entry.encryptedKey = some (false, keys)) :
      Acts me w (.openEnvironment wrap entry page after)
        { w with keys, client := (w.client.setEnvironment entry false).setValues page.values }
        (after.next page.hasMore)
  | unreadable {wrap : Option StoredMemberWrap} {entry : EnvironmentEntry} {page : Page}
      {after : After} :
      Acts me w (.openEnvironment wrap entry page after)
        { w with client := w.client.setValues page.values } (after.next page.hasMore)
  | rotate (h : w.client.unlocked) : Acts me w .rotate w (some (.detail w.client.values))
  | detail {values : List SecretValueCipher} (recipients : List String) :
      Acts me w (.detail values) w
        (some (.rotateEnvironment w.api.keyVersion recipients values false))
  | rotateEnvironment {fromVersion : ℕ} {recipients : List String}
      {values : List SecretValueCipher} {retried : Bool} {req : RotateEnvironmentKey}
      {keys : EnvironmentKeys}
      (h : w.keys.rotateEnvironment fromVersion recipients values w.drawn = some (req, keys)) :
      Acts me w (.rotateEnvironment fromVersion recipients values retried)
        { w with keys, drawn := w.drawn + 1 } (some (.send req values retried))
  | accepted {req : RotateEnvironmentKey} {values : List SecretValueCipher} {retried : Bool}
      {api : Api} (h : w.api.rotate me req = .ok api) :
      Acts me w (.send req values retried) { w with api }
        (some (.commitRotation req.wraps.key (req.fromVersion + 1)))
  /-- The API took it, and the answer is lost. -/
  | unanswered {req : RotateEnvironmentKey} {values : List SecretValueCipher} {retried : Bool}
      {api : Api} (h : w.api.rotate me req = .ok api) :
      Acts me w (.send req values retried) { w with api } none
  | refused {req : RotateEnvironmentKey} {values : List SecretValueCipher} {retried : Bool}
      {refusal : Refusal} (h : w.api.rotate me req = .error refusal) :
      Acts me w (.send req values retried) (w.refuse req.wraps.key) none
  /-- The holders that the API names are added once. -/
  | retry {req : RotateEnvironmentKey} {values : List SecretValueCipher} {ids : List String}
      (h : w.api.rotate me req = .error (.missing ids))
      (hextra : ids.filter (· ∉ req.wraps.recipients) ≠ []) :
      Acts me w (.send req values false) (w.refuse req.wraps.key)
        (some (.rotateEnvironment req.fromVersion
          (req.wraps.recipients ++ ids.filter (· ∉ req.wraps.recipients)) values true))
  /-- Only managers may rotate, and the request may not arrive. -/
  | forbidden {req : RotateEnvironmentKey} {values : List SecretValueCipher} {retried : Bool} :
      Acts me w (.send req values retried) (w.refuse req.wraps.key) none
  | commitRotation {key : Key} {version : ℕ} {keys : EnvironmentKeys}
      (h : w.keys.commitRotation = some (true, keys)) :
      Acts me w (.commitRotation key version) ({ w with keys }.record version)
        (some (.fetchPage .done))
  | nothingWaits {key : Key} {version : ℕ} {keys : EnvironmentKeys}
      (h : w.keys.commitRotation = some (false, keys)) :
      Acts me w (.commitRotation key version) { w with keys } (some (.fetchPage .done))
  | sealValue {secretId value : String} {sealed : SealedValue}
      (h : w.keys.sealSecretValue value = some sealed) :
      Acts me w (.sealValue secretId value) { w with sealedUnder := sealed.key :: w.sealedUnder }
        (some (.putValue ⟨secretId, sealed⟩))
  | putValue {v : SecretValueCipher} :
      Acts me w (.putValue v)
        { w with
          client := w.client.setValue v
          api := { w.api with
            values := v :: w.api.values.filter (·.secretId ≠ v.secretId) } } none
  | others {api : Api} (h : w.api.Changes me w.drawn api) :
      Acts me w .others { w with api, drawn := w.drawn + 1 } none
  /-- A call fails, or the key ring is locked. -/
  | fails {task : Task} (h : ∀ req values retried, task ≠ .send req values retried) :
      Acts me w task w none

/-- What a user, a timer or another device starts. -/
def Task.canStart : Task → Bool
  | .lock | .unlock | .fetchPage _ | .sealValue .. | .others => true
  | _ => false

def program (me : String) : Program World Task where
  start _ task := task.canStart
  act w task w' next := Acts me w task w' next

end Zvault.Rotations
