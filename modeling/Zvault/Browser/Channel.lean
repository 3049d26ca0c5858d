import Mathlib.Data.List.Infix
import Zvault.Bytes.Frames
import Zvault.Json.Value

/-!
# The browser extension's connection

`apps/extension/src/host.ts` at one end, `browser_host.rs` of `zv` at the other, and the
frames of `browser.rs` between them, whose bytes arrive when they do. The text of JSON
is left open, and so is what the app decides.
-/

namespace Zvault.NativeHost

open Frames
open Json (Value field fieldOr nullable asString setMember)

/-- `MAX_TO_BROWSER`. -/
def maxToBrowser : ℕ := 1024 * 1024

/-- `MAX_FROM_BROWSER`. -/
def maxFromBrowser : ℕ := 64 * 1024

/-- How values are written and read as text. What is read is what was written. -/
structure JsonText where
  write : Value → List UInt8
  read : List UInt8 → Option Value
  eq_of_read : ∀ {v w}, read (write v) = some w → w = v

/-! ### `zv` -/

/-- A message from the extension. -/
inductive Message where
  | status
  | pair (name : Option String)
  | unpair
  | unlock
  | logins (url : String) (topUrl : Option String)
  | fill (item url : String) (topUrl : Option String) (otpOnly : Bool)
  | saveCheck (url : String) (topUrl : Option String) (username password : String)
  | save (url : String) (topUrl : Option String) (username password : String)
      (item : Option String)
  deriving DecidableEq, Repr

def asBool : Value → Option Bool
  | .bool b => some b
  | _ => none

def readMessage (v : Value) : Option Message := do
  match ← field asString "type" v with
  | "status" => return .status
  | "pair" => return .pair (← fieldOr none (nullable asString) "name" v)
  | "unpair" => return .unpair
  | "unlock" => return .unlock
  | "logins" =>
    return .logins (← field asString "url" v) (← fieldOr none (nullable asString) "topUrl" v)
  | "fill" =>
    return .fill (← field asString "item" v) (← field asString "url" v)
      (← fieldOr none (nullable asString) "topUrl" v) (← fieldOr false asBool "otpOnly" v)
  | "saveCheck" =>
    return .saveCheck (← field asString "url" v) (← fieldOr none (nullable asString) "topUrl" v)
      (← field asString "username" v) (← field asString "password" v)
  | "save" =>
    return .save (← field asString "url" v) (← fieldOr none (nullable asString) "topUrl" v)
      (← field asString "username" v) (← field asString "password" v)
      (← fieldOr none (nullable asString) "item" v)
  | _ => none

/-- `Envelope`: a message, with the id that its reply repeats. -/
def readEnvelope (v : Value) : Option (Value × Message) := do
  return (← v.get "id", ← readMessage v)

/-- What `handle` replies when it can. -/
inductive Reply where
  | status (running locked paired : Bool) (known : Option (String × Bool))
  | paired (name : String)
  | unpaired
  | unlocked
  | logins (offered : Value)
  | fill (contents : Value)
  | saveCheck (check : Value)
  | saved (message : String)

def Reply.members : Reply → List (String × Value)
  | status running locked isPaired known =>
    [("running", .bool running), ("locked", .bool locked), ("paired", .bool isPaired)] ++
      (known.map fun k => [("name", .str k.1), ("paused", .bool k.2)]).getD []
  | paired name => [("paired", .bool true), ("name", .str name)]
  | unpaired => [("paired", .bool false)]
  | unlocked => []
  | logins offered => [("logins", offered)]
  | fill contents => [("fill", contents)]
  | saveCheck check => [("check", check)]
  | saved message => [("message", .str message)]

/-- Each message has replies of its own. -/
def Reply.answers : Reply → Message → Bool
  | status .., .status => true
  | paired _, .pair _ => true
  | unpaired, .unpair => true
  | unlocked, .unlock => true
  | logins _, .logins .. => true
  | fill _, .fill .. => true
  | saveCheck _, .saveCheck .. => true
  | saved _, .save .. => true
  | _, _ => false

/-- What a thread comes to. -/
inductive Answer where
  | ok (reply : Reply)
  /-- `HostError`. -/
  | refused (code message : String)

def Answer.toJson (id : Value) : Answer → Value
  | ok reply => .obj (setMember "ok" (.bool true) (setMember "id" id reply.members))
  | refused code message =>
    .obj [("id", id), ("ok", .bool false), ("code", .str code), ("message", .str message)]

def Answer.suits : Answer → Message → Bool
  | ok reply, message => reply.answers message
  | refused .., _ => true

/-- What is sent before a pairing is approved. -/
def pairingCode (id : Value) (code : String) : Value :=
  .obj [("id", id), ("event", .str "pairingCode"), ("code", .str code)]

def unreadable : Value :=
  .obj [("ok", .bool false), ("code", .str "badRequest"), ("message", .str "unreadable message")]

/-- A thread of `run`, and whether it has sent the pairing code. -/
structure Thread where
  id : Value
  message : Message
  told : Bool

/-- A thread that pairs sends its code before it comes to an answer. -/
def Thread.ready : Thread → Bool
  | ⟨_, .pair _, told⟩ => told
  | _ => true

/-- A port, with the `zv` that was started behind it. -/
structure Port where
  /-- Posted, and not arrived at `zv`. -/
  toHost : List UInt8
  stdin : List UInt8
  threads : List Thread
  /-- Written, and not arrived at the browser. -/
  stdout : List UInt8
  arrived : List UInt8
  /-- `zv` has not ended. -/
  running : Bool

namespace Port

/-- A port that was just opened. -/
def opened : Port := ⟨[], [], [], [], [], true⟩

variable (J : JsonText) (port : Port)

/-- `send`: a value that is too large for the browser is dropped. -/
def send (v : Value) : Port :=
  let json := J.write v
  if maxToBrowser < json.length then port
  else { port with stdout := port.stdout ++ frame u32le json }

/-- One turn of `run`. A frame that is too large ends `zv`. -/
def read : Option Port :=
  if !port.running then none
  else
    match front u32le maxFromBrowser port.stdin with
    | .incomplete => none
    | .tooLarge => some { port with threads := [], running := false }
    | .whole content rest =>
      match (J.read content).bind readEnvelope with
      | none => some (send J { port with stdin := rest } unreadable)
      | some (id, message) =>
        some { port with stdin := rest, threads := port.threads ++ [⟨id, message, false⟩] }

/-- A thread that pairs sends its code, once. -/
def tell (i : ℕ) (code : String) : Option Port :=
  match port.threads[i]? with
  | some ⟨id, .pair name, false⟩ =>
    some (send J { port with threads := port.threads.set i ⟨id, .pair name, true⟩ }
      (pairingCode id code))
  | _ => none

/-- Some bytes arrive at `zv`. -/
def arriveAtHost (n : ℕ) : Port :=
  { port with toHost := port.toHost.drop n, stdin := port.stdin ++ port.toHost.take n }

/-- Some bytes arrive at the browser. -/
def arriveAtBrowser (n : ℕ) : Port :=
  { port with stdout := port.stdout.drop n, arrived := port.arrived ++ port.stdout.take n }

end Port

/-! ### The extension -/

/-- `Result`. -/
inductive Result where
  | ok (value : Value)
  | failed (code : Value) (message : String)

/-- What has happened to requests. -/
inductive Event where
  | requested (id : ℕ) (message : List (String × Value))
  /-- `onEvent` was called. -/
  | told (id : ℕ) (event : Value)
  /-- The promise was resolved. -/
  | settled (id : ℕ) (result : Result)
  /-- `zv` came to an answer. -/
  | answered (id : Value) (message : Message) (answer : Answer)

/-- `Host`, the port that it has open, and the history. -/
structure Channel where
  port : Option Port
  next : ℕ
  /-- The ids of `pending`, in the order of a `Map`. Each has a timer. -/
  pending : List ℕ
  log : List Event

/-- Before the first request. -/
def Channel.idle : Channel := ⟨none, 1, [], []⟩

def Result.timeout : Result := .failed (.str "timeout") "Zvault did not answer."

def Result.notInstalled : Result := .failed (.str "notInstalled") "Zvault is not installed."

/-- The pattern `/not found|forbidden|not allowed/i`. -/
def saysMissing (why : String) : Bool :=
  ["not found", "forbidden", "not allowed"].any fun p => p.toList <:+: why.toLower.toList

/-- What pending requests end in when the port is disconnected. -/
def Result.lost (why : String) : Result :=
  .failed (.str (if saysMissing why then "notInstalled" else "error"))
    (if why = "" then "Lost the connection to Zvault." else why)

/-- A result that the extension gives by itself. -/
def Result.isLocal (r : Result) : Prop :=
  r = .timeout ∨ r = .notInstalled ∨ ∃ why, r = .lost why

/-- What is posted for a request. -/
def posted (id : ℕ) (message : List (String × Value)) : Value :=
  .obj (setMember "id" (.num id) message)

/-- `f.code ?? 'error'` and `message`, of what is not `ok`. -/
def Result.refusal (v : Value) : Result :=
  .failed
    (match v.get "code" with
      | none | some .null => .str "error"
      | some code => code)
    (match v.get "message" with
      | some (.str message) => message
      | _ => "Zvault could not do that.")

namespace Channel

variable (J : JsonText) (w : Channel)

def finish (id : ℕ) (result : Result) : Channel :=
  if id ∈ w.pending then
    { w with pending := w.pending.erase id, log := w.log ++ [.settled id result] }
  else w

/-- `open().postMessage(..)`, with the port that is open. -/
def post (port : Port) (id : ℕ) (message : List (String × Value)) (posts : Bool) : Channel :=
  let json := J.write (posted id message)
  if posts ∧ json.length < u32le.bound then
    { w with port := some { port with toHost := port.toHost ++ frame u32le json } }
  else finish { w with port := some port } id .notInstalled

/-- `request`. Opening a port and posting to it may throw. -/
def request (message : List (String × Value)) (connects posts : Bool) : Channel :=
  let id := w.next
  let w : Channel := { w with
    next := id + 1, pending := w.pending ++ [id], log := w.log ++ [.requested id message] }
  match w.port with
  | some port => post J w port id message posts
  | none => if connects then post J w .opened id message posts else finish w id .notInstalled

/-- The request that a message is for. -/
def addressee (v : Value) : Option ℕ :=
  match v.get "id" with
  | some (.num n) => w.pending.find? fun id : ℕ => (id : ℤ) = n
  | _ => none

def receive (v : Value) : Channel :=
  match w.addressee v with
  | none => w
  | some id =>
    match v.get "event" with
    | some (.str _) => { w with log := w.log ++ [.told id v] }
    | _ =>
      match v.get "ok" with
      | some (.bool true) => w.finish id (.ok v)
      | _ => w.finish id (.refusal v)

/-- The port is disconnected: nothing that is pending will be answered. -/
def disconnect (why : String) : Channel :=
  w.pending.foldl (fun w id => w.finish id (.lost why)) { w with port := none }

end Channel

/-- What may happen next. -/
inductive Action where
  | request (message : List (String × Value)) (connects posts : Bool)
  | timeout (id : ℕ)
  | disconnect (why : String)
  | arriveAtHost (n : ℕ)
  | arriveAtBrowser (n : ℕ)
  | read
  | tell (i : ℕ) (code : String)
  | answer (i : ℕ) (answer : Answer)
  | receive

/-- One thing that happens. -/
def Channel.act (J : JsonText) (w : Channel) : Action → Option Channel
  | .request message connects posts => some (w.request J message connects posts)
  | .timeout id => if id ∈ w.pending then some (w.finish id .timeout) else none
  | .disconnect why => w.port.map fun _ => w.disconnect why
  | .arriveAtHost n => w.port.map fun port => { w with port := some (port.arriveAtHost n) }
  | .arriveAtBrowser n => w.port.map fun port => { w with port := some (port.arriveAtBrowser n) }
  | .read => w.port.bind fun port => (port.read J).map fun port => { w with port := some port }
  | .tell i code =>
    w.port.bind fun port => (port.tell J i code).map fun port => { w with port := some port }
  | .answer i answer =>
    w.port.bind fun port => port.threads[i]?.bind fun t =>
      if t.ready ∧ answer.suits t.message then
        some { w with
          port := some (Port.send J { port with threads := port.threads.eraseIdx i }
            (answer.toJson t.id))
          log := w.log ++ [.answered t.id t.message answer] }
      else none
  | .receive =>
    w.port.bind fun port =>
      match front u32le maxToBrowser port.arrived with
      | .whole content rest =>
        (J.read content).map fun v =>
          Channel.receive { w with port := some { port with arrived := rest } } v
      | _ => none

end Zvault.NativeHost
