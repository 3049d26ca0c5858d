import Mathlib.Algebra.Ring.Nat
import Zvault.ProjectSync.View
import Zvault.Text.AsciiCase

/-!
# Pushing secrets to GitHub

`crates/zvault-sync/src/github.rs` and the desktop command `sync_push` over it. The
names at the target are those that were pushed, as GitHub keeps them: in upper case. A
request that GitHub refuses changes nothing; one whose answer is lost may have been
carried out. Values are checked for their size only, and not sealed.
-/

namespace Zvault.SecretSync

open ProjectSync Text

structure Item where
  name : String
  value : String
  deriving DecidableEq, Repr

structure Failure where
  name : String
  reason : String
  deriving DecidableEq, Repr

/-- What one push did. -/
structure Report where
  pushed : List String
  removed : List String
  failed : List Failure
  deriving DecidableEq, Repr

inductive TargetError where
  | repo
  | githubEnvironment
  deriving DecidableEq, Repr

inductive Error where
  | target (e : TargetError)
  | network
  | unauthorized (status : ℕ)
  | provider (message : String)
  deriving DecidableEq, Repr

def TargetError.text : TargetError → String
  | .repo => "name the repository as owner/name, for example acme/payments-api"
  | .githubEnvironment => "the GitHub environment name is not valid"

def Error.text : Error → String
  | .target e => e.text
  | .network => "could not reach GitHub: check the connection and try again"
  | .unauthorized status =>
      "GitHub refused the credentials (" ++ toString status ++ "); connect it again with a new one"
  | .provider message => message

/-- How many bytes a text has. -/
def byteLength (s : String) : ℕ := (s.toList.map Char.utf8Size).sum

/-- `ok_part` of `Target::validate`. -/
def okPart (part : List Char) : Bool :=
  part ≠ [] ∧ byteLength (.ofList part) ≤ 100 ∧ part ≠ ['.'] ∧ part ≠ ['.', '.'] ∧
    part.all isRepoChar

/-- `char::is_control`. -/
def isControl (c : Char) : Bool := c.toNat < 32 ∨ (127 ≤ c.toNat ∧ c.toNat < 160)

/-- `Target::validate` of a GitHub target. -/
def validateTarget (repo : String) (environment : Option String) : Except TargetError Unit :=
  match repo.toList.splitOn '/' with
  | [owner, name] =>
    if okPart owner ∧ okPart name then
      match environment with
      | none => .ok ()
      | some env =>
        if env.toList = [] ∨ 255 < env.toList.length ∨
            env.toList.any (fun c => ['/', '\\', '?', '#', '%'].elem c) ∨ env.toList.any isControl
        then .error .githubEnvironment
        else .ok ()
    else .error .repo
  | _ => .error .repo

/-- `name_problem`: why GitHub does not take a secret by this name. -/
def nameProblem (name : String) : Option String :=
  if !(match name.toList with
    | [] => false
    | c :: cs => (c.isAlpha || c == '_') && cs.all fun c => c.isAlphanum || c == '_') then
    some "GitHub secret names use only letters, digits and _"
  else if "GITHUB_".toList <+: (upper name).toList then
    some "GitHub reserves names starting with GITHUB_"
  else none

/-- `MAX_VALUE`. -/
def maxValue : ℕ := 48 * 1024

/-- Why an item is not sent. -/
def itemProblem (item : Item) : Option String :=
  match nameProblem item.name with
  | some why => some why
  | none =>
    if maxValue < byteLength item.value then some "GitHub secrets are limited to 48 KB" else none

/-- What comes of a request. -/
inductive Answer where
  | status (code : ℕ) (message : String)
  /-- No answer arrives, whether or not GitHub carried the request out. -/
  | lost (done : Bool)
  deriving DecidableEq, Repr

def isSuccess (code : ℕ) : Bool := 200 ≤ code ∧ code < 300

/-- `check`, for a status that is no success. -/
def checkError (what : String) (code : ℕ) (message : String) : Error :=
  if code = 401 then .unauthorized 401
  else if code = 403 then
    .provider ("GitHub refused access to " ++ what ++
      ": the token needs Secrets read and write on it" ++
      if message = "" then "" else " (" ++ message ++ ")")
  else if code = 404 then
    .provider ("GitHub found no " ++ what ++ ", or the token can't see it")
  else .provider ("GitHub answered " ++ toString code ++ " for " ++ what ++ ": " ++ message)

/-- What comes of asking for the public key. -/
inductive KeyAnswer where
  | refused (code : ℕ) (message : String)
  /-- No answer, or one that cannot be read. -/
  | unreadable
  | key (usable : Bool)
  deriving DecidableEq, Repr

/-- GitHub during a push: what it answers for each name. -/
structure Service where
  publicKey : KeyAnswer
  put : String → Answer
  delete : String → Answer

/-- The names at the target. -/
abbrev Remote := List String

/-- `Already gone counts as removed`. -/
def isGone (code : ℕ) : Bool := isSuccess code ∨ code = 404

/-- Whether GitHub stored a secret that was put. -/
def Answer.stores : Answer → Bool
  | .status code _ => isSuccess code
  | .lost done => done

/-- Whether a secret is gone after it was to be deleted. -/
def Answer.deletes : Answer → Bool
  | .status code _ => isGone code
  | .lost done => done

/-- A secret is put. -/
def Remote.put (remote : Remote) (name : String) (a : Answer) : Remote :=
  if a.stores then upper name :: remote else remote

/-- A secret is deleted. -/
def Remote.delete (remote : Remote) (name : String) (a : Answer) : Remote :=
  if a.deletes then remote.filter (· ≠ upper name) else remote

namespace Report

def addPushed (report : Report) (name : String) : Report :=
  ⟨report.pushed ++ [name], report.removed, report.failed⟩

def addRemoved (report : Report) (name : String) : Report :=
  ⟨report.pushed, report.removed ++ [name], report.failed⟩

def addFailed (report : Report) (name reason : String) : Report :=
  ⟨report.pushed, report.removed, report.failed ++ [⟨name, reason⟩]⟩

/-- The names that could not be written or deleted. -/
def failedNames (report : Report) : List String := report.failed.map (·.name)

end Report

section Push

variable (what : String) (service : Service)

/-- The first loop of `push`: every item is written, until an error ends the push. -/
def upload (usable : Bool) : List Item → Report → Remote → Except Error Report × Remote
  | [], report, remote => (.ok report, remote)
  | item :: items, report, remote =>
    match itemProblem item with
    | some why => upload usable items (report.addFailed item.name why) remote
    | none =>
      if !usable then (.error (.provider "GitHub sent a public key Zvault can't use"), remote)
      else
        let remote := remote.put item.name (service.put item.name)
        match service.put item.name with
        | .lost _ => (.error .network, remote)
        | .status code message =>
          if isSuccess code then upload usable items (report.addPushed item.name) remote
          else
            match checkError what code message with
            | .unauthorized status => (.error (.unauthorized status), remote)
            | .network => (.error .network, remote)
            | e => upload usable items (report.addFailed item.name e.text) remote

/-- The second loop of `push`: names that are gone are deleted. -/
def prune : List String → Report → Remote → Except Error Report × Remote
  | [], report, remote => (.ok report, remote)
  | name :: names, report, remote =>
    if (nameProblem name).isSome then prune names report remote
    else
      let remote := remote.delete name (service.delete name)
      match service.delete name with
      | .lost _ => (.error .network, remote)
      | .status code message =>
        if isGone code then prune names (report.addRemoved name) remote
        else prune names (report.addFailed name (checkError what code message).text) remote

/-- The names of `previous` that are no item's. -/
def stale (items : List Item) (previous : List String) : List String :=
  previous.filter fun name => !items.any fun item => upper item.name = upper name

/-- `push`. -/
def push (items : List Item) (previous : List String) (remote : Remote) :
    Except Error Report × Remote :=
  match service.publicKey with
  | .refused code message => (.error (checkError what code message), remote)
  | .unreadable => (.error .network, remote)
  | .key usable =>
    match upload what service usable items ⟨[], [], []⟩ remote with
    | (.error e, remote) => (.error e, remote)
    | (.ok report, remote) => prune what service (stale items previous) report remote

end Push

/-- The first name that is repeated, in any letter case. -/
def firstRepeated : List String → List String → Option String
  | _, [] => none
  | seen, name :: names =>
    if upper name ∈ seen then some name else firstRepeated (upper name :: seen) names

variable {V : Type}

/-- Opens each item, or says why one cannot be. -/
def openItems (openValue : SyncItem V → Except String String) :
    List (SyncItem V) → Except String (List Item)
  | [] => .ok []
  | i :: items =>
    match openValue i with
    | .error e => .error e
    | .ok value =>
      match openItems openValue items with
      | .error e => .error e
      | .ok plain => .ok (⟨i.name, value⟩ :: plain)

/-- What `sync_push` does before the first request. -/
def prepare (repo : String) (environment : Option String) (saved : Bool)
    (openValue : SyncItem V → Except String String) (items : List (SyncItem V)) :
    Except String (List Item) :=
  match validateTarget repo environment with
  | .error e => .error e.text
  | .ok () =>
    match firstRepeated [] (items.map (·.name)) with
    | some name =>
      .error ("two secrets are named " ++ name ++ "; rename one to sync this environment")
    | none => if !saved then .error "connect GitHub on this Mac first" else openItems openValue items

/-- How a target is called in messages. -/
def describe (repo : String) : Option String → String
  | none => repo
  | some env => repo ++ " (environment " ++ env ++ ")"

/-- `sync_push` to GitHub. -/
def syncPush (repo : String) (environment : Option String) (saved : Bool)
    (openValue : SyncItem V → Except String String) (service : Service) (items : List (SyncItem V))
    (previous : List String) (remote : Remote) : Except String Report × Remote :=
  match prepare repo environment saved openValue items with
  | .error e => (.error e, remote)
  | .ok plain =>
    match push (describe repo environment) service plain previous remote with
    | (.error e, remote) => (.error e.text, remote)
    | (.ok report, remote) => (.ok report, remote)

end Zvault.SecretSync

/-! ### What is remembered of a sync target

The status that `projects/secretSync.ts` keeps of a target, and how a push of it ends.
Its time and its sentence are left out, and what `JSON.stringify` writes is left open. -/

namespace Zvault.SecretSync

open ProjectSync

/-- The UTF-16 code units of a character. -/
def codeUnits (c : Char) : List ℕ :=
  let n := c.toNat
  if n < 0x10000 then [n] else [0xD800 + (n - 0x10000) / 0x400, 0xDC00 + (n - 0x10000) % 0x400]

/-- FNV-1a. -/
def fnv (seed factor : UInt32) (text : String) : UInt32 :=
  (text.toList.flatMap codeUnits).foldl (fun a c => (a ^^^ UInt32.ofNat c) * factor) seed

/-- `toString(16).padStart(8, '0')`. -/
def hex (n : UInt32) : List Char :=
  (List.range 8).reverse.map fun i => (n.toNat / 16 ^ i % 16).digitChar

/-- What is left open of how the client compares names and writes contents. -/
structure Formats (V : Type) where
  localeLE : String → String → Bool
  stringify : SyncTarget → List (SyncItem V) → String

/-- `fingerprint`. -/
def Formats.fingerprint {V : Type} (f : Formats V) (target : SyncTarget)
    (items : List (SyncItem V)) : String :=
  let text := f.stringify target items
  String.ofList (hex (fnv 0x811c9dc5 0x01000193 text) ++ hex (fnv 0x01000193 0x811c9dc5 text))

inductive Provider where
  | github
  | aws
  deriving DecidableEq, Repr

inductive SyncState where
  | syncing
  | synced
  | partly
  | failed
  deriving DecidableEq, Repr

/-- `TargetStatus`: a target's last sync on this Mac. -/
structure TargetStatus where
  state : SyncState
  /-- The environment's contents as last attempted. -/
  fingerprint : String
  /-- Names the last successful push wrote. -/
  names : List String
  /-- Set when it failed for want of this provider's credentials. -/
  needs : Option Provider
  deriving DecidableEq, Repr

/-- `previous?.names ?? []`. -/
def namesOf (previous : Option TargetStatus) : List String := (previous.map (·.names)).getD []

namespace TargetStatus

variable (previous : Option TargetStatus) (print : String)

/-- The account has no access to the environment's values. -/
def locked : TargetStatus := ⟨.failed, print, namesOf previous, none⟩

/-- This Mac is not connected to the provider. -/
def unconnected (provider : Provider) : TargetStatus :=
  ⟨.failed, print, namesOf previous, some provider⟩

/-- While a push is under way. -/
def syncing : TargetStatus :=
  ⟨.syncing, (previous.map (·.fingerprint)).getD "", namesOf previous, none⟩

/-- A push that came to its end, or failed. Names that failed are kept so that a later push still
removes them. -/
def afterPush : Except String Report → TargetStatus
  | .ok report =>
    ⟨if report.failed = [] then .synced else .partly, print,
      report.pushed ++ (namesOf previous).filter fun n => n ∈ report.failedNames, none⟩
  | .error _ => ⟨.failed, print, namesOf previous, none⟩

/-- What a restart makes of a status: a push cut short by a quit is not still running. -/
def restarted (s : TargetStatus) : TargetStatus :=
  if s.state = .syncing then ⟨.failed, s.fingerprint, s.names, s.needs⟩ else s

end TargetStatus

end Zvault.SecretSync

namespace Zvault.ProjectSync.SyncTarget

open SecretSync

def id : SyncTarget → String
  | .github id .. => id
  | .aws id .. => id

def provider : SyncTarget → Provider
  | .github .. => .github
  | .aws .. => .aws

def auto : SyncTarget → Option Bool
  | .github _ _ _ auto => auto
  | .aws _ _ _ auto => auto

end Zvault.ProjectSync.SyncTarget
