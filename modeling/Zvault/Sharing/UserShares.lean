import Zvault.Sharing.Device
import Zvault.Sharing.Limits

/-!
# Shares between users

`apps/api/src/sharing/user-shares.service.ts` and the user half of `share.store.ts`, with
the devices that seal and open. `create` checks the sender's key, then the recipient's, and then
inserts: three statements, between which anything may happen. Deleted accounts, which take their
rows along, and the mail to the recipient are left out.
-/

namespace Zvault

open Crypto Relational Concurrent

variable (P : Primitives) (D : Derivations)

/-- `SharingUser`. -/
structure SharingUser where
  id : Uuid
  email : String
  deriving DecidableEq, Repr

structure SharingKeyRecord where
  userId : Uuid
  /-- Lowercased. -/
  email : String
  publicKey : String
  updatedAt : Timestamp
  deriving DecidableEq, Repr

structure UserShareRecord where
  id : String
  senderId : Uuid
  senderEmail : String
  senderPublicKey : String
  recipientId : Uuid
  recipientEmail : String
  ephemeralPublicKey : String
  blob : Blob
  createdAt : Timestamp
  expiresAt : Option Timestamp
  deriving DecidableEq, Repr

/-- The part of a share that the recipient's device opens. -/
def UserShareRecord.wire (s : UserShareRecord) : NewUserShare :=
  ⟨s.id, s.senderPublicKey, s.ephemeralPublicKey, s.blob⟩

/-- `CreateUserShareRequest`: what the sender's device made, and for whom. -/
structure CreateUserShareRequest where
  share : NewUserShare
  recipientEmail : String
  /-- The recipient key the sender encrypted to, as the sender saw it. -/
  recipientPublicKey : String
  expiresInSeconds : Option ℕ
  deriving DecidableEq, Repr

/-- The tables, the clock, the requests to share that were taken up, and who removed which share. -/
structure UserShareDb where
  keys : Table SharingKeyRecord.userId
  shares : Table UserShareRecord.id
  now : Timestamp
  asked : List (SharingUser × CreateUserShareRequest)
  removed : List (String × Uuid)

def UserShareDb.initial : UserShareDb := ⟨Table.empty, Table.empty, 0, [], []⟩

variable (lower : String → String)

namespace UserShareStore

def putSharingKey (db : UserShareDb) (key : SharingKeyRecord) : UserShareDb :=
  let record := { key with email := lower key.email }
  { db with keys := db.keys.upsert record fun r => { r with
      email := record.email, publicKey := record.publicKey, updatedAt := record.updatedAt } }

def getSharingKeyByUser (db : UserShareDb) (userId : Uuid) : Option SharingKeyRecord :=
  db.keys.find userId

/-- Some row with the email; none of the statements says which. -/
def getSharingKeyByEmail (db : UserShareDb) (email : String) : Option SharingKeyRecord :=
  (db.keys.select fun k => k.email = lower email).head?

def insertUserShare (db : UserShareDb) (share : UserShareRecord) : Bool × UserShareDb :=
  if db.shares.hasKey share.id then (false, db)
  else (true, { db with shares := db.shares.insertNew share })

/-- `liveAt`. -/
def isLive (now : Timestamp) (s : UserShareRecord) : Bool := s.expiresAt.all (now < ·)

def listIncoming (db : UserShareDb) (recipientId : Uuid) (now : Timestamp) : List UserShareRecord :=
  (db.shares.select fun s => s.recipientId = recipientId ∧ isLive now s).mergeSort fun a b =>
    b.createdAt ≤ a.createdAt

def listOutgoing (db : UserShareDb) (senderId : Uuid) (now : Timestamp) : List UserShareRecord :=
  (db.shares.select fun s => s.senderId = senderId ∧ isLive now s).mergeSort fun a b =>
    b.createdAt ≤ a.createdAt

/-- The sender revokes, or the recipient dismisses. -/
def deleteUserShare (db : UserShareDb) (id : String) (userId : Uuid) : Bool × UserShareDb :=
  let mine := fun s : UserShareRecord => s.id = id ∧ (s.senderId = userId ∨ s.recipientId = userId)
  if (db.shares.select fun s => mine s).isEmpty then (false, db)
  else
    let shares := db.shares.delete fun s => mine s
    (true, { db with shares, removed := (id, userId) :: db.removed })

end UserShareStore

/-- What is refused. -/
inductive UserShareRefusal where
  /-- Your sharing key does not match the one on file. -/
  | senderKey
  /-- No Zvault user can receive shares at that email. -/
  | noRecipient
  /-- You cannot share an item with yourself. -/
  | self
  /-- The recipient's sharing key changed; fetch it again. -/
  | recipientKey
  deriving DecidableEq, Repr

/-- Where a request stands. -/
inductive UserShareTask where
  | publishKey (user : SharingUser) (publicKey : String)
  | create (sender : SharingUser) (req : CreateUserShareRequest)
  /-- The sender's key is the one on file; the recipient is looked up next. -/
  | findRecipient (sender : SharingUser) (req : CreateUserShareRequest)
  /-- The recipient's key is the one that was sealed to; the row is inserted next. -/
  | insert (share : UserShareRecord)
  | remove (user : SharingUser) (id : String)
  /-- Time passes. -/
  | clock (now : Timestamp)

namespace UserSharesService

/-- The first check of `create`. -/
def checkSender (db : UserShareDb) (sender : SharingUser) (req : CreateUserShareRequest) :
    Except UserShareRefusal Unit :=
  if (UserShareStore.getSharingKeyByUser db sender.id).map SharingKeyRecord.publicKey ≠
      some req.share.senderPublicKey then .error .senderKey
  else .ok ()

/-- The checks of the recipient, and the record to insert. -/
def checkRecipient (db : UserShareDb) (sender : SharingUser) (req : CreateUserShareRequest) :
    Except UserShareRefusal UserShareRecord :=
  match UserShareStore.getSharingKeyByEmail lower db req.recipientEmail with
  | none => .error .noRecipient
  | some recipient =>
    if recipient.userId = sender.id then .error .self
    else if recipient.publicKey ≠ req.recipientPublicKey then .error .recipientKey
    else .ok {
      id := req.share.id
      senderId := sender.id
      senderEmail := lower sender.email
      -- the key on file, which was found to be the one of the request
      senderPublicKey := req.share.senderPublicKey
      recipientId := recipient.userId
      recipientEmail := recipient.email
      ephemeralPublicKey := req.share.ephemeralPublicKey
      blob := req.share.blob
      createdAt := db.now
      expiresAt := req.expiresInSeconds.bind fun seconds =>
        if seconds = 0 then none else some (db.now + seconds * 1000) }

/-- What a recipient is shown at `now`. -/
def incoming (db : UserShareDb) (user : SharingUser) (now : Timestamp) : List UserShareRecord :=
  UserShareStore.listIncoming db user.id now

end UserSharesService

/-- The next step of a request. -/
def UserShareTask.proceed (db : UserShareDb) : UserShareTask → UserShareDb × Option UserShareTask
  | .publishKey user publicKey =>
    (UserShareStore.putSharingKey lower db ⟨user.id, user.email, publicKey, db.now⟩, none)
  | .create sender req =>
    let db := { db with asked := (sender, req) :: db.asked }
    match UserSharesService.checkSender db sender req with
    | .error _ => (db, none)
    | .ok () => (db, some (.findRecipient sender req))
  | .findRecipient sender req =>
    match UserSharesService.checkRecipient lower db sender req with
    | .error _ => (db, none)
    | .ok share => (db, some (.insert share))
  | .insert share => ((UserShareStore.insertUserShare db share).2, none)
  | .remove user id => ((UserShareStore.deleteUserShare db id user.id).2, none)
  | .clock now => ({ db with now := max db.now now }, none)

section Runs

variable {P D} {lower : String → String} {pair : Uuid → SharingKeyPair} {honest : Uuid → Prop}

/-- The key that an account's devices publish. -/
def ownKey (D : Derivations) (pair : Uuid → SharingKeyPair) (userId : Uuid) : String :=
  b64 ((pair userId).publicKey D).bytes

/-- The request is for what its sender's device sealed. -/
def SealedBy (P : Primitives) (D : Derivations) (pair : Uuid → SharingKeyPair)
    (sender : SharingUser) (req : CreateUserShareRequest) (payload : String) : Prop :=
  ∃ id ephemeral nonce, shareSealTo P D (pair sender.id) req.recipientPublicKey payload id ephemeral
    nonce = some req.share

/-- What may be asked for. The devices of an honest user publish the account's own key, and share
what they sealed with it; the others send anything. -/
def MayAsk (P : Primitives) (D : Derivations) (pair : Uuid → SharingKeyPair)
    (honest : Uuid → Prop) : UserShareTask → Prop
  | .publishKey user publicKey => honest user.id → publicKey = ownKey D pair user.id
  | .create sender req => honest sender.id → ∃ payload, SealedBy P D pair sender req payload
  | .remove _ _ => True
  | .clock _ => True
  | _ => False

/-- Any requests, in any order. -/
def userShareProgram (lower : String → String) (P : Primitives) (D : Derivations)
    (pair : Uuid → SharingKeyPair) (honest : Uuid → Prop) : Program UserShareDb UserShareTask where
  start _ task := MayAsk P D pair honest task
  act db task db' next := task.proceed lower db = (db', next)

variable {db db' db₀ : UserShareDb}

/-- A request that was taken up asked for this share, with the key of its recipient. -/
def Requested (D : Derivations) (pair : Uuid → SharingKeyPair) (honest : Uuid → Prop)
    (db : UserShareDb) (share : UserShareRecord) : Prop :=
  ∃ sender req, (sender, req) ∈ db.asked ∧ sender.id = share.senderId ∧ share.wire = req.share ∧
    share.recipientId ≠ share.senderId ∧
    (honest share.recipientId → req.recipientPublicKey = ownKey D pair share.recipientId)

/-- What holds of the tables. -/
structure SharesOk (P : Primitives) (D : Derivations) (pair : Uuid → SharingKeyPair)
    (honest : Uuid → Prop) (db : UserShareDb) : Prop where
  keys : ∀ k ∈ db.keys, honest k.userId → k.publicKey = ownKey D pair k.userId
  asked : ∀ ask ∈ db.asked, honest ask.1.id → ∃ payload, SealedBy P D pair ask.1 ask.2 payload
  shares : ∀ share ∈ db.shares, Requested D pair honest db share

theorem SharesOk.initial : SharesOk P D pair honest .initial where
  keys _ h := absurd h (Table.not_mem_empty _)
  asked _ h := absurd h List.not_mem_nil
  shares _ h := absurd h (Table.not_mem_empty _)

/-- What a waiting request knows. -/
def Waits (P : Primitives) (D : Derivations) (pair : Uuid → SharingKeyPair) (honest : Uuid → Prop)
    (db : UserShareDb) : UserShareTask → Prop
  | .findRecipient sender req => (sender, req) ∈ db.asked
  | .insert share => Requested D pair honest db share
  | task => MayAsk P D pair honest task

/-- No step forgets a request. -/
theorem UserShareTask.asked_subset {task : UserShareTask} {next : Option UserShareTask}
    (hact : task.proceed lower db = (db', next)) : db.asked ⊆ db'.asked := by
  cases task with
  | publishKey user publicKey =>
    obtain ⟨rfl, rfl⟩ := Prod.mk.inj hact
    exact fun _ h => h
  | create sender req =>
    simp only [proceed] at hact
    split at hact <;>
    · obtain ⟨rfl, rfl⟩ := Prod.mk.inj hact
      exact fun _ h => List.mem_cons_of_mem _ h
  | findRecipient sender req =>
    simp only [proceed] at hact
    split at hact <;>
    · obtain ⟨rfl, rfl⟩ := Prod.mk.inj hact
      exact fun _ h => h
  | insert share =>
    obtain ⟨rfl, rfl⟩ := Prod.mk.inj hact
    unfold UserShareStore.insertUserShare
    split <;> exact fun _ h => h
  | remove user id =>
    obtain ⟨rfl, rfl⟩ := Prod.mk.inj hact
    unfold UserShareStore.deleteUserShare
    extract_lets mine shares
    split <;> exact fun _ h => h
  | clock now =>
    obtain ⟨rfl, rfl⟩ := Prod.mk.inj hact
    exact fun _ h => h

theorem Requested.mono {share : UserShareRecord} (h : Requested D pair honest db share)
    (hasked : db.asked ⊆ db'.asked) : Requested D pair honest db' share := by
  obtain ⟨sender, req, hmem, hrest⟩ := h
  exact ⟨sender, req, hasked hmem, hrest⟩

/-- The record that the checks let through is for the key that is on file. -/
theorem SharesOk.checkRecipient (h : SharesOk P D pair honest db) {sender : SharingUser}
    {req : CreateUserShareRequest} {share : UserShareRecord} (hasked : (sender, req) ∈ db.asked)
    (hcheck : UserSharesService.checkRecipient lower db sender req = .ok share) :
    Requested D pair honest db share := by
  unfold UserSharesService.checkRecipient at hcheck
  cases hfind : UserShareStore.getSharingKeyByEmail lower db req.recipientEmail with
  | none => simp [hfind] at hcheck
  | some recipient =>
    simp only [hfind] at hcheck
    split at hcheck
    · cases hcheck
    rename_i hself
    split at hcheck
    · cases hcheck
    rename_i hkey
    rw [not_not] at hkey
    obtain rfl := Except.ok.inj hcheck
    have hmem : recipient ∈ db.keys := (Table.mem_select.mp (List.mem_of_mem_head? hfind)).1
    exact ⟨sender, req, hasked, rfl, rfl, hself, fun hhonest => hkey.symm.trans
      (h.keys recipient hmem hhonest)⟩

/-- No step stores a share that was not asked for, or a key that an honest user does not have. -/
theorem SharesOk.step (h : SharesOk P D pair honest db) {task : UserShareTask}
    {next : Option UserShareTask} (hwaits : Waits P D pair honest db task)
    (hact : task.proceed lower db = (db', next)) :
    SharesOk P D pair honest db' ∧ ∀ n ∈ next, Waits P D pair honest db' n := by
  have hasked := UserShareTask.asked_subset hact
  cases task with
  | publishKey user publicKey =>
    obtain ⟨rfl, rfl⟩ := Prod.mk.inj hact
    refine ⟨⟨fun k hk hhonest => ?_, h.asked,
      fun share hshare => (h.shares share hshare).mono hasked⟩,
      nofun⟩
    rcases Table.mem_upsert.mp hk with ⟨hk, -⟩ | ⟨x, hx, hkey, rfl⟩ | ⟨rfl, -⟩
    · exact h.keys k hk hhonest
    · have hid : x.userId = user.id := hkey
      rw [hid] at hhonest ⊢
      exact hwaits hhonest
    · exact hwaits hhonest
  | create sender req =>
    have hasks : ∀ ask ∈ (sender, req) :: db.asked, honest ask.1.id →
        ∃ payload, SealedBy P D pair ask.1 ask.2 payload := by
      intro ask hask hhonest
      rcases List.mem_cons.mp hask with rfl | hask
      · exact hwaits hhonest
      · exact h.asked ask hask hhonest
    have hok : SharesOk P D pair honest { db with asked := (sender, req) :: db.asked } :=
      ⟨h.keys, hasks, fun share hshare =>
        (h.shares share hshare).mono fun _ => List.mem_cons_of_mem _⟩
    simp only [UserShareTask.proceed] at hact
    split at hact
    · obtain ⟨rfl, rfl⟩ := Prod.mk.inj hact
      exact ⟨hok, nofun⟩
    · obtain ⟨rfl, rfl⟩ := Prod.mk.inj hact
      refine ⟨hok, ?_⟩
      rintro n ⟨⟩
      exact List.mem_cons_self
  | findRecipient sender req =>
    simp only [UserShareTask.proceed] at hact
    split at hact
    · obtain ⟨rfl, rfl⟩ := Prod.mk.inj hact
      exact ⟨h, nofun⟩
    · rename_i share hcheck
      obtain ⟨rfl, rfl⟩ := Prod.mk.inj hact
      refine ⟨h, ?_⟩
      rintro n ⟨⟩
      exact h.checkRecipient hwaits hcheck
  | insert share =>
    obtain ⟨rfl, rfl⟩ := Prod.mk.inj hact
    refine ⟨?_, nofun⟩
    unfold UserShareStore.insertUserShare
    split
    · exact h
    · refine ⟨h.keys, h.asked, fun s hs => ?_⟩
      rcases Table.mem_insertNew.mp hs with hs | ⟨rfl, -⟩
      · exact h.shares s hs
      · exact hwaits
  | remove user id =>
    obtain ⟨rfl, rfl⟩ := Prod.mk.inj hact
    refine ⟨?_, nofun⟩
    unfold UserShareStore.deleteUserShare
    extract_lets mine shares
    split
    · exact h
    · exact ⟨h.keys, h.asked, fun s hs => h.shares s (Table.mem_delete.mp hs).1⟩
  | clock now =>
    obtain ⟨rfl, rfl⟩ := Prod.mk.inj hact
    exact ⟨⟨h.keys, h.asked, h.shares⟩, nofun⟩

theorem Waits.mono {task : UserShareTask} (h : Waits P D pair honest db task)
    (hasked : db.asked ⊆ db'.asked) : Waits P D pair honest db' task := by
  cases task with
  | findRecipient sender req => exact hasked h
  | insert share => exact Requested.mono h hasked
  | _ => exact h

theorem userShare_outline (lower : String → String) (P : Primitives) (D : Derivations)
    (pair : Uuid → SharingKeyPair) (honest : Uuid → Prop) :
    Outline (userShareProgram lower P D pair honest) (SharesOk P D pair honest)
      (Waits P D pair honest) fun _ _ => True := by
  refine .of_free (fun {db task} _ hstart => ?_) (fun h hwaits hact => (h.step hwaits hact).1)
    (fun h hwaits hact => (h.step hwaits hact).2 _ rfl)
    (fun _ _ hu hact => hu.mono (UserShareTask.asked_subset hact))
  cases task with
  | findRecipient sender req => cases hstart
  | insert share => cases hstart
  | _ => exact hstart

/-- What has become of the shares that were there: each is there unchanged, unless its sender or
its recipient has removed it since. -/
def KeptUnlessRemoved (db₀ db : UserShareDb) : Prop :=
  ∃ since, db.removed = since ++ db₀.removed ∧ ∀ share ∈ db₀.shares, share ∈ db.shares ∨
    (share.id, share.senderId) ∈ since ∨ (share.id, share.recipientId) ∈ since

theorem KeptUnlessRemoved.step (h : KeptUnlessRemoved db₀ db) {task : UserShareTask}
    {next : Option UserShareTask} (hact : task.proceed lower db = (db', next)) :
    KeptUnlessRemoved db₀ db' := by
  obtain ⟨since, hremoved, hkept⟩ := h
  cases task with
  | create sender req =>
    simp only [UserShareTask.proceed] at hact
    split at hact <;>
    · obtain ⟨rfl, rfl⟩ := Prod.mk.inj hact
      exact ⟨since, hremoved, hkept⟩
  | findRecipient sender req =>
    simp only [UserShareTask.proceed] at hact
    split at hact <;>
    · obtain ⟨rfl, rfl⟩ := Prod.mk.inj hact
      exact ⟨since, hremoved, hkept⟩
  | insert share =>
    obtain ⟨rfl, rfl⟩ := Prod.mk.inj hact
    unfold UserShareStore.insertUserShare
    split
    · exact ⟨since, hremoved, hkept⟩
    · exact ⟨since, hremoved, fun s hs => (hkept s hs).imp_left fun h =>
        Table.mem_insertNew.mpr (Or.inl h)⟩
  | remove user id =>
    obtain ⟨rfl, rfl⟩ := Prod.mk.inj hact
    unfold UserShareStore.deleteUserShare
    extract_lets mine shares
    split
    · exact ⟨since, hremoved, hkept⟩
    · refine ⟨(id, user.id) :: since, congrArg _ hremoved, fun s hs => ?_⟩
      rcases hkept s hs with hs | hs | hs
      · by_cases hmine : mine s
        · obtain ⟨rfl, hby | hby⟩ := hmine
          · exact Or.inr (Or.inl (hby ▸ List.mem_cons_self))
          · exact Or.inr (Or.inr (hby ▸ List.mem_cons_self))
        · exact Or.inl (Table.mem_delete.mpr ⟨hs, decide_eq_false hmine⟩)
      · exact Or.inr (Or.inl (List.mem_cons_of_mem _ hs))
      · exact Or.inr (Or.inr (List.mem_cons_of_mem _ hs))
  | _ =>
    obtain ⟨rfl, rfl⟩ := Prod.mk.inj hact
    exact ⟨since, hremoved, hkept⟩

theorem KeptUnlessRemoved.run {tasks₀ tasks : List UserShareTask}
    (hrun : Run (userShareProgram lower P D pair honest) ⟨db₀, tasks₀⟩ ⟨db, tasks⟩) :
    KeptUnlessRemoved db₀ db := by
  have houtline : Outline (userShareProgram lower P D pair honest) (KeptUnlessRemoved db₀)
      (fun _ _ => True) fun _ _ => True :=
    .of_free (fun _ _ => trivial) (fun h _ hact => h.step hact) (fun _ _ _ => trivial)
      fun _ _ _ _ => trivial
  exact (houtline.run ⟨⟨[], rfl, fun _ h => Or.inl h⟩, fun _ _ => trivial,
    List.pairwise_of_forall fun _ _ => trivial⟩ hrun).inv

theorem mem_incoming {user : SharingUser} {now : Timestamp} {share : UserShareRecord} :
    share ∈ UserSharesService.incoming db user now ↔
      share ∈ db.shares ∧ share.recipientId = user.id ∧ UserShareStore.isLive now share = true := by
  simp [UserSharesService.incoming, UserShareStore.listIncoming, List.mem_mergeSort,
    Table.mem_select]

/-- **Shares between users.** Whatever requests come, also from dishonest users, and however their
steps interleave: what an honest recipient is shown as coming from an honest sender is what that
sender's device sealed to the recipient's own key under that id, and the recipient's device opens
it to exactly that; and a share that was stored is shown, unchanged, as long as it has not expired
and neither of the two has removed it. -/
theorem user_shares_open (hP : P.Binds) (hD : D.Agree) {tasks₀ tasks : List UserShareTask}
    (hrun₀ : Run (userShareProgram lower P D pair honest) ⟨UserShareDb.initial, []⟩ ⟨db₀, tasks₀⟩)
    (hrun : Run (userShareProgram lower P D pair honest) ⟨db₀, tasks₀⟩ ⟨db, tasks⟩)
    (me : SharingUser) (now : Timestamp) :
    (∀ share ∈ UserSharesService.incoming db me now, honest me.id → honest share.senderId →
      share.senderId ≠ me.id ∧ ∃ sender req payload, (sender, req) ∈ db.asked ∧
        sender.id = share.senderId ∧ req.recipientPublicKey = ownKey D pair me.id ∧
        req.share = share.wire ∧ SealedBy P D pair sender req payload ∧
        shareOpen P D (pair me.id) share.wire = some payload) ∧
    ∃ since, db.removed = since ++ db₀.removed ∧
      ∀ share ∈ db₀.shares, share.recipientId = me.id → UserShareStore.isLive now share = true →
        (share.id, share.senderId) ∉ since → (share.id, me.id) ∉ since →
          share ∈ UserSharesService.incoming db me now := by
  refine ⟨fun share hshare hme hsender => ?_, ?_⟩
  · obtain ⟨hmem, hrecipient, -⟩ := mem_incoming.mp hshare
    have hok : SharesOk P D pair honest db :=
      ((userShare_outline lower P D pair honest).run_idle .initial (hrun₀.trans hrun)).inv
    obtain ⟨sender, req, hasked, hid, hwire, hself, hkey⟩ := hok.shares share hmem
    rw [hrecipient] at hself hkey
    obtain ⟨payload, hsealed⟩ := hok.asked _ hasked (hid ▸ hsender)
    refine ⟨Ne.symm hself, sender, req, payload, hasked, hid, hkey hme, hwire.symm, hsealed, ?_⟩
    obtain ⟨id, ephemeral, nonce, hseal⟩ := hsealed
    rw [hkey hme] at hseal
    rw [hwire]
    exact shareOpen_shareSealTo hP hD hseal
  · obtain ⟨since, hremoved, hkept⟩ := KeptUnlessRemoved.run hrun
    refine ⟨since, hremoved, fun share hshare hrecipient hlive hbySender hbyMe => ?_⟩
    rcases hkept share hshare with hmem | hby | hby
    · exact mem_incoming.mpr ⟨hmem, hrecipient, hlive⟩
    · exact absurd hby hbySender
    · exact absurd (hrecipient ▸ hby) hbyMe

/-- The key pairs of an example. -/
def examplePair (userId : Uuid) : SharingKeyPair :=
  ⟨⟨List.replicate 32 (.ofNat userId), List.length_replicate⟩⟩

/-- One user shares a payload with another one. -/
theorem user_shares_open_shared : ∃ (db : UserShareDb) (share : UserShareRecord),
    share ∈ UserSharesService.incoming db ⟨2, "b@example.com"⟩ 0 ∧
      ∃ payload, shareOpen marking mixing (examplePair 2) share.wire = some payload := by
  let me : SharingUser := ⟨2, "b@example.com"⟩
  let sender : SharingUser := ⟨1, "a@example.com"⟩
  have hmade : ∃ made, shareSealTo marking mixing (examplePair 1) (ownKey mixing examplePair 2) "{}"
      ⟨List.replicate 16 4, rfl⟩ (examplePair 5) ⟨List.replicate 24 3, rfl⟩ = some made :=
    Option.isSome_iff_exists.mp (by decide +kernel)
  obtain ⟨made, hmade⟩ := hmade
  have hsenderKey : made.senderPublicKey = ownKey mixing examplePair 1 := by
    simp only [shareSealTo, ownKey, decodePublicKey_b64, Option.bind_eq_bind, Option.bind_some,
      Option.bind_eq_some_iff, Option.pure_def, Option.some_inj] at hmade
    obtain ⟨boxed, -, rfl⟩ := hmade
    rfl
  let req : CreateUserShareRequest :=
    ⟨made, "b@example.com", ownKey mixing examplePair 2, none⟩
  let db₁ := UserShareStore.putSharingKey id .initial ⟨1, "a@example.com",
    ownKey mixing examplePair 1, 0⟩
  let db₂ :=
    UserShareStore.putSharingKey id db₁ ⟨2, "b@example.com", ownKey mixing examplePair 2, 0⟩
  let db₃ : UserShareDb := { db₂ with asked := [(sender, req)] }
  let share : UserShareRecord := ⟨made.id, 1, "a@example.com", made.senderPublicKey, 2,
    "b@example.com", made.ephemeralPublicKey, made.blob, 0, none⟩
  let db₄ : UserShareDb := { db₃ with shares := Table.empty.insertNew share }
  have hcheck : UserSharesService.checkSender db₃ sender req = .ok () := by
    refine if_neg (not_not.mpr ?_)
    exact congrArg some hsenderKey.symm
  have hrecipient : UserSharesService.checkRecipient id db₃ sender req = .ok share := by
    unfold UserSharesService.checkRecipient
    have hfind : UserShareStore.getSharingKeyByEmail id db₃ req.recipientEmail =
        some ⟨2, "b@example.com", ownKey mixing examplePair 2, 0⟩ := rfl
    rw [hfind]
    simp only
    rw [if_neg (by decide), if_neg (not_not.mpr rfl)]
    rfl
  let program := userShareProgram id marking mixing examplePair fun _ => True
  have hfirst :
      program.act .initial (.publishKey sender (ownKey mixing examplePair 1)) db₁ none := rfl
  have hsecond : program.act db₁ (.publishKey me (ownKey mixing examplePair 2)) db₂ none := rfl
  have hcreate : program.act db₂ (.create sender req) db₃ (some (.findRecipient sender req)) := by
    change UserShareTask.proceed _ _ _ = _
    have hasked : { db₂ with asked := (sender, req) :: db₂.asked } = db₃ := rfl
    simp only [UserShareTask.proceed]
    rw [hasked, hcheck]
  have hchecked : program.act db₃ (.findRecipient sender req) db₃ (some (.insert share)) := by
    change UserShareTask.proceed _ _ _ = _
    simp only [UserShareTask.proceed, hrecipient]
  have hinsert : program.act db₃ (.insert share) db₄ none := rfl
  have hidle : Run program ⟨.initial, []⟩ ⟨.initial, []⟩ := .refl
  have hpublished := ((hidle.starts (.publishKey sender _) fun _ => rfl).proceeds hfirst).starts
    (.publishKey me _) (fun _ => rfl) |>.proceeds hsecond
  have hrun := (((hpublished.starts (.create sender req) fun _ => ⟨"{}", _, _, _, hmade⟩).proceeds
    hcreate).proceeds hchecked).proceeds hinsert
  have hshown : share ∈ UserSharesService.incoming db₄ me 0 :=
    mem_incoming.mpr ⟨Table.mem_insertNew.mpr (Or.inr ⟨rfl, fun _ h => absurd h
      (Table.not_mem_empty _)⟩), rfl, rfl⟩
  obtain ⟨-, _, _, payload, -, -, -, -, -, hopens⟩ :=
    (user_shares_open marking_binds mixing_agree hrun .refl me 0).1 share hshown trivial trivial
  exact ⟨db₄, share, hshown, payload, hopens⟩

end Runs

end Zvault
