import Zvault.Auth.StaleLogins
import Zvault.Concurrent.Budget

/-!
# What every session rests on

Sign-ins, password changes and recoveries of any number of requests, interleaved
at their awaits. Over a whole run no version of a verifier has more sessions than
proofs against it and recoveries that set it, no session passes the second factor
unasked, a challenge is tried once, and a pending login takes five codes.
-/

namespace Zvault

open Relational Concurrent

/-- A step of a request. -/
abbrev AuthAct := Act AuthDb AuthTask

namespace AuthTask

/-- The challenge whose proof is checked next. -/
def tries : AuthTask → Option Uuid
  | .finishSelect challenge _ _ => some challenge.id
  | .reauthenticate _ challenge _ _ => some challenge.id
  | _ => none

/-- The pending login whose code is checked next. -/
def guesses : AuthTask → Option Uuid
  | .verifyProof login => some login.id
  | _ => none

/-- The account a request acts for, and the version of the verifier it proved or set. -/
def credential : AuthTask → Option (Uuid × ℕ)
  | .proved accountId version => some (accountId, version)
  | .clean accountId version _ => some (accountId, version)
  | .park accountId version _ => some (accountId, version)
  | .openSession accountId version _ => some (accountId, version)
  | .spent login _ => some (login.accountId, login.version)
  | .recovered accountId version => some (accountId, version)
  | _ => none

/-- The same, once no second factor is asked any more. -/
def cleared : AuthTask → Option (Uuid × ℕ)
  | .openSession accountId version _ => some (accountId, version)
  | .spend login => some (login.accountId, login.version)
  | .spent login _ => some (login.accountId, login.version)
  | .recovered accountId version => some (accountId, version)
  | _ => none

/-- A state that has proved nothing yet. -/
structure Plain (task : AuthTask) : Prop where
  tries : task.tries = none
  guesses : task.guesses = none
  credential : task.credential = none
  cleared : task.cleared = none

end AuthTask

/-- `verifyClient` accepts a proof for this version of an account's verifier. -/
def acceptsProof (crypto : LoginCrypto) (accountId : Uuid) (version : ℕ) (act : AuthAct) : Bool :=
  match act.task with
  | .finishSelect challenge srpA srpM1 =>
    (challenge.accountId.bind act.before.accounts.find).any fun account =>
      account.id = accountId ∧ account.version = version ∧
        LoginService.verifies crypto (some account) challenge srpA srpM1
  | _ => false

/-- The version that a change of an account's verifier sets. -/
def AuthDb.nextVersion (db : AuthDb) (accountId : Uuid) : ℕ :=
  ((db.accounts.find accountId).map LoginAccount.version).getD 0 + 1

/-- A recovery commits and sets this version of an account's verifier. -/
def commitsRecovery (accountId : Uuid) (version : ℕ) (act : AuthAct) : Bool :=
  match act.task with
  | .commit ⟨account, _, _, .recover _ _⟩ =>
    account = accountId ∧ version = act.before.nextVersion accountId
  | _ => false

/-- What a session may rest on: a proof of the password, or a recovery. -/
def vouches (crypto : LoginCrypto) (accountId : Uuid) (version : ℕ) (act : AuthAct) : Bool :=
  acceptsProof crypto accountId version act || commitsRecovery accountId version act

/-- The second factor is off for a login whose proof held, or its code is right. -/
def passesSecondFactor (accountId : Uuid) (version : ℕ) (act : AuthAct) : Bool :=
  match act.task, act.next with
  | .proved account proved, some (.openSession ..) => account = accountId ∧ proved = version
  | .verifyProof login, some (.spend _) => login.accountId = accountId ∧ login.version = version
  | _, _ => false

/-- A login is parked under this id. -/
def parksLogin (id : Uuid) (act : AuthAct) : Bool :=
  !act.before.pendingLogins.hasKey id && act.after.pendingLogins.hasKey id

/-- A code is checked for the pending login of this id. -/
def checksCode (id : Uuid) (act : AuthAct) : Bool := act.task.guesses = some id

/-- A challenge is handed out under this id. -/
def handsOut (id : Uuid) (act : AuthAct) : Bool :=
  !act.before.challenges.hasKey id && act.after.challenges.hasKey id

/-- A proof for the challenge of this id is checked. -/
def checksProof (id : Uuid) (act : AuthAct) : Bool := act.task.tries = some id

namespace AuthDb

/-- How many sessions rest on a version of an account's verifier. -/
def sessionsOn (db : AuthDb) (accountId : Uuid) (version : ℕ) : ℕ :=
  db.sessions.rows.countP fun s => s.accountId = accountId ∧ s.version = version

/-- How many logins wait for the second factor after a proof against it. -/
def pendingOn (db : AuthDb) (accountId : Uuid) (version : ℕ) : ℕ :=
  db.pendingLogins.rows.countP fun r => r.accountId = accountId ∧ r.version = version

/-- How many codes a pending login may still try. -/
def codesLeft (db : AuthDb) (id : Uuid) : ℕ :=
  ((db.pendingLogins.find id).map fun r => twoFactorChallengeMaxAttempts - r.attempts).getD 0

/-- Whether a challenge waits for its proof. -/
def challengeCount (db : AuthDb) (id : Uuid) : ℕ := (db.challenges.hasKey id).toNat

end AuthDb

/-- No session is issued, and rows only go. -/
structure AuthRests (db db' : AuthDb) : Prop where
  sessions : db'.sessions.rows.map (fun s => (s.accountId, s.version)) =
    db.sessions.rows.map fun s => (s.accountId, s.version)
  pending : ∃ p, db'.pendingLogins = db.pendingLogins.delete p
  challenges : ∃ p, db'.challenges = db.challenges.delete p

/-- What one step of a request does to the sessions, the pending logins and the challenges. -/
inductive AuthMove (crypto : LoginCrypto) (db : AuthDb) :
    AuthTask → AuthDb → Option AuthTask → Prop
  | rest {task db' next} (hrests : AuthRests db db') (htries : task.tries = none)
      (hguesses : task.guesses = none) (hnext : ∀ t ∈ next, t.Plain) :
      AuthMove crypto db task db' next
  | handOut {task} (row : LoginChallenge) (hnew : ∀ x ∈ db.challenges, x.id ≠ row.id)
      (htask : task.Plain) :
      AuthMove crypto db task { db with challenges := db.challenges.insertNew row } none
  | take {task next} (c : LoginChallenge) (hc : c ∈ db.challenges) (htask : task.Plain)
      (hnext : next.tries = some c.id) (hguesses : next.guesses = none)
      (hcredential : next.credential = none) (hcleared : next.cleared = none) :
      AuthMove crypto db task
        { db with challenges := db.challenges.delete fun x => x.id = c.id } (some next)
  | refuse {task next} (c : LoginChallenge) (htask : task.tries = some c.id)
      (hguesses : task.guesses = none) (hnext : ∀ t ∈ next, t.Plain) :
      AuthMove crypto db task db next
  | prove (c : LoginChallenge) (srpA srpM1 : Bytes) (account : LoginAccount)
      (haccount : c.accountId.bind db.accounts.find = some account)
      (hverifies : LoginService.verifies crypto (some account) c srpA srpM1 = true) :
      AuthMove crypto db (.finishSelect c srpA srpM1) db (some (.proved account.id account.version))
  | ask (accountId : Uuid) (version : ℕ) (now : Timestamp) :
      AuthMove crypto db (.proved accountId version) db (some (.clean accountId version now))
  | skip (accountId : Uuid) (version : ℕ) :
      AuthMove crypto db (.proved accountId version) db
        (some (.openSession accountId version version))
  | clean {db'} (accountId : Uuid) (version : ℕ) (now : Timestamp) (hrests : AuthRests db db') :
      AuthMove crypto db (.clean accountId version now) db' (some (.park accountId version now))
  | park (now : Timestamp) (row : PendingLogin) (hnew : ∀ x ∈ db.pendingLogins, x.id ≠ row.id)
      (hattempts : row.attempts = 0) :
      AuthMove crypto db (.park row.accountId row.version now)
        { db with pendingLogins := db.pendingLogins.insertNew row } none
  | issue {task next} (s : LoginSession) (hnew : ∀ x ∈ db.sessions, x.id ≠ s.id)
      (htries : task.tries = none) (hguesses : task.guesses = none)
      (hcredential : task.credential = some (s.accountId, s.version))
      (hcleared : task.cleared = some (s.accountId, s.version)) (hnext : ∀ t ∈ next, t.Plain) :
      AuthMove crypto db task { db with sessions := db.sessions.insertNew s } next
  | count (token : String) (r : PendingLogin) (hr : r ∈ db.pendingLogins)
      (hattempts : r.attempts < twoFactorChallengeMaxAttempts) :
      AuthMove crypto db (.finishTwoFactor token) (LoginService.countAttempt db r)
        (some (.verifyProof { r with attempts := r.attempts + 1 }))
  | wrongCode (login : PendingLogin) : AuthMove crypto db (.verifyProof login) db none
  | rightCode (login : PendingLogin) :
      AuthMove crypto db (.verifyProof login) db (some (.spend login))
  | spend (login spent : PendingLogin) (seen : ℕ)
      (hspent : db.pendingLogins.find login.id = some spent) :
      AuthMove crypto db (.spend login)
        { db with pendingLogins := db.pendingLogins.delete fun r => r.id = login.id }
        (some (.spent spent seen))
  | openSpent (login : PendingLogin) (seen : ℕ) :
      AuthMove crypto db (.spent login seen) db
        (some (.openSession login.accountId login.version seen))
  | recover {db'} (change : PasswordChange) (tokenHash : ℕ) (now : Timestamp)
      (hending : change.ending = .recover tokenHash now) (hrests : AuthRests db db') :
      AuthMove crypto db (.commit change) db'
        (some (.recovered change.accountId (db.nextVersion change.accountId)))

variable {crypto : LoginCrypto} {db db' : AuthDb}

section Rests

theorem AuthRests.refl (db : AuthDb) : AuthRests db db where
  sessions := rfl
  pending := ⟨fun _ => false, (Table.delete_eq_self fun _ _ => rfl).symm⟩
  challenges := ⟨fun _ => false, (Table.delete_eq_self fun _ _ => rfl).symm⟩

theorem AuthRests.of_challenges (db : AuthDb) (p : LoginChallenge → Bool) :
    AuthRests db { db with challenges := db.challenges.delete p } :=
  { AuthRests.refl db with challenges := ⟨p, rfl⟩ }

theorem AuthRests.of_pending (db : AuthDb) (p : PendingLogin → Bool) :
    AuthRests db { db with pendingLogins := db.pendingLogins.delete p } :=
  { AuthRests.refl db with pending := ⟨p, rfl⟩ }

theorem AuthRests.sessionsOn (h : AuthRests db db') (accountId : Uuid) (version : ℕ) :
    db'.sessionsOn accountId version = db.sessionsOn accountId version := by
  have hcount := congrArg (List.countP fun k => decide (k = (accountId, version))) h.sessions
  simpa only [AuthDb.sessionsOn, List.countP_map, Function.comp_def, Prod.mk.injEq] using hcount

theorem AuthRests.pendingOn (h : AuthRests db db') (accountId : Uuid) (version : ℕ) :
    db'.pendingOn accountId version ≤ db.pendingOn accountId version := by
  obtain ⟨p, hp⟩ := h.pending
  rw [AuthDb.pendingOn, hp]
  exact List.filter_sublist.countP_le

theorem AuthRests.codesLeft (h : AuthRests db db') (id : Uuid) :
    db'.codesLeft id ≤ db.codesLeft id := by
  obtain ⟨p, hp⟩ := h.pending
  rw [AuthDb.codesLeft, AuthDb.codesLeft, hp, Table.find_delete_eq]
  cases db.pendingLogins.find id with
  | none => exact Nat.le_refl _
  | some r =>
    rw [Option.filter_some]
    split
    · exact Nat.le_refl _
    · exact Nat.zero_le _

theorem AuthRests.challengeCount (h : AuthRests db db') (id : Uuid) :
    db'.challengeCount id ≤ db.challengeCount id := by
  obtain ⟨p, hp⟩ := h.challenges
  refine Bool.toNat_le_toNat fun hkey => ?_
  obtain ⟨c, hc, hid⟩ := Table.hasKey_iff.mp hkey
  rw [hp] at hc
  exact Table.hasKey_iff.mpr ⟨c, (Table.mem_delete.mp hc).1, hid⟩

end Rests

/-- A session that is issued is new. -/
theorem issue_cases {draw : LoginDraw} {accountId : Uuid} {version : ℕ}
    (h : SessionStore.issue crypto db draw accountId version = some db') :
    ∃ s : LoginSession, s.accountId = accountId ∧ s.version = version ∧
      (∀ x ∈ db.sessions, x.id ≠ s.id) ∧
      db' = { db with sessions := db.sessions.insertNew s } := by
  unfold SessionStore.issue at h
  split at h
  · cases h
  · rename_i hfree
    obtain rfl := Option.some_inj.mp h
    exact ⟨_, rfl, rfl, Table.hasKey_eq_false.mp (by simpa using hfree), rfl⟩

/-- The challenge that is spent, when one waits and is not too old. -/
theorem takeChallenge_cases {loginId : Uuid} {now : Timestamp} {taken : Option LoginChallenge}
    (h : LoginService.takeChallenge db loginId now = (db', taken)) :
    db' = { db with challenges := db.challenges.delete fun c => c.id = loginId } ∧
      ∀ c ∈ taken, c ∈ db.challenges ∧ c.id = loginId := by
  obtain ⟨rfl, rfl⟩ := Prod.mk.inj h
  refine ⟨rfl, fun c hc => ?_⟩
  exact Table.find_eq_some.mp (Option.filter_eq_some_iff.mp hc).1

/-- Every step makes one of the moves. -/
theorem proceed_moves {draw : LoginDraw} {task : AuthTask} {next : Option AuthTask}
    (h : task.proceed crypto db draw = some (db', next)) : AuthMove crypto db task db' next := by
  have hnone : ∀ t ∈ (none : Option AuthTask), t.Plain := by rintro t ⟨⟩
  cases task with
  | start email =>
    simp only [AuthTask.proceed] at h
    split at h
    · cases h
    · obtain ⟨rfl, rfl⟩ := Prod.mk.inj (Option.some_inj.mp h)
      exact .rest (.of_challenges db _) rfl rfl (by rintro _ ⟨⟩; exact ⟨rfl, rfl, rfl, rfl⟩)
  | startSelect email =>
    replace h := Option.some_inj.mp h
    unfold LoginService.startSelect at h
    extract_lets account verifier at h
    split at h <;> obtain ⟨rfl, rfl⟩ := Prod.mk.inj h
    · exact .rest (.refl db) rfl rfl hnone
    · exact .rest (.refl db) rfl rfl (by rintro _ ⟨⟩; exact ⟨rfl, rfl, rfl, rfl⟩)
  | startInsert accountId email challenge =>
    replace h := Option.some_inj.mp h
    simp only [LoginService.startInsert] at h
    split at h <;> obtain ⟨rfl, rfl⟩ := Prod.mk.inj h
    · exact .rest (.refl db) rfl rfl hnone
    · rename_i hfree
      exact .handOut _ (Table.hasKey_eq_false.mp (by simpa using hfree)) ⟨rfl, rfl, rfl, rfl⟩
  | finish loginId srpA srpM1 =>
    simp only [AuthTask.proceed] at h
    split at h
    · cases h
    cases htake : LoginService.takeChallenge db loginId draw.now with
    | mk taken challenge =>
    rw [htake] at h
    obtain ⟨rfl, htaken⟩ := takeChallenge_cases htake
    cases challenge with
    | none =>
      obtain ⟨rfl, rfl⟩ := Prod.mk.inj (Option.some_inj.mp h)
      exact .rest (.of_challenges db _) rfl rfl hnone
    | some challenge =>
      obtain ⟨rfl, rfl⟩ := Prod.mk.inj (Option.some_inj.mp h)
      obtain ⟨hc, rfl⟩ := htaken challenge rfl
      exact .take challenge hc ⟨rfl, rfl, rfl, rfl⟩ rfl rfl rfl rfl
  | finishSelect challenge srpA srpM1 =>
    replace h := Option.some_inj.mp h
    unfold LoginService.finishSelect at h
    cases haccount : challenge.accountId.bind db.accounts.find with
    | none =>
      rw [haccount] at h
      obtain ⟨rfl, rfl⟩ := Prod.mk.inj h
      exact .refuse challenge rfl rfl hnone
    | some account =>
      simp only [haccount] at h
      split at h <;> obtain ⟨rfl, rfl⟩ := Prod.mk.inj h
      · exact .prove challenge srpA srpM1 account haccount ‹_›
      · exact .refuse challenge rfl rfl hnone
  | proved accountId version =>
    obtain ⟨rfl, rfl⟩ := Prod.mk.inj (Option.some_inj.mp h)
    cases draw.enabled with
    | true => exact .ask accountId version draw.now
    | false => exact .skip accountId version
  | clean accountId version now =>
    simp only [AuthTask.proceed] at h
    split at h
    · cases h
    · obtain ⟨rfl, rfl⟩ := Prod.mk.inj (Option.some_inj.mp h)
      exact .clean accountId version now (.of_pending db _)
  | park accountId version now =>
    replace h := Option.some_inj.mp h
    simp only [LoginService.park] at h
    split at h <;> obtain ⟨rfl, rfl⟩ := Prod.mk.inj h
    · exact .rest (.refl db) rfl rfl hnone
    · rename_i hfree
      have hfree : db.pendingLogins.hasKey draw.id = false := by simpa using hfree
      exact .park now ⟨draw.id, accountId, crypto.hashToken draw.token, 0,
        now + twoFactorChallengeTtl, version⟩ (Table.hasKey_eq_false.mp hfree) rfl
  | openSession accountId version seen =>
    replace h := Option.some_inj.mp h
    unfold LoginService.openSession at h
    obtain ⟨rfl, rfl⟩ := Prod.mk.inj h
    cases hissue : SessionStore.issue crypto db draw accountId version with
    | none => exact .rest (.refl db) rfl rfl hnone
    | some db' =>
      obtain ⟨s, rfl, rfl, hnew, rfl⟩ := issue_cases hissue
      exact .issue s hnew rfl rfl rfl rfl hnone
  | finishTwoFactor token =>
    simp only [AuthTask.proceed] at h
    split at h
    · obtain ⟨rfl, rfl⟩ := Prod.mk.inj (Option.some_inj.mp h)
      exact .rest (.refl db) rfl rfl hnone
    · rename_i login htried
      split at h
      · cases h
      · obtain ⟨rfl, rfl⟩ := Prod.mk.inj (Option.some_inj.mp h)
        have htried := htried
        unfold LoginService.triedLogin at htried
        refine .count token login (List.mem_of_find?_eq_some htried) ?_
        have hopen := List.find?_some htried
        simp only [decide_eq_true_eq] at hopen
        exact hopen.2.2
  | verifyProof login =>
    obtain ⟨rfl, rfl⟩ := Prod.mk.inj (Option.some_inj.mp h)
    cases draw.accepted with
    | true => exact .rightCode login
    | false => exact .wrongCode login
  | spend login =>
    simp only [AuthTask.proceed, LoginService.spend] at h
    split at h
    · cases h
    · split at h <;> obtain ⟨rfl, rfl⟩ := Prod.mk.inj (Option.some_inj.mp h)
      · exact .rest (.of_pending db _) rfl rfl hnone
      · exact .spend login _ _ ‹_›
  | spent login seen =>
    obtain ⟨rfl, rfl⟩ := Prod.mk.inj (Option.some_inj.mp h)
    cases haccount : db.accounts.find login.accountId with
    | none => exact .rest (.refl db) rfl rfl hnone
    | some account =>
      obtain ⟨-, hid⟩ := Table.find_eq_some.mp haccount
      rw [Option.map_some, hid]
      exact .openSpent login seen
  | changePassword change loginId srpA srpM1 =>
    simp only [AuthTask.proceed] at h
    split at h
    · obtain ⟨rfl, rfl⟩ := Prod.mk.inj (Option.some_inj.mp h)
      exact .rest (.refl db) rfl rfl hnone
    split at h
    · cases h
    cases htake : LoginService.takeChallenge db loginId draw.now with
    | mk taken challenge =>
    rw [htake] at h
    obtain ⟨rfl, htaken⟩ := takeChallenge_cases htake
    cases challenge with
    | none =>
      obtain ⟨rfl, rfl⟩ := Prod.mk.inj (Option.some_inj.mp h)
      exact .rest (.of_challenges db _) rfl rfl hnone
    | some challenge =>
      obtain ⟨hc, rfl⟩ := htaken challenge rfl
      dsimp only at h
      split at h <;> obtain ⟨rfl, rfl⟩ := Prod.mk.inj (Option.some_inj.mp h)
      · exact .rest (.of_challenges db _) rfl rfl hnone
      · exact .take challenge hc ⟨rfl, rfl, rfl, rfl⟩ rfl rfl rfl rfl
  | reauthenticate change challenge srpA srpM1 =>
    replace h := Option.some_inj.mp h
    unfold LoginService.reauthenticate at h
    split at h
    · obtain ⟨rfl, rfl⟩ := Prod.mk.inj h
      exact .refuse challenge rfl rfl hnone
    · split at h <;> obtain ⟨rfl, rfl⟩ := Prod.mk.inj h
      · exact .refuse challenge rfl rfl (by rintro _ ⟨⟩; exact ⟨rfl, rfl, rfl, rfl⟩)
      · exact .refuse challenge rfl rfl hnone
  | complete token salt srpVerifier =>
    simp only [AuthTask.proceed] at h
    split at h <;> obtain ⟨rfl, rfl⟩ := Prod.mk.inj (Option.some_inj.mp h)
    · exact .rest (.refl db) rfl rfl hnone
    · refine .rest (.refl db) rfl rfl fun later hlater => ?_
      obtain ⟨change, -, rfl⟩ := Option.map_eq_some_iff.mp hlater
      exact ⟨rfl, rfl, rfl, rfl⟩
  | secondFactor change =>
    obtain ⟨rfl, rfl⟩ := Prod.mk.inj (Option.some_inj.mp h)
    refine .rest (.refl db) rfl rfl fun later hlater => ?_
    split at hlater
    · cases hlater
    · obtain rfl := Option.some_inj.mp hlater
      exact ⟨rfl, rfl, rfl, rfl⟩
  | update change =>
    rcases update_cases h with ⟨rfl, rfl⟩ | ⟨-, rfl, rfl⟩
    · exact .rest (.refl db') rfl rfl hnone
    · exact .rest { AuthRests.refl db with } rfl rfl
        (by rintro _ ⟨⟩; exact ⟨rfl, rfl, rfl, rfl⟩)
  | dropChallenges change =>
    obtain ⟨rfl, rfl⟩ := Prod.mk.inj (Option.some_inj.mp h)
    exact .rest { AuthRests.refl db with } rfl rfl
      (by rintro _ ⟨⟩; exact ⟨rfl, rfl, rfl, rfl⟩)
  | dropLogins change =>
    obtain ⟨rfl, rfl⟩ := Prod.mk.inj (Option.some_inj.mp h)
    exact .rest { AuthRests.refl db with } rfl rfl
      (by rintro _ ⟨⟩; exact ⟨rfl, rfl, rfl, rfl⟩)
  | commit change =>
    replace h := Option.some_inj.mp h
    unfold RecoveryService.commit at h
    extract_lets opened version accounts committed at h
    have hrests : AuthRests db committed := ⟨rfl, ⟨_, rfl⟩, ⟨_, rfl⟩⟩
    split at h <;> rename_i hending <;> obtain ⟨rfl, rfl⟩ := Prod.mk.inj h
    · exact .rest hrests rfl rfl (by rintro _ ⟨⟩; exact ⟨rfl, rfl, rfl, rfl⟩)
    · exact .recover change _ _ hending ⟨rfl, ⟨_, rfl⟩, ⟨_, rfl⟩⟩
  | recovered accountId version =>
    replace h := Option.some_inj.mp h
    unfold RecoveryService.openSession at h
    split at h
    · obtain ⟨rfl, rfl⟩ := Prod.mk.inj h
      exact .rest (.refl db) rfl rfl hnone
    · rename_i hissue
      obtain ⟨rfl, rfl⟩ := Prod.mk.inj h
      obtain ⟨s, rfl, rfl, hnew, rfl⟩ := issue_cases hissue
      exact .issue s hnew rfl rfl rfl rfl (by rintro _ ⟨⟩; exact ⟨rfl, rfl, rfl, rfl⟩)
  | revokeAllExcept accountId keep version =>
    obtain ⟨rfl, rfl⟩ := Prod.mk.inj (Option.some_inj.mp h)
    refine .rest { AuthRests.refl db with sessions := ?_ } rfl rfl hnone
    simp only [SessionStore.revokeAllExcept, Table.update, List.map_map]
    refine List.map_congr_left fun s _ => ?_
    simp only [Function.comp_apply]
    split
    · rfl
    · rfl

/-- What a waiting request counts for. -/
def credit {α : Type} [DecidableEq α] (held : Option α) (a : α) : ℕ :=
  if held = some a then 1 else 0

@[simp] theorem credit_none {α : Type} [DecidableEq α] (a : α) : credit none a = 0 := rfl

theorem credit_le {α : Type} [DecidableEq α] {held : Option α} {a : α} {p : Bool}
    (h : held = some a → p = true) : credit held a ≤ p.toNat := by
  unfold credit
  split
  · rename_i heq
    rw [h heq]
    exact Nat.le_refl 1
  · exact Nat.zero_le _

theorem toNat_decide {α : Type} [DecidableEq α] (held : Option α) (a : α) :
    (decide (held = some a)).toNat = credit held a := by
  unfold credit
  split
  · rename_i h
    rw [decide_eq_true h, Bool.toNat_true]
  · rename_i h
    rw [decide_eq_false h, Bool.toNat_false]

theorem credit_next {α : Type} [DecidableEq α] {next : Option AuthTask} {f : AuthTask → Option α}
    (h : ∀ t ∈ next, f t = none) (a : α) : (next.map fun t => credit (f t) a).getD 0 = 0 := by
  cases next with
  | none => rfl
  | some t => simp [h t rfl]

section Counts

theorem sessionsOn_insertNew {s : LoginSession} (hnew : ∀ x ∈ db.sessions, x.id ≠ s.id)
    (accountId : Uuid) (version : ℕ) :
    AuthDb.sessionsOn { db with sessions := db.sessions.insertNew s } accountId version =
      db.sessionsOn accountId version +
        credit (some (s.accountId, s.version)) (accountId, version) := by
  simp [AuthDb.sessionsOn, Table.rows_insertNew hnew, List.countP_append, List.countP_singleton,
    credit]

theorem pendingOn_insertNew {r : PendingLogin} (hnew : ∀ x ∈ db.pendingLogins, x.id ≠ r.id)
    (accountId : Uuid) (version : ℕ) :
    AuthDb.pendingOn { db with pendingLogins := db.pendingLogins.insertNew r } accountId version =
      db.pendingOn accountId version +
        credit (some (r.accountId, r.version)) (accountId, version) := by
  simp [AuthDb.pendingOn, Table.rows_insertNew hnew, List.countP_append, List.countP_singleton,
    credit]

/-- A pending login that is spent no longer waits. -/
theorem pendingOn_spend {id : Uuid} {spent : PendingLogin}
    (hspent : db.pendingLogins.find id = some spent) (accountId : Uuid) (version : ℕ) :
    AuthDb.pendingOn { db with pendingLogins := db.pendingLogins.delete fun r => r.id = id }
        accountId version + credit (some (spent.accountId, spent.version)) (accountId, version) ≤
      db.pendingOn accountId version := by
  obtain ⟨hmem, hid⟩ := Table.find_eq_some.mp hspent
  obtain ⟨before, after, hsplit⟩ := List.append_of_mem (Table.mem_rows.mpr hmem)
  have hdeleted : ∀ rows : List PendingLogin, (rows.filter fun r => !decide (r.id = id)).countP
      (fun r => r.accountId = accountId ∧ r.version = version) ≤ rows.countP
        (fun r => r.accountId = accountId ∧ r.version = version) :=
    fun rows => List.filter_sublist.countP_le
  have hbefore := hdeleted before
  have hafter := hdeleted after
  simp only [AuthDb.pendingOn, Table.delete, hsplit, List.filter_append, List.countP_append,
    List.filter_cons, List.countP_cons, hid, decide_true, Bool.not_true, Bool.false_eq_true,
    if_false]
  simp only [credit, Option.some_inj, Prod.mk.injEq, decide_eq_true_eq]
  omega

theorem pendingOn_countAttempt (db : AuthDb) (login : PendingLogin) (accountId : Uuid)
    (version : ℕ) : (LoginService.countAttempt db login).pendingOn accountId version =
      db.pendingOn accountId version := by
  simp only [AuthDb.pendingOn, LoginService.countAttempt, Table.update, List.countP_map]
  congr 1
  funext r
  simp only [Function.comp_apply]
  split
  · rfl
  · rfl

end Counts

/-- Requests carry nothing. -/
theorem plain_of_isRequest {task : AuthTask} (h : task.isRequest = true) : task.Plain := by
  cases task <;> first | exact ⟨rfl, rfl, rfl, rfl⟩ | cases h

theorem acceptsProof_of_verifies {c : LoginChallenge} {srpA srpM1 : Bytes} {account : LoginAccount}
    {next : Option AuthTask} {accountId : Uuid} {version : ℕ}
    (haccount : c.accountId.bind db.accounts.find = some account)
    (hverifies : LoginService.verifies crypto (some account) c srpA srpM1 = true)
    (h : some (account.id, account.version) = some (accountId, version)) :
    acceptsProof crypto accountId version ⟨db, .finishSelect c srpA srpM1, db', next⟩ = true := by
  obtain ⟨rfl, rfl⟩ := Prod.mk.inj (Option.some_inj.mp h)
  simp [acceptsProof, haccount, hverifies]

/-- A recovery that commits hands on what it set. -/
theorem commitsRecovery_of_ending {change : PasswordChange} {tokenHash version : ℕ}
    {now : Timestamp} {next : Option AuthTask} {accountId : Uuid}
    (hending : change.ending = .recover tokenHash now)
    (h : some (change.accountId, db.nextVersion change.accountId) = some (accountId, version)) :
    commitsRecovery accountId version ⟨db, .commit change, db', next⟩ = true := by
  obtain ⟨account, salt, srpVerifier, ending⟩ := change
  obtain rfl := hending
  obtain ⟨rfl, rfl⟩ := Prod.mk.inj (Option.some_inj.mp h)
  simp [commitsRecovery]

theorem session_budget (crypto : LoginCrypto) (accountId : Uuid) (version : ℕ) :
    Budget (authProgram crypto)
      (fun db => db.sessionsOn accountId version + db.pendingOn accountId version)
      (fun task => credit task.credential (accountId, version))
      (vouches crypto accountId version)
      (fun _ => false) 1 := by
  refine ⟨fun {db task} hstart => ?_, ?_⟩
  · rw [(plain_of_isRequest hstart).credential, credit_none]
  rintro db task db' next ⟨draw, h⟩
  have hmove := proceed_moves h
  clear h
  cases hmove with
  | rest hrests htries hguesses hnext =>
    have hsessions := hrests.sessionsOn accountId version
    have hpending := hrests.pendingOn accountId version
    rw [credit_next fun t ht => (hnext t ht).credential]
    simp only [Bool.toNat_false]
    omega
  | handOut row hnew htask => exact Nat.le_add_right_of_le (Nat.le_add_right _ _)
  | take c hc htask hnext hguesses hcredential hcleared =>
    rw [Option.map_some, Option.getD_some, hcredential, credit_none]
    exact Nat.le_add_right_of_le (Nat.le_add_right _ _)
  | refuse c htask hguesses hnext =>
    rw [credit_next fun t ht => (hnext t ht).credential]
    exact Nat.le_add_right_of_le (Nat.le_add_right _ _)
  | prove c srpA srpM1 account haccount hverifies =>
    have hearned : credit (some (account.id, account.version)) (accountId, version) ≤
        (vouches crypto accountId version ⟨db, .finishSelect c srpA srpM1, db,
          some (.proved account.id account.version)⟩).toNat :=
      credit_le fun h => Bool.or_eq_true_iff.mpr
        (Or.inl (acceptsProof_of_verifies haccount hverifies h))
    simp only [Option.map_some, Option.getD_some, AuthTask.credential, Bool.toNat_false]
    omega
  | ask => exact Nat.le_add_right _ _
  | skip => exact Nat.le_add_right _ _
  | clean _ _ _ hrests =>
    have hsessions := hrests.sessionsOn accountId version
    have hpending := hrests.pendingOn accountId version
    simp only [Option.map_some, Option.getD_some, AuthTask.credential, Bool.toNat_false]
    omega
  | park now row hnew hattempts =>
    have hparked := pendingOn_insertNew hnew accountId version
    have hsame : AuthDb.sessionsOn { db with pendingLogins := db.pendingLogins.insertNew row }
        accountId version = db.sessionsOn accountId version := rfl
    simp only [Option.map_none, Option.getD_none, AuthTask.credential, Bool.toNat_false]
    omega
  | issue s hnew htries hguesses hcredential hcleared hnext =>
    have hissued := sessionsOn_insertNew hnew accountId version
    have hsame : AuthDb.pendingOn { db with sessions := db.sessions.insertNew s }
        accountId version = db.pendingOn accountId version := rfl
    rw [credit_next fun t ht => (hnext t ht).credential, hcredential]
    simp only [Bool.toNat_false]
    omega
  | count token r hr hattempts =>
    have hcounted := pendingOn_countAttempt db r accountId version
    have hsame : (LoginService.countAttempt db r).sessionsOn accountId version =
      db.sessionsOn accountId version := rfl
    simp only [Option.map_some, Option.getD_some, AuthTask.credential, credit_none,
      Bool.toNat_false]
    omega
  | wrongCode => exact Nat.le_add_right _ _
  | rightCode => exact Nat.le_add_right _ _
  | spend login spent seen hspent =>
    have hleft := pendingOn_spend hspent accountId version
    have hsame : AuthDb.sessionsOn { db with
        pendingLogins := db.pendingLogins.delete fun r => r.id = login.id } accountId version =
      db.sessionsOn accountId version := rfl
    simp only [Option.map_some, Option.getD_some, AuthTask.credential, credit_none,
      Bool.toNat_false]
    omega
  | openSpent login seen => exact Nat.le_add_right _ _
  | recover change tokenHash now hending hrests =>
    have hsessions := hrests.sessionsOn accountId version
    have hpending := hrests.pendingOn accountId version
    have hearned : credit (some (change.accountId, db.nextVersion change.accountId))
        (accountId, version) ≤ (vouches crypto accountId version ⟨db, .commit change, db',
          some (.recovered change.accountId (db.nextVersion change.accountId))⟩).toNat :=
      credit_le fun h => Bool.or_eq_true_iff.mpr (Or.inr (commitsRecovery_of_ending hending h))
    simp only [Option.map_some, Option.getD_some, AuthTask.credential, Bool.toNat_false]
    omega

/-- A pending login is found under its id with the account and the verifier it had when its attempt
was counted: no id is drawn twice. -/
def KeepsLogin (db : AuthDb) (task : AuthTask) : Prop :=
  ∀ login, task = .spend login → ∀ r ∈ db.pendingLogins, r.id = login.id →
    r.accountId = login.accountId ∧ r.version = login.version

/-- What a session may rest on where a second factor is asked. -/
def clears (accountId : Uuid) (version : ℕ) (act : AuthAct) : Bool :=
  passesSecondFactor accountId version act || commitsRecovery accountId version act

theorem cleared_budget (crypto : LoginCrypto) (accountId : Uuid) (version : ℕ) :
    Budget ((authProgram crypto).when KeepsLogin) (fun db => db.sessionsOn accountId version)
      (fun task => credit task.cleared (accountId, version)) (clears accountId version)
      (fun _ => false) 1 := by
  refine ⟨fun {db task} hstart => ?_, ?_⟩
  · rw [(plain_of_isRequest hstart).cleared, credit_none]
  rintro db task db' next ⟨hkeeps, draw, h⟩
  have hmove := proceed_moves h
  clear h
  cases hmove with
  | rest hrests htries hguesses hnext =>
    rw [credit_next fun t ht => (hnext t ht).cleared, hrests.sessionsOn]
    exact Nat.le_add_right_of_le (Nat.le_add_right _ _)
  | handOut row hnew htask => exact Nat.le_add_right_of_le (Nat.le_add_right _ _)
  | take c hc htask hnext hguesses hcredential hcleared =>
    rw [Option.map_some, Option.getD_some, hcleared, credit_none]
    exact Nat.le_add_right_of_le (Nat.le_add_right _ _)
  | refuse c htask hguesses hnext =>
    rw [credit_next fun t ht => (hnext t ht).cleared]
    exact Nat.le_add_right_of_le (Nat.le_add_right _ _)
  | prove => exact Nat.le_add_right _ _
  | ask => exact Nat.le_add_right _ _
  | skip account proved =>
    have hearned : credit (some (account, proved)) (accountId, version) ≤
        (clears accountId version ⟨db, .proved account proved, db,
          some (.openSession account proved proved)⟩).toNat := by
      refine credit_le fun h => Bool.or_eq_true_iff.mpr (Or.inl ?_)
      obtain ⟨rfl, rfl⟩ := Prod.mk.inj (Option.some_inj.mp h)
      simp [passesSecondFactor]
    simp only [Option.map_some, Option.getD_some, AuthTask.cleared, Bool.toNat_false]
    omega
  | clean _ _ _ hrests =>
    rw [hrests.sessionsOn]
    exact Nat.le_add_right _ _
  | park now row hnew hattempts => exact Nat.le_add_right _ _
  | issue s hnew htries hguesses hcredential hcleared hnext =>
    rw [credit_next fun t ht => (hnext t ht).cleared, hcleared, sessionsOn_insertNew hnew]
    exact Nat.le_add_right _ _
  | count => exact Nat.le_add_right _ _
  | wrongCode => exact Nat.le_add_right _ _
  | rightCode login =>
    have hearned : credit (some (login.accountId, login.version)) (accountId, version) ≤
        (clears accountId version ⟨db, .verifyProof login, db, some (.spend login)⟩).toNat := by
      refine credit_le fun h => Bool.or_eq_true_iff.mpr (Or.inl ?_)
      obtain ⟨rfl, rfl⟩ := Prod.mk.inj (Option.some_inj.mp h)
      simp [passesSecondFactor]
    simp only [Option.map_some, Option.getD_some, AuthTask.cleared, Bool.toNat_false]
    omega
  | spend login spent seen hspent =>
    obtain ⟨hmem, hid⟩ := Table.find_eq_some.mp hspent
    obtain ⟨haccount, hversion⟩ := hkeeps login rfl spent hmem hid
    have hsame : (AuthTask.spent spent seen).cleared = (AuthTask.spend login).cleared := by
      simp only [AuthTask.cleared, haccount, hversion]
    rw [Option.map_some, Option.getD_some, hsame]
    exact Nat.le_add_right _ _
  | openSpent login seen => exact Nat.le_add_right _ _
  | recover change tokenHash now hending hrests =>
    have hsessions := hrests.sessionsOn accountId version
    have hearned : credit (some (change.accountId, db.nextVersion change.accountId))
        (accountId, version) ≤ (clears accountId version ⟨db, .commit change, db',
          some (.recovered change.accountId (db.nextVersion change.accountId))⟩).toNat :=
      credit_le fun h => Bool.or_eq_true_iff.mpr (Or.inr (commitsRecovery_of_ending hending h))
    simp only [Option.map_some, Option.getD_some, AuthTask.cleared, Bool.toNat_false]
    omega

section Attempts

/-- A counted attempt leaves one code less. -/
theorem codesLeft_countAttempt {r : PendingLogin} (hr : r ∈ db.pendingLogins)
    (hattempts : r.attempts < twoFactorChallengeMaxAttempts) (id : Uuid) :
    (LoginService.countAttempt db r).codesLeft id + credit (some r.id) id = db.codesLeft id := by
  simp only [AuthDb.codesLeft, LoginService.countAttempt, Table.find_update]
  by_cases hid : r.id = id
  · have hfind : db.pendingLogins.find id = some r := Table.find_eq_some.mpr ⟨hr, hid⟩
    simp only [hfind, Option.map_some, Option.getD_some, decide_true, if_true, credit, hid]
    omega
  · have hcredit : credit (some r.id) id = 0 := if_neg fun h => hid (Option.some_inj.mp h)
    rw [hcredit, Nat.add_zero]
    cases hfind : db.pendingLogins.find id with
    | none => rfl
    | some login =>
      have hother : ¬ login.id = r.id := fun heq => hid (heq ▸ (Table.find_eq_some.mp hfind).2)
      simp [hother]

/-- A login that is parked may try five codes. -/
theorem codesLeft_park {row : PendingLogin} (hnew : ∀ x ∈ db.pendingLogins, x.id ≠ row.id)
    (hattempts : row.attempts = 0) (id : Uuid) :
    AuthDb.codesLeft { db with pendingLogins := db.pendingLogins.insertNew row } id =
      db.codesLeft id + twoFactorChallengeMaxAttempts * credit (some row.id) id := by
  simp only [AuthDb.codesLeft, Table.find_insertNew hnew]
  by_cases hid : row.id = id
  · have hfind : db.pendingLogins.find id = none :=
      Table.find_eq_none.mpr fun x hx => hid ▸ hnew x hx
    simp [hid, hfind, hattempts, credit]
  · have hcredit : credit (some row.id) id = 0 := if_neg fun h => hid (Option.some_inj.mp h)
    rw [if_neg hid, hcredit, Nat.mul_zero, Nat.add_zero]

/-- A challenge that is spent no longer waits. -/
theorem challengeCount_take {c : LoginChallenge} (hc : c ∈ db.challenges) (id : Uuid) :
    AuthDb.challengeCount { db with challenges := db.challenges.delete fun x => x.id = c.id } id +
      credit (some c.id) id ≤ db.challengeCount id := by
  by_cases hid : c.id = id
  · obtain rfl := hid
    have hbefore : db.challenges.hasKey c.id = true := Table.hasKey_iff.mpr ⟨c, hc, rfl⟩
    have hafter : (db.challenges.delete fun x => x.id = c.id).hasKey c.id = false :=
      Table.hasKey_eq_false.mpr fun x hx => of_decide_eq_false (Table.mem_delete.mp hx).2
    simp [AuthDb.challengeCount, hbefore, hafter, credit]
  · have hcredit : credit (some c.id) id = 0 := if_neg fun h => hid (Option.some_inj.mp h)
    rw [hcredit]
    exact (AuthRests.of_challenges db _).challengeCount id

theorem hasKey_insertNew_self {ρ κ : Type} [DecidableEq κ] {key : ρ → κ} {t : Table key} {r : ρ}
    (hnew : ∀ x ∈ t, key x ≠ key r) {k : κ} (h : some (key r) = some k) :
    (!t.hasKey k && (t.insertNew r).hasKey k) = true := by
  obtain rfl := Option.some_inj.mp h
  rw [Table.hasKey_eq_false.mpr hnew, (Table.hasKey_insertNew hnew _).mpr (Or.inr rfl)]
  rfl

end Attempts

theorem code_budget (crypto : LoginCrypto) (id : Uuid) :
    Budget (authProgram crypto) (fun db => db.codesLeft id) (fun task => credit task.guesses id)
      (parksLogin id) (checksCode id) twoFactorChallengeMaxAttempts := by
  refine ⟨fun {db task} hstart => ?_, ?_⟩
  · rw [(plain_of_isRequest hstart).guesses, credit_none]
  rintro db task db' next ⟨draw, h⟩
  have hmove := proceed_moves h
  clear h
  rw [checksCode, toNat_decide]
  cases hmove with
  | rest hrests htries hguesses hnext =>
    rw [credit_next fun t ht => (hnext t ht).guesses, hguesses]
    exact Nat.le_add_right_of_le (Nat.add_le_add_right (hrests.codesLeft id) _)
  | handOut row hnew htask =>
    rw [htask.guesses]
    exact Nat.le_add_right _ _
  | take c hc htask hnext hguesses hcredential hcleared =>
    rw [Option.map_some, Option.getD_some, hguesses, htask.guesses]
    exact Nat.le_add_right _ _
  | refuse c htask hguesses hnext =>
    rw [credit_next fun t ht => (hnext t ht).guesses, hguesses]
    exact Nat.le_add_right _ _
  | prove => exact Nat.le_add_right _ _
  | ask => exact Nat.le_add_right _ _
  | skip => exact Nat.le_add_right _ _
  | clean _ _ _ hrests => exact Nat.le_add_right_of_le (hrests.codesLeft id)
  | park now row hnew hattempts =>
    have hparked := codesLeft_park hnew hattempts id
    have hearned : credit (some row.id) id ≤ (parksLogin id ⟨db,
        .park row.accountId row.version now,
        { db with pendingLogins := db.pendingLogins.insertNew row }, none⟩).toNat :=
      credit_le fun h => hasKey_insertNew_self hnew h
    have htimes := Nat.mul_le_mul_left twoFactorChallengeMaxAttempts hearned
    simp only [Option.map_none, Option.getD_none, AuthTask.guesses, credit_none]
    omega
  | issue s hnew htries hguesses hcredential hcleared hnext =>
    rw [credit_next fun t ht => (hnext t ht).guesses, hguesses]
    exact Nat.le_add_right _ _
  | count token r hr hattempts =>
    have hcounted := codesLeft_countAttempt hr hattempts id
    simp only [Option.map_some, Option.getD_some, AuthTask.guesses, credit_none]
    omega
  | wrongCode => exact Nat.le_add_right _ _
  | rightCode => exact Nat.le_add_right _ _
  | spend login spent seen hspent =>
    exact Nat.le_add_right_of_le ((AuthRests.of_pending db _).codesLeft id)
  | openSpent => exact Nat.le_add_right _ _
  | recover change tokenHash now hending hrests =>
    exact Nat.le_add_right_of_le (hrests.codesLeft id)

theorem challenge_budget (crypto : LoginCrypto) (id : Uuid) :
    Budget (authProgram crypto) (fun db => db.challengeCount id) (fun task => credit task.tries id)
      (handsOut id) (checksProof id) 1 := by
  refine ⟨fun {db task} hstart => ?_, ?_⟩
  · rw [(plain_of_isRequest hstart).tries, credit_none]
  rintro db task db' next ⟨draw, h⟩
  have hmove := proceed_moves h
  clear h
  rw [checksProof, toNat_decide]
  cases hmove with
  | rest hrests htries hguesses hnext =>
    rw [credit_next fun t ht => (hnext t ht).tries, htries]
    exact Nat.le_add_right_of_le (Nat.add_le_add_right (hrests.challengeCount id) _)
  | handOut row hnew htask =>
    have hearned : ∀ before after : Bool,
        after.toNat ≤ before.toNat + (!before && after).toNat := by decide
    rw [htask.tries, Nat.one_mul]
    exact hearned _ _
  | take c hc htask hnext hguesses hcredential hcleared =>
    have hleft := challengeCount_take hc id
    simp only [Option.map_some, Option.getD_some, hnext, htask.tries, credit_none]
    omega
  | refuse c htask hguesses hnext =>
    rw [credit_next fun t ht => (hnext t ht).tries, htask]
    exact Nat.le_add_right _ _
  | prove => exact Nat.le_add_right _ _
  | ask => exact Nat.le_add_right _ _
  | skip => exact Nat.le_add_right _ _
  | clean _ _ _ hrests => exact Nat.le_add_right_of_le (hrests.challengeCount id)
  | park => exact Nat.le_add_right _ _
  | issue s hnew htries hguesses hcredential hcleared hnext =>
    rw [credit_next fun t ht => (hnext t ht).tries, htries]
    exact Nat.le_add_right _ _
  | count => exact Nat.le_add_right _ _
  | wrongCode => exact Nat.le_add_right _ _
  | rightCode => exact Nat.le_add_right _ _
  | spend => exact Nat.le_add_right _ _
  | openSpent => exact Nat.le_add_right _ _
  | recover change tokenHash now hending hrests =>
    exact Nat.le_add_right_of_le (hrests.challengeCount id)

section Runs

variable {start : AuthDb} {tasks : List AuthTask} {trace : List AuthAct}

/-- **Every session rests on a proof.** However the requests interleave, a run leaves no more
sessions and pending logins for a version of an account's verifier than there were, than proofs
were accepted against that version, and than recoveries committed that set it. -/
theorem sessions_rest_on_proofs
    (hrun : Logged (authProgram crypto) ⟨start, []⟩ trace ⟨db, tasks⟩) (accountId : Uuid)
    (version : ℕ) : db.sessionsOn accountId version + db.pendingOn accountId version ≤
      start.sessionsOn accountId version + start.pendingOn accountId version +
        trace.countP (acceptsProof crypto accountId version) +
          trace.countP (commitsRecovery accountId version) := by
  have hall := (session_budget crypto accountId version).run_idle hrun
  have hsplit : trace.countP (vouches crypto accountId version) ≤
      trace.countP (acceptsProof crypto accountId version) +
        trace.countP (commitsRecovery accountId version) := countP_or_le _ _ _
  dsimp only at hall
  omega

/-- No session of a version of a verifier passes the second factor unasked: each rests on a login
that found it off, on one whose code was right, or on a recovery. -/
theorem sessions_pass_secondFactor
    (hrun : Logged ((authProgram crypto).when KeepsLogin) ⟨start, []⟩ trace ⟨db, tasks⟩)
    (accountId : Uuid) (version : ℕ) :
    db.sessionsOn accountId version ≤ start.sessionsOn accountId version +
      trace.countP (passesSecondFactor accountId version) +
        trace.countP (commitsRecovery accountId version) := by
  have hall := (cleared_budget crypto accountId version).run_idle hrun
  have hsplit : trace.countP (clears accountId version) ≤
      trace.countP (passesSecondFactor accountId version) +
        trace.countP (commitsRecovery accountId version) := countP_or_le _ _ _
  dsimp only at hall
  omega

/-- However the requests interleave, a challenge is tried once for each time it was handed out, and
a pending login takes five codes for each time it was parked. -/
theorem attempts_bounded (hrun : Logged (authProgram crypto) ⟨start, []⟩ trace ⟨db, tasks⟩)
    (id : Uuid) :
    trace.countP (checksProof id) ≤ start.challengeCount id + trace.countP (handsOut id) ∧
      trace.countP (checksCode id) ≤
        start.codesLeft id + twoFactorChallengeMaxAttempts * trace.countP (parksLogin id) := by
  have hproofs := (challenge_budget crypto id).run_idle hrun
  have hcodes := (code_budget crypto id).run_idle hrun
  dsimp only at hproofs hcodes
  constructor <;> omega

end Runs

namespace StaleLogin

/-- The steps to a proof that holds. -/
def provedTrace : List AuthAct :=
  let db := database oldKey 0 changeChallenge twoSessions []
  let checked := .finishSelect (challenge oldKey 10) srpA (srpM1 oldKey)
  [⟨db, checked, db, some (.proved 1 0)⟩,
    ⟨StaleLogin.start, .finish 10 srpA (srpM1 oldKey), db, some checked⟩]

theorem keepsLogin_of_ne {db : AuthDb} {task : AuthTask} (h : ∀ login, task ≠ .spend login) :
    KeepsLogin db task := fun login htask => absurd htask (h login)

/-- What the requests of a run have done. -/
abbrev LoggedLogin (trace : List AuthAct) (db : AuthDb) (tasks : List AuthTask) : Prop :=
  Logged ((authProgram services).when KeepsLogin) ⟨StaleLogin.start, []⟩ trace ⟨db, tasks⟩

theorem proved_logged : LoggedLogin provedTrace (database oldKey 0 changeChallenge twoSessions [])
    [.proved 1 0] := by
  have hinitial : LoggedLogin [] StaleLogin.start [] := .refl
  have hstart : LoggedLogin [] StaleLogin.start [.finish 10 srpA (srpM1 oldKey)] :=
    hinitial.start rfl
  have hspent := hstart.next ⟨keepsLogin_of_ne (by rintro _ ⟨⟩), draw 0, finish_step 10 rfl rfl⟩
  exact hspent.next ⟨keepsLogin_of_ne (by rintro _ ⟨⟩), draw 0, finishSelect_step 10 rfl⟩

/-- The steps of a login of an account without a second factor. -/
theorem login_logged : ∃ trace db, LoggedLogin trace db [] ∧ db.sessionsOn 1 0 = 3 := by
  have hasked := proved_logged.next ⟨keepsLogin_of_ne (by rintro _ ⟨⟩), draw 0, rfl⟩
  have hissued := hasked.last ⟨keepsLogin_of_ne (by rintro _ ⟨⟩), draw 6, rfl⟩
  exact ⟨_, _, hissued, rfl⟩

theorem sessions_rest_on_proofs_login : ∃ (trace : List AuthAct) (db : AuthDb),
    db.sessionsOn 1 0 = 3 ∧
    db.sessionsOn 1 0 + db.pendingOn 1 0 ≤
      StaleLogin.start.sessionsOn 1 0 + StaleLogin.start.pendingOn 1 0 +
        trace.countP (acceptsProof services 1 0) + trace.countP (commitsRecovery 1 0) := by
  obtain ⟨trace, db, hrun, hcount⟩ := login_logged
  exact ⟨trace, db, hcount, sessions_rest_on_proofs hrun.of_when 1 0⟩

/-- A login waits for its second factor. -/
def parked (attempts : ℕ) : AuthDb :=
  { database oldKey 0 changeChallenge twoSessions [] with
    pendingLogins := Table.empty.insertNew ⟨8, 1, 0, attempts, twoFactorChallengeTtl, 0⟩ }

/-- It is parked, a wrong code is sent, and then the right one. -/
theorem secondFactor_logged : ∃ trace db, LoggedLogin trace db [] ∧
    trace.countP (checksCode 8) = 2 ∧ trace.countP (passesSecondFactor 1 0) = 1 ∧
      db.sessionsOn 1 0 = 3 := by
  have hasked : LoggedLogin _ (database oldKey 0 changeChallenge twoSessions []) [.clean 1 0 0] :=
    proved_logged.next
      ⟨keepsLogin_of_ne (by rintro _ ⟨⟩), { draw 0 with enabled := true }, rfl⟩
  have hcleaned : LoggedLogin _ (database oldKey 0 changeChallenge twoSessions []) [.park 1 0 0] :=
    hasked.next ⟨keepsLogin_of_ne (by rintro _ ⟨⟩), draw 0, rfl⟩
  have hparked : LoggedLogin _ (parked 0) [] :=
    hcleaned.last ⟨keepsLogin_of_ne (by rintro _ ⟨⟩), draw 8, rfl⟩
  have hwrong : LoggedLogin _ (parked 0) [.finishTwoFactor ""] := hparked.start rfl
  have hcounted : LoggedLogin _ (parked 1)
      [.verifyProof ⟨8, 1, 0, 1, twoFactorChallengeTtl, 0⟩] :=
    hwrong.next ⟨keepsLogin_of_ne (by rintro _ ⟨⟩), draw 0, rfl⟩
  have hrefused : LoggedLogin _ (parked 1) [] :=
    hcounted.last ⟨keepsLogin_of_ne (by rintro _ ⟨⟩), draw 0, rfl⟩
  have hright : LoggedLogin _ (parked 1) [.finishTwoFactor ""] := hrefused.start rfl
  have hagain : LoggedLogin _ (parked 2)
      [.verifyProof ⟨8, 1, 0, 2, twoFactorChallengeTtl, 0⟩] :=
    hright.next ⟨keepsLogin_of_ne (by rintro _ ⟨⟩), draw 0, rfl⟩
  have haccepted : LoggedLogin _ (parked 2) [.spend ⟨8, 1, 0, 2, twoFactorChallengeTtl, 0⟩] :=
    hagain.next ⟨keepsLogin_of_ne (by rintro _ ⟨⟩), { draw 0 with accepted := true }, rfl⟩
  have hkept : KeepsLogin (parked 2) (.spend ⟨8, 1, 0, 2, twoFactorChallengeTtl, 0⟩) := by
    rintro login ⟨⟩
    decide
  have hspent : LoggedLogin _ (database oldKey 0 changeChallenge twoSessions [])
      [.spent ⟨8, 1, 0, 2, twoFactorChallengeTtl, 0⟩ 0] := haccepted.next ⟨hkept, draw 0, rfl⟩
  have hread : LoggedLogin _ (database oldKey 0 changeChallenge twoSessions [])
      [.openSession 1 0 0] := hspent.next ⟨keepsLogin_of_ne (by rintro _ ⟨⟩), draw 0, rfl⟩
  have hissued := hread.last ⟨keepsLogin_of_ne (by rintro _ ⟨⟩), draw 6, rfl⟩
  exact ⟨_, _, hissued, rfl, rfl, rfl⟩

theorem sessions_pass_secondFactor_code : ∃ (trace : List AuthAct) (db : AuthDb),
    trace.countP (checksCode 8) = 2 ∧ trace.countP (passesSecondFactor 1 0) = 1 ∧
    db.sessionsOn 1 0 = 3 ∧
    db.sessionsOn 1 0 ≤ StaleLogin.start.sessionsOn 1 0 +
      trace.countP (passesSecondFactor 1 0) + trace.countP (commitsRecovery 1 0) := by
  obtain ⟨trace, db, hrun, hcodes, hpassed, hcount⟩ := secondFactor_logged
  exact ⟨trace, db, hcodes, hpassed, hcount, sessions_pass_secondFactor hrun 1 0⟩

theorem attempts_bounded_login : ∃ trace : List AuthAct,
    trace.countP (checksProof 10) ≤
        StaleLogin.start.challengeCount 10 + trace.countP (handsOut 10) ∧
      trace.countP (checksCode 10) ≤ StaleLogin.start.codesLeft 10 +
        twoFactorChallengeMaxAttempts * trace.countP (parksLogin 10) := by
  obtain ⟨trace, db, hrun, -⟩ := login_logged
  exact ⟨trace, attempts_bounded hrun.of_when 10⟩

end StaleLogin

end Zvault
