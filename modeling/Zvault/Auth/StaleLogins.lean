import Zvault.Auth.Login
import Zvault.Srp.Agreement

/-!
# Logins that passed the old password

A password change deletes the pending logins in its transaction and signs out
the other sessions after it. A login that is between its reads and its write
escapes both. `AuthOrderly` is what such a login would have to find; as long as
every step does, no session outlives the password it rests on.
-/

namespace Zvault

open Relational Concurrent

variable {crypto : LoginCrypto} {db db' : AuthDb}

/-- A login parks on the verifier its proof was checked against, before any change of it has
deleted the pending logins; and no change it has not seen has signed the other sessions out when
a session is issued. -/
def AuthOrderly (db : AuthDb) : AuthTask → Prop
  | .park accountId version _ => (∀ a ∈ db.accounts, a.id = accountId → a.version = version) ∧
    ∀ c ∈ db.changes, c.accountId = accountId → c.logins = none
  | .openSession accountId _ seen => ∀ c ∈ db.signedOut, c.accountId = accountId → c.version ≤ seen
  | .recovered accountId version =>
    ∀ c ∈ db.signedOut, c.accountId = accountId → c.version ≤ version
  | _ => True

/-- A pending login rests on its account's verifier, and a change that has deleted the pending
logins has deleted it. -/
structure PendingLogin.Current (db : AuthDb) (r : PendingLogin) : Prop where
  version : ∀ a ∈ db.accounts, a.id = r.accountId → a.version = r.version
  dropped : ∀ c ∈ db.changes, c.accountId = r.accountId → ∀ ids ∈ c.logins, r.id ∈ ids

/-- The invariant. -/
structure LoginsCurrent (db : AuthDb) : Prop where
  pending : ∀ r ∈ db.pendingLogins, r.Current db
  signedOut : ∀ c ∈ db.signedOut, ∀ s ∈ db.sessions, s.accountId = c.accountId →
    s.revokedAt = none → s.id = c.keep ∨ c.version ≤ s.version

/-- What an orderly step can do. A commit releases its account's row. -/
inductive AuthEffect (db : AuthDb) : AuthDb → Option Uuid → Prop
  | quiet (db' : AuthDb) (hpending : ∀ r ∈ db'.pendingLogins, ∃ old ∈ db.pendingLogins,
        old.id = r.id ∧ old.accountId = r.accountId ∧ old.version = r.version)
      (haccounts : db'.accounts = db.accounts) (hchanges : db'.changes = db.changes)
      (hsessions : db'.sessions = db.sessions) (hsigned : db'.signedOut = db.signedOut) :
      AuthEffect db db' none
  | park (r : PendingLogin) (hversion : ∀ a ∈ db.accounts, a.id = r.accountId →
        a.version = r.version)
      (hchange : ∀ c ∈ db.changes, c.accountId = r.accountId → c.logins = none) :
      AuthEffect db { db with pendingLogins := db.pendingLogins.insertNew r } none
  | issue (s : LoginSession)
      (hsigned : ∀ c ∈ db.signedOut, c.accountId = s.accountId → c.version ≤ s.version) :
      AuthEffect db { db with sessions := db.sessions.insertNew s } none
  | update (c : OpenChange) (hlogins : c.logins = none) :
      AuthEffect db { db with changes := db.changes.insertNew c } none
  | dropChallenges (accountId : Uuid) (ids : List Uuid) :
      AuthEffect db { db with
        changes := db.changes.update (fun c => c.accountId = accountId) fun c =>
          { c with challenges := ids } } none
  | dropLogins (accountId : Uuid) (ids : List Uuid)
      (hids : ∀ r ∈ db.pendingLogins, r.accountId = accountId → r.id ∈ ids) :
      AuthEffect db { db with
        changes := db.changes.update (fun c => c.accountId = accountId) fun c =>
          { c with logins := some ids } } none
  | commit (db' : AuthDb) (accountId : Uuid) (ids : List Uuid)
      (hdropped : ∃ c ∈ db.changes, c.accountId = accountId ∧ c.logins = some ids)
      (haccounts : ∀ a ∈ db'.accounts, a.id ≠ accountId → a ∈ db.accounts)
      (hpending : db'.pendingLogins = db.pendingLogins.delete fun r => r.id ∈ ids)
      (hchanges : db'.changes = db.changes.delete fun c => c.accountId = accountId)
      (hsessions : db'.sessions = db.sessions) (hsigned : db'.signedOut = db.signedOut) :
      AuthEffect db db' (some accountId)
  | signOut (accountId keep : Uuid) (version : ℕ) (now : Timestamp) :
      AuthEffect db { SessionStore.revokeAllExcept db accountId keep now with
        signedOut := ⟨accountId, keep, version⟩ :: db.signedOut } none

/-- The account whose row a request's transaction holds, and whether it has deleted the pending
logins. -/
def AuthTask.holds : AuthTask → Option (Uuid × Bool)
  | .dropChallenges change => some (change.accountId, false)
  | .dropLogins change => some (change.accountId, false)
  | .commit change => some (change.accountId, true)
  | _ => none

/-- What a login was last known to be good for is not newer than its proof. -/
def AuthTask.SeenLe : AuthTask → Prop
  | .openSession _ version seen => seen ≤ version
  | .spent login seen => seen ≤ login.version
  | _ => True

/-- What a waiting request relies on. -/
structure AuthTask.Waits (db : AuthDb) (task : AuthTask) : Prop where
  held : ∀ accountId dropped, task.holds = some (accountId, dropped) →
    ∃ c ∈ db.changes, c.accountId = accountId ∧ (dropped = true → c.logins.isSome)
  seen : task.SeenLe

/-- Two transactions hold the rows of two accounts. -/
def AuthTask.Apart (t u : AuthTask) : Prop :=
  ∀ accountId d d', t.holds = some (accountId, d) → u.holds ≠ some (accountId, d')

/-- The next state of a request: it holds a row that the request held, or that was free. -/
structure AuthNext (db db' : AuthDb) (task next : AuthTask) : Prop where
  holds : ∀ accountId d, next.holds = some (accountId, d) →
    (∃ d', task.holds = some (accountId, d')) ∨ ∀ c ∈ db.changes, c.accountId ≠ accountId
  waits : next.Waits db'

/-- The account whose row a step releases. -/
def AuthTask.releases : AuthTask → Option Uuid
  | .commit change => some change.accountId
  | _ => none

section Effects

variable {released : Option Uuid}

theorem AuthEffect.refl (db : AuthDb) : AuthEffect db db none :=
  .quiet db (fun r hr => ⟨r, hr, rfl, rfl, rfl⟩) rfl rfl rfl rfl

/-- A step that only touches challenges. -/
theorem AuthEffect.of_challenges (db : AuthDb) (challenges : Table LoginChallenge.id) :
    AuthEffect db { db with challenges } none :=
  .quiet _ (fun r hr => ⟨r, hr, rfl, rfl, rfl⟩) rfl rfl rfl rfl

/-- Deleting pending logins. -/
theorem AuthEffect.of_delete (db : AuthDb) (p : PendingLogin → Bool) :
    AuthEffect db { db with pendingLogins := db.pendingLogins.delete p } none :=
  .quiet _ (fun r hr => ⟨r, (Table.mem_delete.mp hr).1, rfl, rfl, rfl⟩) rfl rfl rfl rfl

theorem AuthEffect.countAttempt (db : AuthDb) (login : PendingLogin) :
    AuthEffect db (LoginService.countAttempt db login) none := by
  refine .quiet _ (fun r hr => ?_) rfl rfl rfl rfl
  simp only [LoginService.countAttempt, Table.mem_update] at hr
  obtain ⟨old, hold, rfl⟩ := hr
  refine ⟨old, hold, ?_⟩
  split
  · exact ⟨rfl, rfl, rfl⟩
  · exact ⟨rfl, rfl, rfl⟩

theorem park_effect {draw : LoginDraw} {accountId : Uuid} {version : ℕ} {now : Timestamp}
    (horderly : AuthOrderly db (.park accountId version now)) :
    AuthEffect db (LoginService.park crypto db draw accountId version now).1 none := by
  unfold LoginService.park
  split
  · exact .refl db
  · exact .park _ horderly.1 horderly.2

theorem issue_effect {draw : LoginDraw} {accountId : Uuid} {version : ℕ}
    (hsigned : ∀ c ∈ db.signedOut, c.accountId = accountId → c.version ≤ version)
    (h : SessionStore.issue crypto db draw accountId version = some db') :
    AuthEffect db db' none := by
  unfold SessionStore.issue at h
  split at h
  · cases h
  · obtain rfl := Option.some_inj.mp h
    exact .issue _ hsigned

/-- A transaction starts on a row that no other one holds. -/
theorem update_cases {change : PasswordChange} {next : Option AuthTask}
    (h : RecoveryService.update db change = some (db', next)) :
    (db' = db ∧ next = none) ∨
      (∀ c ∈ db.changes, c.accountId ≠ change.accountId) ∧
        db' = { db with changes := db.changes.insertNew ⟨change.accountId, [], none⟩ } ∧
        next = some (.dropChallenges change) := by
  unfold RecoveryService.update at h
  split at h
  · cases h
  rename_i hfree
  have hfree := Table.hasKey_eq_false.mp (by simpa using hfree)
  split at h
  · obtain ⟨rfl, rfl⟩ := Prod.mk.inj (Option.some_inj.mp h)
    exact Or.inl ⟨rfl, rfl⟩
  · split at h
    · obtain ⟨rfl, rfl⟩ := Prod.mk.inj (Option.some_inj.mp h)
      exact Or.inl ⟨rfl, rfl⟩
    · obtain ⟨rfl, rfl⟩ := Prod.mk.inj (Option.some_inj.mp h)
      exact Or.inr ⟨hfree, rfl, rfl⟩

theorem commit_effect {change : PasswordChange} {next : Option AuthTask}
    (hheld : ∃ c ∈ db.changes, c.accountId = change.accountId ∧ c.logins.isSome)
    (h : RecoveryService.commit db change = (db', next)) :
    AuthEffect db db' (some change.accountId) ∧
      ∀ task ∈ next, task.holds = none ∧ task.SeenLe := by
  obtain ⟨c, hc, hid, hsome⟩ := hheld
  obtain ⟨ids, hids⟩ := Option.isSome_iff_exists.mp hsome
  have hfind : db.changes.find change.accountId = some c := Table.find_eq_some.mpr ⟨hc, hid⟩
  have haccounts : ∀ version : ℕ, ∀ a ∈ db.accounts.update (fun a => a.id = change.accountId)
      (fun a => { a with salt := change.salt, srpVerifier := change.srpVerifier, version }),
      a.id ≠ change.accountId → a ∈ db.accounts := by
    intro version a ha hne
    obtain ⟨old, hold, rfl⟩ := Table.mem_update.mp ha
    split at hne
    · rename_i heq
      exact absurd (by simpa using heq) hne
    · rename_i heq
      rwa [if_neg heq]
  unfold RecoveryService.commit at h
  simp only [hfind, Option.getD_some, hids] at h
  split at h
  · obtain ⟨rfl, rfl⟩ := Prod.mk.inj h
    refine ⟨.commit _ _ ids ⟨c, hc, hid, hids⟩ (haccounts _) rfl rfl rfl rfl, ?_⟩
    rintro task ⟨⟩
    exact ⟨rfl, trivial⟩
  · obtain ⟨rfl, rfl⟩ := Prod.mk.inj h
    refine ⟨.commit _ _ ids ⟨c, hc, hid, hids⟩ (haccounts _) rfl rfl rfl rfl, ?_⟩
    rintro task ⟨⟩
    exact ⟨rfl, trivial⟩

/-- A change that another one's step finds is still there after it. -/
theorem AuthEffect.held (h : AuthEffect db db' released) {accountId : Uuid} {dropped : Bool}
    (hne : released ≠ some accountId)
    (hheld : ∃ c ∈ db.changes, c.accountId = accountId ∧ (dropped = true → c.logins.isSome)) :
    ∃ c ∈ db'.changes, c.accountId = accountId ∧ (dropped = true → c.logins.isSome) := by
  obtain ⟨c, hc, hid, hdropped⟩ := hheld
  cases h with
  | quiet _ _ _ hchanges => exact ⟨c, hchanges ▸ hc, hid, hdropped⟩
  | park => exact ⟨c, hc, hid, hdropped⟩
  | issue => exact ⟨c, hc, hid, hdropped⟩
  | update => exact ⟨c, Table.mem_insertNew.mpr (Or.inl hc), hid, hdropped⟩
  | dropChallenges other ids =>
    simp only [Table.mem_update]
    refine ⟨_, ⟨c, hc, rfl⟩, ?_⟩
    split
    · exact ⟨hid, hdropped⟩
    · exact ⟨hid, hdropped⟩
  | dropLogins other ids =>
    simp only [Table.mem_update]
    refine ⟨_, ⟨c, hc, rfl⟩, ?_⟩
    split
    · exact ⟨hid, fun _ => rfl⟩
    · exact ⟨hid, hdropped⟩
  | commit _ other ids _ _ _ hchanges =>
    refine ⟨c, ?_, hid, hdropped⟩
    rw [hchanges]
    refine Table.mem_delete.mpr ⟨hc, decide_eq_false ?_⟩
    rintro rfl
    exact hne (congrArg some hid)
  | signOut => exact ⟨c, hc, hid, hdropped⟩

/-- A state that holds no row. -/
theorem AuthNext.of_free {task next : AuthTask} (hholds : next.holds = none) (hseen : next.SeenLe) :
    AuthNext db db' task next where
  holds accountId d h := by
    rw [hholds] at h
    cases h
  waits := by
    refine ⟨fun accountId d h => ?_, hseen⟩
    rw [hholds] at h
    cases h

/-- An orderly step of a waiting request has one of the effects, and leads to a state that may
rely on it. -/
theorem proceed_cases {draw : LoginDraw} {task : AuthTask} {next : Option AuthTask}
    (hinv : LoginsCurrent db) (hwaits : task.Waits db) (horderly : AuthOrderly db task)
    (h : task.proceed crypto db draw = some (db', next)) :
    AuthEffect db db' task.releases ∧ ∀ later ∈ next, AuthNext db db' task later := by
  cases task with
  | start email =>
    simp only [AuthTask.proceed] at h
    split at h
    · cases h
    · obtain ⟨rfl, rfl⟩ := Prod.mk.inj (Option.some_inj.mp h)
      exact ⟨.of_challenges db _, by rintro _ ⟨⟩; exact .of_free rfl trivial⟩
  | startSelect email =>
    have h := Option.some_inj.mp h
    unfold LoginService.startSelect at h
    extract_lets account verifier at h
    split at h <;> obtain ⟨rfl, rfl⟩ := Prod.mk.inj h
    · exact ⟨.refl db, by rintro _ ⟨⟩⟩
    · exact ⟨.refl db, by rintro _ ⟨⟩; exact .of_free rfl trivial⟩
  | startInsert accountId email challenge =>
    have h := Option.some_inj.mp h
    simp only [LoginService.startInsert] at h
    split at h <;> obtain ⟨rfl, rfl⟩ := Prod.mk.inj h
    · exact ⟨.refl db, by rintro _ ⟨⟩⟩
    · exact ⟨.of_challenges db _, by rintro _ ⟨⟩⟩
  | finish loginId srpA srpM1 =>
    simp only [AuthTask.proceed, LoginService.takeChallenge] at h
    split at h
    · cases h
    · split at h <;> rename_i heq <;> obtain ⟨rfl, -⟩ := Prod.mk.inj heq <;>
        obtain ⟨rfl, rfl⟩ := Prod.mk.inj (Option.some_inj.mp h)
      · exact ⟨.of_challenges db _, by rintro _ ⟨⟩⟩
      · exact ⟨.of_challenges db _, by rintro _ ⟨⟩; exact .of_free rfl trivial⟩
  | finishSelect challenge srpA srpM1 =>
    have h := Option.some_inj.mp h
    simp only [LoginService.finishSelect] at h
    split at h
    · obtain ⟨rfl, rfl⟩ := Prod.mk.inj h
      exact ⟨.refl db, by rintro _ ⟨⟩⟩
    · split at h <;> obtain ⟨rfl, rfl⟩ := Prod.mk.inj h
      · exact ⟨.refl db, by rintro _ ⟨⟩; exact .of_free rfl trivial⟩
      · exact ⟨.refl db, by rintro _ ⟨⟩⟩
  | proved accountId version =>
    obtain ⟨rfl, rfl⟩ := Prod.mk.inj (Option.some_inj.mp h)
    refine ⟨.refl db, ?_⟩
    rintro _ ⟨⟩
    split
    · exact .of_free rfl trivial
    · exact .of_free rfl (Nat.le_refl _)
  | clean accountId version now =>
    simp only [AuthTask.proceed] at h
    split at h
    · cases h
    · obtain ⟨rfl, rfl⟩ := Prod.mk.inj (Option.some_inj.mp h)
      exact ⟨.of_delete db _, by rintro _ ⟨⟩; exact .of_free rfl trivial⟩
  | park accountId version now =>
    have hpark : AuthEffect db (LoginService.park crypto db draw accountId version now).1 none :=
      park_effect horderly
    have h := Option.some_inj.mp h
    unfold LoginService.park at h hpark
    split at h
    · obtain ⟨rfl, rfl⟩ := Prod.mk.inj h
      exact ⟨.refl db, by rintro _ ⟨⟩⟩
    · rename_i hfree
      rw [if_neg hfree] at hpark
      obtain ⟨rfl, rfl⟩ := Prod.mk.inj h
      exact ⟨hpark, by rintro _ ⟨⟩⟩
  | openSession accountId version seen =>
    have h := Option.some_inj.mp h
    unfold LoginService.openSession at h
    obtain ⟨rfl, rfl⟩ := Prod.mk.inj h
    refine ⟨?_, by rintro _ ⟨⟩⟩
    cases hissue : SessionStore.issue crypto db draw accountId version with
    | none => exact .refl db
    | some db' =>
      exact issue_effect (fun c hc hid => Nat.le_trans (horderly c hc hid) hwaits.seen) hissue
  | finishTwoFactor token =>
    simp only [AuthTask.proceed] at h
    split at h
    · obtain ⟨rfl, rfl⟩ := Prod.mk.inj (Option.some_inj.mp h)
      exact ⟨.refl db, by rintro _ ⟨⟩⟩
    · split at h
      · cases h
      · obtain ⟨rfl, rfl⟩ := Prod.mk.inj (Option.some_inj.mp h)
        exact ⟨.countAttempt db _, by rintro _ ⟨⟩; exact .of_free rfl trivial⟩
  | verifyProof login =>
    obtain ⟨rfl, rfl⟩ := Prod.mk.inj (Option.some_inj.mp h)
    refine ⟨.refl db, fun later hlater => ?_⟩
    split at hlater
    · obtain rfl := Option.some_inj.mp hlater
      exact .of_free rfl trivial
    · cases hlater
  | spend login =>
    simp only [AuthTask.proceed, LoginService.spend] at h
    split at h
    · cases h
    · split at h <;> obtain ⟨rfl, rfl⟩ := Prod.mk.inj (Option.some_inj.mp h)
      · exact ⟨.of_delete db _, by rintro _ ⟨⟩⟩
      · rename_i spent hspent
        refine ⟨.of_delete db _, ?_⟩
        rintro _ ⟨⟩
        refine .of_free rfl ?_
        -- the pending login rests on the verifier the account has now
        change ((db.accounts.find spent.accountId).map LoginAccount.version).getD 0 ≤ spent.version
        cases haccount : db.accounts.find spent.accountId with
        | none => exact Nat.zero_le _
        | some account =>
          obtain ⟨hmem, hid⟩ := Table.find_eq_some.mp haccount
          have hcurrent := hinv.pending spent (Table.find_eq_some.mp hspent).1
          exact Nat.le_of_eq (hcurrent.version account hmem hid)
  | spent login seen =>
    obtain ⟨rfl, rfl⟩ := Prod.mk.inj (Option.some_inj.mp h)
    refine ⟨.refl db, fun later hlater => ?_⟩
    obtain ⟨account, -, rfl⟩ := Option.map_eq_some_iff.mp hlater
    exact .of_free rfl hwaits.seen
  | changePassword change loginId srpA srpM1 =>
    simp only [AuthTask.proceed, LoginService.takeChallenge] at h
    split at h
    · obtain ⟨rfl, rfl⟩ := Prod.mk.inj (Option.some_inj.mp h)
      exact ⟨.refl db, by rintro _ ⟨⟩⟩
    split at h
    · cases h
    split at h
    · rename_i heq
      obtain ⟨rfl, -⟩ := Prod.mk.inj heq
      obtain ⟨rfl, rfl⟩ := Prod.mk.inj (Option.some_inj.mp h)
      exact ⟨.of_challenges db _, by rintro _ ⟨⟩⟩
    · rename_i heq
      obtain ⟨rfl, -⟩ := Prod.mk.inj heq
      split at h <;> obtain ⟨rfl, rfl⟩ := Prod.mk.inj (Option.some_inj.mp h)
      · exact ⟨.of_challenges db _, by rintro _ ⟨⟩⟩
      · exact ⟨.of_challenges db _, by rintro _ ⟨⟩; exact .of_free rfl trivial⟩
  | reauthenticate change challenge srpA srpM1 =>
    have h := Option.some_inj.mp h
    unfold LoginService.reauthenticate at h
    split at h
    · obtain ⟨rfl, rfl⟩ := Prod.mk.inj h
      exact ⟨.refl db, by rintro _ ⟨⟩⟩
    · split at h <;> obtain ⟨rfl, rfl⟩ := Prod.mk.inj h
      · exact ⟨.refl db, by rintro _ ⟨⟩; exact .of_free rfl trivial⟩
      · exact ⟨.refl db, by rintro _ ⟨⟩⟩
  | complete token salt srpVerifier =>
    simp only [AuthTask.proceed] at h
    split at h <;> obtain ⟨rfl, rfl⟩ := Prod.mk.inj (Option.some_inj.mp h)
    · exact ⟨.refl db, by rintro _ ⟨⟩⟩
    · refine ⟨.refl db, fun later hlater => ?_⟩
      obtain ⟨change, -, rfl⟩ := Option.map_eq_some_iff.mp hlater
      exact .of_free rfl trivial
  | secondFactor change =>
    obtain ⟨rfl, rfl⟩ := Prod.mk.inj (Option.some_inj.mp h)
    refine ⟨.refl db, fun later hlater => ?_⟩
    split at hlater
    · cases hlater
    · obtain rfl := Option.some_inj.mp hlater
      exact .of_free rfl trivial
  | update change =>
    rcases update_cases h with ⟨rfl, rfl⟩ | ⟨hfree, rfl, rfl⟩
    · exact ⟨.refl db', by rintro _ ⟨⟩⟩
    · refine ⟨.update _ rfl, ?_⟩
      rintro _ ⟨⟩
      refine ⟨?_, ?_, trivial⟩
      · rintro accountId d ⟨⟩
        exact Or.inr hfree
      · rintro accountId d ⟨⟩
        exact ⟨_, Table.mem_insertNew.mpr (Or.inr ⟨rfl, hfree⟩), rfl, by rintro ⟨⟩⟩
  | dropChallenges change =>
    obtain ⟨rfl, rfl⟩ := Prod.mk.inj (Option.some_inj.mp h)
    have heffect : AuthEffect db (RecoveryService.dropChallenges db change).1 none :=
      .dropChallenges _ _
    refine ⟨heffect, ?_⟩
    rintro _ ⟨⟩
    refine ⟨?_, ?_, trivial⟩
    · rintro accountId d ⟨⟩
      exact Or.inl ⟨_, rfl⟩
    · rintro accountId d ⟨⟩
      exact heffect.held (by rintro ⟨⟩) (hwaits.held _ _ rfl)
  | dropLogins change =>
    obtain ⟨rfl, rfl⟩ := Prod.mk.inj (Option.some_inj.mp h)
    refine ⟨.dropLogins _ _ fun r hr hid => ?_, ?_⟩
    · exact List.mem_map_of_mem (Table.mem_select.mpr ⟨hr, by simpa using hid⟩)
    rintro _ ⟨⟩
    refine ⟨?_, ?_, trivial⟩
    · rintro accountId d ⟨⟩
      exact Or.inl ⟨_, rfl⟩
    · rintro accountId d ⟨⟩
      obtain ⟨c, hc, hid, -⟩ := hwaits.held _ _ rfl
      simp only [Table.mem_update]
      refine ⟨_, ⟨c, hc, rfl⟩, ?_⟩
      simp [hid]
  | commit change =>
    obtain ⟨c, hc, hid, hsome⟩ := hwaits.held _ _ rfl
    obtain ⟨heffect, hnext⟩ := commit_effect ⟨c, hc, hid, hsome rfl⟩ (Option.some_inj.mp h)
    exact ⟨heffect, fun later hlater => .of_free (hnext later hlater).1 (hnext later hlater).2⟩
  | recovered accountId version =>
    have h := Option.some_inj.mp h
    unfold RecoveryService.openSession at h
    split at h
    · obtain ⟨rfl, rfl⟩ := Prod.mk.inj h
      exact ⟨.refl db, by rintro _ ⟨⟩⟩
    · rename_i hissue
      obtain ⟨rfl, rfl⟩ := Prod.mk.inj h
      exact ⟨issue_effect horderly hissue, by rintro _ ⟨⟩; exact .of_free rfl trivial⟩
  | revokeAllExcept accountId keep version =>
    obtain ⟨rfl, rfl⟩ := Prod.mk.inj (Option.some_inj.mp h)
    exact ⟨.signOut _ _ _ _, by rintro _ ⟨⟩⟩

end Effects

section Runs

variable {released : Option Uuid}

theorem PendingLogin.Current.congr {r : PendingLogin} (h : r.Current db)
    (haccounts : db'.accounts = db.accounts) (hchanges : db'.changes = db.changes) :
    r.Current db' where
  version a ha := h.version a (haccounts ▸ ha)
  dropped c hc := h.dropped c (hchanges ▸ hc)

/-- An effect keeps the invariant. -/
theorem LoginsCurrent.effect (h : LoginsCurrent db) (heffect : AuthEffect db db' released) :
    LoginsCurrent db' := by
  cases heffect with
  | quiet _ hpending haccounts hchanges hsessions hsigned =>
    refine ⟨fun r hr => ?_, ?_⟩
    · obtain ⟨old, hold, hid, haccount, hversion⟩ := hpending r hr
      have hcurrent := h.pending old hold
      refine ⟨fun a ha => ?_, fun c hc => ?_⟩
      · rw [← hversion, ← haccount]
        exact hcurrent.version a (haccounts ▸ ha)
      · rw [← hid, ← haccount]
        exact hcurrent.dropped c (hchanges ▸ hc)
    · rw [hsessions, hsigned]
      exact h.signedOut
  | park r hversion hchange =>
    refine ⟨fun s hs => ?_, h.signedOut⟩
    rcases Table.mem_insertNew.mp hs with hs | ⟨rfl, -⟩
    · exact (h.pending s hs).congr rfl rfl
    · refine ⟨hversion, fun c hc hid ids hids => ?_⟩
      rw [hchange c hc hid] at hids
      cases hids
  | issue s hsigned =>
    refine ⟨fun r hr => (h.pending r hr).congr rfl rfl, fun c hc t ht hid hlive => ?_⟩
    rcases Table.mem_insertNew.mp ht with ht | ⟨rfl, -⟩
    · exact h.signedOut c hc t ht hid hlive
    · exact Or.inr (hsigned c hc hid.symm)
  | update c hlogins =>
    refine ⟨fun r hr => ⟨(h.pending r hr).version, fun d hd hid ids hids => ?_⟩, h.signedOut⟩
    rcases Table.mem_insertNew.mp hd with hd | ⟨rfl, -⟩
    · exact (h.pending r hr).dropped d hd hid ids hids
    · rw [hlogins] at hids
      cases hids
  | dropChallenges accountId ids =>
    refine ⟨fun r hr => ⟨(h.pending r hr).version, fun d hd => ?_⟩, h.signedOut⟩
    simp only [Table.mem_update] at hd
    obtain ⟨c, hc, rfl⟩ := hd
    split
    · exact (h.pending r hr).dropped c hc
    · exact (h.pending r hr).dropped c hc
  | dropLogins accountId ids hids =>
    refine ⟨fun r hr => ⟨(h.pending r hr).version, fun d hd => ?_⟩, h.signedOut⟩
    simp only [Table.mem_update] at hd
    obtain ⟨c, hc, rfl⟩ := hd
    split
    · rename_i heq
      rintro hid _ ⟨⟩
      exact hids r hr (hid.symm.trans (by simpa using heq))
    · exact (h.pending r hr).dropped c hc
  | commit _ accountId ids hdropped haccounts hpending hchanges hsessions hsigned =>
    obtain ⟨c, hc, hid, hlogins⟩ := hdropped
    refine ⟨fun r hr => ?_, ?_⟩
    · rw [hpending, Table.mem_delete] at hr
      have hcurrent := h.pending r hr.1
      -- what is left belongs to other accounts
      have hother : r.accountId ≠ accountId := by
        intro heq
        have hmem := hcurrent.dropped c hc (hid.trans heq.symm) ids hlogins
        exact of_decide_eq_false hr.2 hmem
      refine ⟨fun a ha hid => ?_, fun d hd => ?_⟩
      · exact hcurrent.version a (haccounts a ha fun heq => hother (hid.symm.trans heq)) hid
      · rw [hchanges, Table.mem_delete] at hd
        exact hcurrent.dropped d hd.1
    · rw [hsessions, hsigned]
      exact h.signedOut
  | signOut accountId keep version now =>
    refine ⟨fun r hr => (h.pending r hr).congr rfl rfl, fun c hc s hs hid hlive => ?_⟩
    simp only [SessionStore.revokeAllExcept, Table.mem_update] at hs
    obtain ⟨old, hold, rfl⟩ := hs
    split at hlive
    · cases hlive
    · rename_i hkept
      rw [if_neg hkept] at hid ⊢
      rcases List.mem_cons.mp hc with rfl | hc
      · left
        by_contra hne
        exact hkept (by simpa using ⟨hid, hne, hlive⟩)
      · exact h.signedOut c hc old hold hid hlive

/-- A request holds nothing when it arrives. -/
theorem waits_of_isRequest {task : AuthTask} (h : task.isRequest = true) :
    task.holds = none ∧ task.SeenLe := by
  cases task with
  | start => exact ⟨rfl, trivial⟩
  | finish => exact ⟨rfl, trivial⟩
  | finishTwoFactor => exact ⟨rfl, trivial⟩
  | changePassword => exact ⟨rfl, trivial⟩
  | complete => exact ⟨rfl, trivial⟩
  | _ => cases h

theorem auth_outline (crypto : LoginCrypto) :
    Outline ((authProgram crypto).when AuthOrderly) LoginsCurrent AuthTask.Waits AuthTask.Apart where
  start := by
    intro db task hinv hstart
    obtain ⟨hholds, hseen⟩ := waits_of_isRequest hstart
    refine ⟨fun accountId d h => ?_, hseen⟩
    rw [hholds] at h
    cases h
  starts_apart := by
    intro db task u hinv hstart hu accountId d d' h
    rw [(waits_of_isRequest hstart).1] at h
    cases h
  keeps := by
    rintro db task db' next hinv hwaits ⟨horderly, draw, hact⟩
    exact hinv.effect (proceed_cases hinv hwaits horderly hact).1
  leads := by
    rintro db task db' next hinv hwaits ⟨horderly, draw, hact⟩
    exact ((proceed_cases hinv hwaits horderly hact).2 next rfl).waits
  leads_apart := by
    rintro db task db' next u hinv hwaits hu hapart ⟨horderly, draw, hact⟩ accountId d d' hholds hu'
    have hnext := (proceed_cases hinv hwaits horderly hact).2 next rfl
    rcases hnext.holds accountId d hholds with ⟨d'', htask⟩ | hfree
    · exact hapart accountId d'' d' htask hu'
    · obtain ⟨c, hc, hid, -⟩ := hu.held accountId d' hu'
      exact hfree c hc hid
  free := by
    rintro db task db' next u hinv hwaits hu hapart ⟨horderly, draw, hact⟩
    refine ⟨fun accountId dropped hholds => ?_, hu.seen⟩
    refine (proceed_cases hinv hwaits horderly hact).1.held (fun hreleases => ?_)
      (hu.held _ _ hholds)
    cases task with
    | commit change =>
      obtain rfl := Option.some_inj.mp hreleases
      exact hapart _ _ _ rfl hholds
    | _ => cases hreleases
  symm := fun h accountId d d' hu ht => h accountId d' d ht hu

/-- No change is in progress or has been made, and the pending logins rest on the verifiers the
accounts have. -/
structure AuthDb.Quiet (db : AuthDb) : Prop where
  unchanged : db.signedOut = []
  closed : ∀ c, c ∉ db.changes
  pending : ∀ r ∈ db.pendingLogins, ∀ a ∈ db.accounts, a.id = r.accountId → a.version = r.version

theorem AuthDb.Quiet.current (h : db.Quiet) : LoginsCurrent db where
  pending r hr := ⟨h.pending r hr, fun c hc => absurd hc (h.closed c)⟩
  signedOut c hc := by
    rw [h.unchanged] at hc
    cases hc

theorem AuthDb.Quiet.of_challenges (h : db.Quiet) (challenges : Table LoginChallenge.id) :
    AuthDb.Quiet { db with challenges } :=
  ⟨h.unchanged, h.closed, h.pending⟩

/-- When a change has signed out the other sessions, and from then on, the account's live sessions
are the one it kept or created, and those that rest on its verifier or a newer one. -/
theorem change_signsOut {start : AuthDb} {tasks : List AuthTask} (hstart : start.Quiet)
    (hrun : Run ((authProgram crypto).when AuthOrderly) ⟨start, []⟩ ⟨db, tasks⟩) :
    ∀ c ∈ db.signedOut, ∀ s ∈ db.sessions, s.accountId = c.accountId →
      ∀ now, SessionStore.isLive s now = true → s.id = c.keep ∨ c.version ≤ s.version := by
  intro c hc s hs hid now hlive
  have hinv := ((auth_outline crypto).run_idle hstart.current hrun).inv
  simp only [SessionStore.isLive, decide_eq_true_eq] at hlive
  exact hinv.signedOut c hc s hs hid hlive.1

end Runs

/-! ### Logins and a password change of one account -/

namespace StaleLogin

open SrpClient

/-- The secrets before and after the change. -/
def oldKey : Vector UInt8 32 := Vector.replicate 32 0

def newKey : Vector UInt8 32 := (Vector.replicate 31 0).push 1

def services : LoginCrypto := ⟨onesHash, fun token => token.length, fun _ => ([], [])⟩

def account (key : Vector UInt8 32) (version : ℕ) : LoginAccount :=
  ⟨1, "user", [], verifier key, version⟩

def publicB (key : Vector UInt8 32) : Bytes := pad (challengeB onesHash key [])

def draw (id : Uuid) : LoginDraw := ⟨id, "", [], 0, false, false⟩

def challenge (key : Vector UInt8 32) (id : Uuid) : LoginChallenge :=
  ⟨id, some 1, "user", ⟨[], publicB key⟩, (draw id).now + challengeTtl⟩

/-- The client's half, with the secret 0. -/
def srpA : Bytes := pad (modpow g 0 n)

def srpM1 (key : Vector UInt8 32) : Bytes :=
  proof onesHash "user" [] srpA (publicB key)
    (sharedKey onesHash key 0 [] (int (hash onesHash [srpA, publicB key])))

def session (id : Uuid) (version : ℕ) : LoginSession :=
  ⟨id, 1, 0, 0, 0, (draw id).now + sessionAbsoluteTtl, none, version⟩

def change : PasswordChange := ⟨1, [], verifier newKey, .keep 5⟩

/-- One account, and what is stored of it. -/
def database (key : Vector UInt8 32) (version : ℕ) (challenges : Table LoginChallenge.id)
    (sessions : Table LoginSession.id) (signedOut : List SignedOut) : AuthDb where
  accounts := Table.empty.insertNew (account key version)
  challenges
  pendingLogins := Table.empty
  sessions
  recoveries := Table.empty
  changes := Table.empty
  signedOut

/-- The challenge of the password change. -/
def changeChallenge : Table LoginChallenge.id := Table.empty.insertNew (challenge oldKey 11)

def twoSessions : Table LoginSession.id :=
  (Table.empty.insertNew (session 4 0)).insertNew (session 5 0)

/-- Two sessions, and two challenges: one for a login and one for a password change. -/
def start : AuthDb :=
  database oldKey 0 (changeChallenge.insertNew (challenge oldKey 10)) twoSessions []

/-- A change that keeps session 5 is over. -/
def changed (challenges : Table LoginChallenge.id) (sessions : Table LoginSession.id) : AuthDb :=
  database newKey 1 challenges (sessions.update (fun s => s.accountId = 1 ∧ s.id ≠ 5 ∧
    s.revokedAt = none) fun s => { s with revokedAt := some 0 }) [⟨1, 5, 1⟩]

theorem start_quiet : start.Quiet :=
  ⟨rfl, fun _ => Table.not_mem_empty _, fun _ h => absurd h (Table.not_mem_empty _)⟩

theorem verifies_account (key : Vector UInt8 32) (version : ℕ) (id : Uuid) :
    LoginService.verifies services (some (account key version)) (challenge key id) srpA
      (srpM1 key) = true := by
  have hu : int (hash onesHash [srpA, publicB key]) ≠ 0 := by
    change int (Vector.replicate 32 1).toList ≠ 0
    decide
  have haccepted := verifyClient_eq onesHash "user" [] key (a := 0) [] rfl hu
  have hcheck : SrpServer.verifyClient services.sha (challenge key id).email
      (account key version).salt (account key version).srpVerifier (challenge key id).challenge
      srpA (srpM1 key) = some (some _) := haccepted
  exact congrArg (fun login => login.join.isSome) hcheck

theorem isValidVerifier_newKey : SrpServer.isValidVerifier (verifier newKey) = true := by
  have hlength : (verifier newKey).length = srpLen := length_pad (mod_n_lt _)
  have hint : int (verifier newKey) = 5 := int_verifier newKey
  simp only [SrpServer.isValidVerifier, server_toInt, hint, hlength]
  decide

section Steps

variable {db : AuthDb} {key : Vector UInt8 32} {version : ℕ} {other : Uuid} (id : Uuid)

def spend (db : AuthDb) (id : Uuid) : AuthDb :=
  { db with challenges := db.challenges.delete fun c => c.id = id }

theorem takeChallenge_challenge (hfind : db.challenges.find id = some (challenge key id)) :
    LoginService.takeChallenge db id (draw other).now = (spend db id, some (challenge key id)) := by
  rw [LoginService.takeChallenge, hfind]
  rfl

theorem finish_step (hheld : db.challengeHeld id = false)
    (hfind : db.challenges.find id = some (challenge key id)) :
    (AuthTask.finish id srpA (srpM1 key)).proceed services db (draw other) =
      some (spend db id, some (.finishSelect (challenge key id) srpA (srpM1 key))) := by
  simp only [AuthTask.proceed, hheld, Bool.false_eq_true, if_false, takeChallenge_challenge id hfind]

theorem finishSelect_step (haccount : db.accounts.find 1 = some (account key version)) :
    (AuthTask.finishSelect (challenge key id) srpA (srpM1 key)).proceed services db (draw other) =
      some (db, some (.proved 1 version)) := by
  have hfound : (challenge key id).accountId.bind db.accounts.find = some (account key version) :=
    haccount
  simp only [AuthTask.proceed, LoginService.finishSelect, hfound, verifies_account, if_true]
  rfl

/-- A login whose proof holds, before its session. -/
theorem login_run (hheld : db.challengeHeld id = false)
    (hfind : db.challenges.find id = some (challenge key id))
    (haccount : db.accounts.find 1 = some (account key version)) :
    Run ((authProgram services).when AuthOrderly) ⟨db, []⟩
      ⟨spend db id, [.openSession 1 version version]⟩ := by
  have hstart : Step ((authProgram services).when AuthOrderly) ⟨db, []⟩
      ⟨db, [.finish id srpA (srpM1 key)]⟩ := .start rfl
  have hspent : Step ((authProgram services).when AuthOrderly)
      ⟨db, [.finish id srpA (srpM1 key)]⟩
      ⟨spend db id, [.finishSelect (challenge key id) srpA (srpM1 key)]⟩ :=
    .next ⟨trivial, draw 0, finish_step id hheld hfind⟩
  have hproved : Step ((authProgram services).when AuthOrderly)
      ⟨spend db id, [.finishSelect (challenge key id) srpA (srpM1 key)]⟩
      ⟨spend db id, [.proved 1 version]⟩ := .next ⟨trivial, draw 0, finishSelect_step id haccount⟩
  have hasked : Step ((authProgram services).when AuthOrderly)
      ⟨spend db id, [.proved 1 version]⟩ ⟨spend db id, [.openSession 1 version version]⟩ :=
    .next ⟨trivial, draw 0, rfl⟩
  exact (((Relation.ReflTransGen.single hstart).tail hspent).tail hproved).tail hasked

theorem startSelect_eq {crypto : LoginCrypto} {email : String} (account : LoginAccount)
    {draw : LoginDraw} {challenge : SrpServer.ServerChallenge}
    (hfind : (db.accounts.rows.find? fun a => a.email = email) = some account)
    (hchallenge : SrpServer.createChallenge crypto.sha account.srpVerifier draw.secretB =
      some challenge) :
    LoginService.startSelect crypto db draw email =
      (db, some (.startInsert (some account.id) email challenge)) := by
  unfold LoginService.startSelect
  extract_lets found verifier
  have hfound : found = some account := hfind
  have hverifier : verifier = account.srpVerifier := by
    simp only [verifier, hfound]
    rfl
  rw [hverifier, hchallenge, hfound]
  rfl

/-- A client asks for a challenge. -/
theorem start_run {sessions : Table LoginSession.id} {signedOut : List SignedOut} :
    Run ((authProgram services).when AuthOrderly)
      ⟨database key version Table.empty sessions signedOut, []⟩
      ⟨database key version (Table.empty.insertNew (challenge key id)) sessions signedOut, []⟩ := by
  have hselect : LoginService.startSelect services
      (database key version Table.empty sessions signedOut) (draw id) "user" =
      (database key version Table.empty sessions signedOut,
        some (.startInsert (some 1) "user" ⟨[], publicB key⟩)) :=
    startSelect_eq (account key version) (List.find?_cons_of_pos (decide_eq_true rfl))
      (createChallenge_eq onesHash key [])
  have hstart : Step ((authProgram services).when AuthOrderly)
      ⟨database key version Table.empty sessions signedOut, []⟩
      ⟨database key version Table.empty sessions signedOut, [.start "user"]⟩ := .start rfl
  have hdeleted : Step ((authProgram services).when AuthOrderly)
      ⟨database key version Table.empty sessions signedOut, [.start "user"]⟩
      ⟨database key version Table.empty sessions signedOut, [.startSelect "user"]⟩ :=
    .next ⟨trivial, draw id, rfl⟩
  exact (((Relation.ReflTransGen.single hstart).tail hdeleted).tail
    (.next ⟨trivial, draw id, congrArg some hselect⟩)).tail (.last ⟨trivial, draw id, rfl⟩)

/-- A password change, whose proof rests on the old secret. -/
theorem change_run (sessions : Table LoginSession.id) (rest : List AuthTask) :
    Run ((authProgram services).when AuthOrderly)
      ⟨database oldKey 0 changeChallenge sessions [], rest⟩
      ⟨changed Table.empty sessions, rest⟩ := by
  have hvalid : SrpServer.isValidVerifier change.srpVerifier = true := isValidVerifier_newKey
  have hstart : Step ((authProgram services).when AuthOrderly)
      ⟨database oldKey 0 changeChallenge sessions [], rest⟩
      ⟨_, .changePassword change 11 srpA (srpM1 oldKey) :: rest⟩ := .start rfl
  have htaken : (AuthTask.changePassword change 11 srpA (srpM1 oldKey)).proceed services
      (database oldKey 0 changeChallenge sessions []) (draw 0) =
      some (database oldKey 0 Table.empty sessions [],
        some (.reauthenticate change (challenge oldKey 11) srpA (srpM1 oldKey))) := by
    simp only [AuthTask.proceed, hvalid, Bool.not_true, Bool.false_eq_true, if_false]
    rfl
  have hproved : (AuthTask.reauthenticate change (challenge oldKey 11) srpA
      (srpM1 oldKey)).proceed services (database oldKey 0 Table.empty sessions []) (draw 0) =
      some (database oldKey 0 Table.empty sessions [], some (.update change)) := by
    have hfound : (database oldKey 0 Table.empty sessions []).accounts.find change.accountId =
        some (account oldKey 0) := rfl
    simp only [AuthTask.proceed, LoginService.reauthenticate, hfound, verifies_account, if_true]
  -- the transaction and the sign-out, with nothing in between
  refine ((Relation.ReflTransGen.single hstart).tail (.next ⟨trivial, draw 0, htaken⟩)).tail
    (.next ⟨trivial, draw 0, hproved⟩) |>.trans ?_
  exact .tail (.tail (.tail (.tail (.tail .refl (.next ⟨trivial, draw 0, rfl⟩))
    (.next ⟨trivial, draw 0, rfl⟩)) (.next ⟨trivial, draw 0, rfl⟩)) (.next ⟨trivial, draw 0, rfl⟩))
    (.last ⟨trivial, draw 0, rfl⟩)

end Steps

/-- A login, a password change from another session, and a login with the new password. -/
theorem change_signsOut_between : ∃ db : AuthDb,
    Run ((authProgram services).when AuthOrderly) ⟨start, []⟩ ⟨db, []⟩ ∧
    (∃ s ∈ db.sessions, s.id = 6 ∧ s.version = 0 ∧ SessionStore.isLive s 0 = false) ∧
    (∃ s ∈ db.sessions, s.id = 7 ∧ s.version = 1 ∧ SessionStore.isLive s 0 = true) ∧
    ∀ c ∈ db.signedOut, ∀ s ∈ db.sessions, s.accountId = c.accountId →
      ∀ now, SessionStore.isLive s now = true → s.id = c.keep ∨ c.version ≤ s.version := by
  have hlogin : Run ((authProgram services).when AuthOrderly) ⟨start, []⟩
      ⟨database oldKey 0 changeChallenge (twoSessions.insertNew (session 6 0)) [], []⟩ :=
    (login_run 10 rfl rfl rfl).tail
      (.last ⟨fun c hc => absurd hc List.not_mem_nil, draw 6, rfl⟩)
  have hchange := hlogin.trans (change_run _ [])
  have hagain := (hchange.trans (start_run 12)).trans
    (login_run 12 rfl rfl rfl)
  have hnewest : ∀ c ∈ [(⟨1, 5, 1⟩ : SignedOut)], c.accountId = 1 → c.version ≤ 1 := by decide
  have hrun := hagain.tail (.last ⟨hnewest, draw 7, rfl⟩)
  refine ⟨_, hrun, ⟨{ session 6 0 with revokedAt := some 0 }, by decide, by decide⟩,
    ⟨session 7 1, by decide, by decide⟩, change_signsOut start_quiet hrun⟩

/-- A login that has read the old verifier issues its session after the change is over. -/
theorem stale_login_survives : ∃ db : AuthDb, start.Quiet ∧
    Run (authProgram services) ⟨start, []⟩ ⟨db, []⟩ ∧
    ∃ c ∈ db.signedOut, ∃ s ∈ db.sessions, s.accountId = c.accountId ∧
      SessionStore.isLive s 0 = true ∧ s.id ≠ c.keep ∧ s.version < c.version := by
  have hlogin : Run ((authProgram services).when AuthOrderly) ⟨start, []⟩
      ⟨database oldKey 0 changeChallenge twoSessions [], [.openSession 1 0 0]⟩ :=
    login_run 10 rfl rfl rfl
  have hissue : Run (authProgram services)
      ⟨changed Table.empty twoSessions, [.openSession 1 0 0]⟩ ⟨_, []⟩ :=
    .single (.last ⟨draw 6, rfl⟩)
  refine ⟨_, start_quiet, (Run.of_when (hlogin.trans (change_run _ _))).trans hissue, ?_⟩
  exact ⟨⟨1, 5, 1⟩, by decide, session 6 0, by decide, by decide⟩

end StaleLogin

end Zvault
