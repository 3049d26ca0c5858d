import Zvault.Sharing.Links

/-!
# The steps of share link requests

`ShareStep` says once what a step can do to the tables, with what the request
has checked; every step of a request is one of its cases.
-/

namespace Zvault

open Relational

variable {db db' : ShareDb}

/-- The code a view spends is closed. -/
def ShareDb.spend (db : ShareDb) (now : Timestamp) : Option LinkCode → ShareDb
  | none => db
  | some c => { db with codes := db.codes.update (fun r => r.id = c.id) fun r =>
      { r with attempts := c.attempts, closedAt := some now } }

/-- The answer to an open is on record if it carried a blob. -/
def ShareDb.answer (db : ShareDb) (link : LinkRecord) (now : Timestamp) (code : Option Uuid) :
    ShareDb :=
  if link.blob = none then db else { db with events := .opened link.id now code :: db.events }

/-- What one step of a request can do. -/
inductive ShareStep (db : ShareDb) : ShareDb → Prop
  | nothing : ShareStep db db
  | clock (now : Timestamp) (h : db.now ≤ now) : ShareStep db { db with now }
  | insert (link : LinkRecord) (hnew : ∀ r ∈ db.links, r.id ≠ link.id) (hviews : link.viewCount = 0)
      (hmax : 1 ≤ link.maxViews) (hblob : link.blob.isSome) (hrevoked : link.revokedAt = none) :
      ShareStep db { db with links := db.links.insertNew link }
  | drop (link : LinkRecord) (now : Timestamp) (hlink : link ∈ db.links) (hnow : now ≤ db.now)
      (hclosed : isLinkOpen link now = false) :
      ShareStep db { db with
        links := db.links.update (fun r => r.id = link.id) fun r => { r with blob := none } }
  | revoke (link : LinkRecord) (now : Timestamp) (hlink : link ∈ db.links) :
      ShareStep db { db with
        links := db.links.update (fun r => r.id = link.id ∧ r.ownerId = link.ownerId) fun r =>
          { r with revokedAt := r.revokedAt.or (some now), blob := none }
        events := .revoked link.id :: db.events }
  | wrong (c : LinkCode) (now : Timestamp) (hc : c ∈ db.codes) (hlive : c.closedAt = none) :
      ShareStep db { db with
        codes := db.codes.update (fun r => r.id = c.id) fun r => { r with
          attempts := c.attempts + 1
          closedAt := if maxLinkCodeAttempts ≤ c.attempts + 1 then some now else none }
        events := .wrongCode c.id :: db.events }
  | view (link : LinkRecord) (now : Timestamp) (spent : Option LinkCode) (hlink : link ∈ db.links)
      (hopen : isLinkOpen link now = true)
      (hspent : ∀ c ∈ spent, c ∈ db.codes ∧ c.linkId = link.id ∧ c.closedAt = none ∧
        now < c.expiresAt)
      (hrestricted : link.allowedEmails.isSome → spent.isSome) :
      ShareStep db
        ((ShareStore.countView (db.spend now spent) link).answer link now (spent.map LinkCode.id))
  | issue (c : LinkCode) (hnew : ∀ d ∈ db.codes, d.id ≠ c.id) (hattempts : c.attempts = 0)
      (hcount : (db.codes.select fun d => d.linkId = c.linkId ∧ d.emailHash = c.emailHash ∧
        c.createdAt < d.createdAt + countedHour).length < codesPerHour)
      (hlast : ∀ d ∈ db.codes, d.linkId = c.linkId → d.emailHash = c.emailHash →
        d.createdAt + codeCooldown ≤ c.createdAt) :
      ShareStep db { db with
        codes := (db.codes.update
          (fun d => d.linkId = c.linkId ∧ d.emailHash = c.emailHash ∧ d.closedAt = none)
          fun d => { d with closedAt := some c.createdAt }).insertNew c }

section Steps

variable {hashes : ShareHashes} {now : Timestamp}

theorem insertLink_step {link : LinkRecord} (hviews : link.viewCount = 0) (hmax : 1 ≤ link.maxViews)
    (hblob : link.blob.isSome) (hrevoked : link.revokedAt = none) :
    ShareStep db (ShareStore.insertLink db link).2 := by
  unfold ShareStore.insertLink
  split
  · exact .nothing
  · rename_i hkey
    have hnew := Table.hasKey_eq_false.mp (by simpa using hkey)
    exact .insert link hnew hviews hmax hblob hrevoked

theorem revokeLink_step {id : ShareId} {ownerId : Uuid} :
    ShareStep db (ShareStore.revokeLink db id ownerId now).2 := by
  unfold ShareStore.revokeLink
  split
  · exact .nothing
  · rename_i hsome
    obtain ⟨link, hlink⟩ := List.exists_mem_of_ne_nil _ (by simpa using hsome)
    simp only [Table.mem_select, Bool.and_eq_true, decide_eq_true_eq] at hlink
    obtain ⟨hlink, rfl, rfl⟩ := hlink
    exact .revoke link now hlink

/-- The live code belongs to the link and the email and can still be spent. -/
theorem pendingCode_some {id : ShareId} {emailHash : ℕ} {c : LinkCode}
    (h : ShareStore.pendingCode db id emailHash now = some c) :
    c ∈ db.codes ∧ c.linkId = id ∧ c.closedAt = none ∧ now < c.expiresAt := by
  have hmem := List.mem_of_mem_head? h
  rw [List.mem_mergeSort, Table.mem_select] at hmem
  simp only [Bool.decide_and, Bool.and_eq_true, decide_eq_true_eq] at hmem
  exact ⟨hmem.1, hmem.2.1, hmem.2.2.2⟩

/-- A view is refused, or it is counted on an open link, and the code of a restricted one spent. -/
theorem consumeLinkView_cases {id : ShareId} {check : LinkRecord → Bool}
    {code : Option PresentedCode} {result : ConsumeResult} (hnow : now ≤ db.now)
    (h : ShareStore.consumeLinkView db id now check code = (result, db')) :
    (ShareStep db db' ∧ ∀ link spent, result ≠ .ok link spent) ∨
      ∃ link spent, link ∈ db.links ∧ link.id = id ∧ isLinkOpen link now = true ∧
        (∀ c ∈ spent, c ∈ db.codes ∧ c.linkId = link.id ∧ c.closedAt = none ∧
          now < c.expiresAt) ∧
        (link.allowedEmails.isSome → spent.isSome) ∧
        result = .ok link (spent.map LinkCode.id) ∧
        db' = ShareStore.countView (db.spend now spent) link := by
  unfold ShareStore.consumeLinkView at h
  cases hfind : db.links.find id with
  | none =>
    simp only [hfind] at h
    obtain ⟨rfl, rfl⟩ := Prod.mk.inj h
    exact Or.inl ⟨.nothing, fun _ _ h => by cases h⟩
  | some link =>
    obtain ⟨hlink, rfl⟩ := Table.find_eq_some.mp hfind
    simp only [hfind] at h
    split at h
    · rename_i hclosed
      obtain ⟨rfl, rfl⟩ := Prod.mk.inj h
      exact Or.inl ⟨.drop link now hlink hnow (by simpa using hclosed), fun _ _ h => by cases h⟩
    rename_i hopen
    split at h
    · obtain ⟨rfl, rfl⟩ := Prod.mk.inj h
      exact Or.inl ⟨.nothing, fun _ _ h => by cases h⟩
    split at h
    · rename_i hanyone
      obtain ⟨rfl, rfl⟩ := Prod.mk.inj h
      refine Or.inr ⟨link, none, hlink, rfl, by simpa using hopen, by rintro _ ⟨⟩, ?_, rfl, rfl⟩
      simp [hanyone]
    cases code with
    | none =>
      obtain ⟨rfl, rfl⟩ := Prod.mk.inj h
      exact Or.inl ⟨.nothing, fun _ _ h => by cases h⟩
    | some code =>
      cases hpending : ShareStore.pendingCode db link.id code.emailHash now with
      | none =>
        simp only [hpending] at h
        obtain ⟨rfl, rfl⟩ := Prod.mk.inj h
        exact Or.inl ⟨.nothing, fun _ _ h => by cases h⟩
      | some pending =>
        have hspent := pendingCode_some hpending
        simp only [hpending, ShareStore.tryCode] at h
        by_cases hmatch : pending.codeHash = code.codeHash
        · simp only [hmatch, decide_true] at h
          obtain ⟨rfl, rfl⟩ := Prod.mk.inj h
          refine Or.inr ⟨link, some pending, hlink, rfl, by simpa using hopen, ?_, by simp, rfl, ?_⟩
          · rintro c ⟨⟩
            exact hspent
          · simp [ShareDb.spend]
        · simp only [hmatch, decide_false] at h
          obtain ⟨rfl, rfl⟩ := Prod.mk.inj h
          refine Or.inl ⟨?_, fun _ _ h => by cases h⟩
          have hstep : ShareStep db _ := .wrong pending now hspent.1 hspent.2.2.1
          simpa using hstep

theorem openLink_step {id : ShareId} {accessToken : String} {email code : Option String}
    (hnow : now ≤ db.now) :
    ShareStep db (ShareLinksService.openLink hashes db id accessToken email code now).2 := by
  unfold ShareLinksService.openLink
  extract_lets presented code
  cases hconsume : ShareStore.consumeLinkView db id now (fun l => l.verifier = presented) code with
  | mk result db' =>
    rcases consumeLinkView_cases hnow hconsume with ⟨hstep, hrefused⟩ | ⟨link, spent, hlink, rfl,
      hopen, hspent, hrestricted, rfl, rfl⟩
    · cases result with
      | ok link spent => exact absurd rfl (hrefused link spent)
      | _ => exact hstep
    · have hview := ShareStep.view link now spent hlink hopen hspent hrestricted
      unfold ShareDb.answer at hview
      cases hblob : link.blob with
      | none =>
        rw [if_pos hblob] at hview
        simpa only [hblob] using hview
      | some blob =>
        rw [if_neg (by simp [hblob])] at hview
        simpa only [hblob] using hview

theorem issueLinkCode_step {id : Uuid} {linkId : ShareId} {emailHash codeHash : ℕ}
    {expiresAt : Timestamp} :
    ShareStep db (ShareStore.issueLinkCode db id linkId emailHash codeHash now expiresAt).2 := by
  unfold ShareStore.issueLinkCode
  extract_lets recent closed code
  split
  · exact .nothing
  rename_i hlimits
  rw [not_or, Nat.not_le] at hlimits
  obtain ⟨hcount, hlast⟩ := hlimits
  split
  · exact .nothing
  rename_i hkey
  have hnew := Table.hasKey_eq_false.mp (by simpa using hkey)
  refine .issue code hnew rfl ?_ ?_
  · simpa [recent, code] using hcount
  · intro d hd hlink hemail
    change d.createdAt + codeCooldown ≤ now
    by_cases hrecent : now < d.createdAt + countedHour
    · have hmem : d.createdAt ∈ recent :=
        List.mem_map_of_mem (Table.mem_select.mpr ⟨hd, by simpa using ⟨hlink, hemail, hrecent⟩⟩)
      obtain ⟨last, hmax⟩ := Option.isSome_iff_exists.mp (List.isSome_max?_of_mem hmem)
      have hle : d.createdAt ≤ last := (List.max?_eq_some_iff.mp hmax).2 _ hmem
      have hcooled : ¬ now < last + codeCooldown := fun h => hlast ⟨last, hmax, h⟩
      exact Nat.le_trans (Nat.add_le_add_right hle _) (Nat.not_lt.mp hcooled)
    · have hhour : codeCooldown ≤ countedHour := by decide
      exact Nat.le_trans (Nat.add_le_add_left hhour _) (Nat.not_lt.mp hrecent)

/-- A step of a request is one of these. -/
theorem proceed_step {id : Uuid} {code : String} {task : ShareTask} {next : Option ShareTask}
    (hnow : ∀ now ∈ task.arrival, now ≤ db.now)
    (h : task.proceed hashes db id code = (db', next)) :
    ShareStep db db' ∧ ∀ later ∈ next, later.arrival = task.arrival := by
  cases task with
  | create ownerId req now =>
    simp only [ShareTask.proceed] at h
    split at h
    · obtain ⟨rfl, rfl⟩ := Prod.mk.inj h
      exact ⟨.nothing, nofun⟩
    · obtain ⟨rfl, rfl⟩ := Prod.mk.inj h
      exact ⟨.nothing, by rintro later ⟨⟩; rfl⟩
  | insert ownerId req now =>
    obtain ⟨rfl, rfl⟩ := Prod.mk.inj h
    exact ⟨insertLink_step rfl req.maxViews_pos rfl rfl, nofun⟩
  | «open» id accessToken email emailed now =>
    obtain ⟨rfl, rfl⟩ := Prod.mk.inj h
    exact ⟨openLink_step (hnow now rfl), nofun⟩
  | revoke ownerId id now =>
    obtain ⟨rfl, rfl⟩ := Prod.mk.inj h
    exact ⟨revokeLink_step, nofun⟩
  | requestCode linkId accessToken email now =>
    obtain ⟨rfl, rfl⟩ := Prod.mk.inj h
    exact ⟨.nothing, by rintro later ⟨⟩; rfl⟩
  | openLinkFor linkId accessToken email now read =>
    simp only [ShareTask.proceed] at h
    split at h
    · obtain ⟨rfl, rfl⟩ := Prod.mk.inj h
      exact ⟨.nothing, nofun⟩
    · obtain ⟨rfl, rfl⟩ := Prod.mk.inj h
      exact ⟨.nothing, by rintro later ⟨⟩; rfl⟩
  | issueCode linkId emailHash codeHash now =>
    obtain ⟨rfl, rfl⟩ := Prod.mk.inj h
    exact ⟨issueLinkCode_step, nofun⟩
  | clock now =>
    obtain ⟨rfl, rfl⟩ := Prod.mk.inj h
    exact ⟨.clock _ (Nat.le_max_left _ _), nofun⟩

end Steps

end Zvault
