import Zvault.Sharing.Steps

/-!
# The limits of share links

Every step keeps `WithinLimits`, which holds views, blobs and codes to their
limits and says of every open that has happened what was true when it did.
-/

namespace Zvault

open Relational Concurrent

variable {db db' : ShareDb}

/-- How often a link was opened. -/
def opens (events : List ShareEvent) (id : ShareId) : ℕ :=
  events.countP fun
    | .opened linkId _ _ => linkId = id
    | _ => false

/-- How many wrong tries a code has taken. -/
def wrongTries (events : List ShareEvent) (code : Uuid) : ℕ := events.count (.wrongCode code)

section Limits

/-- What holds of a link. -/
structure LinkOk (events : List ShareEvent) (now : Timestamp) (link : LinkRecord) : Prop where
  opens_le : opens events link.id ≤ link.viewCount
  views_le : link.viewCount ≤ link.maxViews
  revoked : .revoked link.id ∈ events → link.revokedAt.isSome
  blob_some : link.blob.isSome → link.revokedAt = none ∧ link.viewCount < link.maxViews
  blob_none : link.blob = none → isLinkOpen link now = false

/-- Two codes of one link and one email. -/
def LinkCode.SameFor (c d : LinkCode) : Prop := c.linkId = d.linkId ∧ c.emailHash = d.emailHash

/-- The codes for a link and an email that were created in the hour up to a moment. -/
def codesInHour (codes : Table LinkCode.id) (linkId : ShareId) (emailHash : ℕ) (t : Timestamp) :
    List LinkCode :=
  codes.select fun c => c.linkId = linkId ∧ c.emailHash = emailHash ∧ c.createdAt ≤ t ∧
    t < c.createdAt + countedHour

/-- What holds of the codes. -/
structure CodesOk (codes : Table LinkCode.id) (events : List ShareEvent) : Prop where
  tries : ∀ c ∈ codes, wrongTries events c.id = c.attempts
  unclosed : ∀ c ∈ codes, c.closedAt = none → c.attempts < maxLinkCodeAttempts
  live : ∀ c ∈ codes, ∀ d ∈ codes, c.SameFor d → c.closedAt = none → d.closedAt = none → c = d
  cooled : ∀ c ∈ codes, ∀ d ∈ codes, c.SameFor d → c ≠ d →
    c.createdAt + codeCooldown ≤ d.createdAt ∨ d.createdAt + codeCooldown ≤ c.createdAt
  hourly : ∀ linkId emailHash t, (codesInHour codes linkId emailHash t).length ≤ codesPerHour

/-- What was true of an event when it happened, after the `older` ones. -/
def EventOk (db : ShareDb) (older : List ShareEvent) : ShareEvent → Prop
  | .opened id now code => .revoked id ∉ older ∧
    (∃ link ∈ db.links, link.id = id ∧ now < link.expiresAt ∧
      (link.allowedEmails.isSome → code.isSome)) ∧
    ∀ c ∈ code, (∃ r ∈ db.codes, r.id = c ∧ r.linkId = id ∧ now < r.expiresAt ∧ r.closedAt.isSome) ∧
      wrongTries older c < maxLinkCodeAttempts ∧ ∀ id now, .opened id now (some c) ∉ older
  | .wrongCode code => ∃ c ∈ db.codes, c.id = code
  | .revoked id => ∃ link ∈ db.links, link.id = id

/-- The invariant. -/
structure WithinLimits (db : ShareDb) : Prop where
  links : ∀ link ∈ db.links, LinkOk db.events db.now link
  codes : CodesOk db.codes db.events
  events : ∀ newer older e, db.events = newer ++ e :: older → EventOk db older e

theorem WithinLimits.initial : WithinLimits ShareDb.initial where
  links _ h := absurd h (Table.not_mem_empty _)
  codes := ⟨fun _ h => absurd h (Table.not_mem_empty _), fun _ h => absurd h (Table.not_mem_empty _),
    fun _ h => absurd h (Table.not_mem_empty _), fun _ h => absurd h (Table.not_mem_empty _),
    fun _ _ _ => Nat.zero_le _⟩
  events newer older e h := by cases newer <;> cases h

theorem WithinLimits.event (h : WithinLimits db) {e : ShareEvent} (he : e ∈ db.events) :
    ∃ older, EventOk db older e := by
  obtain ⟨newer, older, heq⟩ := List.append_of_mem he
  exact ⟨older, h.events newer older e heq⟩

/-- What a row that an event names keeps. -/
structure Kept (db db' : ShareDb) : Prop where
  link : ∀ link ∈ db.links, ∃ link' ∈ db'.links, link'.id = link.id ∧
    link'.expiresAt = link.expiresAt ∧ link'.allowedEmails = link.allowedEmails
  code : ∀ c ∈ db.codes, ∃ c' ∈ db'.codes, c'.id = c.id ∧ c'.linkId = c.linkId ∧
    c'.expiresAt = c.expiresAt ∧ (c.closedAt.isSome → c'.closedAt.isSome)

/-- What was true of an event stays true. -/
theorem EventOk.kept {older : List ShareEvent} {e : ShareEvent} (h : EventOk db older e)
    (hkept : Kept db db') : EventOk db' older e := by
  cases e with
  | opened id now code =>
    obtain ⟨hrevoked, ⟨link, hlink, rfl, hexpires, hrestricted⟩, hcode⟩ := h
    obtain ⟨link', hlink', hid, hexpires', hallowed⟩ := hkept.link link hlink
    refine ⟨hrevoked, ⟨link', hlink', hid, ?_, ?_⟩, fun c hc => ?_⟩
    · rw [hexpires']
      exact hexpires
    · rw [hallowed]
      exact hrestricted
    · obtain ⟨⟨r, hr, rfl, hlinkId, hr_expires, hclosed⟩, htries, hunspent⟩ := hcode c hc
      obtain ⟨r', hr', hid, hlinkId', hr_expires', hclosed'⟩ := hkept.code r hr
      refine ⟨⟨r', hr', hid, hlinkId'.trans hlinkId, ?_, hclosed' hclosed⟩, htries, hunspent⟩
      rw [hr_expires']
      exact hr_expires
  | wrongCode code =>
    obtain ⟨c, hc, rfl⟩ := h
    obtain ⟨c', hc', hid, -⟩ := hkept.code c hc
    exact ⟨c', hc', hid⟩
  | revoked id =>
    obtain ⟨link, hlink, rfl⟩ := h
    obtain ⟨link', hlink', hid, -⟩ := hkept.link link hlink
    exact ⟨link', hlink', hid⟩

/-- No new event. -/
theorem WithinLimits.events_of_kept (h : WithinLimits db) (hkept : Kept db db')
    (hevents : db'.events = db.events) :
    ∀ newer older e, db'.events = newer ++ e :: older → EventOk db' older e :=
  fun newer older e heq => (h.events newer older e (hevents.symm.trans heq)).kept hkept

/-- One new event. -/
theorem WithinLimits.events_of_cons (h : WithinLimits db) (hkept : Kept db db') {e : ShareEvent}
    (hevents : db'.events = e :: db.events) (he : EventOk db' db.events e) :
    ∀ newer older e, db'.events = newer ++ e :: older → EventOk db' older e := by
  intro newer older e' heq
  rw [hevents] at heq
  cases newer with
  | nil =>
    obtain ⟨rfl, rfl⟩ := List.cons.inj heq
    exact he
  | cons _ newer =>
    obtain ⟨-, heq⟩ := List.cons.inj heq
    exact (h.events newer older e' heq).kept hkept

theorem Kept.of_eq (hlinks : db'.links = db.links) (hcodes : db'.codes = db.codes) :
    Kept db db' where
  link link hlink := ⟨link, hlinks ▸ hlink, rfl, rfl, rfl⟩
  code c hc := ⟨c, hcodes ▸ hc, rfl, rfl, rfl, id⟩

theorem Kept.trans {db'' : ShareDb} (h : Kept db db') (h' : Kept db' db'') : Kept db db'' where
  link r hr := by
    obtain ⟨r', hr', hid, hexpires, hallowed⟩ := h.link r hr
    obtain ⟨s, hs, hid', hexpires', hallowed'⟩ := h'.link r' hr'
    exact ⟨s, hs, hid'.trans hid, hexpires'.trans hexpires, hallowed'.trans hallowed⟩
  code r hr := by
    obtain ⟨r', hr', hid, hlinkId, hexpires, hclosed⟩ := h.code r hr
    obtain ⟨s, hs, hid', hlinkId', hexpires', hclosed'⟩ := h'.code r' hr'
    exact ⟨s, hs, hid'.trans hid, hlinkId'.trans hlinkId, hexpires'.trans hexpires,
      fun hsome => hclosed' (hclosed hsome)⟩

/-- A link that is open was open before. -/
theorem isLinkOpen_of_le {link : LinkRecord} {now later : Timestamp} (hle : now ≤ later)
    (h : isLinkOpen link later = true) : isLinkOpen link now = true := by
  simp only [isLinkOpen, decide_eq_true_eq] at h ⊢
  exact ⟨h.1, Nat.lt_of_le_of_lt hle h.2.1, h.2.2⟩

/-- A link that was closed stays closed. -/
theorem isLinkOpen_later {link : LinkRecord} {now later : Timestamp} (hle : now ≤ later)
    (h : isLinkOpen link now = false) : isLinkOpen link later = false := by
  by_contra hopen
  have hnow := isLinkOpen_of_le hle (by simpa using hopen)
  rw [h] at hnow
  cases hnow

/-- Nothing that concerns the link has happened. -/
theorem LinkOk.congr {events events' : List ShareEvent} {now now' : Timestamp} {link : LinkRecord}
    (h : LinkOk events now link) (hopens : opens events' link.id = opens events link.id)
    (hrevoked : .revoked link.id ∈ events' → .revoked link.id ∈ events) (hnow : now ≤ now') :
    LinkOk events' now' link where
  opens_le := hopens ▸ h.opens_le
  views_le := h.views_le
  revoked hevent := h.revoked (hrevoked hevent)
  blob_some := h.blob_some
  blob_none hblob := isLinkOpen_later hnow (h.blob_none hblob)

/-- A link without a row was never opened. -/
theorem WithinLimits.opens_eq_zero (h : WithinLimits db) {id : ShareId}
    (hnew : ∀ r ∈ db.links, r.id ≠ id) : opens db.events id = 0 := by
  refine List.countP_eq_zero.mpr fun e he hid => ?_
  obtain ⟨older, hok⟩ := h.event he
  cases e with
  | opened linkId now code =>
    obtain ⟨-, ⟨link, hlink, rfl, -⟩, -⟩ := hok
    exact hnew link hlink (by simpa using hid)
  | wrongCode => cases hid
  | revoked => cases hid

/-- A code without a row was never tried. -/
theorem WithinLimits.wrongTries_eq_zero (h : WithinLimits db) {code : Uuid}
    (hnew : ∀ c ∈ db.codes, c.id ≠ code) : wrongTries db.events code = 0 := by
  refine List.count_eq_zero.mpr fun hmem => ?_
  obtain ⟨-, c, hc, hid⟩ := h.event hmem
  exact hnew c hc hid

/-- A code that is live was never spent. -/
theorem WithinLimits.unspent (h : WithinLimits db) {c : LinkCode} (hc : c ∈ db.codes)
    (hlive : c.closedAt = none) (id : ShareId) (now : Timestamp) :
    .opened id now (some c.id) ∉ db.events := by
  intro hmem
  obtain ⟨older, -, -, hcode⟩ := h.event hmem
  obtain ⟨⟨r, hr, hid, -, -, hclosed⟩, -⟩ := hcode c.id rfl
  obtain rfl := Table.eq_of_key_eq hr hc hid
  rw [hlive] at hclosed
  cases hclosed

/-- An update of codes that leaves the link, the email and the time of creation alone. -/
theorem CodesOk.update {codes : Table LinkCode.id} {events events' : List ShareEvent}
    {p : LinkCode → Bool} {f : LinkCode → LinkCode} (h : CodesOk codes events)
    (hf : ∀ r, (f r).id = r.id)
    (hsame : ∀ r, (f r).linkId = r.linkId ∧ (f r).emailHash = r.emailHash ∧
      (f r).createdAt = r.createdAt)
    (hclosed : ∀ r ∈ codes, p r = true → (f r).closedAt = none → r.closedAt = none)
    (htries : ∀ r ∈ codes, wrongTries events' r.id = (if p r then f r else r).attempts)
    (hunclosed : ∀ r ∈ codes, p r = true → (f r).closedAt = none →
      (f r).attempts < maxLinkCodeAttempts) : CodesOk (codes.update p f hf) events' := by
  -- what an updated row has in common with the row
  have hrow : ∀ r, (if p r then f r else r).id = r.id ∧
      (if p r then f r else r).linkId = r.linkId ∧
      (if p r then f r else r).emailHash = r.emailHash ∧
      (if p r then f r else r).createdAt = r.createdAt := by
    intro r
    split
    · exact ⟨hf r, hsame r⟩
    · exact ⟨rfl, rfl, rfl, rfl⟩
  have hlive : ∀ r ∈ codes, (if p r then f r else r).closedAt = none → r.closedAt = none := by
    intro r hr hnone
    split at hnone
    · rename_i hp
      exact hclosed r hr hp hnone
    · exact hnone
  have hsamefor : ∀ r s, LinkCode.SameFor (if p r then f r else r) (if p s then f s else s) →
      r.SameFor s := by
    intro r s hrs
    obtain ⟨-, hr, hr', -⟩ := hrow r
    obtain ⟨-, hs, hs', -⟩ := hrow s
    exact ⟨hr.symm.trans (hrs.1.trans hs), hr'.symm.trans (hrs.2.trans hs')⟩
  refine ⟨?_, ?_, ?_, ?_, ?_⟩
  · intro c hc
    obtain ⟨r, hr, rfl⟩ := Table.mem_update.mp hc
    rw [(hrow r).1]
    exact htries r hr
  · intro c hc hnone
    obtain ⟨r, hr, rfl⟩ := Table.mem_update.mp hc
    by_cases hp : p r = true
    · rw [if_pos hp] at hnone ⊢
      exact hunclosed r hr hp hnone
    · rw [if_neg hp] at hnone ⊢
      exact h.unclosed r hr hnone
  · intro c hc d hd hcd hcnone hdnone
    obtain ⟨r, hr, rfl⟩ := Table.mem_update.mp hc
    obtain ⟨s, hs, rfl⟩ := Table.mem_update.mp hd
    rw [h.live r hr s hs (hsamefor r s hcd) (hlive r hr hcnone) (hlive s hs hdnone)]
  · intro c hc d hd hcd hne
    obtain ⟨r, hr, rfl⟩ := Table.mem_update.mp hc
    obtain ⟨s, hs, rfl⟩ := Table.mem_update.mp hd
    rw [(hrow r).2.2.2, (hrow s).2.2.2]
    exact h.cooled r hr s hs (hsamefor r s hcd) fun heq => hne (by rw [heq])
  · intro linkId emailHash t
    rw [codesInHour, Table.select_update hf, List.length_map]
    · exact h.hourly linkId emailHash t
    · intro r _
      obtain ⟨hlink, hemail, hcreated⟩ := hsame r
      rw [hlink, hemail, hcreated]

/-- A new code, when the earlier ones of its link and email are closed and long enough ago. -/
theorem CodesOk.insert {codes : Table LinkCode.id} {events : List ShareEvent} {c : LinkCode}
    (h : CodesOk codes events) (hnew : ∀ d ∈ codes, d.id ≠ c.id)
    (htries : wrongTries events c.id = 0) (hattempts : c.attempts = 0)
    (hclosed : ∀ d ∈ codes, d.SameFor c → d.closedAt.isSome)
    (hcooled : ∀ d ∈ codes, d.SameFor c → d.createdAt + codeCooldown ≤ c.createdAt)
    (hcount : (codes.select fun d => d.linkId = c.linkId ∧ d.emailHash = c.emailHash ∧
      c.createdAt < d.createdAt + countedHour).length < codesPerHour) :
    CodesOk (codes.insertNew c) events := by
  have hmem : ∀ d, d ∈ codes.insertNew c → d ∈ codes ∨ d = c := fun d hd =>
    (Table.mem_insertNew.mp hd).imp id And.left
  refine ⟨?_, ?_, ?_, ?_, ?_⟩
  · intro d hd
    rcases hmem d hd with hd | rfl
    · exact h.tries d hd
    · rw [htries, hattempts]
  · intro d hd hnone
    rcases hmem d hd with hd | rfl
    · exact h.unclosed d hd hnone
    · rw [hattempts]
      decide
  · intro d hd' e he' hde hdnone henone
    rcases hmem d hd' with hd | rfl <;> rcases hmem e he' with he | rfl
    · exact h.live d hd e he hde hdnone henone
    · have hsome := hclosed d hd hde
      rw [hdnone] at hsome
      cases hsome
    · have hsome := hclosed e he ⟨hde.1.symm, hde.2.symm⟩
      rw [henone] at hsome
      cases hsome
    · rfl
  · intro d hd' e he' hde hne
    rcases hmem d hd' with hd | rfl <;> rcases hmem e he' with he | rfl
    · exact h.cooled d hd e he hde hne
    · exact Or.inl (hcooled d hd hde)
    · exact Or.inr (hcooled e he ⟨hde.1.symm, hde.2.symm⟩)
    · exact absurd rfl hne
  · intro linkId emailHash t
    rw [codesInHour, Table.select_insertNew hnew, List.length_append]
    split
    · rename_i hwindow
      simp only [decide_eq_true_eq] at hwindow
      obtain ⟨rfl, rfl, hcreated, -⟩ := hwindow
      -- whatever else lies in this hour was created in the hour before the new code
      have hsub : (codesInHour codes c.linkId c.emailHash t).length ≤
          (codes.select fun d => d.linkId = c.linkId ∧ d.emailHash = c.emailHash ∧
            c.createdAt < d.createdAt + countedHour).length := by
        refine (List.monotone_filter_right _ fun d hd => ?_).length_le
        simp only [decide_eq_true_eq] at hd ⊢
        exact ⟨hd.1, hd.2.1, Nat.lt_of_le_of_lt hcreated hd.2.2.2⟩
      exact Nat.lt_of_le_of_lt hsub hcount
    · exact h.hourly linkId emailHash t

theorem WithinLimits.insert (h : WithinLimits db) {link : LinkRecord}
    (hnew : ∀ r ∈ db.links, r.id ≠ link.id) (hviews : link.viewCount = 0)
    (hmax : 1 ≤ link.maxViews) (hblob : link.blob.isSome) (hrevoked : link.revokedAt = none) :
    WithinLimits { db with links := db.links.insertNew link } where
  links r hr := by
    rcases Table.mem_insertNew.mp hr with hr | ⟨rfl, -⟩
    · exact h.links r hr
    · refine ⟨?_, ?_, ?_, ?_, ?_⟩
      · rw [h.opens_eq_zero hnew]
        exact Nat.zero_le _
      · rw [hviews]
        exact Nat.zero_le _
      · intro hevent
        obtain ⟨-, s, hs, hid⟩ := h.event hevent
        exact absurd hid (hnew s hs)
      · intro _
        exact ⟨hrevoked, hviews ▸ hmax⟩
      · intro hnone
        rw [hnone] at hblob
        cases hblob
  codes := h.codes
  events := h.events_of_kept ⟨fun r hr => ⟨r, Table.mem_insertNew.mpr (Or.inl hr), rfl, rfl, rfl⟩,
    fun c hc => ⟨c, hc, rfl, rfl, rfl, id⟩⟩ rfl

/-- An update of links keeps what events name. -/
theorem Kept.of_update {p : LinkRecord → Bool} {f : LinkRecord → LinkRecord}
    {hf : ∀ r, (f r).id = r.id} {events : List ShareEvent}
    (hsame : ∀ r, (f r).expiresAt = r.expiresAt ∧ (f r).allowedEmails = r.allowedEmails) :
    Kept db { db with links := db.links.update p f hf, events } where
  link r hr := by
    refine ⟨_, Table.mem_update_of_mem hf hr, ?_⟩
    split
    · exact ⟨hf r, hsame r⟩
    · exact ⟨rfl, rfl, rfl⟩
  code c hc := ⟨c, hc, rfl, rfl, rfl, id⟩

theorem Kept.counted (db : ShareDb) (link : LinkRecord) (events : List ShareEvent) :
    Kept db { ShareStore.countView db link with events } := by
  dsimp only [ShareStore.countView]
  exact .of_update fun _ => ⟨rfl, rfl⟩

/-- An update of codes that reopens none keeps what events name. -/
theorem Kept.of_update_codes {p : LinkCode → Bool} {f : LinkCode → LinkCode}
    {hf : ∀ r, (f r).id = r.id} {events : List ShareEvent}
    (hsame : ∀ r ∈ db.codes, p r = true → (f r).linkId = r.linkId ∧
      (f r).expiresAt = r.expiresAt ∧ (r.closedAt.isSome → (f r).closedAt.isSome)) :
    Kept db { db with codes := db.codes.update p f hf, events } where
  link r hr := ⟨r, hr, rfl, rfl, rfl⟩
  code r hr := by
    refine ⟨_, Table.mem_update_of_mem hf hr, ?_⟩
    split
    · rename_i hp
      exact ⟨hf r, hsame r hr hp⟩
    · exact ⟨rfl, rfl, rfl, id⟩

theorem WithinLimits.drop (h : WithinLimits db) {link : LinkRecord} {now : Timestamp}
    (hlink : link ∈ db.links) (hnow : now ≤ db.now) (hclosed : isLinkOpen link now = false) :
    WithinLimits { db with
      links := db.links.update (fun r => r.id = link.id) fun r => { r with blob := none } } where
  links r' hr' := by
    simp only [Table.mem_update] at hr'
    obtain ⟨r, hr, rfl⟩ := hr'
    have hok := h.links r hr
    by_cases hid : r.id = link.id
    · obtain rfl := Table.eq_of_key_eq hr hlink hid
      simp only [decide_true, if_true]
      exact ⟨hok.opens_le, hok.views_le, hok.revoked, nofun, fun _ => isLinkOpen_later hnow hclosed⟩
    · simp only [hid, decide_false, Bool.false_eq_true, if_false]
      exact hok
  codes := h.codes
  events := h.events_of_kept (.of_update fun _ => ⟨rfl, rfl⟩) rfl

theorem WithinLimits.revoke (h : WithinLimits db) {link : LinkRecord} {now : Timestamp}
    (hlink : link ∈ db.links) :
    WithinLimits { db with
      links := db.links.update (fun r => r.id = link.id ∧ r.ownerId = link.ownerId) fun r =>
        { r with revokedAt := r.revokedAt.or (some now), blob := none }
      events := .revoked link.id :: db.events } where
  links r' hr' := by
    simp only [Table.mem_update] at hr'
    obtain ⟨r, hr, rfl⟩ := hr'
    have hok := h.links r hr
    by_cases hid : r.id = link.id
    · obtain rfl := Table.eq_of_key_eq hr hlink hid
      have hsome : (r.revokedAt.or (some now)).isSome := by cases r.revokedAt <;> rfl
      simp only [and_self, decide_true, if_true]
      refine ⟨hok.opens_le, hok.views_le, fun _ => hsome, nofun, fun _ => ?_⟩
      simp only [isLinkOpen, decide_eq_false_iff_not]
      rintro ⟨hnone, -⟩
      rw [hnone] at hsome
      cases hsome
    · simp only [hid, false_and, decide_false, Bool.false_eq_true, if_false]
      refine hok.congr rfl (fun hevent => ?_) (Nat.le_refl _)
      rcases List.mem_cons.mp hevent with heq | hevent
      · exact absurd (ShareEvent.revoked.inj heq) hid
      · exact hevent
  codes := by
    refine ⟨fun c hc => ?_, h.codes.unclosed, h.codes.live, h.codes.cooled, h.codes.hourly⟩
    have hne : ShareEvent.revoked link.id ≠ .wrongCode c.id := nofun
    exact (List.count_cons_of_ne hne).trans (h.codes.tries c hc)
  events := by
    have hkept : Kept db { db with
        links := db.links.update (fun r => r.id = link.id ∧ r.ownerId = link.ownerId) fun r =>
          { r with revokedAt := r.revokedAt.or (some now), blob := none }
        events := .revoked link.id :: db.events } := .of_update fun _ => ⟨rfl, rfl⟩
    obtain ⟨link', hlink', hid, -⟩ := hkept.link link hlink
    exact h.events_of_cons hkept rfl ⟨link', hlink', hid⟩

theorem WithinLimits.wrong (h : WithinLimits db) {c : LinkCode} {now : Timestamp}
    (hc : c ∈ db.codes) (hlive : c.closedAt = none) :
    WithinLimits { db with
      codes := db.codes.update (fun r => r.id = c.id) fun r => { r with
        attempts := c.attempts + 1
        closedAt := if maxLinkCodeAttempts ≤ c.attempts + 1 then some now else none }
      events := .wrongCode c.id :: db.events } where
  links r hr := (h.links r hr).congr rfl (fun hevent => by simpa using hevent) (Nat.le_refl _)
  codes := by
    refine h.codes.update (f := fun r => { r with
      attempts := c.attempts + 1
      closedAt := if maxLinkCodeAttempts ≤ c.attempts + 1 then some now else none }) (fun _ => rfl)
      (fun _ => ⟨rfl, rfl, rfl⟩) ?_ ?_ ?_
    · intro r hr hid _
      obtain rfl := Table.eq_of_key_eq hr hc (by simpa using hid)
      exact hlive
    · intro r hr
      by_cases hid : r.id = c.id
      · obtain rfl := Table.eq_of_key_eq hr hc hid
        simp only [decide_true, if_true]
        exact List.count_cons_self.trans (congrArg (· + 1) (h.codes.tries r hr))
      · simp only [hid, decide_false, Bool.false_eq_true, if_false]
        have hne : ShareEvent.wrongCode c.id ≠ .wrongCode r.id := by
          simpa using fun heq => hid heq.symm
        exact (List.count_cons_of_ne hne).trans (h.codes.tries r hr)
    · intro r _ _ hnone
      simp only [ite_eq_right_iff, reduceCtorEq] at hnone
      exact Nat.not_le.mp hnone
  events := by
    have hkept : Kept db { db with
        codes := db.codes.update (fun r => r.id = c.id) fun r => { r with
          attempts := c.attempts + 1
          closedAt := if maxLinkCodeAttempts ≤ c.attempts + 1 then some now else none }
        events := .wrongCode c.id :: db.events } := by
      refine .of_update_codes fun r hr hid => ⟨rfl, rfl, fun hsome => ?_⟩
      obtain rfl := Table.eq_of_key_eq hr hc (by simpa using hid)
      rw [hlive] at hsome
      cases hsome
    obtain ⟨c', hc', hid, -⟩ := hkept.code c hc
    exact h.events_of_cons hkept rfl ⟨c', hc', hid⟩

theorem WithinLimits.issue (h : WithinLimits db) {c : LinkCode} (hnew : ∀ d ∈ db.codes, d.id ≠ c.id)
    (hattempts : c.attempts = 0)
    (hcount : (db.codes.select fun d => d.linkId = c.linkId ∧ d.emailHash = c.emailHash ∧
      c.createdAt < d.createdAt + countedHour).length < codesPerHour)
    (hlast : ∀ d ∈ db.codes, d.linkId = c.linkId → d.emailHash = c.emailHash →
      d.createdAt + codeCooldown ≤ c.createdAt) :
    WithinLimits { db with
      codes := (db.codes.update
        (fun d => d.linkId = c.linkId ∧ d.emailHash = c.emailHash ∧ d.closedAt = none)
        fun d => { d with closedAt := some c.createdAt }).insertNew c } where
  links := h.links
  codes := by
    have hclosing : CodesOk (db.codes.update
        (fun d => d.linkId = c.linkId ∧ d.emailHash = c.emailHash ∧ d.closedAt = none)
        fun d => { d with closedAt := some c.createdAt }) db.events := by
      refine h.codes.update (f := fun d => { d with closedAt := some c.createdAt }) (fun _ => rfl)
        (fun _ => ⟨rfl, rfl, rfl⟩) (fun _ _ _ => nofun) (fun r hr => ?_) (fun _ _ _ => nofun)
      rw [h.codes.tries r hr]
      split <;> rfl
    -- closing a code leaves everything else about it alone
    have hrow : ∀ d ∈ db.codes.update
        (fun d => d.linkId = c.linkId ∧ d.emailHash = c.emailHash ∧ d.closedAt = none)
        (fun d => { d with closedAt := some c.createdAt }), ∃ r ∈ db.codes, d.id = r.id ∧
          d.linkId = r.linkId ∧ d.emailHash = r.emailHash ∧ d.createdAt = r.createdAt ∧
          (d.SameFor c → d.closedAt.isSome) := by
      intro d hd
      obtain ⟨r, hr, rfl⟩ := Table.mem_update.mp hd
      refine ⟨r, hr, ?_⟩
      split
      · exact ⟨rfl, rfl, rfl, rfl, fun _ => rfl⟩
      · rename_i hopen
        refine ⟨rfl, rfl, rfl, rfl, fun hsame => ?_⟩
        by_contra hnone
        exact hopen (by simpa using ⟨hsame.1, hsame.2, by simpa using hnone⟩)
    refine hclosing.insert ?_ (h.wrongTries_eq_zero hnew) hattempts ?_ ?_ ?_
    · intro d hd
      obtain ⟨r, hr, hid, -⟩ := hrow d hd
      rw [hid]
      exact hnew r hr
    · intro d hd
      obtain ⟨r, hr, -, -, -, -, hclosed⟩ := hrow d hd
      exact hclosed
    · intro d hd hsame
      obtain ⟨r, hr, -, hlink, hemail, hcreated, -⟩ := hrow d hd
      rw [hcreated]
      exact hlast r hr (hlink.symm.trans hsame.1) (hemail.symm.trans hsame.2)
    · rw [Table.select_update (f := fun d : LinkCode => { d with closedAt := some c.createdAt })
        (q := fun d : LinkCode => d.linkId = c.linkId ∧ d.emailHash = c.emailHash ∧
          c.createdAt < d.createdAt + countedHour) (fun _ => rfl) fun _ _ => rfl, List.length_map]
      exact hcount
  events := by
    have hclosing : Kept db { db with
        codes := db.codes.update
          (fun d => d.linkId = c.linkId ∧ d.emailHash = c.emailHash ∧ d.closedAt = none)
          fun d => { d with closedAt := some c.createdAt } } :=
      .of_update_codes fun _ _ _ => ⟨rfl, rfl, fun _ => rfl⟩
    refine h.events_of_kept ⟨fun r hr => ⟨r, hr, rfl, rfl, rfl⟩, fun r hr => ?_⟩ rfl
    obtain ⟨r', hr', hrow⟩ := hclosing.code r hr
    exact ⟨r', Table.mem_insertNew.mpr (Or.inl hr'), hrow⟩

theorem opens_opened {events : List ShareEvent} (id : ShareId) (now : Timestamp)
    (code : Option Uuid) : opens (.opened id now code :: events) id = opens events id + 1 :=
  List.countP_cons_of_pos (by simp)

theorem opens_opened_of_ne {events : List ShareEvent} {id other : ShareId} (h : other ≠ id)
    (now : Timestamp) (code : Option Uuid) :
    opens (.opened id now code :: events) other = opens events other :=
  List.countP_cons_of_neg (by simpa using fun heq => h heq.symm)

@[simp] theorem ShareDb.spend_links (db : ShareDb) (now : Timestamp) (spent : Option LinkCode) :
    (db.spend now spent).links = db.links := by
  cases spent <;> rfl

@[simp] theorem ShareDb.spend_now (db : ShareDb) (now : Timestamp) (spent : Option LinkCode) :
    (db.spend now spent).now = db.now := by
  cases spent <;> rfl

@[simp] theorem ShareDb.spend_events (db : ShareDb) (now : Timestamp) (spent : Option LinkCode) :
    (db.spend now spent).events = db.events := by
  cases spent <;> rfl

/-- The code of a view is spent. -/
theorem WithinLimits.spend (h : WithinLimits db) (now : Timestamp) {spent : Option LinkCode}
    (hspent : ∀ c ∈ spent, c ∈ db.codes) :
    CodesOk (db.spend now spent).codes db.events ∧ Kept db (db.spend now spent) ∧
      ∀ c ∈ spent, ∃ r ∈ (db.spend now spent).codes, r.id = c.id ∧ r.linkId = c.linkId ∧
        r.expiresAt = c.expiresAt ∧ r.closedAt.isSome := by
  cases spent with
  | none => exact ⟨h.codes, .of_eq rfl rfl, nofun⟩
  | some c =>
    have hc := hspent c rfl
    refine ⟨?_, .of_update_codes fun _ _ _ => ⟨rfl, rfl, fun _ => rfl⟩, ?_⟩
    · refine h.codes.update (f := fun r => { r with attempts := c.attempts, closedAt := some now })
        (fun _ => rfl) (fun _ => ⟨rfl, rfl, rfl⟩) (fun _ _ _ => nofun) (fun r hr => ?_)
        (fun _ _ _ => nofun)
      rw [h.codes.tries r hr]
      split
      · rename_i hid
        obtain rfl := Table.eq_of_key_eq hr hc (by simpa using hid)
        rfl
      · rfl
    · rintro d ⟨⟩
      have hrow := Table.mem_update_of_mem (p := fun r => r.id = c.id)
        (f := fun r : LinkCode => { r with attempts := c.attempts, closedAt := some now })
        (fun _ => rfl) hc
      simp only [decide_true, if_true] at hrow
      exact ⟨_, hrow, rfl, rfl, rfl, rfl⟩

/-- An open link after a view. The blob of the last view is gone. -/
theorem LinkOk.counted {events events' : List ShareEvent} {now later : Timestamp} {link : LinkRecord}
    (h : LinkOk events later link) (hopen : isLinkOpen link now = true)
    (hopens : opens events' link.id ≤ opens events link.id + 1)
    (hrevoked : .revoked link.id ∈ events' → .revoked link.id ∈ events) :
    LinkOk events' later { link with
      viewCount := link.viewCount + 1
      blob := if link.maxViews ≤ link.viewCount + 1 then none else link.blob } := by
  simp only [isLinkOpen, decide_eq_true_eq] at hopen
  obtain ⟨hunrevoked, -, hviews⟩ := hopen
  refine ⟨?_, hviews, fun hevent => h.revoked (hrevoked hevent), ?_, ?_⟩
  · exact Nat.le_trans hopens (Nat.add_le_add_right h.opens_le 1)
  · intro hblob
    refine ⟨hunrevoked, ?_⟩
    by_contra hlast
    simp [Nat.not_lt.mp hlast] at hblob
  · intro hblob
    simp only [isLinkOpen, decide_eq_false_iff_not]
    rintro ⟨-, hexpires, hlast⟩
    rw [if_neg (Nat.not_le.mpr hlast)] at hblob
    have hclosed := h.blob_none hblob
    simp only [isLinkOpen, decide_eq_false_iff_not] at hclosed
    exact hclosed ⟨hunrevoked, hexpires, hviews⟩

/-- A link that was revoked cannot be opened. -/
theorem LinkOk.unrevoked {events : List ShareEvent} {now later : Timestamp} {link : LinkRecord}
    (h : LinkOk events later link) (hopen : isLinkOpen link now = true) :
    .revoked link.id ∉ events := by
  intro hevent
  have hsome := h.revoked hevent
  simp only [isLinkOpen, decide_eq_true_eq] at hopen
  rw [hopen.1] at hsome
  cases hsome

theorem WithinLimits.view (h : WithinLimits db) {link : LinkRecord} {now : Timestamp}
    {spent : Option LinkCode} (hlink : link ∈ db.links) (hopen : isLinkOpen link now = true)
    (hspent : ∀ c ∈ spent, c ∈ db.codes ∧ c.linkId = link.id ∧ c.closedAt = none ∧
      now < c.expiresAt)
    (hrestricted : link.allowedEmails.isSome → spent.isSome) :
    WithinLimits
      ((ShareStore.countView (db.spend now spent) link).answer link now
        (spent.map LinkCode.id)) := by
  obtain ⟨hcodes, hkept, hclosed⟩ := h.spend now fun c hc => (hspent c hc).1
  have hok := h.links link hlink
  have hunrevoked := hok.unrevoked hopen
  -- the rows of the links, whatever the events are
  have hlinks : ∀ events, (∀ id, opens events id = opens db.events id ∨
        id = link.id ∧ opens events id = opens db.events id + 1) →
      (∀ id, .revoked id ∈ events → .revoked id ∈ db.events) →
      ∀ r ∈ (ShareStore.countView (db.spend now spent) link).links, LinkOk events db.now r := by
    intro events hopens hrevoked r' hr'
    simp only [ShareStore.countView, ShareDb.spend_links, Table.mem_update] at hr'
    obtain ⟨r, hr, rfl⟩ := hr'
    by_cases hid : r.id = link.id
    · obtain rfl := Table.eq_of_key_eq hr hlink hid
      simp only [decide_true, if_true]
      refine hok.counted hopen ?_ (hrevoked _)
      rcases hopens r.id with heq | ⟨-, heq⟩
      · omega
      · omega
    · simp only [hid, decide_false, Bool.false_eq_true, if_false]
      refine (h.links r hr).congr ?_ (hrevoked _) (Nat.le_refl _)
      exact (hopens r.id).resolve_right fun heq => hid heq.1
  have hkept' : ∀ events, Kept db { ShareStore.countView (db.spend now spent) link with events } :=
    fun events => hkept.trans (.counted _ _ _)
  unfold ShareDb.answer
  split
  · refine ⟨fun r hr => ?_, ?_, ?_⟩
    · have hrow := hlinks db.events (fun _ => Or.inl rfl) (fun _ => id) r hr
      simpa only [ShareStore.countView, ShareDb.spend_events, ShareDb.spend_now] using hrow
    · simpa only [ShareStore.countView, ShareDb.spend_events] using hcodes
    · exact h.events_of_kept (hkept' _) (ShareDb.spend_events db now spent)
  · refine ⟨fun r hr => ?_, ⟨fun c hc => ?_, hcodes.unclosed, hcodes.live, hcodes.cooled,
      hcodes.hourly⟩, ?_⟩
    · have hrow := hlinks (.opened link.id now (spent.map LinkCode.id) :: db.events) ?_ ?_ r hr
      · simpa only [ShareStore.countView, ShareDb.spend_events, ShareDb.spend_now] using hrow
      · intro id
        by_cases hid : id = link.id
        · rw [hid]
          exact Or.inr ⟨rfl, opens_opened _ _ _⟩
        · exact Or.inl (opens_opened_of_ne hid _ _)
      · intro id hevent
        simpa using hevent
    · have htries := hcodes.tries c hc
      have hne : ShareEvent.opened link.id now (spent.map LinkCode.id) ≠ .wrongCode c.id := nofun
      simpa only [wrongTries, ShareStore.countView, ShareDb.spend_events, List.count_cons_of_ne hne]
        using htries
    · refine h.events_of_cons (hkept' _) (congrArg _ (ShareDb.spend_events db now spent)) ?_
      refine ⟨hunrevoked, ?_, ?_⟩
      · obtain ⟨r, hr, hid, hexpires, hallowed⟩ := (hkept' []).link link hlink
        simp only [isLinkOpen, decide_eq_true_eq] at hopen
        refine ⟨r, hr, hid, ?_, ?_⟩
        · rw [hexpires]
          exact hopen.2.1
        · rw [hallowed, Option.isSome_map]
          exact hrestricted
      · intro id hid
        obtain ⟨c, hc, rfl⟩ := Option.map_eq_some_iff.mp hid
        obtain ⟨hmem, hlinkId, hlive, hexpires⟩ := hspent c hc
        obtain ⟨r, hr, hid, hr_link, hr_expires, hr_closed⟩ := hclosed c hc
        refine ⟨⟨r, hr, hid, hr_link.trans hlinkId, ?_, hr_closed⟩, ?_, h.unspent hmem hlive⟩
        · rw [hr_expires]
          exact hexpires
        · rw [h.codes.tries c hmem]
          exact h.codes.unclosed c hmem hlive

/-- A step keeps the limits. -/
theorem WithinLimits.step (h : WithinLimits db) (hstep : ShareStep db db') : WithinLimits db' := by
  cases hstep with
  | nothing => exact h
  | clock now hle =>
    exact ⟨fun r hr => (h.links r hr).congr rfl id hle, h.codes,
      h.events_of_kept (.of_eq rfl rfl) rfl⟩
  | insert link hnew hviews hmax hblob hrevoked => exact h.insert hnew hviews hmax hblob hrevoked
  | drop link now hlink hnow hclosed => exact h.drop hlink hnow hclosed
  | revoke link now hlink => exact h.revoke hlink
  | wrong c now hc hlive => exact h.wrong hc hlive
  | view link now spent hlink hopen hspent hrestricted =>
    exact h.view hlink hopen hspent hrestricted
  | issue c hnew hattempts hcount hlast => exact h.issue hnew hattempts hcount hlast

/-- Time does not go back. -/
theorem ShareStep.now_le (hstep : ShareStep db db') : db.now ≤ db'.now := by
  cases hstep with
  | clock now hle => exact hle
  | view link now spent =>
    unfold ShareDb.answer
    split
    · exact Nat.le_of_eq (ShareDb.spend_now db now spent).symm
    · exact Nat.le_of_eq (ShareDb.spend_now db now spent).symm
  | _ => exact Nat.le_refl _

/-- The limits hold in every run, and no waiting request has read a clock that is ahead. -/
theorem share_outline (hashes : ShareHashes) :
    Outline (shareProgram hashes) WithinLimits (fun db task => ∀ now ∈ task.arrival, now ≤ db.now)
      fun _ _ => True := by
  refine .of_free (fun {db task} _ hstart now hnow => ?_) (fun {db task db' next} h hwaits hact => ?_)
    (fun {db task db' next} h hwaits hact now hnow => ?_)
    (fun {db task db' next u} h hwaits hu hact now hnow => ?_)
  · exact Nat.le_of_eq (hstart.2 now hnow)
  · obtain ⟨id, code, hact⟩ := hact
    exact h.step (proceed_step hwaits hact).1
  · obtain ⟨id, code, hact⟩ := hact
    obtain ⟨hstep, hnext⟩ := proceed_step hwaits hact
    rw [hnext next rfl] at hnow
    exact Nat.le_trans (hwaits now hnow) hstep.now_le
  · obtain ⟨id, code, hact⟩ := hact
    exact Nat.le_trans (hu now hnow) (proceed_step hwaits hact).1.now_le

/-- Links and codes stay within their limits, whatever requests come and however their steps
interleave. Expiry is judged by the clock a request has read. -/
theorem share_links_limited {hashes : ShareHashes} {db : ShareDb} {tasks : List ShareTask}
    (hrun : Run (shareProgram hashes) ⟨ShareDb.initial, []⟩ ⟨db, tasks⟩) :
    (∀ link ∈ db.links, opens db.events link.id ≤ link.maxViews) ∧
    (∀ newer id now code older, db.events = newer ++ .opened id now code :: older →
      .revoked id ∉ older ∧
      (∃ link ∈ db.links, link.id = id ∧ now < link.expiresAt ∧
        (link.allowedEmails.isSome → code.isSome)) ∧
      ∀ c ∈ code, (∃ r ∈ db.codes, r.id = c ∧ r.linkId = id ∧ now < r.expiresAt) ∧
        wrongTries older c < maxLinkCodeAttempts ∧ ∀ id now, .opened id now (some c) ∉ older) ∧
    (∀ link ∈ db.links, (isLinkOpen link db.now = true → link.blob.isSome) ∧
      (.revoked link.id ∈ db.events → link.revokedAt.isSome) ∧
      (link.revokedAt.isSome ∨ link.maxViews ≤ link.viewCount → link.blob = none)) ∧
    (∀ c ∈ db.codes, ∀ d ∈ db.codes, c.SameFor d → c.closedAt = none → d.closedAt = none →
      c = d) ∧
    (∀ c ∈ db.codes, ∀ d ∈ db.codes, c.SameFor d → c ≠ d →
      c.createdAt + codeCooldown ≤ d.createdAt ∨ d.createdAt + codeCooldown ≤ c.createdAt) ∧
    ∀ linkId emailHash t, (codesInHour db.codes linkId emailHash t).length ≤ codesPerHour := by
  have h : WithinLimits db := ((share_outline hashes).run_idle .initial hrun).inv
  refine ⟨fun link hlink => ?_, fun newer id now code older hevents => ?_, fun link hlink => ?_,
    h.codes.live, h.codes.cooled, h.codes.hourly⟩
  · exact Nat.le_trans (h.links link hlink).opens_le (h.links link hlink).views_le
  · obtain ⟨hrevoked, hlink, hcode⟩ := h.events newer older _ hevents
    refine ⟨hrevoked, hlink, fun c hc => ?_⟩
    obtain ⟨⟨r, hr, hid, hlinkId, hexpires, -⟩, htries, hunspent⟩ := hcode c hc
    exact ⟨⟨r, hr, hid, hlinkId, hexpires⟩, htries, hunspent⟩
  · have hok := h.links link hlink
    refine ⟨fun hopen => ?_, hok.revoked, fun hended => ?_⟩
    · by_contra hblob
      rw [hok.blob_none (by simpa using hblob)] at hopen
      cases hopen
    · by_contra hblob
      obtain ⟨hunrevoked, hviews⟩ := hok.blob_some (Option.isSome_iff_ne_none.mpr hblob)
      rcases hended with hrevoked | hused
      · rw [hunrevoked] at hrevoked
        cases hrevoked
      · omega

/-- A link for one email, a code for it, and the one open they allow. -/
theorem share_links_limited_opened : ∃ db : ShareDb, opens db.events 7 = 1 ∧
    (∀ link ∈ db.links, opens db.events link.id ≤ link.maxViews) ∧ ∃ link ∈ db.links, link.id = 7 := by
  let hashes : ShareHashes := ⟨fun s => s.length, fun _ s => s.length, fun _ _ s => s.length⟩
  let req : CreateShareLinkRequest := ⟨7, 5, 3, 60, 1, by decide, some ["a@b.c"]⟩
  have hrun : ∃ db, Run (shareProgram hashes) ⟨ShareDb.initial, []⟩ ⟨db, []⟩ ∧ opens db.events 7 = 1 ∧
      ∃ link ∈ db.links, link.id = 7 := by
    refine ⟨_, .tail (.tail (.tail (.tail (.tail (.tail (.tail (.tail (.tail .refl
      (.start (t := .create 1 req 0) ⟨rfl, by rintro _ ⟨⟩; rfl⟩)) (.next ⟨0, "", rfl⟩)) (.last ⟨0, "", rfl⟩))
      (.start (t := .requestCode 7 "key" "a@b.c" 0) ⟨rfl, by rintro _ ⟨⟩; rfl⟩))
      (.next ⟨0, "", rfl⟩)) (.next ⟨0, "123456", rfl⟩)) (.last ⟨9, "", rfl⟩))
      (.start (t := .open 7 "key" (some "a@b.c") (some "123456") 0) ⟨rfl, by rintro _ ⟨⟩; rfl⟩))
      (.last ⟨0, "", rfl⟩), ?_, ?_⟩
    · decide +kernel
    · decide +kernel
  obtain ⟨db, hrun, hopens, hlink⟩ := hrun
  exact ⟨db, hopens, (share_links_limited hrun).1, hlink⟩

end Limits

end Zvault
