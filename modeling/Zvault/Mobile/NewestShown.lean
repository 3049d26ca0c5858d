import Zvault.Mobile.AppState

/-!
# What the phone shows

The screens list what belongs to the account that is signed in, nothing while the
app is locked, and no older revision of an item than one that was saved, as long as
a sync ends for the account that it began for, an item is saved and loaded in one
order, and accounts change while nothing is listed.
-/

namespace Zvault.Mobile

open Concurrent
open Function (update)

/-- What the screens list. -/
structure World.ShowsOwnNewest (belongs : String → String → Bool) (w : World) : Prop where
  items : ∀ item ∈ w.app.items, ∃ account ∈ w.app.account, belongs account.email item.id = true
  projects : ∀ id ∈ w.app.projects, ∃ account ∈ w.app.account, belongs account.email id = true
  locked : w.app.phase ≠ .unlocked → w.app.items = [] ∧ w.app.projects = []
  newest : ∀ item ∈ w.app.items, ∀ saved ∈ w.saved, saved.id = item.id →
    saved.revision ≤ item.revision

/-- A sync that is not stopped by a lock ends while its account is signed in, and has loaded every
item that was saved since it began no older than it was saved. `setItemTotp` returns an item of
which no newer revision was saved since its request. An account is signed in or forgotten while
nothing is listed. -/
def InTurn (w : World) : Task → Prop
  | .showLoaded api known items _ => w.app.phase = .unlocked →
    w.app.account.map (·.email) = some api ∧
      ∀ saved ∈ w.saved, saved ∉ known → ∀ item ∈ items, saved.id = item.id →
        saved.revision ≤ item.revision
  | .itemSummary known updated =>
    ∀ saved ∈ w.saved, saved ∉ known → saved.id = updated.id → saved.revision ≤ updated.revision
  | .finishPairing _ | .forget => w.app.items = [] ∧ w.app.projects = []
  | _ => True

variable {belongs : String → String → Bool}

/-- A record of an account's, no older than what was known to be saved. -/
def Loaded (belongs : String → String → Bool) (api : String) (known : List VaultItem) (id : String)
    (revision : ℕ) : Prop :=
  belongs api id = true ∧ ∀ saved ∈ known, saved.id = id → saved.revision ≤ revision

/-- The API has a record, at this revision or a later one. -/
def World.Keeps (w : World) (id : String) (revision : ℕ) : Prop :=
  ∃ record, w.server id = some record ∧ revision ≤ record.revision

/-- What a method relies on. -/
def Task.Waits (belongs : String → String → Bool) (w : World) : Task → Prop
  | .vaults api known out =>
    known ⊆ w.saved ∧ ∀ item ∈ out, Loaded belongs api known item.id item.revision
  | .page api known records out | .summaries api known records out =>
    known ⊆ w.saved ∧ (∀ item ∈ out, Loaded belongs api known item.id item.revision) ∧
      ∀ record ∈ records, Loaded belongs api known record.id record.revision
  | .projects api known items out | .showLoaded api known items out =>
    (∀ item ∈ items, Loaded belongs api known item.id item.revision) ∧
      ∀ id ∈ out, belongs api id = true
  | .itemSummary known updated =>
    w.Keeps updated.id updated.revision ∧
      ∀ saved ∈ known, saved.id = updated.id → saved.revision ≤ updated.revision
  | _ => True

structure World.Sound (belongs : String → String → Bool) (w : World) : Prop where
  shows : w.ShowsOwnNewest belongs
  kept : ∀ saved ∈ w.saved, w.Keeps saved.id saved.revision

section Acts

variable {w w' : World} {task : Task} {next : Option Task}

/-- A record is replaced by a newer one. -/
theorem World.Keeps.update {id : String} {revision : ℕ} (h : w.Keeps id revision) {id' : String}
    {record : ItemRecord} (hnewer : ∀ current ∈ w.server id', current.revision ≤ record.revision) :
    World.Keeps { w with server := update w.server id' (some record) } id revision := by
  obtain ⟨current, hcurrent, hle⟩ := h
  by_cases hid : id = id'
  · subst hid
    exact ⟨record, Function.update_self .., Nat.le_trans hle (hnewer current hcurrent)⟩
  · exact ⟨current, (Function.update_of_ne hid ..).trans hcurrent, hle⟩

/-- A save is of the record that is current, in its account. -/
theorem World.putItem_eq_some {api : String} {item : VaultItem} {record : ItemRecord}
    (h : w.putItem belongs api item = some record) :
    ∃ current, w.server item.id = some current ∧ record.revision = current.revision + 1 := by
  simp only [putItem, Option.bind_eq_bind, Option.bind_eq_some_iff] at h
  obtain ⟨current, hcurrent, h⟩ := h
  split at h
  · obtain rfl := Option.some_inj.mp h
    exact ⟨current, hcurrent, rfl⟩
  · cases h

theorem World.putItem_newer {api : String} {item : VaultItem} {record : ItemRecord}
    (h : w.putItem belongs api item = some record) :
    ∀ current ∈ w.server item.id, current.revision ≤ record.revision := by
  intro current hcurrent
  obtain ⟨_, hsame, hrevision⟩ := World.putItem_eq_some h
  obtain rfl := Option.some_inj.mp (hcurrent.symm.trans hsame)
  omega

/-- Nothing that the API has becomes older. -/
theorem Acts.keeps (h : Acts belongs w task w' next) {id : String} {revision : ℕ}
    (hkeeps : w.Keeps id revision) : w'.Keeps id revision := by
  cases h with
  | put hput | unanswered hput => exact hkeeps.update (World.putItem_newer hput)
  | others hnewer => exact hkeeps.update hnewer
  | _ => exact hkeeps

/-- What is saved stays so. -/
theorem Acts.saved_subset (h : Acts belongs w task w' next) : w.saved ⊆ w'.saved := by
  cases h with
  | itemSummary => exact List.subset_cons_self ..
  | _ => exact List.Subset.refl _

/-- A sync shows what it loaded. -/
theorem World.ShowsOwnNewest.sync {api : String} {known items : List VaultItem}
    {projects : List String} (h : w.ShowsOwnNewest belongs)
    (hwaits : Task.Waits belongs w (.showLoaded api known items projects))
    (hturn : InTurn w (.showLoaded api known items projects)) :
    World.ShowsOwnNewest belongs { w with app := w.app.sync items projects } := by
  unfold AppState.sync
  split
  · exact ⟨h.items, h.projects, h.locked, h.newest⟩
  · rename_i hphase
    obtain ⟨haccount, hsince⟩ := hturn (Decidable.not_not.mp hphase)
    obtain ⟨account, hsome, rfl⟩ := Option.map_eq_some_iff.mp haccount
    refine ⟨fun item hitem => ⟨account, hsome, (hwaits.1 item hitem).1⟩,
      fun id hid => ⟨account, hsome, hwaits.2 id hid⟩, fun hlocked => absurd hlocked hphase, ?_⟩
    intro item hitem saved hsaved hid
    by_cases hknown : saved ∈ known
    · exact (hwaits.1 item hitem).2 saved hknown hid
    · exact hsince saved hsaved hknown item hitem hid

/-- A saved item takes its own place. -/
theorem World.ShowsOwnNewest.setItem {known : List VaultItem} {updated : VaultItem}
    (h : w.ShowsOwnNewest belongs)
    (hwaits : Task.Waits belongs w (.itemSummary known updated))
    (hturn : InTurn w (.itemSummary known updated)) :
    World.ShowsOwnNewest belongs
      { w with app := w.app.setItem updated, saved := updated :: w.saved } := by
  have hmem : ∀ item ∈ (w.app.setItem updated).items,
      (item = updated ∧ ∃ old ∈ w.app.items, old.id = updated.id) ∨
        (item ∈ w.app.items ∧ item.id ≠ updated.id) := by
    intro item hitem
    obtain ⟨old, hold, rfl⟩ := List.mem_map.mp hitem
    by_cases hid : old.id = updated.id
    · exact Or.inl ⟨if_pos hid, old, hold, hid⟩
    · rw [if_neg hid]
      exact Or.inr ⟨hold, hid⟩
  refine ⟨fun item hitem => ?_, h.projects, fun hlocked => ?_, ?_⟩
  · rcases hmem item hitem with ⟨rfl, old, hold, hid⟩ | ⟨hold, -⟩
    · exact hid ▸ h.items old hold
    · exact h.items item hold
  · obtain ⟨hitems, hprojects⟩ := h.locked hlocked
    exact ⟨by simp [AppState.setItem, hitems], hprojects⟩
  · intro item hitem saved hsaved hid
    rcases hmem item hitem with ⟨rfl, -⟩ | ⟨hold, hne⟩
    · rcases List.mem_cons.mp hsaved with rfl | hsaved
      · exact Nat.le_refl _
      · by_cases hknown : saved ∈ known
        · exact hwaits.2 saved hknown hid
        · exact hturn saved hsaved hknown hid
    · rcases List.mem_cons.mp hsaved with rfl | hsaved
      · exact absurd hid.symm hne
      · exact h.newest item hold saved hsaved hid

/-- Nothing is listed. -/
theorem World.ShowsOwnNewest.of_nil (hitems : w.app.items = []) (hprojects : w.app.projects = []) :
    w.ShowsOwnNewest belongs :=
  ⟨by simp [hitems], by simp [hprojects], fun _ => ⟨hitems, hprojects⟩, by simp [hitems]⟩

theorem World.ShowsOwnNewest.saveKeyset (h : w.ShowsOwnNewest belongs) (keyset : String) :
    World.ShowsOwnNewest belongs { w with keyset := some keyset, app := w.app.saveKeyset } := by
  have hemail : ∀ {id : String}, (∃ account ∈ w.app.account, belongs account.email id = true) →
      ∃ account ∈ w.app.saveKeyset.account, belongs account.email id = true := by
    rintro id ⟨account, haccount, hbelongs⟩
    exact ⟨_, Option.mem_map_of_mem _ haccount, hbelongs⟩
  exact ⟨fun item hitem => hemail (h.items item hitem), fun id hid => hemail (h.projects id hid),
    h.locked, h.newest⟩

variable (hsound : w.Sound belongs)
include hsound

/-- What is listed after a step in turn. -/
theorem Acts.shows (h : Acts belongs w task w' next) (hwaits : task.Waits belongs w)
    (hturn : InTurn w task) : w'.ShowsOwnNewest belongs := by
  obtain ⟨hitems, hprojects, hlocked, hnewest⟩ := hsound.shows
  cases h with
  | finishPairing | forget => exact .of_nil hturn.1 hturn.2
  | lock | clear => exact .of_nil rfl rfl
  | saveKeyset => exact hsound.shows.saveKeyset _
  | showLoaded => exact hsound.shows.sync hwaits hturn
  | itemSummary => exact hsound.shows.setItem hwaits hturn
  | paired | unlock => exact ⟨hitems, hprojects, fun h => absurd rfl h, hnewest⟩
  | _ => exact ⟨hitems, hprojects, hlocked, hnewest⟩

theorem World.Sound.step (h : Acts belongs w task w' next) (hwaits : task.Waits belongs w)
    (hturn : InTurn w task) : w'.Sound belongs := by
  refine ⟨h.shows hsound hwaits hturn, ?_⟩
  have hkept : w'.saved = w.saved → ∀ saved ∈ w'.saved, w'.Keeps saved.id saved.revision := by
    intro hsaved saved hmem
    exact h.keeps (hsound.kept saved (hsaved ▸ hmem))
  cases h with
  | itemSummary =>
    intro saved hmem
    rcases List.mem_cons.mp hmem with rfl | hmem
    · exact hwaits.1
    · exact hsound.kept saved hmem
  | _ => exact hkept rfl

omit hsound in
/-- What a page holds is merged with what was loaded before. -/
theorem loaded_foldl_addRecord {api : String} {known : List VaultItem} {records : List ItemRecord} :
    ∀ {byId : List ItemRecord},
      (∀ record ∈ byId, Loaded belongs api known record.id record.revision) →
      (∀ record ∈ records, Loaded belongs api known record.id record.revision) →
      ∀ record ∈ records.foldl addRecord byId, Loaded belongs api known record.id record.revision := by
  induction records with
  | nil => exact fun hbyId _ => hbyId
  | cons added records ih =>
    intro byId hbyId hrecords
    refine ih (fun record hrecord => ?_) fun record hrecord =>
      hrecords record (List.mem_cons_of_mem _ hrecord)
    simp only [addRecord] at hrecord
    split at hrecord
    · exact hbyId record (List.mem_filter.mp hrecord).1
    · rcases List.mem_cons.mp hrecord with rfl | hrecord
      · exact hrecords record List.mem_cons_self
      · exact hbyId record (List.mem_filter.mp hrecord).1

/-- A record that the API has now is loaded. -/
theorem World.Sound.loaded {api : String} {known : List VaultItem} (hknown : known ⊆ w.saved)
    {record : ItemRecord} (hrecord : w.server record.id = some record)
    (hbelongs : belongs api record.id = true) :
    Loaded belongs api known record.id record.revision := by
  refine ⟨hbelongs, fun saved hsaved hid => ?_⟩
  obtain ⟨current, hcurrent, hle⟩ := hsound.kept saved (hknown hsaved)
  rw [hid, hrecord] at hcurrent
  obtain rfl := Option.some_inj.mp hcurrent
  exact hle

theorem Acts.waits_next {next : Task} (h : Acts belongs w task w' (some next))
    (hwaits : task.Waits belongs w) : next.Waits belongs w' := by
  generalize hnext : some next = after at h
  cases h with
  | sync =>
    obtain rfl := Option.some_inj.mp hnext
    exact ⟨List.Subset.refl _, nofun⟩
  | vault =>
    obtain rfl := Option.some_inj.mp hnext
    exact ⟨hwaits.1, hwaits.2, nofun⟩
  | noMoreVaults =>
    obtain rfl := Option.some_inj.mp hnext
    exact ⟨hwaits.2, nofun⟩
  | page records hasMore hserved =>
    obtain rfl := Option.some_inj.mp hnext
    have hloaded := loaded_foldl_addRecord hwaits.2.2 fun record hrecord =>
      hsound.loaded hwaits.1 (hserved record hrecord).1 (hserved record hrecord).2
    cases hasMore with
    | true => exact ⟨hwaits.1, hwaits.2.1, hloaded⟩
    | false => exact ⟨hwaits.1, hwaits.2.1, hloaded⟩
  | summary =>
    obtain rfl := Option.some_inj.mp hnext
    refine ⟨hwaits.1, fun item hitem => ?_, fun record hrecord =>
      hwaits.2.2 record (List.mem_cons_of_mem _ hrecord)⟩
    rcases List.mem_cons.mp hitem with rfl | hitem
    · exact hwaits.2.2 _ List.mem_cons_self
    · exact hwaits.2.1 item hitem
  | unreadable =>
    obtain rfl := Option.some_inj.mp hnext
    exact ⟨hwaits.1, hwaits.2.1, fun record hrecord =>
      hwaits.2.2 record (List.mem_cons_of_mem _ hrecord)⟩
  | noMoreItems =>
    obtain rfl := Option.some_inj.mp hnext
    exact ⟨hwaits.1, hwaits.2.1⟩
  | project id hbelongs =>
    obtain rfl := Option.some_inj.mp hnext
    refine ⟨hwaits.1, fun other hother => ?_⟩
    rcases List.mem_cons.mp hother with rfl | hother
    · exact hbelongs
    · exact hwaits.2 other hother
  | noMoreProjects =>
    obtain rfl := Option.some_inj.mp hnext
    exact hwaits
  | put hput =>
    obtain rfl := Option.some_inj.mp hnext
    refine ⟨⟨_, Function.update_self .., Nat.le_refl _⟩, fun saved hsaved hid => ?_⟩
    obtain ⟨current, hcurrent, hle⟩ := hsound.kept saved hsaved
    exact Nat.le_trans hle (World.putItem_newer hput current (hid ▸ hcurrent))
  | lock =>
    split at hnext
    · obtain rfl := Option.some_inj.mp hnext
      trivial
    · cases hnext
  | _ => cases hnext <;> trivial

omit hsound in
theorem Acts.waits_other {u : Task} (h : Acts belongs w task w' next) (hu : u.Waits belongs w) :
    u.Waits belongs w' := by
  cases u with
  | vaults => exact ⟨List.Subset.trans hu.1 h.saved_subset, hu.2⟩
  | page | summaries => exact ⟨List.Subset.trans hu.1 h.saved_subset, hu.2⟩
  | projects | showLoaded => exact hu
  | itemSummary => exact ⟨h.keeps hu.1, hu.2⟩
  | _ => trivial

end Acts

theorem appOutline (belongs : String → String → Bool) :
    Outline ((program belongs).when InTurn) (World.Sound belongs)
      (fun w task => task.Waits belongs w) fun _ _ => True :=
  .of_free
    (by
      rintro w task - hstart
      cases task <;> trivial)
    (by
      rintro w task w' next hsound hwaits ⟨hturn, h⟩
      exact hsound.step h hwaits hturn)
    (by
      rintro w task w' next hsound hwaits ⟨-, h⟩
      exact h.waits_next hsound hwaits)
    (by
      rintro w task w' next u - - hu ⟨-, h⟩
      exact h.waits_other hu)

/-- In a run in turn, the screens list the newest of what belongs to the account. -/
theorem showsOwnNewest_of_inTurn {account : Option SavedAccount} {keyset : Option String}
    {server : String → Option ItemRecord} {w : World} {tasks : List Task}
    (hrun : Run ((program belongs).when InTurn) ⟨.initial account keyset server, []⟩ ⟨w, tasks⟩) :
    w.ShowsOwnNewest belongs := by
  have hinitial : (World.initial account keyset server).Sound belongs :=
    ⟨.of_nil rfl rfl, nofun⟩
  exact ((appOutline belongs).run_idle hinitial hrun).inv.shows

section Runs

variable {condition : World → Task → Prop} {s : Concurrent.System World Task} {w w' : World}
  {task : Task} {next : Option Task} {rest : List Task}

theorem app_starts (h : Run ((program belongs).when condition) s ⟨w, rest⟩) (task : Task)
    (hstart : task.canStart = true) :
    Run ((program belongs).when condition) s ⟨w, task :: rest⟩ :=
  h.tail (.start hstart)

theorem app_proceeds (h : Run ((program belongs).when condition) s ⟨w, task :: rest⟩)
    (hact : Acts belongs w task w' next) (hcondition : condition w task) :
    Run ((program belongs).when condition) s ⟨w', next.toList ++ rest⟩ :=
  h.proceeds ⟨hcondition, hact⟩

/-- One account has one item. -/
def oneItem (account id : String) : Bool := account == "me" && id == "item"

/-- A sync loads the item and is about to show it. -/
theorem sync_loads (hcondition : ∀ w task, InTurn w task → condition w task)
    (h : Run ((program oneItem).when condition) s ⟨w, .sync :: rest⟩) (hapi : w.app.api = some "me")
    (hcore : w.core = some "me") (hcan : w.app.canSync = true) (record : ItemRecord)
    (hrecord : w.server "item" = some record) (hid : record.id = "item")
    (hlive : record.deleted = false) :
    Run ((program oneItem).when condition) s
      ⟨{ w with app := { w.app with syncing := true } },
        .showLoaded "me" w.saved [⟨"item", record.revision⟩] [] :: rest⟩ := by
  have hsync := app_proceeds h (.sync hapi hcan) (hcondition _ _ trivial)
  have hvault := app_proceeds hsync .vault (hcondition _ _ trivial)
  have hpage := app_proceeds hvault (.page [record] false (by simp [hid, hrecord, oneItem]))
    (hcondition _ _ trivial)
  have hbyId : [record].foldl addRecord [] = [record] := by simp [addRecord, hlive]
  simp only [Bool.false_eq_true, if_false, hbyId] at hpage
  have hsummary := app_proceeds hpage (.summary hcore) (hcondition _ _ trivial)
  have hitems := app_proceeds hsummary .noMoreItems (hcondition _ _ trivial)
  have hvaults := app_proceeds hitems .noMoreVaults (hcondition _ _ trivial)
  have hprojects := app_proceeds hvaults .noMoreProjects (hcondition _ _ trivial)
  rw [hid] at hprojects
  exact hprojects

/-- A phone of the account, locked, and its item at the API. -/
def lockedPhone : World :=
  .initial (some ⟨"me", true⟩) (some "me") fun id =>
    if id = "item" then some ⟨"item", 1, false⟩ else none

/-- The phone, unlocked and with its item on the screen. -/
def unlockedPhone : World :=
  { lockedPhone with
    core := some "me"
    app := { lockedPhone.app with phase := .unlocked, items := [⟨"item", 1⟩] } }

theorem phone_unlocks (hcondition : ∀ w task, InTurn w task → condition w task)
    (h : Run ((program oneItem).when condition) s ⟨w, rest⟩)
    (haccount : w.app.account.any (·.quickUnlock)) (hkeyset : w.keyset = some "me") :
    Run ((program oneItem).when condition) s
      ⟨{ w with core := some "me", app := { w.app with phase := .unlocked } }, .sync :: rest⟩ := by
  have hbiometrics := app_proceeds (app_starts h .unlockWithBiometrics rfl)
    (.unlockWithBiometrics haccount) (hcondition _ _ trivial)
  have hread := app_proceeds hbiometrics (.readKeyset hkeyset) (hcondition _ _ trivial)
  exact app_proceeds hread .unlock (hcondition _ _ trivial)

theorem lockedPhone_unlocks (condition : World → Task → Prop)
    (hcondition : ∀ w task, InTurn w task → condition w task) :
    Run ((program oneItem).when condition) ⟨lockedPhone, []⟩ ⟨unlockedPhone, []⟩ := by
  have hinitial : Run ((program oneItem).when condition) ⟨lockedPhone, []⟩ ⟨lockedPhone, []⟩ :=
    .refl
  have hunlock := phone_unlocks hcondition hinitial rfl rfl
  have hload := sync_loads hcondition hunlock rfl rfl rfl ⟨"item", 1, false⟩ rfl rfl rfl
  exact app_proceeds hload .showLoaded (hcondition _ _ fun _ => ⟨rfl, nofun⟩)

/-- The phone, paired again, with the item that it saved. -/
def pairedPhone : World where
  app := {
    phase := .unlocked
    account := some ⟨"me", false⟩
    api := some "me"
    freshKeyset := some "me"
    items := [⟨"item", 2⟩]
    projects := []
    syncing := false }
  core := some "me"
  keyset := none
  server := update lockedPhone.server "item" (some ⟨"item", 2, false⟩)
  saved := [⟨"item", 2⟩]

/-- While a save is at the API, a sync shows the item as it is there and the phone is locked. The
phone is unlocked again, signed out and paired again. -/
theorem showsOwnNewest_pairedAgain :
    Run ((program oneItem).when InTurn) ⟨lockedPhone, []⟩ ⟨pairedPhone, []⟩ ∧
      pairedPhone.ShowsOwnNewest oneItem := by
  have hinTurn : ∀ w task, InTurn w task → InTurn w task := fun _ _ h => h
  have hunlocked := lockedPhone_unlocks InTurn hinTurn
  have hopened := app_proceeds (app_starts hunlocked (.setItemTotp ⟨"item", 1⟩) rfl)
    (.setItemTotp rfl rfl rfl) trivial
  have hput := app_proceeds hopened (.put rfl) trivial
  have hload := sync_loads hinTurn (app_starts hput .sync rfl) rfl rfl rfl
    ⟨"item", 2, false⟩ rfl rfl rfl
  have hshown := app_proceeds hload .showLoaded fun _ => ⟨rfl, nofun⟩
  have hlock := app_proceeds (app_starts hshown .lock rfl) .lock trivial
  have hsaved := app_proceeds hlock .itemSummary nofun
  have hagain := sync_loads hinTurn (phone_unlocks hinTurn hsaved rfl rfl) rfl rfl rfl
    ⟨"item", 2, false⟩ rfl rfl rfl
  have hreopened := app_proceeds hagain .showLoaded fun _ =>
    ⟨rfl, fun _ hsaved hknown => absurd hsaved hknown⟩
  have hsignOut := app_proceeds (app_starts hreopened (.signOut false) rfl) .signOut trivial
  have hclear := app_proceeds hsignOut .clear trivial
  have happroved := app_proceeds (app_starts hclear (.pairingResult "me") rfl) .approved trivial
  have hfinish := app_proceeds happroved .finishPairing ⟨rfl, rfl⟩
  have hpaired := sync_loads hinTurn (app_proceeds hfinish (.paired rfl) trivial) rfl rfl rfl
    ⟨"item", 2, false⟩ rfl rfl rfl
  have hdone := app_proceeds hpaired .showLoaded fun _ =>
    ⟨rfl, fun _ hsaved hknown => absurd hsaved hknown⟩
  exact ⟨hdone, showsOwnNewest_of_inTurn hdone⟩

/-- A sync that loaded the item before it was saved shows it as it was. -/
theorem older_item_shown : ∃ w, Run (program oneItem) ⟨lockedPhone, []⟩ ⟨w, []⟩ ∧
    w.app.items = [⟨"item", 1⟩] ∧ w.saved = [⟨"item", 2⟩] ∧ ¬ w.ShowsOwnNewest oneItem := by
  have hunlocked := lockedPhone_unlocks (fun _ _ => True) fun _ _ _ => trivial
  have hload := sync_loads (fun _ _ _ => trivial) (app_starts hunlocked .sync rfl) rfl rfl rfl
    ⟨"item", 1, false⟩ rfl rfl rfl
  have hopened := app_proceeds (app_starts hload (.setItemTotp ⟨"item", 1⟩) rfl)
    (.setItemTotp rfl rfl rfl) trivial
  have hput := app_proceeds hopened (.put rfl) trivial
  have hsaved := app_proceeds hput .itemSummary trivial
  have hshown := app_proceeds hsaved .showLoaded trivial
  refine ⟨_, Run.of_when hshown, rfl, rfl, fun hshows => ?_⟩
  have hnewest := hshows.newest ⟨"item", 1⟩ (List.mem_singleton_self _) ⟨"item", 2⟩
    (List.mem_singleton_self _) rfl
  exact absurd hnewest (by decide)

/-- A sync that loaded an account's item shows it once another account is paired. -/
theorem other_account_shown : ∃ w, Run (program oneItem) ⟨lockedPhone, []⟩ ⟨w, []⟩ ∧
    w.app.items = [⟨"item", 1⟩] ∧ w.app.account = some ⟨"you", false⟩ ∧
      ¬ w.ShowsOwnNewest oneItem := by
  have hunlocked := lockedPhone_unlocks (fun _ _ => True) fun _ _ _ => trivial
  have hload := sync_loads (fun _ _ _ => trivial) (app_starts hunlocked .sync rfl) rfl rfl rfl
    ⟨"item", 1, false⟩ rfl rfl rfl
  have hsignOut := app_proceeds (app_starts hload (.signOut false) rfl) .signOut trivial
  have hclear := app_proceeds hsignOut .clear trivial
  have happroved := app_proceeds (app_starts hclear (.pairingResult "you") rfl) .approved trivial
  have hfinish := app_proceeds happroved .finishPairing trivial
  have hpaired := app_proceeds hfinish (.paired rfl) trivial
  have hsync := app_proceeds hpaired (.noSync (Or.inr rfl)) trivial
  have hshown := app_proceeds hsync .showLoaded trivial
  refine ⟨_, Run.of_when hshown, rfl, rfl, fun hshows => ?_⟩
  obtain ⟨account, haccount, hbelongs⟩ :=
    hshows.items ⟨"item", 1⟩ (List.mem_singleton_self _)
  obtain rfl := Option.some_inj.mp haccount
  exact absurd hbelongs (by decide)

/-- An item as it was before it was saved, and another account's item. -/
theorem other_items_shown :
    (∃ w, Run (program oneItem) ⟨lockedPhone, []⟩ ⟨w, []⟩ ∧ w.app.items = [⟨"item", 1⟩] ∧
      w.saved = [⟨"item", 2⟩] ∧ ¬ w.ShowsOwnNewest oneItem) ∧
    ∃ w, Run (program oneItem) ⟨lockedPhone, []⟩ ⟨w, []⟩ ∧ w.app.items = [⟨"item", 1⟩] ∧
      w.app.account = some ⟨"you", false⟩ ∧ ¬ w.ShowsOwnNewest oneItem :=
  ⟨older_item_shown, other_account_shown⟩

end Runs

end Zvault.Mobile
