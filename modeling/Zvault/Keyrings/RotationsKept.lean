import Mathlib.Tactic.SplitIfs
import Zvault.Keyrings.Rotations

/-!
# A rotation that is committed

The key ring uses the key of the newest version that it was given, and seals
nothing under a key that was refused, as long as an older key is never opened over
a newer one and a rotation commits the key that it made.
-/

namespace Zvault.Rotations

open Concurrent
open Function (update)

/-- An environment is opened with a version of its key that is no older than the one recorded, and
a rotation is committed while no other rotation's key is waiting and no newer version of the key
is recorded. -/
def InOrder (w : World) : Task → Prop
  | .openEnvironment wrap entry _ _ =>
    ∀ granted ∈ EnvironmentKeys.granted wrap entry.encryptedKey,
      ∀ recorded ∈ w.recorded, recorded ≤ granted.1
  | .commitRotation key version =>
    ∀ waiting ∈ w.keys.rotation, waiting = key ∧ ∀ recorded ∈ w.recorded, recorded ≤ version
  | _ => True

/-- The key in use is the one that the API stored at the version that is recorded, and no value is
sealed under a key that was refused. -/
structure World.KeepsKey (w : World) : Prop where
  environment : ∀ key ∈ w.keys.environment, ∃ version ∈ w.recorded,
    w.api.stored version = some key
  sealedUnder : ∀ key ∈ w.sealedUnder, key ∉ w.refused

section Keys

variable {keys keys' : EnvironmentKeys}

theorem EnvironmentKeys.openProject_eq_some (h : keys.openProject = some keys') :
    keys' = { keys with project := true } := by
  unfold openProject at h
  split_ifs at h
  exact (Option.some_inj.mp h).symm

theorem EnvironmentKeys.openEnvironment_of_granted {wrap : Option StoredMemberWrap}
    {encryptedKey : Option Grant} {version : ℕ} {key : Key} {unlocked : Bool}
    (hgranted : granted wrap encryptedKey = some (version, key))
    (h : keys.openEnvironment wrap encryptedKey = some (unlocked, keys')) :
    keys' = { keys with environment := some key } := by
  unfold openEnvironment at h
  split_ifs at h
  simp only [hgranted, Option.some_inj, Prod.mk.injEq] at h
  exact h.2.symm

theorem EnvironmentKeys.openEnvironment_eq_false {wrap : Option StoredMemberWrap}
    {encryptedKey : Option Grant}
    (h : keys.openEnvironment wrap encryptedKey = some (false, keys')) : keys' = keys := by
  unfold openEnvironment at h
  split_ifs at h
  cases hgranted : granted wrap encryptedKey with
  | none =>
    simp only [hgranted, Option.some_inj, Prod.mk.injEq] at h
    exact h.2.symm
  | some granted => simp [hgranted] at h

theorem EnvironmentKeys.rotateEnvironment_eq_some {fromVersion : ℕ} {recipients : List String}
    {values : List SecretValueCipher} {next : Key} {req : RotateEnvironmentKey}
    (h : keys.rotateEnvironment fromVersion recipients values next = some (req, keys')) :
    req.wraps.key = next ∧ keys' = { keys with rotation := some next } := by
  unfold rotateEnvironment at h
  split_ifs at h
  simp only [Option.bind_eq_bind, Option.bind_eq_some_iff, Option.pure_def, Option.some_inj,
    Prod.mk.injEq] at h
  obtain ⟨current, -, resealed, -, rfl, rfl⟩ := h
  exact ⟨rfl, rfl⟩

theorem EnvironmentKeys.commitRotation_eq_true (h : keys.commitRotation = some (true, keys')) :
    ∃ next, keys.rotation = some next ∧
      keys' = { keys with environment := some next, rotation := none } := by
  unfold commitRotation at h
  split_ifs at h
  cases hwaiting : keys.rotation with
  | none => simp [hwaiting] at h
  | some next =>
    simp only [hwaiting, Option.some_inj, Prod.mk.injEq, true_and] at h
    exact ⟨next, rfl, h.symm⟩

theorem EnvironmentKeys.commitRotation_eq_false (h : keys.commitRotation = some (false, keys')) :
    keys' = keys := by
  unfold commitRotation at h
  split_ifs at h
  cases hwaiting : keys.rotation with
  | none =>
    simp only [hwaiting, Option.some_inj, Prod.mk.injEq, true_and] at h
    exact h.symm
  | some next => simp [hwaiting] at h

theorem EnvironmentKeys.sealSecretValue_eq_some {value : String} {sealed : SealedValue}
    (h : keys.sealSecretValue value = some sealed) : keys.environment = some sealed.key := by
  unfold sealSecretValue at h
  split_ifs at h
  obtain ⟨key, hkey, rfl⟩ := Option.map_eq_some_iff.mp h
  exact hkey

end Keys

/-- A rotation that the API takes is from the current version. -/
theorem Api.rotate_eq_ok {me : String} {api api' : Api} {req : RotateEnvironmentKey}
    (h : api.rotate me req = .ok api') :
    req.fromVersion = api.keyVersion ∧ api' = api.rekeyed me req.wraps req.values := by
  simp only [rotate] at h
  split_ifs at h with hversion
  exact ⟨Decidable.not_not.mp hversion, (Except.ok.inj h).symm⟩

/-- Every key that is stored was drawn, and the account's own is stored. -/
structure Api.Sound (drawn : Key) (api : Api) : Prop where
  stored : ∀ version key, api.stored version = some key → version ≤ api.keyVersion ∧ key < drawn
  mine : ∀ grant ∈ api.mine, api.stored grant.keyVersion = some grant.key

theorem Api.sound_initial (own : Option Bool) (holders : List String)
    (values : List SecretValueCipher) : (Api.initial own holders values).Sound 1 where
  stored := by
    intro version key hkey
    simp only [initial, Function.update_apply] at hkey
    split_ifs at hkey with hversion
    obtain rfl := Option.some_inj.mp hkey
    exact ⟨Nat.le_of_eq hversion, Nat.one_pos⟩
  mine := by
    intro grant hgrant
    obtain ⟨own, -, rfl⟩ := Option.map_eq_some_iff.mp hgrant
    simp [initial]

section Rekeyed

variable {me : String} {drawn : Key} {api : Api} (h : api.Sound drawn)
include h

/-- What is stored stays stored. -/
theorem Api.Sound.stored_rekeyed {wraps : Wraps} {values : List SecretValueCipher} {version : ℕ}
    {key : Key} (hkey : api.stored version = some key) :
    (api.rekeyed me wraps values).stored version = some key := by
  have hversion := (h.stored version key hkey).1
  have hne : version ≠ api.keyVersion + 1 := by omega
  exact (Function.update_of_ne hne ..).trans hkey

theorem Api.Sound.rekeyed {wraps : Wraps} {values : List SecretValueCipher}
    (hkey : wraps.key < drawn) : (api.rekeyed me wraps values).Sound drawn where
  stored := by
    intro version key hstored
    simp only [Api.rekeyed, Function.update_apply] at hstored ⊢
    split_ifs at hstored with hversion
    · obtain rfl := Option.some_inj.mp hstored
      exact ⟨by omega, hkey⟩
    · obtain ⟨hle, hlt⟩ := h.stored version key hstored
      exact ⟨by omega, hlt⟩
  mine := by
    intro grant hgrant
    simp only [Api.rekeyed] at hgrant ⊢
    split_ifs at hgrant
    · obtain rfl := Option.some_inj.mp hgrant
      simp
    · cases hgrant

theorem Api.Sound.mono {drawn' : Key} (hle : drawn ≤ drawn') : api.Sound drawn' where
  stored version key hkey :=
    ⟨(h.stored version key hkey).1, Nat.lt_of_lt_of_le (h.stored version key hkey).2 hle⟩
  mine := h.mine

theorem Api.Sound.myWrap : ∀ wrap ∈ api.myWrap, api.stored wrap.keyVersion = some wrap.key := by
  intro wrap hwrap
  obtain ⟨grant, hgrant, rfl⟩ := Option.map_eq_some_iff.mp hwrap
  exact h.mine grant (Option.filter_eq_some_iff.mp hgrant).1

end Rekeyed

/-- The key of a rotation that is on its way to the API. -/
def Task.sends : Task → Option Key
  | .send req _ _ => some req.wraps.key
  | _ => none

/-- No two rotations on their way have the same key. -/
def Task.Apart (t u : Task) : Prop := ∀ key ∈ t.sends, key ∉ u.sends

/-- What a task relies on: a wrap or a grant is of a key that is stored, and so is a key that was
accepted. A key on its way is neither stored nor refused. -/
def Task.Waits (w : World) : Task → Prop
  | .openProject wrap => ∀ x ∈ wrap, w.api.stored x.keyVersion = some x.key
  | .apply page _ => ∀ entry ∈ page.environment, ∀ grant ∈ entry.encryptedKey,
      w.api.stored grant.keyVersion = some grant.key
  | .fetchWrap entry _ _ => ∀ grant ∈ entry.encryptedKey,
      w.api.stored grant.keyVersion = some grant.key
  | .setWrap wrap entry _ _ | .openEnvironment wrap entry _ _ =>
    (∀ x ∈ wrap, w.api.stored x.keyVersion = some x.key) ∧
      ∀ grant ∈ entry.encryptedKey, w.api.stored grant.keyVersion = some grant.key
  | .send req _ _ =>
    req.wraps.key < w.drawn ∧ req.wraps.key ∉ w.refused ∧
      ∀ version, w.api.stored version ≠ some req.wraps.key
  | .commitRotation key version => w.api.stored version = some key
  | _ => True

theorem Task.waits_of_sends {w : World} {task : Task} {key : Key} (h : task.Waits w)
    (hsends : key ∈ task.sends) :
    key < w.drawn ∧ key ∉ w.refused ∧ ∀ version, w.api.stored version ≠ some key := by
  cases task with
  | send req =>
    obtain rfl := Option.some_inj.mp hsends
    exact h
  | _ => cases hsends

/-- The key that an environment is opened with is stored. -/
theorem EnvironmentKeys.stored_of_granted {stored : ℕ → Option Key}
    {wrap : Option StoredMemberWrap} {encryptedKey : Option Grant} {version : ℕ} {key : Key}
    (h : (∀ x ∈ wrap, stored x.keyVersion = some x.key) ∧
      ∀ grant ∈ encryptedKey, stored grant.keyVersion = some grant.key)
    (hgranted : granted wrap encryptedKey = some (version, key)) : stored version = some key := by
  cases wrap with
  | some wrap =>
    obtain ⟨rfl, rfl⟩ := Prod.mk.inj (Option.some_inj.mp hgranted)
    exact h.1 wrap rfl
  | none =>
    cases encryptedKey with
    | none => cases hgranted
    | some grant =>
      simp only [granted] at hgranted
      split_ifs at hgranted
      obtain ⟨rfl, rfl⟩ := Prod.mk.inj (Option.some_inj.mp hgranted)
      exact h.2 grant rfl

/-- What holds between steps. -/
structure World.Sound (w : World) : Prop where
  environment : ∀ key ∈ w.keys.environment, ∃ version ∈ w.recorded,
    w.api.stored version = some key
  api : w.api.Sound w.drawn
  wrap : ∀ wrap ∈ w.client.wrap, w.api.stored wrap.keyVersion = some wrap.key
  refused : ∀ key ∈ w.refused, key < w.drawn ∧ ∀ version, w.api.stored version ≠ some key
  sealedUnder : ∀ key ∈ w.sealedUnder, ∃ version, w.api.stored version = some key

theorem World.Sound.keepsKey {w : World} (h : w.Sound) : w.KeepsKey where
  environment := h.environment
  sealedUnder := by
    intro key hkey hrefused
    obtain ⟨version, hstored⟩ := h.sealedUnder key hkey
    exact (h.refused key hrefused).2 version hstored

section Acts

variable {me : String} {w w' : World} {task : Task} {next : Option Task}

/-- The API goes from one state to the next by the rotation that a task sends, by what another
device does, or not at all but for the values. -/
theorem Acts.api_cases (h : Acts me w task w' next) :
    (∃ req values retried, task = .send req values retried ∧
      w'.api = w.api.rekeyed me req.wraps req.values ∧ w'.refused = w.refused ∧
      w'.drawn = w.drawn) ∨
    (task = .others ∧ w.api.Changes me w.drawn w'.api ∧ w'.refused = w.refused ∧
      w'.drawn = w.drawn + 1) ∨
    (∃ values, w'.api = { w.api with values } ∧ w.drawn ≤ w'.drawn ∧
      ∀ key ∈ w'.refused, key ∈ w.refused ∨ key ∈ task.sends) := by
  have hkept : ∀ {key sent : Key}, key ∈ sent :: w.refused →
      key ∈ w.refused ∨ key ∈ some sent := by
    intro key sent hkey
    rcases List.mem_cons.mp hkey with rfl | hkey
    · exact Or.inr rfl
    · exact Or.inl hkey
  cases h with
  | accepted h | unanswered h =>
    obtain ⟨-, rfl⟩ := Api.rotate_eq_ok h
    exact Or.inl ⟨_, _, _, rfl, rfl, rfl, rfl⟩
  | others h => exact Or.inr (Or.inl ⟨rfl, h, rfl, rfl⟩)
  | refused | retry | forbidden =>
    exact Or.inr (Or.inr ⟨w.api.values, rfl, Nat.le_refl _, fun _ => hkept⟩)
  | rotateEnvironment => exact Or.inr (Or.inr ⟨w.api.values, rfl, Nat.le_succ _, fun _ => Or.inl⟩)
  | putValue => exact Or.inr (Or.inr ⟨_, rfl, Nat.le_refl _, fun _ => Or.inl⟩)
  | _ => exact Or.inr (Or.inr ⟨w.api.values, rfl, Nat.le_refl _, fun _ => Or.inl⟩)

theorem Acts.refused_cases (h : Acts me w task w' next) {key : Key} (hkey : key ∈ w'.refused) :
    key ∈ w.refused ∨ key ∈ task.sends := by
  rcases h.api_cases with ⟨_, _, _, -, -, hrefused, -⟩ | ⟨-, -, hrefused, -⟩ | ⟨_, -, -, hcases⟩
  · exact Or.inl (hrefused ▸ hkey)
  · exact Or.inl (hrefused ▸ hkey)
  · exact hcases key hkey

variable (hsound : w.Sound)
include hsound

/-- What is stored stays stored. -/
theorem Acts.stored_mono (h : Acts me w task w' next) {version : ℕ} {key : Key}
    (hkey : w.api.stored version = some key) : w'.api.stored version = some key := by
  rcases h.api_cases with ⟨req, values, retried, -, hapi, -⟩ | ⟨-, hchanges, -⟩ | ⟨values, hapi, -⟩
  · rw [hapi]
    exact hsound.api.stored_rekeyed hkey
  · generalize w'.api = api at hchanges
    cases hchanges with
    | rotates => exact hsound.api.stored_rekeyed hkey
    | _ => exact hkey
  · rw [hapi]
    exact hkey

omit hsound in
/-- A key that is stored was stored before, or is the one that the task sends, or is new. -/
theorem Acts.stored_cases (h : Acts me w task w' next) {version : ℕ} {key : Key}
    (hkey : w'.api.stored version = some key) :
    w.api.stored version = some key ∨ key ∈ task.sends ∨ key = w.drawn := by
  have hrekeyed : ∀ {wraps : Wraps} {values : List SecretValueCipher},
      (w.api.rekeyed me wraps values).stored version = some key →
        w.api.stored version = some key ∨ key = wraps.key := by
    intro wraps values hkey
    simp only [Api.rekeyed, Function.update_apply] at hkey
    split_ifs at hkey
    · exact Or.inr (Option.some_inj.mp hkey).symm
    · exact Or.inl hkey
  rcases h.api_cases with ⟨req, values, retried, rfl, hapi, -⟩ | ⟨-, hchanges, -⟩ | ⟨values, hapi, -⟩
  · rw [hapi] at hkey
    rcases hrekeyed hkey with hkey | rfl
    · exact Or.inl hkey
    · exact Or.inr (Or.inl rfl)
  · generalize w'.api = api at hchanges hkey
    cases hchanges with
    | rotates =>
      rcases hrekeyed hkey with hkey | rfl
      · exact Or.inl hkey
      · exact Or.inr (Or.inr rfl)
    | _ => exact Or.inl hkey
  · rw [hapi] at hkey
    exact Or.inl hkey

omit hsound in
theorem Acts.drawn_le (h : Acts me w task w' next) : w.drawn ≤ w'.drawn := by
  rcases h.api_cases with ⟨_, _, _, -, -, -, hdrawn⟩ | ⟨-, -, -, hdrawn⟩ | ⟨_, -, hdrawn, -⟩
  · exact Nat.le_of_eq hdrawn.symm
  · exact hdrawn ▸ Nat.le_succ _
  · exact hdrawn

theorem Acts.api_sound (h : Acts me w task w' next) (hwaits : task.Waits w) :
    w'.api.Sound w'.drawn := by
  rcases h.api_cases with ⟨req, values, retried, rfl, hapi, -, hdrawn⟩ | ⟨-, hchanges, -, hdrawn⟩ |
    ⟨values, hapi, hdrawn, -⟩
  · rw [hapi, hdrawn]
    exact hsound.api.rekeyed hwaits.1
  · rw [hdrawn]
    have hmono := hsound.api.mono (Nat.le_succ w.drawn)
    generalize w'.api = api at hchanges
    cases hchanges with
    | rotates => exact hmono.rekeyed (Nat.lt_succ_self _)
    | grants key hkey =>
      refine ⟨hmono.stored, fun grant hgrant => ?_⟩
      obtain rfl := Option.some_inj.mp hgrant
      exact hkey
    | revokes => exact ⟨hmono.stored, nofun⟩
    | _ => exact ⟨hmono.stored, hmono.mine⟩
  · rw [hapi]
    have hmono := hsound.api.mono hdrawn
    exact ⟨hmono.stored, hmono.mine⟩

theorem Acts.refused_sound (h : Acts me w task w' next) (hwaits : task.Waits w) :
    ∀ key ∈ w'.refused, key < w'.drawn ∧ ∀ version, w'.api.stored version ≠ some key := by
  intro key hkey
  have hstays : key ∈ w.refused → ∀ version, w'.api.stored version ≠ some key := by
    intro hrefused version hstored
    obtain ⟨hdrawn, hnever⟩ := hsound.refused key hrefused
    rcases h.stored_cases hstored with hstored | hsends | rfl
    · exact hnever version hstored
    · exact (Task.waits_of_sends hwaits hsends).2.1 hrefused
    · exact Nat.lt_irrefl _ hdrawn
  have hold : key ∈ w.refused → key < w'.drawn ∧ ∀ version, w'.api.stored version ≠ some key :=
    fun hrefused => ⟨Nat.lt_of_lt_of_le (hsound.refused key hrefused).1 h.drawn_le, hstays hrefused⟩
  rcases h.api_cases with ⟨_, _, _, -, -, hrefused, -⟩ | ⟨-, -, hrefused, -⟩ | ⟨_, hapi, hdrawn, hcases⟩
  · exact hold (hrefused ▸ hkey)
  · exact hold (hrefused ▸ hkey)
  · rcases hcases key hkey with hrefused | hsends
    · exact hold hrefused
    · obtain ⟨hlt, -, hnever⟩ := Task.waits_of_sends hwaits hsends
      rw [hapi]
      exact ⟨Nat.lt_of_lt_of_le hlt hdrawn, hnever⟩

/-- The key in use, after a step in order. -/
theorem Acts.environment_sound (h : Acts me w task w' next) (hwaits : task.Waits w)
    (horder : InOrder w task) :
    ∀ key ∈ w'.keys.environment, ∃ version ∈ w'.recorded,
      w'.api.stored version = some key := by
  have hrecord : ∀ {version : ℕ}, (∀ recorded ∈ w.recorded, recorded ≤ version) →
      max (w.recorded.getD 0) version = version := by
    intro version hle
    cases hrecorded : w.recorded with
    | none => exact Nat.zero_max version
    | some recorded => exact Nat.max_eq_right (hle recorded hrecorded)
  have hkept : w'.keys.environment = w.keys.environment → w'.recorded = w.recorded →
      ∀ key ∈ w'.keys.environment, ∃ version ∈ w'.recorded,
        w'.api.stored version = some key := by
    intro hkeys hrecorded key hkey
    obtain ⟨version, hversion, hstored⟩ := hsound.environment key (hkeys ▸ hkey)
    exact ⟨version, hrecorded ▸ hversion, h.stored_mono hsound hstored⟩
  cases h with
  | lock | unlock => exact nofun
  | openProject hopen =>
    obtain rfl := EnvironmentKeys.openProject_eq_some hopen
    exact hkept rfl rfl
  | unlocks hgranted hopen =>
    obtain rfl := EnvironmentKeys.openEnvironment_of_granted hgranted hopen
    rintro key ⟨⟩
    exact ⟨_, congrArg some (hrecord (horder _ hgranted)),
      EnvironmentKeys.stored_of_granted hwaits hgranted⟩
  | staysLocked hopen =>
    obtain rfl := EnvironmentKeys.openEnvironment_eq_false hopen
    exact hkept rfl rfl
  | rotateEnvironment hrotate =>
    obtain ⟨-, rfl⟩ := EnvironmentKeys.rotateEnvironment_eq_some hrotate
    exact hkept rfl rfl
  | commitRotation hcommit =>
    obtain ⟨waiting, hwaiting, rfl⟩ := EnvironmentKeys.commitRotation_eq_true hcommit
    obtain ⟨rfl, hle⟩ := horder waiting hwaiting
    rintro key ⟨⟩
    exact ⟨_, congrArg some (hrecord hle), hwaits⟩
  | nothingWaits hcommit =>
    obtain rfl := EnvironmentKeys.commitRotation_eq_false hcommit
    exact hkept rfl rfl
  | _ => exact hkept rfl rfl

/-- A step in order keeps everything sound. -/
theorem World.Sound.step (h : Acts me w task w' next) (hwaits : task.Waits w)
    (horder : InOrder w task) : w'.Sound := by
  have hmono : ∀ {version key}, w.api.stored version = some key →
      w'.api.stored version = some key := h.stored_mono hsound
  have hvalues : ∀ (client : Client) (values : List SecretValueCipher),
      (client.setValues values).wrap = client.wrap := by
    intro client values
    induction values generalizing client with
    | nil => rfl
    | cons v values ih => exact ih (client.setValue v)
  refine ⟨h.environment_sound hsound hwaits horder, h.api_sound hsound hwaits, ?_,
    h.refused_sound hsound hwaits, ?_⟩
  · have hkept : w'.client.wrap = w.client.wrap →
        ∀ wrap ∈ w'.client.wrap, w'.api.stored wrap.keyVersion = some wrap.key :=
      fun hwrap wrap hmem => hmono (hsound.wrap wrap (hwrap ▸ hmem))
    cases h with
    | lock => exact nofun
    | openProject => exact hwaits
    | setWrap => exact hwaits.1
    | unlocks | staysLocked | unreadable | skip => exact hkept (hvalues ..)
    | _ => exact hkept rfl
  · have hkept : w'.sealedUnder = w.sealedUnder →
        ∀ key ∈ w'.sealedUnder, ∃ version, w'.api.stored version = some key := by
      intro hsealed key hkey
      obtain ⟨version, hstored⟩ := hsound.sealedUnder key (hsealed ▸ hkey)
      exact ⟨version, hmono hstored⟩
    cases h with
    | sealValue hseal =>
      intro key hkey
      rcases List.mem_cons.mp hkey with rfl | hkey
      · have henvironment := EnvironmentKeys.sealSecretValue_eq_some hseal
        obtain ⟨version, -, hstored⟩ := hsound.environment _ henvironment
        exact ⟨version, hstored⟩
      · exact hsound.sealedUnder key hkey
    | _ => exact hkept rfl

omit hsound in
theorem After.waits_next {after : After} {hasMore : Bool} {task : Task}
    (h : after.next hasMore = some task) (w : World) : task.Waits w ∧ task.sends = none := by
  cases after <;> cases hasMore <;> cases h <;> exact ⟨trivial, rfl⟩

/-- A step leads to what the task relies on next. -/
theorem Acts.waits_next {next : Task} (h : Acts me w task w' (some next)) (hwaits : task.Waits w) :
    next.Waits w' := by
  generalize hnext : some next = after at h
  cases h with
  | listProjects own =>
    obtain rfl := Option.some_inj.mp hnext
    cases own with
    | true => exact nofun
    | false => exact hsound.api.myWrap
  | fetchPage page hserves =>
    obtain rfl := Option.some_inj.mp hnext
    intro entry hentry grant hgrant
    obtain rfl := hserves.environment entry hentry
    exact hsound.api.mine grant hgrant
  | skip | unlocks | staysLocked | unreadable => exact (After.waits_next hnext.symm _).1
  | refetch hentry =>
    obtain rfl := Option.some_inj.mp hnext
    exact hwaits _ hentry
  | reuse hentry =>
    obtain rfl := Option.some_inj.mp hnext
    exact ⟨hsound.wrap, hwaits _ hentry⟩
  | fetchWrap =>
    obtain rfl := Option.some_inj.mp hnext
    exact ⟨hsound.api.myWrap, hwaits⟩
  | keepWrap =>
    obtain rfl := Option.some_inj.mp hnext
    exact ⟨hsound.wrap, hwaits⟩
  | setWrap =>
    obtain rfl := Option.some_inj.mp hnext
    exact hwaits
  | rotateEnvironment hrotate =>
    obtain rfl := Option.some_inj.mp hnext
    obtain ⟨hkey, -⟩ := EnvironmentKeys.rotateEnvironment_eq_some hrotate
    refine ⟨hkey ▸ Nat.lt_succ_self _, fun hrefused => ?_, fun version hstored => ?_⟩
    · exact Nat.lt_irrefl _ (hkey ▸ (hsound.refused _ hrefused).1)
    · exact Nat.lt_irrefl _ (hkey ▸ (hsound.api.stored version _ hstored).2)
  | accepted hrotate =>
    obtain rfl := Option.some_inj.mp hnext
    obtain ⟨hversion, rfl⟩ := Api.rotate_eq_ok hrotate
    show update _ _ _ _ = _
    rw [hversion, Function.update_self]
  | _ => cases hnext <;> trivial

/-- A step of another task leaves what a task relies on. -/
theorem Acts.waits_other {u : Task} (h : Acts me w task w' next) (hu : u.Waits w)
    (hapart : task.Apart u) : u.Waits w' := by
  have hmono : ∀ {version key}, w.api.stored version = some key →
      w'.api.stored version = some key := h.stored_mono hsound
  cases u with
  | openProject => exact fun x hx => hmono (hu x hx)
  | apply => exact fun entry hentry grant hgrant => hmono (hu entry hentry grant hgrant)
  | fetchWrap => exact fun grant hgrant => hmono (hu grant hgrant)
  | setWrap | openEnvironment =>
    exact ⟨fun x hx => hmono (hu.1 x hx), fun grant hgrant => hmono (hu.2 grant hgrant)⟩
  | commitRotation => exact hmono hu
  | send req =>
    obtain ⟨hlt, hrefused, hnever⟩ := hu
    refine ⟨Nat.lt_of_lt_of_le hlt h.drawn_le, fun hmem => ?_, fun version hstored => ?_⟩
    · rcases h.refused_cases hmem with hmem | hsends
      · exact hrefused hmem
      · exact hapart _ hsends rfl
    · rcases h.stored_cases hstored with hstored | hsends | hdrawn
      · exact hnever version hstored
      · exact hapart _ hsends rfl
      · exact Nat.lt_irrefl _ (hdrawn ▸ hlt)
  | _ => trivial

omit hsound in
/-- A task sends a key that it has just drawn. -/
theorem Acts.sends_next {next : Task} (h : Acts me w task w' (some next)) {key : Key}
    (hkey : key ∈ next.sends) : key = w.drawn := by
  generalize hnext : some next = after at h
  cases h with
  | rotateEnvironment hrotate =>
    obtain rfl := Option.some_inj.mp hnext
    obtain ⟨hdrawn, -⟩ := EnvironmentKeys.rotateEnvironment_eq_some hrotate
    obtain rfl := Option.some_inj.mp hkey
    exact hdrawn
  | skip | unlocks | staysLocked | unreadable =>
    rw [(After.waits_next hnext.symm w).2] at hkey
    cases hkey
  | _ => cases hnext <;> cases hkey

end Acts

theorem rotationOutline (me : String) :
    Outline ((program me).when InOrder) World.Sound (fun w task => task.Waits w) Task.Apart where
  start := by
    rintro w task - hstart
    cases task <;> trivial
  starts_apart := by
    rintro w task u - hstart - key hkey
    have hnone : task.sends = none := by
      cases task with
      | send => cases hstart
      | _ => rfl
    rw [hnone] at hkey
    cases hkey
  keeps := by
    rintro w task w' next hsound hwaits ⟨horder, h⟩
    exact hsound.step h hwaits horder
  leads := by
    rintro w task w' next hsound hwaits ⟨-, h⟩
    exact h.waits_next hsound hwaits
  leads_apart := by
    rintro w task w' next u hsound - hu - ⟨-, h⟩ key hkey hsends
    obtain rfl := h.sends_next hkey
    exact Nat.lt_irrefl _ (Task.waits_of_sends hu hsends).1
  free := by
    rintro w task w' next u hsound - hu hapart ⟨-, h⟩
    exact h.waits_other hsound hu hapart
  symm := fun hapart key hu ht => hapart key ht hu

/-- In a run in order, the key in use is the one that the API stored at the version that is
recorded, and no value is sealed under a key that was refused. -/
theorem keepsKey_of_inOrder {me : String} {own : Option Bool} {holders : List String}
    {values : List SecretValueCipher} {w : World} {tasks : List Task}
    (hrun : Run ((program me).when InOrder) ⟨.initial (.initial own holders values), []⟩ ⟨w, tasks⟩) :
    w.KeepsKey := by
  have hinitial : (World.initial (.initial own holders values)).Sound :=
    ⟨nofun, Api.sound_initial own holders values, nofun, nofun, nofun⟩
  exact ((rotationOutline me).run_idle hinitial hrun).inv.keepsKey

section Runs

variable {me : String} {condition : World → Task → Prop} {s : Concurrent.System World Task}
  {w w' : World} {task : Task} {next : Option Task} {rest : List Task}

theorem rotation_starts (h : Run ((program me).when condition) s ⟨w, rest⟩) (task : Task)
    (hstart : task.canStart = true) :
    Run ((program me).when condition) s ⟨w, task :: rest⟩ :=
  h.tail (.start hstart)

theorem rotation_proceeds (h : Run ((program me).when condition) s ⟨w, task :: rest⟩)
    (hact : Acts me w task w' next) (hcondition : condition w task) :
    Run ((program me).when condition) s ⟨w', next.toList ++ rest⟩ :=
  h.proceeds ⟨hcondition, hact⟩

end Runs

/-- An environment of this account's, without values. -/
def ownEnvironment : World := .initial (.initial (some true) ["me"] [])

/-- The same, once the environment is open. -/
def openedEnvironment : World :=
  { ownEnvironment with
    keys := ⟨true, true, some 0, none⟩
    client := ⟨none, some 1, true, []⟩
    recorded := some 1 }

theorem ownEnvironment_opened (condition : World → Task → Prop)
    (hcondition : ∀ w task, InOrder w task → condition w task) :
    Run ((program "me").when condition) ⟨ownEnvironment, []⟩ ⟨openedEnvironment, []⟩ := by
  have hinitial : Run ((program "me").when condition) ⟨ownEnvironment, []⟩ ⟨ownEnvironment, []⟩ :=
    .refl
  have hunlock := rotation_proceeds (rotation_starts hinitial .unlock rfl) .unlock
    (hcondition _ _ trivial)
  have hlist := rotation_proceeds hunlock (.listProjects true) (hcondition _ _ trivial)
  have hopen := rotation_proceeds hlist (.openProject rfl) (hcondition _ _ trivial)
  have hfetch := rotation_proceeds hopen
    (.fetchPage ⟨some ownEnvironment.api.entry, [], false⟩ ⟨by rintro _ ⟨⟩; rfl, nofun⟩)
    (hcondition _ _ trivial)
  have happly := rotation_proceeds hfetch (.reuse rfl (by decide) (by decide))
    (hcondition _ _ trivial)
  exact rotation_proceeds happly (.unlocks rfl rfl) (hcondition _ _ nofun)

/-- A rotation pulls, and its request is on its way. -/
theorem rotation_sends {condition : World → Task → Prop}
    (hcondition : ∀ w task, InOrder w task → condition w task)
    {s : Concurrent.System World Task} {w : World} {rest : List Task}
    (h : Run ((program "me").when condition) s ⟨w, rest⟩) (hunlocked : w.client.unlocked = true)
    {req : RotateEnvironmentKey} {keys : EnvironmentKeys}
    (hkeys : w.keys.rotateEnvironment w.api.keyVersion ["me"] w.client.values w.drawn =
      some (req, keys)) :
    Run ((program "me").when condition) s
      ⟨{ w with keys, drawn := w.drawn + 1 }, .send req w.client.values false :: rest⟩ := by
  have hfetch := rotation_proceeds (rotation_starts h (.fetchPage .rotate) rfl)
    (.fetchPage ⟨none, [], false⟩ ⟨nofun, nofun⟩) (hcondition _ _ trivial)
  have happly := rotation_proceeds hfetch (.skip rfl) (hcondition _ _ trivial)
  have hrotate := rotation_proceeds happly (.rotate hunlocked) (hcondition _ _ trivial)
  have hdetail := rotation_proceeds hrotate (.detail ["me"]) (hcondition _ _ trivial)
  exact rotation_proceeds hdetail (.rotateEnvironment hkeys) (hcondition _ _ trivial)

/-- One rotation is made, accepted and committed, and a value is sealed under its key. -/
theorem keepsKey_of_one_rotation : ∃ w tasks,
    Run ((program "me").when InOrder) ⟨ownEnvironment, []⟩ ⟨w, tasks⟩ ∧
      w.keys.environment = some 1 ∧ w.recorded = some 2 ∧ w.sealedUnder = [1] ∧ w.KeepsKey := by
  have hopened := ownEnvironment_opened InOrder fun _ _ h => h
  have hsend := rotation_sends (fun _ _ h => h) hopened rfl rfl
  have haccepted := rotation_proceeds hsend (.accepted rfl) trivial
  have hcommit := rotation_proceeds haccepted (.commitRotation rfl)
    (by rintro _ ⟨⟩; exact ⟨rfl, by rintro _ ⟨⟩; decide⟩)
  have hseal := rotation_proceeds (rotation_starts hcommit (.sealValue "s" "v") rfl)
    (.sealValue rfl) trivial
  exact ⟨_, _, hseal, rfl, rfl, rfl, keepsKey_of_inOrder hseal⟩

/-- Two rotations overlap. The second one's key replaces the first one's, the API accepts the first
and refuses the second, and the first commits the key that was refused. -/
theorem overlapping_rotations : ∃ w tasks,
    Run (program "me") ⟨ownEnvironment, []⟩ ⟨w, tasks⟩ ∧ ¬ w.KeepsKey ∧
      (∃ key ∈ w.keys.environment, ∀ version ∈ w.recorded,
        w.api.stored version ≠ some key) ∧
      ∃ key ∈ w.sealedUnder, key ∈ w.refused := by
  have hopened := ownEnvironment_opened (fun _ _ => True) fun _ _ _ => trivial
  have hfirst := rotation_sends (fun _ _ _ => trivial) hopened rfl rfl
  have hsecond := rotation_sends (fun _ _ _ => trivial) hfirst rfl rfl
  have haccepted := hsecond.proceeds_under ⟨trivial, .accepted rfl⟩
  have hrefused := rotation_proceeds haccepted (.refused rfl) trivial
  have hcommit := rotation_proceeds hrefused (.commitRotation rfl) trivial
  have hseal := rotation_proceeds (rotation_starts hcommit (.sealValue "s" "v") rfl)
    (.sealValue rfl) trivial
  have hsealed : ∃ key ∈ [(2 : Key)], key ∈ [(2 : Key)] := ⟨2, by decide, by decide⟩
  refine ⟨_, _, Run.of_when hseal, fun hkeeps => ?_, ⟨2, rfl, ?_⟩, hsealed⟩
  · exact hkeeps.sealedUnder 2 (List.mem_singleton_self _) (List.mem_singleton_self _)
  · rintro version ⟨⟩
    decide

end Zvault.Rotations
