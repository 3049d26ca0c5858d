import Zvault.AddPhone.Sheet

/-!
# The code that was compared

Pairings are begun one after another and the slot only ever holds the latest.
A phone's key is drawn by a scan, so a code for it is computed when its pairing
was begun at least; the grant is sealed later, so by no earlier pairing than
the code. A phone that opens the grant has scanned the pairing it was sealed
by: code, grant and phone are of one pairing.
-/

namespace Zvault

open Concurrent AddPhoneSheet

variable {w w' : PairingWorld} {apiUrl : String}

/-- An offer made from a pairing of this Mac, or from none. -/
structure PairingOffer.Sound (w : PairingWorld) (offer : PairingOffer) : Prop where
  begun : ∀ m, offer.publicKey = .drawn m → m < w.begun
  secret : ∀ m, offer.publicKey = .drawn m → offer.secret = .drawn m

/-- A code for a phone's key, computed by the `i`-th pairing. If a scan drew the key, it was not a
scan of a later pairing. -/
structure ShownBy (w : PairingWorld) (i : ℕ) (phone : PhoneKey) (code : VerificationCode) :
    Prop where
  code : code = ⟨.drawn i, .drawn i, phone⟩
  begun : i < w.begun
  scanned : ∀ n, phone = .scanned n → ∃ p, w.phones[n]? = some p ∧
    ∀ m, p.offer.publicKey = .drawn m → m ≤ i

/-- A code on screen. -/
def Shown (w : PairingWorld) (publicKey : Option PhoneKey) (code : VerificationCode) : Prop :=
  ∃ i phone, publicKey = some phone ∧ ShownBy w i phone code

/-- What a step of the sheet carries. -/
def SheetStep.Sound (w : PairingWorld) : SheetStep → Prop
  | .scan _ offer => offer.Sound w
  | .confirm _ publicKey code => Shown w publicKey code
  | _ => True

/-- A grant is sealed by the pairing of its code or a later one. -/
def AllowedGrant.Sound (w : PairingWorld) (g : AllowedGrant) : Prop :=
  ∃ i j, ShownBy w i g.boxed.recipient g.code ∧ g.boxed.sender = .drawn j ∧ i ≤ j

/-- The invariant. -/
structure PairingWorld.Sound (w : PairingWorld) : Prop where
  slot : ∀ pending ∈ w.slot, ∃ n, w.begun = n + 1 ∧ pending.keyPair = .drawn n ∧
    pending.secret = .drawn n
  sheets : ∀ sheet, (w.sheets sheet).step.Sound w ∧ (w.sheets sheet).rendered.Sound w
  shown : ∀ offer ∈ w.shown, offer.Sound w
  phones : ∀ (n : ℕ) (p : ScannedPairing), w.phones[n]? = some p →
    p.keyPair = .scanned n ∧ p.offer.Sound w
  grants : ∀ g ∈ w.grants, g.Sound w

/-- What a waiting task carries. -/
def AddPhoneTask.Waits (w : PairingWorld) : AddPhoneTask → Prop
  | .showQr _ _ offer => ∀ o ∈ offer, o.Sound w
  | .askCode _ _ publicKey => ∀ n, publicKey = some (.scanned n) → n < w.phones.length
  | .showCode _ _ publicKey code => Shown w publicKey code
  | .allow _ _ publicKey code => Shown w publicKey code
  | .grant _ _ publicKey code => Shown w publicKey code
  | .pairingScan offer => offer.Sound w
  | _ => True

/-- Pairings and scans are only added. -/
structure PairingWorld.Grows (w w' : PairingWorld) : Prop where
  begun : w.begun ≤ w'.begun
  phones : w.phones <+: w'.phones

section Growth

theorem PairingWorld.Grows.of_eq (hbegun : w'.begun = w.begun) (hphones : w'.phones = w.phones) :
    w.Grows w' :=
  ⟨Nat.le_of_eq hbegun.symm, hphones ▸ List.prefix_rfl⟩

theorem PairingWorld.Grows.get (h : w.Grows w') {n : ℕ} {p : ScannedPairing}
    (hp : w.phones[n]? = some p) : w'.phones[n]? = some p := by
  obtain ⟨later, heq⟩ := h.phones
  obtain ⟨hlt, -⟩ := List.getElem?_eq_some_iff.mp hp
  rw [← heq, List.getElem?_append_left hlt]
  exact hp

theorem PairingOffer.Sound.grows {offer : PairingOffer} (hoffer : offer.Sound w)
    (h : w.Grows w') : offer.Sound w' :=
  ⟨fun m hm => Nat.lt_of_lt_of_le (hoffer.begun m hm) h.begun, hoffer.secret⟩

theorem ShownBy.grows {i : ℕ} {phone : PhoneKey} {code : VerificationCode}
    (hshown : ShownBy w i phone code) (h : w.Grows w') : ShownBy w' i phone code := by
  refine ⟨hshown.code, Nat.lt_of_lt_of_le hshown.begun h.begun, fun n hn => ?_⟩
  obtain ⟨p, hp, hle⟩ := hshown.scanned n hn
  exact ⟨p, h.get hp, hle⟩

theorem Shown.grows {publicKey : Option PhoneKey} {code : VerificationCode}
    (hshown : Shown w publicKey code) (h : w.Grows w') : Shown w' publicKey code := by
  obtain ⟨i, phone, hphone, hby⟩ := hshown
  exact ⟨i, phone, hphone, hby.grows h⟩

theorem SheetStep.Sound.grows {step : SheetStep} (hstep : step.Sound w) (h : w.Grows w') :
    step.Sound w' := by
  cases step with
  | scan id offer => exact PairingOffer.Sound.grows hstep h
  | confirm id publicKey code => exact Shown.grows hstep h
  | _ => trivial

theorem SheetStep.Sound.offer {step : SheetStep} (hstep : step.Sound w) {offer : PairingOffer}
    (hoffer : offer ∈ step.offer.toList) : offer.Sound w := by
  cases step with
  | scan id shown =>
    obtain rfl := List.mem_singleton.mp hoffer
    exact hstep
  | _ => cases hoffer

theorem AddPhoneTask.Waits.grows {task : AddPhoneTask} (hwaits : task.Waits w) (h : w.Grows w') :
    task.Waits w' := by
  cases task with
  | showQr sheet id offer => exact fun o ho => (hwaits o ho).grows h
  | askCode sheet id publicKey =>
    exact fun n hn => Nat.lt_of_lt_of_le (hwaits n hn) h.phones.length_le
  | showCode sheet id publicKey code => exact Shown.grows hwaits h
  | allow sheet id publicKey code => exact Shown.grows hwaits h
  | grant sheet id publicKey code => exact Shown.grows hwaits h
  | pairingScan offer => exact PairingOffer.Sound.grows hwaits h
  | _ => trivial

theorem PairingWorld.Sound.grow (h : w.Sound) (hgrows : w.Grows w')
    (hslot : ∀ pending ∈ w'.slot, ∃ n, w'.begun = n + 1 ∧ pending.keyPair = .drawn n ∧
      pending.secret = .drawn n)
    (hsheets : ∀ sheet, (w'.sheets sheet).step.Sound w' ∧ (w'.sheets sheet).rendered.Sound w')
    (hshown : ∀ offer ∈ w'.shown, offer ∈ w.shown ∨ offer.Sound w')
    (hphones : ∀ (n : ℕ) (p : ScannedPairing), w'.phones[n]? = some p → w.phones[n]? = some p ∨
      p.keyPair = .scanned n ∧ p.offer.Sound w')
    (hgrants : ∀ g ∈ w'.grants, g ∈ w.grants ∨ g.Sound w') : w'.Sound where
  slot := hslot
  sheets := hsheets
  shown offer hoffer := by
    rcases hshown offer hoffer with hold | hnew
    · exact (h.shown offer hold).grows hgrows
    · exact hnew
  phones n p hp := by
    rcases hphones n p hp with hold | hnew
    · exact ⟨(h.phones n p hold).1, (h.phones n p hold).2.grows hgrows⟩
    · exact hnew
  grants g hg := by
    rcases hgrants g hg with hold | hnew
    · obtain ⟨i, j, hby, hsender, hle⟩ := h.grants g hold
      exact ⟨i, j, hby.grows hgrows, hsender, hle⟩
    · exact hnew

theorem PairingWorld.Sound.sheets_grow (h : w.Sound) (hgrows : w.Grows w')
    (hsheets : w'.sheets = w.sheets) (sheet : ℕ) :
    (w'.sheets sheet).step.Sound w' ∧ (w'.sheets sheet).rendered.Sound w' := by
  rw [hsheets]
  exact ⟨(h.sheets sheet).1.grows hgrows, (h.sheets sheet).2.grows hgrows⟩

end Growth

section Steps

/-- Setting a step that is sound. -/
theorem PairingWorld.Sound.setStep (h : w.Sound) (sheet : ℕ) {step : SheetStep}
    (hstep : step.Sound w) : (AddPhoneSheet.setStep w sheet step).Sound := by
  have hgrows : w.Grows (AddPhoneSheet.setStep w sheet step) := .of_eq rfl rfl
  refine h.grow hgrows h.slot (fun s => ?_) (fun _ ho => Or.inl ho) (fun _ _ hp => Or.inl hp)
    fun _ hg => Or.inl hg
  simp only [AddPhoneSheet.setStep]
  split
  · exact ⟨hstep.grows hgrows, (h.sheets s).2.grows hgrows⟩
  · exact ⟨(h.sheets s).1.grows hgrows, (h.sheets s).2.grows hgrows⟩

theorem setStep_grows (w : PairingWorld) (sheet : ℕ) (step : SheetStep) :
    w.Grows (AddPhoneSheet.setStep w sheet step) := .of_eq rfl rfl

theorem PairingWorld.Sound.render (h : w.Sound) (sheet : ℕ) :
    (AddPhoneSheet.render w sheet).Sound := by
  have hgrows : w.Grows (AddPhoneSheet.render w sheet) := .of_eq rfl rfl
  have hstep := (h.sheets sheet).1.grows hgrows
  refine h.grow hgrows h.slot (fun s => ?_) (fun offer hoffer => ?_) (fun _ _ hp => Or.inl hp)
    fun _ hg => Or.inl hg
  · simp only [AddPhoneSheet.render]
    split
    · exact ⟨hstep, hstep⟩
    · exact ⟨(h.sheets s).1.grows hgrows, (h.sheets s).2.grows hgrows⟩
  · rcases List.mem_append.mp hoffer with hnew | hold
    · exact Or.inr (hstep.offer hnew)
    · exact Or.inl hold

theorem PairingWorld.Sound.fail (h : w.Sound) (sheet : ℕ) (signedOut : Bool) :
    (AddPhoneSheet.fail w sheet signedOut).Sound ∧ w.Grows (AddPhoneSheet.fail w sheet signedOut) := by
  unfold AddPhoneSheet.fail
  split
  · exact ⟨h, .of_eq rfl rfl⟩
  · exact ⟨h.setStep sheet trivial, setStep_grows w sheet _⟩

/-- A change of the slot alone. -/
theorem PairingWorld.Sound.with_slot (h : w.Sound) {slot : PairingSlot}
    (hslot : ∀ pending ∈ slot, ∃ n, w.begun = n + 1 ∧ pending.keyPair = .drawn n ∧
      pending.secret = .drawn n) : PairingWorld.Sound { w with slot } :=
  h.grow (.of_eq rfl rfl) hslot (h.sheets_grow (.of_eq rfl rfl) rfl) (fun _ ho => Or.inl ho)
    (fun _ _ hp => Or.inl hp) fun _ hg => Or.inl hg

/-- A new pairing replaces the one on screen. -/
theorem PairingWorld.Sound.begin (h : w.Sound) :
    PairingWorld.Sound { w with slot := (pairingBegin w.begun).2, begun := w.begun + 1 } ∧
      w.Grows { w with slot := (pairingBegin w.begun).2, begun := w.begun + 1 } := by
  have hgrows : w.Grows { w with slot := (pairingBegin w.begun).2, begun := w.begun + 1 } :=
    ⟨Nat.le_succ _, List.prefix_rfl⟩
  refine ⟨h.grow hgrows ?_ (h.sheets_grow hgrows rfl) (fun _ ho => Or.inl ho)
    (fun _ _ hp => Or.inl hp) fun _ hg => Or.inl hg, hgrows⟩
  rintro pending ⟨⟩
  exact ⟨w.begun, rfl, rfl, rfl⟩

/-- The QR code carries the pairing in the slot. -/
theorem PairingWorld.Sound.qr (h : w.Sound) {id : String} {offer : Option PairingOffer}
    {slot : PairingSlot} (hqr : pairingQr w.slot id apiUrl = (offer, slot)) :
    PairingWorld.Sound { w with slot } ∧ ∀ o ∈ offer, o.Sound w := by
  unfold pairingQr at hqr
  cases hslot : w.slot with
  | none =>
    simp only [hslot] at hqr
    obtain ⟨rfl, rfl⟩ := Prod.mk.inj hqr
    exact ⟨h.with_slot nofun, nofun⟩
  | some pending =>
    obtain ⟨n, hbegun, hkey, hsecret⟩ := h.slot pending hslot
    simp only [hslot] at hqr
    split at hqr
    · obtain ⟨rfl, rfl⟩ := Prod.mk.inj hqr
      refine ⟨h.with_slot ?_, ?_⟩
      · rintro _ ⟨⟩
        exact ⟨n, hbegun, hkey, hsecret⟩
      · rintro _ ⟨⟩
        refine ⟨fun m hm => ?_, fun m hm => ?_⟩
        · have hmn : n = m := MacKey.drawn.inj (hkey.symm.trans hm)
          omega
        · have hmn : n = m := MacKey.drawn.inj (hkey.symm.trans hm)
          exact hmn ▸ hsecret
    · obtain ⟨rfl, rfl⟩ := Prod.mk.inj hqr
      exact ⟨h.with_slot fun pending hpending => h.slot pending (hslot.trans hpending), nofun⟩

/-- The code for a phone's key is computed by the latest pairing. -/
theorem PairingWorld.Sound.code (h : w.Sound) {publicKey : Option PhoneKey}
    (hdrawn : ∀ n, publicKey = some (.scanned n) → n < w.phones.length)
    {code : VerificationCode} (hcode : pairingCode w.slot publicKey = some code) :
    Shown w publicKey code := by
  unfold pairingCode at hcode
  split at hcode
  · rename_i pending phone hslot
    obtain ⟨i, hbegun, hkey, hsecret⟩ := h.slot pending hslot
    obtain rfl := Option.some_inj.mp hcode
    refine ⟨i, phone, rfl, ?_, by omega, fun n hn => ?_⟩
    · rw [hkey, hsecret]
    · -- the scan that drew the key came before, so its pairing had begun
      have hlt := hdrawn n (congrArg some hn)
      refine ⟨w.phones[n], List.getElem?_eq_getElem hlt, fun m hm => ?_⟩
      have hoffer := (h.phones n _ (List.getElem?_eq_getElem hlt)).2
      have hm' := hoffer.begun m hm
      omega
  · cases hcode

/-- What `pairing_grant` seals is sealed by the latest pairing, and the slot is empty after. -/
theorem PairingWorld.Sound.sealed (h : w.Sound) {publicKey : Option PhoneKey} {unlocked : Bool}
    {boxed : Option BoxedGrant} {slot : PairingSlot}
    (hgrant : pairingGrant w.slot publicKey unlocked = (boxed, slot)) :
    (∀ pending ∈ slot, w.slot = some pending) ∧ ∀ b ∈ boxed, publicKey = some b.recipient ∧
      ∃ j, w.begun = j + 1 ∧ b.sender = .drawn j := by
  unfold pairingGrant at hgrant
  split at hgrant
  · obtain ⟨rfl, rfl⟩ := Prod.mk.inj hgrant
    exact ⟨fun _ hpending => hpending, nofun⟩
  · rename_i phone
    split at hgrant
    · obtain ⟨rfl, rfl⟩ := Prod.mk.inj hgrant
      exact ⟨nofun, nofun⟩
    · rename_i pending hslot
      split at hgrant
      · obtain ⟨rfl, rfl⟩ := Prod.mk.inj hgrant
        exact ⟨nofun, nofun⟩
      · obtain ⟨rfl, rfl⟩ := Prod.mk.inj hgrant
        refine ⟨nofun, fun b hb => ?_⟩
        split at hb
        · obtain ⟨aad, -, rfl⟩ := Option.map_eq_some_iff.mp hb
          obtain ⟨j, hbegun, hkey, -⟩ := h.slot pending hslot
          exact ⟨rfl, j, hbegun, hkey⟩
        · cases hb

/-- A grant for a code that was shown is sealed by no earlier pairing than the code's. -/
theorem PairingWorld.Sound.grant (h : w.Sound) (sheet : ℕ) (id : String)
    {publicKey : Option PhoneKey} {code : VerificationCode} (hshown : Shown w publicKey code)
    (unlocked : Bool) :
    (AddPhoneSheet.grant w sheet id publicKey code unlocked).1.Sound ∧
      w.Grows (AddPhoneSheet.grant w sheet id publicKey code unlocked).1 := by
  unfold AddPhoneSheet.grant
  rcases hgrant : pairingGrant w.slot publicKey unlocked with ⟨_ | boxed, slot⟩
  · obtain ⟨hslot, -⟩ := h.sealed hgrant
    exact ⟨h.with_slot fun pending hpending => h.slot pending (hslot pending hpending),
      .of_eq rfl rfl⟩
  · obtain ⟨hslot, hboxed⟩ := h.sealed hgrant
    obtain ⟨hrecipient, j, hbegun, hsender⟩ := hboxed boxed rfl
    obtain ⟨i, phone, hphone, hby⟩ := hshown
    obtain rfl : boxed.recipient = phone := Option.some_inj.mp (hrecipient.symm.trans hphone)
    have hgrows : w.Grows { w with slot, grants := ⟨code, boxed⟩ :: w.grants } := .of_eq rfl rfl
    refine ⟨h.grow hgrows (fun pending hpending => h.slot pending (hslot pending hpending))
      (h.sheets_grow hgrows rfl) (fun _ ho => Or.inl ho) (fun _ _ hp => Or.inl hp)
      fun g hg => ?_, hgrows⟩
    rcases List.mem_cons.mp hg with rfl | hold
    · have hle : i ≤ j := by
        have := hby.begun
        omega
      exact Or.inr ⟨i, j, hby.grows hgrows, hsender, hle⟩
    · exact Or.inl hold

/-- A scan draws a key of its own. -/
theorem PairingWorld.Sound.scan (h : w.Sound) {offer : PairingOffer} (hoffer : offer.Sound w)
    {phone : ScannedPairing} (hscan : pairingScan offer w.phones.length = some phone) :
    PairingWorld.Sound { w with phones := w.phones ++ [phone] } ∧
      w.Grows { w with phones := w.phones ++ [phone] } := by
  have hgrows : w.Grows { w with phones := w.phones ++ [phone] } :=
    ⟨Nat.le_refl _, List.prefix_append ..⟩
  obtain ⟨parsed, hparse, rfl⟩ := Option.map_eq_some_iff.mp hscan
  obtain ⟨hkey, hsecret⟩ := PairingOffer.parse_keys hparse
  refine ⟨h.grow hgrows h.slot (h.sheets_grow hgrows rfl) (fun _ ho => Or.inl ho)
    (fun n p hp => ?_) fun _ hg => Or.inl hg, hgrows⟩
  rcases Nat.lt_trichotomy n w.phones.length with hlt | rfl | hgt
  · exact Or.inl (List.getElem?_append_left hlt ▸ hp)
  · rw [List.getElem?_concat_length] at hp
    obtain rfl := Option.some_inj.mp hp
    refine Or.inr ⟨rfl, fun m hm => ?_, fun m hm => ?_⟩
    · exact hoffer.begun m (hkey ▸ hm)
    · exact hsecret ▸ hoffer.secret m (hkey ▸ hm)
  · rw [List.getElem?_eq_none (by simp only [List.length_append, List.length_singleton]; omega)] at hp
    cases hp

end Steps

section Runs

/-- A step of a task keeps the invariant, and the task waits on. -/
structure PairingWorld.Leads (w w' : PairingWorld) (next : Option AddPhoneTask) : Prop where
  sound : w'.Sound
  grows : w.Grows w'
  waits : ∀ task ∈ next, task.Waits w'

/-- A task that is done. -/
theorem PairingWorld.Leads.of_done (h : w'.Sound ∧ w.Grows w') : w.Leads w' none :=
  ⟨h.1, h.2, nofun⟩

/-- A task that leaves the world as it is. -/
theorem PairingWorld.Leads.of_same (h : w.Sound) {next : Option AddPhoneTask}
    (hnext : ∀ task ∈ next, task.Waits w) : w.Leads w next :=
  ⟨h, .of_eq rfl rfl, hnext⟩

theorem polled_leads (h : w.Sound) {answer : PairingAnswer} (hanswer : answer.Possible w)
    (sheet : ℕ) (id : String) :
    w.Leads (polled w sheet id answer).1 (polled w sheet id answer).2 := by
  unfold polled
  split
  · split
    · exact .of_done (h.fail sheet _)
    · exact .of_same h nofun
  · rename_i view hview
    split
    · exact .of_same h nofun
    · refine .of_same h fun task htask => ?_
      obtain ⟨publicKey, hkey, rfl⟩ := Option.map_eq_some_iff.mp htask
      exact fun n hn => hanswer view hview n (hn ▸ hkey)

theorem AddPhoneTask.proceed_leads (h : w.Sound) {task : AddPhoneTask} (hwaits : task.Waits w)
    {answer : PairingAnswer} (hanswer : answer.Possible w) :
    w.Leads (task.proceed apiUrl w answer).1 (task.proceed apiUrl w answer).2 := by
  cases task with
  | render sheet => exact .of_done ⟨h.render sheet, .of_eq rfl rfl⟩
  | start sheet => exact ⟨h.setStep sheet trivial, setStep_grows .., by rintro _ ⟨⟩; trivial⟩
  | begin sheet => exact ⟨h.begin.1, h.begin.2, by rintro _ ⟨⟩; trivial⟩
  | create sheet claimToken =>
    simp only [proceed]
    split
    · exact .of_done (h.fail sheet _)
    · exact .of_same h (by rintro _ ⟨⟩; trivial)
  | qr sheet id =>
    rcases hqr : pairingQr w.slot id apiUrl with ⟨offer, slot⟩
    obtain ⟨hsound, hoffer⟩ := h.qr hqr
    simp only [proceed, hqr]
    refine ⟨hsound, .of_eq rfl rfl, ?_⟩
    rintro _ ⟨⟩
    exact fun o ho => (hoffer o ho).grows (.of_eq rfl rfl)
  | showQr sheet id offer =>
    cases offer with
    | none => exact .of_done (h.fail sheet false)
    | some offer => exact .of_done ⟨h.setStep sheet (hwaits offer rfl), setStep_grows ..⟩
  | poll sheet id => exact polled_leads h hanswer sheet id
  | askCode sheet id publicKey =>
    refine .of_same h fun task htask => ?_
    obtain ⟨code, hcode, rfl⟩ := Option.map_eq_some_iff.mp htask
    exact h.code hwaits hcode
  | showCode sheet id publicKey code => exact .of_done ⟨h.setStep sheet hwaits, setStep_grows ..⟩
  | allow sheet id publicKey code =>
    refine ⟨h.setStep sheet trivial, setStep_grows .., ?_⟩
    rintro _ ⟨⟩
    exact Shown.grows hwaits (setStep_grows ..)
  | grant sheet id publicKey code =>
    obtain ⟨hsound, hgrows⟩ := h.grant sheet id hwaits answer.unlocked
    refine ⟨hsound, hgrows, fun task htask => ?_⟩
    simp only [proceed, AddPhoneSheet.grant] at htask
    split at htask <;> (obtain rfl := Option.some_inj.mp htask; trivial)
  | approve sheet id boxed =>
    simp only [proceed]
    split
    · exact .of_done ⟨h.setStep sheet trivial, setStep_grows ..⟩
    · exact .of_done (h.fail sheet _)
  | refused sheet => exact .of_done (h.fail sheet false)
  | deny sheet id =>
    simp only [proceed]
    split
    · exact .of_same h (by rintro _ ⟨⟩; trivial)
    · exact .of_done (h.fail sheet _)
  | cancel => exact .of_done ⟨h.with_slot nofun, .of_eq rfl rfl⟩
  | pairingScan offer =>
    simp only [proceed]
    split
    · exact .of_same h nofun
    · rename_i phone hscan
      exact .of_done (h.scan hwaits hscan)

/-- The person answers to a code on screen; a phone scans keys that were on screen, or none of this
Mac. -/
theorem AddPhoneTask.CanStart.waits (h : w.Sound) {task : AddPhoneTask} (hstart : task.CanStart w) :
    task.Waits w := by
  cases task with
  | allow sheet id publicKey code =>
    have hrendered := (h.sheets sheet).2
    rw [show (w.sheets sheet).rendered = _ from hstart] at hrendered
    exact hrendered
  | pairingScan offer =>
    rcases hstart with hforeign | ⟨shown, hshown, hkey, hsecret⟩
    · exact ⟨fun m hm => absurd hm (hforeign.1 m), fun m hm => absurd hm (hforeign.1 m)⟩
    · have hsound := h.shown shown hshown
      exact ⟨fun m hm => hsound.begun m (hkey ▸ hm),
        fun m hm => hsecret.trans (hsound.secret m (hkey ▸ hm))⟩
  | showQr => cases hstart
  | askCode => cases hstart
  | showCode => cases hstart
  | grant => cases hstart
  | _ => trivial

theorem addPhone_outline :
    Outline (addPhoneProgram apiUrl) PairingWorld.Sound AddPhoneTask.Waits fun _ _ => True := by
  have hleads : ∀ {w w' : PairingWorld} {task next}, w.Sound → task.Waits w →
      (addPhoneProgram apiUrl).act w task w' next → w.Leads w' next := by
    rintro w w' task next h hwaits ⟨answer, hanswer, hproceed⟩
    have hleads : w.Leads (task.proceed apiUrl w answer).1 (task.proceed apiUrl w answer).2 :=
      AddPhoneTask.proceed_leads h hwaits hanswer
    rwa [hproceed] at hleads
  exact .of_free (fun h hstart => AddPhoneTask.CanStart.waits h hstart)
    (fun h hwaits hact => (hleads h hwaits hact).sound)
    (fun h hwaits hact => (hleads h hwaits hact).waits _ rfl)
    fun h hwaits hother hact => hother.grows (hleads h hwaits hact).grows

theorem PairingWorld.Sound.initial : PairingWorld.initial.Sound where
  slot := nofun
  sheets _ := ⟨trivial, trivial⟩
  shown := nofun
  phones n p hp := by simp [PairingWorld.initial] at hp
  grants := nofun

/-- A phone that opens a grant shows the code that was on the Mac's screen when the grant was
allowed, for the same pairing. -/
theorem grant_code_compared (apiUrl : String) {w : PairingWorld} {tasks : List AddPhoneTask}
    (hrun : Run (addPhoneProgram apiUrl) ⟨.initial, []⟩ ⟨w, tasks⟩) {g : AllowedGrant}
    (hg : g ∈ w.grants) {p : ScannedPairing} (hp : p ∈ w.phones)
    (hopens : p.opens g.boxed = true) :
    g.code = p.code ∧ ∃ n, g.boxed.sender = .drawn n ∧ g.code.macPublic = .drawn n ∧
      p.offer.publicKey = .drawn n := by
  obtain ⟨hsound, -, -⟩ := addPhone_outline.run_idle .initial hrun
  obtain ⟨i, j, hby, hsender, hle⟩ := hsound.grants g hg
  obtain ⟨n, hn⟩ := List.getElem?_of_mem hp
  obtain ⟨hkey, hoffer⟩ := hsound.phones n p hn
  obtain ⟨-, hrecipient, hmac⟩ : uuidBytes p.offer.id = some g.boxed.aad ∧
      g.boxed.recipient = p.keyPair ∧ g.boxed.sender = p.offer.publicKey := of_decide_eq_true hopens
  have hpublic : p.offer.publicKey = .drawn j := hmac.symm.trans hsender
  -- the phone scanned before its code was computed, and the grant came later
  obtain ⟨p', hn', hscanned⟩ := hby.scanned n (hrecipient.trans hkey)
  obtain rfl : p = p' := Option.some_inj.mp (hn.symm.trans hn')
  obtain rfl : i = j := Nat.le_antisymm hle (hscanned j hpublic)
  have hcode : g.code = ⟨.drawn i, .drawn i, p.keyPair⟩ := hrecipient ▸ hby.code
  refine ⟨?_, i, hsender, by rw [hcode], hpublic⟩
  rw [hcode, ScannedPairing.code, hoffer.secret i hpublic, hpublic]

namespace FirstPhone

/-- The server answers honestly; the phone has claimed the pairing or has not. -/
def answer (claimed : Bool) : PairingAnswer where
  created := some "0b6f4f0e-2c1d-4c47-9a57-5d8a1e7f3c20"
  view := some ⟨claimed, if claimed then some (some (.scanned 0)) else none⟩
  ok := true
  signedOut := false
  unlocked := true

def offer : PairingOffer :=
  ⟨"https://api.zvault.test", "0b6f4f0e-2c1d-4c47-9a57-5d8a1e7f3c20", .drawn 0, .drawn 0⟩

abbrev program : Program PairingWorld AddPhoneTask := addPhoneProgram "https://api.zvault.test"

variable {t t' : AddPhoneTask}

theorem unclaimed_possible (w : PairingWorld) : (answer false).Possible w := by
  rintro _ ⟨⟩ n hn
  cases hn

/-- A call starts and does its first step. -/
theorem starts (h : Run program ⟨.initial, []⟩ ⟨w, []⟩) (hstart : t.CanStart w)
    (claimed : Bool) (hpossible : (answer claimed).Possible w) {next : Option AddPhoneTask}
    (hproceed : t.proceed "https://api.zvault.test" w (answer claimed) = (w', next)) :
    Run program ⟨.initial, []⟩ ⟨w', next.toList⟩ := by
  have hact : program.act w t w' next := ⟨answer claimed, hpossible, hproceed⟩
  have hstep : Step program ⟨w, [] ++ t :: []⟩ ⟨w', [] ++ (next.toList ++ [])⟩ := .act hact
  rw [List.nil_append, List.nil_append, List.append_nil] at hstep
  exact (h.tail (.start hstart)).tail hstep

/-- A call does its next step. -/
theorem goes_on (h : Run program ⟨.initial, []⟩ ⟨w, [t]⟩) {next : Option AddPhoneTask}
    (hproceed : t.proceed "https://api.zvault.test" w (answer false) = (w', next)) :
    Run program ⟨.initial, []⟩ ⟨w', next.toList⟩ := by
  have hact : program.act w t w' next := ⟨answer false, unclaimed_possible w, hproceed⟩
  have hstep : Step program ⟨w, [] ++ t :: []⟩ ⟨w', [] ++ (next.toList ++ [])⟩ := .act hact
  rw [List.nil_append, List.nil_append, List.append_nil] at hstep
  exact h.tail hstep

/-- A phone scans the code, the codes are compared, and the phone opens the grant. -/
theorem granted : ∃ w tasks g p, Run program ⟨.initial, []⟩ ⟨w, tasks⟩ ∧ g ∈ w.grants ∧
    p ∈ w.phones ∧ p.opens g.boxed = true ∧ g.code = p.code ∧
    ∃ n, g.boxed.sender = .drawn n ∧ g.code.macPublic = .drawn n ∧
      p.offer.publicKey = .drawn n := by
  have hinitial : Run program ⟨.initial, []⟩ ⟨.initial, []⟩ := .refl
  have hstarted := starts (t := .start 0) hinitial trivial false (unclaimed_possible _) rfl
  have hbegun := goes_on hstarted rfl
  have hcreated := goes_on hbegun rfl
  have hqr := goes_on hcreated rfl
  have hset := goes_on hqr rfl
  have hshown := starts (t := .render 0) hset trivial false (unclaimed_possible _) rfl
  have hscanned := starts (t := .pairingScan offer) hshown
    (Or.inr ⟨offer, List.mem_cons_self, rfl, rfl⟩) false (unclaimed_possible _) rfl
  have hpolled := starts (t := .poll 0 offer.id) hscanned ⟨offer, rfl⟩ true
    (by rintro _ ⟨⟩ n ⟨⟩; exact Nat.zero_lt_one) rfl
  have hasked := goes_on hpolled rfl
  have hcode := goes_on hasked rfl
  have hcompared := starts (t := .render 0) hcode trivial false (unclaimed_possible _) rfl
  have hallowed := starts (t := .allow 0 offer.id (some (.scanned 0)) ⟨.drawn 0, .drawn 0, .scanned 0⟩)
    hcompared rfl false (unclaimed_possible _) rfl
  have hgranted := goes_on hallowed rfl
  have hopens : ScannedPairing.opens ⟨offer, .scanned 0⟩
      ⟨.drawn 0, .scanned 0, (uuidBytes offer.id).getD []⟩ = true := by decide
  exact ⟨_, _, _, _, hgranted, List.mem_cons_self, List.mem_cons_self, hopens,
    grant_code_compared _ hgranted List.mem_cons_self List.mem_cons_self hopens⟩

end FirstPhone

end Runs

end Zvault
