import Zvault.Vault.Passkeys
import Zvault.Vault.SshKeys

/-!
# Private keys and edits

The UI is not given the private keys of an item. When it is edited, a key that comes
back under its own id is the one that is stored, and any other is made anew.
-/

namespace Zvault.Vault

open Text (trim)

variable {K D : Type}

/-- The crates that the app is built with, at one time. -/
def keyCrates (totpUri : String → Option String) (A : PasskeyCrate K) (S : SshCrate D) (now : ℤ) :
    Crates where
  totpUri
  validPasskey p := p.validate A
  publicKey p := p.publicKey A
  newPasskey f := Passkey.ofFields A f now
  validSshKey k := k.validate S
  sshPublic k := k.toPublic S
  setComment k comment := k.setComment S comment
  newSshKey f := SshKey.ofFields S f now

section Crates

variable (totpUri : String → Option String) (A : PasskeyCrate K) (S : SshCrate D) (now : ℤ)

@[simp] theorem keyCrates_newPasskey (f : PasskeyFields) :
    (keyCrates totpUri A S now).newPasskey f = Passkey.ofFields A f now := by
  rw [keyCrates]

@[simp] theorem keyCrates_newSshKey (f : SshKeyFields) :
    (keyCrates totpUri A S now).newSshKey f = SshKey.ofFields S f now := by
  rw [keyCrates]

@[simp] theorem keyCrates_validPasskey (p : Passkey) :
    (keyCrates totpUri A S now).validPasskey p = p.validate A := by
  rw [keyCrates]

@[simp] theorem keyCrates_sshPublic (k : SshKey) :
    (keyCrates totpUri A S now).sshPublic k = k.toPublic S := by
  rw [keyCrates]

theorem openPlaintext_keyCrates (p : ItemPlaintext) :
    openPlaintext (keyCrates totpUri A S now) p =
      if p.passkey.all (·.validate A) && p.sshKey.all (·.validate S) then some p else none := by
  rw [openPlaintext, keyCrates]

end Crates

/-- The edited fields are shown again: trimmed, without blank addresses, and with the canonical
one-time password setup. Of a passkey the user name was edited, of an SSH key the comment; an
imported key may bring a comment of its own. -/
structure ComesBack (crates : Crates) (fields view : ItemFields) : Prop where
  title : view.title = trim fields.title
  username : view.username = trim fields.username
  password : view.password = fields.password
  urls : view.urls = (fields.urls.filter fun u => !(trim u).isEmpty).map trim
  notes : view.notes = fields.notes
  totp : normalizeTotp crates fields.totp = some view.totp
  userName : view.passkey.map (·.userName) = fields.passkey.map (trim ·.userName)
  sshKey : view.sshKey.isSome = fields.sshKey.isSome
  comment : ∀ f ∈ fields.sshKey, ∀ shown ∈ view.sshKey, (trim f.privateKey).isEmpty = true →
    shown.comment = trim f.comment ∨ cleanComment f.comment = some shown.comment

/-- No private key is shown. -/
structure HidesKeys (view : ItemFields) : Prop where
  passkey : ∀ f ∈ view.passkey, f.privateKey = ""
  sshKey : ∀ f ∈ view.sshKey, f.privateKey = "" ∧ f.passphrase = ""

/-- What becomes of a stored passkey and a stored SSH key when fields are sealed. The fields name
them by credential id and by fingerprint. -/
structure KeysKept (A : PasskeyCrate K) (S : SshCrate D) (now : ℤ) (passkey : Option Passkey)
    (sshKey : Option SshKey) (fields : ItemFields) (new : ItemPlaintext) : Prop where
  passkey_kept : ∀ f ∈ fields.passkey, ∀ s ∈ passkey, (trim f.privateKey).isEmpty = true →
    s.credentialId = f.credentialId → new.passkey = some { s with userName := trim f.userName }
  passkey_replaced : ∀ f ∈ fields.passkey,
    (∀ s ∈ passkey, (trim f.privateKey).isEmpty = true → s.credentialId ≠ f.credentialId) →
      ∃ k, Passkey.ofFields A f now = some k ∧ new.passkey = some k
  passkey_removed : fields.passkey = none → new.passkey = none
  sshKey_kept : ∀ f ∈ fields.sshKey, ∀ s ∈ sshKey, ∀ key, s.key S = some key →
    (trim f.privateKey).isEmpty = true → S.fingerprint key.data = f.fingerprint →
      ∃ k comment, new.sshKey = some k ∧ k.key S = some { key with comment } ∧
        k.createdAt = s.createdAt
  sshKey_replaced : ∀ f ∈ fields.sshKey,
    (∀ s ∈ sshKey, ∀ key, s.key S = some key → (trim f.privateKey).isEmpty = true →
      S.fingerprint key.data ≠ f.fingerprint) →
      ∃ k, SshKey.ofFields S f now = some k ∧ new.sshKey = some k
  sshKey_removed : fields.sshKey = none → new.sshKey = none

theorem transposed_eq_some {α β : Type} {f : α → Option β} {a : Option α} {b : Option β} :
    transposed f a = some b ↔ (a = none ∧ b = none) ∨ ∃ x y, a = some x ∧ f x = some y ∧ b = some y := by
  cases a with
  | none => simp [transposed, eq_comm]
  | some x => simp [transposed, eq_comm]

theorem transposed_some_eq_some {α β : Type} {f : α → Option β} {x : α} {b : Option β} :
    transposed f (some x) = some b ↔ ∃ y, f x = some y ∧ some y = b := by
  rw [transposed, Option.map_eq_some_iff]

/-- What an item that is opened shows. -/
theorem openItem_eq_some {crates : Crates} {p : ItemPlaintext} {view : ItemFields} :
    openItem crates p = some view ↔ openPlaintext crates p = some p ∧
      view.title = p.title ∧ view.username = p.username ∧ view.password = p.password ∧
      view.urls = p.urls ∧ view.notes = p.notes ∧ view.totp = p.totp ∧
      transposed (PasskeyFields.tryFrom crates) p.passkey = some view.passkey ∧
      transposed (SshKeyFields.tryFrom crates) p.sshKey = some view.sshKey := by
  have hopen : ∀ q, openPlaintext crates p = some q → q = p := by
    intro q h
    rw [openPlaintext] at h
    split at h
    · exact (Option.some_inj.mp h).symm
    · cases h
  simp only [openItem, Option.bind_eq_bind, Option.bind_eq_some_iff, Option.pure_def,
    Option.some_inj]
  constructor
  · rintro ⟨q, hq, passkey, hpasskey, sshKey, hsshKey, rfl⟩
    obtain rfl := hopen q hq
    exact ⟨hq, rfl, rfl, rfl, rfl, rfl, rfl, hpasskey, hsshKey⟩
  · rintro ⟨hq, htitle, husername, hpassword, hurls, hnotes, htotp, hpasskey, hsshKey⟩
    refine ⟨p, hq, view.passkey, hpasskey, view.sshKey, hsshKey, ?_⟩
    cases view
    simp_all

theorem hidesKeys_of_openItem {crates : Crates} {p : ItemPlaintext} {view : ItemFields}
    (h : openItem crates p = some view) : HidesKeys view := by
  obtain ⟨-, -, -, -, -, -, -, hpasskey, hsshKey⟩ := openItem_eq_some.mp h
  constructor
  · intro f hf
    rcases transposed_eq_some.mp hpasskey with ⟨-, hnone⟩ | ⟨k, shown, -, hshown, hsome⟩
    · rw [hnone] at hf
      cases hf
    · obtain ⟨_, -, rfl⟩ := Option.map_eq_some_iff.mp hshown
      rw [hsome] at hf
      obtain rfl := Option.some_inj.mp hf
      rfl
  · intro f hf
    rcases transposed_eq_some.mp hsshKey with ⟨-, hnone⟩ | ⟨k, shown, -, hshown, hsome⟩
    · rw [hnone] at hf
      cases hf
    · obtain ⟨_, -, rfl⟩ := Option.map_eq_some_iff.mp hshown
      rw [hsome] at hf
      obtain rfl := Option.some_inj.mp hf
      exact ⟨rfl, rfl⟩

theorem renameUser_eq_some {s k : Passkey} {name : String} (h : s.renameUser name = some k) :
    k = { s with userName := trim name } := by
  obtain ⟨userName, hname, rfl⟩ := Option.map_eq_some_iff.mp h
  rw [eq_trim_of_passkeyUser hname]

section Lawful

variable {totpUri : String → Option String} {A : PasskeyCrate K} {S : SshCrate D} {now : ℤ}

/-- The stored passkey under a new user name, or another passkey. -/
theorem resolvePasskey_eq_some {stored : Option Passkey} {f : PasskeyFields} {k : Passkey}
    (h : resolvePasskey (keyCrates totpUri A S now) stored f = some k) :
    (∃ s ∈ stored, (trim f.privateKey).isEmpty = true ∧ s.credentialId = f.credentialId ∧
      k = { s with userName := trim f.userName }) ∨
    ((∀ s ∈ stored, (trim f.privateKey).isEmpty = true → s.credentialId ≠ f.credentialId) ∧
      Passkey.ofFields A f now = some k) := by
  rw [resolvePasskey] at h
  split at h
  · rename_i hblank
    split at h
    · rename_i s hs
      obtain ⟨hstored, hid⟩ := Option.filter_eq_some_iff.mp hs
      exact Or.inl ⟨s, hstored, hblank, of_decide_eq_true hid, renameUser_eq_some h⟩
    · rename_i hnone
      split at h
      · rw [keyCrates_newPasskey] at h
        refine Or.inr ⟨fun s hs _ hid => ?_, h⟩
        rw [Option.filter_eq_none_iff] at hnone
        exact hnone s hs (decide_eq_true hid)
      · cases h
  · rename_i hsent
    rw [keyCrates_newPasskey] at h
    exact Or.inr ⟨fun s _ hblank => absurd hblank hsent, h⟩

/-- The stored SSH key under a new comment, or another SSH key. -/
theorem resolveSshKey_eq_some (hS : S.Lawful) {stored : Option SshKey} {f : SshKeyFields} {k : SshKey}
    (h : resolveSshKey (keyCrates totpUri A S now) stored f = some k) :
    (∃ s ∈ stored, ∃ key, (trim f.privateKey).isEmpty = true ∧ s.key S = some key ∧
      S.fingerprint key.data = f.fingerprint ∧ ∃ comment, k.key S = some { key with comment } ∧
        k.createdAt = s.createdAt ∧
        (comment = trim f.comment ∨ cleanComment f.comment = some comment)) ∨
    ((∀ s ∈ stored, ∀ key, s.key S = some key → (trim f.privateKey).isEmpty = true →
      S.fingerprint key.data ≠ f.fingerprint) ∧ SshKey.ofFields S f now = some k) := by
  rw [resolveSshKey] at h
  split at h
  · rename_i hsent
    rw [keyCrates_newSshKey] at h
    refine Or.inr ⟨fun s _ key _ hblank hsame => ?_, h⟩
    have hfingerprint := hS.trim_fingerprint key.data
    rw [hsame] at hfingerprint
    simp [hblank, hfingerprint] at hsent
  · rename_i hsent
    have hblank : (trim f.privateKey).isEmpty = true := by
      cases hempty : (trim f.privateKey).isEmpty with
      | true => rfl
      | false => simp [hempty] at hsent
    simp only [Option.bind_eq_bind, Option.bind_eq_some_iff] at h
    obtain ⟨s, hs, shown, hshown, h⟩ := h
    obtain ⟨key, hkey, -⟩ := Option.bind_eq_some_iff.mp hshown
    obtain ⟨_, hpublic⟩ := SshKey.toPublic_of_key hS hkey
    obtain rfl := Option.some_inj.mp (hshown.symm.trans hpublic)
    split_ifs at h with hother hcomment
    · obtain rfl := Option.some_inj.mp h
      exact Or.inl ⟨s, hs, key, hblank, hkey, not_not.mp hother, key.comment, hkey, rfl,
        Or.inl hcomment⟩
    · obtain ⟨cleaned, hcleaned, hkey', hcreated⟩ := SshKey.key_setComment hS hkey h
      exact Or.inl ⟨s, hs, key, hblank, hkey, not_not.mp hother, cleaned, hkey', hcreated,
        Or.inr hcleaned⟩

/-- A stored item whose keys are read is opened as it is. -/
theorem eq_of_transposed_openPlaintext {crates : Crates} {existing stored : Option ItemPlaintext}
    (h : transposed (openPlaintext crates) existing = some stored) : stored = existing ∧
      (∀ k ∈ existing.bind (·.passkey), crates.validPasskey k = true) ∧
      ∀ k ∈ existing.bind (·.sshKey), crates.validSshKey k = true := by
  rcases transposed_eq_some.mp h with ⟨rfl, rfl⟩ | ⟨p, q, rfl, hopen, rfl⟩
  · refine ⟨rfl, ?_, ?_⟩
    · rintro k ⟨⟩
    · rintro k ⟨⟩
  · rw [openPlaintext] at hopen
    split at hopen
    · rename_i hvalid
      obtain rfl := Option.some_inj.mp hopen
      obtain ⟨hpasskey, hsshKey⟩ := Bool.and_eq_true_iff.mp hvalid
      exact ⟨rfl, fun k hk => (Option.all_eq_true _ _).mp hpasskey k hk,
        fun k hk => (Option.all_eq_true _ _).mp hsshKey k hk⟩
    · cases hopen

variable (hA : A.Lawful) (hS : S.Lawful)

include hA in
/-- The passkey to store is not damaged, and is shown with the user name that was sent. -/
theorem shown_resolvePasskey {stored : Option Passkey}
    (hstored : ∀ s ∈ stored, s.validate A = true) {f : PasskeyFields} {k : Passkey}
    (h : resolvePasskey (keyCrates totpUri A S now) stored f = some k) :
    k.validate A = true ∧ ∃ shown,
      PasskeyFields.tryFrom (keyCrates totpUri A S now) k = some shown ∧
        shown.userName = trim f.userName := by
  have hk : k.validate A = true ∧ k.userName = trim f.userName := by
    rcases resolvePasskey_eq_some h with ⟨s, hs, -, -, rfl⟩ | ⟨-, hmade⟩
    · exact ⟨hstored s hs, rfl⟩
    · exact ⟨Passkey.validate_ofFields hA hmade, Passkey.userName_ofFields hmade⟩
  obtain ⟨publicKey, hpublic⟩ := Passkey.publicKey_of_validate hA hk.1
  refine ⟨hk.1, ⟨k.rpId, k.userName, k.userHandle, k.credentialId, publicKey, k.createdAt, ""⟩, ?_, hk.2⟩
  have hcrates : (keyCrates totpUri A S now).publicKey k = some publicKey := hpublic
  rw [PasskeyFields.tryFrom, hcrates, Option.map_some]

include hS in
/-- The SSH key to store is not damaged, and is shown with the comment that was sent. -/
theorem shown_resolveSshKey {stored : Option SshKey} {f : SshKeyFields} {k : SshKey}
    (h : resolveSshKey (keyCrates totpUri A S now) stored f = some k) :
    k.validate S = true ∧ ∃ shown,
      SshKeyFields.tryFrom (keyCrates totpUri A S now) k = some shown ∧
        ((trim f.privateKey).isEmpty = true →
          shown.comment = trim f.comment ∨ cleanComment f.comment = some shown.comment) := by
  have hk : ∃ key, k.key S = some key ∧ ((trim f.privateKey).isEmpty = true →
      key.comment = trim f.comment ∨ cleanComment f.comment = some key.comment) := by
    rcases resolveSshKey_eq_some hS h with ⟨s, -, key, -, -, -, comment, hkey, -, hcomment⟩ | ⟨-, hmade⟩
    · exact ⟨_, hkey, fun _ => hcomment⟩
    · obtain ⟨key, hkey⟩ := Option.isSome_iff_exists.mp (SshKey.validate_ofFields hS hmade)
      refine ⟨key, hkey, fun hblank => Or.inr ?_⟩
      rw [SshKey.ofFields, if_pos hblank] at hmade
      obtain ⟨drawn, cleaned, -, hcleaned, hdrawn⟩ := SshKey.key_generate hS hmade
      obtain rfl := Option.some_inj.mp (hkey.symm.trans hdrawn)
      exact hcleaned
  obtain ⟨key, hkey, hcomment⟩ := hk
  obtain ⟨publicKey, hpublic⟩ := SshKey.toPublic_of_key hS hkey
  refine ⟨by rw [SshKey.validate, hkey]; rfl, ⟨key.comment, S.fingerprint key.data, publicKey,
    keyType (S.kind key.data), k.createdAt, "", ""⟩, ?_, hcomment⟩
  rw [SshKeyFields.tryFrom, keyCrates_sshPublic, hpublic, Option.map_some]

include hS in
/-- What becomes of the keys of an item. -/
theorem keysKept_of_sealItem {existing : Option ItemPlaintext} {fields : ItemFields} {p : ItemPlaintext}
    (h : sealItem (keyCrates totpUri A S now) existing fields = some p) :
    KeysKept A S now (existing.bind (·.passkey)) (existing.bind (·.sshKey)) fields p := by
  obtain ⟨-, -, -, -, -, -, stored, hstored, hpasskey, hsshKey⟩ := sealItem_eq_some h
  obtain ⟨rfl, -, -⟩ := eq_of_transposed_openPlaintext hstored
  constructor
  · intro f hf s hs hblank hid
    rw [Option.mem_def.mp hf] at hpasskey
    obtain ⟨k, hk, hnew⟩ := transposed_some_eq_some.mp hpasskey
    rw [← hnew]
    rcases resolvePasskey_eq_some hk with ⟨s', hs', -, -, rfl⟩ | ⟨hother, -⟩
    · rw [Option.mem_unique hs hs']
    · exact absurd hid (hother s hs hblank)
  · intro f hf hother
    rw [Option.mem_def.mp hf] at hpasskey
    obtain ⟨k, hk, hnew⟩ := transposed_some_eq_some.mp hpasskey
    rcases resolvePasskey_eq_some hk with ⟨s, hs, hblank, hid, -⟩ | ⟨-, hmade⟩
    · exact absurd hid (hother s hs hblank)
    · exact ⟨k, hmade, hnew.symm⟩
  · intro hnone
    rw [hnone] at hpasskey
    exact (Option.some_inj.mp hpasskey).symm
  · intro f hf s hs key hkey hblank hid
    rw [Option.mem_def.mp hf] at hsshKey
    obtain ⟨k, hk, hnew⟩ := transposed_some_eq_some.mp hsshKey
    rcases resolveSshKey_eq_some hS hk with
      ⟨s', hs', key', -, hkey', -, comment, hcomment, hcreated, -⟩ | ⟨hother, -⟩
    · obtain rfl := Option.mem_unique hs hs'
      obtain rfl := Option.some_inj.mp (hkey.symm.trans hkey')
      exact ⟨k, comment, hnew.symm, hcomment, hcreated⟩
    · exact absurd hid (hother s hs key hkey hblank)
  · intro f hf hother
    rw [Option.mem_def.mp hf] at hsshKey
    obtain ⟨k, hk, hnew⟩ := transposed_some_eq_some.mp hsshKey
    rcases resolveSshKey_eq_some hS hk with ⟨s, hs, key, hblank, hkey, hid, -⟩ | ⟨-, hmade⟩
    · exact absurd hid (hother s hs key hkey hblank)
    · exact ⟨k, hmade, hnew.symm⟩
  · intro hnone
    rw [hnone] at hsshKey
    exact (Option.some_inj.mp hsshKey).symm

include hA hS in
/-- An item that was sealed is opened, and shows the fields that were sealed. -/
theorem comesBack_of_sealItem {existing : Option ItemPlaintext} {fields : ItemFields}
    {p : ItemPlaintext} (h : sealItem (keyCrates totpUri A S now) existing fields = some p) :
    ∃ view, openItem (keyCrates totpUri A S now) p = some view ∧
      ComesBack (keyCrates totpUri A S now) fields view := by
  obtain ⟨htitle, husername, hpassword, hurls, hnotes, htotp, stored, hstored, hpasskey, hsshKey⟩ :=
    sealItem_eq_some h
  obtain ⟨rfl, hvalid, -⟩ := eq_of_transposed_openPlaintext hstored
  simp only [keyCrates_validPasskey] at hvalid
  have hp : ∃ shown, transposed (PasskeyFields.tryFrom (keyCrates totpUri A S now)) p.passkey =
      some shown ∧ shown.map (·.userName) = fields.passkey.map (trim ·.userName) ∧
      p.passkey.all (·.validate A) = true := by
    rcases transposed_eq_some.mp hpasskey with ⟨hnone, hp⟩ | ⟨f, k, hf, hk, hp⟩
    · exact ⟨none, by rw [hp]; rfl, by rw [hnone]; rfl, by rw [hp]; rfl⟩
    · obtain ⟨hdamage, shown, hshown, huser⟩ := shown_resolvePasskey hA hvalid hk
      refine ⟨some shown, ?_, ?_, ?_⟩
      · rw [hp, transposed, hshown, Option.map_some]
      · rw [hf, Option.map_some, Option.map_some, huser]
      · rw [hp, Option.all_some, hdamage]
  have hs : ∃ shown, transposed (SshKeyFields.tryFrom (keyCrates totpUri A S now)) p.sshKey =
      some shown ∧ shown.isSome = fields.sshKey.isSome ∧
      (∀ f ∈ fields.sshKey, ∀ k ∈ shown, (trim f.privateKey).isEmpty = true →
        k.comment = trim f.comment ∨ cleanComment f.comment = some k.comment) ∧
      p.sshKey.all (·.validate S) = true := by
    rcases transposed_eq_some.mp hsshKey with ⟨hnone, hp⟩ | ⟨f, k, hf, hk, hp⟩
    · refine ⟨none, by rw [hp]; rfl, by rw [hnone], ?_, by rw [hp]; rfl⟩
      rintro f - k ⟨⟩
    · obtain ⟨hdamage, shown, hshown, hcomment⟩ := shown_resolveSshKey hS hk
      refine ⟨some shown, ?_, ?_, ?_, ?_⟩
      · rw [hp, transposed, hshown, Option.map_some]
      · rw [hf, Option.isSome_some, Option.isSome_some]
      · intro f' hf' k' hk'
        obtain rfl := Option.some_inj.mp (hf.symm.trans hf')
        obtain rfl := Option.some_inj.mp hk'
        exact hcomment
      · rw [hp, Option.all_some, hdamage]
  obtain ⟨passkey, hpshown, huserName, hpvalid⟩ := hp
  obtain ⟨sshKey, hsshown, hsome, hcomment, hsvalid⟩ := hs
  have hopen : openPlaintext (keyCrates totpUri A S now) p = some p := by
    rw [openPlaintext_keyCrates, hpvalid, hsvalid]
    rfl
  refine ⟨⟨p.title, p.username, p.password, p.urls, p.notes, p.totp, passkey, sshKey⟩,
    openItem_eq_some.mpr ⟨hopen, rfl, rfl, rfl, rfl, rfl, rfl, hpshown, hsshown⟩, ?_⟩
  exact ⟨htitle, husername, hpassword, hurls, hnotes, htotp, huserName, hsome, hcomment⟩

end Lawful

end Zvault.Vault
