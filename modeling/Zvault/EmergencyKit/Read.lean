import Zvault.EmergencyKit.Shown

/-!
# Kits are read back

`read` of `read.rs`. A kit says its key and its email unless a line of the address or of
the email is taken for something else.
-/

namespace Zvault.EmergencyKit

open Checked (Panic)
open Crypto (SecretKey RecoveryCode)

/-- `MAX_KIT_BYTES`. -/
def maxKitBytes : ℕ := 1024 * 1024

/-- `ReadKit`. -/
structure ReadKit where
  email : Option (List Char)
  secretKey : SecretKey
  deriving DecidableEq, Repr

/-- What a string that looks like a key is parsed as. -/
def keyOf (s : List UInt8) : Option SecretKey :=
  if (ascii "Z1-".toList).isPrefixOf s then (Otp.fromUtf8 s).bind SecretKey.parse else none

/-- `email`. -/
def email (strings : List (List UInt8)) : Except Panic (Option (List Char)) :=
  match strings.findIdx? (· = emailLabel) with
  | none => .ok none
  | some position => do
    let rest ← Checked.sliceFrom strings (position + 1)
    let parts := (rest.takeWhile (· ≠ secretKeyLabel)).mapM Otp.fromUtf8
    let email := parts.map List.flatten
    return email.filter fun email => (Otp.utf8 email).all isGraphic && email.contains '@'

/-- `read`. -/
def read (pdf : List UInt8) : Except Panic (Option ReadKit) :=
  if maxKitBytes < pdf.length ∨ ¬ (ascii "%PDF-".toList).isPrefixOf pdf then .ok none
  else do
    let strings ← literalStrings pdf 0
    match strings.findSome? keyOf with
    | none => return none
    | some secretKey => do
      let email ← email strings
      return some ⟨email, secretKey⟩

section Shown

theorem plain_intercalate {words : List (List Char)}
    (h : ∀ word ∈ words, ∀ c ∈ word, c.toNat < 128 ∧ c ≠ '(') :
    ∀ c ∈ [' '].intercalate words, c.toNat < 128 ∧ c ≠ '(' := by
  induction words with
  | nil => exact fun c hc => absurd hc (by simp)
  | cons word words ih =>
    obtain ⟨hword, hwords⟩ := List.forall_mem_cons.mp h
    cases words with
    | nil => simpa using hword
    | cons next words =>
      have hcons : [' '].intercalate (word :: next :: words) =
          word ++ ' ' :: [' '].intercalate (next :: words) := rfl
      rw [hcons]
      refine List.forall_mem_append.mpr ⟨hword, List.forall_mem_cons.mpr ⟨by decide, ih hwords⟩⟩

theorem plain_decimal {places : ℕ} {n : ℤ} : ∀ c ∈ decimal places n, c.toNat < 128 ∧ c ≠ '(' := by
  refine List.forall_mem_append.mpr ⟨List.forall_mem_append.mpr ⟨?_, plain_toDigits⟩,
    List.forall_mem_cons.mpr ⟨by decide, plain_padded⟩⟩
  split
  · exact Text.forall_mem_of_all (by decide)
  · exact fun c hc => absurd hc List.not_mem_nil

theorem plain_opLine {words : List (List Char)}
    (h : ∀ word ∈ words, ∀ c ∈ word, c.toNat < 128 ∧ c ≠ '(') : openParen ∉ opLine words :=
  not_mem_ascii (List.forall_mem_append.mpr ⟨plain_intercalate h, Text.forall_mem_of_all (by decide)⟩)

/-- An operation shows its string. -/
theorem shows_op (op : Op) : Shows op.bytes op.shown := by
  have hconst : ∀ {s : List Char}, (s.all fun c => decide (c.toNat < 128 ∧ c ≠ '(')) = true →
      ∀ c ∈ s, c.toNat < 128 ∧ c ≠ '(' := Text.forall_mem_of_all
  cases op with
  | fillRect c x y w h =>
    refine Shows.plain (plain_opLine ?_)
    simp only [Rgb.words, List.cons_append, List.nil_append, List.forall_mem_cons]
    exact ⟨hconst (by decide), plain_decimal, plain_decimal, plain_decimal, hconst (by decide),
      plain_decimal, plain_decimal, plain_decimal, plain_decimal, hconst (by decide),
      hconst (by decide), hconst (by decide), fun _ h => absurd h List.not_mem_nil⟩
  | strokeRect c x y w h =>
    refine Shows.plain (plain_opLine ?_)
    simp only [Rgb.words, List.cons_append, List.nil_append, List.forall_mem_cons]
    exact ⟨hconst (by decide), plain_decimal, plain_decimal, plain_decimal, hconst (by decide),
      hconst (by decide), hconst (by decide), plain_decimal, plain_decimal, plain_decimal,
      plain_decimal, hconst (by decide), hconst (by decide), hconst (by decide),
      fun _ h => absurd h List.not_mem_nil⟩
  | hline c y =>
    refine Shows.plain (plain_opLine ?_)
    simp only [Rgb.words, List.cons_append, List.nil_append, List.forall_mem_cons]
    exact ⟨hconst (by decide), plain_decimal, plain_decimal, plain_decimal, hconst (by decide),
      hconst (by decide), hconst (by decide), plain_decimal, plain_decimal, hconst (by decide),
      plain_decimal, plain_decimal, hconst (by decide), hconst (by decide), hconst (by decide),
      fun _ h => absurd h List.not_mem_nil⟩
  | text font size c x y s =>
    have hhead : Shows (textHead font size c x y) [] := by
      refine Shows.plain (not_mem_ascii (plain_intercalate ?_))
      simp only [Rgb.words, List.cons_append, List.nil_append, List.forall_mem_cons]
      have hfont : ∀ c ∈ font.resource, c.toNat < 128 ∧ c ≠ '(' := by
        cases font <;> exact hconst (by decide)
      exact ⟨hconst (by decide), hfont, plain_decimal, hconst (by decide), plain_decimal,
        plain_decimal, plain_decimal, hconst (by decide), plain_decimal, plain_decimal,
        hconst (by decide), hconst (by decide), fun _ h => absurd h List.not_mem_nil⟩
    have hend : Shows (ascii " Tj ET\n".toList) [] := Shows.plain (by decide)
    have hall := (hhead.append (Shows.string s)).append hend
    exact hall

theorem shows_content (page : List Op) : Shows (content page) (page.flatMap Op.shown) := by
  induction page with
  | nil => exact Shows.nil
  | cons op page ih =>
    rw [content, List.flatMap_cons, List.flatMap_cons]
    exact (shows_op op).append ih

end Shown

section Strings

/-- All strings of a kit. -/
theorem strings_kit {kit : Kit} {pdf : List UInt8} (h : kit.render = .ok pdf) :
    literalStrings pdf 0 = .ok (kitHead ++ (valueLines kit.signInUrl ++ emailLabel ::
      (valueLines kit.email ++ secretKeyLabel :: ascii kit.secretKey.toDisplayString ::
        kitTail kit.createdOn))) := by
  obtain ⟨-, -, rfl⟩ := Kit.render_eq_ok_iff.mp h
  rw [← shown_page]
  exact (shows_document (shows_content _)).literalStrings_eq

/-- All strings of a recovery kit. -/
theorem strings_recoveryKit {kit : RecoveryKit} {pdf : List UInt8} (h : kit.render = .ok pdf) :
    literalStrings pdf 0 = .ok (recoveryHead ++ (valueLines kit.email ++ recoveryTail kit)) := by
  obtain ⟨-, rfl⟩ := RecoveryKit.render_eq_ok_iff.mp h
  rw [← shown_recoveryPage]
  exact (shows_document (shows_content _)).literalStrings_eq

/-- A string that cannot be a key. -/
def isOther (s : List UInt8) : Bool := !(ascii "Z1-".toList).isPrefixOf s

theorem findSome?_keyOf {strings : List (List UInt8)} (h : strings.all isOther = true) :
    strings.findSome? keyOf = none := by
  refine List.findSome?_eq_none_iff.mpr fun s hs => if_neg ?_
  have hother := List.all_eq_true.mp h s hs
  rw [isOther, Bool.not_eq_true'] at hother
  exact Bool.eq_false_iff.mp hother

theorem isOther_createdHere : isOther createdHere = true := by
  rw [createdHere, String.toList_ofList]
  rfl

theorem isOther_bulletStrings {lines : List (List Char)}
    (h : lines.all (fun s => isOther (ascii s)) = true) :
    (bulletStrings lines).all isOther = true := by
  refine List.all_eq_true.mpr fun s hs => ?_
  obtain ⟨line, hline, hs⟩ := List.mem_flatMap.mp hs
  rcases List.mem_pair.mp hs with rfl | rfl
  · decide
  · exact List.all_eq_true.mp h line hline

theorem keyOf_kitHead : kitHead.findSome? keyOf = none := by
  refine findSome?_keyOf ?_
  rw [kitHead]
  repeat rw [String.toList_ofList]
  decide

theorem keyOf_recoveryHead : recoveryHead.findSome? keyOf = none := by
  refine findSome?_keyOf ?_
  rw [recoveryHead, emailLabel]
  repeat rw [String.toList_ofList]
  decide

theorem keyOf_recoveryTail (kit : RecoveryKit) : (recoveryTail kit).findSome? keyOf = none := by
  have hsteps : (bulletStrings recoverySteps).all isOther = true := by
    refine isOther_bulletStrings ?_
    rw [recoverySteps]
    repeat rw [String.toList_ofList]
    decide
  have hadvice : (bulletStrings recoveryAdvice).all isOther = true := by
    refine isOther_bulletStrings ?_
    rw [recoveryAdvice]
    repeat rw [String.toList_ofList]
    decide
  have hcode : isOther (ascii kit.recoveryCode.toDisplayString) = true := by
    rw [RecoveryCode.toDisplayString, RecoveryCode.version, String.toList_ofList]
    rfl
  refine findSome?_keyOf ?_
  rw [recoveryTail]
  simp only [List.all_append, List.all_cons, hsteps, hadvice, hcode, isOther_createdHere]
  repeat rw [String.toList_ofList]
  rfl

theorem utf8_eq_ascii {cs : List Char} (h : ∀ c ∈ cs, c.toNat < 128) : Otp.utf8 cs = ascii cs := by
  induction cs with
  | nil => rfl
  | cons c cs ih =>
    obtain ⟨hc, hcs⟩ := List.forall_mem_cons.mp h
    have hsize : c.utf8Size = 1 := Char.utf8Size_eq_one_iff.mpr (Nat.le_of_lt_succ hc)
    rw [← List.singleton_append, Otp.utf8_append, ih hcs, Otp.utf8, List.flatMap_singleton,
      String.utf8EncodeChar_eq_singleton hsize]
    rfl

/-- The key itself is read from its line. -/
theorem keyOf_toDisplayString (key : SecretKey) : keyOf (ascii key.toDisplayString) = some key := by
  have hsymbol : ∀ c ∈ Crypto.crockford, c.toNat < 128 :=
    Text.forall_mem_of_all (by decide)
  have hascii : ∀ c ∈ key.toDisplayString, c.toNat < 128 := by
    refine List.forall_mem_append.mpr ⟨List.forall_mem_append.mpr ⟨Text.forall_mem_of_all (by decide),
      List.forall_mem_cons.mpr ⟨by decide, fun c hc => hsymbol c (key.id.isSymbol c hc)⟩⟩, ?_⟩
    intro c hc
    obtain ⟨group, hgroup, hc⟩ := List.mem_flatMap.mp hc
    rcases List.mem_cons.mp hc with rfl | hc
    · decide
    · exact hsymbol c (key.secret.isSymbol c (Text.subset_of_mem_chunks (by decide) hgroup hc))
  have hfirst : (ascii "Z1-".toList).isPrefixOf (ascii key.toDisplayString) = true := rfl
  rw [keyOf, if_pos hfirst, ← utf8_eq_ascii hascii, Otp.fromUtf8_utf8, Option.bind_some]
  exact SecretKey.parse_eq_some_iff.mpr key.normalized_toDisplayString

end Strings

section Reading

/-- The characters of bytes that are ASCII. -/
def latin (bytes : List UInt8) : List Char := bytes.map Char.ofUInt8

theorem isGraphic_iff {b : UInt8} : isGraphic b = true ↔ 0x21 ≤ b.toNat ∧ b.toNat ≤ 0x7e := by
  rw [isGraphic, Bool.and_eq_true, decide_eq_true_iff, decide_eq_true_iff]
  exact Iff.rfl

theorem utf8_latin {bytes : List UInt8} (h : ∀ b ∈ bytes, isGraphic b = true) :
    Otp.utf8 (latin bytes) = bytes := by
  have hascii : ∀ c ∈ latin bytes, c.toNat < 128 := by
    intro c hc
    obtain ⟨b, hb, rfl⟩ := List.mem_map.mp hc
    have hgraphic := isGraphic_iff.mp (h b hb)
    change b.toNat < 128
    omega
  have hbyte : ∀ b : UInt8, (Char.ofUInt8 b).toUInt8 = b := by
    intro b
    refine UInt8.toNat_inj.mp ?_
    change b.toNat % 256 = b.toNat
    exact Nat.mod_eq_of_lt b.toNat_lt
  rw [utf8_eq_ascii hascii, ascii, latin, List.map_map]
  exact List.map_id'' hbyte bytes

theorem fromUtf8_graphic {bytes : List UInt8} (h : ∀ b ∈ bytes, isGraphic b = true) :
    Otp.fromUtf8 bytes = some (latin bytes) := by
  have hread := Otp.fromUtf8_utf8 (latin bytes)
  rwa [utf8_latin h] at hread

theorem latin_utf8 {s : List Char} (h : ∀ b ∈ Otp.utf8 s, isGraphic b = true) :
    latin (Otp.utf8 s) = s :=
  Option.some_inj.mp ((fromUtf8_graphic h).symm.trans (Otp.fromUtf8_utf8 s))

theorem graphic_valueLines {value : List Char} (h : ∀ b ∈ Otp.utf8 value, isGraphic b = true) :
    ∀ line ∈ valueLines value, ∀ b ∈ line, isGraphic b = true := fun _ hline b hb =>
  h b (Text.subset_of_mem_chunks (by decide) hline hb)

theorem mapM_fromUtf8 {lines : List (List UInt8)}
    (h : ∀ line ∈ lines, ∀ b ∈ line, isGraphic b = true) :
    lines.mapM Otp.fromUtf8 = some (lines.map latin) := by
  induction lines with
  | nil => rfl
  | cons line lines ih =>
    obtain ⟨hline, hlines⟩ := List.forall_mem_cons.mp h
    rw [List.mapM_cons, fromUtf8_graphic hline, ih hlines]
    rfl

/-- What is read between the first email label and the label of the key. -/
theorem email_eq {before lines after : List (List UInt8)} (hbefore : emailLabel ∉ before)
    (hlines : ∀ line ∈ lines, ∀ b ∈ line, isGraphic b = true) :
    email (before ++ emailLabel :: (lines ++ secretKeyLabel :: after)) =
      .ok ((some (latin lines.flatten)).filter fun email => email.contains '@') := by
  have hposition : (before ++ emailLabel :: (lines ++ secretKeyLabel :: after)).findIdx?
      (· = emailLabel) = some before.length := by
    have hnone : before.findIdx? (· = emailLabel) = none := by
      refine List.findIdx?_eq_none_iff.mpr fun s hs => decide_eq_false fun heq => ?_
      exact hbefore (heq ▸ hs)
    rw [List.findIdx?_append, hnone, Option.none_or, List.findIdx?_cons, if_pos (by simp)]
    exact congrArg some (Nat.zero_add _)
  have hdrop : (before ++ emailLabel :: (lines ++ secretKeyLabel :: after)).drop
      (before.length + 1) = lines ++ secretKeyLabel :: after := by
    rw [← List.drop_drop, List.drop_left]
    rfl
  have hother : ∀ line ∈ lines, decide (line ≠ secretKeyLabel) = true := by
    intro line hline
    refine decide_eq_true fun heq => ?_
    have hspace : (0x20 : UInt8) ∈ secretKeyLabel := by decide
    exact absurd (hlines line hline _ (heq ▸ hspace)) (by decide)
  have htake : (lines ++ secretKeyLabel :: after).takeWhile (· ≠ secretKeyLabel) = lines := by
    rw [List.takeWhile_append_of_pos hother, List.takeWhile_cons_of_neg (by simp),
      List.append_nil]
  have hgraphic : ∀ b ∈ lines.flatten, isGraphic b = true := by
    intro b hb
    obtain ⟨line, hline, hb⟩ := List.mem_flatten.mp hb
    exact hlines line hline b hb
  have hflatten : (lines.map latin).flatten = latin lines.flatten := List.map_flatten.symm
  unfold email
  rw [hposition]
  dsimp only
  rw [Checked.sliceFrom_eq_ok (by simp), hdrop, Fallible.ok_bind, htake, mapM_fromUtf8 hlines,
    Option.map_some, hflatten]
  simp only [Option.filter_some, utf8_latin hgraphic, List.all_eq_true.mpr hgraphic, Bool.true_and]
  rfl

/-- What is read of a file that was written. -/
theorem read_document {content : List UInt8} (h : content.length ≤ 2 ^ 16)
    {strings : List (List UInt8)} (hstrings : literalStrings (document content) 0 = .ok strings) :
    read (document content) =
      match strings.findSome? keyOf with
      | none => .ok none
      | some secretKey => (email strings).map fun email => some ⟨email, secretKey⟩ := by
  have hlength : ¬ maxKitBytes < (document content).length := Nat.not_lt.mpr (length_document h)
  have hheader : (ascii "%PDF-".toList).isPrefixOf (document content) = true := by
    refine List.isPrefixOf_iff_prefix.mpr ?_
    have hstart : ascii "%PDF-".toList <+: Document.start.out := by decide
    have hout : Document.start.out <+: (written content).out := by
      rw [out_written]
      exact List.prefix_append _ _
    have hfile : (written content).out <+: document content := by
      change _ <+: (written content).out ++ xrefHead ++ _ ++ _
      rw [List.append_assoc, List.append_assoc]
      exact List.prefix_append _ _
    exact (hstart.trans hout).trans hfile
  rw [read, if_neg (not_or.mpr ⟨hlength, not_not.mpr hheader⟩), hstrings, Fallible.ok_bind]
  split
  · rfl
  · cases email strings <;> rfl

theorem exists_read (pdf : List UInt8) : ∃ kit, read pdf = .ok kit := by
  unfold read
  split
  · exact ⟨none, rfl⟩
  · obtain ⟨strings, hstrings⟩ := exists_literalStrings pdf 0
    rw [hstrings, Fallible.ok_bind]
    split
    · exact ⟨none, rfl⟩
    · rename_i secretKey _
      have hemail : ∃ e, email strings = .ok e := by
        unfold email
        split
        · exact ⟨none, rfl⟩
        · rename_i position hposition
          have hlt := (List.findIdx?_eq_some_iff_getElem.mp hposition).1
          rw [Checked.sliceFrom_eq_ok (Nat.succ_le_of_lt hlt)]
          exact ⟨_, rfl⟩
      obtain ⟨e, he⟩ := hemail
      rw [he]
      exact ⟨_, rfl⟩

end Reading

section Kits

/-- An email is printable and has an at sign. -/
theorem of_validateEmail {email : List Char} (h : validateEmail email = true) :
    (∀ b ∈ Otp.utf8 email, isGraphic b = true) ∧ '@' ∈ email := by
  unfold validateEmail at h
  dsimp only at h
  rw [Bool.and_eq_true, Bool.and_eq_true] at h
  obtain ⟨⟨-, hprintable⟩, hshaped⟩ := h
  refine ⟨List.all_eq_true.mp hprintable, ?_⟩
  obtain ⟨⟨name, domain⟩, hcut, -⟩ := (Option.any_eq_true _ _).mp hshaped
  rw [(Text.splitOnce_eq_some_iff.mp hcut).2]
  exact List.mem_append_right _ List.mem_cons_self

theorem of_validateUrl {url : List Char} (h : validateUrl url = true) :
    ∀ b ∈ Otp.utf8 url, isGraphic b = true := by
  unfold validateUrl at h
  dsimp only at h
  rw [Bool.and_eq_true] at h
  exact List.all_eq_true.mp h.2

/-- The key that is read is the first of the lines of the address and the email that is one, and
else the key of the kit. -/
theorem keyOf_strings (url email : List (List UInt8)) (key : SecretKey) (d : Date) :
    (kitHead ++ (url ++ emailLabel :: (email ++ secretKeyLabel ::
      ascii key.toDisplayString :: kitTail d))).findSome? keyOf =
      some (((url ++ email).findSome? keyOf).getD key) := by
  have hlabel : keyOf emailLabel = none := if_neg (by decide)
  have hkeyLabel : keyOf secretKeyLabel = none := if_neg (by decide)
  rw [List.findSome?_append, keyOf_kitHead, Option.none_or, List.findSome?_append,
    List.findSome?_cons, hlabel, List.findSome?_append, List.findSome?_cons, hkeyLabel,
    List.findSome?_cons, keyOf_toDisplayString, ← Option.or_assoc, ← List.findSome?_append]
  cases (url ++ email).findSome? keyOf <;> rfl

/-- The email that is read is that of the kit when no line of the address is the label. -/
theorem email_strings {kit : Kit} (hemail : validateEmail kit.email = true)
    (hurl : validateUrl kit.signInUrl = true) :
    ∃ read, email (kitHead ++ (valueLines kit.signInUrl ++ emailLabel ::
        (valueLines kit.email ++ secretKeyLabel :: ascii kit.secretKey.toDisplayString ::
          kitTail kit.createdOn))) = .ok read ∧
      (read = some kit.email ↔ emailLabel ∉ valueLines kit.signInUrl) := by
  obtain ⟨hprintable, hat⟩ := of_validateEmail hemail
  have hlines := graphic_valueLines hprintable
  have hvalue : latin (valueLines kit.email).flatten = kit.email := by
    rw [valueLines, Text.flatten_chunks (by decide)]
    exact latin_utf8 hprintable
  have hhead : emailLabel ∉ kitHead := by
    rw [kitHead, emailLabel]
    repeat rw [String.toList_ofList]
    decide
  by_cases hlabel : emailLabel ∈ valueLines kit.signInUrl
  · -- the first label is a line of the address, and the second is taken for a part of the email
    obtain ⟨before, after, hcut, hbefore⟩ := List.eq_append_cons_of_mem hlabel
    have hgraphic := graphic_valueLines (of_validateUrl hurl)
    rw [hcut] at hgraphic
    have hall : ∀ line ∈ after ++ emailLabel :: valueLines kit.email,
        ∀ b ∈ line, isGraphic b = true :=
      List.forall_mem_append.mpr
        ⟨fun line hline => hgraphic line (List.mem_append_right _ (List.mem_cons_of_mem _ hline)),
          List.forall_mem_cons.mpr ⟨List.all_eq_true.mp (by decide), hlines⟩⟩
    have hnot : emailLabel ∉ kitHead ++ before := mt List.mem_append.mp (not_or.mpr ⟨hhead, hbefore⟩)
    have hread := @email_eq _ _ (ascii kit.secretKey.toDisplayString :: kitTail kit.createdOn) hnot hall
    have hstrings : kitHead ++ (valueLines kit.signInUrl ++ emailLabel ::
        (valueLines kit.email ++ secretKeyLabel :: ascii kit.secretKey.toDisplayString ::
          kitTail kit.createdOn)) =
        kitHead ++ before ++ emailLabel :: (after ++ emailLabel :: valueLines kit.email ++
          secretKeyLabel :: ascii kit.secretKey.toDisplayString :: kitTail kit.createdOn) := by
      simp only [hcut, List.append_assoc, List.cons_append]
    refine ⟨_, hstrings ▸ hread, iff_of_false ?_ (not_not.mpr hlabel)⟩
    intro heq
    rw [Option.filter_eq_some_iff, Option.some_inj] at heq
    have hlength := congrArg List.length heq.1
    rw [List.flatten_append, List.flatten_cons, latin, List.map_append, List.map_append,
      List.length_append, List.length_append] at hlength
    change _ + (_ + (latin (valueLines kit.email).flatten).length) = _ at hlength
    rw [hvalue, List.length_map, List.length_map] at hlength
    have hfive : emailLabel.length = 5 := rfl
    omega
  · refine ⟨_, ?_, iff_of_true rfl hlabel⟩
    have hnot : emailLabel ∉ kitHead ++ valueLines kit.signInUrl :=
      mt List.mem_append.mp (not_or.mpr ⟨hhead, hlabel⟩)
    have hread :=
      @email_eq _ _ (ascii kit.secretKey.toDisplayString :: kitTail kit.createdOn) hnot hlines
    rw [List.append_assoc, hvalue, Option.filter_some, if_pos (by simpa using hat)] at hread
    exact hread

/-- A kit is read back as it is when no line of its address or email is taken for something
else. -/
theorem read_kit_iff {kit : Kit} {pdf : List UInt8} (h : kit.render = .ok pdf) :
    read pdf = .ok (some ⟨some kit.email, kit.secretKey⟩) ↔
      (∀ key ∈ (valueLines kit.signInUrl ++ valueLines kit.email).findSome? keyOf,
        key = kit.secretKey) ∧ emailLabel ∉ valueLines kit.signInUrl := by
  have hstrings := strings_kit h
  obtain ⟨hemail, hurl, rfl⟩ := Kit.render_eq_ok_iff.mp h
  obtain ⟨e, he, heq⟩ := email_strings hemail hurl
  have hread := read_document
    (length_page (length_of_validateUrl hurl) (length_of_validateEmail hemail)) hstrings
  rw [keyOf_strings, he] at hread
  rw [hread, ← heq]
  change Except.ok (some (ReadKit.mk e _)) = _ ↔ _
  rw [Except.ok.injEq, Option.some_inj, ReadKit.mk.injEq, and_comm]
  refine and_congr_left fun _ => ?_
  cases (valueLines kit.signInUrl ++ valueLines kit.email).findSome? keyOf with
  | none => exact iff_of_true rfl fun key hkey => absurd hkey (Option.not_mem_none key)
  | some key => exact ⟨fun h _ hkey => Option.some_inj.mp hkey ▸ h, fun h => h key rfl⟩

/-- Nothing is read of a recovery kit when no line of its email is a key. -/
theorem read_recoveryKit_iff {kit : RecoveryKit} {pdf : List UInt8} (h : kit.render = .ok pdf) :
    read pdf = .ok none ↔ ∀ line ∈ valueLines kit.email, keyOf line = none := by
  have hstrings := strings_recoveryKit h
  obtain ⟨hemail, rfl⟩ := RecoveryKit.render_eq_ok_iff.mp h
  have hread := read_document (length_recoveryPage (length_of_validateEmail hemail)) hstrings
  have hkey : (recoveryHead ++ (valueLines kit.email ++ recoveryTail kit)).findSome? keyOf =
      (valueLines kit.email).findSome? keyOf := by
    rw [List.findSome?_append, keyOf_recoveryHead, Option.none_or, List.findSome?_append,
      keyOf_recoveryTail, Option.or_none]
  rw [hkey] at hread
  rw [hread, ← List.findSome?_eq_none_iff]
  cases hfound : (valueLines kit.email).findSome? keyOf with
  | none => exact iff_of_true rfl rfl
  | some key =>
    refine iff_of_false ?_ (fun h => nomatch h)
    dsimp only
    cases email (recoveryHead ++ (valueLines kit.email ++ recoveryTail kit)) with
    | error e => exact fun h => nomatch h
    | ok e => exact fun h => nomatch h

/-- Kits and recovery kits that were rendered, what is read of them and where their objects
stand. -/
theorem kits_read (kit : Kit) (recoveryKit : RecoveryKit) (pdf : List UInt8) :
    (kit.render = .ok pdf →
      (read pdf = .ok (some ⟨some kit.email, kit.secretKey⟩) ↔
        (∀ key ∈ (valueLines kit.signInUrl ++ valueLines kit.email).findSome? keyOf,
          key = kit.secretKey) ∧ emailLabel ∉ valueLines kit.signInUrl)) ∧
    (recoveryKit.render = .ok pdf →
      (read pdf = .ok none ↔ ∀ line ∈ valueLines recoveryKit.email, keyOf line = none)) ∧
    (kit.render = .ok pdf → HasXref pdf) ∧ (recoveryKit.render = .ok pdf → HasXref pdf) ∧
    ∃ kit, read pdf = .ok kit := by
  refine ⟨read_kit_iff, read_recoveryKit_iff, fun h => ?_, fun h => ?_, exists_read pdf⟩
  · obtain ⟨hemail, hurl, rfl⟩ := Kit.render_eq_ok_iff.mp h
    exact xref_document (length_page (length_of_validateUrl hurl) (length_of_validateEmail hemail))
  · obtain ⟨hemail, rfl⟩ := RecoveryKit.render_eq_ok_iff.mp h
    exact xref_document (length_recoveryPage (length_of_validateEmail hemail))

def exampleKit : Kit where
  email := "ada@example.com".toList
  signInUrl := "https://my.zvault.app".toList
  secretKey :=
    ⟨⟨"ABC123".toList, by decide, Text.forall_mem_of_all (by decide)⟩,
      ⟨"DEFGHJKMNPQRSTVWXYZ012345".toList, by decide, Text.forall_mem_of_all (by decide)⟩⟩
  createdOn := ⟨2026, 9, 24, by decide, by decide, by decide⟩

def exampleRecoveryKit : RecoveryKit where
  email := "ada@example.com".toList
  recoveryCode := RecoveryCode.generate fun _ => 7
  createdOn := ⟨2026, 9, 24, by decide, by decide, by decide⟩

theorem kits_read_example :
    (∃ pdf, exampleKit.render = .ok pdf ∧ HasXref pdf ∧
      read pdf = .ok (some ⟨some "ada@example.com".toList, exampleKit.secretKey⟩)) ∧
    ∃ pdf, exampleRecoveryKit.render = .ok pdf ∧ HasXref pdf ∧ read pdf = .ok none := by
  have hkit := Kit.render_eq_ok_iff.mpr
    ⟨show validateEmail exampleKit.email = true by decide,
      show validateUrl exampleKit.signInUrl = true by decide, rfl⟩
  have hrecovery := RecoveryKit.render_eq_ok_iff.mpr
    ⟨show validateEmail exampleRecoveryKit.email = true by decide, rfl⟩
  have hlines : (valueLines exampleKit.signInUrl ++ valueLines exampleKit.email).findSome? keyOf =
      none := findSome?_keyOf (by decide)
  obtain ⟨hread, -, hxref, -, -⟩ := kits_read exampleKit exampleRecoveryKit _
  obtain ⟨-, hreadRecovery, -, hxrefRecovery, -⟩ := kits_read exampleKit exampleRecoveryKit _
  refine ⟨⟨_, hkit, hxref hkit, (hread hkit).mpr ⟨?_, by decide⟩⟩,
    _, hrecovery, hxrefRecovery hrecovery, (hreadRecovery hrecovery).mpr ?_⟩
  · rw [hlines]
    exact fun key hkey => absurd hkey (Option.not_mem_none key)
  · exact List.findSome?_eq_none_iff.mp (findSome?_keyOf (by decide))

def zeroKey : SecretKey := SecretKey.generate (fun _ => 0) fun _ => 0

/-- An email with a second line that is a Secret Key. -/
def zeroEmail : List Char := "ada@".toList ++ List.replicate 65 'x' ++ zeroKey.toDisplayString

theorem keyOf_zeroEmail : (valueLines zeroEmail).findSome? keyOf = some zeroKey := by
  have hlines : valueLines zeroEmail =
      [ascii ("ada@".toList ++ List.replicate 65 'x'), ascii zeroKey.toDisplayString] := by
    decide +kernel
  have hfirst : keyOf (ascii ("ada@".toList ++ List.replicate 65 'x')) = none := if_neg (by decide)
  rw [hlines, List.findSome?_cons, hfirst, List.findSome?_cons, keyOf_toDisplayString]

theorem validateEmail_zeroEmail : validateEmail zeroEmail = true := by decide +kernel

/-- The key in the email is read for the key of the kit, and is read of a recovery kit. -/
theorem read_zeroEmail :
    (∃ pdf, Kit.render { exampleKit with email := zeroEmail } = .ok pdf ∧
      read pdf ≠ .ok (some ⟨some zeroEmail, exampleKit.secretKey⟩)) ∧
    ∃ pdf, RecoveryKit.render { exampleRecoveryKit with email := zeroEmail } = .ok pdf ∧
      read pdf ≠ .ok none := by
  let kit : Kit := { exampleKit with email := zeroEmail }
  let recoveryKit : RecoveryKit := { exampleRecoveryKit with email := zeroEmail }
  have hkit : kit.render = .ok _ := Kit.render_eq_ok_iff.mpr
    ⟨validateEmail_zeroEmail, show validateUrl exampleKit.signInUrl = true by decide, rfl⟩
  have hrecovery : recoveryKit.render = .ok _ := RecoveryKit.render_eq_ok_iff.mpr
    ⟨validateEmail_zeroEmail, rfl⟩
  refine ⟨⟨_, hkit, fun h => ?_⟩, _, hrecovery, fun h => ?_⟩
  · have hkey := ((read_kit_iff hkit).mp h).1 zeroKey
    have hurl : (valueLines exampleKit.signInUrl).findSome? keyOf = none := findSome?_keyOf (by decide)
    rw [List.findSome?_append, hurl, Option.none_or, keyOf_zeroEmail] at hkey
    exact absurd (hkey rfl) (by decide)
  · have hnone := List.findSome?_eq_none_iff.mpr ((read_recoveryKit_iff hrecovery).mp h)
    rw [keyOf_zeroEmail] at hnone
    cases hnone

end Kits

end Zvault.EmergencyKit
