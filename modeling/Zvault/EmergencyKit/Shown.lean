import Zvault.EmergencyKit.Kit

/-!
# What the pages say

The strings of a page, in order. A kit is rendered unless its email or its address is rejected:
no page outgrows its buffer.
-/

namespace Zvault.EmergencyKit

/-- What a string says. -/
def Op.shown : Op → List (List UInt8)
  | text _ _ _ _ _ s => [s]
  | _ => []

def emailLabel : List UInt8 := ascii "EMAIL".toList

def secretKeyLabel : List UInt8 := ascii "SECRET KEY".toList

section Shown

theorem shown_fieldLines (y : ℤ) (chunks : List (List UInt8)) :
    (fieldLines y chunks).1.flatMap Op.shown = chunks := by
  induction chunks generalizing y with
  | nil => rfl
  | cons chunk chunks ih =>
    rw [fieldLines, List.flatMap_cons, ih]
    rfl

theorem shown_field (y : ℤ) (name value : List Char) :
    (field y name value).1.flatMap Op.shown = ascii name :: valueLines value := by
  rw [field, List.flatMap_cons, shown_fieldLines]
  rfl

theorem shown_bullets (y : ℤ) (lines : List (List Char)) :
    (bullets y lines).1.flatMap Op.shown = lines.flatMap fun s => [[0x95], ascii s] := by
  induction lines generalizing y with
  | nil => rfl
  | cons s lines ih =>
    rw [bullets, List.flatMap_append, ih, List.flatMap_cons]
    rfl

/-- What a kit says before its address. -/
def kitHead : List (List UInt8) :=
  [ascii "Zvault Emergency Kit".toList,
    ascii "Your way back into your account. Keep it safe and keep it private.".toList,
    ascii "SIGN-IN ADDRESS".toList]

def createdHere : List UInt8 :=
  ascii "Created on this device and never sent to Zvault. Letters are not case sensitive.".toList

def bulletStrings (lines : List (List Char)) : List (List UInt8) :=
  lines.flatMap fun s => [[0x95], ascii s]

/-- What it says behind its key, with the title of the file. -/
def kitTail (d : Date) : List (List UInt8) :=
  [createdHere, ascii "MASTER PASSWORD".toList,
    ascii "Write it by hand after printing. Never type it into this file.".toList,
    ascii "What to do with this kit".toList] ++ bulletStrings advice ++
    [ascii ("Created on ".toList ++ d.long), ascii "Zvault Emergency Kit".toList,
      ascii "Zvault".toList]

/-- What a recovery kit says behind its email. -/
def recoveryTail (kit : RecoveryKit) : List (List UInt8) :=
  [ascii "RECOVERY CODE".toList, ascii kit.recoveryCode.toDisplayString, createdHere,
    ascii "How to use it".toList] ++ bulletStrings recoverySteps ++
    [ascii "Keep it safe".toList] ++ bulletStrings recoveryAdvice ++
    [ascii ("Created on ".toList ++ kit.createdOn.long), ascii "Zvault Emergency Kit".toList,
      ascii "Zvault".toList]

def recoveryHead : List (List UInt8) :=
  [ascii "Zvault Recovery Kit".toList,
    ascii "For when you forget your master password or lose your Secret Key.".toList, emailLabel]

/-- A kit says its address, its email and its key, in this order. -/
theorem shown_page (kit : Kit) :
    (page kit kit.secretKey.toDisplayString).flatMap Op.shown ++
        [ascii "Zvault Emergency Kit".toList, ascii "Zvault".toList] =
      kitHead ++ (valueLines kit.signInUrl ++ emailLabel :: (valueLines kit.email ++
        secretKeyLabel :: ascii kit.secretKey.toDisplayString :: kitTail kit.createdOn)) := by
  unfold page
  dsimp only
  simp only [List.flatMap_append, shown_field, shown_bullets, List.append_assoc]
  rfl

theorem shown_recoveryPage (kit : RecoveryKit) :
    (recoveryPage kit kit.recoveryCode.toDisplayString).flatMap Op.shown ++
        [ascii "Zvault Emergency Kit".toList, ascii "Zvault".toList] =
      recoveryHead ++ (valueLines kit.email ++ recoveryTail kit) := by
  unfold recoveryPage
  dsimp only
  simp only [List.flatMap_append, shown_field, shown_bullets, List.append_assoc]
  rfl

end Shown

/-- What an operation draws is near the page, with a color and a size in their ranges. -/
def Op.InRange : Op → Prop
  | fillRect c x y w h | strokeRect c x y w h =>
    c.r ≤ 1000 ∧ c.g ≤ 1000 ∧ c.b ≤ 1000 ∧
      x.natAbs ≤ 1000 ∧ y.natAbs ≤ 1000 ∧ w.natAbs ≤ 1000 ∧ h.natAbs ≤ 1000
  | hline c y => c.r ≤ 1000 ∧ c.g ≤ 1000 ∧ c.b ≤ 1000 ∧ y.natAbs ≤ 1000
  | text _ size c x y _ =>
    c.r ≤ 1000 ∧ c.g ≤ 1000 ∧ c.b ≤ 1000 ∧ size ≤ 1000 ∧ x.natAbs ≤ 1000 ∧ y.natAbs ≤ 1000

section Lengths

theorem length_decimal {places : ℕ} {n : ℤ} (hplaces : 0 < places)
    (h : n.natAbs / 10 ^ places ≤ 1000) : (decimal places n).length ≤ places + 6 := by
  have hpos : 0 < 10 ^ places := Nat.pow_pos (by decide)
  have hwhole : (Nat.toDigits 10 (n.natAbs / 10 ^ places)).length ≤ 4 :=
    (Nat.length_toDigits_le_iff (by decide) (by decide)).mpr (by omega)
  have hrest : (padded places (n.natAbs % 10 ^ places)).length = places :=
    length_padded hplaces (Nat.mod_lt _ hpos)
  have hsign : (if n < 0 then ['-'] else []).length ≤ 1 := by split <;> decide
  rw [decimal, List.length_append, List.length_append, List.length_cons]
  omega

theorem length_points {n : ℤ} (h : n.natAbs ≤ 1000) : (points n).length ≤ 8 :=
  length_decimal (by decide) (Nat.div_le_of_le_mul (by rw [Int.natAbs_mul]; change 100 * _ ≤ _; omega))

theorem length_color {n : ℕ} (h : n ≤ 1000) : (decimal 3 (n : ℤ)).length ≤ 9 :=
  length_decimal (by decide) ((Nat.div_le_self ..).trans h)

theorem length_intercalate (words : List (List Char)) :
    ([' '].intercalate words).length ≤ (words.map List.length).sum + words.length := by
  induction words with
  | nil => exact Nat.zero_le _
  | cons word words ih =>
    cases words with
    | nil => simp
    | cons next words =>
      have hcons : [' '].intercalate (word :: next :: words) =
          word ++ ' ' :: [' '].intercalate (next :: words) := rfl
      rw [hcons, List.length_append, List.length_cons, List.map_cons, List.sum_cons,
        List.length_cons]
      omega

theorem length_opLine (words : List (List Char)) :
    (opLine words).length ≤ (words.map List.length).sum + words.length + 1 := by
  have hwords := length_intercalate words
  rw [opLine, length_ascii, List.length_append]
  change _ + 1 ≤ _
  omega

theorem length_escaped (s : List UInt8) : (escaped s).length ≤ 4 * s.length := by
  induction s with
  | nil => exact Nat.zero_le _
  | cons b s ih =>
    have hbyte : (escapeByte b).length ≤ 4 := by
      unfold escapeByte
      repeat' split
      all_goals simp
    rw [escaped_cons, List.length_append, List.length_cons]
    omega

/-- The bytes of an operation. -/
theorem length_bytes {op : Op} (h : op.InRange) :
    op.bytes.length ≤ 150 + 4 * op.shown.flatten.length := by
  cases op with
  | fillRect c x y w height =>
    obtain ⟨hr, hg, hb, hx, hy, hw, hheight⟩ := h
    have hr := length_color hr
    have hg := length_color hg
    have hb := length_color hb
    have hx := length_points hx
    have hy := length_points hy
    have hw := length_points hw
    have hheight := length_points hheight
    refine (length_opLine _).trans ?_
    simp [Rgb.words]
    omega
  | strokeRect c x y w height =>
    obtain ⟨hr, hg, hb, hx, hy, hw, hheight⟩ := h
    have hr := length_color hr
    have hg := length_color hg
    have hb := length_color hb
    have hx := length_points hx
    have hy := length_points hy
    have hw := length_points hw
    have hheight := length_points hheight
    refine (length_opLine _).trans ?_
    simp [Rgb.words]
    omega
  | hline c y =>
    obtain ⟨hr, hg, hb, hy⟩ := h
    have hr := length_color hr
    have hg := length_color hg
    have hb := length_color hb
    have hy := length_points hy
    have hleft : (points margin).length ≤ 8 := length_points (by decide)
    have hright : (points (pageW - margin)).length ≤ 8 := length_points (by decide)
    refine (length_opLine _).trans ?_
    simp [Rgb.words]
    omega
  | text font size c x y s =>
    obtain ⟨hr, hg, hb, hsize, hx, hy⟩ := h
    have hr := length_color hr
    have hg := length_color hg
    have hb := length_color hb
    have hsize : (decimal 1 (size : ℤ)).length ≤ 7 :=
      length_decimal (by decide) ((Nat.div_le_self ..).trans hsize)
    have hx := length_points hx
    have hy := length_points hy
    have hfont : font.resource.length = 3 := by cases font <;> rfl
    have hescaped := length_escaped s
    have hhead : (textHead font size c x y).length ≤ 100 := by
      rw [textHead, length_ascii]
      refine (length_intercalate _).trans ?_
      simp [Rgb.words, hfont]
      omega
    rw [Op.bytes, List.length_append, List.length_append, List.length_cons, List.length_append]
    simp [Op.shown]
    omega

theorem length_content {page : List Op} (h : ∀ op ∈ page, op.InRange) :
    (content page).length ≤ 150 * page.length + 4 * (page.flatMap Op.shown).flatten.length := by
  induction page with
  | nil => exact Nat.zero_le _
  | cons op page ih =>
    obtain ⟨hop, hpage⟩ := List.forall_mem_cons.mp h
    have hbytes := length_bytes hop
    have hih := ih hpage
    rw [content] at hih ⊢
    rw [List.flatMap_cons, List.flatMap_cons, List.length_append, List.flatten_append,
      List.length_append, List.length_cons]
    omega

end Lengths

section Buffer

theorem snd_fieldLines (y : ℤ) (chunks : List (List UInt8)) :
    (fieldLines y chunks).2 = y - 15 * chunks.length := by
  induction chunks generalizing y with
  | nil => simp [fieldLines]
  | cons chunk chunks ih =>
    rw [fieldLines, List.length_cons]
    change (fieldLines (y - 15) chunks).2 = _
    rw [ih]
    push_cast
    ring

theorem length_fieldLines (y : ℤ) (chunks : List (List UInt8)) :
    (fieldLines y chunks).1.length = chunks.length := by
  induction chunks generalizing y with
  | nil => rfl
  | cons chunk chunks ih => exact congrArg Nat.succ (ih _)

theorem inRange_fieldLines {y : ℤ} {chunks : List (List UInt8)} (hhigh : y ≤ 1000)
    (hlow : -1000 ≤ y - 15 * chunks.length) : ∀ op ∈ (fieldLines y chunks).1, op.InRange := by
  induction chunks generalizing y with
  | nil => exact fun op hop => absurd hop List.not_mem_nil
  | cons chunk chunks ih =>
    rw [List.length_cons, Nat.cast_succ] at hlow
    refine List.forall_mem_cons.mpr ⟨⟨by decide, by decide, by decide, by decide, by decide, ?_⟩, ?_⟩
    · omega
    · exact ih (by omega) (by omega)

theorem snd_field (y : ℤ) (name value : List Char) :
    (field y name value).2 = y - 36 - 15 * (valueLines value).length := by
  change (fieldLines (y - 18) (valueLines value)).2 - 18 = _
  rw [snd_fieldLines]
  ring

theorem length_field (y : ℤ) (name value : List Char) :
    (field y name value).1.length = (valueLines value).length + 1 :=
  congrArg Nat.succ (length_fieldLines ..)

theorem inRange_field {y : ℤ} {name value : List Char} (hhigh : y ≤ 1000)
    (hlow : -900 ≤ y - 15 * (valueLines value).length) :
    ∀ op ∈ (field y name value).1, op.InRange := by
  refine List.forall_mem_cons.mpr ⟨⟨by decide, by decide, by decide, by decide, by decide, ?_⟩, ?_⟩
  · omega
  · exact inRange_fieldLines (by omega) (by omega)

theorem snd_bullets (y : ℤ) (lines : List (List Char)) :
    (bullets y lines).2 = y - 18 * lines.length := by
  induction lines generalizing y with
  | nil => simp [bullets]
  | cons line lines ih =>
    rw [bullets, List.length_cons]
    change (bullets (y - 18) lines).2 = _
    rw [ih]
    push_cast
    ring

theorem length_bullets (y : ℤ) (lines : List (List Char)) :
    (bullets y lines).1.length = 2 * lines.length := by
  induction lines generalizing y with
  | nil => rfl
  | cons line lines ih =>
    rw [bullets, List.length_cons]
    change (bullet y line ++ (bullets (y - 18) lines).1).length = _
    rw [List.length_append, ih]
    change 2 + _ = _
    ring

theorem inRange_bullets {y : ℤ} {lines : List (List Char)} (hhigh : y ≤ 1000)
    (hlow : -1000 ≤ y - 18 * lines.length) : ∀ op ∈ (bullets y lines).1, op.InRange := by
  induction lines generalizing y with
  | nil => exact fun op hop => absurd hop List.not_mem_nil
  | cons line lines ih =>
    rw [List.length_cons, Nat.cast_succ] at hlow
    have hy : y.natAbs ≤ 1000 := by omega
    refine List.forall_mem_append.mpr ⟨?_, ih (by omega) (by omega)⟩
    exact List.forall_mem_cons.mpr ⟨⟨by decide, by decide, by decide, by decide, by decide, hy⟩,
      List.forall_mem_cons.mpr ⟨⟨by decide, by decide, by decide, by decide, by decide, hy⟩,
        fun op hop => absurd hop List.not_mem_nil⟩⟩

theorem inRange_header (title line : List Char) : ∀ op ∈ header title line, op.InRange := by
  simp only [header, Op.line, List.forall_mem_cons]
  refine ⟨?_, ?_, ?_, fun op hop => absurd hop List.not_mem_nil⟩
  · unfold Op.InRange
    decide
  · exact ⟨by decide, by decide, by decide, by decide, by decide, by decide⟩
  · exact ⟨by decide, by decide, by decide, by decide, by decide, by decide⟩

theorem inRange_keyPanel {y : ℤ} (hhigh : y ≤ 1000) (hlow : -900 ≤ y) (name key : List Char) :
    ∀ op ∈ keyPanel y name key, op.InRange := by
  simp only [keyPanel, label, Op.line, List.forall_mem_cons]
  refine ⟨?_, ?_, ?_, ?_, ?_, fun op hop => absurd hop List.not_mem_nil⟩
  · exact ⟨by decide, by decide, by decide, by decide, by decide, by omega⟩
  · exact ⟨by decide, by decide, by decide, by decide, by omega, by decide, by decide⟩
  · exact ⟨by decide, by decide, by decide, by decide, by omega, by decide, by decide⟩
  · exact ⟨by decide, by decide, by decide, by decide, by decide, by omega⟩
  · exact ⟨by decide, by decide, by decide, by decide, by decide, by omega⟩

theorem inRange_footer (d : Date) : (footer d).InRange :=
  ⟨by decide, by decide, by decide, by decide, by decide, by decide⟩

theorem length_valueLines {value : List Char} (h : (Otp.utf8 value).length ≤ 254) :
    (valueLines value).length ≤ 4 := by
  have hperLine : perLine = 69 := rfl
  rw [valueLines, Text.chunks, List.length_map, List.length_range, hperLine]
  omega

variable {kit : Kit}

/-- All that is drawn of a kit is in range. -/
theorem inRange_page (hurl : (valueLines kit.signInUrl).length ≤ 4)
    (hemail : (valueLines kit.email).length ≤ 4) (key : List Char) :
    ∀ op ∈ page kit key, op.InRange := by
  have hheight : pageH = 842 := rfl
  have hcount : advice.length = 5 := rfl
  unfold page
  dsimp only
  simp only [List.forall_mem_append, List.forall_mem_cons, snd_field, label, Op.line, hheight]
  refine ⟨⟨⟨⟨⟨⟨inRange_header _ _, ?_⟩, ?_⟩, ?_⟩, ?_⟩, ?_⟩, inRange_footer _,
    fun op hop => absurd hop List.not_mem_nil⟩
  · exact inRange_field (by omega) (by omega)
  · exact inRange_field (by omega) (by omega)
  · refine inRange_keyPanel ?_ ?_ _ _ <;> omega
  · refine ⟨?_, ?_, ?_, ?_, ?_, fun op hop => absurd hop List.not_mem_nil⟩
    · exact ⟨by decide, by decide, by decide, by decide, by decide, by omega⟩
    · exact ⟨by decide, by decide, by decide, by decide, by omega, by decide, by decide⟩
    · exact ⟨by decide, by decide, by decide, by decide, by decide, by omega⟩
    · exact ⟨by decide, by decide, by decide, by omega⟩
    · exact ⟨by decide, by decide, by decide, by decide, by decide, by omega⟩
  · exact inRange_bullets (by omega) (by omega)

theorem inRange_recoveryPage {kit : RecoveryKit} (hemail : (valueLines kit.email).length ≤ 4)
    (code : List Char) : ∀ op ∈ recoveryPage kit code, op.InRange := by
  have hheight : pageH = 842 := rfl
  have hsteps : recoverySteps.length = 3 := rfl
  have hadvice : recoveryAdvice.length = 5 := rfl
  unfold recoveryPage
  dsimp only
  simp only [List.forall_mem_append, List.forall_mem_cons, snd_field, snd_bullets, Op.line, hheight]
  refine ⟨⟨⟨⟨⟨⟨⟨inRange_header _ _, ?_⟩, ?_⟩, ?_⟩, ?_⟩, ?_⟩, ?_⟩, inRange_footer _,
    fun op hop => absurd hop List.not_mem_nil⟩
  · exact inRange_field (by omega) (by omega)
  · refine inRange_keyPanel ?_ ?_ _ _ <;> omega
  · refine ⟨?_, ?_, fun op hop => absurd hop List.not_mem_nil⟩
    · exact ⟨by decide, by decide, by decide, by omega⟩
    · exact ⟨by decide, by decide, by decide, by decide, by decide, by omega⟩
  · exact inRange_bullets (by omega) (by omega)
  · refine ⟨?_, fun op hop => absurd hop List.not_mem_nil⟩
    exact ⟨by decide, by decide, by decide, by decide, by decide, by omega⟩
  · exact inRange_bullets (by omega) (by omega)

theorem length_long (d : Date) : d.long.length ≤ 18 := by
  have hday : (Nat.toDigits 10 d.day).length ≤ 2 :=
    (Nat.length_toDigits_le_iff (by decide) (by decide)).mpr (by have := d.day_range; omega)
  have hyear : (Nat.toDigits 10 d.year).length ≤ 5 :=
    (Nat.length_toDigits_le_iff (by decide) (by decide)).mpr (by have := d.year_lt; omega)
  have hmonth : (months.getD (d.month - 1) []).length ≤ 9 := by
    have hall : ∀ month ∈ months, month.length ≤ 9 := by decide
    rw [List.getD_eq_getElem?_getD]
    cases hmonth : months[d.month - 1]? with
    | none => exact Nat.zero_le _
    | some month => exact hall month (List.mem_of_getElem? hmonth)
  rw [Date.long, List.length_append, List.length_cons, List.length_append, List.length_cons]
  omega

theorem length_dashed (chars : List Char) :
    (Crypto.dashed chars).length = (chars.length + 4) / 5 + chars.length := by
  have hflat : ∀ groups : List (List Char),
      (groups.flatMap ('-' :: ·)).length = groups.length + groups.flatten.length := by
    intro groups
    induction groups with
    | nil => rfl
    | cons group groups ih =>
      rw [List.flatMap_cons, List.length_append, ih, List.length_cons, List.length_cons,
        List.flatten_cons, List.length_append]
      omega
  rw [Crypto.dashed, hflat, Text.flatten_chunks (by decide), Text.chunks, List.length_map,
    List.length_range]

theorem length_flatten_valueLines (value : List Char) :
    (valueLines value).flatten.length = (Otp.utf8 value).length := by
  rw [valueLines, Text.flatten_chunks (by decide)]

theorem length_flatten_bulletStrings (lines : List (List Char)) :
    (bulletStrings lines).flatten.length = lines.length + lines.flatten.length := by
  induction lines with
  | nil => rfl
  | cons line lines ih =>
    change ([0x95] ++ (ascii line ++ (bulletStrings lines).flatten)).length = _
    rw [List.length_append, List.length_append, ih, length_ascii, List.flatten_cons,
      List.length_append, List.length_cons, List.length_cons]
    change 1 + _ = _
    omega

theorem length_createdHere : createdHere.length ≤ 100 := by
  rw [createdHere]
  repeat rw [String.toList_ofList]
  decide

/-- The page of a kit fits its buffer. -/
theorem length_page (hurl : (Otp.utf8 kit.signInUrl).length ≤ 254)
    (hemail : (Otp.utf8 kit.email).length ≤ 254) :
    (content (page kit kit.secretKey.toDisplayString)).length ≤ pageCapacity := by
  have hurlLines := length_valueLines hurl
  have hemailLines := length_valueLines hemail
  have hcontent := length_content (inRange_page hurlLines hemailLines kit.secretKey.toDisplayString)
  have hops : (page kit kit.secretKey.toDisplayString).length ≤ 40 := by
    have hadvice : advice.length = 5 := rfl
    unfold page
    dsimp only
    simp only [List.length_append, length_field, length_bullets, hadvice, header, keyPanel,
      List.length_cons, List.length_nil]
    omega
  have hshown : ((page kit kit.secretKey.toDisplayString).flatMap Op.shown).flatten.length ≤ 4000 := by
    have hall := congrArg (fun strings => strings.flatten.length) (shown_page kit)
    have hhead : kitHead.flatten.length ≤ 200 := by
      rw [kitHead]
      repeat rw [String.toList_ofList]
      decide
    have hadvice : (bulletStrings advice).flatten.length ≤ 500 := by
      have hlines : advice.length = 5 := rfl
      have hflatten : advice.flatten.length ≤ 490 := by
        rw [advice]
        repeat rw [String.toList_ofList]
        simp only [List.flatten_cons, List.length_append, List.length_cons, List.length_nil]
        decide
      rw [length_flatten_bulletStrings]
      omega
    have htail : (kitTail kit.createdOn).flatten.length ≤ 2000 := by
      have hlong := length_long kit.createdOn
      have hcreated := length_createdHere
      rw [kitTail]
      repeat rw [String.toList_ofList]
      simp only [List.flatten_append, List.flatten_cons, List.flatten_nil, List.length_append,
        length_ascii, List.length_cons, List.length_nil]
      omega
    have hkey : kit.secretKey.toDisplayString.length ≤ 39 := by
      rw [Crypto.SecretKey.toDisplayString, List.length_append, List.length_append, length_dashed,
        List.length_cons, kit.secretKey.id.length_eq, kit.secretKey.secret.length_eq]
      decide
    have hlabels : emailLabel.length = 5 ∧ secretKeyLabel.length = 10 := by decide
    simp only [List.flatten_append, List.flatten_cons, List.length_append, length_ascii,
      length_flatten_valueLines] at hall
    omega
  have hcapacity : pageCapacity = 65536 := rfl
  omega

theorem length_recoveryPage {kit : RecoveryKit} (hemail : (Otp.utf8 kit.email).length ≤ 254) :
    (content (recoveryPage kit kit.recoveryCode.toDisplayString)).length ≤ pageCapacity := by
  have hemailLines := length_valueLines hemail
  have hcontent := length_content
    (inRange_recoveryPage hemailLines kit.recoveryCode.toDisplayString)
  have hops : (recoveryPage kit kit.recoveryCode.toDisplayString).length ≤ 40 := by
    have hsteps : recoverySteps.length = 3 := rfl
    have hadvice : recoveryAdvice.length = 5 := rfl
    unfold recoveryPage
    dsimp only
    simp only [List.length_append, length_field, length_bullets, hsteps, hadvice, header, keyPanel,
      List.length_cons, List.length_nil]
    omega
  have hshown : ((recoveryPage kit kit.recoveryCode.toDisplayString).flatMap
      Op.shown).flatten.length ≤ 4000 := by
    have hall := congrArg (fun strings => strings.flatten.length) (shown_recoveryPage kit)
    have hhead : recoveryHead.flatten.length ≤ 200 := by
      rw [recoveryHead, emailLabel]
      repeat rw [String.toList_ofList]
      decide
    have hsteps : (bulletStrings recoverySteps).flatten.length ≤ 500 := by
      have hlines : recoverySteps.length = 3 := rfl
      have hflatten : recoverySteps.flatten.length ≤ 490 := by
        rw [recoverySteps]
        repeat rw [String.toList_ofList]
        simp only [List.flatten_cons, List.length_append, List.length_cons, List.length_nil]
        decide
      rw [length_flatten_bulletStrings]
      omega
    have hadvice : (bulletStrings recoveryAdvice).flatten.length ≤ 500 := by
      have hlines : recoveryAdvice.length = 5 := rfl
      have hflatten : recoveryAdvice.flatten.length ≤ 490 := by
        rw [recoveryAdvice]
        repeat rw [String.toList_ofList]
        simp only [List.flatten_cons, List.length_append, List.length_cons, List.length_nil]
        decide
      rw [length_flatten_bulletStrings]
      omega
    have hcode : kit.recoveryCode.toDisplayString.length ≤ 38 := by
      rw [Crypto.RecoveryCode.toDisplayString, List.length_append, length_dashed,
        kit.recoveryCode.symbols.length_eq]
      decide
    have htail : (recoveryTail kit).flatten.length ≤ 2000 := by
      have hlong := length_long kit.createdOn
      have hcreated := length_createdHere
      rw [recoveryTail]
      repeat rw [String.toList_ofList]
      simp only [List.flatten_append, List.flatten_cons, List.flatten_nil, List.length_append,
        length_ascii, List.length_cons, List.length_nil]
      omega
    simp only [List.flatten_append, List.flatten_cons, List.length_append, length_ascii,
      length_flatten_valueLines] at hall
    omega
  have hcapacity : pageCapacity = 65536 := rfl
  omega

theorem length_of_validateEmail {email : List Char} (h : validateEmail email = true) :
    (Otp.utf8 email).length ≤ 254 := by
  unfold validateEmail at h
  dsimp only at h
  rw [Bool.and_eq_true, Bool.and_eq_true, decide_eq_true_iff] at h
  exact h.1.1.2

theorem length_of_validateUrl {url : List Char} (h : validateUrl url = true) :
    (Otp.utf8 url).length ≤ 254 := by
  unfold validateUrl at h
  dsimp only at h
  rw [Bool.and_eq_true, Bool.and_eq_true, decide_eq_true_iff] at h
  exact h.1.1.trans (by decide)

/-- A kit is rendered exactly when its email and its address are accepted. -/
theorem Kit.render_eq_ok_iff {pdf : List UInt8} :
    kit.render = .ok pdf ↔ validateEmail kit.email = true ∧ validateUrl kit.signInUrl = true ∧
      pdf = document (content (page kit kit.secretKey.toDisplayString)) := by
  unfold Kit.render
  cases hemail : validateEmail kit.email with
  | false => exact iff_of_false (fun h => nomatch h) (fun h => nomatch h.1)
  | true =>
    cases hurl : validateUrl kit.signInUrl with
    | false => exact iff_of_false (fun h => nomatch h) (fun h => nomatch h.2.1)
    | true =>
      have hfinish : finish (page kit kit.secretKey.toDisplayString) =
          .ok (document (content (page kit kit.secretKey.toDisplayString))) :=
        if_neg (Nat.not_lt.mpr
          (length_page (length_of_validateUrl hurl) (length_of_validateEmail hemail)))
      rw [Bool.not_true, if_neg Bool.false_ne_true, if_neg Bool.false_ne_true, hfinish]
      exact ⟨fun h => ⟨rfl, rfl, (Except.ok.inj h).symm⟩, fun h => congrArg _ h.2.2.symm⟩

/-- A recovery kit is rendered exactly when its email is accepted. -/
theorem RecoveryKit.render_eq_ok_iff {kit : RecoveryKit} {pdf : List UInt8} :
    kit.render = .ok pdf ↔ validateEmail kit.email = true ∧
      pdf = document (content (recoveryPage kit kit.recoveryCode.toDisplayString)) := by
  unfold RecoveryKit.render
  cases hemail : validateEmail kit.email with
  | false => exact iff_of_false (fun h => nomatch h) (fun h => nomatch h.1)
  | true =>
    have hfinish : finish (recoveryPage kit kit.recoveryCode.toDisplayString) =
        .ok (document (content (recoveryPage kit kit.recoveryCode.toDisplayString))) :=
      if_neg (Nat.not_lt.mpr (length_recoveryPage (length_of_validateEmail hemail)))
    rw [Bool.not_true, if_neg Bool.false_ne_true, hfinish]
    exact ⟨fun h => ⟨rfl, (Except.ok.inj h).symm⟩, fun h => congrArg _ h.2.symm⟩

end Buffer

end Zvault.EmergencyKit
