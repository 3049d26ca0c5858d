import Zvault.Crypto.TypedKeys
import Zvault.EmergencyKit.Pdf
import Zvault.Text.Chunks
import Zvault.Text.Separated

/-!
# The pages of the kits

`Kit::render` and `RecoveryKit::render`. Coordinates are whole points, sizes tenths of a
point and colours thousandths. A page is what is drawn on it, in order.
-/

namespace Zvault.EmergencyKit

open Crypto (SecretKey RecoveryCode)

/-- A calendar date. -/
structure Date where
  year : ℕ
  month : ℕ
  day : ℕ
  year_lt : year < 2 ^ 16
  month_range : 1 ≤ month ∧ month ≤ 12
  day_range : 1 ≤ day ∧ day ≤ 31

def months : List (List Char) :=
  ["January".toList, "February".toList, "March".toList, "April".toList, "May".toList,
    "June".toList, "July".toList, "August".toList, "September".toList, "October".toList,
    "November".toList, "December".toList]

/-- `write_long`. -/
def Date.long (d : Date) : List Char :=
  Nat.toDigits 10 d.day ++ ' ' :: (months.getD (d.month - 1) [] ++ ' ' :: Nat.toDigits 10 d.year)

/-- `Error`, and the assertion that a page fits its buffer. -/
inductive Error where
  | invalidEmail
  | invalidSignInUrl
  | outgrewBuffer
  deriving DecidableEq, Repr

/-- `is_ascii_graphic`. -/
def isGraphic (b : UInt8) : Bool := 0x21 ≤ b && b ≤ 0x7e

def maxEmailLen : ℕ := 254

def maxUrlLen : ℕ := 200

/-- `validate_email`. -/
def validateEmail (email : List Char) : Bool :=
  let bytes := Otp.utf8 email
  let printable := bytes.all isGraphic
  let shaped := (Text.splitOnce '@' email).any fun (name, domain) => name ≠ [] && domain ≠ []
  decide (3 ≤ bytes.length ∧ bytes.length ≤ maxEmailLen) && printable && shaped

/-- `validate_url`. -/
def validateUrl (url : List Char) : Bool :=
  let https := "https://".toList
  let host := if https.isPrefixOf url then url.drop https.length else []
  decide ((Otp.utf8 url).length ≤ maxUrlLen) && host ≠ [] && (Otp.utf8 url).all isGraphic

structure Rgb where
  r : ℕ
  g : ℕ
  b : ℕ

inductive Font where
  | regular | bold | mono | monoBold

def Font.resource : Font → List Char
  | regular => "/F1".toList
  | bold => "/F2".toList
  | mono => "/F3".toList
  | monoBold => "/F4".toList

/-- What is drawn. -/
inductive Op where
  | fillRect (c : Rgb) (x y w h : ℤ)
  | strokeRect (c : Rgb) (x y w h : ℤ)
  | hline (c : Rgb) (y : ℤ)
  | text (font : Font) (size : ℕ) (c : Rgb) (x y : ℤ) (s : List UInt8)

def pageW : ℤ := 595
def pageH : ℤ := 842
def margin : ℤ := 48
def contentW : ℤ := pageW - 2 * margin

/-- A number with a fixed count of decimals, in units of the last one. -/
def decimal (places : ℕ) (n : ℤ) : List Char :=
  (if n < 0 then ['-'] else []) ++ Nat.toDigits 10 (n.natAbs / 10 ^ places) ++
    '.' :: padded places (n.natAbs % 10 ^ places)

/-- `{:.2}` of whole points. -/
def points (n : ℤ) : List Char := decimal 2 (100 * n)

/-- `{:.3} {:.3} {:.3}`. -/
def Rgb.words (c : Rgb) : List (List Char) := [decimal 3 c.r, decimal 3 c.g, decimal 3 c.b]

/-- A line of a content stream. -/
def opLine (words : List (List Char)) : List UInt8 := ascii ([' '].intercalate words ++ ['\n'])

/-- What stands before a string. -/
def textHead (font : Font) (size : ℕ) (c : Rgb) (x y : ℤ) : List UInt8 :=
  ascii ([' '].intercalate (["BT".toList, font.resource, decimal 1 size, "Tf".toList] ++ c.words ++
    ["rg".toList, points x, points y, "Td".toList, []]))

def Op.bytes : Op → List UInt8
  | fillRect c x y w h => opLine (["q".toList] ++ c.words ++
      ["rg".toList, points x, points y, points w, points h, "re".toList, "f".toList, "Q".toList])
  | strokeRect c x y w h => opLine (["q".toList] ++ c.words ++ ["RG".toList, "0.75".toList,
      "w".toList, points x, points y, points w, points h, "re".toList, "S".toList, "Q".toList])
  | hline c y => opLine (["q".toList] ++ c.words ++ ["RG".toList, "0.75".toList, "w".toList,
      points margin, points y, "m".toList, points (pageW - margin), points y, "l".toList,
      "S".toList, "Q".toList])
  | text font size c x y s => textHead font size c x y ++ (openParen :: (escaped s ++ [closeParen])) ++
      ascii " Tj ET\n".toList

/-- The content stream of a page. -/
def content (page : List Op) : List UInt8 := page.flatMap Op.bytes

def ink : Rgb := ⟨100, 120, 160⟩
def muted : Rgb := ⟨400, 430, 480⟩
def brand : Rgb := ⟨90, 130, 240⟩
def panel : Rgb := ⟨950, 960, 980⟩
def rule : Rgb := ⟨800, 820, 860⟩
def white : Rgb := ⟨1000, 1000, 1000⟩
def subtitle : Rgb := ⟨780, 820, 900⟩

/-- `text`, of text that is printable ASCII. -/
def Op.line (font : Font) (size : ℕ) (c : Rgb) (x y : ℤ) (s : List Char) : Op :=
  .text font size c x y (ascii s)

def label (y : ℤ) (s : List Char) : Op := .line .bold 85 muted margin y s

/-- Characters of a value in a line: what fits in the width, 0.6 of 12 points each. -/
def perLine : ℕ := (contentW.toNat * 10) / (12 * 6)

/-- The lines of a value. -/
def valueLines (value : List Char) : List (List UInt8) := Text.chunks perLine (Otp.utf8 value)

/-- The loop of `field`. -/
def fieldLines (y : ℤ) : List (List UInt8) → List Op × ℤ
  | [] => ([], y)
  | chunk :: chunks =>
    let (ops, y') := fieldLines (y - 15) chunks
    (.text .mono 120 ink margin y chunk :: ops, y')

/-- `field`, and the `y` of the next block. -/
def field (y : ℤ) (name value : List Char) : List Op × ℤ :=
  let (ops, y') := fieldLines (y - 18) (valueLines value)
  (label y name :: ops, y' - 18)

/-- `bullet`. -/
def bullet (y : ℤ) (s : List Char) : List Op :=
  [.text .regular 100 ink margin y [0x95], .line .regular 100 ink (margin + 12) y s]

/-- Bullets one below the other, and the `y` behind them. -/
def bullets (y : ℤ) : List (List Char) → List Op × ℤ
  | [] => ([], y)
  | s :: rest =>
    let (ops, y') := bullets (y - 18) rest
    (bullet y s ++ ops, y')

/-- The band at the top. -/
def header (title line : List Char) : List Op :=
  [.fillRect brand 0 (pageH - 84) pageW 84, .line .bold 240 white margin (pageH - 46) title,
    .line .regular 100 subtitle margin (pageH - 66) line]

/-- The panel with the key, and the line below it. -/
def keyPanel (y : ℤ) (name key : List Char) : List Op :=
  let panelTop := y - 10
  [label y name, .fillRect panel margin (panelTop - 44) contentW 44,
    .strokeRect rule margin (panelTop - 44) contentW 44,
    .line .monoBold 160 ink (margin + 14) (panelTop - 28) key,
    .line .regular 90 muted margin (panelTop - 44 - 16)
      "Created on this device and never sent to Zvault. Letters are not case sensitive.".toList]

def footer (d : Date) : Op := .line .regular 80 muted margin 36 ("Created on ".toList ++ d.long)

def advice : List (List Char) :=
  ["Print this page, or keep the file somewhere only you can reach, like an encrypted drive.".toList,
    "Store the printed copy with your important papers, such as your passport or will.".toList,
    "You need your Secret Key and master password to sign in on a new device.".toList,
    "Zvault can't see or reset either of them. If you lose both, your data can't be recovered.".toList,
    "Anyone with this kit and your master password can open your vault, so keep it private.".toList]

structure Kit where
  email : List Char
  signInUrl : List Char
  secretKey : SecretKey
  createdOn : Date

/-- `page`. -/
def page (kit : Kit) (key : List Char) : List Op :=
  let (addressOps, y₁) := field (pageH - 124) "SIGN-IN ADDRESS".toList kit.signInUrl
  let (emailOps, y₂) := field y₁ "EMAIL".toList kit.email
  let y₃ := y₂ - 10 - 44 - 16 - 32
  let boxTop := y₃ - 10
  let y₄ := boxTop - 40 - 16
  let y₅ := y₄ - 30
  let y₆ := y₅ - 28
  header "Zvault Emergency Kit".toList
      "Your way back into your account. Keep it safe and keep it private.".toList ++
    addressOps ++ emailOps ++ keyPanel y₂ "SECRET KEY".toList key ++
    [label y₃ "MASTER PASSWORD".toList, .strokeRect rule margin (boxTop - 40) contentW 40,
      .line .regular 90 muted margin y₄
        "Write it by hand after printing. Never type it into this file.".toList,
      .hline rule y₅, .line .bold 130 ink margin y₆ "What to do with this kit".toList] ++
    (bullets (y₆ - 22) advice).1 ++ [footer kit.createdOn]

def recoverySteps : List (List Char) :=
  ["On the Zvault sign-in screen, choose Forgot master password?".toList,
    "Enter your email, the code Zvault emails you, and this recovery code.".toList,
    "Choose a new master password and save your new Emergency Kit.".toList]

def recoveryAdvice : List (List Char) :=
  ["Keep this page apart from your Emergency Kit, for example in a different place at home.".toList,
    "With this code and access to your email, you can set a new master password.".toList,
    "Recovering gives you a new Secret Key and a new recovery code. This one then stops working.".toList,
    "Zvault never sees this code, so it can't send you another copy.".toList,
    "If someone else sees it, replace it in Settings > Security.".toList]

structure RecoveryKit where
  email : List Char
  recoveryCode : RecoveryCode
  createdOn : Date

/-- `recovery_page`. -/
def recoveryPage (kit : RecoveryKit) (code : List Char) : List Op :=
  let (emailOps, y₁) := field (pageH - 124) "EMAIL".toList kit.email
  let y₂ := y₁ - 10 - 44 - 16 - 30
  let y₃ := y₂ - 28
  let (stepOps, y₄) := bullets (y₃ - 22) recoverySteps
  let y₅ := y₄ - 14
  header "Zvault Recovery Kit".toList
      "For when you forget your master password or lose your Secret Key.".toList ++
    emailOps ++ keyPanel y₁ "RECOVERY CODE".toList code ++
    [.hline rule y₂, .line .bold 130 ink margin y₃ "How to use it".toList] ++ stepOps ++
    [.line .bold 130 ink margin y₅ "Keep it safe".toList] ++
    (bullets (y₅ - 22) recoveryAdvice).1 ++ [footer kit.createdOn]

/-- `PAGE_CAPACITY`. -/
def pageCapacity : ℕ := 64 * 1024

/-- A page that has not outgrown its buffer is put in a document. -/
def finish (page : List Op) : Except Error (List UInt8) :=
  if pageCapacity < (content page).length then .error .outgrewBuffer
  else .ok (document (content page))

/-- `Kit::render`. -/
def Kit.render (kit : Kit) : Except Error (List UInt8) :=
  if !validateEmail kit.email then .error .invalidEmail
  else if !validateUrl kit.signInUrl then .error .invalidSignInUrl
  else finish (page kit kit.secretKey.toDisplayString)

/-- `RecoveryKit::render`. -/
def RecoveryKit.render (kit : RecoveryKit) : Except Error (List UInt8) :=
  if !validateEmail kit.email then .error .invalidEmail
  else finish (recoveryPage kit kit.recoveryCode.toDisplayString)

end Zvault.EmergencyKit
