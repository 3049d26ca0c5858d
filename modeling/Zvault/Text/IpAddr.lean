import Zvault.Text.AsciiCase
import Zvault.Text.Separated

/-!
# IP addresses as texts

What the standard library reads as an `IpAddr`: four decimal numbers with dots
between them, or eight groups of hexadecimal digits with colons between them, of
which `::` stands for one or more.
-/

namespace Text

/-- A number up to 255 without leading zeros. -/
def isOctet (t : List Char) : Bool :=
  t ≠ [] && t.length ≤ 3 && t.all Char.isDigit && (t.length = 1 || t.head? ≠ some '0') &&
    Nat.ofDigitChars 10 t 0 ≤ 255

def isIpv4 (t : List Char) : Bool :=
  (t.splitOn '.').length = 4 && (t.splitOn '.').all isOctet

/-- One to four hexadecimal digits. -/
def isHextet (t : List Char) : Bool :=
  t ≠ [] && t.length ≤ 4 && t.all fun c => c.isDigit || ('a' ≤ c && c ≤ 'f') || ('A' ≤ c && c ≤ 'F')

/-- How many groups a text has, of which the last two may be written as an IPv4 address. -/
def groupCount (embedded : Bool) (t : List Char) : Option ℕ :=
  let parts := t.splitOn ':'
  if t = [] then some 0
  else if parts.all isHextet then some parts.length
  else if embedded ∧ parts.dropLast.all isHextet ∧ parts.getLast?.any isIpv4 then
    some (parts.length + 1)
  else none

def isIpv6 (t : List Char) : Bool :=
  groupCount true t = some 8 ||
    (List.range t.length).any fun i =>
      t[i]? = some ':' && t[i + 1]? = some ':' &&
        match groupCount false (t.take i), groupCount true (t.drop (i + 2)) with
        | some n, some m => n + m ≤ 7
        | _, _ => false

/-- `parse::<IpAddr>().is_ok()`. -/
def isIpAddr (t : List Char) : Bool := isIpv4 t || isIpv6 t

theorem isIpv4_chars {t : List Char} (h : isIpv4 t = true) :
    ∀ c ∈ t, c = '.' ∨ c.isDigit = true := by
  rw [isIpv4, Bool.and_eq_true, List.all_eq_true] at h
  have hdigits : ∀ part ∈ t.splitOn '.', ∀ c ∈ part, c.isDigit = true := by
    intro part hpart c hc
    have hoctet := h.2 part hpart
    simp only [isOctet, Bool.and_eq_true, List.all_eq_true] at hoctet
    exact hoctet.1.1.2 c hc
  intro c hc
  rcases Classical.em (c = '.') with hdot | hdot
  · exact Or.inl hdot
  · exact Or.inr ((forall_splitOn_forall_iff t).mp hdigits c hc hdot)

/-- An IPv4 address ends with a number. -/
theorem getLast?_isIpv4 {t : List Char} (h : isIpv4 t = true) : t.getLast? ≠ some '.' := by
  intro hlast
  obtain ⟨before, rfl⟩ := List.getLast?_eq_some_iff.mp hlast
  rw [isIpv4, Bool.and_eq_true, List.all_eq_true] at h
  have hempty : ([] : List Char) ∈ (before ++ ['.']).splitOn '.' := by
    rw [List.splitOn_append_cons_self]
    simp
  have hoctet := h.2 [] hempty
  cases hoctet

example : isIpAddr "192.168.1.10".toList = true ∧ isIpAddr "1.10".toList = false := by decide

example : isIpAddr "::1".toList = true ∧ isIpAddr "1:2::3::4".toList = false := by decide

end Text
