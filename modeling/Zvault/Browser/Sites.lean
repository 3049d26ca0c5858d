import Mathlib.Data.List.Infix
import Zvault.Text.IpAddr
import Zvault.Text.Trim

/-!
# Which saved logins belong to a page

`site_of` and `matches` of `browser.rs`. The `url` crate is a parameter: what it
makes of an address, and what it makes of a host in one.
-/

namespace Zvault.Browser

open Text

/-- What the `url` crate says of an address. -/
structure UrlParts where
  scheme : List Char
  host : Option (List Char)
  /-- A port other than the scheme's own. -/
  port : Option ℕ
  deriving DecidableEq, Repr

/-- `Url::parse`, and how it reads the host of a web address. -/
structure UrlCrate where
  parse : List Char → Option UrlParts
  host : List Char → Option (List Char)

/-- `SHARED_HOSTS`. -/
def sharedHosts : List String :=
  ["github.io", "gitlab.io", "pages.dev", "workers.dev", "vercel.app", "netlify.app",
    "herokuapp.com", "azurewebsites.net", "cloudfront.net", "amazonaws.com", "appspot.com",
    "web.app", "firebaseapp.com", "blogspot.com", "sslip.io", "nip.io", "ngrok.io",
    "ngrok-free.app", "co.uk", "org.uk", "co.in", "co.jp", "com.au", "com.br", "eu.org"]

def isShared (host : List Char) : Bool := sharedHosts.any fun s => s.toList = host

structure Site where
  https : Bool
  host : List Char
  port : Option ℕ
  deriving DecidableEq, Repr

def httpsScheme : List Char := ['h', 't', 't', 'p', 's']

def httpScheme : List Char := ['h', 't', 't', 'p']

def schemeEnd : List Char := [':', '/', '/']

def www : List Char := ['w', 'w', 'w', '.']

/-- `trim_end_matches('.')`. -/
def trimDots (host : List Char) : List Char := (host.reverse.dropWhile (· == '.')).reverse

/-- `strip_prefix("www.").unwrap_or`. -/
def stripWww (host : List Char) : List Char :=
  if www <+: host then host.drop www.length else host

/-- The host as it is compared. -/
def normalHost (host : List Char) : List Char := stripWww ((trimDots host).map Char.toLower)

/-- The site of what the crate has parsed. -/
def siteOfParts (parts : UrlParts) : Option Site :=
  match parts.host with
  | none => none
  | some host =>
    if parts.scheme ≠ httpsScheme ∧ parts.scheme ≠ httpScheme then none
    else if normalHost host = [] then none
    else some ⟨parts.scheme = httpsScheme, normalHost host, parts.port⟩

variable (crate : UrlCrate)

/-- `parse`. -/
def parse (url : List Char) (defaultHttps : Bool) : Option Site :=
  let url := trimmed url
  if schemeEnd <:+: url then (crate.parse url).bind siteOfParts
  else if defaultHttps then (crate.parse (httpsScheme ++ schemeEnd ++ url)).bind siteOfParts
  else none

/-- `is_ip`. -/
def isIp (host : List Char) : Bool :=
  isIpAddr ((host.dropWhile (· == '[')).reverse.dropWhile (· == ']')).reverse

/-- The subdomains of the saved host may be filled, too. -/
def Site.subdomainOk (site : Site) : Bool :=
  site.host.contains '.' && !isIp site.host && !isShared site.host

/-- What `matches` decides once both addresses are parsed. -/
def Site.covers (saved page : Site) : Bool :=
  if saved.https ∧ ¬page.https then false
  else if saved.port ≠ page.port then false
  else if saved.host = page.host then true
  else saved.subdomainOk && ('.' :: saved.host).isSuffixOf page.host

/-- `matches`. -/
def siteMatches (saved page : List Char) : Bool :=
  match parse crate saved true, parse crate page false with
  | some saved, some page => saved.covers page
  | _, _ => false

/-- `host_of`. -/
def hostOf (page : List Char) : Option (List Char) := (parse crate page false).map Site.host

def portText : Option ℕ → List Char
  | some port => ':' :: Nat.toDigits 10 port
  | none => []

/-- A web address without a path. -/
def siteText (scheme host : List Char) (port : Option ℕ) : List Char :=
  scheme ++ schemeEnd ++ host ++ portText port

/-- `site_of`. -/
def siteOf (page : List Char) : Option (List Char) :=
  (parse crate page false).map fun site =>
    siteText (if site.https then httpsScheme else httpScheme) site.host site.port

namespace Site

variable {saved page : Site}

theorem covers_iff : saved.covers page = true ↔
    (saved.https = true → page.https = true) ∧ saved.port = page.port ∧
      (saved.host = page.host ∨
        saved.subdomainOk = true ∧ ∃ rest, page.host = rest ++ '.' :: saved.host) := by
  unfold covers
  split
  · rename_i hscheme
    exact iff_of_false (by simp) fun h => hscheme.2 (h.1 hscheme.1)
  · rename_i hscheme
    have himp : saved.https = true → page.https = true := fun h => by
      by_contra hnot
      exact hscheme ⟨h, hnot⟩
    split
    · rename_i hport
      exact iff_of_false (by simp) fun h => hport h.2.1
    · rename_i hport
      have hsame : saved.port = page.port := not_not.mp hport
      split
      · rename_i hhost
        exact iff_of_true rfl ⟨himp, hsame, Or.inl hhost⟩
      · rename_i hhost
        rw [Bool.and_eq_true, List.isSuffixOf_iff_suffix]
        constructor
        · rintro ⟨hok, rest, hrest⟩
          exact ⟨himp, hsame, Or.inr ⟨hok, rest, hrest.symm⟩⟩
        · rintro ⟨-, -, heq | ⟨hok, rest, hrest⟩⟩
          · exact absurd heq hhost
          · exact ⟨hok, rest, hrest.symm⟩

/-- A site under a shared host does not cover another name under it. -/
theorem not_covers_sibling {a b shared : List Char} (hsaved : saved.host = a ++ '.' :: shared)
    (hpage : page.host = b ++ '.' :: shared) (hb : '.' ∉ b) (hne : a ≠ b) :
    saved.covers page = false := by
  rw [← Bool.not_eq_true, covers_iff]
  rintro ⟨-, -, hsame | ⟨-, rest, hrest⟩⟩
  · rw [hsaved, hpage] at hsame
    exact hne (List.append_cancel_right hsame)
  · rw [hsaved, hpage, show rest ++ '.' :: (a ++ '.' :: shared) = (rest ++ '.' :: a) ++ '.' :: shared
      by simp] at hrest
    exact hb (List.append_cancel_right hrest ▸ by simp)

/-- A site on a shared host covers that host only. -/
theorem host_eq_of_covers_shared (hshared : isShared saved.host = true)
    (h : saved.covers page = true) : saved.host = page.host := by
  rcases (covers_iff.mp h).2.2 with hsame | ⟨hok, -⟩
  · exact hsame
  · simp [subdomainOk, hshared] at hok

end Site

section Matches

variable {crate} {saved page : List Char}

theorem siteMatches_iff : siteMatches crate saved page = true ↔
    ∃ s p, parse crate saved true = some s ∧ parse crate page false = some p ∧
      s.covers p = true := by
  unfold siteMatches
  cases parse crate saved true with
  | none => simp
  | some s =>
    cases parse crate page false with
    | none => simp
    | some p => simp

end Matches

end Zvault.Browser
