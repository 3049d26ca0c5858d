import Mathlib.Data.List.TakeWhile
import Zvault.Browser.Sites
import Zvault.Text.Reading

/-!
# A login is offered where it was saved

A new login is saved for the page's scheme, host and port. The host has lost its
end dots and one `www.`, and loses another `www.` when the saved site is read.
-/

namespace Zvault.Browser

open Text

/-- A character of a domain, which no part of an address has besides the host. -/
def isDomainChar (c : Char) : Bool :=
  33 ≤ c.toNat && c.toNat < 127 && !c.isUpper &&
    !(['#', '%', '/', ':', '<', '>', '?', '@', '[', '\\', ']', '^', '|'].contains c)

/-- An IPv6 address in brackets. -/
def IsLiteral (host : List Char) : Prop :=
  ∃ inner, host = '[' :: (inner ++ [']']) ∧
    ∀ c ∈ inner, c.isDigit = true ∨ c ∈ ['a', 'b', 'c', 'd', 'e', 'f', ':']

def IsWebScheme (scheme : List Char) : Prop := scheme = httpsScheme ∨ scheme = httpScheme

def ownPort (scheme : List Char) : ℕ := if scheme = httpsScheme then 443 else 80

/-- A port that is not the scheme's own. -/
def IsOtherPort (scheme : List Char) (port : ℕ) : Prop := port < 65536 ∧ port ≠ ownPort scheme

instance (scheme : List Char) (port : ℕ) : Decidable (IsOtherPort scheme port) :=
  inferInstanceAs (Decidable (_ ∧ _))

/-- What the URL standard says of web addresses: a host is a domain of lowercase letters and what
else a domain may have, or an IPv6 address, which stays as it is; an address without a path is read
part by part; and a domain stays as it is unless it is an IPv4 address. -/
structure UrlCrate.Lawful (crate : UrlCrate) : Prop where
  host_text : ∀ {url parts host}, crate.parse url = some parts → IsWebScheme parts.scheme →
    parts.host = some host →
    (∀ c ∈ host, isDomainChar c = true) ∨ (IsLiteral host ∧ crate.host host = some host)
  port : ∀ {url parts}, crate.parse url = some parts → IsWebScheme parts.scheme →
    ∀ port ∈ parts.port, IsOtherPort parts.scheme port
  reads : ∀ {scheme host port}, IsWebScheme scheme → host ≠ [] →
    (∀ c ∈ host, isDomainChar c = true) ∨ IsLiteral host →
    (∀ p ∈ port, IsOtherPort scheme p) →
    crate.parse (siteText scheme host port) =
      (crate.host host).map fun h => ⟨scheme, some h, port⟩
  stays : ∀ {host h}, (∀ c ∈ host, isDomainChar c = true) → crate.host host = some h →
    h = host ∨ isIpv4 h = true

/-- The crate reads the host as it is, and what a second `www.` leaves of it still covers it. -/
def UrlCrate.ReadsBack (crate : UrlCrate) (host : List Char) : Prop :=
  crate.host host = some host ∧
    ∀ rest, host = www ++ rest → '.' ∈ rest ∧ isIp rest = false ∧ isShared rest = false

theorem isDomainChar_iff {c : Char} : isDomainChar c = true ↔ (33 ≤ c.toNat ∧ c.toNat < 127) ∧
    c.isUpper = false ∧
      c ∉ ['#', '%', '/', ':', '<', '>', '?', '@', '[', '\\', ']', '^', '|'] := by
  simp only [isDomainChar, Bool.and_eq_true, decide_eq_true_eq, Bool.not_eq_true',
    List.contains_eq_mem, decide_eq_false_iff_not, and_assoc]

theorem isWhitespace_of_isDomainChar {c : Char} (h : isDomainChar c = true) :
    isWhitespace c = false := by
  obtain ⟨⟨hlow, hhigh⟩, -⟩ := isDomainChar_iff.mp h
  exact Text.isWhitespace_eq_false (by omega) (by omega)

section Normal

variable {host : List Char}

/-- What is left when dots are trimmed off. -/
theorem trimDots_append (host : List Char) : ∃ dots, host = trimDots host ++ dots ∧
    (trimDots host).getLast? ≠ some '.' := by
  obtain ⟨front, hfront⟩ := List.dropWhile_suffix (l := host.reverse) (· == '.')
  refine ⟨front.reverse, ?_, ?_⟩
  · rw [trimDots, ← List.reverse_append, hfront, List.reverse_reverse]
  · rw [trimDots, List.getLast?_reverse]
    intro hlast
    have hnot := head?_dropWhile_not (· == '.') host.reverse '.' hlast
    cases hnot

theorem stripWww_cases (host : List Char) :
    (∃ rest, host = www ++ rest ∧ stripWww host = rest) ∨
      (¬www <+: host ∧ stripWww host = host) := by
  unfold stripWww
  split
  · rename_i hwww
    obtain ⟨rest, rfl⟩ := hwww
    exact Or.inl ⟨rest, rfl, List.drop_left⟩
  · rename_i hwww
    exact Or.inr ⟨hwww, rfl⟩

theorem trimDots_eq_self (h : host.getLast? ≠ some '.') : trimDots host = host := by
  rw [trimDots, dropWhile_eq_self_of_head?, List.reverse_reverse]
  intro c hc
  rw [List.head?_reverse] at hc
  rw [beq_eq_false_iff_ne]
  rintro rfl
  exact h hc

/-- A host without capitals and end dots only loses a `www.`. -/
theorem normalHost_eq (hlower : ∀ c ∈ host, c.isUpper = false) (hlast : host.getLast? ≠ some '.') :
    normalHost host = stripWww host := by
  rw [normalHost, trimDots_eq_self hlast, List.map_congr_left
    (fun c hc => toLower_eq_self (hlower c hc)), List.map_id']

/-- The normal host of a domain is a domain, and ends with no dot. -/
theorem normalHost_domain (h : ∀ c ∈ host, isDomainChar c = true) :
    (∀ c ∈ normalHost host, isDomainChar c = true) ∧ (normalHost host).getLast? ≠ some '.' := by
  obtain ⟨dots, hdots, hlast⟩ := trimDots_append host
  have htrim : ∀ c ∈ trimDots host, isDomainChar c = true := fun c hc =>
    h c (hdots ▸ List.mem_append_left _ hc)
  have hlower : (trimDots host).map Char.toLower = trimDots host := by
    rw [List.map_congr_left (fun c hc => toLower_eq_self (isDomainChar_iff.mp (htrim c hc)).2.1),
      List.map_id']
  rw [normalHost, hlower]
  rcases stripWww_cases (trimDots host) with ⟨rest, hrest, hstrip⟩ | ⟨-, hstrip⟩
  · rw [hstrip]
    rw [hrest] at htrim hlast
    refine ⟨fun c hc => htrim c (List.mem_append_right _ hc), fun hdot => hlast ?_⟩
    rw [List.getLast?_append, hdot]
    rfl
  · rw [hstrip]
    exact ⟨htrim, hlast⟩

theorem IsLiteral.stripWww (h : IsLiteral host) : stripWww host = host := by
  obtain ⟨inner, rfl, -⟩ := h
  rcases stripWww_cases ('[' :: (inner ++ [']'])) with ⟨rest, hrest, -⟩ | ⟨-, hstrip⟩
  · cases hrest
  · exact hstrip

theorem IsLiteral.normalHost (h : IsLiteral host) : normalHost host = host := by
  rw [normalHost_eq, h.stripWww]
  all_goals obtain ⟨inner, rfl, hinner⟩ := h
  · intro c hc
    simp only [List.mem_cons, List.mem_append, List.not_mem_nil, or_false] at hc
    rcases hc with rfl | hc | rfl
    · decide
    · rcases hinner c hc with hdigit | hc
      · by_contra hupper
        rw [Bool.not_eq_false, isUpper_iff] at hupper
        rw [isDigit_iff] at hdigit
        omega
      · exact forall_mem_of_all (p := fun d => d.isUpper = false) (by decide) c hc
    · decide
  · have hlast : ('[' :: inner ++ [']']).getLast? = some ']' := List.getLast?_concat
    rw [← List.cons_append, hlast]
    decide

end Normal

theorem isWhitespace_of_isDigit {c : Char} (h : c.isDigit = true) : isWhitespace c = false := by
  rw [isDigit_iff] at h
  exact Text.isWhitespace_eq_false (by omega) (by omega)

theorem isWhitespace_of_mem_host {host : List Char} {c : Char}
    (hhost : (∀ c ∈ host, isDomainChar c = true) ∨ IsLiteral host) (hc : c ∈ host) :
    isWhitespace c = false := by
  rcases hhost with hhost | ⟨inner, rfl, hinner⟩
  · exact isWhitespace_of_isDomainChar (hhost c hc)
  · simp only [List.mem_cons, List.mem_append, List.not_mem_nil, or_false] at hc
    rcases hc with rfl | hc | rfl
    · decide
    · rcases hinner c hc with hdigit | hc
      · exact isWhitespace_of_isDigit hdigit
      · exact forall_mem_of_all (p := fun d => isWhitespace d = false) (by decide) c hc
    · decide

/-- A saved site has no white space. -/
theorem isWhitespace_of_mem_siteText {scheme host : List Char} {port : Option ℕ} {c : Char}
    (hscheme : IsWebScheme scheme) (hhost : (∀ c ∈ host, isDomainChar c = true) ∨ IsLiteral host)
    (hc : c ∈ siteText scheme host port) : isWhitespace c = false := by
  simp only [siteText, List.mem_append] at hc
  rcases hc with ((hc | hc) | hc) | hc
  · rcases hscheme with rfl | rfl
    · exact forall_mem_of_all (p := fun d => isWhitespace d = false) (by decide) c hc
    · exact forall_mem_of_all (p := fun d => isWhitespace d = false) (by decide) c hc
  · exact forall_mem_of_all (p := fun d => isWhitespace d = false) (by decide) c hc
  · exact isWhitespace_of_mem_host hhost hc
  · cases port with
    | none => cases hc
    | some port =>
      rcases List.mem_cons.mp hc with rfl | hc
      · decide
      · exact isWhitespace_of_isDigit (Nat.isDigit_of_mem_toDigits (by decide) (by decide) hc)

section Saved

variable {crate : UrlCrate} {scheme host : List Char} {port : Option ℕ}

/-- How a saved site is read. -/
theorem parse_siteText (hlaws : crate.Lawful) (hscheme : IsWebScheme scheme) (hne : host ≠ [])
    (hhost : (∀ c ∈ host, isDomainChar c = true) ∨ IsLiteral host)
    (hport : ∀ p ∈ port, IsOtherPort scheme p) :
    parse crate (siteText scheme host port) true =
      (crate.host host).bind fun h => siteOfParts ⟨scheme, some h, port⟩ := by
  have htrim : trimmed (siteText scheme host port) = siteText scheme host port :=
    trimmed_eq_self
      (fun c hc => isWhitespace_of_mem_siteText hscheme hhost (List.mem_of_mem_head? hc))
      (fun c hc => isWhitespace_of_mem_siteText hscheme hhost (List.mem_of_getLast? hc))
  have hmark : schemeEnd <:+: siteText scheme host port :=
    ⟨scheme, host ++ portText port, by simp [siteText]⟩
  unfold parse
  dsimp only
  rw [htrim, if_pos hmark, hlaws.reads hscheme hne hhost hport, Option.bind_map]
  rfl

theorem siteOfParts_web (hscheme : IsWebScheme scheme) (hne : normalHost host ≠ []) :
    siteOfParts ⟨scheme, some host, port⟩ =
      some ⟨scheme = httpsScheme, normalHost host, port⟩ := by
  unfold siteOfParts
  dsimp only
  rw [if_neg (fun h => hscheme.elim h.1 h.2), if_neg hne]

/-- The page that a login is saved from. -/
theorem parse_page {page : List Char} {site : Site} (hlaws : crate.Lawful)
    (h : parse crate page false = some site) :
    ∃ scheme, IsWebScheme scheme ∧ site.https = decide (scheme = httpsScheme) ∧ site.host ≠ [] ∧
      (∀ p ∈ site.port, IsOtherPort scheme p) ∧
      (((∀ c ∈ site.host, isDomainChar c = true) ∧ site.host.getLast? ≠ some '.') ∨
        (IsLiteral site.host ∧ crate.host site.host = some site.host)) := by
  have hparts : ∃ url parts, crate.parse url = some parts ∧ siteOfParts parts = some site := by
    unfold parse at h
    dsimp only at h
    split at h
    · obtain ⟨parts, hparts, hsite⟩ := Option.bind_eq_some_iff.mp h
      exact ⟨_, parts, hparts, hsite⟩
    · cases h
  obtain ⟨url, ⟨scheme, host, port⟩, hparse, hsite⟩ := hparts
  cases host with
  | none => cases hsite
  | some host =>
    unfold siteOfParts at hsite
    dsimp only at hsite
    split at hsite
    · cases hsite
    · rename_i hother
      have hscheme : IsWebScheme scheme := by
        by_contra hnot
        exact hother ⟨fun hs => hnot (Or.inl hs), fun hs => hnot (Or.inr hs)⟩
      split at hsite
      · cases hsite
      · rename_i hne
        cases hsite
        refine ⟨scheme, hscheme, rfl, hne, hlaws.port hparse hscheme, ?_⟩
        rcases hlaws.host_text hparse hscheme rfl with hdomain | ⟨hliteral, hsame⟩
        · exact Or.inl (normalHost_domain hdomain)
        · rw [hliteral.normalHost]
          exact Or.inr ⟨hliteral, hsame⟩

/-- An IPv4 address is its own normal host. -/
theorem normalHost_isIpv4 (h : isIpv4 host = true) : normalHost host = host := by
  have hchars := isIpv4_chars h
  have hlower : ∀ c ∈ host, c.isUpper = false := by
    intro c hc
    rcases hchars c hc with rfl | hdigit
    · decide
    · by_contra hupper
      rw [Bool.not_eq_false, isUpper_iff] at hupper
      rw [isDigit_iff] at hdigit
      omega
  rw [normalHost_eq hlower (getLast?_isIpv4 h)]
  rcases stripWww_cases host with ⟨rest, rfl, -⟩ | ⟨-, hstrip⟩
  · rcases hchars 'w' (by simp [www]) with hw | hw
    · exact absurd hw (by decide)
    · exact absurd hw (by decide)
  · exact hstrip

theorem isIp_of_isIpv4 (h : isIpv4 host = true) : isIp host = true := by
  have hno : ∀ {d : Char}, d ≠ '.' → d.isDigit = false → ∀ c ∈ host, (c == d) = false := by
    intro d hdot hdigit c hc
    rw [beq_eq_false_iff_ne]
    rintro rfl
    rcases isIpv4_chars h c hc with heq | heq
    · exact hdot heq
    · rw [hdigit] at heq
      cases heq
  rw [isIp, dropWhile_eq_self_of_head? fun c hc =>
      hno (by decide) (by decide) c (List.mem_of_mem_head? hc),
    dropWhile_eq_self_of_head? fun c hc => hno (by decide) (by decide) c
      (List.mem_reverse.mp (List.mem_of_mem_head? hc)), List.reverse_reverse, isIpAddr, h]
  rfl

/-- A page is covered by the site that is read back for it exactly when its host is read back. -/
theorem covers_readBack {https : Bool} {h : List Char} (hhost : crate.host host = some h)
    (hnormal : normalHost host = stripWww host) (hstays : h = host ∨ isIpv4 h = true) :
    Site.covers ⟨https, normalHost h, port⟩ ⟨https, host, port⟩ = true ↔ crate.ReadsBack host := by
  simp only [Site.covers_iff, true_and, imp_self]
  rcases Classical.em (h = host) with rfl | hne
  · rw [hnormal]
    rcases stripWww_cases h with ⟨rest, hrest, hstrip⟩ | ⟨hno, hstrip⟩
    · rw [hstrip]
      have hshorter : rest ≠ h := fun heq => by
        have hlength := congrArg List.length hrest
        rw [heq, List.length_append] at hlength
        exact absurd hlength (by simp [www])
      simp only [hshorter, false_or, Site.subdomainOk, Bool.and_eq_true, Bool.not_eq_true',
        List.contains_eq_mem, decide_eq_true_eq]
      constructor
      · rintro ⟨⟨⟨hdot, hip⟩, hshared⟩, -⟩
        refine ⟨hhost, fun rest' hrest' => ?_⟩
        cases List.append_cancel_left (hrest.symm.trans hrest')
        exact ⟨hdot, hip, hshared⟩
      · rintro ⟨-, hrests⟩
        obtain ⟨hdot, hip, hshared⟩ := hrests rest hrest
        exact ⟨⟨⟨hdot, hip⟩, hshared⟩, ['w', 'w', 'w'], hrest⟩
    · rw [hstrip]
      exact iff_of_true (Or.inl rfl) ⟨hhost, fun rest hrest => absurd ⟨rest, hrest.symm⟩ hno⟩
  · -- the crate makes another host of it, which is an IPv4 address
    have hip := hstays.resolve_left hne
    rw [normalHost_isIpv4 hip]
    refine iff_of_false ?_ fun hback => hne (Option.some.inj (hhost.symm.trans hback.1))
    rintro (heq | ⟨hok, -⟩)
    · exact hne heq
    · simp [Site.subdomainOk, isIp_of_isIpv4 hip] at hok

/-- A login is offered on the page it was saved from exactly when the page's host is read back. -/
theorem siteMatches_siteOf_iff {page host site : List Char} (hlaws : crate.Lawful)
    (hhost : hostOf crate page = some host) (hsite : siteOf crate page = some site) :
    siteMatches crate site page = true ↔ crate.ReadsBack host := by
  obtain ⟨s, hparse, rfl⟩ := Option.map_eq_some_iff.mp hhost
  rw [siteOf, hparse] at hsite
  cases hsite
  obtain ⟨scheme, hscheme, hhttps, hne, hport, hkind⟩ := parse_page hlaws hparse
  have htext : (∀ c ∈ s.host, isDomainChar c = true) ∨ IsLiteral s.host :=
    hkind.imp And.left And.left
  have hnormal : normalHost s.host = stripWww s.host := by
    rcases hkind with ⟨hdomain, hlast⟩ | ⟨hliteral, -⟩
    · exact normalHost_eq (fun c hc => (isDomainChar_iff.mp (hdomain c hc)).2.1) hlast
    · rw [hliteral.normalHost, hliteral.stripWww]
  have hsaved : (if s.https = true then httpsScheme else httpScheme) = scheme := by
    rw [hhttps]
    rcases hscheme with rfl | rfl
    · rfl
    · rfl
  dsimp only
  rw [siteMatches_iff, hsaved, parse_siteText hlaws hscheme hne htext hport, hparse]
  cases hread : crate.host s.host with
  | none =>
    refine iff_of_false (by rintro ⟨_, _, h, -⟩; cases h) fun hback => ?_
    rw [hback.1] at hread
    cases hread
  | some h =>
    have hstays : h = s.host ∨ isIpv4 h = true := by
      rcases hkind with ⟨hdomain, -⟩ | ⟨-, hsame⟩
      · exact hlaws.stays hdomain hread
      · exact Or.inl (Option.some.inj (hread.symm.trans hsame))
    have hsome : normalHost h ≠ [] := by
      rcases hstays with rfl | hip
      · rw [hnormal]
        rcases stripWww_cases s.host with ⟨rest, hrest, hstrip⟩ | ⟨-, hstrip⟩
        · rw [hstrip]
          rintro rfl
          rcases hkind with ⟨-, hlast⟩ | ⟨hliteral, -⟩
          · rw [hrest] at hlast
            exact hlast rfl
          · have hwhole := hliteral.stripWww
            rw [hstrip] at hwhole
            exact hne hwhole.symm
        · rwa [hstrip]
      · rw [normalHost_isIpv4 hip]
        rintro rfl
        cases hip
    rw [Option.bind_some, siteOfParts_web hscheme hsome, ← hhttps]
    constructor
    · rintro ⟨_, _, ⟨⟩, ⟨⟩, hcovers⟩
      exact (covers_readBack hread hnormal hstays).mp hcovers
    · exact fun hback => ⟨_, _, rfl, rfl, (covers_readBack hread hnormal hstays).mpr hback⟩

/-- A new login is offered on its page exactly when the page's host is read back, and a login only
where the scheme is no weaker, the port is the same and the host is the saved one or below it. -/
theorem logins_offered (hlaws : crate.Lawful) :
    (∀ page host site, hostOf crate page = some host → siteOf crate page = some site →
      (siteMatches crate site page = true ↔ crate.ReadsBack host)) ∧
    (∀ saved page, siteMatches crate saved page = true →
      ∃ s p, parse crate saved true = some s ∧ parse crate page false = some p ∧
        (s.https = true → p.https = true) ∧ s.port = p.port ∧
        (s.host = p.host ∨ isShared s.host = false ∧ ∃ rest, p.host = rest ++ '.' :: s.host)) ∧
    ∀ saved page s p a b shared, parse crate saved true = some s → parse crate page false = some p →
      isShared shared = true → s.host = a ++ '.' :: shared → p.host = b ++ '.' :: shared →
      '.' ∉ b → a ≠ b → siteMatches crate saved page = false := by
  refine ⟨fun page host site => siteMatches_siteOf_iff hlaws, fun saved page h => ?_, ?_⟩
  · obtain ⟨s, p, hs, hp, hcovers⟩ := siteMatches_iff.mp h
    obtain ⟨hhttps, hport, hhost⟩ := Site.covers_iff.mp hcovers
    refine ⟨s, p, hs, hp, hhttps, hport, hhost.imp_right fun ⟨hok, hrest⟩ => ⟨?_, hrest⟩⟩
    simp only [Site.subdomainOk, Bool.and_eq_true, Bool.not_eq_true'] at hok
    exact hok.2
  · intro saved page s p a b shared hs hp _ hsaved hpage hb hne
    rw [siteMatches, hs, hp]
    exact Site.not_covers_sibling hsaved hpage hb hne

end Saved

section Plain

/-- A domain, or four numbers. -/
def plainHost (host : List Char) : Option (List Char) :=
  if host ≠ [] ∧ host.all isDomainChar ∧
      (((host.splitOn '.').getLast?.any fun l => l.all Char.isDigit) → isIpv4 host) then some host
  else none

/-- The port of an address, after its host. -/
def plainPort (scheme : List Char) : List Char → Option (Option ℕ)
  | [] => some none
  | '/' :: _ => some none
  | ':' :: more =>
    let port := Nat.ofDigitChars 10 (more.takeWhile Char.isDigit) 0
    if (more.dropWhile Char.isDigit).head?.all (· == '/') ∧ port < 65536 then
      some (if port = ownPort scheme then none else some port)
    else none
  | _ => none

/-- An address without its scheme. -/
def plainRead (scheme rest : List Char) : Option UrlParts := do
  let host ← plainHost (rest.takeWhile isDomainChar)
  let port ← plainPort scheme (rest.dropWhile isDomainChar)
  return ⟨scheme, some host, port⟩

def plainParse (url : List Char) : Option UrlParts :=
  if httpsScheme ++ schemeEnd <+: url then
    plainRead httpsScheme (url.drop (httpsScheme ++ schemeEnd).length)
  else if httpScheme ++ schemeEnd <+: url then
    plainRead httpScheme (url.drop (httpScheme ++ schemeEnd).length)
  else none

/-- A crate for addresses in lowercase without user names. -/
def plainCrate : UrlCrate where
  parse := plainParse
  host := plainHost

theorem plainHost_eq_some {host h : List Char} (hread : plainHost host = some h) :
    h = host ∧ ∀ c ∈ host, isDomainChar c = true := by
  unfold plainHost at hread
  split at hread
  · rename_i hplain
    cases hread
    exact ⟨rfl, List.all_eq_true.mp hplain.2.1⟩
  · cases hread

theorem plainPort_eq_some {scheme rest : List Char} {port : Option ℕ}
    (hread : plainPort scheme rest = some port) : ∀ p ∈ port, IsOtherPort scheme p := by
  unfold plainPort at hread
  split at hread
  · cases hread
    exact nofun
  · cases hread
    exact nofun
  · dsimp only at hread
    split at hread
    · rename_i hport
      split at hread
      · cases hread
        exact nofun
      · rename_i hother
        cases hread
        rintro p ⟨⟩
        exact ⟨hport.2, hother⟩
    · cases hread
  · cases hread

theorem plainPort_portText {scheme : List Char} {port : Option ℕ}
    (hport : ∀ p ∈ port, IsOtherPort scheme p) : plainPort scheme (portText port) = some port := by
  cases port with
  | none => rfl
  | some port =>
    have hdigits : ∀ c ∈ Nat.toDigits 10 port, c.isDigit = true :=
      fun c hc => Nat.isDigit_of_mem_toDigits (by decide) (by decide) hc
    have htake := List.takeWhile_eq_self_iff.mpr hdigits
    have hdrop := List.dropWhile_eq_nil_iff.mpr hdigits
    obtain ⟨hlt, hne⟩ := hport port rfl
    simp only [portText, plainPort, htake, hdrop, Nat.ofDigitChars_ten_toDigits]
    rw [if_pos ⟨rfl, hlt⟩, if_neg hne]

theorem plainRead_eq_some {scheme rest : List Char} {parts : UrlParts}
    (h : plainRead scheme rest = some parts) : parts.scheme = scheme ∧
      (∀ p ∈ parts.port, IsOtherPort scheme p) ∧
      ∀ host, parts.host = some host → ∀ c ∈ host, isDomainChar c = true := by
  obtain ⟨host, hhost, h⟩ := Option.bind_eq_some_iff.mp h
  obtain ⟨port, hport, h⟩ := Option.bind_eq_some_iff.mp h
  cases h
  obtain ⟨rfl, hdomain⟩ := plainHost_eq_some hhost
  refine ⟨rfl, plainPort_eq_some hport, ?_⟩
  rintro _ ⟨⟩
  exact hdomain

theorem plainParse_eq_some {url : List Char} {parts : UrlParts} (h : plainParse url = some parts) :
    ∃ scheme rest, plainRead scheme rest = some parts := by
  unfold plainParse at h
  split at h
  · exact ⟨_, _, h⟩
  · split at h
    · exact ⟨_, _, h⟩
    · cases h

theorem plainParse_scheme {scheme : List Char} (hscheme : IsWebScheme scheme) (rest : List Char) :
    plainParse (scheme ++ schemeEnd ++ rest) = plainRead scheme rest := by
  unfold plainParse
  rcases hscheme with rfl | rfl
  · rw [if_pos (List.prefix_append _ _), List.drop_left]
  · have hnot : ¬httpsScheme ++ schemeEnd <+: httpScheme ++ schemeEnd ++ rest := by
      rintro ⟨tail, htail⟩
      cases htail
    rw [if_neg hnot, if_pos (List.prefix_append _ _), List.drop_left]

theorem plainCrate_lawful : plainCrate.Lawful where
  host_text := by
    intro url parts host hparse _ hhost
    obtain ⟨scheme, rest, hread⟩ := plainParse_eq_some hparse
    exact Or.inl ((plainRead_eq_some hread).2.2 host hhost)
  port := by
    intro url parts hparse _
    obtain ⟨scheme, rest, hread⟩ := plainParse_eq_some hparse
    obtain ⟨rfl, hport, -⟩ := plainRead_eq_some hread
    exact hport
  reads := by
    intro scheme host port hscheme hne hhost hport
    have htext : siteText scheme host port = scheme ++ schemeEnd ++ (host ++ portText port) :=
      List.append_assoc _ _ _
    change plainParse (siteText scheme host port) = _
    rw [htext, plainParse_scheme hscheme]
    unfold plainRead
    rcases hhost with hdomain | ⟨inner, rfl, -⟩
    · have hstops : Stops isDomainChar (portText port) := by
        cases port with
        | none => exact stops_nil _
        | some port => exact (stops_cons _ _ _).mpr (by decide)
      have hrest : (portText port).dropWhile isDomainChar = portText port :=
        dropWhile_eq_self_of_head? hstops
      rw [takeWhile_append_stops hdomain hstops, List.dropWhile_append_of_pos hdomain, hrest,
        plainPort_portText hport]
      change _ = (plainHost host).map _
      cases hread : plainHost host with
      | none => rfl
      | some h => rw [(plainHost_eq_some hread).1]; rfl
    · rfl
  stays := by
    intro host h _ hread
    exact Or.inl (plainHost_eq_some hread).1

example : siteOf plainCrate "http://localhost:3000/signin".toList =
    some "http://localhost:3000".toList := by decide +kernel

theorem logins_offered_example :
    siteMatches plainCrate "http://localhost:3000".toList "http://localhost:3000/signin".toList =
      true := by
  refine ((logins_offered plainCrate_lawful).1 _ "localhost".toList _ (by decide +kernel)
    (by decide +kernel)).mpr ⟨by decide +kernel, ?_⟩
  rintro rest hrest
  cases hrest

/-- A host that begins with `www.` twice, below a shared host: the saved site loses both. -/
theorem second_www_lost :
    siteOf plainCrate "https://www.www.github.io/".toList = some "https://www.github.io".toList ∧
    siteMatches plainCrate "https://www.github.io".toList "https://www.www.github.io/".toList =
      false := by
  constructor
  · decide +kernel
  · decide +kernel

end Plain

end Zvault.Browser
