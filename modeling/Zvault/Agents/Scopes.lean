import Zvault.Agents.Reference
import Zvault.Text.Reading

/-!
# Scope patterns and places

A pattern is one secret's path, or a place that ends in `/*` and covers what is
below it. A place that a person names is a pattern.
-/

namespace Zvault.Agents

open Text

/-- `strip_suffix`. -/
def stripSuffix (ending text : List Char) : Option (List Char) :=
  if ending <:+ text then some (text.take (text.length - ending.length)) else none

/-- What `trim_end_matches("/*")` makes of a reversed text. -/
def dropWildcards : List Char → List Char
  | '*' :: '/' :: rest => dropWildcards rest
  | text => text

/-- `s.trim_end_matches("/*").trim_end_matches('/')`. -/
def trimPlace (text : List Char) : List Char :=
  ((dropWildcards text.reverse).dropWhile (· == '/')).reverse

namespace ScopePattern

/-- `ScopePattern::from_str`. -/
def fromStr (s : String) : Except RefError ScopePattern :=
  match stripSuffix ['/', '*'] s.toList with
  | none => (SecretRef.fromStr s).map .exact
  | some before =>
    match stripPrefix scheme before with
    | none => .error .scheme
    | some rest =>
      let parts := (rest.splitOn '/').map String.ofList
      if 3 < parts.length then .error .shape else (parts.mapM slug).map .under

/-- `Display`. -/
def display : ScopePattern → String
  | .exact r => r.display
  | .under prefixes =>
    String.ofList scheme ++ String.intercalate "/" prefixes ++ "/*"

/-- `parse_place`. -/
def parsePlace (s : String) : Except RefError ScopePattern :=
  let trimmed := trimPlace s.toList
  match stripPrefix scheme trimmed with
  | none => .error .scheme
  | some rest =>
    if (rest.splitOn '/').length ≤ 2 ∨ ['/'] <:+ s.toList ∨ ['/', '*'] <:+ s.toList then
      fromStr (String.ofList trimmed ++ "/*")
    else (SecretRef.fromStr (String.ofList trimmed)).map .exact

/-- The slugs and keys of a pattern are valid, and a place has 1 to 3 slugs. -/
def IsValid : ScopePattern → Prop
  | .exact r => r.IsValid
  | .under prefixes => prefixes ≠ [] ∧ prefixes.length ≤ 3 ∧ ∀ p ∈ prefixes, validSlug p = true

instance (p : ScopePattern) : Decidable p.IsValid := by
  cases p with
  | exact r => exact inferInstanceAs (Decidable r.IsValid)
  | under prefixes => exact inferInstanceAs (Decidable (_ ∧ _ ∧ _))

/-- The text of a pattern without its wildcard. -/
def stem (p : ScopePattern) : List Char :=
  (stripSuffix ['*'] p.display.toList).getD p.display.toList

end ScopePattern

theorem stripSuffix_append (text ending : List Char) :
    stripSuffix ending (text ++ ending) = some text := by
  unfold stripSuffix
  rw [if_pos (List.suffix_append _ _)]
  simp

theorem stripSuffix_eq_some {ending text rest : List Char} :
    stripSuffix ending text = some rest ↔ text = rest ++ ending := by
  constructor
  · intro h
    unfold stripSuffix at h
    split at h
    · rename_i hsuffix
      obtain ⟨before, rfl⟩ := hsuffix
      simpa using h
    · cases h
  · rintro rfl
    exact stripSuffix_append rest ending

namespace SecretRef

/-- A path ends with its key, in no slash and no wildcard. -/
theorem display_concat {r : SecretRef} (h : r.IsValid) :
    ∃ before c, r.display.toList = before ++ [c] ∧ c ≠ '/' ∧ c ≠ '*' := by
  obtain ⟨hne, hslash, hstar⟩ := validKey_chars h.2
  obtain ⟨before, c, hkey⟩ := (List.eq_nil_or_concat r.key.toList).resolve_left hne
  rw [List.concat_eq_append] at hkey
  refine ⟨(String.ofList scheme ++ String.join (r.places.map (· ++ "/"))).toList ++ before, c, ?_, ?_,
    ?_⟩
  · rw [display, String.toList_append, hkey, List.append_assoc]
  · rintro rfl
    exact hslash (by simp [hkey])
  · rintro rfl
    exact hstar (by simp [hkey])

theorem stripSuffix_display {r : SecretRef} (h : r.IsValid) (before : List Char) :
    stripSuffix (before ++ ['*']) r.display.toList = none := by
  obtain ⟨start, c, htext, -, hstar⟩ := display_concat h
  cases hs : stripSuffix (before ++ ['*']) r.display.toList with
  | none => rfl
  | some rest =>
    have heq := stripSuffix_eq_some.mp hs
    rw [htext, ← List.append_assoc] at heq
    have hlast := (List.append_inj' heq rfl).2
    cases hlast
    exact absurd rfl hstar

end SecretRef

namespace ScopePattern

theorem display_under_toList (prefixes : List String) :
    (display (.under prefixes)).toList =
      scheme ++ ['/'].intercalate (prefixes.map String.toList) ++ ['/', '*'] := by
  simp [display, String.toList_intercalate]

/-- The place of a pattern ends in no slash and no wildcard. -/
theorem under_concat {prefixes : List String} (h : IsValid (.under prefixes)) :
    ∃ before c, scheme ++ ['/'].intercalate (prefixes.map String.toList) = before ++ [c] ∧
      c ≠ '/' ∧ c ≠ '*' := by
  obtain ⟨hne, -, hslugs⟩ := h
  obtain ⟨init, last, rfl⟩ := (List.eq_nil_or_concat prefixes).resolve_left hne
  rw [List.concat_eq_append] at hslugs
  have hlast : validSlug last = true := hslugs last (by simp)
  obtain ⟨hne, hslash, hstar⟩ := validSlug_chars hlast
  obtain ⟨before, c, hc⟩ := (List.eq_nil_or_concat last.toList).resolve_left hne
  rw [List.concat_eq_append] at hc
  refine ⟨scheme ++ ((init.map String.toList).flatMap (· ++ ['/']) ++ before), c, ?_, ?_, ?_⟩
  · rw [List.concat_eq_append, List.map_append, List.map_singleton, ← flatMap_append_eq_intercalate,
      hc]
    simp only [List.append_assoc]
  · rintro rfl
    exact hslash (by simp [hc])
  · rintro rfl
    exact hstar (by simp [hc])

theorem mapM_slug {parts : List String} (h : ∀ p ∈ parts, validSlug p = true) :
    parts.mapM slug = .ok parts :=
  Fallible.mapM_eq_ok.mpr (List.forall₂_same.mpr fun p hp => slug_eq_ok.mpr ⟨h p hp, rfl⟩)

/-- Parsing how a pattern is written gives the pattern back. -/
theorem fromStr_display {p : ScopePattern} (h : p.IsValid) : fromStr p.display = .ok p := by
  cases p with
  | exact r =>
    have hnone : stripSuffix ['/', '*'] r.display.toList = none := SecretRef.stripSuffix_display h ['/']
    have hok : SecretRef.fromStr r.display = .ok r := SecretRef.fromStr_eq_ok_iff.mpr ⟨h, rfl⟩
    rw [fromStr, display, hnone]
    dsimp only
    rw [hok]
    rfl
  | under prefixes =>
    obtain ⟨hne, hlength, hslugs⟩ := h
    have hparts : ((['/'].intercalate (prefixes.map String.toList)).splitOn '/').map String.ofList =
        prefixes := by
      rw [List.splitOn_intercalate]
      · simp [Function.comp_def]
      · intro part hpart
        obtain ⟨p, hp, rfl⟩ := List.mem_map.mp hpart
        exact (validSlug_chars (hslugs p hp)).2.1
      · simpa using hne
    rw [fromStr, display_under_toList, stripSuffix_append]
    dsimp only
    rw [stripPrefix_eq_some.mpr rfl]
    dsimp only
    rw [hparts, if_neg (by omega), mapM_slug hslugs]
    rfl

/-- Trimming leaves a text that ends in no slash and no wildcard. -/
theorem trimPlace_concat {c : Char} (hslash : c ≠ '/') (hstar : c ≠ '*') (before : List Char) :
    trimPlace (before ++ [c]) = before ++ [c] ∧
      trimPlace (before ++ [c] ++ ['/', '*']) = before ++ [c] := by
  have hdrop : dropWildcards (c :: before.reverse) = c :: before.reverse := by
    rw [dropWildcards]
    intro rest hc
    exact hstar (List.cons.inj hc).1
  have hwhile : (c :: before.reverse).dropWhile (· == '/') = c :: before.reverse :=
    List.dropWhile_cons_of_neg (by simpa using hslash)
  constructor
  · rw [trimPlace, List.reverse_concat, hdrop, hwhile]
    simp
  · rw [trimPlace, List.reverse_append, List.reverse_concat]
    have hboth : dropWildcards (['/', '*'].reverse ++ c :: before.reverse) =
        dropWildcards (c :: before.reverse) := rfl
    rw [hboth, hdrop, hwhile]
    simp

/-- A person may name a place as it is written. -/
theorem parsePlace_display {p : ScopePattern} (h : p.IsValid) : parsePlace p.display = .ok p := by
  cases p with
  | exact r =>
    obtain ⟨before, c, htext, hslash, hstar⟩ := SecretRef.display_concat h
    have htrim : trimPlace r.display.toList = r.display.toList := by
      rw [htext]
      exact (trimPlace_concat hslash hstar before).1
    have hrest := stripPrefix_eq_some.mpr (SecretRef.display_toList r)
    have hdepth : ¬ ((['/'].intercalate r.segments).splitOn '/').length ≤ 2 := by
      have hparts := SecretRef.splitOn_segments r fun part hpart => (h.not_mem part hpart).1
      have hlength := congrArg List.length hparts
      simp only [List.length_map, List.length_append, SecretRef.places,
        List.length_cons] at hlength
      omega
    have hends : ∀ ending : List Char, ∀ d, d ≠ c → ¬ ending ++ [d] <:+ r.display.toList := by
      rintro ending d hd ⟨start, hstart⟩
      rw [htext, ← List.append_assoc] at hstart
      exact hd (List.cons.inj (List.append_inj' hstart rfl).2).1
    have hok : SecretRef.fromStr r.display = .ok r := SecretRef.fromStr_eq_ok_iff.mpr ⟨h, rfl⟩
    rw [parsePlace, display, htrim, hrest]
    dsimp only
    rw [if_neg, String.ofList_toList, hok]
    · rfl
    · rintro (hle | hends' | hends')
      · exact hdepth hle
      · exact hends [] '/' hslash.symm hends'
      · exact hends ['/'] '*' hstar.symm hends'
  | under prefixes =>
    obtain ⟨before, c, htext, hslash, hstar⟩ := under_concat h
    have htrim : trimPlace (display (.under prefixes)).toList =
        scheme ++ ['/'].intercalate (prefixes.map String.toList) := by
      rw [display_under_toList, htext]
      exact (trimPlace_concat hslash hstar before).2
    have hsuffix : ['/', '*'] <:+ (display (.under prefixes)).toList := by
      rw [display_under_toList]
      exact List.suffix_append _ _
    have hsame : String.ofList (scheme ++ ['/'].intercalate (prefixes.map String.toList)) ++ "/*" =
        display (.under prefixes) := by
      refine String.toList_injective ?_
      rw [display_under_toList, String.toList_append, String.toList_ofList]
      rfl
    rw [parsePlace, htrim, stripPrefix_eq_some.mpr rfl]
    dsimp only
    rw [if_pos (Or.inr (Or.inr hsuffix)), hsame, fromStr_display h]

/-- Slugs that each end with a slash are a prefix of a text exactly when they are its first ones. -/
theorem flatMap_prefix_iff {prefixes places : List String} {key : List Char}
    (hprefixes : ∀ p ∈ prefixes, '/' ∉ p.toList) (hplaces : ∀ p ∈ places, '/' ∉ p.toList)
    (hkey : '/' ∉ key) :
    prefixes.flatMap (fun p => p.toList ++ ['/']) <+:
        places.flatMap (fun p => p.toList ++ ['/']) ++ key ↔
      prefixes.isPrefixOf places = true := by
  induction prefixes generalizing places with
  | nil => simp
  | cons p prefixes ih =>
    have hp := hprefixes p List.mem_cons_self
    have hrest := fun q hq => hprefixes q (List.mem_cons_of_mem _ hq)
    cases places with
    | nil =>
      refine iff_of_false ?_ (by simp)
      rintro hsome
      refine hkey (hsome.subset ?_)
      simp
    | cons q places =>
      have hq := hplaces q List.mem_cons_self
      rw [List.isPrefixOf, Bool.and_eq_true, beq_iff_eq,
        ← ih hrest fun q' hq' => hplaces q' (List.mem_cons_of_mem _ hq')]
      simp only [List.flatMap_cons, List.append_assoc, List.singleton_append]
      constructor
      · rintro ⟨rest, htext⟩
        rw [List.append_assoc, List.cons_append] at htext
        have hparts := append_inj_of_stops (p := (· != '/')) (fun c hc => bne_iff_ne.mpr
          fun h => hp (h ▸ hc)) (fun c hc => bne_iff_ne.mpr fun h => hq (h ▸ hc)) (by simp) (by simp)
          htext
        exact ⟨String.toList_injective hparts.1, rest, (List.cons.inj hparts.2).2⟩
      · rintro ⟨rfl, rest, htext⟩
        refine ⟨rest, ?_⟩
        rw [List.append_assoc, List.cons_append, htext, List.cons_append]

theorem stem_exact {r : SecretRef} (h : r.IsValid) : stem (.exact r) = r.display.toList := by
  have hnone : stripSuffix ['*'] r.display.toList = none := SecretRef.stripSuffix_display h []
  rw [stem, display, hnone, Option.getD_none]

/-- The text of a place that has a slug. -/
theorem display_under_eq {prefixes : List String} (hne : prefixes ≠ []) :
    (display (.under prefixes)).toList =
      scheme ++ prefixes.flatMap (fun p => p.toList ++ ['/']) ++ ['*'] := by
  obtain ⟨init, last, rfl⟩ := (List.eq_nil_or_concat prefixes).resolve_left hne
  rw [display_under_toList, List.concat_eq_append, List.map_append, List.map_singleton,
    ← flatMap_append_eq_intercalate]
  simp [List.flatMap_map]

theorem stem_under {prefixes : List String} (hne : prefixes ≠ []) :
    stem (.under prefixes) = scheme ++ prefixes.flatMap (fun p => p.toList ++ ['/']) := by
  rw [stem, display_under_eq hne, stripSuffix_append, Option.getD_some]

/-- What a pattern covers can be seen in the texts. -/
theorem allows_iff {p : ScopePattern} {r : SecretRef} (hp : p.IsValid) (hr : r.IsValid) :
    p.allows r = true ↔ p.display = r.display ∨
      p.display.toList = p.stem ++ ['*'] ∧ p.stem <+: r.display.toList := by
  have hend : ∀ (q : SecretRef) (text : List Char), q.IsValid → q.display.toList ≠ text ++ ['*'] := by
    intro q text hq heq
    obtain ⟨before, c, htext, -, hstar⟩ := SecretRef.display_concat hq
    rw [htext] at heq
    exact hstar (List.cons.inj (List.append_inj' heq rfl).2).1
  cases p with
  | exact q =>
    have hnot : ¬ (display (.exact q)).toList = stem (.exact q) ++ ['*'] := hend q _ hp
    simp only [allows, decide_eq_true_eq, hnot, false_and, or_false]
    refine ⟨fun h => by rw [h]; rfl, fun h => ?_⟩
    have hq := SecretRef.fromStr_eq_ok_iff.mpr ⟨hp, rfl⟩
    have hr' := SecretRef.fromStr_eq_ok_iff.mpr ⟨hr, rfl⟩
    rw [← h] at hr'
    exact Except.ok.inj (hq.symm.trans hr')
  | under prefixes =>
    obtain ⟨hne, -, hslugs⟩ := hp
    have htext : (display (.under prefixes)).toList = stem (.under prefixes) ++ ['*'] := by
      rw [stem_under hne, display_under_eq hne]
    have hnot : ¬ display (.under prefixes) = r.display := by
      intro h
      rw [h] at htext
      exact hend r _ hr htext
    simp only [hnot, htext, true_and, false_or, allows]
    have hplaces : r.display.toList =
        scheme ++ (r.places.flatMap (fun p => p.toList ++ ['/']) ++ r.key.toList) := by
      rw [SecretRef.display_toList, SecretRef.segments, ← flatMap_append_eq_intercalate,
        List.flatMap_map]
    rw [stem_under hne, hplaces, List.prefix_append_right_inj,
      flatMap_prefix_iff (fun p hp => (validSlug_chars (hslugs p hp)).2.1)
        (fun p hp => (validSlug_chars (hr.1 p hp)).2.1) (validKey_chars hr.2).2.1]

end ScopePattern

/-- A text is the beginning of another one up to the end of a segment, or all of it. -/
def EndsSegment (start text : List Char) : Prop :=
  ∃ rest, text = start ++ rest ∧
    (rest = [] ∨ rest.head? = some '/' ∨ start.getLast? = some '/')

/-- **Scope patterns and places.** A pattern is read back as it is written, also by a person who
names a place; it covers the references whose text is its own, or begins with its own up to the
wildcard. -/
theorem scope_patterns {p : ScopePattern} (hp : p.IsValid) :
    ScopePattern.fromStr p.display = .ok p ∧ ScopePattern.parsePlace p.display = .ok p ∧
    ∀ r : SecretRef, r.IsValid → (p.allows r = true ↔ p.display = r.display ∨
      p.display.toList = p.stem ++ ['*'] ∧ p.stem <+: r.display.toList) :=
  ⟨ScopePattern.fromStr_display hp, ScopePattern.parsePlace_display hp,
    fun _ hr => ScopePattern.allows_iff hp hr⟩

/-- A place of one project and one environment. -/
theorem scope_patterns_environment :
    ScopePattern.fromStr (ScopePattern.display (.under ["web", "dev"])) =
      .ok (.under ["web", "dev"]) :=
  (scope_patterns (p := .under ["web", "dev"]) (by decide)).1

/-- The pattern of one secret does not cover a folder of that name. -/
theorem scope_pattern_not_segments :
    ¬ ∀ (p : ScopePattern) (r : SecretRef), p.IsValid → r.IsValid →
      (p.allows r = true ↔ EndsSegment p.stem r.display.toList) := by
  intro h
  let p : ScopePattern := .exact ⟨"web", "dev", none, "pay"⟩
  let r : SecretRef := ⟨"web", "dev", some "pay", "KEY"⟩
  have hp : p.IsValid := by decide
  have hr : r.IsValid := by decide
  have hallows : p.allows r = true := by
    rw [h p r hp hr, ScopePattern.stem_exact hp]
    refine ⟨"/KEY".toList, ?_, Or.inr (Or.inl rfl)⟩
    decide
  exact absurd hallows (by decide)

end Zvault.Agents
