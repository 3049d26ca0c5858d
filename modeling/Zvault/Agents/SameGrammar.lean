import Zvault.Agents.Reference
import Zvault.ProjectSync.SecretPath
import Zvault.Text.AsciiCase

/-!
# One grammar for secret paths

What agents ask for is parsed by `reference.rs`, what the apps show by
`projects.ts`. Their rules are written differently: bytes and UTF-16 code units
count the same in what both accept, and slugs have single dashes between their
words when they have none at an end and no two in a row.
-/

namespace Zvault.Agents

open Text ProjectSync

/-- Letters and digits are ASCII. -/
theorem toNat_lt_of_isAlphanum {c : Char} (h : c.isAlphanum = true) : c.toNat < 128 := by
  have h := (isAlphanum_iff c).mp h
  omega

theorem not_isDigit_of_isAlpha {c : Char} (h : c.isAlpha = true) : c.isDigit = false := by
  have h := (isAlpha_iff c).mp h
  rw [Bool.eq_false_iff, ne_eq, isDigit_iff]
  omega

/-- Characters of ASCII are a byte each. -/
theorem length_eq_utf8ByteSize {s : String} (h : ∀ c ∈ s.toList, c.toNat < 128) :
    s.length = s.utf8ByteSize := by
  have hlist : ∀ cs : List Char, (∀ c ∈ cs, c.toNat < 128) →
      cs.length = (String.ofList cs).utf8ByteSize := by
    intro cs
    induction cs with
    | nil =>
      intro _
      rfl
    | cons c cs ih =>
      intro hcs
      have hc := hcs c List.mem_cons_self
      have hcons : String.ofList (c :: cs) = String.singleton c ++ String.ofList cs := by
        rw [String.singleton_eq_ofList, ← String.ofList_append]
        rfl
      have hone : c.utf8Size = 1 := by
        have hval : c.val.toNat = c.toNat := rfl
        have hbound : (127 : UInt32).toNat = 127 := rfl
        rw [Char.utf8Size_eq_one_iff, UInt32.le_iff_toNat_le]
        omega
      rw [List.length_cons, ih fun d hd => hcs d (List.mem_cons_of_mem _ hd), hcons,
        String.utf8ByteSize_append, String.utf8ByteSize_singleton, hone, Nat.add_comm]
  have hs := hlist s.toList h
  rwa [String.length_toList, String.ofList_toList] at hs

theorem length_pos_iff {s : String} : 1 ≤ s.length ↔ s.toList ≠ [] := by
  rw [← String.length_toList]
  exact List.length_pos_iff

/-- Slugs of words and single dashes. -/
theorem validSlug_iff {s : String} : validSlug s = true ↔ IsSlug s := by
  have hparts : (∀ part ∈ s.toList.splitOn '-', part ≠ [] ∧ part.all isSlugChar) ↔
      (s.toList ≠ [] ∧ s.toList.head? ≠ some '-' ∧ s.toList.getLast? ≠ some '-' ∧
        ¬ ['-', '-'] <:+: s.toList) ∧ ∀ c ∈ s.toList, c ≠ '-' → isSlugChar c = true := by
    rw [← forall_splitOn_ne_nil_iff, ← forall_splitOn_forall_iff]
    simp only [List.all_eq_true]
    exact ⟨fun h => ⟨fun part hpart => (h part hpart).1, fun part hpart => (h part hpart).2⟩,
      fun h part hpart => ⟨h.1 part hpart, h.2 part hpart⟩⟩
  have hchars : (s.toList.all fun c => c.isLower || c.isDigit || c == '-') = true ↔
      ∀ c ∈ s.toList, c ≠ '-' → isSlugChar c = true := by
    rw [List.all_eq_true]
    refine forall₂_congr fun c _ => ?_
    by_cases hc : c = '-'
    · simp [hc]
    · simp [isSlugChar, hc]
  have hlength : (∀ c ∈ s.toList, c ≠ '-' → isSlugChar c = true) →
      s.length = s.utf8ByteSize := by
    refine fun hall => length_eq_utf8ByteSize fun c hc => ?_
    by_cases hdash : c = '-'
    · rw [hdash]
      decide
    · have hslug := hall c hc hdash
      refine toNat_lt_of_isAlphanum ?_
      simp only [isSlugChar, Bool.or_eq_true, isLower_iff, isDigit_iff] at hslug
      rw [isAlphanum_iff]
      omega
  have hempty : s ≠ "" ↔ s.toList ≠ [] :=
    not_congr ⟨fun h => by rw [h]; rfl, fun h => String.toList_injective h⟩
  rw [IsSlug, IsWithin, length_pos_iff, hparts, validSlug, decide_eq_true_iff, hchars, hempty]
  constructor
  · rintro ⟨hne, hsize, hhead, hlast, hdouble, hall⟩
    exact ⟨⟨hne, (hlength hall).trans_le hsize⟩, ⟨hne, hhead, hlast, hdouble⟩, hall⟩
  · rintro ⟨⟨hne, hsize⟩, ⟨-, hhead, hlast, hdouble⟩, hall⟩
    exact ⟨hne, (hlength hall).symm.trans_le hsize, hhead, hlast, hdouble, hall⟩

theorem validKey_iff {s : String} : validKey s = true ↔ IsSecretKeyName s := by
  rw [IsSecretKeyName, IsWithin, length_pos_iff]
  have hlength : (∀ c ∈ s.toList, (c.isAlphanum || c == '_') = true) →
      s.length = s.utf8ByteSize := by
    refine fun hall => length_eq_utf8ByteSize fun c hc => ?_
    rcases Bool.or_eq_true_iff.mp (hall c hc) with h | h
    · exact toNat_lt_of_isAlphanum h
    · rw [beq_iff_eq.mp h]
      decide
  rw [List.all_eq_true, validKey, Bool.and_eq_true, decide_eq_true_iff]
  cases hs : s.toList with
  | nil => simp
  | cons c cs =>
    have hfirst : (c.isAlpha || c == '_') = true ↔
        (c.isAlphanum || c == '_') = true ∧ (!c.isDigit) = true := by
      by_cases hc : c = '_'
      · subst hc
        decide
      · have halpha := not_isDigit_of_isAlpha (c := c)
        have halphanum : c.isAlphanum = (c.isAlpha || c.isDigit) := rfl
        cases ha : c.isAlpha <;> cases hd : c.isDigit <;> simp_all
    rw [hs] at hlength
    dsimp only
    rw [Bool.and_eq_true, hfirst, List.forall_mem_cons, List.all_eq_true, List.head?_cons,
      Option.all_some]
    constructor
    · rintro ⟨hsize, ⟨hc, hdigit⟩, hcs⟩
      have hall : ∀ d ∈ c :: cs, (d.isAlphanum || d == '_') = true :=
        List.forall_mem_cons.mpr ⟨hc, hcs⟩
      exact ⟨⟨List.cons_ne_nil _ _, (hlength hall).trans_le hsize⟩, ⟨hc, hcs⟩, hdigit⟩
    · rintro ⟨⟨-, hsize⟩, ⟨hc, hcs⟩, hdigit⟩
      have hall : ∀ d ∈ c :: cs, (d.isAlphanum || d == '_') = true :=
        List.forall_mem_cons.mpr ⟨hc, hcs⟩
      exact ⟨(hlength hall).symm.trans_le hsize, ⟨hc, hdigit⟩, hcs⟩

namespace SecretRef

/-- The parts of a path. -/
def toSecretPath (r : SecretRef) : SecretPath := ⟨r.project, r.environment, r.folder, r.key⟩

theorem isValid_iff (r : SecretRef) : r.IsValid ↔ r.toSecretPath.IsValid := by
  simp only [IsValid, SecretPath.IsValid, toSecretPath, places, validSlug_iff, validKey_iff,
    List.mem_cons, Option.mem_toList, forall_eq_or_imp, and_assoc, Option.mem_def]

theorem IsValid.format_eq {r : SecretRef} (h : r.IsValid) :
    formatSecretPath r.toSecretPath = r.display := by
  refine String.toList_injective ?_
  have hfolder : ∀ f ∈ r.toSecretPath.folder, f ≠ "" := by
    rintro f hf rfl
    exact (((isValid_iff r).mp h).2.2.1 "" hf).isSegment.1 rfl
  rw [formatSecretPath_toList hfolder, display_toList]
  cases hf : r.folder <;> simp [scheme, segments, places, toSecretPath, ProjectSync.segments, hf]

end SecretRef

/-- **One grammar for secret paths.** Both parsers accept the same strings, as paths of the same
parts; and each accepts exactly the strings that paths with valid parts are written as. -/
theorem same_grammar (s : String) :
    (SecretRef.fromStr s).toOption.map SecretRef.toSecretPath = parseSecretPath s ∧
    (∀ r, SecretRef.fromStr s = .ok r ↔ r.IsValid ∧ r.display = s) ∧
    ∀ p, parseSecretPath s = some p ↔ p.IsValid ∧ formatSecretPath p = s := by
  refine ⟨?_, fun r => SecretRef.fromStr_eq_ok_iff, fun p => parseSecretPath_eq_some_iff⟩
  refine Option.ext fun p => ?_
  rw [parseSecretPath_eq_some_iff, Option.map_eq_some_iff]
  constructor
  · rintro ⟨r, hr, rfl⟩
    have hok : SecretRef.fromStr s = .ok r := by
      cases hs : SecretRef.fromStr s with
      | error e =>
        rw [hs] at hr
        cases hr
      | ok r' =>
        rw [hs] at hr
        cases hr
        rfl
    obtain ⟨hvalid, rfl⟩ := SecretRef.fromStr_eq_ok_iff.mp hok
    exact ⟨(SecretRef.isValid_iff r).mp hvalid, hvalid.format_eq⟩
  · rintro ⟨hvalid, rfl⟩
    let r : SecretRef := ⟨p.project, p.environment, p.folder, p.key⟩
    have hr : r.IsValid := (SecretRef.isValid_iff r).mpr hvalid
    have hok : SecretRef.fromStr (formatSecretPath p) = .ok r :=
      SecretRef.fromStr_eq_ok_iff.mpr ⟨hr, hr.format_eq.symm⟩
    exact ⟨r, by rw [hok]; rfl, rfl⟩

end Zvault.Agents
