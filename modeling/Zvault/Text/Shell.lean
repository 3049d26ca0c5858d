import Mathlib.Data.List.Induction
import Zvault.Text.AsciiCase
import Zvault.Text.Separated

/-!
# Simple commands of a POSIX shell

The words of a text of simple commands, as a POSIX shell recognizes them: quotes and
backslashes are removed, blanks end a word, and a newline or a semicolon ends a
command. Text with an operator, an expansion or a pattern outside single quotes, or
with a NUL, is not read at all.
-/

namespace Shell

abbrev Word := List Char

/-- What a character does outside quotes. -/
inductive Kind where
  | blank
  | separator
  | singleQuote
  | doubleQuote
  | backslash
  | hash
  | special
  | ordinary
  deriving DecidableEq, Repr

/-- Characters that begin an operator, a redirection, an expansion, a pattern or a group. -/
def specials : List Char :=
  ['&', '|', '<', '>', '(', ')', '$', '`', '*', '?', '[', '~', '{', '}', '!', '\x00']

def kind (c : Char) : Kind :=
  if c = ' ' ∨ c = '\t' then .blank
  else if c = '\n' ∨ c = ';' then .separator
  else if c = '\'' then .singleQuote
  else if c = '"' then .doubleQuote
  else if c = '\\' then .backslash
  else if c = '#' then .hash
  else if c ∈ specials then .special
  else .ordinary

inductive Mode where
  | plain
  | escaped
  | single
  | double
  | doubleEscaped
  | comment
  deriving DecidableEq, Repr

/-- What has been read: the commands that have ended, the words of the command that is read, and the
word that is read, if one has begun. -/
structure Reader where
  mode : Mode
  word : Option Word
  words : List Word
  commands : List (List Word)
  deriving DecidableEq, Repr

namespace Reader

def start : Reader := ⟨.plain, none, [], []⟩

/-- The word goes on, or begins. -/
def add (s : Reader) (mode : Mode) (text : Word) : Reader :=
  { s with mode, word := some (s.word.getD [] ++ text) }

def endWord (s : Reader) : Reader := { s with word := none, words := s.words ++ s.word.toList }

/-- A command ends. One without words is none. -/
def endCommand (s : Reader) : Reader :=
  let s := s.endWord
  if s.words = [] then { s with mode := .plain }
  else ⟨.plain, none, [], s.commands ++ [s.words]⟩

/-- A character outside quotes. -/
def readPlain (s : Reader) (c : Char) : Option Reader :=
  match kind c with
  | .blank => some s.endWord
  | .separator => some s.endCommand
  | .singleQuote => some (s.add .single [])
  | .doubleQuote => some (s.add .double [])
  | .backslash => some { s with mode := .escaped }
  | .hash => if s.word = none then some { s with mode := .comment } else some (s.add .plain [c])
  | .special => none
  | .ordinary => some (s.add .plain [c])

def read (s : Reader) (c : Char) : Option Reader :=
  if c = '\x00' then none
  else
    match s.mode with
    | .plain => s.readPlain c
    -- a backslash and a newline join two lines
    | .escaped => if c = '\n' then some { s with mode := .plain } else some (s.add .plain [c])
    | .single => if c = '\'' then some { s with mode := .plain } else some (s.add .single [c])
    | .double =>
      if c = '"' then some { s with mode := .plain }
      else if c = '\\' then some { s with mode := .doubleEscaped }
      else if c = '$' ∨ c = '`' then none
      else some (s.add .double [c])
    | .doubleEscaped =>
      if c = '\n' then some { s with mode := .double }
      else if c ∈ ['$', '`', '"', '\\'] then some (s.add .double [c])
      else some (s.add .double ['\\', c])
    | .comment => if c = '\n' then some s.endCommand else some s

/-- The end of the text ends the last command. Quotes must be closed. -/
def finish (s : Reader) : Option (List (List Word)) :=
  if s.mode = .plain ∨ s.mode = .comment then some s.endCommand.commands else none

end Reader

/-- The commands of a text, each as its words. -/
def commands (text : List Char) : Option (List (List Word)) :=
  (text.foldlM Reader.read Reader.start).bind Reader.finish

/-- A name of a variable. -/
def isName : List Char → Bool
  | [] => false
  | c :: cs => (c.isAlpha || c == '_') && cs.all fun c => c.isAlphanum || c == '_'

/-- A character of a name. -/
def isNameChar (c : Char) : Bool := c.isAlphanum || c == '_'

theorem isNameChar_of_isName {name : List Char} (h : isName name = true) :
    ∀ c ∈ name, isNameChar c = true := by
  cases name with
  | nil => cases h
  | cons c cs =>
    obtain ⟨hfirst, hrest⟩ := Bool.and_eq_true_iff.mp h
    refine List.forall_mem_cons.mpr ⟨?_, List.all_eq_true.mp hrest⟩
    rcases Bool.or_eq_true_iff.mp hfirst with hc | hc
    · have halpha := (Text.isAlpha_iff c).mp hc
      exact Bool.or_eq_true_iff.mpr (Or.inl ((Text.isAlphanum_iff c).mpr (Or.inl halpha)))
    · exact Bool.or_eq_true_iff.mpr (Or.inr hc)

theorem ne_of_isNameChar {c d : Char} (hc : isNameChar c = true) (hd : isNameChar d = false) :
    c ≠ d := by
  rintro rfl
  rw [hc] at hd
  cases hd

theorem kind_of_isNameChar {c : Char} (hc : isNameChar c = true) : kind c = .ordinary := by
  have hne : ∀ {d : Char}, isNameChar d = false → c ≠ d := ne_of_isNameChar hc
  unfold kind
  rw [if_neg (not_or.mpr ⟨hne (by decide), hne (by decide)⟩),
    if_neg (not_or.mpr ⟨hne (by decide), hne (by decide)⟩), if_neg (hne (by decide)),
    if_neg (hne (by decide)), if_neg (hne (by decide)), if_neg (hne (by decide)), if_neg]
  intro hmem
  have hspecial : ∀ d ∈ specials, isNameChar d = false := Text.forall_mem_of_all (by decide)
  exact hne (hspecial c hmem) rfl

namespace Reader

/-- Ordinary characters go on with the word. -/
theorem foldlM_ordinary {s : Reader} (hmode : s.mode = .plain) {text : Word} (hne : text ≠ [])
    (htext : ∀ c ∈ text, kind c = .ordinary) :
    text.foldlM read s = some (s.add .plain text) := by
  induction text using List.reverseRecOn with
  | nil => exact absurd rfl hne
  | append_singleton text c ih =>
    have hc := htext c (List.mem_append_right _ (List.mem_singleton_self c))
    have hzero : c ≠ '\x00' := by
      rintro rfl
      exact absurd hc (by decide)
    rw [List.foldlM_append]
    cases htext? : text with
    | nil =>
      simp [read, hmode, readPlain, hc, hzero]
    | cons d rest =>
      rw [← htext?, ih (by simp [htext?]) fun c hc => htext c (List.mem_append_left _ hc)]
      simp [read, readPlain, hc, hzero, add]

/-- What stands between single quotes is kept, with a quote written as `'\''`. -/
theorem foldlM_single {s : Reader} {text : Word} (hmode : s.mode = .single)
    (hword : s.word ≠ none) (hzero : '\x00' ∉ text) :
    (text.flatMap fun c => if c = '\'' then "'\\''".toList else [c]).foldlM read s =
      some (s.add .single text) := by
  induction text generalizing s with
  | nil =>
    obtain ⟨mode, word, words, commands⟩ := s
    cases word with
    | none => exact absurd rfl hword
    | some word =>
      cases hmode
      simp [add]
  | cons c text ih =>
    obtain ⟨hc, htext⟩ := not_or.mp (mt List.mem_cons.mpr hzero)
    have hone : (if c = '\'' then "'\\''".toList else [c]).foldlM read s =
        some (s.add .single [c]) := by
      obtain ⟨mode, word, words, commands⟩ := s
      cases hmode
      split_ifs with hquote
      · subst hquote
        cases word with
        | none => exact absurd rfl hword
        | some word =>
          have hbackslash : kind '\\' = .backslash := by decide
          have hsingle : kind '\'' = .singleQuote := by decide
          have hquotes : "'\\''".toList = ['\'', '\\', '\'', '\''] := by decide
          simp [hquotes, read, readPlain, hbackslash, hsingle, add]
      · simp [read, hquote, Ne.symm hc]
    rw [List.flatMap_cons, List.foldlM_append, hone, Option.bind_eq_bind, Option.bind_some,
      ih rfl (by simp [add]) htext]
    simp [add]

end Reader

example : commands "export A='it'\\''s $HOME'; echo hi # there\n".toList =
    some [["export".toList, "A=it's $HOME".toList], ["echo".toList, "hi".toList]] := by decide

end Shell

/-! ### Lines of a `.env` file

A reader of variables that are written one on a line between double quotes. It
undoes the escapes of a backslash, a quote, a dollar, a newline and a carriage
return, and no others. -/

namespace Dotenv

/-- What an escape stands for. -/
def unescape : Char → Option Char
  | '\\' => some '\\'
  | '"' => some '"'
  | '$' => some '$'
  | 'n' => some '\n'
  | 'r' => some '\r'
  | _ => none

/-- A value up to the quote that closes it, which ends the line. A dollar that is not escaped begins
an expansion, and is not read. -/
def readValue : List Char → Option (List Char)
  | ['"'] => some []
  | '\\' :: c :: rest =>
    match unescape c with
    | some d => (readValue rest).map (d :: ·)
    | none => (readValue rest).map ('\\' :: c :: ·)
  | c :: rest => if c = '"' ∨ c = '$' ∨ c = '\\' then none else (readValue rest).map (c :: ·)
  | [] => none

/-- The variable of a line. -/
def readLine (line : List Char) : Option (List Char × List Char) :=
  match Text.splitOnce '=' line with
  | some (name, '"' :: rest) =>
    if Shell.isName name then (readValue rest).map fun value => (name, value) else none
  | _ => none

/-- The lines of a text that ends each of them with a newline. -/
def lines (text : List Char) : List (List Char) := (text.splitOn '\n').dropLast

/-- The variables of a text, each on its own line. -/
def readAll (text : List Char) : Option (List (List Char × List Char)) :=
  (lines text).mapM readLine

/-- A text of lines without newlines. -/
theorem lines_flatMap {α : Type*} (line : α → List Char) (vars : List α)
    (h : ∀ a ∈ vars, '\n' ∉ line a) :
    lines (vars.flatMap fun a => line a ++ ['\n']) = vars.map line := by
  unfold lines
  induction vars with
  | nil => rfl
  | cons a vars ih =>
    obtain ⟨ha, hvars⟩ := List.forall_mem_cons.mp h
    rw [List.flatMap_cons, List.append_assoc, List.singleton_append,
      List.splitOn_append_cons_self_of_not_mem ha,
      List.dropLast_cons_of_ne_nil (List.splitOn_ne_nil _ _), ih hvars, List.map_cons]

/-- A value whose characters are escaped where the reader undoes it. -/
theorem readValue_flatMap {escape : Char → List Char}
    (hescape : ∀ c, (∃ e, escape c = ['\\', e] ∧ unescape e = some c) ∨
      (escape c = [c] ∧ c ≠ '"' ∧ c ≠ '$' ∧ c ≠ '\\')) (value : List Char) :
    readValue (value.flatMap escape ++ ['"']) = some value := by
  induction value with
  | nil => rfl
  | cons c value ih =>
    rw [List.flatMap_cons, List.append_assoc]
    rcases hescape c with ⟨e, hc, he⟩ | ⟨hc, hquote, hdollar, hbackslash⟩
    · rw [hc, List.cons_append, List.singleton_append, readValue, he, ih]
      rfl
    · rw [hc, List.singleton_append, readValue.eq_3, if_neg, ih, Option.map_some]
      · exact not_or.mpr ⟨hquote, not_or.mpr ⟨hdollar, hbackslash⟩⟩
      · rintro ⟨⟩
        exact absurd rfl hquote
      · rintro d rest ⟨⟩
        exact absurd rfl hbackslash

end Dotenv
