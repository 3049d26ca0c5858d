import Mathlib.Data.List.Nodup
import Zvault.Agents.Reference
import Zvault.Text.Shell

/-!
# What `zv env` prints

`env` and `env_names` of `format.rs`. The output is read back by the rules of `.env`
files and of a shell exactly when every key is the name of a variable, which a key
that comes out of a token's metadata need not be.
-/

namespace Zvault.Cli

open Agents (SecretRef)

inductive EnvFormat where
  | dotenv
  | shell
  | json
  deriving DecidableEq, Repr

/-- The escapes of the dotenv format. -/
def escapeDotenv : Char → List Char
  | '\\' => ['\\', '\\']
  | '"' => ['\\', '"']
  | '$' => ['\\', '$']
  | '\n' => ['\\', 'n']
  | '\r' => ['\\', 'r']
  | c => [c]

/-- `{k}="{escaped}"`. -/
def dotenvLine (k v : List Char) : List Char := k ++ ("=\"".toList ++ (v.flatMap escapeDotenv ++ ['"']))

/-- `export {k}='{}'`, with every quote of the value closed, escaped and opened again. -/
def shellLine (k v : List Char) : List Char :=
  "export ".toList ++ (k ++ ("='".toList ++
    ((v.flatMap fun c => if c = '\'' then "'\\''".toList else [c]) ++ "'\n".toList)))

def dotenvText (vars : List (List Char × List Char)) : List Char :=
  vars.flatMap fun p => dotenvLine p.1 p.2 ++ ['\n']

def shellText (vars : List (List Char × List Char)) : List Char :=
  vars.flatMap fun p => shellLine p.1 p.2

/-- `env`. A JSON object is written by `serde_json`. -/
def env (prettyJson : List (List Char × List Char) → List Char) (vars : List (List Char × List Char)) :
    EnvFormat → List Char
  | .dotenv => dotenvText vars
  | .shell => shellText vars
  | .json => prettyJson vars ++ ['\n']

/-- `SecretRef::env_name`. -/
def envName (r : SecretRef) : String := r.key

/-- One round of the loop of `env_names`. -/
def nameNext (seen : List (String × SecretRef)) (r : SecretRef) :
    Except String (List (String × SecretRef)) :=
  match seen.find? fun (n, _) => n = envName r with
  | some (_, other) =>
    .error (other.display ++ " and " ++ r.display ++ " would both be " ++ envName r)
  | none => .ok (seen ++ [(envName r, r)])

/-- `env_names`. -/
def envNames (refs : List SecretRef) : Except String (List String) :=
  (refs.foldlM nameNext []).map (List.map Prod.fst)

/-- The assignment that an `export` makes. -/
def exported : List Shell.Word → Option (List Char × List Char)
  | [command, word] =>
    match Text.splitOnce '=' word with
    | some (name, value) =>
      if command = "export".toList ∧ Shell.isName name then some (name, value) else none
    | none => none
  | _ => none

/-- The assignments of a text that consists of `export`s only. -/
def assignments (text : List Char) : Option (List (List Char × List Char)) :=
  (Shell.commands text).bind (List.mapM exported)

/-- The output of both formats is read back as the variables it was made of, one on each line. -/
def ReadBack (vars : List (List Char × List Char)) : Prop :=
  ∀ prettyJson, Dotenv.readAll (env prettyJson vars .dotenv) = some vars ∧
    '\r' ∉ env prettyJson vars .dotenv ∧ assignments (env prettyJson vars .shell) = some vars

/-- Names that are accepted are the keys, each once. -/
theorem envNames_eq_ok {refs : List SecretRef} {names : List String} (h : envNames refs = .ok names) :
    names = refs.map envName ∧ names.Nodup := by
  obtain ⟨seen, hseen, rfl⟩ := Fallible.map_eq_ok.mp h
  have hfold : ∀ (refs : List SecretRef) (before seen : List (String × SecretRef)),
      refs.foldlM nameNext before = .ok seen → (before.map Prod.fst).Nodup →
        seen.map Prod.fst = before.map Prod.fst ++ refs.map envName ∧ (seen.map Prod.fst).Nodup := by
    intro refs
    induction refs with
    | nil =>
      intro before seen hseen hnodup
      cases hseen
      simp [hnodup]
    | cons r refs ih =>
      intro before seen hseen hnodup
      rw [List.foldlM_cons] at hseen
      obtain ⟨next, hnext, hseen⟩ := Fallible.bind_eq_ok.mp hseen
      unfold nameNext at hnext
      split at hnext
      · cases hnext
      · rename_i hfree
        cases hnext
        have hnew : envName r ∉ before.map Prod.fst := by
          intro hmem
          obtain ⟨p, hp, hname⟩ := List.mem_map.mp hmem
          have hne := List.find?_eq_none.mp hfree p hp
          simp [hname] at hne
        have hnodup' : ((before ++ [(envName r, r)]).map Prod.fst).Nodup := by
          rw [List.map_append, List.nodup_append]
          refine ⟨hnodup, List.nodup_singleton _, ?_⟩
          intro n hn m hm
          rw [List.mem_singleton.mp hm]
          rintro rfl
          exact hnew hn
        obtain ⟨hsame, hnodup⟩ := ih _ seen hseen hnodup'
        refine ⟨?_, hnodup⟩
        rw [hsame, List.map_append, List.append_assoc]
        rfl
  obtain ⟨hsame, hnodup⟩ := hfold refs [] seen hseen List.nodup_nil
  exact ⟨hsame, hnodup⟩

theorem escapeDotenv_spec (c : Char) :
    (∃ e, escapeDotenv c = ['\\', e] ∧ Dotenv.unescape e = some c) ∨
      (escapeDotenv c = [c] ∧ c ≠ '"' ∧ c ≠ '$' ∧ c ≠ '\\') := by
  unfold escapeDotenv
  split
  · exact Or.inl ⟨_, rfl, rfl⟩
  · exact Or.inl ⟨_, rfl, rfl⟩
  · exact Or.inl ⟨_, rfl, rfl⟩
  · exact Or.inl ⟨_, rfl, rfl⟩
  · exact Or.inl ⟨_, rfl, rfl⟩
  · rename_i hbackslash hquote hdollar _ _
    exact Or.inr ⟨rfl, hquote, hdollar, hbackslash⟩

/-- No character is written as a line break. -/
theorem not_mem_escapeDotenv {d : Char} (hd : d = '\n' ∨ d = '\r') (c : Char) :
    d ∉ escapeDotenv c := by
  rcases hd with rfl | rfl
  · unfold escapeDotenv
    split <;> simp_all [eq_comm]
  · unfold escapeDotenv
    split <;> simp_all [eq_comm]

theorem not_mem_dotenvLine {d : Char} (hd : d = '\n' ∨ d = '\r') {k : List Char}
    (hk : Shell.isName k = true) (v : List Char) : d ∉ dotenvLine k v := by
  have hname : d ∉ k := fun hmem => by
    have hchar := Shell.isNameChar_of_isName hk d hmem
    rcases hd with rfl | rfl
    · exact absurd hchar (by decide)
    · exact absurd hchar (by decide)
  have hplain : d ∉ "=\"".toList ∧ d ∉ ['"'] := by
    rcases hd with rfl | rfl <;> decide
  simp only [dotenvLine, List.mem_append, not_or]
  refine ⟨hname, hplain.1, fun hmem => ?_, hplain.2⟩
  obtain ⟨c, -, hc⟩ := List.mem_flatMap.mp hmem
  exact not_mem_escapeDotenv hd c hc

/-- A name has no character of the syntax in it. -/
theorem not_mem_of_isName {k : List Char} (hk : Shell.isName k = true) {d : Char}
    (hd : Shell.isNameChar d = false) : d ∉ k :=
  fun hmem => Shell.ne_of_isNameChar (Shell.isNameChar_of_isName hk d hmem) hd rfl

theorem readLine_dotenvLine {k : List Char} (hk : Shell.isName k = true) (v : List Char) :
    Dotenv.readLine (dotenvLine k v) = some (k, v) := by
  have hsplit : dotenvLine k v = k ++ '=' :: ('"' :: (v.flatMap escapeDotenv ++ ['"'])) := rfl
  rw [hsplit, Dotenv.readLine, Text.splitOnce_append_cons (not_mem_of_isName hk (by decide))]
  change (if Shell.isName k = true then (Dotenv.readValue _).map fun value => (k, value) else none) = _
  rw [if_pos hk, Dotenv.readValue_flatMap escapeDotenv_spec]
  rfl

theorem readAll_dotenvText {vars : List (List Char × List Char)}
    (hnames : ∀ p ∈ vars, Shell.isName p.1 = true) :
    Dotenv.readAll (dotenvText vars) = some vars ∧ '\r' ∉ dotenvText vars := by
  have hlines : Dotenv.lines (dotenvText vars) = vars.map fun p => dotenvLine p.1 p.2 :=
    Dotenv.lines_flatMap (fun p : List Char × List Char => dotenvLine p.1 p.2) vars fun p hp =>
      not_mem_dotenvLine (Or.inl rfl) (hnames p hp) p.2
  constructor
  · rw [Dotenv.readAll, hlines]
    clear hlines
    induction vars with
    | nil => rfl
    | cons p vars ih =>
      obtain ⟨hp, hvars⟩ := List.forall_mem_cons.mp hnames
      rw [List.map_cons, List.mapM_cons, readLine_dotenvLine hp, ih hvars]
      rfl
  · intro hmem
    obtain ⟨p, hp, hr⟩ := List.mem_flatMap.mp hmem
    rcases List.mem_append.mp hr with hr | hr
    · exact not_mem_dotenvLine (Or.inr rfl) (hnames p hp) p.2 hr
    · exact absurd hr (by decide)

/-- One line of the shell output is one command. -/
theorem foldlM_shellLine {k v : List Char} (hk : Shell.isName k = true) (hv : '\x00' ∉ v)
    (commands : List (List Shell.Word)) :
    (shellLine k v).foldlM Shell.Reader.read ⟨.plain, none, [], commands⟩ =
      some ⟨.plain, none, [], commands ++ [["export".toList, k ++ '=' :: v]]⟩ := by
  have hline : shellLine k v = "export".toList ++ (' ' :: ((k ++ ['=']) ++ ('\'' ::
      ((v.flatMap fun c => if c = '\'' then "'\\''".toList else [c]) ++ ['\'', '\n'])))) := by
    rw [List.append_assoc k]
    rfl
  have hkey : ∀ c ∈ k ++ ['='], Shell.kind c = .ordinary := by
    intro c hc
    rcases List.mem_append.mp hc with hc | hc
    · exact Shell.kind_of_isNameChar (Shell.isNameChar_of_isName hk c hc)
    · rw [List.mem_singleton.mp hc]
      decide
  have hexport : ("export".toList).foldlM Shell.Reader.read ⟨.plain, none, [], commands⟩ =
      some ⟨.plain, some "export".toList, [], commands⟩ :=
    Shell.Reader.foldlM_ordinary rfl (by decide) (Text.forall_mem_of_all (by decide))
  have hname : (k ++ ['=']).foldlM Shell.Reader.read ⟨.plain, none, ["export".toList], commands⟩ =
      some ⟨.plain, some (k ++ ['=']), ["export".toList], commands⟩ :=
    Shell.Reader.foldlM_ordinary rfl (by simp) hkey
  let quoted : Shell.Reader := ⟨.single, some (k ++ ['='] ++ []), ["export".toList], commands⟩
  have hmode : quoted.mode = .single := rfl
  have hvalue := Shell.Reader.foldlM_single hmode (by simp [quoted]) hv
  have hblank : Shell.Reader.read ⟨.plain, some "export".toList, [], commands⟩ ' ' =
      some ⟨.plain, none, ["export".toList], commands⟩ := rfl
  have hquote : Shell.Reader.read ⟨.plain, some (k ++ ['=']), ["export".toList], commands⟩ '\'' =
      some ⟨.single, some (k ++ ['='] ++ []), ["export".toList], commands⟩ := rfl
  rw [hline, List.foldlM_append, hexport, Option.bind_eq_bind, Option.bind_some, List.foldlM_cons,
    hblank, Option.bind_eq_bind, Option.bind_some, List.foldlM_append, hname, Option.bind_eq_bind,
    Option.bind_some, List.foldlM_cons, hquote, Option.bind_eq_bind, Option.bind_some,
    List.foldlM_append, hvalue]
  have hend : (k ++ ['='] ++ []) ++ v = k ++ '=' :: v := by simp
  rw [← hend]
  rfl

theorem assignments_shellText {vars : List (List Char × List Char)}
    (hnames : ∀ p ∈ vars, Shell.isName p.1 = true) (hzero : ∀ p ∈ vars, '\x00' ∉ p.2) :
    assignments (shellText vars) = some vars := by
  have hcommands : Shell.commands (shellText vars) =
      some (vars.map fun p => ["export".toList, p.1 ++ '=' :: p.2]) := by
    have hfold : ∀ commands : List (List Shell.Word), (shellText vars).foldlM Shell.Reader.read
        ⟨.plain, none, [], commands⟩ = some ⟨.plain, none, [],
          commands ++ vars.map fun p => ["export".toList, p.1 ++ '=' :: p.2]⟩ := by
      unfold shellText
      induction vars with
      | nil => simp
      | cons p vars ih =>
        obtain ⟨hname, hnames⟩ := List.forall_mem_cons.mp hnames
        obtain ⟨hv, hzero⟩ := List.forall_mem_cons.mp hzero
        intro commands
        rw [List.flatMap_cons, List.foldlM_append, foldlM_shellLine hname hv, Option.bind_eq_bind,
          Option.bind_some, ih hnames hzero, List.append_assoc]
        rfl
    have hstart := hfold []
    rw [Shell.commands]
    change ((shellText vars).foldlM Shell.Reader.read ⟨.plain, none, [], []⟩).bind _ = _
    rw [hstart]
    rfl
  rw [assignments, hcommands, Option.bind_some]
  clear hcommands
  induction vars with
  | nil => rfl
  | cons p vars ih =>
    obtain ⟨hname, hnames⟩ := List.forall_mem_cons.mp hnames
    obtain ⟨-, hzero⟩ := List.forall_mem_cons.mp hzero
    have hsplit := Text.splitOnce_append_cons
      (not_mem_of_isName hname (by decide : Shell.isNameChar '=' = false)) p.2
    have hexported : exported ["export".toList, p.1 ++ '=' :: p.2] = some p := by
      simp only [exported, hsplit, hname, and_self, if_true]
    rw [List.map_cons, List.mapM_cons, hexported, ih hnames hzero]
    rfl

/-- What `zv env` prints for accepted references can be read back, whatever the values are, exactly
when every key is the name of a variable. -/
theorem env_read_back_iff {refs : List SecretRef} {names : List String} (h : envNames refs = .ok names) :
    ((∀ n ∈ names, Shell.isName n.toList = true) ∧ names.Nodup ∧
        ∀ values : List (List Char), values.length = names.length → (∀ v ∈ values, '\x00' ∉ v) →
          ReadBack ((names.map String.toList).zip values)) ↔
      ∀ r ∈ refs, Shell.isName r.key.toList = true := by
  obtain ⟨hsame, hnodup⟩ := envNames_eq_ok h
  have hkeys : (∀ n ∈ names, Shell.isName n.toList = true) ↔
      ∀ r ∈ refs, Shell.isName r.key.toList = true := by
    rw [hsame]
    exact List.forall_mem_map
  refine ⟨fun hread => hkeys.mp hread.1, fun hvalid => ?_⟩
  have hnames := hkeys.mpr hvalid
  refine ⟨hnames, hnodup, fun values _ hzero prettyJson => ?_⟩
  have hvars : ∀ p ∈ (names.map String.toList).zip values, Shell.isName p.1 = true := by
    intro p hp
    obtain ⟨n, hn, hname⟩ := List.mem_map.mp (List.of_mem_zip hp).1
    rw [← hname]
    exact hnames n hn
  obtain ⟨hdotenv, hbreaks⟩ := readAll_dotenvText hvars
  exact ⟨hdotenv, hbreaks, assignments_shellText hvars fun p hp => hzero p.2 (List.of_mem_zip hp).2⟩

theorem env_read_back_two :
    ReadBack (["DB_URL".toList, "API".toList].zip ["it's".toList, "$A\n".toList]) := by
  have hnames : envNames [⟨"w", "d", none, "DB_URL"⟩, ⟨"w", "d", none, "API"⟩] =
      .ok ["DB_URL", "API"] := rfl
  exact ((env_read_back_iff hnames).mpr (by decide)).2.2 _ rfl (by decide)

/-- A key that is no name of a variable is printed as it is: the shell runs what it says. -/
theorem env_runs_key :
    envNames [⟨"w", "d", none, "A;reboot;B"⟩] = .ok ["A;reboot;B"] ∧
      ∀ prettyJson, Shell.commands (env prettyJson [("A;reboot;B".toList, "v".toList)] .shell) =
        some [["export".toList, "A".toList], ["reboot".toList], ["B=v".toList]] :=
  ⟨rfl, fun _ => (by decide : Shell.commands (shellText [("A;reboot;B".toList, "v".toList)]) = _)⟩

end Zvault.Cli
