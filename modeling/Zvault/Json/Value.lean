import Mathlib.Algebra.Ring.Nat
import Mathlib.Data.Int.Notation
import Mathlib.Tactic.SplitIfs
import Zvault.Bytes.Labels

/-!
# JSON

Values, the text they are written as, and what a schema reads of them.
-/

namespace Json

inductive Value where
  | null
  | bool (b : Bool)
  | num (n : ℤ)
  | str (s : String)
  | arr (items : List Value)
  | obj (members : List (String × Value))

/-- A character inside a JSON string. -/
def escape (c : Char) : List Char :=
  if c = '"' then ['\\', '"']
  else if c = '\\' then ['\\', '\\']
  else if c.toNat = 0x08 then ['\\', 'b']
  else if c.toNat = 0x09 then ['\\', 't']
  else if c.toNat = 0x0A then ['\\', 'n']
  else if c.toNat = 0x0C then ['\\', 'f']
  else if c.toNat = 0x0D then ['\\', 'r']
  else if c.toNat < 0x20 then
    ['\\', 'u', '0', '0', (c.toNat / 16).digitChar, (c.toNat % 16).digitChar]
  else [c]

def quote (s : String) : List Char := '"' :: s.toList.flatMap escape ++ ['"']

mutual

/-- `JSON.stringify` and `serde_json::to_string`. -/
def Value.text : Value → List Char
  | .null => "null".toList
  | .bool b => if b then "true".toList else "false".toList
  | .num n => (toString n).toList
  | .str s => quote s
  | .arr items => '[' :: itemsText items ++ [']']
  | .obj members => '{' :: membersText members ++ ['}']

def itemsText : List Value → List Char
  | [] => []
  | [v] => v.text
  | v :: vs => v.text ++ ',' :: itemsText vs

def membersText : List (String × Value) → List Char
  | [] => []
  | [(key, v)] => quote key ++ ':' :: v.text
  | (key, v) :: ms => quote key ++ ':' :: v.text ++ ',' :: membersText ms

end

/-- The bytes of a text in UTF-8. -/
def bytes (cs : List Char) : ℕ := (cs.map Char.utf8Size).sum

/-- The value of a member of an object. -/
def Value.get (key : String) : Value → Option Value
  | .obj members => members.lookup key
  | _ => none

def Value.isObject : Value → Bool
  | .obj _ => true
  | _ => false

/-- The members with one set. -/
def setMember (key : String) (v : Value) : List (String × Value) → List (String × Value)
  | [] => [(key, v)]
  | (key', v') :: ms => if key = key' then (key, v) :: ms else (key', v') :: setMember key v ms

/-- An object with one member set. -/
def Value.set (w : Value) (key : String) (v : Value) : Value :=
  match w with
  | .obj members => .obj (setMember key v members)
  | other => other

def asString : Value → Option String
  | .str s => some s
  | _ => none

def asInt : Value → Option ℤ
  | .num n => some n
  | _ => none

def asStrings : Value → Option (List String)
  | .arr items => items.mapM asString
  | _ => none

/-- `Option<T>`: nothing is read of `null`. -/
def nullable {α : Type} (f : Value → Option α) : Value → Option (Option α)
  | .null => some none
  | v => (f v).map some

/-- A string member, left out when it is empty. -/
def unlessEmpty (key s : String) : List (String × Value) :=
  if s = "" then [] else [(key, .str s)]

/-- A member, left out when there is no value. -/
def unlessNone {α : Type} (key : String) (f : α → Value) (a : Option α) : List (String × Value) :=
  (a.map fun a => (key, f a)).toList

/-- What is read of a member that must be there. -/
def field {α : Type} (f : Value → Option α) (key : String) (v : Value) : Option α :=
  (v.get key).bind f

/-- What is read of a member that may be missing. -/
def optionalField {α : Type} (f : Value → Option α) (key : String) (v : Value) :
    Option (Option α) :=
  match v.get key with
  | none => some none
  | some v => (f v).map some

theorem lookup_cons {α : Type} (key key' : String) (a : α) (ms : List (String × α)) :
    List.lookup key ((key', a) :: ms) = if key = key' then some a else ms.lookup key := by
  rw [List.lookup_cons]
  by_cases h : key = key'
  · simp [h]
  · have hne : (key == key') = false := by simpa using h
    simp [h, hne]

theorem lookup_unlessNone {α : Type} (key key' : String) (f : α → Value) (a : Option α) :
    (unlessNone key' f a).lookup key = if key = key' then a.map f else none := by
  cases a <;> simp [unlessNone, lookup_cons]

theorem unlessEmpty_eq (key s : String) :
    unlessEmpty key s = unlessNone key .str (if s = "" then none else some s) := by
  by_cases h : s = "" <;> simp [unlessEmpty, unlessNone, h]

theorem field_obj {α : Type} (f : Value → Option α) (key : String)
    (ms : List (String × Value)) : field f key (.obj ms) = (ms.lookup key).bind f := rfl

/-- What is read of a member that was written from a value, if there was one. -/
theorem optionalField_obj {α : Type} {f : Value → Option α} {g : α → Value} {Fits : α → Prop}
    (hread : ∀ a b, f (g a) = some b ↔ Fits a ∧ a = b) {key : String}
    {ms : List (String × Value)} (written : Option α) (hlookup : ms.lookup key = written.map g)
    (a : Option α) :
    optionalField f key (.obj ms) = some a ↔ (∀ b ∈ written, Fits b) ∧ written = a := by
  cases written with
  | none => simp [optionalField, Value.get, hlookup]
  | some b =>
      simp only [optionalField, Value.get, hlookup, Option.map_some, Option.map_eq_some_iff, hread]
      constructor
      · rintro ⟨_, ⟨hfits, rfl⟩, rfl⟩
        exact ⟨fun _ hmem => by obtain rfl := Option.some_inj.mp hmem; exact hfits, rfl⟩
      · rintro ⟨hfits, rfl⟩
        exact ⟨b, ⟨hfits b rfl, rfl⟩, rfl⟩

/-- What is read of a member that has a default. -/
def fieldOr {α : Type} (default : α) (f : Value → Option α) (key : String) (v : Value) :
    Option α :=
  match v.get key with
  | none => some default
  | some v => f v

theorem lookup_setMember (key key' : String) (v : Value) (ms : List (String × Value)) :
    (setMember key v ms).lookup key' = if key' = key then some v else ms.lookup key' := by
  induction ms with
  | nil => simp [setMember, lookup_cons]
  | cons m ms ih =>
      obtain ⟨key'', v'⟩ := m
      by_cases hkey : key = key''
      · subst hkey
        simp only [setMember, if_true, lookup_cons]
        split_ifs <;> rfl
      · simp only [setMember, if_neg hkey, lookup_cons, ih]
        split_ifs with h h' <;> simp_all

/-- Setting a member changes no other. -/
theorem get_set_of_ne {key key' : String} (h : key' ≠ key) (v w : Value) :
    (w.set key v).get key' = w.get key' := by
  cases w <;> simp [Value.set, Value.get, lookup_setMember, h]

theorem get_set {w : Value} (h : w.isObject = true) (key : String) (v : Value) :
    (w.set key v).get key = some v := by
  cases w <;> simp_all [Value.set, Value.get, lookup_setMember, Value.isObject]

theorem field_set_of_ne {α : Type} {key key' : String} (h : key' ≠ key) (f : Value → Option α)
    (v w : Value) : field f key' (w.set key v) = field f key' w := by
  rw [field, get_set_of_ne h, field]

theorem fieldOr_set_of_ne {α : Type} {key key' : String} (h : key' ≠ key) (default : α)
    (f : Value → Option α) (v w : Value) :
    fieldOr default f key' (w.set key v) = fieldOr default f key' w := by
  rw [fieldOr, get_set_of_ne h, fieldOr]

theorem fieldOr_set {α : Type} {w : Value} (h : w.isObject = true) (default : α)
    (f : Value → Option α) (key : String) (v : Value) :
    fieldOr default f key (w.set key v) = f v := by
  rw [fieldOr, get_set h]

@[simp] theorem asStrings_map_str (ss : List String) :
    asStrings (.arr (ss.map .str)) = some ss := by
  induction ss with
  | nil => rfl
  | cons s ss ih =>
      simp only [asStrings, List.map_cons, List.mapM_cons, asString] at ih ⊢
      rw [ih]
      rfl

@[simp] theorem bytes_nil : bytes [] = 0 := rfl

@[simp] theorem bytes_cons (c : Char) (cs : List Char) :
    bytes (c :: cs) = c.utf8Size + bytes cs := rfl

@[simp] theorem bytes_append (cs ds : List Char) : bytes (cs ++ ds) = bytes cs + bytes ds := by
  simp [bytes]

/-- The bytes of a member and of the comma or brace before it. -/
def memberBytes (m : String × Value) : ℕ := bytes (quote m.1) + 2 + bytes m.2.text

theorem bytes_membersText (m : String × Value) (ms : List (String × Value)) :
    bytes (membersText (m :: ms)) + 1 = ((m :: ms).map memberBytes).sum := by
  induction ms generalizing m with
  | nil =>
      simp only [membersText, bytes_append, bytes_cons, List.map_cons, List.map_nil, List.sum_cons,
        List.sum_nil, memberBytes]
      have hcolon : ':'.utf8Size = 1 := by decide
      omega
  | cons next ms ih =>
      have hrest := ih next
      rw [List.map_cons, List.sum_cons, ← hrest]
      simp only [membersText, bytes_append, bytes_cons, memberBytes]
      have hcolon : ':'.utf8Size = 1 := by decide
      have hcomma : ','.utf8Size = 1 := by decide
      omega

/-- The bytes of an object that has members. -/
theorem bytes_obj {ms : List (String × Value)} (hms : ms ≠ []) :
    bytes (Value.obj ms).text = 1 + (ms.map memberBytes).sum := by
  obtain ⟨m, ms, rfl⟩ := List.exists_cons_of_ne_nil hms
  rw [← bytes_membersText, Value.text, bytes_append, bytes_cons]
  have hopen : '{'.utf8Size = 1 := by decide
  have hclose : bytes ['}'] = 1 := by decide
  omega

theorem bytes_itemsText (v : Value) (vs : List Value) :
    bytes (itemsText (v :: vs)) + 1 = ((v :: vs).map fun v => bytes v.text + 1).sum := by
  induction vs generalizing v with
  | nil => simp only [itemsText, List.map_cons, List.map_nil, List.sum_cons, List.sum_nil]; rfl
  | cons next vs ih =>
      have hrest := ih next
      rw [List.map_cons, List.sum_cons, ← hrest]
      simp only [itemsText, bytes_append, bytes_cons]
      have hcomma : ','.utf8Size = 1 := by decide
      omega

/-- The bytes of an array: each item with the comma or bracket before it, and at least the two
brackets. -/
theorem bytes_arr (vs : List Value) :
    bytes (Value.arr vs).text = max 2 (1 + (vs.map fun v => bytes v.text + 1).sum) := by
  have hopen : '['.utf8Size = 1 := by decide
  have hclose : bytes [']'] = 1 := by decide
  rw [Value.text, bytes_append, bytes_cons]
  cases vs with
  | nil => rfl
  | cons v vs =>
      rw [← bytes_itemsText]
      omega

theorem sum_memberBytes_unlessNone {α : Type} (key : String) (f : α → Value) (a : Option α) :
    ((unlessNone key f a).map memberBytes).sum =
      a.elim 0 fun a => bytes (quote key) + 2 + bytes (f a).text := by
  cases a <;> rfl

theorem bytes_escape_le (c : Char) : bytes (escape c) ≤ 6 := by
  have hdigit : ∀ n < 16, n.digitChar.utf8Size = 1 := by decide
  unfold escape
  repeat' split
  · decide
  · decide
  · decide
  · decide
  · decide
  · decide
  · decide
  · have hhigh := hdigit (c.toNat / 16) (by omega)
    have hlow := hdigit (c.toNat % 16) (by omega)
    have hplain : bytes ['\\', 'u', '0', '0'] = 4 := by decide
    have hsplit : bytes ['\\', 'u', '0', '0', (c.toNat / 16).digitChar, (c.toNat % 16).digitChar] =
        bytes ['\\', 'u', '0', '0'] + ((c.toNat / 16).digitChar.utf8Size +
          ((c.toNat % 16).digitChar.utf8Size + 0)) := by
      simp only [bytes_cons, bytes_nil, Nat.add_assoc, Nat.zero_add]
    omega
  · have hsize := c.utf8Size_le_four
    rw [bytes_cons, bytes_nil]
    omega

/-- A character that is written as it is. -/
theorem bytes_quote_replicate {c : Char} (hc : escape c = [c]) (n : ℕ) :
    bytes (quote (String.ofList (List.replicate n c))) = 2 + n * c.utf8Size := by
  have hmany : (List.replicate n c).flatMap escape = List.replicate n c := by
    induction n with
    | zero => rfl
    | succ n ih => rw [List.replicate_succ, List.flatMap_cons, ih, hc, List.singleton_append]
  have hquote : bytes ['"'] = 1 := by decide
  rw [quote, String.toList_ofList, hmany, bytes_append, bytes_cons, hquote]
  have hopen : '"'.utf8Size = 1 := by decide
  simp only [bytes, List.map_replicate, List.sum_replicate_nat]
  omega

/-! ### Reading what was written -/

section Readable

/-- The escapes of two characters. -/
def shortEscapes : List (Char × ℕ) :=
  [('"', 0x22), ('\\', 0x5C), ('b', 0x08), ('t', 0x09), ('n', 0x0A), ('f', 0x0C), ('r', 0x0D)]

theorem escape_cases (c : Char) :
    (escape c = [c] ∧ c ≠ '\\' ∧ c ≠ '"') ∨
    (∃ e ∈ shortEscapes, c.toNat = e.2 ∧ escape c = ['\\', e.1]) ∨
    c.toNat < 0x20 ∧ escape c =
      ['\\', 'u', '0', '0', (c.toNat / 16).digitChar, (c.toNat % 16).digitChar] := by
  unfold escape
  by_cases hquote : c = '"'
  · exact .inr (.inl ⟨('"', 0x22), by decide, congrArg Char.toNat hquote, if_pos hquote⟩)
  rw [if_neg hquote]
  by_cases hback : c = '\\'
  · exact .inr (.inl ⟨('\\', 0x5C), by decide, congrArg Char.toNat hback, if_pos hback⟩)
  rw [if_neg hback]
  by_cases hb : c.toNat = 0x08
  · exact .inr (.inl ⟨('b', 0x08), by decide, hb, if_pos hb⟩)
  rw [if_neg hb]
  by_cases ht : c.toNat = 0x09
  · exact .inr (.inl ⟨('t', 0x09), by decide, ht, if_pos ht⟩)
  rw [if_neg ht]
  by_cases hn : c.toNat = 0x0A
  · exact .inr (.inl ⟨('n', 0x0A), by decide, hn, if_pos hn⟩)
  rw [if_neg hn]
  by_cases hf : c.toNat = 0x0C
  · exact .inr (.inl ⟨('f', 0x0C), by decide, hf, if_pos hf⟩)
  rw [if_neg hf]
  by_cases hr : c.toNat = 0x0D
  · exact .inr (.inl ⟨('r', 0x0D), by decide, hr, if_pos hr⟩)
  rw [if_neg hr]
  by_cases hcontrol : c.toNat < 0x20
  · exact .inr (.inr ⟨hcontrol, if_pos hcontrol⟩)
  · exact .inl ⟨if_neg hcontrol, hback, hquote⟩

theorem digitChar_inj : ∀ i < 16, ∀ j < 16, i.digitChar = j.digitChar → i = j := by decide

/-- No escape is a prefix of another. -/
theorem prefixFree_escape : Bytes.PrefixFree escape := by
  intro c d h
  have hnot : ∀ a ∈ shortEscapes, a.1 ≠ 'u' := by decide
  rcases escape_cases c with ⟨hc, hback, -⟩ | ⟨e, he, hn, hc⟩ | ⟨hn, hc⟩ <;>
    rcases escape_cases d with ⟨hd, hback', -⟩ | ⟨e', he', hn', hd⟩ | ⟨hn', hd⟩ <;>
      rw [hc, hd] at h <;> obtain ⟨hhead, htail⟩ := List.cons_prefix_cons.mp h
  · exact hhead
  · exact absurd hhead hback
  · exact absurd hhead hback
  · exact absurd hhead.symm hback'
  · have hsame : ∀ a ∈ shortEscapes, ∀ b ∈ shortEscapes, a.1 = b.1 → a.2 = b.2 := by decide
    have heq := hsame e he e' he' (List.cons_prefix_cons.mp htail).1
    exact Char.toNat_inj.mp ((hn.trans heq).trans hn'.symm)
  · exact absurd (List.cons_prefix_cons.mp htail).1 (hnot e he)
  · exact absurd hhead.symm hback'
  · exact absurd (List.cons_prefix_cons.mp htail).1.symm (hnot e' he')
  · have hdigits := (List.prefix_append_right_inj ['u', '0', '0']).mp htail
    obtain ⟨hhi, hlow⟩ := List.cons_prefix_cons.mp hdigits
    have hhi := digitChar_inj _ (by omega) _ (by omega) hhi
    have hlo := digitChar_inj _ (by omega) _ (by omega) (List.cons_prefix_cons.mp hlow).1
    exact Char.toNat_inj.mp (by omega)

theorem escape_append_ne_quote (c : Char) (cs ds : List Char) : escape c ++ cs ≠ '"' :: ds := by
  rcases escape_cases c with ⟨hc, -, hquote⟩ | ⟨e, -, -, hc⟩ | ⟨-, hc⟩ <;> rw [hc] <;>
    intro h <;> injection h with hhead
  · exact hquote hhead
  · exact absurd hhead (by decide)
  · exact absurd hhead (by decide)

theorem escapes_append_inj {cs ds r r' : List Char}
    (h : cs.flatMap escape ++ '"' :: r = ds.flatMap escape ++ '"' :: r') : cs = ds ∧ r = r' := by
  induction cs generalizing ds with
  | nil => cases ds with
    | nil => exact ⟨rfl, (List.cons.inj h).2⟩
    | cons d ds =>
      rw [List.flatMap_cons, List.append_assoc] at h
      exact absurd h.symm (escape_append_ne_quote d _ _)
  | cons c cs ih => cases ds with
    | nil =>
      rw [List.flatMap_cons, List.append_assoc] at h
      exact absurd h (escape_append_ne_quote c _ _)
    | cons d ds =>
      rw [List.flatMap_cons, List.flatMap_cons, List.append_assoc, List.append_assoc] at h
      obtain ⟨hc, htail⟩ := prefixFree_escape.append_inj h
      obtain ⟨hcs, hrest⟩ := ih htail
      exact ⟨by rw [hc, hcs], hrest⟩

theorem quote_append_inj {s t : String} {r r' : List Char} (h : quote s ++ r = quote t ++ r') :
    s = t ∧ r = r' := by
  rw [quote, quote, List.append_assoc, List.append_assoc] at h
  obtain ⟨hs, hrest⟩ := escapes_append_inj (List.cons.inj h).2
  exact ⟨String.toList_inj.mp hs, hrest⟩

/-- What follows a value does not go on with a digit. -/
def NoDigit (r : List Char) : Prop := ∀ c ∈ r.head?, c.isDigit = false

theorem digits_append_inj {m n : ℕ} {r r' : List Char} (hr : NoDigit r) (hr' : NoDigit r')
    (h : Nat.toDigits 10 m ++ r = Nat.toDigits 10 n ++ r') : m = n ∧ r = r' := by
  have htake (n : ℕ) {r : List Char} (hr : NoDigit r) :
      (Nat.toDigits 10 n ++ r).takeWhile Char.isDigit = Nat.toDigits 10 n := by
    have hdigits : ∀ c ∈ Nat.toDigits 10 n, c.isDigit = true := fun c hc =>
      Nat.isDigit_of_mem_toDigits (by decide) (by decide) hc
    rw [List.takeWhile_append_of_pos hdigits]
    cases r with
    | nil => rw [List.takeWhile_nil, List.append_nil]
    | cons c r => rw [List.takeWhile_cons_of_neg (by simp [hr c rfl]), List.append_nil]
  have hsame : Nat.toDigits 10 m = Nat.toDigits 10 n := by
    rw [← htake m hr, h, htake n hr']
  refine ⟨?_, List.append_cancel_left (hsame ▸ h)⟩
  rw [← Nat.ofDigitChars_ten_toDigits (n := m), hsame, Nat.ofDigitChars_ten_toDigits]

theorem text_nonneg (n : ℕ) : (Value.num n).text = Nat.toDigits 10 n :=
  Nat.toList_repr

theorem text_neg (n : ℕ) : (Value.num (.negSucc n)).text = '-' :: Nat.toDigits 10 (n + 1) := by
  change ("-" ++ Nat.repr (n + 1)).toList = _
  rw [String.toList_append, Nat.toList_repr]
  rfl

/-- Digits do not begin with a minus. -/
theorem digits_append_ne_minus (n : ℕ) (cs ds : List Char) :
    Nat.toDigits 10 n ++ cs ≠ '-' :: ds := by
  intro h
  obtain ⟨d, digits, hdigits⟩ := List.exists_cons_of_ne_nil (Nat.toDigits_ne_nil (n := n) (b := 10))
  rw [hdigits, List.cons_append] at h
  have hminus : '-' ∈ Nat.toDigits 10 n := hdigits ▸ (List.cons.inj h).1 ▸ List.mem_cons_self
  exact absurd (Nat.isDigit_of_mem_toDigits (by decide) (by decide) hminus) (by decide)

theorem num_append_inj {m n : ℤ} {r r' : List Char} (hr : NoDigit r) (hr' : NoDigit r')
    (h : (Value.num m).text ++ r = (Value.num n).text ++ r') : m = n ∧ r = r' := by
  cases m with
  | ofNat m => cases n with
    | ofNat n =>
      obtain ⟨rfl, hrest⟩ := digits_append_inj hr hr' (text_nonneg m ▸ text_nonneg n ▸ h)
      exact ⟨rfl, hrest⟩
    | negSucc n =>
      rw [text_neg] at h
      exact absurd (text_nonneg m ▸ h) (digits_append_ne_minus m _ _)
  | negSucc m => cases n with
    | ofNat n =>
      rw [text_neg] at h
      exact absurd (text_nonneg n ▸ h.symm) (digits_append_ne_minus n _ _)
    | negSucc n =>
      rw [text_neg, text_neg] at h
      obtain ⟨hsame, hrest⟩ := digits_append_inj hr hr' (List.cons.inj h).2
      exact ⟨congrArg Int.negSucc (Nat.succ_inj.mp hsame), hrest⟩

/-- The kind of a value, and the kind of the values whose text begins with a character. -/
def Value.kind : Value → ℕ
  | .null => 0
  | .bool _ => 1
  | .num _ => 2
  | .str _ => 3
  | .arr _ => 4
  | .obj _ => 5

def kindOf (c : Char) : ℕ :=
  if c = 'n' then 0
  else if c = 't' ∨ c = 'f' then 1
  else if c = '-' ∨ c.isDigit then 2
  else if c = '"' then 3
  else if c = '[' then 4
  else if c = '{' then 5
  else 6

theorem kindOf_of_isDigit {c : Char} (h : c.isDigit = true) : kindOf c = 2 := by
  have hne {d : Char} (hd : d.isDigit = false) : c ≠ d := fun heq => by
    rw [heq, hd] at h
    cases h
  rw [kindOf, if_neg (hne (by decide)), if_neg (by simp [hne (d := 't') (by decide),
    hne (d := 'f') (by decide)]), if_pos (.inr h)]

theorem text_head (v : Value) : ∃ c cs, v.text = c :: cs ∧ kindOf c = v.kind := by
  cases v with
  | null => exact ⟨'n', _, rfl, rfl⟩
  | bool b => cases b with
    | false => exact ⟨'f', _, rfl, rfl⟩
    | true => exact ⟨'t', _, rfl, rfl⟩
  | num n => cases n with
    | ofNat n =>
      obtain ⟨d, digits, hdigits⟩ :=
        List.exists_cons_of_ne_nil (Nat.toDigits_ne_nil (n := n) (b := 10))
      have hmem : d ∈ Nat.toDigits 10 n := hdigits ▸ List.mem_cons_self
      exact ⟨d, digits, (text_nonneg n).trans hdigits,
        kindOf_of_isDigit (Nat.isDigit_of_mem_toDigits (by decide) (by decide) hmem)⟩
    | negSucc n => exact ⟨'-', _, text_neg n, rfl⟩
  | str s => exact ⟨'"', _, rfl, rfl⟩
  | arr items => exact ⟨'[', _, by rw [Value.text]; rfl, rfl⟩
  | obj members => exact ⟨'{', _, by rw [Value.text]; rfl, rfl⟩

theorem kind_eq {v w : Value} {r r' : List Char} (h : v.text ++ r = w.text ++ r') :
    v.kind = w.kind := by
  obtain ⟨c, cs, hv, hkind⟩ := text_head v
  obtain ⟨d, ds, hw, hkind'⟩ := text_head w
  rw [hv, hw] at h
  rw [← hkind, ← hkind', (List.cons.inj h).1]

theorem text_append_ne {v : Value} {c : Char} (hc : kindOf c = 6) (r r' : List Char) :
    v.text ++ r ≠ c :: r' := by
  intro h
  obtain ⟨d, ds, hv, hkind⟩ := text_head v
  rw [hv] at h
  rw [(List.cons.inj h).1, hc] at hkind
  cases v <;> cases hkind

/-- What follows an item of a list. -/
def moreItems : List Value → List Char
  | [] => []
  | v :: vs => ',' :: itemsText (v :: vs)

def moreMembers : List (String × Value) → List Char
  | [] => []
  | m :: ms => ',' :: membersText (m :: ms)

theorem itemsText_cons (v : Value) (vs : List Value) :
    itemsText (v :: vs) = v.text ++ moreItems vs := by
  cases vs with
  | nil => rw [itemsText, moreItems, List.append_nil]
  | cons =>
    rw [itemsText, moreItems]
    exact List.cons_ne_nil _ _

theorem membersText_cons (m : String × Value) (ms : List (String × Value)) :
    membersText (m :: ms) = quote m.1 ++ ':' :: m.2.text ++ moreMembers ms := by
  cases ms with
  | nil => rw [membersText, moreMembers, List.append_nil]
  | cons =>
    rw [membersText, moreMembers]
    exact List.cons_ne_nil _ _

theorem text_arr (vs : List Value) (r : List Char) :
    (Value.arr vs).text ++ r = '[' :: (itemsText vs ++ ']' :: r) := by
  rw [Value.text, List.append_assoc]
  rfl

theorem text_obj (ms : List (String × Value)) (r : List Char) :
    (Value.obj ms).text ++ r = '{' :: (membersText ms ++ '}' :: r) := by
  rw [Value.text, List.append_assoc]
  rfl

theorem noDigit_items (vs : List Value) (r : List Char) : NoDigit (moreItems vs ++ ']' :: r) := by
  cases vs <;> rintro _ ⟨⟩ <;> rfl

theorem noDigit_members (ms : List (String × Value)) (r : List Char) :
    NoDigit (moreMembers ms ++ '}' :: r) := by
  cases ms <;> rintro _ ⟨⟩ <;> rfl

mutual

/-- A value is read in one way only. -/
theorem text_append_inj (v w : Value) {r r' : List Char} (hr : NoDigit r) (hr' : NoDigit r')
    (h : v.text ++ r = w.text ++ r') : v = w ∧ r = r' := by
  have hkind := kind_eq h
  cases v with
  | null =>
    obtain rfl : w = .null := by cases w <;> first | rfl | cases hkind
    exact ⟨rfl, List.append_cancel_left h⟩
  | bool b =>
    obtain ⟨b', rfl⟩ : ∃ b', w = .bool b' := by cases w <;> first | exact ⟨_, rfl⟩ | cases hkind
    have hhead : b = b' := by cases b <;> cases b' <;> first | rfl | cases (List.cons.inj h).1
    subst hhead
    exact ⟨rfl, List.append_cancel_left h⟩
  | num n =>
    obtain ⟨m, rfl⟩ : ∃ m, w = .num m := by cases w <;> first | exact ⟨_, rfl⟩ | cases hkind
    obtain ⟨rfl, hrest⟩ := num_append_inj hr hr' h
    exact ⟨rfl, hrest⟩
  | str s =>
    obtain ⟨t, rfl⟩ : ∃ t, w = .str t := by cases w <;> first | exact ⟨_, rfl⟩ | cases hkind
    obtain ⟨rfl, hrest⟩ := quote_append_inj h
    exact ⟨rfl, hrest⟩
  | arr vs =>
    obtain ⟨ws, rfl⟩ : ∃ ws, w = .arr ws := by cases w <;> first | exact ⟨_, rfl⟩ | cases hkind
    rw [text_arr, text_arr] at h
    obtain ⟨hvs, hrest⟩ := itemsText_append_inj vs ws (List.cons.inj h).2
    exact ⟨congrArg Value.arr hvs, hrest⟩
  | obj ms =>
    obtain ⟨ns, rfl⟩ : ∃ ns, w = .obj ns := by cases w <;> first | exact ⟨_, rfl⟩ | cases hkind
    rw [text_obj, text_obj] at h
    obtain ⟨hms, hrest⟩ := membersText_append_inj ms ns (List.cons.inj h).2
    exact ⟨congrArg Value.obj hms, hrest⟩

theorem itemsText_append_inj (vs ws : List Value) {r r' : List Char}
    (h : itemsText vs ++ ']' :: r = itemsText ws ++ ']' :: r') : vs = ws ∧ r = r' := by
  cases vs with
  | nil => cases ws with
    | nil => exact ⟨rfl, (List.cons.inj h).2⟩
    | cons w ws =>
      rw [itemsText_cons, List.append_assoc] at h
      exact absurd h.symm (text_append_ne (by decide) _ _)
  | cons v vs => cases ws with
    | nil =>
      rw [itemsText_cons, List.append_assoc] at h
      exact absurd h (text_append_ne (by decide) _ _)
    | cons w ws =>
      rw [itemsText_cons, itemsText_cons, List.append_assoc, List.append_assoc] at h
      obtain ⟨hv, hmore⟩ := text_append_inj v w (noDigit_items vs _) (noDigit_items ws _) h
      cases vs with
      | nil => cases ws with
        | nil => exact ⟨by rw [hv], (List.cons.inj hmore).2⟩
        | cons => cases (List.cons.inj hmore).1
      | cons v' vs => cases ws with
        | nil => cases (List.cons.inj hmore).1
        | cons w' ws =>
          obtain ⟨hvs, hrest⟩ := itemsText_append_inj (v' :: vs) (w' :: ws) (List.cons.inj hmore).2
          exact ⟨by rw [hv, hvs], hrest⟩

theorem membersText_append_inj (ms ns : List (String × Value)) {r r' : List Char}
    (h : membersText ms ++ '}' :: r = membersText ns ++ '}' :: r') : ms = ns ∧ r = r' := by
  cases ms with
  | nil => cases ns with
    | nil => exact ⟨rfl, (List.cons.inj h).2⟩
    | cons n ns =>
      rw [membersText_cons, quote] at h
      cases (List.cons.inj h).1
  | cons m ms => cases ns with
    | nil =>
      rw [membersText_cons, quote] at h
      cases (List.cons.inj h).1
    | cons n ns =>
      obtain ⟨key, v⟩ := m
      obtain ⟨key', w⟩ := n
      simp only [membersText_cons, List.append_assoc, List.cons_append] at h
      obtain ⟨hkey, hcolon⟩ := quote_append_inj h
      obtain ⟨hv, hmore⟩ := text_append_inj v w (noDigit_members ms _) (noDigit_members ns _)
        (List.cons.inj hcolon).2
      cases ms with
      | nil => cases ns with
        | nil => exact ⟨by rw [hkey, hv], (List.cons.inj hmore).2⟩
        | cons => cases (List.cons.inj hmore).1
      | cons m' ms => cases ns with
        | nil => cases (List.cons.inj hmore).1
        | cons n' ns =>
          obtain ⟨hms, hrest⟩ :=
            membersText_append_inj (m' :: ms) (n' :: ns) (List.cons.inj hmore).2
          exact ⟨by rw [hkey, hv, hms], hrest⟩

end

/-- The text of a value determines it. -/
theorem text_inj {v w : Value} (h : v.text = w.text) : v = w := by
  have hend : NoDigit [] := by rintro _ ⟨⟩
  have hsame : v.text ++ [] = w.text ++ [] := by rw [h]
  exact (text_append_inj v w hend hend hsame).1

/-- The text of a value in UTF-8. -/
def Value.toUtf8 (v : Value) : List UInt8 := v.text.flatMap String.utf8EncodeChar

theorem toUtf8_inj {v w : Value} (h : v.toUtf8 = w.toUtf8) : v = w := by
  rw [Value.toUtf8, Value.toUtf8, ← Bytes.utf8_ofList, ← Bytes.utf8_ofList] at h
  exact text_inj (String.ofList_inj.mp (Bytes.utf8_inj.mp h))

end Readable

end Json
