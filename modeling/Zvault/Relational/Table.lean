import Mathlib.Data.List.Basic
import Mathlib.Data.List.Nodup
import Mathlib.Data.Nat.Notation

/-!
# Tables with a primary key

A relational table is a list of rows in which no two rows share a primary key.
The list order stands for the order in which an unsorted query returns rows.
Every operation is one SQL statement and keeps the key unique, so a table that
breaks its primary key cannot be built. The lemmas state what each statement
does to the set of rows.
-/

namespace Relational

variable {ρ κ : Type*}

/-- Rows of type `ρ`, identified by the primary key `key`. -/
@[ext] structure Table (key : ρ → κ) where
  /-- The rows, in the order a query without `order by` returns them. -/
  rows : List ρ
  /-- The primary key constraint. -/
  nodup : (rows.map key).Nodup

namespace Table

variable {key : ρ → κ}

/-- The table without rows. -/
def empty : Table key := ⟨[], List.nodup_nil⟩

instance : Membership ρ (Table key) := ⟨fun t r => r ∈ t.rows⟩

instance [DecidableEq ρ] (t : Table key) (r : ρ) : Decidable (r ∈ t) :=
  inferInstanceAs (Decidable (r ∈ t.rows))

@[simp] theorem mem_rows {t : Table key} {r : ρ} : r ∈ t.rows ↔ r ∈ t := Iff.rfl

@[simp] theorem not_mem_empty (r : ρ) : r ∉ (empty : Table key) := List.not_mem_nil

/-- The primary key identifies a row. -/
theorem eq_of_key_eq {t : Table key} {r s : ρ} (hr : r ∈ t) (hs : s ∈ t) (h : key r = key s) :
    r = s :=
  List.inj_on_of_nodup_map t.nodup hr hs h

/-- `select * from t where p`. -/
def select (t : Table key) (p : ρ → Bool) : List ρ := t.rows.filter p

@[simp] theorem mem_select {t : Table key} {p : ρ → Bool} {r : ρ} :
    r ∈ t.select p ↔ r ∈ t ∧ p r = true := List.mem_filter

/-- Selected rows still have distinct keys. -/
theorem nodup_select (t : Table key) (p : ρ → Bool) : ((t.select p).map key).Nodup :=
  t.nodup.sublist (List.filter_sublist.map key)

/-- `delete from t where p`. -/
def delete (t : Table key) (p : ρ → Bool) : Table key :=
  ⟨t.rows.filter (fun r => !p r), t.nodup.sublist (List.filter_sublist.map key)⟩

@[simp] theorem mem_delete {t : Table key} {p : ρ → Bool} {r : ρ} :
    r ∈ t.delete p ↔ r ∈ t ∧ p r = false := by
  change r ∈ t.rows.filter (fun r => !p r) ↔ _
  simp

/-- Deleting rows that are not there changes nothing. -/
theorem delete_eq_self {t : Table key} {p : ρ → Bool} (h : ∀ r ∈ t, p r = false) :
    t.delete p = t := by
  apply Table.ext
  exact List.filter_eq_self.mpr fun r hr => by simp [h r hr]

/-- `update t set f where p`, for an assignment that leaves the key alone. -/
def update (t : Table key) (p : ρ → Bool) (f : ρ → ρ)
    (hf : ∀ r, key (f r) = key r := by intro r; cases r; rfl) : Table key where
  rows := t.rows.map fun r => if p r then f r else r
  nodup := by
    have hkey : key ∘ (fun r => if p r then f r else r) = key := by
      funext r
      simp only [Function.comp_apply]
      split
      · exact hf r
      · rfl
    rw [List.map_map, hkey]
    exact t.nodup

@[simp] theorem mem_update {t : Table key} {p : ρ → Bool} {f : ρ → ρ}
    {hf : ∀ r, key (f r) = key r} {r : ρ} :
    r ∈ t.update p f hf ↔ ∃ s ∈ t, r = if p s then f s else s := by
  change r ∈ t.rows.map _ ↔ _
  simp only [List.mem_map, mem_rows, eq_comm]

/-- Every row is there after an update, updated if it matches. -/
theorem mem_update_of_mem {t : Table key} {p : ρ → Bool} {f : ρ → ρ}
    (hf : ∀ r, key (f r) = key r) {r : ρ} (hr : r ∈ t) :
    (if p r then f r else r) ∈ t.update p f hf :=
  mem_update.mpr ⟨r, hr, rfl⟩

/-- An update that matches no row changes nothing. -/
theorem update_eq_self {t : Table key} {p : ρ → Bool} {f : ρ → ρ}
    {hf : ∀ r, key (f r) = key r} (h : ∀ r ∈ t, p r = false) : t.update p f hf = t := by
  apply Table.ext
  change t.rows.map _ = t.rows
  conv_rhs => rw [← List.map_id t.rows]
  apply List.map_congr_left
  intro r hr
  simp [h r hr]

/-- An update that a query does not look at. -/
theorem select_update {t : Table key} {p q : ρ → Bool} {f : ρ → ρ} (hf : ∀ r, key (f r) = key r)
    (h : ∀ r, p r = true → q (f r) = q r) :
    (t.update p f hf).select q = (t.select q).map fun r => if p r then f r else r := by
  have hq : q ∘ (fun r => if p r then f r else r) = q := by
    funext r
    simp only [Function.comp_apply]
    split
    · rename_i hp
      exact h r hp
    · rfl
  change (t.rows.map _).filter q = _
  rw [List.filter_map, hq]
  rfl

section Keyed

variable [DecidableEq κ]

/-- The row with a given primary key. -/
def find (t : Table key) (k : κ) : Option ρ := t.rows.find? fun r => key r = k

theorem find_eq_some {t : Table key} {k : κ} {r : ρ} :
    t.find k = some r ↔ r ∈ t ∧ key r = k := by
  constructor
  · intro h
    exact ⟨List.mem_of_find?_eq_some h, by simpa using List.find?_some h⟩
  · rintro ⟨hr, rfl⟩
    cases hfind : t.find (key r) with
    | none =>
      have hnone := List.find?_eq_none.mp hfind r hr
      simp at hnone
    | some s =>
      have hs : s ∈ t := List.mem_of_find?_eq_some hfind
      have hkey : key s = key r := by simpa using List.find?_some hfind
      rw [eq_of_key_eq hs hr hkey]

theorem find_eq_none {t : Table key} {k : κ} : t.find k = none ↔ ∀ r ∈ t, key r ≠ k := by
  simp [find, List.find?_eq_none]

/-- An update finds the same row, updated. -/
theorem find_update {t : Table key} {p : ρ → Bool} {f : ρ → ρ} {hf : ∀ r, key (f r) = key r}
    (k : κ) : (t.update p f hf).find k = (t.find k).map fun r => if p r then f r else r := by
  have hkey : (fun r => decide (key r = k)) ∘ (fun r => if p r then f r else r) =
      fun r => decide (key r = k) := by
    funext r
    simp only [Function.comp_apply]
    split
    · rw [hf]
    · rfl
  simp only [find, update, List.find?_map, hkey]

/-- Deleting other rows finds the same row. -/
theorem find_delete {t : Table key} {p : ρ → Bool} {k : κ}
    (h : ∀ r ∈ t, key r = k → p r = false) : (t.delete p).find k = t.find k := by
  ext r
  rw [find_eq_some, find_eq_some, mem_delete]
  constructor
  · rintro ⟨⟨hr, _⟩, hk⟩
    exact ⟨hr, hk⟩
  · rintro ⟨hr, hk⟩
    exact ⟨⟨hr, h r hr hk⟩, hk⟩

/-- A row is found after a delete unless it was deleted. -/
theorem find_delete_eq {t : Table key} {p : ρ → Bool} (k : κ) :
    (t.delete p).find k = (t.find k).filter fun r => !p r := by
  ext r
  rw [find_eq_some, mem_delete, Option.filter_eq_some_iff, find_eq_some]
  simp only [Bool.not_eq_true', and_right_comm]

/-- A row is gone from its key when the delete is meant for that key. -/
theorem find_delete_iff {t : Table key} {p : ρ → Bool} {k : κ} {P : Prop} [Decidable P]
    (h : ∀ r, key r = k → (p r = true ↔ P)) :
    (t.delete p).find k = if P then none else t.find k := by
  rw [find_delete_eq]
  cases hfind : t.find k with
  | none => split <;> rfl
  | some r =>
    have hp := h r (find_eq_some.mp hfind).2
    by_cases hP : P
    · rw [if_pos hP, Option.filter_some, hp.mpr hP]
      rfl
    · rw [if_neg hP, Option.filter_some, Bool.eq_false_iff.mpr fun htrue => hP (hp.mp htrue)]
      rfl

/-- Rows that were all replaced under their keys. -/
theorem find_of_mem_iff {t t' : Table key} {f : ρ → ρ} (hf : ∀ r, key (f r) = key r)
    (h : ∀ r, r ∈ t' ↔ ∃ r₀ ∈ t, r = f r₀) (k : κ) : t'.find k = (t.find k).map f := by
  ext r
  rw [find_eq_some, h, Option.map_eq_some_iff]
  constructor
  · rintro ⟨⟨r₀, hr₀, rfl⟩, hk⟩
    exact ⟨r₀, find_eq_some.mpr ⟨hr₀, (hf r₀).symm.trans hk⟩, rfl⟩
  · rintro ⟨r₀, hfind, rfl⟩
    obtain ⟨hr₀, hk⟩ := find_eq_some.mp hfind
    exact ⟨⟨r₀, hr₀, rfl⟩, (hf r₀).trans hk⟩

/-- Whether some row has this primary key. -/
def hasKey (t : Table key) (k : κ) : Bool := t.rows.any fun r => key r = k

theorem hasKey_iff {t : Table key} {k : κ} : t.hasKey k = true ↔ ∃ r ∈ t, key r = k := by
  simp [hasKey]

theorem hasKey_eq_false {t : Table key} {k : κ} : t.hasKey k = false ↔ ∀ r ∈ t, key r ≠ k := by
  rw [← Bool.not_eq_true, hasKey_iff, not_exists]
  exact forall_congr' fun r => not_and

/-- An update keeps the keys. -/
theorem hasKey_update {t : Table key} {p : ρ → Bool} {f : ρ → ρ} (hf : ∀ r, key (f r) = key r)
    (k : κ) : (t.update p f hf).hasKey k = t.hasKey k := by
  rw [Bool.eq_iff_iff, hasKey_iff, hasKey_iff]
  constructor
  · rintro ⟨m, hm, rfl⟩
    obtain ⟨m₀, hm₀, rfl⟩ := mem_update.mp hm
    refine ⟨m₀, hm₀, ?_⟩
    split
    · exact (hf m₀).symm
    · rfl
  · rintro ⟨m, hm, rfl⟩
    refine ⟨_, mem_update_of_mem hf hm, ?_⟩
    split
    · exact hf m
    · rfl

private theorem nodup_append_new {t : Table key} {r : ρ} (h : t.hasKey (key r) = false) :
    ((t.rows ++ [r]).map key).Nodup := by
  have hnot := hasKey_eq_false.mp h
  simp only [List.map_append, List.map_cons, List.map_nil]
  refine List.Nodup.append t.nodup (List.nodup_singleton _) ?_
  intro k hk hkr
  obtain ⟨s, hs, rfl⟩ := List.mem_map.mp hk
  exact hnot s hs (List.mem_singleton.mp hkr)

/-- `insert into t values (r) on conflict do nothing`. -/
def insertNew (t : Table key) (r : ρ) : Table key :=
  if h : t.hasKey (key r) = false then ⟨t.rows ++ [r], nodup_append_new h⟩ else t

/-- A row under a free key goes last. -/
private theorem insertNew_of_free {t : Table key} {r : ρ} (h : t.hasKey (key r) = false) :
    t.insertNew r = ⟨t.rows ++ [r], nodup_append_new h⟩ := dif_pos h

private theorem insertNew_of_taken {t : Table key} {r : ρ} (h : ¬ t.hasKey (key r) = false) :
    t.insertNew r = t := dif_neg h

theorem mem_insertNew {t : Table key} {r s : ρ} :
    s ∈ t.insertNew r ↔ s ∈ t ∨ (s = r ∧ ∀ x ∈ t, key x ≠ key r) := by
  by_cases h : t.hasKey (key r) = false
  · rw [insertNew_of_free h, and_iff_left (hasKey_eq_false.mp h)]
    change s ∈ t.rows ++ [r] ↔ _
    simp only [List.mem_append, mem_rows, List.mem_singleton]
  · rw [insertNew_of_taken h]
    constructor
    · exact Or.inl
    · rintro (hs | ⟨_, hnew⟩)
      · exact hs
      · exact absurd (hasKey_eq_false.mpr hnew) h

theorem rows_insertNew {t : Table key} {r : ρ} (hnew : ∀ x ∈ t, key x ≠ key r) :
    (t.insertNew r).rows = t.rows ++ [r] := by
  rw [insertNew_of_free (hasKey_eq_false.mpr hnew)]

theorem mem_insertNew_of_new {t : Table key} {r x : ρ} (hnew : ∀ x ∈ t, key x ≠ key r) :
    x ∈ t.insertNew r ↔ x ∈ t ∨ x = r := by
  rw [mem_insertNew, and_iff_left hnew]

theorem hasKey_insertNew {t : Table key} {r : ρ} (hnew : ∀ x ∈ t, key x ≠ key r) (k : κ) :
    (t.insertNew r).hasKey k = true ↔ t.hasKey k = true ∨ k = key r := by
  rw [hasKey_iff, hasKey_iff]
  simp only [mem_insertNew_of_new hnew]
  constructor
  · rintro ⟨x, hx | rfl, rfl⟩
    · exact Or.inl ⟨x, hx, rfl⟩
    · exact Or.inr rfl
  · rintro (⟨x, hx, rfl⟩ | rfl)
    · exact ⟨x, Or.inl hx, rfl⟩
    · exact ⟨r, Or.inr rfl, rfl⟩

/-- A new row is found under its key; the other keys find what they found. -/
theorem find_insertNew {t : Table key} {r : ρ} (hnew : ∀ x ∈ t, key x ≠ key r) (k : κ) :
    (t.insertNew r).find k = if key r = k then some r else t.find k := by
  have hfree : t.hasKey (key r) = false := hasKey_eq_false.mpr hnew
  split
  · rename_i hk
    exact find_eq_some.mpr ⟨mem_insertNew.mpr (Or.inr ⟨rfl, hnew⟩), hk⟩
  · rename_i hk
    have hlast : [r].find? (fun x => decide (key x = k)) = none := by simp [hk]
    rw [insertNew_of_free hfree]
    change (t.rows ++ [r]).find? _ = _
    rw [List.find?_append, hlast, Option.or_none]
    rfl

/-- A query sees a new row last. -/
theorem select_insertNew {t : Table key} {r : ρ} (hnew : ∀ x ∈ t, key x ≠ key r) (q : ρ → Bool) :
    (t.insertNew r).select q = t.select q ++ if q r then [r] else [] := by
  rw [insertNew_of_free (hasKey_eq_false.mpr hnew)]
  change (t.rows ++ [r]).filter q = _
  rw [List.filter_append, List.filter_singleton]
  cases q r <;> rfl

/-- Several rows inserted with `on conflict do nothing`. -/
def insertNewAll (t : Table key) (rs : List ρ) : Table key := rs.foldl insertNew t

@[simp] theorem insertNewAll_nil (t : Table key) : t.insertNewAll [] = t := rfl

/-- Inserting never drops a row. -/
theorem mem_insertNewAll_of_mem {t : Table key} {rs : List ρ} {s : ρ} (hs : s ∈ t) :
    s ∈ t.insertNewAll rs := by
  induction rs generalizing t with
  | nil => exact hs
  | cons r rs ih => exact ih (mem_insertNew.mpr (Or.inl hs))

/-- Every row afterwards was there before or is one of the inserted rows. -/
theorem mem_or_mem_of_mem_insertNewAll {t : Table key} {rs : List ρ} {s : ρ}
    (hs : s ∈ t.insertNewAll rs) : s ∈ t ∨ (s ∈ rs ∧ ∀ x ∈ t, key x ≠ key s) := by
  induction rs generalizing t with
  | nil => exact Or.inl hs
  | cons r rs ih =>
    rcases ih hs with h | ⟨hmem, hnew⟩
    · rcases mem_insertNew.mp h with h | ⟨rfl, hnew⟩
      · exact Or.inl h
      · exact Or.inr ⟨List.mem_cons_self, hnew⟩
    · exact Or.inr ⟨List.mem_cons_of_mem _ hmem,
        fun x hx => hnew x (mem_insertNew.mpr (Or.inl hx))⟩

/-- After the insert every inserted key has a row. -/
theorem exists_key_insertNewAll {t : Table key} {rs : List ρ} {r : ρ} (hr : r ∈ rs) :
    ∃ s ∈ t.insertNewAll rs, key s = key r := by
  induction rs generalizing t with
  | nil => cases hr
  | cons x rs ih =>
    rcases List.mem_cons.mp hr with rfl | hr
    · obtain ⟨s, hs, hkey⟩ : ∃ s ∈ t.insertNew r, key s = key r := by
        by_cases h : t.hasKey (key r) = false
        · exact ⟨r, mem_insertNew.mpr (Or.inr ⟨rfl, hasKey_eq_false.mp h⟩), rfl⟩
        · obtain ⟨s, hs, hkey⟩ := hasKey_iff.mp (by simpa using h)
          exact ⟨s, mem_insertNew.mpr (Or.inl hs), hkey⟩
      have hkept : s ∈ (t.insertNew r).insertNewAll rs := mem_insertNewAll_of_mem hs
      exact ⟨s, hkept, hkey⟩
    · exact ih hr

/-- Rows with new and mutually distinct keys are all inserted. -/
theorem mem_insertNewAll_of_new {t : Table key} {rs : List ρ} {r : ρ}
    (hnodup : (rs.map key).Nodup) (hr : r ∈ rs) (hnew : ∀ x ∈ t, key x ≠ key r) :
    r ∈ t.insertNewAll rs := by
  obtain ⟨s, hs, hkey⟩ := exists_key_insertNewAll (t := t) hr
  rcases mem_or_mem_of_mem_insertNewAll hs with hmem | ⟨hmem, _⟩
  · exact absurd hkey (hnew s hmem)
  · rwa [← List.inj_on_of_nodup_map hnodup hmem hr hkey]

/-- `insert into t values (rs)`: refused as a whole when a key is taken or repeated. -/
def insertAll (t : Table key) : List ρ → Option (Table key)
  | [] => some t
  | r :: rs => if t.hasKey (key r) then none else (t.insertNew r).insertAll rs

private theorem insertAll_cons (t : Table key) (r : ρ) (rs : List ρ) :
    t.insertAll (r :: rs) =
      if t.hasKey (key r) then none else (t.insertNew r).insertAll rs := rfl

/-- An accepted insert adds exactly the given rows, under keys that were free. -/
theorem mem_insertAll {t t' : Table key} {rs : List ρ} (h : t.insertAll rs = some t') (s : ρ) :
    s ∈ t' ↔ s ∈ t ∨ s ∈ rs := by
  induction rs generalizing t with
  | nil =>
    obtain rfl := Option.some_inj.mp h
    simp
  | cons r rs ih =>
    rw [insertAll_cons] at h
    split at h
    · cases h
    · rename_i hkey
      have hnew := hasKey_eq_false.mp (by simpa using hkey)
      rw [ih h, mem_insertNew, and_iff_left hnew, List.mem_cons, or_assoc]

/-- A single row is inserted where its key is free. -/
theorem insertAll_singleton {t t' : Table key} {r : ρ} (h : t.insertAll [r] = some t') :
    (∀ x ∈ t, key x ≠ key r) ∧ t' = t.insertNew r := by
  rw [insertAll_cons] at h
  split at h
  · cases h
  · rename_i hkey
    exact ⟨hasKey_eq_false.mp (by simpa using hkey), (Option.some_inj.mp h).symm⟩

/-- `insert into t values (r) on conflict (key) do update set f`. -/
def upsert (t : Table key) (r : ρ) (f : ρ → ρ)
    (hf : ∀ r, key (f r) = key r := by intro r; cases r; rfl) : Table key :=
  (t.update (fun s => key s = key r) f hf).insertNew r

theorem mem_upsert {t : Table key} {r s : ρ} {f : ρ → ρ} {hf : ∀ r, key (f r) = key r} :
    s ∈ t.upsert r f hf ↔ (s ∈ t ∧ key s ≠ key r) ∨ (∃ x ∈ t, key x = key r ∧ s = f x) ∨
      (s = r ∧ ∀ x ∈ t, key x ≠ key r) := by
  have hkeys : (∀ x ∈ t.update (fun s => key s = key r) f hf, key x ≠ key r) ↔
      ∀ x ∈ t, key x ≠ key r := by
    constructor
    · intro h x hx heq
      exact h (f x) (mem_update.mpr ⟨x, hx, by simp [heq]⟩) ((hf x).trans heq)
    · intro h y hy heq
      obtain ⟨x, hx, rfl⟩ := mem_update.mp hy
      simp only [h x hx, decide_false, Bool.false_eq_true, if_false] at heq
  change s ∈ (t.update (fun s => key s = key r) f hf).insertNew r ↔ _
  rw [mem_insertNew, hkeys, mem_update, ← or_assoc]
  apply or_congr_left
  constructor
  · rintro ⟨x, hx, rfl⟩
    by_cases heq : key x = key r
    · exact Or.inr ⟨x, hx, heq, by simp [heq]⟩
    · simp only [heq, decide_false, Bool.false_eq_true, if_false]
      exact Or.inl ⟨hx, heq⟩
  · rintro (⟨hs, hne⟩ | ⟨x, hx, heq, rfl⟩)
    · exact ⟨s, hs, by simp [hne]⟩
    · exact ⟨x, hx, by simp [heq]⟩

/-- The keys after a row was put. -/
theorem exists_key_upsert {t : Table key} {r : ρ} {f : ρ → ρ} {hf : ∀ r, key (f r) = key r} {k : κ} :
    (∃ s ∈ t.upsert r f hf, key s = k) ↔ (∃ s ∈ t, key s = k) ∨ key r = k := by
  constructor
  · rintro ⟨s, hs, rfl⟩
    rcases mem_upsert.mp hs with ⟨hs, -⟩ | ⟨x, -, hkey, rfl⟩ | ⟨rfl, -⟩
    · exact Or.inl ⟨s, hs, rfl⟩
    · exact Or.inr (hkey.symm.trans (hf x).symm)
    · exact Or.inr rfl
  · intro h
    by_cases hold : ∃ x ∈ t, key x = key r
    · obtain ⟨x, hx, hkey⟩ := hold
      have hput : f x ∈ t.upsert r f hf := mem_upsert.mpr (Or.inr (Or.inl ⟨x, hx, hkey, rfl⟩))
      rcases h with ⟨s, hs, rfl⟩ | rfl
      · by_cases hsame : key s = key r
        · exact ⟨f x, hput, ((hf x).trans hkey).trans hsame.symm⟩
        · exact ⟨s, mem_upsert.mpr (Or.inl ⟨hs, hsame⟩), rfl⟩
      · exact ⟨f x, hput, (hf x).trans hkey⟩
    · have hnew : ∀ x ∈ t, key x ≠ key r := fun x hx hkey => hold ⟨x, hx, hkey⟩
      rcases h with ⟨s, hs, rfl⟩ | rfl
      · exact ⟨s, mem_upsert.mpr (Or.inl ⟨hs, hnew s hs⟩), rfl⟩
      · exact ⟨r, mem_upsert.mpr (Or.inr (Or.inr ⟨rfl, hnew⟩)), rfl⟩

/-- The row that was put is found under its key; the other keys find what they found. -/
theorem find_upsert {t : Table key} {r : ρ} {f : ρ → ρ} {hf : ∀ r, key (f r) = key r}
    (hset : ∀ s, key s = key r → f s = r) (k : κ) :
    (t.upsert r f hf).find k = if key r = k then some r else t.find k := by
  split
  · rename_i hk
    refine find_eq_some.mpr ⟨mem_upsert.mpr (Or.inr ?_), hk⟩
    cases hfind : t.find (key r) with
    | some x =>
      obtain ⟨hx, hkey⟩ := find_eq_some.mp hfind
      exact Or.inl ⟨x, hx, hkey, (hset x hkey).symm⟩
    | none => exact Or.inr ⟨rfl, find_eq_none.mp hfind⟩
  · rename_i hk
    ext s
    rw [find_eq_some, find_eq_some, mem_upsert]
    constructor
    · rintro ⟨⟨hs, -⟩ | ⟨x, -, hkey, rfl⟩ | ⟨rfl, -⟩, hsk⟩
      · exact ⟨hs, hsk⟩
      · exact absurd ((congrArg key (hset x hkey)).symm.trans hsk) hk
      · exact absurd hsk hk
    · rintro ⟨hs, hsk⟩
      exact ⟨Or.inl ⟨hs, fun heq => hk (heq.symm.trans hsk)⟩, hsk⟩

end Keyed

end Table

end Relational
