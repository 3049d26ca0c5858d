import Mathlib.Data.List.Sort
import Mathlib.Data.List.Infix
import Mathlib.Order.Basic

/-!
# Reading a change feed page by page

A feed is a set of entries, each at a position of its own; a write moves the
entries it changes behind every other. A reader asks for the entries after its
cursor, in order and some at a time, and continues from the last one it was
given. `Covered` is the invariant of such a reader: what lies between the start
and its cursor has been received. Pages and writes keep it in any order.
-/

namespace Feed

variable {ε : Type*} (seq : ε → ℕ)

/-- The entries after `since`, in feed order. -/
def after (entries : List ε) (since : ℕ) : List ε :=
  (entries.filter fun e => since < seq e).insertionSort fun a b => seq a ≤ seq b

/-- The first `limit` entries after `since`. -/
def page (entries : List ε) (since limit : ℕ) : List ε := (after seq entries since).take limit

/-- Where a reader of a page continues. -/
def cursor (page : List ε) (since : ℕ) : ℕ :=
  match page.getLast? with
  | some e => seq e
  | none => since

/-- Different entries are at different positions. -/
def Distinct (entries : List ε) : Prop :=
  ∀ e ∈ entries, ∀ f ∈ entries, seq e = seq f → e = f

/-- Every entry of `entries'` is one of `entries` or lies behind position `last`. -/
def Advances (last : ℕ) (entries entries' : List ε) : Prop :=
  ∀ e ∈ entries', e ∈ entries ∨ last < seq e

/-- What lies between `since` and the cursor has been received. -/
def Covered (entries : List ε) (since cursor : ℕ) (received : ε → Prop) : Prop :=
  ∀ e ∈ entries, since < seq e → seq e ≤ cursor → received e

/-- A feed whose entries are at positions of their own, from 1 to the counter `last`. -/
structure Ordered (entries : List ε) (last : ℕ) : Prop where
  distinct : Distinct seq entries
  bounded : ∀ e ∈ entries, seq e ≤ last
  positive : ∀ e ∈ entries, 0 < seq e

/-- A write to a feed: it stays ordered, what it changed lies behind all there was, and the
counter does not go back. -/
structure Write (entries : List ε) (last : ℕ) (entries' : List ε) (last' : ℕ) : Prop where
  ordered : Ordered seq entries' last'
  advances : Advances seq last entries entries'
  counter : last ≤ last'

variable {seq} {entries entries' : List ε} {since limit : ℕ}

theorem mem_after {e : ε} : e ∈ after seq entries since ↔ e ∈ entries ∧ since < seq e := by
  simp only [after, List.mem_insertionSort, List.mem_filter, decide_eq_true_eq]

theorem mem_of_mem_page {e : ε} (h : e ∈ page seq entries since limit) :
    e ∈ entries ∧ since < seq e :=
  mem_after.mp (List.mem_of_mem_take h)

theorem pairwise_after (seq : ε → ℕ) (entries : List ε) (since : ℕ) :
    (after seq entries since).Pairwise fun a b => seq a ≤ seq b := by
  have : IsTrans ε fun a b => seq a ≤ seq b := ⟨fun _ _ _ hab hbc => hab.trans hbc⟩
  have : Std.Total fun a b : ε => seq a ≤ seq b := ⟨fun a b => le_total (seq a) (seq b)⟩
  exact List.pairwise_insertionSort _ _

/-- An entry left out of a page is behind everything in it. -/
theorem le_of_not_mem_page {e x : ε} (he : e ∈ entries) (hafter : since < seq e)
    (hout : e ∉ page seq entries since limit) (hx : x ∈ page seq entries since limit) :
    seq x ≤ seq e := by
  have hsorted := pairwise_after seq entries since
  rw [← List.take_append_drop limit (after seq entries since), List.pairwise_append] at hsorted
  refine hsorted.2.2 x hx e ?_
  have hmem : e ∈ after seq entries since := mem_after.mpr ⟨he, hafter⟩
  rw [← List.take_append_drop limit (after seq entries since), List.mem_append] at hmem
  exact hmem.resolve_left hout

/-- The cursor is the start or the position of an entry of the page. -/
theorem cursor_eq (seq : ε → ℕ) (page : List ε) (since : ℕ) :
    cursor seq page since = since ∨ ∃ e ∈ page, cursor seq page since = seq e := by
  cases hlast : page.getLast? with
  | none => simp [cursor, hlast]
  | some e =>
    refine Or.inr ⟨e, List.mem_of_getLast? hlast, ?_⟩
    simp only [cursor, hlast]

/-- A page moves its reader forward. -/
theorem le_cursor : since ≤ cursor seq (page seq entries since limit) since := by
  rcases cursor_eq seq (page seq entries since limit) since with heq | ⟨e, he, heq⟩
  · rw [heq]
  · rw [heq]
    exact (mem_of_mem_page he).2.le

/-- Nothing in a page is behind its cursor. -/
theorem le_cursor_of_mem {e : ε} (he : e ∈ page seq entries since limit) :
    seq e ≤ cursor seq (page seq entries since limit) since := by
  have hsorted := (pairwise_after seq entries since).sublist (List.take_sublist limit _)
  change (page seq entries since limit).Pairwise _ at hsorted
  have hne : page seq entries since limit ≠ [] := List.ne_nil_of_mem he
  simp only [cursor, List.getLast?_eq_some_getLast hne]
  rw [← List.dropLast_append_getLast hne, List.pairwise_append] at hsorted
  rw [← List.dropLast_append_getLast hne, List.mem_append, List.mem_singleton] at he
  rcases he with he | heq
  · exact hsorted.2.2 e he _ List.mem_cons_self
  · exact (congrArg seq heq).le

/-- The cursor does not pass the last position of the feed. -/
theorem cursor_le (since limit : ℕ) {last : ℕ} (hlast : ∀ e ∈ entries, seq e ≤ last) :
    cursor seq (page seq entries since limit) since = since ∨
      cursor seq (page seq entries since limit) since ≤ last := by
  rcases cursor_eq seq (page seq entries since limit) since with heq | ⟨e, he, heq⟩
  · exact Or.inl heq
  · exact Or.inr (heq ▸ hlast e (mem_of_mem_page he).1)

/-- A page holds everything up to its cursor. -/
theorem mem_page_of_le_cursor (hdistinct : Distinct seq entries) {e : ε} (he : e ∈ entries)
    (hafter : since < seq e) (hle : seq e ≤ cursor seq (page seq entries since limit) since) :
    e ∈ page seq entries since limit := by
  by_contra hout
  rcases cursor_eq seq (page seq entries since limit) since with heq | ⟨x, hx, heq⟩
  · omega
  · have hbehind := le_of_not_mem_page he hafter hout hx
    have hsame := hdistinct e he x (mem_of_mem_page hx).1 (by omega)
    exact hout (hsame ▸ hx)

/-- Asking for one entry more tells whether a page is the last one. -/
theorem mem_page_of_last (hlength : (page seq entries since (limit + 1)).length ≤ limit) {e : ε}
    (he : e ∈ entries) (hafter : since < seq e) : e ∈ page seq entries since limit := by
  have hall : (after seq entries since).length ≤ limit := by
    simp only [page, List.length_take] at hlength
    omega
  rw [page, List.take_of_length_le hall]
  exact mem_after.mpr ⟨he, hafter⟩

/-- The page is the longer one without its last entry. -/
theorem take_page : (page seq entries since (limit + 1)).take limit =
    page seq entries since limit := by
  rw [page, page, List.take_take]
  congr 1
  omega

/-- A page that is not the last one moves its reader strictly forward. -/
theorem lt_cursor_of_more (hlimit : 0 < limit)
    (hmore : limit < (page seq entries since (limit + 1)).length) :
    since < cursor seq (page seq entries since limit) since := by
  have hlength : 0 < (page seq entries since limit).length := by
    rw [← take_page, List.length_take]
    omega
  cases hlast : (page seq entries since limit).getLast? with
  | none =>
    rw [List.getLast?_eq_none_iff] at hlast
    simp [hlast] at hlength
  | some e =>
    simp only [cursor, hlast]
    exact (mem_of_mem_page (List.mem_of_getLast? hlast)).2

/-- A page reaches as many positions as it has places. -/
theorem mem_page_of_le_add (hdistinct : Distinct seq entries) (hnodup : entries.Nodup) {e : ε}
    (he : e ∈ entries) (hafter : since < seq e) (hle : seq e ≤ since + limit) :
    e ∈ page seq entries since limit := by
  by_contra hout
  have hpage : (page seq entries since limit).Nodup := by
    refine List.Nodup.sublist (List.take_sublist _ _) ?_
    exact (List.perm_insertionSort _ _).nodup_iff.mpr (hnodup.filter _)
  have hseqs : ((page seq entries since limit).map seq).Nodup := by
    refine (List.nodup_map_iff_inj_on hpage).mpr fun x hx y hy heq => ?_
    exact hdistinct x (mem_of_mem_page hx).1 y (mem_of_mem_page hy).1 heq
  -- What is in the page is before the entry, so there is room for it.
  have hsub : (page seq entries since limit).map seq ⊆ List.range' (since + 1) (limit - 1) := by
    intro k hk
    obtain ⟨x, hx, rfl⟩ := List.mem_map.mp hk
    have hbefore := le_of_not_mem_page he hafter hout hx
    have hne : seq x ≠ seq e := by
      intro heq
      exact hout (hdistinct x (mem_of_mem_page hx).1 e he heq ▸ hx)
    have := (mem_of_mem_page hx).2
    rw [List.mem_range'_1]
    omega
  have hshort := (List.subperm_of_subset hseqs hsub).length_le
  rw [List.length_map, List.length_range'] at hshort
  have hall : (after seq entries since).length ≤ limit := by
    rw [page, List.length_take] at hshort
    omega
  rw [page, List.take_of_length_le hall] at hout
  exact hout (mem_after.mpr ⟨he, hafter⟩)

/-- Lists in strictly increasing order have the same entries only when they are the same. -/
theorem eq_of_mem_iff {α : Type*} {f : α → ℕ} {l l' : List α}
    (h : l.Pairwise fun a b => f a < f b) (h' : l'.Pairwise fun a b => f a < f b)
    (hmem : ∀ a, a ∈ l ↔ a ∈ l') : l = l' := by
  have hne : ∀ {l : List α}, (l.Pairwise fun a b => f a < f b) → l.Nodup := fun h =>
    h.imp fun hlt heq => Nat.ne_of_lt hlt (congrArg f heq)
  have hperm : l.Perm l' := (List.perm_ext_iff_of_nodup (hne h) (hne h')).mpr hmem
  exact hperm.eq_of_pairwise (fun a b _ _ hab hba => absurd hab (Nat.lt_asymm hba)) h h'

/-- A feed in order, without two entries at one position. -/
theorem strict_after (hdistinct : Distinct seq entries) (hnodup : entries.Nodup) (since : ℕ) :
    (after seq entries since).Pairwise fun a b => seq a < seq b := by
  have hdiffer : (after seq entries since).Nodup :=
    (List.perm_insertionSort _ _).nodup_iff.mpr (hnodup.filter _)
  refine ((pairwise_after seq entries since).and hdiffer).imp_of_mem fun ha hb hboth => ?_
  refine Nat.lt_of_le_of_ne hboth.1 fun heq => hboth.2 ?_
  exact hdistinct _ (mem_after.mp ha).1 _ (mem_after.mp hb).1 heq

theorem mem_page_mono {limit limit' : ℕ} (hle : limit ≤ limit') {e : ε}
    (h : e ∈ page seq entries since limit) : e ∈ page seq entries since limit' :=
  (List.take_sublist_take_left hle).subset h

/-- What follows a page is the rest of the feed. -/
theorem after_cursor (hdistinct : Distinct seq entries) (hnodup : entries.Nodup)
    (since limit : ℕ) : after seq entries (cursor seq (page seq entries since limit) since) =
      (after seq entries since).drop limit := by
  have hstrict := strict_after hdistinct hnodup since
  refine eq_of_mem_iff (strict_after hdistinct hnodup _)
    (hstrict.sublist (List.drop_sublist limit _)) fun e => ?_
  rw [mem_after]
  constructor
  · rintro ⟨he, hafter⟩
    have hmem : e ∈ after seq entries since :=
      mem_after.mpr ⟨he, Nat.lt_of_le_of_lt le_cursor hafter⟩
    rw [← List.take_append_drop limit (after seq entries since), List.mem_append] at hmem
    refine hmem.resolve_left fun hpage => ?_
    have hle := le_cursor_of_mem hpage
    omega
  · intro hrest
    obtain ⟨he, hafter⟩ := mem_after.mp (List.mem_of_mem_drop hrest)
    refine ⟨he, ?_⟩
    rcases cursor_eq seq (page seq entries since limit) since with heq | ⟨last, hlast, heq⟩
    · rwa [heq]
    · rw [heq]
      rw [← List.take_append_drop limit (after seq entries since), List.pairwise_append] at hstrict
      exact hstrict.2.2 last hlast e hrest

/-- Two pages are the page of both sizes. -/
theorem page_append (hdistinct : Distinct seq entries) (hnodup : entries.Nodup)
    (since limit limit' : ℕ) : page seq entries since limit ++
      page seq entries (cursor seq (page seq entries since limit) since) limit' =
        page seq entries since (limit + limit') := by
  have hrest := after_cursor hdistinct hnodup since limit
  rw [page] at hrest
  rw [page, page, page, hrest, List.take_add]

theorem cursor_append (seq : ε → ℕ) (page page' : List ε) (since : ℕ) :
    cursor seq (page ++ page') since = cursor seq page' (cursor seq page since) := by
  simp only [cursor, List.getLast?_append]
  cases page'.getLast? with
  | none => rfl
  | some e => rfl

namespace Write

variable {entries'' : List ε} {last last' last'' : ℕ}

/-- A write that changes no entry. -/
theorem of_mem_iff (h : Ordered seq entries last) (hmem : ∀ e, e ∈ entries' ↔ e ∈ entries) :
    Write seq entries last entries' last where
  ordered := by
    refine ⟨fun e he f hf => ?_, fun e he => ?_, fun e he => ?_⟩
    · exact h.distinct e ((hmem e).mp he) f ((hmem f).mp hf)
    · exact h.bounded e ((hmem e).mp he)
    · exact h.positive e ((hmem e).mp he)
  advances e he := Or.inl ((hmem e).mp he)
  counter := le_rfl

theorem refl (h : Ordered seq entries last) : Write seq entries last entries last :=
  of_mem_iff h fun _ => Iff.rfl

theorem trans (h : Write seq entries last entries' last')
    (h' : Write seq entries' last' entries'' last'') : Write seq entries last entries'' last'' where
  ordered := h'.ordered
  advances e he := by
    rcases h'.advances e he with hmid | hbehind
    · exact h.advances e hmid
    · exact Or.inr (h.counter.trans_lt hbehind)
  counter := h.counter.trans h'.counter

/-- A write that puts entries at positions of their own behind all there was. -/
theorem append (h : Ordered seq entries last) (hcounter : last ≤ last')
    (hput : ∀ e ∈ entries', e ∈ entries ∨ (last < seq e ∧ seq e ≤ last'))
    (hdistinct : ∀ e ∈ entries', ∀ f ∈ entries', last < seq e → seq e = seq f → e = f) :
    Write seq entries last entries' last' where
  ordered := by
    refine ⟨fun e he f hf heq => ?_, fun e he => ?_, fun e he => ?_⟩
    · by_cases hbehind : last < seq e
      · exact hdistinct e he f hf hbehind heq
      · rcases hput e he with hold | hnew
        · rcases hput f hf with hold' | hnew'
          · exact h.distinct e hold f hold' heq
          · omega
        · omega
    · rcases hput e he with hold | hnew
      · exact (h.bounded e hold).trans hcounter
      · exact hnew.2
    · rcases hput e he with hold | hnew
      · exact h.positive e hold
      · omega
  advances e he := (hput e he).imp_right fun hnew => hnew.1
  counter := hcounter

end Write

/-- A reader has nothing behind it when it starts. -/
theorem Covered.start (seq : ε → ℕ) (entries : List ε) (since : ℕ) (received : ε → Prop) :
    Covered seq entries since since received := by
  intro e _ hafter hle
  omega

/-- Moving entries behind the reader's cursor leaves nothing unread before it. -/
theorem Covered.advance {position last : ℕ} {received : ε → Prop}
    (h : Covered seq entries since position received) (hadvance : Advances seq last entries entries')
    (hposition : position = since ∨ position ≤ last) :
    Covered seq entries' since position received := by
  intro e he hafter hle
  rcases hadvance e he with hold | hbehind
  · exact h e hold hafter hle
  · omega

/-- Reading a page extends what is covered to the page's cursor. -/
theorem Covered.page {position : ℕ} {received : ε → Prop}
    (h : Covered seq entries since position received) (hdistinct : Distinct seq entries)
    (limit : ℕ) : Covered seq entries since
      (cursor seq (page seq entries position limit) position)
      (fun e => received e ∨ e ∈ Feed.page seq entries position limit) := by
  intro e he hafter hle
  by_cases hposition : seq e ≤ position
  · exact Or.inl (h e he hafter hposition)
  · exact Or.inr (mem_page_of_le_cursor hdistinct he (by omega) hle)

/-- After the last page everything has been received. -/
theorem Covered.complete {position : ℕ} {received : ε → Prop}
    (h : Covered seq entries since position received)
    (hlength : (Feed.page seq entries position (limit + 1)).length ≤ limit) {e : ε}
    (he : e ∈ entries) (hafter : since < seq e) :
    received e ∨ e ∈ Feed.page seq entries position limit := by
  by_cases hposition : seq e ≤ position
  · exact Or.inl (h e he hafter hposition)
  · exact Or.inr (mem_page_of_last hlength he (by omega))

end Feed
