import Zvault.Agents.Masker

/-!
# What is left of secrets in the output

The output of a masked stream shows the input with secrets hidden, and no
secret is shown whole. Where the stream is split makes a difference only to a
secret that another begins with.
-/

namespace Zvault.Agents

open Text

/-- What the loop makes of a buffer: the pieces that it writes. -/
structure Scanned (secrets : List (List UInt8)) (held : ℕ) (buffer : List UInt8)
    (ps : List (Piece UInt8)) : Prop where
  shown : (scan secrets held buffer).1 = shown mask ps
  source : source ps ++ (scan secrets held buffer).2 = buffer
  hidden : ∀ s, Piece.hidden s ∈ ps → s ∈ secrets
  clear : ∀ rest, (rest = [] ∨ ∀ s ∈ secrets, s.length ≤ held + 1) →
    Clear secrets ((scan secrets held buffer).2 ++ rest) ps
  left_le : (scan secrets held buffer).2.length ≤ held

variable {secrets : List (List UInt8)} {held : ℕ}

/-- The first secret that matches is one, and is where the buffer begins. -/
theorem mem_of_find? {buffer s : List UInt8}
    (hfind : secrets.find? (·.isPrefixOf buffer) = some s) : s ∈ secrets ∧ s <+: buffer :=
  ⟨List.mem_of_find?_eq_some hfind,
    List.isPrefixOf_iff_prefix.mp
      (List.find?_some (p := fun s : List UInt8 => s.isPrefixOf buffer) hfind)⟩

theorem not_prefix_of_find? {buffer : List UInt8}
    (hfind : secrets.find? (·.isPrefixOf buffer) = none) : ∀ s ∈ secrets, ¬ s <+: buffer :=
  fun s hs hprefix => List.find?_eq_none.mp hfind s hs (List.isPrefixOf_iff_prefix.mpr hprefix)

/-- After a secret that is not empty, the rest is what the loop goes on with. -/
theorem append_drop_of_prefix {b : UInt8} {rest s : List UInt8} (hne : s ≠ []) (hs : s <+: b :: rest) :
    s ++ rest.drop (s.length - 1) = b :: rest := by
  obtain ⟨c, s, rfl⟩ := List.exists_cons_of_ne_nil hne
  obtain ⟨tail, htail⟩ := hs
  obtain ⟨rfl, rfl⟩ := List.cons.inj htail
  simp

/-- A secret that is no prefix of a buffer long enough for it stays none, whatever follows. -/
theorem not_prefix_append {buffer s rest : List UInt8} (hnot : ¬ s <+: buffer)
    (hlength : rest = [] ∨ s.length ≤ buffer.length) : ¬ s <+: buffer ++ rest := by
  intro hprefix
  rcases hlength with rfl | hlength
  · rw [List.append_nil] at hprefix
    exact hnot hprefix
  · exact hnot (List.prefix_of_prefix_length_le hprefix (List.prefix_append _ _) hlength)

theorem exists_scanned (held : ℕ) (hne : ∀ s ∈ secrets, s ≠ []) (buffer : List UInt8) :
    ∃ ps, Scanned secrets held buffer ps := by
  fun_induction scan secrets held buffer with
  | case1 =>
    refine ⟨[], ?_⟩
    constructor <;> simp [Clear]
  | case2 b rest s hfind out left hscan ih =>
    obtain ⟨ps, hps⟩ := ih
    have hs := mem_of_find? hfind
    refine ⟨.hidden s :: ps, ?_⟩
    have hstep := scan_hide held hfind
    constructor
    · rw [hstep, hps.shown, shown_cons, Piece.shown]
    · rw [hstep, source_cons, Piece.source, List.append_assoc, hps.source,
        append_drop_of_prefix (hne s hs.1) hs.2]
    · intro s' hs'
      rcases List.mem_cons.mp hs' with h | h
      · cases h
        exact hs.1
      · exact hps.hidden s' h
    · rw [hstep]
      exact hps.clear
    · rw [hstep]
      exact hps.left_le
  | case3 b rest hfind hheld =>
    have hstep := scan_wait hfind hheld
    refine ⟨[], ?_⟩
    constructor
    · rw [hstep, shown_nil]
    · rw [hstep, source_nil, List.nil_append]
    · intro s hs
      cases hs
    · exact fun _ _ => trivial
    · rw [hstep]
      exact hheld
  | case4 b rest hfind hheld out left hscan ih =>
    obtain ⟨ps, hps⟩ := ih
    refine ⟨.kept b :: ps, ?_⟩
    have hstep := scan_keep hfind hheld
    constructor
    · rw [hstep, hps.shown, shown_cons, Piece.shown, List.singleton_append]
    · rw [hstep, source_cons, Piece.source, List.append_assoc, hps.source, List.singleton_append]
    · intro s' hs'
      rcases List.mem_cons.mp hs' with h | h
      · cases h
      · exact hps.hidden s' h
    · intro rest' hrest'
      rw [hstep]
      refine ⟨fun s hs => ?_, hps.clear rest' hrest'⟩
      rw [← List.append_assoc, hps.source, ← List.cons_append]
      refine not_prefix_append (not_prefix_of_find? hfind s hs) ?_
      rcases hrest' with h | h
      · exact Or.inl h
      · have hlength := h s hs
        exact Or.inr (by rw [List.length_cons]; omega)
    · rw [hstep]
      exact hps.left_le

namespace Masker

/-- No secret is longer than the longest one. -/
theorem length_le_longest (m : Masker) {s : List UInt8} (hs : s ∈ m.secrets) :
    s.length ≤ m.longest := by
  rw [m.longest_eq]
  have hsorted := m.sorted
  cases hsecrets : m.secrets with
  | nil =>
    rw [hsecrets] at hs
    cases hs
  | cons t ts =>
    rw [hsecrets] at hs hsorted
    rcases List.mem_cons.mp hs with rfl | hs
    · exact le_rfl
    · exact (List.pairwise_cons.mp hsorted).1 s hs

theorem ne_nil_of_mem (m : Masker) : ∀ s ∈ m.secrets, s ≠ [] := by
  rintro s hs rfl
  exact absurd (m.long [] hs) (by decide)

/-- What a push makes of a chunk. -/
theorem exists_pushed (m : Masker) (chunk : List UInt8) :
    ∃ ps, (m.push chunk).1 = shown mask ps ∧
      source ps ++ (m.push chunk).2.pending = m.pending ++ chunk ∧
      (∀ s, Piece.hidden s ∈ ps → s ∈ m.secrets) ∧
      ∀ rest, Clear m.secrets ((m.push chunk).2.pending ++ rest) ps := by
  unfold push
  by_cases hempty : m.secrets.isEmpty
  · rw [if_pos hempty]
    refine ⟨(m.pending ++ chunk).map .kept, (shown_kept _ _).symm, ?_, ?_, fun rest => ?_⟩
    · rw [source_kept, List.append_nil]
    · intro s hs
      obtain ⟨c, -, h⟩ := List.mem_map.mp hs
      cases h
    · dsimp only
      rw [List.isEmpty_iff.mp hempty]
      exact clear_no_words _ _
  · rw [if_neg hempty]
    obtain ⟨ps, hps⟩ := exists_scanned (m.longest - 1) m.ne_nil_of_mem (m.pending ++ chunk)
    refine ⟨ps, hps.shown, hps.source, hps.hidden, fun rest => hps.clear rest (Or.inr ?_)⟩
    intro s hs
    have := m.length_le_longest hs
    omega

@[simp] theorem push_secrets (m : Masker) (chunk : List UInt8) :
    (m.push chunk).2.secrets = m.secrets := by
  unfold push
  split <;> rfl

/-- Fewer bytes than the longest secret has are held back. -/
theorem push_pending (m : Masker) (chunk : List UInt8) :
    (m.push chunk).2.pending.length ≤ m.longest - 1 := by
  unfold push
  by_cases hempty : m.secrets.isEmpty
  · rw [if_pos hempty]
    exact Nat.zero_le _
  · rw [if_neg hempty]
    obtain ⟨ps, hps⟩ := exists_scanned (m.longest - 1) m.ne_nil_of_mem (m.pending ++ chunk)
    exact hps.left_le

/-- What a run makes of its chunks. -/
theorem exists_run (m : Masker) (chunks : List (List UInt8)) :
    ∃ ps, m.run chunks = shown mask ps ∧ source ps = m.pending ++ chunks.flatten ∧
      (∀ s, Piece.hidden s ∈ ps → s ∈ m.secrets) ∧ Clear m.secrets [] ps := by
  induction chunks generalizing m with
  | nil =>
    obtain ⟨ps, hps⟩ := exists_scanned 0 m.ne_nil_of_mem m.pending
    have hleft : (scan m.secrets 0 m.pending).2 = [] :=
      List.length_eq_zero_iff.mp (Nat.le_zero.mp hps.left_le)
    have hsource := hps.source
    have hclear := hps.clear [] (Or.inl rfl)
    rw [hleft] at hsource hclear
    refine ⟨ps, hps.shown, ?_, hps.hidden, hclear⟩
    rw [← hsource, List.append_nil, List.flatten_nil, List.append_nil]
  | cons chunk chunks ih =>
    obtain ⟨ps, hshown, hsource, hhidden, hclear⟩ := m.exists_pushed chunk
    obtain ⟨qs, hshown', hsource', hhidden', hclear'⟩ := ih (m.push chunk).2
    rw [push_secrets] at hhidden' hclear'
    refine ⟨ps ++ qs, ?_, ?_, ?_, ?_⟩
    · rw [run, hshown, hshown', shown_append]
    · rw [source_append, hsource', ← List.append_assoc, hsource, List.append_assoc,
        List.flatten_cons]
    · intro s hs
      rcases List.mem_append.mp hs with hs | hs
      · exact hhidden s hs
      · exact hhidden' s hs
    · refine Clear.append ?_ hclear'
      rw [hsource', List.append_nil]
      exact hclear _

theorem after_secrets (m : Masker) (chunks : List (List UInt8)) :
    (m.after chunks).secrets = m.secrets := by
  induction chunks generalizing m with
  | nil => rfl
  | cons chunk chunks ih =>
    have hrest := ih (m.push chunk).2
    rwa [push_secrets] at hrest

theorem after_longest (m : Masker) (chunks : List (List UInt8)) :
    (m.after chunks).longest = m.longest := by
  rw [(m.after chunks).longest_eq, after_secrets, ← m.longest_eq]

/-- Between pushes fewer bytes than the longest secret has are held back. -/
theorem after_pending (m : Masker) (hpending : m.pending = []) (chunks : List (List UInt8)) :
    (m.after chunks).pending.length ≤ m.longest - 1 := by
  rcases List.eq_nil_or_concat chunks with rfl | ⟨init, chunk, rfl⟩
  · rw [after, List.foldl_nil, hpending]
    exact Nat.zero_le _
  · have hlast := (m.after init).push_pending chunk
    rw [after_longest] at hlast
    rw [after, List.concat_eq_append, List.foldl_append]
    exact hlast

/-- Removing neighbours that are the same keeps every element. -/
theorem mem_destutter' {l : List (List UInt8)} {s t : List UInt8} (hs : s = t ∨ s ∈ l) :
    s ∈ l.destutter' (· ≠ ·) t := by
  induction l generalizing t with
  | nil => simpa using hs
  | cons u l ih =>
    by_cases hsame : t = u
    · rw [List.destutter'_cons_neg _ (not_not.mpr hsame)]
      refine ih ?_
      rcases hs with rfl | hs
      · exact Or.inl rfl
      · rcases List.mem_cons.mp hs with rfl | hs
        · exact Or.inl hsame.symm
        · exact Or.inr hs
    · rw [List.destutter'_cons_pos _ hsame]
      rcases hs with rfl | hs
      · exact List.mem_cons_self
      · exact List.mem_cons_of_mem _ (ih (List.mem_cons.mp hs))

/-- The secrets that a masker keeps. -/
theorem mem_ordered {secrets : List (List UInt8)} {s : List UInt8} :
    s ∈ ordered secrets ↔ s ∈ kept secrets := by
  constructor
  · exact fun hs => (List.mem_insertionSort _).mp ((List.destutter_sublist _ _).subset hs)
  · intro hs
    have hsorted := (List.mem_insertionSort fun s t : List UInt8 => t.length ≤ s.length).mpr hs
    unfold ordered
    cases hl : (kept secrets).insertionSort (fun s t => t.length ≤ s.length) with
    | nil =>
      rw [hl] at hsorted
      cases hsorted
    | cons t l =>
      rw [hl] at hsorted
      rw [List.destutter_cons']
      exact mem_destutter' (List.mem_cons.mp hsorted)

end Masker

/-- **Masking is faithful and leaks no secret.** What is written of a stream is the stream with
disjoint secrets hidden, no secret that is kept is passed through whole, and fewer bytes than the
longest of them are held back. -/
theorem masking_faithful (secrets : List (List UInt8)) :
    (∀ chunks, ∃ ps, (Masker.new secrets).run chunks = shown mask ps ∧
      source ps = chunks.flatten ∧ (∀ s, Piece.hidden s ∈ ps → s ∈ Masker.kept secrets) ∧
      ∀ s ∈ Masker.kept secrets, ¬ s.map .kept <:+: ps) ∧
    (∀ chunks, if Masker.kept secrets = [] then ((Masker.new secrets).after chunks).pending = []
      else ∃ s ∈ Masker.kept secrets,
        ((Masker.new secrets).after chunks).pending.length < s.length) ∧
    ∀ reads, pump secrets reads = (Masker.new secrets).run (chunksOf reads) := by
  refine ⟨fun chunks => ?_, fun chunks => ?_, fun reads => pumpFrom_eq _ reads⟩
  · obtain ⟨ps, hshown, hsource, hhidden, hclear⟩ := (Masker.new secrets).exists_run chunks
    refine ⟨ps, hshown, hsource, fun s hs => Masker.mem_ordered.mp (hhidden s hs), fun s hs => ?_⟩
    have hordered := Masker.mem_ordered.mpr hs
    exact hclear.not_infix hordered ((Masker.new secrets).ne_nil_of_mem s hordered)
  · have hpending := (Masker.new secrets).after_pending rfl chunks
    have hlongest : (Masker.new secrets).longest =
      ((Masker.ordered secrets).head?.map List.length).getD 0 := rfl
    split
    · rename_i hnone
      have hordered : Masker.ordered secrets = [] := by
        refine List.eq_nil_iff_forall_not_mem.mpr fun s hs => ?_
        rw [Masker.mem_ordered, hnone] at hs
        cases hs
      rw [hlongest, hordered] at hpending
      exact List.length_eq_zero_iff.mp (Nat.le_zero.mp hpending)
    · rename_i hsome
      obtain ⟨s, hs⟩ := List.exists_mem_of_ne_nil _ hsome
      have hordered := Masker.mem_ordered.mpr hs
      cases hhead : Masker.ordered secrets with
      | nil =>
        rw [hhead] at hordered
        cases hordered
      | cons t ts =>
        have ht : t ∈ Masker.ordered secrets := by
          rw [hhead]
          exact List.mem_cons_self
        have hlong := (Masker.new secrets).long t ht
        rw [hlongest, hhead] at hpending
        refine ⟨t, Masker.mem_ordered.mp ht, lt_of_le_of_lt hpending ?_⟩
        exact Nat.sub_lt (lt_of_lt_of_le (by decide) hlong) Nat.one_pos

end Zvault.Agents
