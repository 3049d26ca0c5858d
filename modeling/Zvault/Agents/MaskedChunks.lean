import Zvault.Agents.MaskedOutput

/-!
# Where a masked stream is split

A secret at the end of a chunk is masked at once. When a longer secret begins
where it does, the rest of that one is not recognized in the next chunk.
-/

namespace Zvault.Agents

open Text

/-- A chunk ends after a secret and within a longer one that begins where it does. -/
def Cut (secrets chunks : List (List UInt8)) : Prop :=
  ∃ first last before s between tail, chunks = first ++ last ∧
    first.flatten = before ++ s ++ between ∧ s ∈ secrets ∧ s ++ between ++ tail ∈ secrets ∧
    tail ≠ [] ∧ tail <+: last.flatten

section Scan

variable {secrets : List (List UInt8)} {held : ℕ}

/-- Nothing that follows a buffer makes a longer secret of one that is in it. -/
def Uncut (secrets : List (List UInt8)) (buffer rest : List UInt8) : Prop :=
  ∀ before s between tail, buffer = before ++ s ++ between → s ∈ secrets →
    s ++ between ++ tail ∈ secrets → tail <+: rest → tail = []

theorem Uncut.drop (before : List UInt8) {buffer rest : List UInt8}
    (h : Uncut secrets (before ++ buffer) rest) :
    Uncut secrets buffer rest := by
  rintro before' s between tail rfl hs hlonger htail
  exact h (before ++ before') s between tail (by simp) hs hlonger htail

/-- The secret that is found in a buffer is found when more follows. -/
theorem find?_append {buffer rest s : List UInt8} (huncut : Uncut secrets buffer rest)
    (hfind : secrets.find? (·.isPrefixOf buffer) = some s) :
    secrets.find? (·.isPrefixOf (buffer ++ rest)) = some s := by
  obtain ⟨hs, between, hbuffer⟩ := mem_of_find? hfind
  rw [List.find?_eq_some_iff_append] at hfind ⊢
  obtain ⟨-, longer, shorter, hsecrets, hlonger⟩ := hfind
  refine ⟨?_, longer, shorter, hsecrets, fun t ht => ?_⟩
  · rw [List.isPrefixOf_iff_prefix, ← hbuffer, List.append_assoc]
    exact List.prefix_append _ _
  · have hnot : ¬ t <+: buffer := by
      simpa [← List.isPrefixOf_iff_prefix] using hlonger t ht
    have hnot' : ¬ t <+: buffer ++ rest := by
      intro hprefix
      rcases List.prefix_or_prefix_of_prefix hprefix (List.prefix_append buffer rest) with h | h
      · exact hnot h
      · obtain ⟨tail, rfl⟩ := h
        have htail : tail = [] := by
          refine huncut [] s between tail hbuffer.symm hs ?_ ?_
          · rw [hbuffer, hsecrets]
            exact List.mem_append_left _ ht
          · exact (List.prefix_append_right_inj buffer).mp hprefix
        exact hnot (by simp [htail])
    simpa [← List.isPrefixOf_iff_prefix] using hnot'

/-- The loop stops in a buffer where it stops to go on when more follows. -/
theorem scan_append (hne : ∀ s ∈ secrets, s ≠ []) (hheld : ∀ s ∈ secrets, s.length ≤ held + 1)
    {buffer rest : List UInt8} (huncut : Uncut secrets buffer rest) :
    (scan secrets 0 (buffer ++ rest)).1 =
      (scan secrets held buffer).1 ++ (scan secrets 0 ((scan secrets held buffer).2 ++ rest)).1 := by
  fun_induction scan secrets held buffer with
  | case1 => simp
  | case2 b buffer s hfind out left hscan ih =>
    have hs := mem_of_find? hfind
    have hdrop := append_drop_of_prefix (hne s hs.1) hs.2
    rw [← hdrop] at huncut
    have hrest := ih huncut.drop
    rw [hscan] at hrest
    have hfound : secrets.find? (·.isPrefixOf (b :: (buffer ++ rest))) = some s := by
      rw [hdrop] at huncut
      exact find?_append huncut hfind
    have hlength : s.length - 1 ≤ buffer.length := by
      have := hs.2.length_le
      rw [List.length_cons] at this
      omega
    rw [List.cons_append, scan_hide _ hfound, List.drop_append_of_le_length hlength]
    dsimp only
    rw [hrest, List.append_assoc]
  | case3 b buffer hfind hheld' => rfl
  | case4 b buffer hfind hheld' out left hscan ih =>
    have hrest := ih (Uncut.drop [b] huncut)
    rw [hscan] at hrest
    have hnone : secrets.find? (·.isPrefixOf (b :: (buffer ++ rest))) = none := by
      refine List.find?_eq_none.mpr fun s hs => ?_
      rw [List.isPrefixOf_iff_prefix, ← List.cons_append]
      have hlength := hheld s hs
      refine not_prefix_append (not_prefix_of_find? hfind s hs) (Or.inr ?_)
      rw [List.length_cons]
      omega
    rw [List.cons_append, scan_keep hnone (by omega)]
    dsimp only
    rw [hrest, List.cons_append]

theorem scan_no_secrets (buffer : List UInt8) : (scan [] 0 buffer).1 = buffer := by
  induction buffer with
  | nil => rw [scan_nil]
  | cons b buffer ih => rw [scan_keep rfl (by omega), ih]

/-- Something is written of a buffer that is not empty. -/
theorem scan_ne_nil (hne : ∀ s ∈ secrets, s ≠ []) {buffer : List UInt8} (hbuffer : buffer ≠ []) :
    (scan secrets 0 buffer).1 ≠ [] := by
  obtain ⟨ps, hps⟩ := exists_scanned 0 hne buffer
  have hleft : (scan secrets 0 buffer).2 = [] :=
    List.length_eq_zero_iff.mp (Nat.le_zero.mp hps.left_le)
  have hsource := hps.source
  rw [hleft, List.append_nil] at hsource
  rw [hps.shown]
  cases ps with
  | nil => exact absurd hsource.symm hbuffer
  | cons p ps => cases p <;> simp [Piece.shown, mask]

/-- A buffer that is a secret is masked whole. -/
theorem scan_self (hsorted : secrets.Pairwise fun s t => t.length ≤ s.length)
    {s : List UInt8} (hs : s ∈ secrets) (hne : s ≠ []) : scan secrets held s = (mask, []) := by
  have hfind : secrets.find? (·.isPrefixOf s) = some s := by
    cases hfound : secrets.find? (·.isPrefixOf s) with
    | none => exact absurd List.prefix_rfl (not_prefix_of_find? hfound s hs)
    | some t =>
      obtain ⟨-, ht⟩ := mem_of_find? hfound
      obtain ⟨-, before, after, rfl, hbefore⟩ := List.find?_eq_some_iff_append.mp hfound
      have hlength : s.length ≤ t.length := by
        rcases List.mem_append.mp hs with hs | hs
        · have hself : s.isPrefixOf s = true := List.isPrefixOf_iff_prefix.mpr List.prefix_rfl
          have hnot := hbefore s hs
          rw [hself] at hnot
          cases hnot
        · rcases List.mem_cons.mp hs with rfl | hs
          · exact le_rfl
          · exact (List.pairwise_cons.mp (List.pairwise_append.mp hsorted).2.1).1 s hs
      rw [ht.eq_of_length_le hlength]
  obtain ⟨b, s, rfl⟩ := List.exists_cons_of_ne_nil hne
  rw [scan_hide _ hfind, List.length_cons, Nat.add_sub_cancel, List.drop_length, scan_nil,
    List.append_nil]

end Scan

namespace Masker

theorem push_of_isEmpty {m : Masker} (hempty : m.secrets.isEmpty) (chunk : List UInt8) :
    (m.push chunk).1 = m.pending ++ chunk ∧ (m.push chunk).2.pending = [] := by
  unfold push
  rw [if_pos hempty]
  exact ⟨rfl, rfl⟩

theorem push_of_not_isEmpty {m : Masker} (hempty : ¬ m.secrets.isEmpty) (chunk : List UInt8) :
    (m.push chunk).1 = (scan m.secrets (m.longest - 1) (m.pending ++ chunk)).1 ∧
      (m.push chunk).2.pending = (scan m.secrets (m.longest - 1) (m.pending ++ chunk)).2 := by
  unfold push
  rw [if_neg hempty]
  exact ⟨rfl, rfl⟩

/-- A stream of which no chunk ends within a longer secret is masked as a whole. -/
theorem run_uncut (m : Masker) (chunks : List (List UInt8))
    (huncut : ∀ first last, chunks = first ++ last →
      Uncut m.secrets (m.pending ++ first.flatten) last.flatten) :
    m.run chunks = (scan m.secrets 0 (m.pending ++ chunks.flatten)).1 := by
  induction chunks generalizing m with
  | nil => rw [run, finish, List.flatten_nil, List.append_nil]
  | cons chunk chunks ih =>
    have hflatten : m.pending ++ (chunk :: chunks).flatten =
        m.pending ++ chunk ++ chunks.flatten := by
      rw [List.flatten_cons, List.append_assoc]
    by_cases hempty : m.secrets.isEmpty
    · obtain ⟨hout, hpending⟩ := push_of_isEmpty hempty chunk
      have hrest := ih (m.push chunk).2 (fun first last _ before s between tail _ hs => by
        rw [push_secrets, List.isEmpty_iff.mp hempty] at hs
        cases hs)
      rw [push_secrets, List.isEmpty_iff.mp hempty, hpending, scan_no_secrets] at hrest
      rw [run, hout, hrest, List.isEmpty_iff.mp hempty, scan_no_secrets, hflatten, List.nil_append]
    · obtain ⟨hout, hpending⟩ := push_of_not_isEmpty hempty chunk
      have hheld : ∀ s ∈ m.secrets, s.length ≤ m.longest - 1 + 1 := by
        intro s hs
        have := m.length_le_longest hs
        omega
      have hsplit := scan_append m.ne_nil_of_mem hheld
        (huncut [chunk] chunks rfl)
      rw [List.flatten_singleton] at hsplit
      have hrest := ih (m.push chunk).2 (fun first last hchunks => by
        obtain ⟨ps, -, hsource, -⟩ := m.exists_pushed chunk
        have hall := huncut (chunk :: first) last (by rw [hchunks, List.cons_append])
        rw [List.flatten_cons, ← List.append_assoc, ← hsource, List.append_assoc] at hall
        rw [push_secrets]
        exact hall.drop)
      rw [push_secrets, hpending] at hrest
      rw [run, hout, hrest, hflatten, hsplit]

theorem run_single (m : Masker) (hpending : m.pending = []) (chunk : List UInt8) :
    m.run [chunk] = (scan m.secrets 0 chunk).1 := by
  have hrun := m.run_uncut [chunk] (fun first last hchunks before s between tail hfirst hs _ htail => by
    rcases List.append_eq_singleton_iff.mp hchunks.symm with ⟨rfl, rfl⟩ | ⟨rfl, rfl⟩
    · rw [hpending] at hfirst
      simp only [List.flatten_nil, List.nil_append, List.nil_eq, List.append_eq_nil_iff] at hfirst
      exact absurd hfirst.1.2 (m.ne_nil_of_mem s hs)
    · exact List.prefix_nil.mp htail)
  rwa [hpending, List.nil_append, List.flatten_singleton] at hrun

theorem run_eq_of_not_cut (m : Masker) (hpending : m.pending = []) {chunks : List (List UInt8)}
    (hcut : ¬ Cut m.secrets chunks) : m.run chunks = m.run [chunks.flatten] := by
  rw [run_single m hpending, run_uncut m chunks, hpending, List.nil_append]
  intro first last hchunks before s between tail hfirst hs hlonger htail
  rw [hpending, List.nil_append] at hfirst
  by_contra hne
  exact hcut ⟨first, last, before, s, between, tail, hchunks, hfirst, hs, hlonger, hne, htail⟩

/-- A stream that is split after a secret which a longer one begins with. -/
theorem run_split_ne (m : Masker) (hpending : m.pending = []) {s tail : List UInt8}
    (hs : s ∈ m.secrets) (hlonger : s ++ tail ∈ m.secrets) (htail : tail ≠ []) :
    m.run [s, tail] ≠ m.run [[s, tail].flatten] := by
  have hwhole : m.run [[s, tail].flatten] = mask := by
    have hflatten : [s, tail].flatten = s ++ tail := by simp
    rw [run_single m hpending, hflatten, scan_self m.sorted hlonger (m.ne_nil_of_mem _ hlonger)]
  have hempty : ¬ m.secrets.isEmpty := by
    rw [List.isEmpty_iff]
    rintro hnone
    rw [hnone] at hs
    cases hs
  obtain ⟨hout, hrest⟩ := push_of_not_isEmpty hempty s
  rw [hpending, List.nil_append, scan_self m.sorted hs (m.ne_nil_of_mem s hs)] at hout hrest
  rw [hwhole, run, hout, run_single _ hrest, push_secrets]
  intro h
  have hnone : (scan m.secrets 0 tail).1 = [] := List.append_right_eq_self.mp h
  exact scan_ne_nil m.ne_nil_of_mem htail hnone

end Masker

theorem cut_congr {secrets secrets' : List (List UInt8)} (h : ∀ s, s ∈ secrets ↔ s ∈ secrets')
    {chunks : List (List UInt8)} (hcut : Cut secrets chunks) : Cut secrets' chunks := by
  obtain ⟨first, last, before, s, between, tail, hchunks, hfirst, hs, hlonger, hrest⟩ := hcut
  exact ⟨first, last, before, s, between, tail, hchunks, hfirst, (h s).mp hs, (h _).mp hlonger, hrest⟩

/-- **Masking does not depend on chunking** exactly when no secret that is kept begins another.
Whatever the secrets are, it does not when no chunk ends within a longer one. -/
theorem masking_unchunked_iff (secrets : List (List UInt8)) :
    ((∀ chunks, (Masker.new secrets).run chunks = (Masker.new secrets).run [chunks.flatten]) ↔
      ∀ s ∈ Masker.kept secrets, ∀ t ∈ Masker.kept secrets, s <+: t → s = t) ∧
    ∀ chunks, ¬ Cut (Masker.kept secrets) chunks →
      (Masker.new secrets).run chunks = (Masker.new secrets).run [chunks.flatten] := by
  have huncut : ∀ chunks, ¬ Cut (Masker.kept secrets) chunks →
      (Masker.new secrets).run chunks = (Masker.new secrets).run [chunks.flatten] :=
    fun chunks hcut => (Masker.new secrets).run_eq_of_not_cut rfl
      fun h => hcut (cut_congr (fun _ => Masker.mem_ordered) h)
  refine ⟨⟨fun hsame s hs t ht hprefix => ?_, fun hfree chunks => huncut chunks ?_⟩, huncut⟩
  · obtain ⟨tail, rfl⟩ := hprefix
    by_contra hne
    refine (Masker.new secrets).run_split_ne rfl (Masker.mem_ordered.mpr hs)
      (Masker.mem_ordered.mpr ht) ?_ (hsame [s, tail])
    rintro rfl
    exact hne (List.append_nil s).symm
  · rintro ⟨first, last, before, s, between, tail, -, -, hs, hlonger, htail, -⟩
    rw [List.append_assoc] at hlonger
    have hsame := hfree s hs _ hlonger (List.prefix_append _ _)
    have hnone : between ++ tail = [] := List.append_right_eq_self.mp hsame.symm
    exact htail (List.append_eq_nil_iff.mp hnone).2

/-- `abcd` and `abcdefgh`, the longer one in two writes: its second half is passed through. -/
theorem masking_depends_on_chunks :
    ¬ ∀ secrets chunks,
      (Masker.new secrets).run chunks = (Masker.new secrets).run [chunks.flatten] := by
  intro h
  let secrets : List (List UInt8) := [[97, 98, 99, 100], [97, 98, 99, 100, 101, 102, 103, 104]]
  have hshort : [97, 98, 99, 100] ∈ Masker.kept secrets := by decide
  have hlong : [97, 98, 99, 100] ++ [101, 102, 103, 104] ∈ Masker.kept secrets := by decide
  exact (Masker.new secrets).run_split_ne rfl (Masker.mem_ordered.mpr hshort)
    (Masker.mem_ordered.mpr hlong) (by decide) (h secrets _)

end Zvault.Agents
