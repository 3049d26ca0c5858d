import Mathlib.Data.List.Destutter
import Mathlib.Data.List.Sort
import Zvault.Text.Separated

/-!
# Secrets in the output of a command

`mask.rs`: the values of secrets are replaced in a child process's output as it
streams. Bytes that might be the start of a secret split across two writes are
held back.
-/

namespace Zvault.Agents

open Text

def mask : List UInt8 := List.replicate 8 42

/-- Shorter values are not masked. -/
def minMaskedLen : ℕ := 4

/-- The loop of `scan`, at what is left of the buffer. The last `held` bytes are those past `safe`.
Returns what can be written and what is not consumed. -/
def scan (secrets : List (List UInt8)) (held : ℕ) : List UInt8 → List UInt8 × List UInt8
  | [] => ([], [])
  | b :: rest =>
    match secrets.find? (·.isPrefixOf (b :: rest)) with
    | some s =>
      -- No secret is empty: the loop goes on after its last byte.
      let (out, left) := scan secrets held (rest.drop (s.length - 1))
      (mask ++ out, left)
    | none =>
      if rest.length + 1 ≤ held then ([], b :: rest)
      else
        let (out, left) := scan secrets held rest
        (b :: out, left)
termination_by buffer => buffer.length
decreasing_by
  · simp only [List.length_drop, List.length_cons]
    omega
  · simp

section Scan

variable {secrets : List (List UInt8)} {held : ℕ} {b : UInt8} {rest s : List UInt8}

@[simp] theorem scan_nil : scan secrets held [] = ([], []) := by rw [scan]

theorem scan_hide (held : ℕ) (hfind : secrets.find? (·.isPrefixOf (b :: rest)) = some s) :
    scan secrets held (b :: rest) =
      (mask ++ (scan secrets held (rest.drop (s.length - 1))).1,
        (scan secrets held (rest.drop (s.length - 1))).2) := by
  rw [scan, hfind]

theorem scan_wait (hfind : secrets.find? (·.isPrefixOf (b :: rest)) = none)
    (hheld : rest.length + 1 ≤ held) : scan secrets held (b :: rest) = ([], b :: rest) := by
  rw [scan, hfind]
  exact if_pos hheld

theorem scan_keep (hfind : secrets.find? (·.isPrefixOf (b :: rest)) = none)
    (hheld : ¬ rest.length + 1 ≤ held) :
    scan secrets held (b :: rest) = (b :: (scan secrets held rest).1, (scan secrets held rest).2) := by
  rw [scan, hfind]
  exact if_neg hheld

end Scan

/-- A streaming masker. Longer secrets come first. -/
structure Masker where
  secrets : List (List UInt8)
  pending : List UInt8
  longest : ℕ
  sorted : secrets.Pairwise fun s t => t.length ≤ s.length
  long : ∀ s ∈ secrets, minMaskedLen ≤ s.length
  longest_eq : longest = (secrets.head?.map List.length).getD 0

namespace Masker

/-- The secrets that are masked. -/
def kept (secrets : List (List UInt8)) : List (List UInt8) :=
  secrets.filter fun s => minMaskedLen ≤ s.length

/-- Longest first, so that a secret containing another is masked whole. -/
def ordered (secrets : List (List UInt8)) : List (List UInt8) :=
  ((kept secrets).insertionSort fun s t => t.length ≤ s.length).destutter (· ≠ ·)

def new (secrets : List (List UInt8)) : Masker where
  secrets := ordered secrets
  pending := []
  longest := ((ordered secrets).head?.map List.length).getD 0
  sorted := by
    have hsorted := List.pairwise_insertionSort (fun s t : List UInt8 => t.length ≤ s.length)
      (kept secrets)
    exact hsorted.sublist (List.destutter_sublist _ _)
  long s hs := by
    have hkept := (List.mem_insertionSort _).mp ((List.destutter_sublist _ _).subset hs)
    exact of_decide_eq_true (List.mem_filter.mp hkept).2
  longest_eq := rfl

/-- What can be written now, and the masker that holds the rest back. -/
def push (m : Masker) (chunk : List UInt8) : List UInt8 × Masker :=
  let buffer := m.pending ++ chunk
  if m.secrets.isEmpty then (buffer, { m with pending := [] })
  else
    let (out, left) := scan m.secrets (m.longest - 1) buffer
    (out, { m with pending := left })

/-- Everything that is still held back. -/
def finish (m : Masker) : List UInt8 × Masker :=
  ((scan m.secrets 0 m.pending).1, { m with pending := [] })

/-- What is written of a stream. -/
def run (m : Masker) : List (List UInt8) → List UInt8
  | [] => m.finish.1
  | chunk :: chunks => (m.push chunk).1 ++ run (m.push chunk).2 chunks

/-- The masker after some chunks. -/
def after (m : Masker) (chunks : List (List UInt8)) : Masker :=
  chunks.foldl (fun m chunk => (m.push chunk).2) m

end Masker

/-- What `pump` reads. -/
inductive ReadResult where
  | ok (bytes : List UInt8)
  | interrupted
  | failed
  deriving DecidableEq, Repr

/-- The loop of `pump`, which ends with the stream or an error. What it writes goes through. -/
def pumpFrom (m : Masker) : List ReadResult → List UInt8
  | [] => m.finish.1
  | .ok bytes :: reads =>
    if bytes.isEmpty then m.finish.1 else (m.push bytes).1 ++ pumpFrom (m.push bytes).2 reads
  | .interrupted :: reads => pumpFrom m reads
  | .failed :: _ => m.finish.1

def pump (secrets : List (List UInt8)) (reads : List ReadResult) : List UInt8 :=
  pumpFrom (Masker.new secrets) reads

/-- The chunks that `pump` reads. -/
def chunksOf : List ReadResult → List (List UInt8)
  | [] => []
  | .ok bytes :: reads => if bytes.isEmpty then [] else bytes :: chunksOf reads
  | .interrupted :: reads => chunksOf reads
  | .failed :: _ => []

theorem pumpFrom_eq (m : Masker) (reads : List ReadResult) :
    pumpFrom m reads = m.run (chunksOf reads) := by
  induction reads generalizing m with
  | nil => rfl
  | cons r reads ih =>
    cases r with
    | ok bytes =>
      by_cases hempty : bytes.isEmpty
      · rw [pumpFrom, chunksOf, if_pos hempty, if_pos hempty, Masker.run]
      · rw [pumpFrom, chunksOf, if_neg hempty, if_neg hempty, Masker.run, ih]
    | interrupted => exact ih m
    | failed => rfl

end Zvault.Agents
