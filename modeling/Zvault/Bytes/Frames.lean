import Mathlib.Algebra.Ring.Nat
import Mathlib.Data.List.Flatten

/-!
# Frames in a stream of bytes

A frame is its length, in a fixed number of bytes, and what it holds. Frames that are
written one after the other are read as they were written, however the stream is cut
into the parts that arrive.
-/

namespace Frames

/-- How lengths below a bound are written. -/
structure LengthCode where
  width : ℕ
  bound : ℕ
  write : ℕ → List UInt8
  read : List UInt8 → ℕ
  width_pos : 0 < width
  length_write : ∀ n, (write n).length = width
  read_write : ∀ n < bound, read (write n) = n

variable (C : LengthCode)

def frame (content : List UInt8) : List UInt8 := C.write content.length ++ content

/-- One frame after the other. -/
def frames (contents : List (List UInt8)) : List UInt8 := contents.flatMap (frame C)

/-- What is at the front of the bytes that have arrived. -/
inductive Front where
  /-- Not all of a frame. -/
  | incomplete
  /-- A frame that is longer than is accepted. -/
  | tooLarge
  | whole (content rest : List UInt8)
  deriving DecidableEq, Repr

/-- The front of the bytes that have arrived, where frames of up to `max` bytes are accepted. -/
def front (max : ℕ) (bytes : List UInt8) : Front :=
  if bytes.length < C.width then .incomplete
  else
    let n := C.read (bytes.take C.width)
    if max < n then .tooLarge
    else if bytes.length < C.width + n then .incomplete
    else .whole ((bytes.drop C.width).take n) (bytes.drop (C.width + n))

variable {C} {max : ℕ} {bytes later content rest : List UInt8} {contents : List (List UInt8)}

@[simp] theorem frames_nil : frames C [] = [] := rfl

theorem frames_cons (content : List UInt8) (contents : List (List UInt8)) :
    frames C (content :: contents) = frame C content ++ frames C contents := rfl

@[simp] theorem frames_append (contents contents' : List (List UInt8)) :
    frames C (contents ++ contents') = frames C contents ++ frames C contents' :=
  List.flatMap_append

theorem frames_singleton (content : List UInt8) : frames C [content] = frame C content := by
  rw [frames_cons, frames_nil, List.append_nil]

/-- The length at the front of a stream is that of its first frame, once it has arrived. -/
theorem read_take (hbound : content.length < C.bound) (hwidth : C.width ≤ bytes.length)
    (hstream : bytes ++ later = frame C content ++ rest) :
    C.read (bytes.take C.width) = content.length := by
  have htake := congrArg (List.take C.width) hstream
  rw [List.take_append_of_le_length hwidth, frame, List.append_assoc,
    List.take_left' (C.length_write _)] at htake
  rw [htake, C.read_write _ hbound]

/-- **What is read from a stream of frames** is its first frame, and the stream goes on with the
others. -/
theorem front_eq_whole (hbound : ∀ c ∈ contents, c.length < C.bound)
    (hstream : bytes ++ later = frames C contents)
    (hfront : front C max bytes = .whole content rest) :
    ∃ others, contents = content :: others ∧ content.length ≤ max ∧
      rest ++ later = frames C others := by
  unfold front at hfront
  split at hfront
  · cases hfront
  rename_i hwidth
  dsimp only at hfront
  split at hfront
  · cases hfront
  rename_i hmax
  split at hfront
  · cases hfront
  rename_i hwhole
  obtain ⟨rfl, rfl⟩ := Front.whole.inj hfront
  cases contents with
  | nil =>
    have hnil : bytes = [] := (List.append_eq_nil_iff.mp hstream).1
    rw [hnil] at hwidth
    exact absurd C.width_pos hwidth
  | cons c others =>
    rw [frames_cons] at hstream
    have hread := read_take (hbound c List.mem_cons_self) (by omega) hstream
    rw [hread] at hmax hwhole ⊢
    have hdrop := congrArg (List.drop C.width) hstream
    rw [List.drop_append_of_le_length (by omega), frame, List.append_assoc,
      List.drop_left' (C.length_write _)] at hdrop
    have hrest := congrArg (List.drop c.length) hdrop
    rw [List.drop_append_of_le_length (by rw [List.length_drop]; omega), List.drop_left' rfl,
      List.drop_drop] at hrest
    have hcontent := congrArg (List.take c.length) hdrop
    rw [List.take_append_of_le_length (by rw [List.length_drop]; omega),
      List.take_left' rfl] at hcontent
    exact ⟨others, by rw [hcontent], by rw [hcontent]; omega, hrest⟩

/-- `u32::to_le_bytes`. -/
def leBytes (n : ℕ) : List UInt8 :=
  [.ofNat n, .ofNat (n / 2 ^ 8), .ofNat (n / 2 ^ 16), .ofNat (n / 2 ^ 24)]

/-- `u32::from_le_bytes`. -/
def ofLeBytes (bytes : List UInt8) : ℕ := bytes.foldr (fun b n => b.toNat + 256 * n) 0

theorem ofLeBytes_leBytes {n : ℕ} (h : n < 2 ^ 32) : ofLeBytes (leBytes n) = n := by
  simp only [leBytes, ofLeBytes, List.foldr_cons, List.foldr_nil, UInt8.toNat_ofNat']
  omega

/-- Lengths in four bytes, the lowest first. -/
def u32le : LengthCode where
  width := 4
  bound := 2 ^ 32
  write := leBytes
  read := ofLeBytes
  width_pos := by decide
  length_write _ := rfl
  read_write _ := ofLeBytes_leBytes

example : front u32le 64 ([3, 0, 0, 0, 1, 2, 3] ++ [9]) = .whole [1, 2, 3] [9] := by decide

end Frames
