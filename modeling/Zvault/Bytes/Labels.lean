import Mathlib.Data.List.Infix

/-!
# Labelled bytes

Byte strings that begin with one of a few labels. When no label is a prefix of
another, the bytes determine the label and what follows it.
-/

namespace Bytes

variable {ι α : Type*}

/-- No label is a prefix of another. -/
def PrefixFree (label : ι → List α) : Prop := ∀ i j, label i <+: label j → i = j

/-- What begins with a label is read in one way only. -/
theorem PrefixFree.append_inj {label : ι → List α} (h : PrefixFree label) {i j : ι} {x y : List α}
    (heq : label i ++ x = label j ++ y) : i = j ∧ x = y := by
  have hsame : i = j := by
    rcases List.prefix_or_prefix_of_prefix (heq ▸ List.prefix_append (label i) x)
      (List.prefix_append (label j) y) with hij | hji
    · exact h i j hij
    · exact (h j i hji).symm
  subst hsame
  exact ⟨rfl, List.append_cancel_left heq⟩

/-- `str::as_bytes`. -/
def utf8 (s : String) : List UInt8 := s.toByteArray.data.toList

theorem utf8_ofList (cs : List Char) :
    utf8 (String.ofList cs) = cs.flatMap String.utf8EncodeChar :=
  List.toList_data_toByteArray

theorem utf8_append (s t : String) : utf8 (s ++ t) = utf8 s ++ utf8 t := by
  simp [utf8, String.toByteArray_append]

theorem utf8_inj {s t : String} : utf8 s = utf8 t ↔ s = t := by
  constructor
  · intro h
    exact String.toByteArray_inj.mp (ByteArray.ext (Array.toList_inj.mp h))
  · rintro rfl
    rfl

end Bytes
