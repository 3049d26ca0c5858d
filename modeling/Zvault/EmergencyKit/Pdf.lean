import Zvault.EmergencyKit.Literals
import Zvault.Otp.Percent

/-!
# The writer of a PDF

`document` of `pdf.rs`: nine objects around the content stream of one page, and the table
of their positions. Every entry of the table is the position of its object.
-/

namespace Zvault.EmergencyKit

/-- The bytes of a text of ASCII. -/
def ascii (cs : List Char) : List UInt8 := cs.map Char.toUInt8

/-- `{:0width$}`. -/
def padded (width n : ℕ) : List Char := List.leftpad width '0' (Nat.toDigits 10 n)

/-- `OBJECT_COUNT`. -/
def objectCount : ℕ := 9

def fonts : List (List Char × List Char) :=
  [("F1".toList, "Helvetica".toList), ("F2".toList, "Helvetica-Bold".toList),
    ("F3".toList, "Courier".toList), ("F4".toList, "Courier-Bold".toList)]

/-- What is written so far, and where its objects are. -/
structure Document where
  out : List UInt8
  offsets : List ℕ

namespace Document

/-- The comment marks the file as binary. -/
def start : Document where
  out := ascii "%PDF-1.7\n%".toList ++ [0xe2, 0xe3, 0xcf, 0xd3] ++ ascii "\n".toList
  offsets := List.replicate objectCount 0

def objectHead (n : ℕ) : List UInt8 := ascii (Nat.toDigits 10 n ++ " 0 obj\n".toList)

/-- `obj`. -/
def obj (d : Document) (n : ℕ) (body : List UInt8) : Document where
  out := d.out ++ (objectHead n ++ (body ++ ascii "\nendobj\n".toList))
  offsets := d.offsets.set (n - 1) d.out.length

/-- Objects one after the other, from a number on. -/
def objs (d : Document) (n : ℕ) : List (List UInt8) → Document
  | [] => d
  | body :: bodies => objs (d.obj n body) (n + 1) bodies

end Document

/-- The content stream, which holds the Secret Key. -/
def contentBody (content : List UInt8) : List UInt8 :=
  ascii ("<< /Length ".toList ++ Nat.toDigits 10 content.length ++ " >>\nstream\n".toList) ++ content ++
    ascii "\nendstream".toList

def fontBody (font : List Char × List Char) : List UInt8 :=
  ascii ("<< /Type /Font /Subtype /Type1 /Name /".toList ++ font.1 ++ " /BaseFont /".toList ++ font.2 ++
    " /Encoding /WinAnsiEncoding >>".toList)

/-- No author, subject or dates. -/
def infoBody : List UInt8 :=
  ascii "<< /Title (Zvault Emergency Kit) /Producer (Zvault) >>".toList

/-- The catalog, the pages and the page. -/
def pageBodies : List (List UInt8) :=
  [ascii "<< /Type /Catalog /Pages 2 0 R >>".toList,
    ascii "<< /Type /Pages /Kids [3 0 R] /Count 1 >>".toList,
    ascii ("<< /Type /Page /Parent 2 0 R /MediaBox [0 0 595 842] ".toList ++
      "/Resources << /Font << /F1 5 0 R /F2 6 0 R /F3 7 0 R /F4 8 0 R >> >> ".toList ++
      "/Contents 4 0 R >>".toList)]

def bodies (content : List UInt8) : List (List UInt8) :=
  pageBodies ++ contentBody content :: (fonts.map fontBody ++ [infoBody])

/-- The head of the table, with the entry of no object. -/
def xrefHead : List UInt8 :=
  ascii ("xref\n0 ".toList ++ Nat.toDigits 10 (objectCount + 1) ++ "\n0000000000 65535 f \n".toList)

def xrefEntry (offset : ℕ) : List UInt8 := ascii (padded 10 offset ++ " 00000 n \n".toList)

def trailer (xref : ℕ) : List UInt8 :=
  ascii ("trailer\n<< /Size ".toList ++ Nat.toDigits 10 (objectCount + 1) ++
    " /Root 1 0 R /Info 9 0 R >>\nstartxref\n".toList ++ Nat.toDigits 10 xref ++ "\n%%EOF\n".toList)

/-- `document`. -/
def document (content : List UInt8) : List UInt8 :=
  let d := Document.start.objs 1 (bodies content)
  d.out ++ xrefHead ++ d.offsets.flatMap xrefEntry ++ trailer d.out.length

namespace Document

variable {d : Document} {n : ℕ}

@[simp] theorem length_offsets_obj (d : Document) (n : ℕ) (body : List UInt8) :
    (d.obj n body).offsets.length = d.offsets.length := List.length_set

@[simp] theorem length_offsets_objs (d : Document) (n : ℕ) (bodies : List (List UInt8)) :
    (d.objs n bodies).offsets.length = d.offsets.length := by
  induction bodies generalizing d n with
  | nil => rfl
  | cons body bodies ih => rw [objs, ih, length_offsets_obj]

/-- The first objects are where their offsets say. -/
def Placed (d : Document) (n : ℕ) : Prop :=
  ∀ k < n, ∃ offset, d.offsets[k]? = some offset ∧ objectHead (k + 1) <+: d.out.drop offset

theorem prefix_drop_append {head out : List UInt8} {offset : ℕ} (h : head <+: out.drop offset)
    (rest : List UInt8) : head <+: (out ++ rest).drop offset := by
  rw [List.drop_append]
  exact h.trans (List.prefix_append _ _)

theorem Placed.obj (h : d.Placed n) (hn : n < d.offsets.length) (body : List UInt8) :
    (d.obj (n + 1) body).Placed (n + 1) := by
  intro k hk
  by_cases heq : k = n
  · subst heq
    refine ⟨d.out.length, ?_, ?_⟩
    · exact List.getElem?_set_self hn
    · change _ <+: (d.out ++ _).drop d.out.length
      rw [List.drop_left]
      exact List.prefix_append _ _
  · obtain ⟨offset, hoffset, hhead⟩ := h k (by omega)
    refine ⟨offset, ?_, prefix_drop_append hhead _⟩
    change (d.offsets.set (n + 1 - 1) _)[k]? = _
    rw [Nat.add_sub_cancel, List.getElem?_set_ne (Ne.symm heq), hoffset]

theorem Placed.objs (h : d.Placed n) (bodies : List (List UInt8))
    (hn : n + bodies.length ≤ d.offsets.length) :
    (d.objs (n + 1) bodies).Placed (n + bodies.length) := by
  induction bodies generalizing d n with
  | nil => exact h
  | cons body bodies ih =>
    rw [List.length_cons] at hn
    have hrest := ih (h.obj (by omega) body) (by rw [length_offsets_obj]; omega)
    have hlength : n + 1 + bodies.length = n + (bodies.length + 1) := by omega
    rw [hlength] at hrest
    exact hrest

/-- An object begins within the document. -/
theorem lt_of_placed {out : List UInt8} {offset : ℕ} (h : objectHead n <+: out.drop offset) :
    offset < out.length := by
  have hlength := h.length_le
  rw [List.length_drop] at hlength
  have hpos : 0 < (objectHead n).length := by
    rw [objectHead, ascii, List.length_map, List.length_append]
    exact Nat.add_pos_right _ (by decide)
  omega

/-- The text of objects. -/
def objsText (n : ℕ) : List (List UInt8) → List UInt8
  | [] => []
  | body :: bodies => objectHead n ++ (body ++ ascii "\nendobj\n".toList) ++ objsText (n + 1) bodies

theorem out_objs (d : Document) (n : ℕ) (bodies : List (List UInt8)) :
    (d.objs n bodies).out = d.out ++ objsText n bodies := by
  induction bodies generalizing d n with
  | nil => exact (List.append_nil d.out).symm
  | cons body bodies ih => rw [objs, ih, obj, objsText, List.append_assoc]

theorem objsText_append (n : ℕ) (bodies bodies' : List (List UInt8)) :
    objsText n (bodies ++ bodies') = objsText n bodies ++ objsText (n + bodies.length) bodies' := by
  induction bodies generalizing n with
  | nil => rfl
  | cons body bodies ih =>
    rw [List.cons_append, objsText, ih, objsText, List.length_cons, Nat.add_assoc, Nat.add_comm 1]
    simp only [List.append_assoc]

end Document

theorem length_padded {width n : ℕ} (hwidth : 0 < width) (h : n < 10 ^ width) :
    (padded width n).length = width := by
  rw [padded, List.length_leftpad]
  exact Nat.max_eq_left ((Nat.length_toDigits_le_iff (by decide) hwidth).mpr h)

@[simp] theorem length_ascii (cs : List Char) : (ascii cs).length = cs.length := List.length_map ..

theorem length_xrefEntry {offset : ℕ} (h : offset < 10 ^ 10) : (xrefEntry offset).length = 20 := by
  rw [xrefEntry, length_ascii, List.length_append, length_padded (by decide) h]
  rfl

/-- An entry of a table of entries of one length. -/
theorem take_drop_flatMap {α β : Type} {f : α → List β} {width : ℕ} {l : List α}
    (h : ∀ a ∈ l, (f a).length = width) {k : ℕ} {a : α} (hk : l[k]? = some a) (rest : List β) :
    ((l.flatMap f ++ rest).drop (width * k)).take width = f a := by
  induction l generalizing k with
  | nil => cases hk
  | cons b l ih =>
    obtain ⟨hb, hl⟩ := List.forall_mem_cons.mp h
    rw [List.flatMap_cons, List.append_assoc]
    cases k with
    | zero =>
      obtain rfl := Option.some_inj.mp hk
      rw [Nat.mul_zero, List.drop_zero, List.take_left' hb]
    | succ k =>
      rw [Nat.mul_succ, Nat.add_comm, ← List.drop_drop, List.drop_left' hb]
      exact ih hl hk

/-- Text without a bracket. -/
theorem not_mem_ascii {cs : List Char} (h : ∀ c ∈ cs, c.toNat < 128 ∧ c ≠ '(') :
    openParen ∉ ascii cs := by
  intro hmem
  obtain ⟨c, hc, hbyte⟩ := List.mem_map.mp hmem
  obtain ⟨hlt, hne⟩ := h c hc
  have hvalue : c.toNat % 256 = 40 := congrArg UInt8.toNat hbyte
  exact hne (Char.toNat_inj.mp (by change c.toNat = 40; omega))

theorem plain_toDigits {n : ℕ} : ∀ c ∈ Nat.toDigits 10 n, c.toNat < 128 ∧ c ≠ '(' := by
  intro c hc
  have hdigit := (Text.isDigit_iff c).mp (Nat.isDigit_of_mem_toDigits (by decide) (by decide) hc)
  refine ⟨by omega, ?_⟩
  rintro rfl
  exact absurd hdigit (by decide)

theorem plain_padded {width n : ℕ} : ∀ c ∈ padded width n, c.toNat < 128 ∧ c ≠ '(' := by
  intro c hc
  rcases List.mem_append.mp hc with hc | hc
  · obtain rfl := List.eq_of_mem_replicate hc
    decide
  · exact plain_toDigits c hc

theorem length_flatMap {α β : Type} {f : α → List β} {width : ℕ} {l : List α}
    (h : ∀ a ∈ l, (f a).length = width) : (l.flatMap f).length = width * l.length := by
  induction l with
  | nil => rfl
  | cons a l ih =>
    obtain ⟨ha, hl⟩ := List.forall_mem_cons.mp h
    rw [List.flatMap_cons, List.length_append, ha, ih hl, List.length_cons, Nat.mul_succ,
      Nat.add_comm]

section Xref

variable {content : List UInt8}

/-- What is written before the table. -/
def written (content : List UInt8) : Document := Document.start.objs 1 (bodies content)

theorem length_bodies (content : List UInt8) : (bodies content).length = objectCount := rfl

theorem placed_written (content : List UInt8) : (written content).Placed objectCount := by
  have hstart : Document.start.Placed 0 := fun _ hk => absurd hk (Nat.not_lt_zero _)
  have hplaced := hstart.objs (bodies content) (by rw [length_bodies]; decide)
  rwa [length_bodies, Nat.zero_add] at hplaced

/-- The objects behind the content stream. -/
def lastBodies : List (List UInt8) := fonts.map fontBody ++ [infoBody]

theorem out_written (content : List UInt8) :
    (written content).out = Document.start.out ++ (Document.objsText 1 pageBodies ++
      (Document.objectHead 4 ++ (contentBody content ++ ascii "\nendobj\n".toList) ++
        Document.objsText 5 lastBodies)) := by
  rw [written, Document.out_objs, bodies, Document.objsText_append]
  rfl

/-- The file is not much longer than its content. -/
theorem length_out_written (h : content.length ≤ 2 ^ 16) :
    (written content).out.length ≤ content.length + 840 := by
  have hdigits : (Nat.toDigits 10 content.length).length ≤ 5 :=
    (Nat.length_toDigits_le_iff (by decide) (by decide)).mpr (Nat.lt_of_le_of_lt h (by decide))
  have hstart : Document.start.out.length = 15 := by decide
  have hpage : (Document.objsText 1 pageBodies).length = 262 := by decide +kernel
  have hhead : (Document.objectHead 4).length = 8 := by decide
  have hlast : (Document.objsText 5 lastBodies).length = 504 := by decide +kernel
  have hbody : (contentBody content).length =
      content.length + (Nat.toDigits 10 content.length).length + 32 := by
    simp only [contentBody, List.length_append, length_ascii]
    have hparts : "<< /Length ".toList.length = 11 ∧ " >>\nstream\n".toList.length = 11 ∧
        "\nendstream".toList.length = 10 := by decide
    omega
  have hend : (ascii "\nendobj\n".toList).length = 8 := by decide
  rw [out_written]
  simp only [List.length_append, hstart, hpage, hhead, hlast, hbody, hend]
  omega

theorem length_offsets_written (content : List UInt8) :
    (written content).offsets.length = objectCount := Document.length_offsets_objs ..

theorem lt_of_mem_offsets (h : content.length ≤ 2 ^ 16) {offset : ℕ}
    (hoffset : offset ∈ (written content).offsets) : offset < 10 ^ 10 := by
  obtain ⟨k, hk, rfl⟩ := List.getElem_of_mem hoffset
  obtain ⟨offset, hoffset, hhead⟩ := placed_written content k (length_offsets_written content ▸ hk)
  rw [List.getElem?_eq_getElem hk, Option.some_inj] at hoffset
  rw [hoffset]
  have hlt := Document.lt_of_placed hhead
  have hlength := length_out_written h
  omega

/-- A file ends with the position of its table, and every entry of the table is the position of
its object. -/
def HasXref (pdf : List UInt8) : Prop :=
  ∃ xref, xrefHead <+: pdf.drop xref ∧ trailer xref <:+ pdf ∧
    ∀ k < objectCount, ∃ offset,
      (pdf.drop (xref + xrefHead.length + 20 * k)).take 20 = xrefEntry offset ∧
        Document.objectHead (k + 1) <+: pdf.drop offset

theorem xref_document (h : content.length ≤ 2 ^ 16) : HasXref (document content) := by
  have hdocument : document content = (written content).out ++ (xrefHead ++
      ((written content).offsets.flatMap xrefEntry ++ trailer (written content).out.length)) := by
    rw [← List.append_assoc, ← List.append_assoc]
    rfl
  refine ⟨(written content).out.length, ?_, ?_, fun k hk => ?_⟩
  · rw [hdocument, List.drop_left]
    exact List.prefix_append _ _
  · rw [hdocument]
    exact ((List.suffix_append _ _).trans (List.suffix_append _ _)).trans (List.suffix_append _ _)
  · obtain ⟨offset, hoffset, hhead⟩ := placed_written content k hk
    refine ⟨offset, ?_, ?_⟩
    · rw [hdocument, Nat.add_assoc, ← List.drop_drop, List.drop_left, ← List.drop_drop,
        List.drop_left]
      exact take_drop_flatMap (fun offset hoffset => length_xrefEntry (lt_of_mem_offsets h hoffset))
        hoffset _
    · rw [hdocument]
      exact Document.prefix_drop_append hhead _

theorem length_document (h : content.length ≤ 2 ^ 16) :
    (document content).length ≤ 2 ^ 20 := by
  have hout := length_out_written h
  have hdigits : (Nat.toDigits 10 (written content).out.length).length ≤ 5 :=
    (Nat.length_toDigits_le_iff (by decide) (by decide)).mpr (by omega)
  have hentries : ((written content).offsets.flatMap xrefEntry).length = 20 * objectCount := by
    rw [length_flatMap fun offset hoffset => length_xrefEntry (lt_of_mem_offsets h hoffset),
      length_offsets_written]
  have hhead : xrefHead.length = 30 := by decide
  have htrailer : (trailer (written content).out.length).length ≤ 80 := by
    have hparts : "trailer\n<< /Size ".toList.length = 17 ∧
        (Nat.toDigits 10 (objectCount + 1)).length = 2 ∧
        " /Root 1 0 R /Info 9 0 R >>\nstartxref\n".toList.length = 38 ∧
        "\n%%EOF\n".toList.length = 7 := by decide
    rw [trailer, length_ascii]
    simp only [List.length_append]
    omega
  have hcount : objectCount = 9 := rfl
  change ((written content).out ++ xrefHead ++ (written content).offsets.flatMap xrefEntry ++
    trailer (written content).out.length).length ≤ _
  simp only [List.length_append, hentries, hhead]
  omega

/-- The strings of a file are those of its content, and the two of its title. -/
theorem shows_document {strings : List (List UInt8)} (h : Shows content strings) :
    Shows (document content)
      (strings ++ [ascii "Zvault Emergency Kit".toList, ascii "Zvault".toList]) := by
  have hplain : ∀ {bytes : List UInt8}, openParen ∉ bytes → Shows bytes [] := Shows.plain
  have hbefore : Shows (Document.start.out ++ (Document.objsText 1 pageBodies ++
      (Document.objectHead 4 ++ ascii ("<< /Length ".toList ++ Nat.toDigits 10 content.length ++
        " >>\nstream\n".toList)))) [] := by
    refine (hplain (by decide)).append ((hplain (by decide +kernel)).append
      ((hplain (by decide)).append (hplain (not_mem_ascii ?_))))
    refine List.forall_mem_append.mpr ⟨List.forall_mem_append.mpr ⟨?_, plain_toDigits⟩, ?_⟩
    · exact Text.forall_mem_of_all (by decide)
    · exact Text.forall_mem_of_all (by decide)
  have hlast : Shows (Document.objsText 5 lastBodies)
      [ascii "Zvault Emergency Kit".toList, ascii "Zvault".toList] := by
    have hbytes : Document.objsText 5 lastBodies =
        Document.objsText 5 (fonts.map fontBody) ++ (Document.objectHead 9 ++
          ascii "<< /Title ".toList ++ ((openParen :: (escaped (ascii "Zvault Emergency Kit".toList) ++
            [closeParen])) ++ (ascii " /Producer ".toList ++ ((openParen ::
              (escaped (ascii "Zvault".toList) ++ [closeParen])) ++
                ascii " >>\nendobj\n".toList)))) := by
      decide +kernel
    rw [hbytes]
    exact (hplain (by decide +kernel)).append ((hplain (by decide)).append ((Shows.string _).append
      ((hplain (by decide)).append ((Shows.string _).append (hplain (by decide))))))
  have hafter : Shows (xrefHead ++ ((written content).offsets.flatMap xrefEntry ++
      trailer (written content).out.length)) [] := by
    refine (hplain (by decide)).append ((hplain ?_).append (hplain (not_mem_ascii ?_)))
    · intro hmem
      obtain ⟨offset, -, hoffset⟩ := List.mem_flatMap.mp hmem
      exact not_mem_ascii (List.forall_mem_append.mpr
        ⟨plain_padded, Text.forall_mem_of_all (by decide)⟩) hoffset
    · simp only [List.forall_mem_append]
      exact ⟨⟨⟨⟨Text.forall_mem_of_all (by decide), plain_toDigits⟩,
        Text.forall_mem_of_all (by decide)⟩, plain_toDigits⟩, Text.forall_mem_of_all (by decide)⟩
  have hend : Shows (ascii "\nendstream".toList ++ ascii "\nendobj\n".toList) [] :=
    hplain (by decide)
  have hdocument : document content = (Document.start.out ++ (Document.objsText 1 pageBodies ++
      (Document.objectHead 4 ++ ascii ("<< /Length ".toList ++ Nat.toDigits 10 content.length ++
        " >>\nstream\n".toList)))) ++ (content ++ ((ascii "\nendstream".toList ++
          ascii "\nendobj\n".toList) ++ (Document.objsText 5 lastBodies ++
            (xrefHead ++ ((written content).offsets.flatMap xrefEntry ++
              trailer (written content).out.length))))) := by
    change (written content).out ++ xrefHead ++ (written content).offsets.flatMap xrefEntry ++
      trailer (written content).out.length = _
    generalize trailer (written content).out.length = last
    rw [out_written]
    simp only [contentBody, List.append_assoc]
  rw [hdocument]
  have hall := hbefore.append (h.append (hend.append (hlast.append hafter)))
  simpa using hall

end Xref

end Zvault.EmergencyKit
