import Mathlib.Data.List.Basic
import PhraseStructure.Proofs.Text.Lines

/-!
# Texts in bytes

The bytes of a text are read back as the text, and they fall into lines as its characters do: the
marks of a line end are single bytes that stand in no other character.
-/

namespace PhraseStructure.Text

def bytes (text : String) : List UInt8 :=
  text.toByteArray.data.toList

theorem bytes_ofList (text : List Char) :
    bytes (String.ofList text) = text.flatMap String.utf8EncodeChar := by
  rw [bytes, String.toByteArray_ofList, List.utf8Encode]
  simp

@[simp] theorem fromUTF8?_bytes (text : String) :
    String.fromUTF8? ⟨(bytes text).toArray⟩ = some text := by
  have hvalid := text.isValidUTF8
  rw [String.fromUTF8?, dif_pos (show ByteArray.IsValidUTF8 ⟨(bytes text).toArray⟩ from hvalid)]
  rfl

/-- A byte with the leading bit set is no byte without it. -/
theorem or_ne_of_msb {a b mark : UInt8} (hb : b.toBitVec.msb = true)
    (hmark : mark.toBitVec.msb = false) : a ||| b ≠ mark := by
  rintro rfl
  rw [UInt8.toBitVec_or, BitVec.msb_or, hb, Bool.or_true] at hmark
  exact absurd hmark (by decide)

/-- An ASCII mark stands in the bytes of no other character. -/
theorem ne_of_mem_utf8EncodeChar {c mark : Char} (hmark : mark.val.toNat < 128) (hne : c ≠ mark)
    {b : UInt8} (hb : b ∈ String.utf8EncodeChar c) : b ≠ mark.val.toUInt8 := by
  have hmsb : mark.val.toUInt8.toBitVec.msb = false := by
    rw [BitVec.msb_eq_false_iff_two_mul_lt]
    show 2 * (mark.val.toNat % 256) < 256
    omega
  rcases Char.utf8Size_eq c with hsize | hsize | hsize | hsize
  · rw [String.utf8EncodeChar_eq_singleton hsize, List.mem_singleton] at hb
    have hc : c.val.toNat ≤ 127 := UInt32.le_iff_toNat_le.1 (Char.utf8Size_eq_one_iff.1 hsize)
    rintro rfl
    have hval : c.val.toNat % 256 = mark.val.toNat % 256 := (congrArg UInt8.toNat hb).symm
    apply hne
    apply Char.ext
    apply UInt32.toNat_inj.1
    omega
  · rw [String.utf8EncodeChar_eq_cons_cons hsize] at hb
    simp only [List.mem_cons, List.not_mem_nil, or_false] at hb
    rcases hb with rfl | rfl <;> exact or_ne_of_msb rfl hmsb
  · rw [String.utf8EncodeChar_eq_cons_cons_cons hsize] at hb
    simp only [List.mem_cons, List.not_mem_nil, or_false] at hb
    rcases hb with rfl | rfl | rfl <;> exact or_ne_of_msb rfl hmsb
  · rw [String.utf8EncodeChar_eq_cons_cons_cons_cons hsize] at hb
    simp only [List.mem_cons, List.not_mem_nil, or_false] at hb
    rcases hb with rfl | rfl | rfl | rfl <;> exact or_ne_of_msb rfl hmsb

theorem spellsMarks_utf8EncodeChar : SpellsMarks '\n' '\r' 10 13 String.utf8EncodeChar where
  newline_eq := rfl
  ret_eq := rfl
  marks_ne := by decide
  ne_nil _ := String.utf8EncodeChar_ne_nil
  plain _ hnewline hret _ hb :=
    ⟨ne_of_mem_utf8EncodeChar (by decide) hnewline hb, ne_of_mem_utf8EncodeChar (by decide) hret hb⟩

theorem byteLines_bytes (text : String) :
    byteLines (bytes text) = (stringLines text).map bytes := by
  have hlines := spellsMarks_utf8EncodeChar.cutLines_flatMap text.toList
  rw [byteLines, stringLines, lines, List.map_map]
  conv_lhs => rw [← String.ofList_toList (s := text), bytes_ofList]
  rw [hlines]
  apply List.map_congr_left
  intro line _
  exact (bytes_ofList line).symm

/-- Bytes behind a text whose last line is finished have lines of their own. -/
theorem byteLines_append {text : String} (h : EndsLine '\n' text.toList) (rest : List UInt8) :
    byteLines (bytes text ++ rest) = (stringLines text).map bytes ++ byteLines rest := by
  have hbytes : EndsLine 10 (bytes text) := by
    rw [← String.ofList_toList (s := text), bytes_ofList]
    exact h.flatMap spellsMarks_utf8EncodeChar.newline_eq
  rw [← byteLines_bytes, byteLines, cutLines_append hbytes]
  rfl

/-! ## What is no text -/

def IsText (raw : List UInt8) : Prop :=
  ∃ text, bytes text = raw

@[simp] theorem isText_bytes (text : String) : IsText (bytes text) :=
  ⟨text, rfl⟩

theorem fromUTF8?_eq_none_iff {raw : List UInt8} :
    String.fromUTF8? ⟨raw.toArray⟩ = none ↔ ¬ IsText raw := by
  constructor
  · rintro hnone ⟨text, rfl⟩
    rw [fromUTF8?_bytes] at hnone
    cases hnone
  · intro hno
    rw [String.fromUTF8?, dif_neg]
    intro hvalid
    exact hno ⟨String.fromUTF8 _ hvalid, rfl⟩

end PhraseStructure.Text
