/- The OMAR archive format: records in blocks of 512 bytes, up to an end marker. -/

import Mathlib.Data.List.GetD
import Algae.Lib.ByteImage
import Algae.Rtl.String
import Algae.Sdk.Defs

set_option autoImplicit false
set_option relaxedAutoImplicit false

namespace Algae.Tools.OmarFormat

open Algae.Lib.ByteMemory (Byte)
open Algae.Lib.ByteImage Algae.Rtl.String Algae.Sdk.Defs

def OMAR_MAGIC : List Byte := [0x4F, 0x4D, 0x41, 0x52]

def OMAR_EOF : List Byte := [0x52, 0x41, 0x4D, 0x4F, 0x00]

def OMAR_REG : Byte := 0
def OMAR_DIR : Byte := 1

/-- The size of a packed header: magic, type, name length, length, revision, mode. -/
def HDR_SIZE : Nat := 15

/-! The fields of the record that starts a byte string. -/

def recType (c : List Byte) : Byte := c.getD 4 0
def recNameLen (c : List Byte) : Nat := (c.getD 5 0).toNat
def recLen (c : List Byte) : Nat := leNat ((c.drop 6).take 4)
def recName (c : List Byte) : CString := cString ((c.drop HDR_SIZE).take (recNameLen c))

/-- The bytes of a record: a block for a directory, whole blocks for a file. -/
def recSize (c : List Byte) : Nat :=
  if recType c = OMAR_DIR then 512 else (HDR_SIZE + recNameLen c + recLen c + 511) / 512 * 512

structure IsRecord (c : List Byte) : Prop where
  magic : OMAR_MAGIC <+: c
  whole : c.length = recSize c

theorem recLen_lt (c : List Byte) : recLen c < 0x100000000 := by
  have small := leNat_lt ((c.drop 6).take 4)
  have short : ((c.drop 6).take 4).length ≤ 4 := List.length_take_le _ _
  exact lt_of_lt_of_le small (Nat.pow_le_pow_right (by norm_num) short)

theorem recNameLen_le (c : List Byte) : recNameLen c ≤ 255 := by
  have small := (c.getD 5 0).isLt
  rw [recNameLen]
  omega

theorem recSize_ge (c : List Byte) : 512 ≤ recSize c := by
  rw [recSize]
  split
  · exact Nat.le_refl _
  · rw [HDR_SIZE]
    omega

theorem IsRecord.name_fits {c : List Byte} (h : IsRecord c) :
    HDR_SIZE + recNameLen c ≤ c.length := by
  have size := recSize_ge c
  have name := recNameLen_le c
  rw [h.whole, HDR_SIZE]
  omega

theorem IsRecord.data_fits {c : List Byte} (h : IsRecord c) (file : recType c ≠ OMAR_DIR) :
    HDR_SIZE + recNameLen c + recLen c ≤ c.length := by
  rw [h.whole, recSize, if_neg file]
  omega

theorem fields_append {c : List Byte} (header : HDR_SIZE ≤ c.length) (rest : List Byte) :
    recType (c ++ rest) = recType c ∧ recNameLen (c ++ rest) = recNameLen c ∧
      recLen (c ++ rest) = recLen c := by
  have at_field : ∀ i, i < 15 → (c ++ rest).getD i 0 = c.getD i 0 := by
    intro i short
    rw [List.getD_append _ _ _ _ (lt_of_lt_of_le short header)]
  refine ⟨at_field 4 (by decide), ?_, ?_⟩
  · rw [recNameLen, recNameLen, at_field 5 (by decide)]
  · have long : 15 ≤ c.length := header
    rw [recLen, recLen, List.drop_append_of_le_length (by omega),
      List.take_append_of_le_length (by rw [List.length_drop]; omega)]

theorem IsRecord.fields {c : List Byte} (h : IsRecord c) (rest : List Byte) :
    recNameLen (c ++ rest) = recNameLen c ∧ recLen (c ++ rest) = recLen c ∧
      recName (c ++ rest) = recName c ∧ recSize (c ++ rest) = c.length := by
  have fits := h.name_fits
  have header : HDR_SIZE ≤ c.length := by omega
  obtain ⟨type, nameLen, len⟩ := fields_append header rest
  refine ⟨nameLen, len, ?_, ?_⟩
  · rw [recName, recName, nameLen, List.drop_append_of_le_length header,
      List.take_append_of_le_length (by rw [List.length_drop]; omega)]
  · rw [h.whole, recSize, recSize, type, nameLen, len]

theorem IsRecord.of_prefix {hdr : List Byte} (magic : OMAR_MAGIC <+: hdr)
    (fits : recSize hdr ≤ hdr.length) : IsRecord (hdr.take (recSize hdr)) := by
  have large := recSize_ge hdr
  have length : (hdr.take (recSize hdr)).length = recSize hdr := List.length_take_of_le fits
  have header : HDR_SIZE ≤ (hdr.take (recSize hdr)).length := by
    rw [length, HDR_SIZE]
    omega
  obtain ⟨type, nameLen, len⟩ := fields_append header (hdr.drop (recSize hdr))
  rw [List.take_append_drop] at type nameLen len
  refine ⟨?_, ?_⟩
  · refine (List.prefix_take_iff).mpr ⟨magic, ?_⟩
    rw [OMAR_MAGIC]
    simp only [List.length_cons, List.length_nil]
    omega
  · have same : recSize (hdr.take (recSize hdr)) = recSize hdr := by
      unfold recSize at type nameLen len ⊢
      rw [← type, ← nameLen, ← len]
    rw [length, same]

/-! Records by their fields. -/

/-- What a record says. `body` are the data and the padding. -/
structure Record where
  type : Byte
  name : CString
  len : Nat
  rev : Byte
  mode : Nat
  body : List Byte

def Record.header (r : Record) : List Byte :=
  OMAR_MAGIC ++ [r.type, BitVec.ofNat 8 r.name.length] ++ leBytes 4 r.len ++ [r.rev] ++
    leBytes 4 r.mode

def Record.encode (r : Record) : List Byte := r.header ++ (r.name.bytes ++ r.body)

/-- The lengths fit their fields, a directory takes one block, and the data of a file
are padded to the next multiple of the block size. -/
structure Record.WellFormed (r : Record) : Prop where
  name_short : r.name.length ≤ 255
  len_lt : r.len < 0x100000000
  whole : HDR_SIZE + r.name.length + r.body.length =
    if r.type = OMAR_DIR then 512 else (HDR_SIZE + r.name.length + r.len + 511) / 512 * 512

@[simp] theorem bytes_length (s : CString) : s.bytes.length = s.length := List.length_map _

theorem Record.header_length (r : Record) : r.header.length = HDR_SIZE := by
  simp [Record.header, OMAR_MAGIC, HDR_SIZE]

theorem Record.WellFormed.encode_fields {r : Record} (h : r.WellFormed) :
    recType r.encode = r.type ∧ recNameLen r.encode = r.name.length ∧ recLen r.encode = r.len ∧
      recName r.encode = r.name := by
  have header := r.header_length
  obtain ⟨type, nameLen, len⟩ := fields_append (le_of_eq header.symm) (r.name.bytes ++ r.body)
  have small : r.name.length % 256 = r.name.length :=
    Nat.mod_eq_of_lt (Nat.lt_succ_of_le h.name_short)
  have name_length : recNameLen r.encode = r.name.length := by
    rw [Record.encode, nameLen]
    simp [recNameLen, Record.header, OMAR_MAGIC, small]
  refine ⟨?_, name_length, ?_, ?_⟩
  · rw [Record.encode, type]
    simp [recType, Record.header, OMAR_MAGIC]
  · have field : (r.header.drop 6).take 4 = leBytes 4 r.len := by
      simp [Record.header, OMAR_MAGIC, leBytes]
    rw [Record.encode, len, recLen, field, leNat_leBytes]
    exact Nat.mod_eq_of_lt h.len_lt
  · rw [recName, name_length, Record.encode, ← header, List.drop_left, ← bytes_length,
      List.take_left, cString_bytes]

theorem Record.WellFormed.isRecord {r : Record} (h : r.WellFormed) : IsRecord r.encode := by
  obtain ⟨type, nameLen, len, _⟩ := h.encode_fields
  refine ⟨?_, ?_⟩
  · rw [Record.encode, Record.header]
    simp only [List.append_assoc]
    exact List.prefix_append _ _
  · rw [recSize, type, nameLen, len, ← h.whole, Record.encode, List.length_append,
      List.length_append, r.header_length, bytes_length]
    omega

end Algae.Tools.OmarFormat
