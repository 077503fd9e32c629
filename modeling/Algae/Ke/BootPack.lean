/- The boot pack: the kernel's reader of the archive that comes as a boot module. -/

import Algae.Tools.OmarFormat

set_option autoImplicit false
set_option relaxedAutoImplicit false

namespace Algae.Ke.BootPack

open Algae.Lib.ByteMemory (Byte)
open Algae.Lib.ByteImage Algae.Rtl.String Algae.Sdk.Defs Algae.Tools.OmarFormat

/-- `data` is an offset from the start of the module. -/
structure BootpackNode where
  length : Nat
  data : Nat
  deriving DecidableEq, Repr

/-- The end of a turn of the loop: a return, or the offset of the next header. -/
inductive Turn
  | done (status : NtStatus) (node : Option BootpackNode)
  | next (p : Nat)

def nextBlock (hdr : List Byte) (type : Byte) (nameLen : Nat) : Option Nat :=
  if type = OMAR_DIR then some 512
  else (readLE (hdr.drop 6) 4).map fun len => blockAlignUp (HDR_SIZE + nameLen + len)

def bootPackRecord (path : CString) (hdr : List Byte) (p : Nat) : Option Turn := do
  let nameLen ← hdr[5]?
  if nameLen.toNat > 256 - 1 then
    some (.done .invalidParam none)
  else
    let nameBuf ← readBytes (hdr.drop HDR_SIZE) nameLen.toNat
    let type ← hdr[4]?
    let off ← nextBlock hdr type nameLen.toNat
    if rtlStrcmp (cString nameBuf) path = 0 then
      (readLE (hdr.drop 6) 4).map fun len =>
        .done .success (some ⟨len, p + HDR_SIZE + nameLen.toNat⟩)
    else
      some (.next (p + off))

/-- A turn of the loop at the header `hdr`, the bytes of the module from offset `p` on;
`none` is a read past its end. -/
def bootPackTurn (path : CString) (hdr : List Byte) (p : Nat) : Option Turn := do
  let eof ← rtlMemcmp hdr OMAR_EOF
  if eof = 0 then
    some (.done .fileUnavl none)
  else
    let magic ← rtlMemcmp hdr OMAR_MAGIC
    if magic ≠ 0 then some (.done .invalidParam none) else bootPackRecord path hdr p

def bootPackWalk (img : List Byte) (path : CString) :
    Nat → Nat → Option (NtStatus × Option BootpackNode)
  | 0, _ => none
  | fuel + 1, p =>
    match bootPackTurn path (img.drop p) p with
    | none => none
    | some (.done status node) => some (status, node)
    | some (.next p) => bootPackWalk img path fuel p

/-- `img` is what the module's address points at. A turn moves by 512 bytes or more, so
after a turn for each byte the next one reads past the end. -/
def bootPackGetFile (img : List Byte) (path : Option CString) (result : Bool) :
    Option (NtStatus × Option BootpackNode) :=
  match path, result with
  | some path, true => bootPackWalk img path (img.length + 1) 0
  | _, _ => some (.invalidHandle, none)

/-- The second `Option` is the returned pointer, an offset from the module. -/
def keBootPackGet (img : List Byte) (path : Option CString) : Option (Option Nat) :=
  match path with
  | none => some none
  | some [] => some none
  | some (c :: path) =>
    if c.val ≠ 0x2F then
      some none
    else
      match bootPackGetFile img (some path) true with
      | some (.success, some node) => some (some node.data)
      | some (_, _) => some none
      | none => none

/-- Bytes that are neither an end marker nor a record, as the comparisons find out. -/
def BadMagic (hdr : List Byte) : Prop :=
  (¬OMAR_EOF <+: hdr ∧ ¬hdr <+: OMAR_EOF) ∧ ¬OMAR_MAGIC <+: hdr ∧ ¬hdr <+: OMAR_MAGIC

section Turns

private theorem memcmp_bind {α : Type} (hdr bs : List Byte) (yes no : Option α) :
    ((rtlMemcmp hdr bs).bind fun diff => if diff = 0 then yes else no) =
      match startsWith hdr bs with
      | none => none
      | some true => yes
      | some false => no := by
  have link := rtlMemcmp_startsWith hdr bs
  cases run : rtlMemcmp hdr bs with
  | none =>
    rw [run] at link
    rw [← link]
    rfl
  | some diff =>
    rw [run] at link
    rw [← link]
    by_cases zero : diff = 0
    · simp [zero]
    · simp [zero]

private theorem bootPackTurn_eq (path : CString) (hdr : List Byte) (p : Nat) :
    bootPackTurn path hdr p =
    match startsWith hdr OMAR_EOF with
    | none => none
    | some true => some (.done .fileUnavl none)
    | some false =>
      match startsWith hdr OMAR_MAGIC with
      | none => none
      | some true => bootPackRecord path hdr p
      | some false => some (.done .invalidParam none) := by
  have outer := memcmp_bind hdr OMAR_EOF (some (Turn.done .fileUnavl none))
    ((rtlMemcmp hdr OMAR_MAGIC).bind fun magic =>
      if magic = 0 then bootPackRecord path hdr p else some (.done .invalidParam none))
  have inner := memcmp_bind hdr OMAR_MAGIC (bootPackRecord path hdr p)
    (some (Turn.done .invalidParam none))
  rw [inner] at outer
  rw [← outer]
  simp only [bootPackTurn, Option.bind_eq_bind, ne_eq, ite_not]
  rw [← inner]

theorem eof_not_magic {hdr : List Byte} (magic : OMAR_MAGIC <+: hdr) :
    startsWith hdr OMAR_EOF = some false := by
  obtain ⟨rest, rfl⟩ := magic
  rfl

private theorem header_reads {hdr : List Byte} (long : HDR_SIZE ≤ hdr.length) :
    hdr[4]? = some (recType hdr) ∧ (∃ b, hdr[5]? = some b ∧ b.toNat = recNameLen hdr) ∧
      readLE (hdr.drop 6) 4 = some (recLen hdr) := by
  have size : 15 ≤ hdr.length := long
  refine ⟨?_, ⟨hdr.getD 5 0, ?_, rfl⟩, ?_⟩
  · rw [recType, List.getD_eq_getElem?_getD, List.getElem?_eq_getElem (by omega), Option.getD_some]
  · rw [List.getD_eq_getElem?_getD, List.getElem?_eq_getElem (by omega), Option.getD_some]
  · rw [readLE, readBytes, List.length_drop, if_pos (by omega), Option.map_some, recLen]

theorem blockAlignUp_record (hdr : List Byte) :
    blockAlignUp (HDR_SIZE + recNameLen hdr + recLen hdr) =
    (HDR_SIZE + recNameLen hdr + recLen hdr + 511) / 512 * 512 := by
  have name := recNameLen_le hdr
  have len := recLen_lt hdr
  refine blockAlignUp_eq ?_
  rw [HDR_SIZE]
  omega

theorem bootPackTurn_header {hdr : List Byte} (magic : OMAR_MAGIC <+: hdr)
    (fits : HDR_SIZE + recNameLen hdr ≤ hdr.length) (path : CString) (p : Nat) :
    bootPackTurn path hdr p = some (if recName hdr = path
      then .done .success (some ⟨recLen hdr, p + HDR_SIZE + recNameLen hdr⟩)
      else .next (p + recSize hdr)) := by
  obtain ⟨type, ⟨b, nameLen, value⟩, len⟩ := header_reads (show HDR_SIZE ≤ hdr.length by omega)
  have name : readBytes (hdr.drop HDR_SIZE) (recNameLen hdr) =
      some ((hdr.drop HDR_SIZE).take (recNameLen hdr)) := by
    rw [readBytes, List.length_drop, if_pos (by omega)]
  have short : ¬recNameLen hdr > 256 - 1 := by
    have bound := recNameLen_le hdr
    omega
  have size : nextBlock hdr (recType hdr) (recNameLen hdr) = some (recSize hdr) := by
    rw [recSize, nextBlock, len, Option.map_some, blockAlignUp_record]
    split <;> rfl
  rw [bootPackTurn_eq, eof_not_magic magic, startsWith_eq_true.mpr magic]
  simp only [bootPackRecord, nameLen, Option.bind_eq_bind, Option.bind_some, value,
    if_neg short, name,
    type, len, size]
  by_cases same : recName hdr = path
  · have zero : rtlStrcmp (cString ((hdr.drop HDR_SIZE).take (recNameLen hdr))) path = 0 :=
      (rtlStrcmp_eq_zero _ _).mpr same
    rw [if_pos same, if_pos zero]
    rfl
  · have nonzero : ¬rtlStrcmp (cString ((hdr.drop HDR_SIZE).take (recNameLen hdr))) path = 0 :=
      fun zero => same ((rtlStrcmp_eq_zero _ _).mp zero)
    rw [if_neg same, if_neg nonzero]

private theorem bootPackTurn_record {c : List Byte} (h : IsRecord c) (rest : List Byte)
    (path : CString) (p : Nat) :
    bootPackTurn path (c ++ rest) p = some (if recName c = path
      then .done .success (some ⟨recLen c, p + HDR_SIZE + recNameLen c⟩)
      else .next (p + c.length)) := by
  obtain ⟨nameLen, len, name, size⟩ := h.fields rest
  have fits := h.name_fits
  have turn := bootPackTurn_header (h.magic.trans (List.prefix_append c rest))
    (show HDR_SIZE + recNameLen (c ++ rest) ≤ (c ++ rest).length by
      rw [nameLen, List.length_append]
      omega) path p
  rw [nameLen, len, name, size] at turn
  exact turn

theorem bootPackTurn_eof {hdr : List Byte} (marker : OMAR_EOF <+: hdr) (path : CString) (p : Nat) :
    bootPackTurn path hdr p = some (.done .fileUnavl none) := by
  rw [bootPackTurn_eq, startsWith_eq_true.mpr marker]

theorem bootPackTurn_bad {hdr : List Byte} (bad : BadMagic hdr) (path : CString) (p : Nat) :
    bootPackTurn path hdr p = some (.done .invalidParam none) := by
  rw [bootPackTurn_eq, startsWith_eq_false.mpr bad.1, startsWith_eq_false.mpr bad.2]

theorem bootPackTurn_cases {hdr : List Byte} {path : CString} {p : Nat} {t : Turn}
    (run : bootPackTurn path hdr p = some t) :
    (OMAR_EOF <+: hdr ∧ t = .done .fileUnavl none) ∨ (BadMagic hdr ∧ t = .done .invalidParam none) ∨
    (OMAR_MAGIC <+: hdr ∧ recName hdr = path ∧
      t = .done .success (some ⟨recLen hdr, p + HDR_SIZE + recNameLen hdr⟩)) ∨
    (OMAR_MAGIC <+: hdr ∧ recName hdr ≠ path ∧ t = .next (p + recSize hdr)) := by
  rw [bootPackTurn_eq] at run
  cases eof : startsWith hdr OMAR_EOF with
  | none =>
    rw [eof] at run
    cases run
  | some ended =>
    rw [eof] at run
    cases ended with
    | true =>
      cases run
      exact Or.inl ⟨startsWith_eq_true.mp eof, rfl⟩
    | false =>
      cases magic : startsWith hdr OMAR_MAGIC with
      | none =>
        rw [magic] at run
        cases run
      | some found =>
        rw [magic] at run
        cases found with
        | false =>
          cases run
          exact Or.inr (Or.inl ⟨⟨startsWith_eq_false.mp eof, startsWith_eq_false.mp magic⟩, rfl⟩)
        | true =>
          right
          right
          have here := startsWith_eq_true.mp magic
          simp only [bootPackRecord, Option.bind_eq_bind] at run
          obtain ⟨b, nameLen, run⟩ := Option.bind_eq_some_iff.mp run
          have value : b.toNat = recNameLen hdr := by
            rw [recNameLen, List.getD_eq_getElem?_getD, nameLen, Option.getD_some]
          have short : ¬b.toNat > 256 - 1 := by
            have bound := recNameLen_le hdr
            omega
          rw [if_neg short] at run
          obtain ⟨name, reads, run⟩ := Option.bind_eq_some_iff.mp run
          obtain ⟨_, rfl⟩ := readBytes_eq_some.mp reads
          obtain ⟨type, type_eq, run⟩ := Option.bind_eq_some_iff.mp run
          have type_value : type = recType hdr := by
            rw [recType, List.getD_eq_getElem?_getD, type_eq, Option.getD_some]
          have len_value : ∀ len, readLE (hdr.drop 6) 4 = some len → len = recLen hdr := by
            intro len reads
            obtain ⟨bytes, bytes_eq, rfl⟩ := Option.map_eq_some_iff.mp reads
            rw [recLen, (readBytes_eq_some.mp bytes_eq).2]
          obtain ⟨off, off_eq, run⟩ := Option.bind_eq_some_iff.mp run
          have off_value : off = recSize hdr := by
            rw [recSize, ← type_value]
            rw [nextBlock] at off_eq
            by_cases dir : type = OMAR_DIR
            · rw [if_pos dir] at off_eq ⊢
              exact (Option.some.inj off_eq).symm
            · rw [if_neg dir] at off_eq ⊢
              obtain ⟨len, reads, rfl⟩ := Option.map_eq_some_iff.mp off_eq
              rw [value, len_value len reads, blockAlignUp_record]
          rw [value] at run
          by_cases zero : rtlStrcmp (cString ((hdr.drop HDR_SIZE).take (recNameLen hdr))) path = 0
          · rw [if_pos zero] at run
            obtain ⟨len, reads, rfl⟩ := Option.map_eq_some_iff.mp run
            refine Or.inl ⟨here, (rtlStrcmp_eq_zero _ _).mp zero, ?_⟩
            rw [len_value len reads]
          · rw [if_neg zero] at run
            cases run
            exact Or.inr
              ⟨here, fun same => zero ((rtlStrcmp_eq_zero _ _).mpr same), by rw [off_value]⟩

end Turns

section Walks

private theorem bootPackWalk_more (img : List Byte) (path : CString) {fuel p : Nat}
    (enough : img.length - p < fuel) :
    bootPackWalk img path (fuel + 1) p = bootPackWalk img path fuel p := by
  induction fuel generalizing p with
  | zero => exact absurd enough (Nat.not_lt_zero _)
  | succ fuel ih =>
    rw [bootPackWalk, bootPackWalk]
    cases turn : bootPackTurn path (img.drop p) p with
    | none => rfl
    | some t =>
      rcases bootPackTurn_cases turn with ⟨_, rfl⟩ | ⟨_, rfl⟩ | ⟨_, _, rfl⟩ | ⟨magic, _, rfl⟩
      · rfl
      · rfl
      · rfl
      · have large := recSize_ge (img.drop p)
        have inside := magic.length_le
        rw [List.length_drop] at inside
        have some_byte : 4 ≤ img.length - p := inside
        exact ih (by omega)

/-- The node of the first record with the name, the first record being at offset `p`. -/
def firstNamed (path : CString) : Nat → List (List Byte) → Option BootpackNode
  | _, [] => none
  | p, c :: cs =>
    if recName c = path then some ⟨recLen c, p + HDR_SIZE + recNameLen c⟩
    else firstNamed path (p + c.length) cs

theorem bootPackWalk_records {cs : List (List Byte)} (records : ∀ c ∈ cs, IsRecord c)
    (before rest : List Byte) (path : CString) {fuel : Nat} (enough : cs.length < fuel) :
    bootPackWalk (before ++ (cs.flatten ++ rest)) path fuel before.length =
      match firstNamed path before.length cs with
      | some node => some (.success, some node)
      | none => bootPackWalk (before ++ (cs.flatten ++ rest)) path (fuel - cs.length)
          (before ++ cs.flatten).length := by
  induction cs generalizing before fuel with
  | nil => simp [firstNamed]
  | cons c cs ih =>
    obtain ⟨fuel, rfl⟩ := Nat.exists_eq_succ_of_ne_zero (Nat.ne_of_gt (Nat.zero_lt_of_lt enough))
    have here := records c List.mem_cons_self
    have rest_eq :
        before ++ ((c :: cs).flatten ++ rest) = (before ++ c) ++ (cs.flatten ++ rest) := by
      simp
    have onward := ih (fun c' member => records c' (List.mem_cons_of_mem _ member)) (before ++ c)
      (show cs.length < fuel by simpa using enough)
    have turn := bootPackTurn_record here (cs.flatten ++ rest) path before.length
    have at_record : (before ++ ((c :: cs).flatten ++ rest)).drop before.length =
        c ++ (cs.flatten ++ rest) := by
      rw [List.drop_left, List.flatten_cons, List.append_assoc]
    rw [bootPackWalk, at_record, turn, firstNamed]
    by_cases same : recName c = path
    · rw [if_pos same, if_pos same]
    · rw [if_neg same, if_neg same]
      have fuel_eq : fuel + 1 - (c :: cs).length = fuel - cs.length := by simp
      have end_eq :
        (before ++ (c :: cs).flatten).length = (before ++ c ++ cs.flatten).length := by simp
      rw [List.length_append] at onward
      rw [rest_eq, fuel_eq, end_eq]
      exact onward

theorem records_length {cs : List (List Byte)} (records : ∀ c ∈ cs, IsRecord c) :
    cs.length * 512 ≤ cs.flatten.length := by
  induction cs with
  | nil => simp
  | cons c cs ih =>
    have size := recSize_ge c
    have here := (records c List.mem_cons_self).whole
    have onward := ih fun c' member => records c' (List.mem_cons_of_mem _ member)
    rw [List.length_cons, List.flatten_cons, List.length_append, Nat.succ_mul, Nat.add_comm, here]
    exact Nat.add_le_add size onward

private theorem bootPackGetFile_records {cs : List (List Byte)} (records : ∀ c ∈ cs, IsRecord c)
    {rest : List Byte} (marker : OMAR_EOF <+: rest) (path : CString) :
    bootPackGetFile (cs.flatten ++ rest) (some path) true =
      match firstNamed path 0 cs with
      | some node => some (.success, some node)
      | none => some (.fileUnavl, none) := by
  have many := records_length records
  have walk := bootPackWalk_records records [] rest path
    (show cs.length < (cs.flatten ++ rest).length + 1 by rw [List.length_append]; omega)
  rw [List.nil_append, List.nil_append, List.length_nil] at walk
  rw [bootPackGetFile, walk]
  cases firstNamed path 0 cs with
  | some node => rfl
  | none =>
    have more : ∃ fuel, (cs.flatten ++ rest).length + 1 - cs.length = fuel + 1 := by
      refine ⟨(cs.flatten ++ rest).length - cs.length, ?_⟩
      rw [List.length_append]
      omega
    obtain ⟨fuel, fuel_eq⟩ := more
    rw [fuel_eq, bootPackWalk, List.drop_left, bootPackTurn_eof marker]

private theorem firstNamed_eq_none {path : CString} {p : Nat} {cs : List (List Byte)} :
    firstNamed path p cs = none ↔ ∀ c ∈ cs, recName c ≠ path := by
  induction cs generalizing p with
  | nil => simp [firstNamed]
  | cons c cs ih =>
    by_cases same : recName c = path
    · simp [firstNamed, same]
    · simp [firstNamed, same, ih]

theorem firstNamed_eq_some {path : CString} {p : Nat} {cs : List (List Byte)} {node : BootpackNode}
    (found : firstNamed path p cs = some node) : ∃ before c after, cs = before ++ c :: after ∧
      (∀ x ∈ before, recName x ≠ path) ∧ recName c = path ∧
      node = ⟨recLen c, p + before.flatten.length + HDR_SIZE + recNameLen c⟩ := by
  induction cs generalizing p with
  | nil => cases found
  | cons c cs ih =>
    rw [firstNamed] at found
    by_cases same : recName c = path
    · rw [if_pos same] at found
      exact ⟨[], c, cs, rfl, (fun _ member => by cases member), same, (Option.some.inj found).symm⟩
    · rw [if_neg same] at found
      obtain ⟨before, c', after, rfl, others, here, rfl⟩ := ih found
      refine ⟨c :: before, c', after, rfl, ?_, here, ?_⟩
      · exact List.forall_mem_cons.mpr ⟨same, others⟩
      · rw [List.flatten_cons, List.length_append]
        simp only [Nat.add_assoc]

theorem firstNamed_append {path : CString} {p : Nat} {before after : List (List Byte)}
    {c : List Byte} (others : ∀ x ∈ before, recName x ≠ path) (here : recName c = path) :
    firstNamed path p (before ++ c :: after) =
      some ⟨recLen c, p + before.flatten.length + HDR_SIZE + recNameLen c⟩ := by
  induction before generalizing p with
  | nil => simp [firstNamed, here]
  | cons x before ih =>
    have other := others x List.mem_cons_self
    have onward := ih (fun y member => others y (List.mem_cons_of_mem _ member)) (p := p + x.length)
    rw [List.cons_append, firstNamed, if_neg other, onward, List.flatten_cons, List.length_append]
    simp only [Nat.add_assoc]

section Encoded

variable {rs : List Record} (wellFormed : ∀ r ∈ rs, r.WellFormed)

include wellFormed

theorem encode_isRecord : ∀ c ∈ rs.map Record.encode, IsRecord c := by
  intro c member
  obtain ⟨r, inside, rfl⟩ := List.mem_map.mp member
  exact (wellFormed r inside).isRecord

private theorem recName_encode : ∀ r ∈ rs, recName r.encode = r.name :=
  fun r inside => (wellFormed r inside).encode_fields.2.2.2

theorem bootPackGetFile_found {rest : List Byte} (marker : OMAR_EOF <+: rest)
    {before after : List Record}
    {r : Record} (split : rs = before ++ r :: after) (others : ∀ x ∈ before, x.name ≠ r.name) :
    bootPackGetFile (rs.flatMap Record.encode ++ rest) (some r.name) true =
      some (.success,
        some ⟨r.len, (before.flatMap Record.encode).length + HDR_SIZE + r.name.length⟩) ∧
    ∃ more, (rs.flatMap Record.encode ++ rest).drop
      ((before.flatMap Record.encode).length + HDR_SIZE + r.name.length) = r.body ++ more := by
  subst split
  have inside : r ∈ before ++ r :: after := List.mem_append_right _ List.mem_cons_self
  have lookup := bootPackGetFile_records (encode_isRecord wellFormed) marker r.name
  rw [← List.flatMap_def] at lookup
  obtain ⟨_, nameLen, len, name⟩ := (wellFormed r inside).encode_fields
  have found : firstNamed r.name 0 ((before ++ r :: after).map Record.encode) =
      some ⟨r.len, (before.flatMap Record.encode).length + HDR_SIZE + r.name.length⟩ := by
    rw [List.map_append, List.map_cons, firstNamed_append, nameLen, len, Nat.zero_add,
      List.flatMap_def]
    · intro x member
      obtain ⟨y, before_y, rfl⟩ := List.mem_map.mp member
      rw [recName_encode wellFormed y (List.mem_append_left _ before_y)]
      exact others y before_y
    · exact name
  rw [found] at lookup
  refine ⟨lookup, after.flatMap Record.encode ++ rest, ?_⟩
  have split : (before ++ r :: after).flatMap Record.encode ++ rest =
      (before.flatMap Record.encode ++ r.header ++ r.name.bytes) ++
        (r.body ++ (after.flatMap Record.encode ++ rest)) := by
    simp [List.flatMap_append, List.flatMap_cons, Record.encode]
  have offset : (before.flatMap Record.encode).length + HDR_SIZE + r.name.length =
      (before.flatMap Record.encode ++ r.header ++ r.name.bytes).length := by
    rw [List.length_append, List.length_append, r.header_length, bytes_length]
  rw [split, offset, List.drop_left]

theorem bootPackGetFile_unavailable {rest : List Byte} (marker : OMAR_EOF <+: rest)
    (path : CString) :
    bootPackGetFile (rs.flatMap Record.encode ++ rest) (some path) true = some (.fileUnavl, none) ↔
      ∀ r ∈ rs, r.name ≠ path := by
  have lookup := bootPackGetFile_records (encode_isRecord wellFormed) marker path
  rw [← List.flatMap_def] at lookup
  have absent := @firstNamed_eq_none path 0 (rs.map Record.encode)
  have same : (∀ c ∈ rs.map Record.encode, recName c ≠ path) ↔ ∀ r ∈ rs, r.name ≠ path := by
    rw [List.forall_mem_map]
    exact forall₂_congr fun r inside => by rw [recName_encode wellFormed r inside]
  rw [lookup, ← same, ← absent]
  cases firstNamed path 0 (rs.map Record.encode) with
  | none => simp
  | some node => simp

/-- In a well-formed archive a lookup finds the first record with the name, and fails
exactly if there is none. -/
theorem bootPackGetFile_first (rest : List Byte) (path : CString) :
    (∀ before r after, rs = before ++ r :: after → r.name = path → (∀ x ∈ before, x.name ≠ path) →
      bootPackGetFile (rs.flatMap Record.encode ++ (OMAR_EOF ++ rest)) (some path) true =
          some (.success,
            some ⟨r.len, (before.flatMap Record.encode).length + HDR_SIZE + r.name.length⟩) ∧
        ∃ more, (rs.flatMap Record.encode ++ (OMAR_EOF ++ rest)).drop
          ((before.flatMap Record.encode).length + HDR_SIZE + r.name.length) = r.body ++ more) ∧
    (bootPackGetFile (rs.flatMap Record.encode ++ (OMAR_EOF ++ rest)) (some path) true =
      some (.fileUnavl, none) ↔ ∀ r ∈ rs, r.name ≠ path) := by
  have marker : OMAR_EOF <+: OMAR_EOF ++ rest := List.prefix_append _ _
  refine ⟨?_, bootPackGetFile_unavailable wellFormed marker path⟩
  rintro before r after split rfl others
  exact bootPackGetFile_found wellFormed marker split others

end Encoded

end Walks

def smallFile : Record where
  type := OMAR_REG
  name := [⟨0x78, x_ne_nul⟩]
  len := 1
  rev := 2
  mode := 0o100644
  body := 0x58 :: List.replicate 495 0

def smallDir : Record where
  type := OMAR_DIR
  name := [⟨0x64, d_ne_nul⟩]
  len := 0
  rev := 2
  mode := 0o40755
  body := List.replicate 496 0

def laterFile : Record := { smallFile with body := 0x59 :: List.replicate 495 0 }

theorem bootPackGetFile_first_twoFiles :
    bootPackGetFile ([smallDir, smallFile, laterFile].flatMap Record.encode ++ (OMAR_EOF ++ []))
      (some smallFile.name) true = some (.success, some ⟨1, 528⟩) := by
  have padded : ∀ c : Byte, (c :: List.replicate 495 0).length = 496 := fun c => by
    rw [List.length_cons, List.length_replicate]
  have bodies : smallDir.body.length = 496 ∧ smallFile.body.length = 496 ∧
      laterFile.body.length = 496 :=
    ⟨List.length_replicate, padded 0x58, padded 0x59⟩
  have wellFormed : ∀ r ∈ [smallDir, smallFile, laterFile], r.WellFormed := by
    intro r member
    simp only [List.mem_cons, List.not_mem_nil, or_false] at member
    rcases member with rfl | rfl | rfl
    · exact ⟨by decide, by decide, by rw [bodies.1]; decide⟩
    · exact ⟨by decide, by decide, by rw [bodies.2.1]; decide⟩
    · exact ⟨by decide, by decide, by rw [bodies.2.2]; decide⟩
  have others : ∀ x ∈ [smallDir], x.name ≠ smallFile.name := by decide
  have found :=
    ((bootPackGetFile_first wellFormed [] smallFile.name).1 [smallDir] smallFile [laterFile] rfl rfl
    others).1
  have place :
      ([smallDir].flatMap Record.encode).length + HDR_SIZE + smallFile.name.length = 528 := by
    decide +kernel
  exact found.trans
    (congrArg (fun off => some (NtStatus.success, some (BootpackNode.mk 1 off))) place)

end Algae.Ke.BootPack
