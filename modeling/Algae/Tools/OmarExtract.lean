/- The archive tool's extraction loop; that it and the kernel's reader agree, and when
   both stay inside the archive. -/

import Algae.Ke.BootPack

set_option autoImplicit false
set_option relaxedAutoImplicit false

namespace Algae.Tools.OmarExtract

open Algae.Lib.ByteMemory (Byte)
open Algae.Lib.ByteImage Algae.Rtl.String Algae.Sdk.Defs Algae.Tools.OmarFormat Algae.Ke.BootPack

/-- A record that the loop unpacks: the offset of its header, its name, and the offset
and length of the data handed to extract_single. A directory has none. -/
structure Visit where
  hdr : Nat
  name : CString
  data : Option (Nat × Nat)
  deriving DecidableEq, Repr

def Visit.named (path : CString) (v : Visit) : Bool := v.name = path

inductive ExtractTurn
  | eof
  | badMagic
  | visit (v : Visit) (next : Nat)

inductive ExtractEnd
  | eof | badMagic | noData
  deriving DecidableEq, Repr

/-- The rest of a turn, once the header is found valid. The revision only decides on a
message; mkpath and extract_single read the mode. -/
def extractRecord (hdr : List Byte) (p : Nat) : Option ExtractTurn := do
  let _rev ← hdr[10]?
  let namelen ← hdr[5]?
  let namebuf ← readBytes (hdr.drop HDR_SIZE) namelen.toNat
  let type ← hdr[4]?
  let _mode ← readLE (hdr.drop 11) 4
  if type = OMAR_DIR then
    some (.visit ⟨p, cString namebuf, none⟩ (p + 512))
  else
    (readLE (hdr.drop 6) 4).map fun len =>
      .visit ⟨p, cString namebuf, some (p + HDR_SIZE + namelen.toNat, len)⟩
        (p + blockAlignUp (HDR_SIZE + namelen.toNat + len))

def extractTurn (hdr : List Byte) (p : Nat) : Option ExtractTurn := do
  let eof ← readBytes hdr 5
  if eof = OMAR_EOF then
    some .eof
  else
    let magic ← readBytes hdr 4
    if magic ≠ OMAR_MAGIC then some .badMagic else extractRecord hdr p

def extractWalk (img : List Byte) : Nat → Nat → Option (List Visit × ExtractEnd)
  | 0, _ => none
  | fuel + 1, p =>
    match extractTurn (img.drop p) p with
    | none => none
    | some .eof => some ([], .eof)
    | some .badMagic => some ([], .badMagic)
    | some (.visit v p) => (extractWalk img fuel p).map fun (vs, ended) => (v :: vs, ended)

/-- The loop over an input file of these bytes; as in the kernel's reader a turn for
each byte is enough. -/
def archiveExtract (img : List Byte) : Option (List Visit × ExtractEnd) :=
  if img = [] then some ([], .noData) else extractWalk img (img.length + 1) 0

def visitOf (hdr : List Byte) (p : Nat) : Visit where
  hdr := p
  name := recName hdr
  data := if recType hdr = OMAR_DIR then none else some (p + HDR_SIZE + recNameLen hdr, recLen hdr)

section Turns

theorem extractTurn_header {hdr : List Byte} (magic : OMAR_MAGIC <+: hdr)
    (fits : HDR_SIZE + recNameLen hdr ≤ hdr.length) (p : Nat) :
    extractTurn hdr p = some (.visit (visitOf hdr p) (p + recSize hdr)) := by
  have long : 15 ≤ hdr.length := by
    rw [HDR_SIZE] at fits
    omega
  have four : readBytes hdr 4 = some OMAR_MAGIC := by
    obtain ⟨rest, rfl⟩ := magic
    exact readBytes_append (show 4 ≤ OMAR_MAGIC.length from Nat.le_refl 4) rest
  have not_eof : hdr.take 5 ≠ OMAR_EOF := by
    obtain ⟨rest, rfl⟩ := magic
    intro same
    have first : some (0x4F : Byte) = some 0x52 := congrArg List.head? same
    exact absurd first (by decide)
  have field : ∀ i, i < 15 → hdr[i]? = some (hdr.getD i 0) := by
    intro i short
    rw [List.getD_eq_getElem?_getD, List.getElem?_eq_getElem (by omega), Option.getD_some]
  have name : readBytes (hdr.drop HDR_SIZE) (hdr.getD 5 0).toNat =
      some ((hdr.drop HDR_SIZE).take (recNameLen hdr)) := by
    rw [readBytes, List.length_drop, if_pos]
    · rfl
    · change recNameLen hdr ≤ _
      omega
  have number : ∀ i, i ≤ 11 → readLE (hdr.drop i) 4 = some (leNat ((hdr.drop i).take 4)) := by
    intro i short
    rw [readLE, readBytes, List.length_drop, if_pos (by omega), Option.map_some]
  have five : readBytes hdr 5 = some (hdr.take 5) := by
    rw [readBytes, if_pos (by omega)]
  simp only [extractTurn, five, four, Option.bind_eq_bind, Option.bind_some, if_neg not_eof, ne_eq,
    not_true, if_false, extractRecord, field 10 (by decide), field 5 (by decide), name,
    field 4 (by decide), number 11 (by decide), number 6 (by decide), Option.map_some, visitOf]
  by_cases dir : recType hdr = OMAR_DIR
  · have dir' : hdr.getD 4 0 = OMAR_DIR := dir
    rw [if_pos dir', if_pos dir, recSize, if_pos dir]
    rfl
  · have file : ¬hdr.getD 4 0 = OMAR_DIR := dir
    have align := blockAlignUp_record hdr
    rw [if_neg file, if_neg dir, recSize, if_neg dir, ← align]
    rfl

theorem extractTurn_cases {hdr : List Byte} {p : Nat} {t : ExtractTurn}
    (run : extractTurn hdr p = some t) :
    (OMAR_EOF <+: hdr ∧ t = .eof) ∨
    (5 ≤ hdr.length ∧ ¬OMAR_EOF <+: hdr ∧ ¬OMAR_MAGIC <+: hdr ∧ t = .badMagic) ∨
    (OMAR_MAGIC <+: hdr ∧ HDR_SIZE + recNameLen hdr ≤ hdr.length ∧
      t = .visit (visitOf hdr p) (p + recSize hdr)) := by
  have whole := run
  simp only [extractTurn, Option.bind_eq_bind] at run
  obtain ⟨five, five_eq, run⟩ := Option.bind_eq_some_iff.mp run
  obtain ⟨long, rfl⟩ := readBytes_eq_some.mp five_eq
  by_cases eof : hdr.take 5 = OMAR_EOF
  · rw [if_pos eof] at run
    cases run
    exact Or.inl ⟨eof ▸ List.take_prefix 5 hdr, rfl⟩
  · rw [if_neg eof] at run
    have not_eof : ¬OMAR_EOF <+: hdr := fun h => eof (List.prefix_iff_eq_take.mp h).symm
    obtain ⟨four, four_eq, run⟩ := Option.bind_eq_some_iff.mp run
    obtain ⟨_, rfl⟩ := readBytes_eq_some.mp four_eq
    by_cases magic : hdr.take 4 = OMAR_MAGIC
    · have here : OMAR_MAGIC <+: hdr := magic ▸ List.take_prefix 4 hdr
      rw [if_neg (not_not.mpr magic)] at run
      simp only [extractRecord, Option.bind_eq_bind] at run
      obtain ⟨rev, _, run⟩ := Option.bind_eq_some_iff.mp run
      obtain ⟨namelen, namelen_eq, run⟩ := Option.bind_eq_some_iff.mp run
      have value : namelen.toNat = recNameLen hdr := by
        rw [recNameLen, List.getD_eq_getElem?_getD, namelen_eq, Option.getD_some]
      obtain ⟨namebuf, namebuf_eq, run⟩ := Option.bind_eq_some_iff.mp run
      obtain ⟨type, _, run⟩ := Option.bind_eq_some_iff.mp run
      obtain ⟨mode, mode_eq, _⟩ := Option.bind_eq_some_iff.mp run
      obtain ⟨bytes, bytes_eq, _⟩ := Option.map_eq_some_iff.mp mode_eq
      have header := (readBytes_eq_some.mp bytes_eq).1
      have name := (readBytes_eq_some.mp namebuf_eq).1
      rw [List.length_drop] at header name
      have fits : HDR_SIZE + recNameLen hdr ≤ hdr.length := by
        rw [HDR_SIZE] at name ⊢
        omega
      have turn := extractTurn_header here fits p
      exact Or.inr (Or.inr ⟨here, fits, Option.some.inj (whole.symm.trans turn)⟩)
    · have not_magic : ¬OMAR_MAGIC <+: hdr := fun h => magic (List.prefix_iff_eq_take.mp h).symm
      rw [if_pos magic] at run
      cases run
      exact Or.inr (Or.inl ⟨long, not_eof, not_magic, rfl⟩)

private theorem extractWalk_more (img : List Byte) {fuel p : Nat} (enough : img.length - p < fuel) :
    extractWalk img (fuel + 1) p = extractWalk img fuel p := by
  induction fuel generalizing p with
  | zero => exact absurd enough (Nat.not_lt_zero _)
  | succ fuel ih =>
    rw [extractWalk, extractWalk]
    cases turn : extractTurn (img.drop p) p with
    | none => rfl
    | some t =>
      rcases extractTurn_cases turn with ⟨_, rfl⟩ | ⟨_, _, _, rfl⟩ | ⟨_, fits, rfl⟩
      · rfl
      · rfl
      · have large := recSize_ge (img.drop p)
        rw [List.length_drop, HDR_SIZE] at fits
        simp only [ih (show img.length - (p + recSize (img.drop p)) < fuel by omega)]

end Turns

/-! The two readers side by side. -/

/-- What the fields of the header say about the data of a visited record. -/
def nodeOf (img : List Byte) (v : Visit) : BootpackNode where
  length := recLen (img.drop v.hdr)
  data := v.hdr + HDR_SIZE + recNameLen (img.drop v.hdr)

private theorem walks_agree {img : List Byte} {visits : List Visit} {fuel p : Nat}
    (reached : extractWalk img fuel p = some (visits, .eof)) (path : CString) :
    bootPackWalk img path fuel p =
      (match visits.find? (Visit.named path) with
      | some v => some (.success, some (nodeOf img v))
      | none => some (.fileUnavl, none)) ∧
    ∀ v ∈ visits, ∀ range, v.data = some range →
      range = ((nodeOf img v).data, (nodeOf img v).length) := by
  induction fuel generalizing p visits with
  | zero => cases reached
  | succ fuel ih =>
    rw [extractWalk] at reached
    cases turn : extractTurn (img.drop p) p with
    | none =>
      rw [turn] at reached
      cases reached
    | some t =>
      rw [turn] at reached
      rcases extractTurn_cases turn with ⟨marker, rfl⟩ | ⟨_, _, _, rfl⟩ | ⟨magic, fits, rfl⟩
      · cases reached
        rw [bootPackWalk, bootPackTurn_eof marker]
        exact ⟨rfl, fun _ member => by cases member⟩
      · cases reached
      · obtain ⟨⟨later, ended⟩, onward, eq⟩ := Option.map_eq_some_iff.mp reached
        obtain ⟨rfl, rfl⟩ := Prod.mk.inj eq
        obtain ⟨agree, ranges⟩ := ih onward
        rw [bootPackWalk, bootPackTurn_header magic fits]
        refine ⟨?_, List.forall_mem_cons.mpr ⟨?_, ranges⟩⟩
        · have named :
            Visit.named path (visitOf (img.drop p) p) = decide (recName (img.drop p) = path) := rfl
          rw [List.find?_cons, named]
          by_cases same : recName (img.drop p) = path
          · rw [if_pos same, decide_eq_true same]
            rfl
          · rw [if_neg same, decide_eq_false same]
            exact agree
        · intro range found
          simp only [visitOf] at found
          split at found
          · cases found
          · exact (Option.some.inj found).symm

/-- Where the tool reaches the end marker, the kernel's lookup of a path finds the first
record that the tool visits under that name, and fails if there is none; the data are
behind the name, as long as the header says, and those the tool extracts. -/
theorem readers_agree {img : List Byte} {visits : List Visit}
    (reached : archiveExtract img = some (visits, .eof)) (path : CString) :
    bootPackGetFile img (some path) true =
      (match visits.find? (Visit.named path) with
      | some v => some (.success, some (nodeOf img v))
      | none => some (.fileUnavl, none)) ∧
    ∀ v ∈ visits, ∀ range, v.data = some range →
      range = ((nodeOf img v).data, (nodeOf img v).length) := by
  rw [archiveExtract] at reached
  split at reached
  · cases reached
  · exact walks_agree reached path

def dirAndFile : List Byte := smallDir.encode ++ (smallFile.encode ++ OMAR_EOF)

theorem readers_agree_dirAndFile :
    bootPackGetFile dirAndFile (some smallFile.name) true =
      some (.success, some ⟨1, 528⟩) := by
  have reached : archiveExtract dirAndFile =
      some ([⟨0, smallDir.name, none⟩, ⟨512, smallFile.name, some (528, 1)⟩],
        .eof) := by decide +kernel
  have node : nodeOf dirAndFile ⟨512, smallFile.name, some (528, 1)⟩ = ⟨1, 528⟩ := by
    decide +kernel
  exact node ▸ (readers_agree reached smallFile.name).1

end Algae.Tools.OmarExtract
