/- When the two archive readers stay inside the archive: exactly on complete records
   followed by something that ends the walk. -/

import Algae.Tools.OmarExtract

set_option autoImplicit false
set_option relaxedAutoImplicit false

namespace Algae.Tools.OmarBounds

open Algae.Lib.ByteMemory (Byte)
open Algae.Lib.ByteImage Algae.Rtl.String Algae.Sdk.Defs Algae.Tools.OmarFormat Algae.Ke.BootPack
open Algae.Tools.OmarExtract

/-- Every lookup returns, reads only bytes of the module and hands out data inside it. -/
def LookupsInside (img : List Byte) : Prop :=
  ∀ path, ∃ status node, bootPackGetFile img (some path) true = some (status, node) ∧
    ∀ n, node = some n → n.data + n.length ≤ img.length

/-- The extraction ends, reads only bytes of its input and hands out data inside it. -/
def ExtractionInside (img : List Byte) : Prop :=
  ∃ visits ended, archiveExtract img = some (visits, ended) ∧
    ∀ v ∈ visits, ∀ range, v.data = some range → range.1 + range.2 ≤ img.length

/-- The length that a directory record claims lies inside, for each first of its name. -/
def DirsInside (size : Nat) (cs : List (List Byte)) : Prop :=
  ∀ before c after, cs = before ++ c :: after → recType c = OMAR_DIR →
    (∀ x ∈ before, recName x ≠ recName c) →
    before.flatten.length + HDR_SIZE + recNameLen c + recLen c ≤ size

/-- Complete records, and then an end marker or other bytes that the kernel's two
comparisons can tell from a record. -/
def CompleteModule (img : List Byte) : Prop :=
  ∃ (cs : List (List Byte)) (rest : List Byte), img = cs.flatten ++ rest ∧ (∀ c ∈ cs, IsRecord c) ∧
    (OMAR_EOF <+: rest ∨ BadMagic rest) ∧ DirsInside img.length cs

/-- Nothing at all, or complete records and then five bytes or more that start no record. -/
def CompleteInput (img : List Byte) : Prop :=
  img = [] ∨ ∃ (cs : List (List Byte)) (rest : List Byte), img = cs.flatten ++ rest ∧
    (∀ c ∈ cs, IsRecord c) ∧
    5 ≤ rest.length ∧ ¬OMAR_MAGIC <+: rest

section Kernel

private theorem bootPackTurn_nil (path : CString) (p : Nat) : bootPackTurn path [] p = none := rfl

/-- No path of more than 255 characters is a name in an archive. -/
def longPath : CString := List.replicate 256 ⟨0x2F, slash_ne_nul⟩

private theorem recName_ne_longPath (c : List Byte) : recName c ≠ longPath := by
  intro same
  have short := cString_length_le ((c.drop HDR_SIZE).take (recNameLen c))
  have taken := List.length_take_le (recNameLen c) (c.drop HDR_SIZE)
  have bound := recNameLen_le c
  have length := congrArg List.length same
  rw [recName, longPath, List.length_replicate] at length
  omega

private theorem records_of_walk {img : List Byte} {fuel p : Nat}
    {result : NtStatus × Option BootpackNode}
    (walked : bootPackWalk img longPath fuel p = some result) :
    ∃ (cs : List (List Byte)) (rest : List Byte), img.drop p = cs.flatten ++ rest ∧
      (∀ c ∈ cs, IsRecord c) ∧
      (OMAR_EOF <+: rest ∨ BadMagic rest) := by
  induction fuel generalizing p with
  | zero => cases walked
  | succ fuel ih =>
    rw [bootPackWalk] at walked
    cases turn : bootPackTurn longPath (img.drop p) p with
    | none =>
      rw [turn] at walked
      cases walked
    | some t =>
      rw [turn] at walked
      rcases bootPackTurn_cases turn with ⟨marker, _⟩ | ⟨bad, _⟩ | ⟨_, same, _⟩ | ⟨magic, _, rfl⟩
      · exact ⟨[], img.drop p, rfl, (fun _ member => by cases member), Or.inl marker⟩
      · exact ⟨[], img.drop p, rfl, (fun _ member => by cases member), Or.inr bad⟩
      · exact absurd same (recName_ne_longPath _)
      · have walked : bootPackWalk img longPath fuel (p + recSize (img.drop p)) = some result :=
          walked
        obtain ⟨cs, rest, split, records, ends⟩ := ih walked
        have more : img.drop (p + recSize (img.drop p)) ≠ [] := by
          intro empty
          cases fuel with
          | zero => cases walked
          | succ fuel =>
            rw [bootPackWalk, empty, bootPackTurn_nil] at walked
            cases walked
        have fits : recSize (img.drop p) ≤ (img.drop p).length := by
          rw [← List.drop_drop] at more
          exact le_of_not_gt fun short => more (List.drop_eq_nil_of_le (le_of_lt short))
        refine ⟨(img.drop p).take (recSize (img.drop p)) :: cs, rest, ?_, ?_, ends⟩
        · rw [List.flatten_cons, List.append_assoc, ← split, ← List.drop_drop,
            List.take_append_drop]
        · exact List.forall_mem_cons.mpr ⟨IsRecord.of_prefix magic fits, records⟩

private theorem bootPackGetFile_complete {cs : List (List Byte)} (records : ∀ c ∈ cs, IsRecord c)
    {rest : List Byte} (ends : OMAR_EOF <+: rest ∨ BadMagic rest) (path : CString) :
    (∃ node, firstNamed path 0 cs = some node ∧
      bootPackGetFile (cs.flatten ++ rest) (some path) true = some (.success, some node)) ∨
    (firstNamed path 0 cs = none ∧ ∃ status,
      bootPackGetFile (cs.flatten ++ rest) (some path) true = some (status, none)) := by
  have many := records_length records
  have walk := bootPackWalk_records records [] rest path
    (show cs.length < (cs.flatten ++ rest).length + 1 by rw [List.length_append]; omega)
  rw [List.nil_append, List.nil_append, List.length_nil] at walk
  rw [bootPackGetFile, walk]
  cases firstNamed path 0 cs with
  | some node => exact Or.inl ⟨node, rfl, rfl⟩
  | none =>
    obtain ⟨fuel, fuel_eq⟩ : ∃ fuel, (cs.flatten ++ rest).length + 1 - cs.length = fuel + 1 := by
      refine ⟨(cs.flatten ++ rest).length - cs.length, ?_⟩
      rw [List.length_append]
      omega
    refine Or.inr ⟨rfl, ?_⟩
    rw [fuel_eq, bootPackWalk, List.drop_left]
    rcases ends with marker | bad
    · exact ⟨_, by rw [bootPackTurn_eof marker]⟩
    · exact ⟨_, by rw [bootPackTurn_bad bad]⟩

private theorem lookupsInside_iff (img : List Byte) : LookupsInside img ↔ CompleteModule img := by
  constructor
  · intro inside
    obtain ⟨status, node, walked, _⟩ := inside longPath
    obtain ⟨cs, rest, split, records, ends⟩ := records_of_walk walked
    rw [List.drop_zero] at split
    refine ⟨cs, rest, split, records, ends, ?_⟩
    rintro before c after rfl dir others
    obtain ⟨status, node, run, bound⟩ := inside (recName c)
    have found : firstNamed (recName c) 0 (before ++ c :: after) = _ := firstNamed_append others rfl
    rcases bootPackGetFile_complete records ends (recName c) with ⟨node', eq, run'⟩ | ⟨none, _⟩
    · rw [← split, run] at run'
      obtain ⟨_, rfl⟩ := Prod.mk.inj (Option.some.inj run')
      obtain rfl := Option.some.inj (found.symm.trans eq)
      have data := bound _ rfl
      simp only [Nat.zero_add] at data
      exact data
    · rw [none] at found
      cases found
  · rintro ⟨cs, rest, rfl, records, ends, dirs⟩ path
    rcases bootPackGetFile_complete records ends path with ⟨node, found, run⟩ | ⟨_, status, run⟩
    · refine ⟨_, _, run, ?_⟩
      rintro n ⟨⟩
      obtain ⟨before, c, after, rfl, others, rfl, rfl⟩ := firstNamed_eq_some found
      change 0 + before.flatten.length + HDR_SIZE + recNameLen c + recLen c ≤ _
      rw [Nat.zero_add]
      by_cases dir : recType c = OMAR_DIR
      · exact dirs before c after rfl dir others
      · have fits := (records c (List.mem_append_right _ List.mem_cons_self)).data_fits dir
        simp only [List.flatten_append, List.flatten_cons, List.length_append]
        omega
    · exact ⟨_, _, run, fun n same => by cases same⟩

end Kernel

section Tool

private theorem extractTurn_short {hdr : List Byte} (short : hdr.length < 5) (p : Nat) :
    extractTurn hdr p = none := by
  have none : readBytes hdr 5 = none := readBytes_eq_none.mpr short
  simp only [extractTurn, none, Option.bind_eq_bind, Option.bind_none]

private theorem records_of_extractWalk {img : List Byte} {fuel p : Nat}
    {result : List Visit × ExtractEnd} (walked : extractWalk img fuel p = some result) :
    ∃ (cs : List (List Byte)) (rest : List Byte), img.drop p = cs.flatten ++ rest ∧
      (∀ c ∈ cs, IsRecord c) ∧
      5 ≤ rest.length ∧ ¬OMAR_MAGIC <+: rest := by
  induction fuel generalizing p result with
  | zero => cases walked
  | succ fuel ih =>
    rw [extractWalk] at walked
    cases turn : extractTurn (img.drop p) p with
    | none =>
      rw [turn] at walked
      cases walked
    | some t =>
      rw [turn] at walked
      have long : 5 ≤ (img.drop p).length := by
        by_contra short
        rw [extractTurn_short (by omega)] at turn
        cases turn
      rcases extractTurn_cases turn with ⟨marker, _⟩ | ⟨_, _, bad, _⟩ | ⟨magic, _, rfl⟩
      · refine ⟨[], img.drop p, rfl, (fun _ member => by cases member), long, fun magic => ?_⟩
        have not_eof := eof_not_magic magic
        rw [startsWith_eq_true.mpr marker] at not_eof
        cases not_eof
      · exact ⟨[], img.drop p, rfl, (fun _ member => by cases member), long, bad⟩
      · obtain ⟨later, onward, _⟩ := Option.map_eq_some_iff.mp walked
        obtain ⟨cs, rest, split, records, ends⟩ := ih onward
        have fits : recSize (img.drop p) ≤ (img.drop p).length := by
          by_contra short
          have empty : img.drop (p + recSize (img.drop p)) = [] := by
            rw [← List.drop_drop]
            exact List.drop_eq_nil_of_le (by omega)
          have lengths := congrArg List.length split
          rw [empty, List.length_append] at lengths
          have positive := ends.1
          simp only [List.length_nil] at lengths
          omega
        refine ⟨(img.drop p).take (recSize (img.drop p)) :: cs, rest, ?_, ?_, ends⟩
        · rw [List.flatten_cons, List.append_assoc, ← split, ← List.drop_drop,
            List.take_append_drop]
        · exact List.forall_mem_cons.mpr ⟨IsRecord.of_prefix magic fits, records⟩

private theorem extractTurn_ends {rest : List Byte} (long : 5 ≤ rest.length)
    (none : ¬OMAR_MAGIC <+: rest)
    (p : Nat) : extractTurn rest p = some .eof ∨ extractTurn rest p = some .badMagic := by
  have five : readBytes rest 5 = some (rest.take 5) := by
    rw [readBytes, if_pos long]
  have four : readBytes rest 4 = some (rest.take 4) := by
    rw [readBytes, if_pos (by omega)]
  have other : rest.take 4 ≠ OMAR_MAGIC := fun same => none (same ▸ List.take_prefix 4 rest)
  by_cases eof : rest.take 5 = OMAR_EOF
  · left
    simp only [extractTurn, five, Option.bind_eq_bind, Option.bind_some, if_pos eof]
  · right
    simp only [extractTurn, five, four, Option.bind_eq_bind, Option.bind_some,
      if_neg eof, if_pos other]

private theorem extractWalk_records {cs : List (List Byte)} (records : ∀ c ∈ cs, IsRecord c)
    (before : List Byte) {rest : List Byte} (long : 5 ≤ rest.length) (none : ¬OMAR_MAGIC <+: rest)
    {fuel : Nat} (enough : cs.length < fuel) : ∃ visits ended,
      extractWalk (before ++ (cs.flatten ++ rest)) fuel before.length = some (visits, ended) ∧
      ∀ v ∈ visits, ∀ range, v.data = some range →
        range.1 + range.2 ≤ (before ++ (cs.flatten ++ rest)).length := by
  induction cs generalizing before fuel with
  | nil =>
    obtain ⟨fuel, rfl⟩ := Nat.exists_eq_succ_of_ne_zero (Nat.ne_of_gt enough)
    rw [List.flatten_nil, List.nil_append, extractWalk, List.drop_left]
    rcases extractTurn_ends long none before.length with turn | turn
    · exact ⟨[], .eof, by rw [turn], fun _ member => by cases member⟩
    · exact ⟨[], .badMagic, by rw [turn], fun _ member => by cases member⟩
  | cons c cs ih =>
    obtain ⟨fuel, rfl⟩ := Nat.exists_eq_succ_of_ne_zero (Nat.ne_of_gt (Nat.zero_lt_of_lt enough))
    have here := records c List.mem_cons_self
    have whole : before ++ ((c :: cs).flatten ++ rest) = (before ++ c) ++ (cs.flatten ++ rest) := by
      simp
    obtain ⟨visits, ended, onward, inside⟩ :=
      ih (fun c' member => records c' (List.mem_cons_of_mem _ member)) (before ++ c)
        (show cs.length < fuel by simpa using enough)
    have at_record : (before ++ ((c :: cs).flatten ++ rest)).drop before.length =
        c ++ (cs.flatten ++ rest) := by
      rw [List.drop_left, List.flatten_cons, List.append_assoc]
    obtain ⟨nameLen, len, _, size⟩ := here.fields (cs.flatten ++ rest)
    have fits := here.name_fits
    have turn := extractTurn_header (here.magic.trans (List.prefix_append c (cs.flatten ++ rest)))
      (show HDR_SIZE + recNameLen (c ++ (cs.flatten ++ rest)) ≤
          (c ++ (cs.flatten ++ rest)).length by
        rw [nameLen, List.length_append]
        omega) before.length
    rw [size] at turn
    rw [List.length_append] at onward
    refine ⟨visitOf (c ++ (cs.flatten ++ rest)) before.length :: visits, ended, ?_, ?_⟩
    · rw [extractWalk, at_record, turn, whole]
      simp only [onward, Option.map_some]
    · refine List.forall_mem_cons.mpr ⟨?_, fun v member => whole ▸ inside v member⟩
      intro range found
      simp only [visitOf] at found
      split at found
      · cases found
      · rename_i file
        obtain rfl := Option.some.inj found
        have type := (fields_append (show HDR_SIZE ≤ c.length by omega) (cs.flatten ++ rest)).1
        rw [type] at file
        have data := here.data_fits file
        rw [nameLen, len]
        simp only [List.length_append, List.flatten_cons]
        omega

private theorem extractionInside_iff (img : List Byte) :
    ExtractionInside img ↔ CompleteInput img := by
  constructor
  · rintro ⟨visits, ended, run, _⟩
    rw [archiveExtract] at run
    split at run
    · rename_i empty
      exact Or.inl empty
    · exact Or.inr (List.drop_zero (l := img) ▸ records_of_extractWalk run)
  · rintro (rfl | ⟨cs, rest, rfl, records, long, none⟩)
    · exact ⟨[], .noData, rfl, fun _ member => by cases member⟩
    · have many := records_length records
      obtain ⟨visits, ended, run, inside⟩ := extractWalk_records records [] long none
        (show cs.length < (cs.flatten ++ rest).length + 1 by rw [List.length_append]; omega)
      refine ⟨visits, ended, ?_, inside⟩
      have some_byte : cs.flatten ++ rest ≠ [] := by
        intro empty
        have lengths := congrArg List.length empty
        rw [List.length_append, List.length_nil] at lengths
        omega
      rw [archiveExtract, if_neg some_byte]
      exact run

end Tool

/-- Both readers stay inside exactly on archives that are complete for them. -/
theorem readers_inside_iff (img : List Byte) :
    (LookupsInside img ↔ CompleteModule img) ∧ (ExtractionInside img ↔ CompleteInput img) :=
  ⟨lookupsInside_iff img, extractionInside_iff img⟩

/-- Four bytes that begin a record. Both readers go on behind them. -/
theorem cut_header_read_outside : ¬LookupsInside OMAR_MAGIC ∧ ¬ExtractionInside OMAR_MAGIC := by
  constructor
  · intro inside
    obtain ⟨status, node, run, _⟩ := inside []
    cases run
  · rintro ⟨visits, ended, run, _⟩
    cases run

end Algae.Tools.OmarBounds
