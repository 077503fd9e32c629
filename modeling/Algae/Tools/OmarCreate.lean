/- The archive tool's writer, and what the kernel reads of the archives it writes. -/

import Algae.Ke.BootPack

set_option autoImplicit false
set_option relaxedAutoImplicit false

namespace Algae.Tools.OmarCreate

open Algae.Lib.ByteMemory (Byte)
open Algae.Lib.ByteImage Algae.Rtl.String Algae.Sdk.Defs Algae.Tools.OmarFormat Algae.Ke.BootPack

def OMAR_REV : Byte := 2

def dot : CChar := ⟨0x2E, by decide⟩

/-- A directory as readdir lists it: regular files, directories, which are listed
themselves, and others. -/
inductive Listing
  | nil
  | reg (name : CString) (mode : Nat) (data : List Byte) (rest : Listing)
  | dir (name : CString) (mode size : Nat) (entries rest : Listing)
  | other (name : CString) (rest : Listing)

inductive Input
  | reg (mode : Nat) (data : List Byte)
  | dir (mode size : Nat)

/-- Behind the first separator; `none` is NULL. -/
def stripRoot : CString → Option CString
  | [] => none
  | c :: path => if c = slash then some path else stripRoot path

def snprintf256 (s : CString) : CString := s.take 255

def omarHdr (magic : List Byte) (type : Byte) (namelen len mode : Nat) : List Byte :=
  magic ++ [type, BitVec.ofNat 8 namelen] ++ leBytes 4 len ++ [OMAR_REV] ++ leBytes 4 mode

/-- The bytes that file_push appends; `none` is a path that cannot be opened. The fields
`namelen` and `len` have 8 and 32 bits. A read of no bytes ends the call. -/
def filePush (input : Option Input) (name : CString) : List Byte :=
  let namelen := name.length % 256
  match input with
  | none => []
  | some (.dir mode size) =>
    let rem := (HDR_SIZE + namelen) % 512
    omarHdr OMAR_MAGIC OMAR_DIR namelen (size % 0x100000000) mode ++ name.bytes.take namelen ++
      List.replicate (512 - rem) 0
  | some (.reg mode data) =>
    let len := data.length % 0x100000000
    let start := omarHdr OMAR_MAGIC OMAR_REG namelen len mode ++ name.bytes.take namelen
    if len = 0 then
      start
    else
      let rem := (HDR_SIZE + (namelen + len) % 0x100000000) % 512
      start ++ data.take len ++ (if rem ≠ 0 then List.replicate (512 - rem) 0 else [])

/-- `file_push(NULL, "EOF")`; the mode is not set and has any value. -/
def filePushEof (mode : Nat) : List Byte :=
  omarHdr [0x52, 0x41, 0x4D, 0x4F] OMAR_REG 3 0 mode ++ [0x45, 0x4F, 0x46]

def opened (path : CString) (input : Input) : Option Input :=
  if path.length < 256 then some input else none

/-- The bytes appended for a listing of the directory `base`. A name buffer that is not
cut off has a separator for strip_root to find. -/
def archiveCreate (base dirname : CString) : Listing → List Byte
  | .nil => []
  | .reg name mode data rest =>
    if name.head? = some dot then
      archiveCreate base dirname rest
    else
      let namebuf := snprintf256 (dirname ++ slash :: name)
      filePush (opened (base ++ slash :: name) (.reg mode data)) ((stripRoot namebuf).getD []) ++
        archiveCreate base dirname rest
  | .dir name mode size entries rest =>
    if name.head? = some dot then
      archiveCreate base dirname rest
    else
      let pathbuf := snprintf256 (base ++ slash :: name)
      let namebuf := snprintf256 (dirname ++ slash :: name)
      filePush (opened (base ++ slash :: name) (.dir mode size)) ((stripRoot namebuf).getD []) ++
        (if (base ++ slash :: name).length < 256 then archiveCreate pathbuf namebuf
          entries else []) ++
        archiveCreate base dirname rest
  | .other _ rest => archiveCreate base dirname rest

/-- The archive of a directory: its entries and the end record. -/
def archive (base dirname : CString) (mode : Nat) (tree : Listing) : List Byte :=
  archiveCreate base dirname tree ++ filePushEof mode

/-! The tree as a set of files, and the archive as it should be. -/

/-- The regular files with their paths, the listed directory being at `path`. -/
def files (path : CString) : Listing → List (CString × List Byte)
  | .nil => []
  | .reg name _ data rest => (path ++ name, data) :: files path rest
  | .dir name _ _ entries rest => files (path ++ name ++ [slash]) entries ++ files path rest
  | .other _ rest => files path rest

def names : Listing → List CString
  | .nil => []
  | .reg name _ _ rest => name :: names rest
  | .dir name _ _ _ rest => name :: names rest
  | .other name rest => name :: names rest

def NoDirs : Listing → Prop
  | .nil => True
  | .reg _ _ _ rest => NoDirs rest
  | .dir _ _ _ _ _ => False
  | .other _ rest => NoDirs rest

/-- A name that a directory entry can have, that no later one has, that is not hidden,
and whose joined paths are shorter than 256 characters. -/
structure EntryOk (base dirname path name : CString) (rest : Listing) : Prop where
  nonempty : name ≠ []
  pure : slash ∉ name
  visible : name.head? ≠ some dot
  unique : name ∉ names rest
  base_short : (base ++ slash :: (path ++ name)).length < 256
  name_short : (dirname ++ slash :: (path ++ name)).length < 256

def Valid (base dirname path : CString) : Listing → Prop
  | .nil => True
  | .reg name _ data rest => EntryOk base dirname path name rest ∧ data.length < 0x100000000 ∧
      Valid base dirname path rest
  | .dir name _ _ entries rest => EntryOk base dirname path name rest ∧
      Valid base dirname (path ++ name ++ [slash]) entries ∧ Valid base dirname path rest
  | .other name rest => EntryOk base dirname path name rest ∧ Valid base dirname path rest

/-- The lookup of every regular file leads to its contents, of any other path to NULL. -/
def Agrees (img : List Byte) (tree : Listing) : Prop :=
  (∀ rel data, (rel, data) ∈ files [] tree → ∃ off,
    keBootPackGet img (some (slash :: rel)) = some (some off) ∧ data <+: img.drop off) ∧
  ∀ path, (∀ rel data, path = slash :: rel → (rel, data) ∉ files [] tree) →
    keBootPackGet img (some path) = some none

def regRecord (name : CString) (mode : Nat) (data : List Byte) : Record where
  type := OMAR_REG
  name := name
  len := data.length
  rev := OMAR_REV
  mode := mode
  body := data ++ List.replicate
    ((HDR_SIZE + name.length + data.length + 511) /
      512 * 512 - (HDR_SIZE + name.length + data.length)) 0

def dirRecord (name : CString) (mode size : Nat) : Record where
  type := OMAR_DIR
  name := name
  len := size % 0x100000000
  rev := OMAR_REV
  mode := mode
  body := List.replicate (512 - (HDR_SIZE + name.length)) 0

/-- The records of a listing, a directory's before those of its entries. -/
def records (path : CString) : Listing → List Record
  | .nil => []
  | .reg name mode data rest => regRecord (path ++ name) mode data :: records path rest
  | .dir name mode size entries rest =>
    dirRecord
      (path ++ name) mode size :: (records (path ++ name ++ [slash]) entries ++ records path rest)
  | .other _ rest => records path rest

def fileOf (r : Record) : Option (CString × List Byte) :=
  if r.type = OMAR_DIR then none else some (r.name, r.body.take r.len)

section Writer

private theorem stripRoot_below {dirname : CString} (pure : slash ∉ dirname) (path : CString) :
    stripRoot (dirname ++ slash :: path) = some path := by
  induction dirname with
  | nil => rw [List.nil_append, stripRoot, if_pos rfl]
  | cons c dirname ih =>
    obtain ⟨here, pure⟩ := not_or.mp (fun h => pure (List.mem_cons.mpr h))
    rw [List.cons_append, stripRoot, if_neg (Ne.symm here), ih pure]

private theorem snprintf256_short {s : CString} (short : s.length < 256) : snprintf256 s = s :=
  List.take_of_length_le (by omega)

private theorem regRecord_wellFormed {name : CString} {mode : Nat} {data : List Byte}
    (short : name.length ≤ 255)
    (small : data.length < 0x100000000) : (regRecord name mode data).WellFormed := by
  refine ⟨short, small, ?_⟩
  have reg : ¬OMAR_REG = OMAR_DIR := by decide
  change HDR_SIZE + name.length + (data ++ List.replicate _ 0).length = if OMAR_REG =
    OMAR_DIR then _ else _
  rw [if_neg reg, List.length_append, List.length_replicate]
  change _ = (HDR_SIZE + name.length + data.length + 511) / 512 * 512
  omega

private theorem dirRecord_wellFormed {name : CString} {mode size : Nat}
    (short : name.length ≤ 255) :
    (dirRecord name mode size).WellFormed := by
  refine ⟨short, Nat.mod_lt _ (by norm_num), ?_⟩
  simp only [dirRecord, if_true, List.length_replicate, HDR_SIZE]
  omega

private theorem filePush_reg {name : CString} {mode : Nat} {data : List Byte}
    (short : name.length ≤ 255) (small : data.length < 0x100000000) (some_data : data ≠ []) :
    filePush (some (.reg mode data)) name = (regRecord name mode data).encode := by
  have namelen : name.length % 256 = name.length := Nat.mod_eq_of_lt (by omega)
  have len : data.length % 0x100000000 = data.length := Nat.mod_eq_of_lt small
  have positive : data.length ≠ 0 := fun zero => some_data (List.eq_nil_of_length_eq_zero zero)
  have whole_name : name.bytes.take name.length = name.bytes :=
    List.take_of_length_le (le_of_eq (bytes_length name))
  have rem : (HDR_SIZE + (name.length + data.length) % 0x100000000) % 512 =
      (HDR_SIZE + name.length + data.length) % 512 := by omega
  have pad : (if (HDR_SIZE + name.length + data.length) % 512 ≠ 0 then
      List.replicate (512 - (HDR_SIZE + name.length + data.length) % 512) (0 : Byte) else []) =
      List.replicate ((HDR_SIZE + name.length + data.length + 511) / 512 * 512 -
        (HDR_SIZE + name.length + data.length)) 0 := by
    by_cases full : (HDR_SIZE + name.length + data.length) % 512 = 0
    · rw [if_neg (not_not.mpr full)]
      have none : (HDR_SIZE + name.length + data.length + 511) / 512 * 512 -
          (HDR_SIZE + name.length + data.length) = 0 := by omega
      rw [none, List.replicate_zero]
    · rw [if_pos full]
      congr 1
      omega
  simp only [filePush, namelen, len, if_neg positive, whole_name, rem, pad, List.take_length]
  simp only [Record.encode, Record.header, regRecord, omarHdr, List.append_assoc]

private theorem filePush_dir {name : CString} {mode size : Nat} (short : name.length ≤ 255) :
    filePush (some (.dir mode size)) name = (dirRecord name mode size).encode := by
  have namelen : name.length % 256 = name.length := Nat.mod_eq_of_lt (by omega)
  have whole_name : name.bytes.take name.length = name.bytes :=
    List.take_of_length_le (le_of_eq (bytes_length name))
  have rem : (HDR_SIZE + name.length) % 512 = HDR_SIZE + name.length :=
    Nat.mod_eq_of_lt (by rw [HDR_SIZE]; omega)
  simp only [filePush, namelen, whole_name, rem]
  simp only [Record.encode, Record.header, dirRecord, omarHdr, List.append_assoc]

private theorem entry_paths {base dirname path b d name : CString} {rest : Listing}
    (pure : slash ∉ dirname) (ok : EntryOk base dirname path name rest)
    (here : ∀ name, b ++ slash :: name = base ++ slash :: (path ++ name))
    (there : ∀ name, d ++ slash :: name = dirname ++ slash :: (path ++ name)) (input : Input) :
    opened (b ++ slash :: name) input = some input ∧
      (stripRoot (snprintf256 (d ++ slash :: name))).getD [] = path ++ name ∧
      (path ++ name).length ≤ 255 := by
  refine ⟨?_, ?_, ?_⟩
  · rw [opened, here, if_pos ok.base_short]
  · rw [there, snprintf256_short ok.name_short, stripRoot_below pure, Option.getD_some]
  · have short := ok.name_short
    rw [List.length_append, List.length_cons] at short
    omega

theorem archiveCreate_records {base dirname path b d : CString} {tree : Listing}
    (pure : slash ∉ dirname)
    (valid : Valid base dirname path tree) (full : ∀ f ∈ files path tree, f.2 ≠ [])
    (here : ∀ name, b ++ slash :: name = base ++ slash :: (path ++ name))
    (there : ∀ name, d ++ slash :: name = dirname ++ slash :: (path ++ name)) :
    archiveCreate b d tree = (records path tree).flatMap Record.encode := by
  induction tree generalizing path b d with
  | nil => rfl
  | reg name mode data rest ih =>
    obtain ⟨ok, small, valid⟩ := valid
    obtain ⟨open_eq, name_eq, short⟩ := entry_paths pure ok here there (.reg mode data)
    have some_data := full (path ++ name, data) List.mem_cons_self
    have onward := ih valid (fun f member => full f (List.mem_cons_of_mem _ member)) here there
    rw [archiveCreate, if_neg ok.visible, records, List.flatMap_cons, ← onward]
    simp only [open_eq, name_eq, filePush_reg short small some_data]
  | dir name mode size entries rest ih_entries ih =>
    obtain ⟨ok, valid_entries, valid⟩ := valid
    obtain ⟨open_eq, name_eq, short⟩ := entry_paths pure ok here there (.dir mode size)
    have onward := ih valid (fun f member => full f (List.mem_append_right _ member)) here there
    have path_eq : snprintf256 (b ++ slash :: name) = base ++ slash :: (path ++ name) := by
      rw [here, snprintf256_short ok.base_short]
    have names_eq : snprintf256 (d ++ slash :: name) = dirname ++ slash :: (path ++ name) := by
      rw [there, snprintf256_short ok.name_short]
    have below : ∀ first x : CString, (first ++ slash :: (path ++ name)) ++ slash :: x =
        first ++ slash :: ((path ++ name ++ [slash]) ++ x) := by
      intro first x
      simp
    have inner := ih_entries valid_entries (fun f member => full f (List.mem_append_left _ member))
      (below base) (below dirname)
    rw [archiveCreate, if_neg ok.visible, records, List.flatMap_cons, List.flatMap_append, ← onward,
      ← inner]
    simp only [open_eq, name_eq, filePush_dir short]
    rw [path_eq, names_eq, here, if_pos ok.base_short, List.append_assoc]
  | other name rest ih =>
    obtain ⟨ok, valid⟩ := valid
    rw [archiveCreate, records]
    exact ih valid full here there

theorem records_wellFormed {base dirname path : CString} {tree : Listing}
    (valid : Valid base dirname path tree) : ∀ r ∈ records path tree, r.WellFormed := by
  have short : ∀ {path name rest}, EntryOk base dirname path name rest →
      (path ++ name).length ≤ 255 := by
    intro path name rest ok
    have length := ok.name_short
    rw [List.length_append, List.length_cons] at length
    omega
  induction tree generalizing path with
  | nil => exact fun _ member => by cases member
  | reg name mode data rest ih =>
    obtain ⟨ok, small, valid⟩ := valid
    exact List.forall_mem_cons.mpr ⟨regRecord_wellFormed (short ok) small, ih valid⟩
  | dir name mode size entries rest ih_entries ih =>
    obtain ⟨ok, valid_entries, valid⟩ := valid
    refine List.forall_mem_cons.mpr ⟨dirRecord_wellFormed (short ok), fun r member => ?_⟩
    rcases List.mem_append.mp member with member | member
    · exact ih_entries valid_entries r member
    · exact ih valid r member
  | other name rest ih => exact ih valid.2

private theorem record_name {path : CString} {tree : Listing} {r : Record}
    (member : r ∈ records path tree) :
    ∃ name ∈ names tree, ∃ more, r.name = path ++ name ++ more ∧
      (more = [] ∨ more.head? = some slash) := by
  induction tree generalizing path with
  | nil => cases member
  | reg name mode data rest ih =>
    rcases List.mem_cons.mp member with rfl | member
    · exact ⟨name, List.mem_cons_self, [], (List.append_nil _).symm, Or.inl rfl⟩
    · obtain ⟨other, inside, h⟩ := ih member
      exact ⟨other, List.mem_cons_of_mem _ inside, h⟩
  | dir name mode size entries rest ih_entries ih =>
    rcases List.mem_cons.mp member with rfl | member
    · exact ⟨name, List.mem_cons_self, [], (List.append_nil _).symm, Or.inl rfl⟩
    · rcases List.mem_append.mp member with member | member
      · obtain ⟨other, _, more, eq, _⟩ := ih_entries member
        exact ⟨name, List.mem_cons_self, slash :: (other ++ more), by rw [eq]; simp, Or.inr rfl⟩
      · obtain ⟨other, inside, h⟩ := ih member
        exact ⟨other, List.mem_cons_of_mem _ inside, h⟩
  | other name rest ih =>
    obtain ⟨other, inside, h⟩ := ih member
    exact ⟨other, List.mem_cons_of_mem _ inside, h⟩

private theorem name_of_path {path name name' more more' : CString} (pure : slash ∉ name)
    (pure' : slash ∉ name')
    (tail : more = [] ∨ more.head? = some slash) (tail' : more' = [] ∨ more'.head? = some slash)
    (same : path ++ name ++ more = path ++ name' ++ more') : name = name' := by
  have cut : ∀ {n m : CString}, slash ∉ n → (m = [] ∨ m.head? = some slash) →
      (n ++ m).takeWhile (· ≠ slash) = n := by
    intro n m pure tail
    have all : ∀ c ∈ n, decide (c ≠ slash) = true := by
      intro c member
      refine decide_eq_true ?_
      rintro rfl
      exact pure member
    rw [List.takeWhile_append_of_pos all]
    rcases tail with rfl | head
    · rw [List.takeWhile_nil, List.append_nil]
    · cases m with
      | nil => cases head
      | cons c m =>
        obtain rfl := Option.some.inj head
        rw [List.takeWhile_cons_of_neg (by simp), List.append_nil]
  rw [List.append_assoc, List.append_assoc] at same
  have rest := List.append_cancel_left same
  rw [← cut pure tail, rest, cut pure' tail']

private theorem valid_names {base dirname path : CString} {tree : Listing}
    (valid : Valid base dirname path tree) :
    ∀ name ∈ names tree, name ≠ [] ∧ slash ∉ name := by
  induction tree with
  | nil => exact fun _ member => by cases member
  | reg name mode data rest ih =>
    exact List.forall_mem_cons.mpr ⟨⟨valid.1.nonempty, valid.1.pure⟩, ih valid.2.2⟩
  | dir name mode size entries rest _ ih =>
    exact List.forall_mem_cons.mpr ⟨⟨valid.1.nonempty, valid.1.pure⟩, ih valid.2.2⟩
  | other name rest ih =>
    exact List.forall_mem_cons.mpr ⟨⟨valid.1.nonempty, valid.1.pure⟩, ih valid.2⟩

private theorem records_nodup {base dirname path : CString} {tree : Listing}
    (valid : Valid base dirname path tree) : ((records path tree).map Record.name).Nodup := by
  have apart : ∀ {path name rest} more, EntryOk base dirname path name rest →
      Valid base dirname path rest → (more = [] ∨ more.head? = some slash) →
      path ++ name ++ more ∉ (records path rest).map Record.name := by
    intro path name rest more ok valid tail member
    obtain ⟨r, inside, eq⟩ := List.mem_map.mp member
    obtain ⟨other, listed, more', eq', tail'⟩ := record_name inside
    have same :=
      name_of_path ok.pure (valid_names valid other listed).2 tail tail' (eq.symm.trans eq')
    exact ok.unique (same ▸ listed)
  induction tree generalizing path with
  | nil => exact List.nodup_nil
  | reg name mode data rest ih =>
    obtain ⟨ok, _, valid⟩ := valid
    refine List.nodup_cons.mpr ⟨?_, ih valid⟩
    have other := apart [] ok valid (Or.inl rfl)
    rw [List.append_nil] at other
    exact other
  | dir name mode size entries rest ih_entries ih =>
    obtain ⟨ok, valid_entries, valid⟩ := valid
    have below : ∀ r ∈ records (path ++ name ++ [slash]) entries, ∃ more,
        r.name = path ++ name ++ slash :: more := by
      intro r member
      obtain ⟨other, _, more, eq, _⟩ := record_name member
      exact ⟨other ++ more, by rw [eq]; simp⟩
    rw [records, List.map_cons, List.map_append, List.nodup_cons, List.nodup_append]
    refine ⟨?_, ih_entries valid_entries, ih valid, ?_⟩
    · rw [List.mem_append, not_or]
      refine ⟨fun member => ?_, ?_⟩
      · obtain ⟨r, inside, eq⟩ := List.mem_map.mp member
        obtain ⟨more, eq'⟩ := below r inside
        have lengths := congrArg List.length (eq'.symm.trans eq)
        change _ = (path ++ name).length at lengths
        rw [List.length_append, List.length_cons] at lengths
        omega
      · have other := apart [] ok valid (Or.inl rfl)
        rw [List.append_nil] at other
        exact other
    · rintro a member b member' rfl
      obtain ⟨r, inside, rfl⟩ := List.mem_map.mp member
      obtain ⟨more, eq⟩ := below r inside
      exact apart (slash :: more) ok valid (Or.inr rfl) (eq ▸ member')
  | other name rest ih => exact ih valid.2

theorem files_eq (path : CString) (tree : Listing) :
    files path tree = (records path tree).filterMap fileOf := by
  have reg : ∀ name mode data, fileOf (regRecord name mode data) = some (name, data) := by
    intro name mode data
    have file : ¬(regRecord name mode data).type = OMAR_DIR := by
      change ¬OMAR_REG = OMAR_DIR
      decide
    rw [fileOf, if_neg file]
    simp [regRecord]
  induction tree generalizing path with
  | nil => rfl
  | reg name mode data rest ih =>
    rw [files, records, List.filterMap_cons, reg, ih]
  | dir name mode size entries rest ih_entries ih =>
    have none : fileOf (dirRecord (path ++ name) mode size) = none := if_pos rfl
    rw [files, records, List.filterMap_cons, none, List.filterMap_append, ih_entries, ih]
  | other name rest ih => rw [files, records, ih]

private theorem noDirs_iff (path : CString) (tree : Listing) :
    NoDirs tree ↔ ∀ r ∈ records path tree, r.type ≠ OMAR_DIR := by
  induction tree with
  | nil => simp [NoDirs, records]
  | reg name mode data rest ih =>
    have file : (regRecord (path ++ name) mode data).type ≠ OMAR_DIR := by
      change ¬OMAR_REG = OMAR_DIR
      decide
    rw [NoDirs, records, List.forall_mem_cons, ih]
    exact (and_iff_right file).symm
  | dir name mode size entries rest _ _ =>
    rw [NoDirs, records, List.forall_mem_cons]
    exact ⟨False.elim, fun h => h.1 rfl⟩
  | other name rest ih => rw [NoDirs, records, ih]

theorem filePushEof_marker (mode : Nat) : OMAR_EOF <+: filePushEof mode :=
  ⟨_, rfl⟩

end Writer

section Agreement

private theorem keBootPackGet_slash (img : List Byte) (path : CString) :
    keBootPackGet img (some (slash :: path)) =
    match bootPackGetFile img (some path) true with
    | some (.success, some node) => some (some node.data)
    | some (_, _) => some none
    | none => none := by
  unfold keBootPackGet
  exact if_neg (not_not.mpr rfl)

theorem record_found {base dirname : CString} {tree : Listing} (pure : slash ∉ dirname)
    (valid : Valid base dirname [] tree) (full : ∀ f ∈ files [] tree, f.2 ≠ [])
    (mode : Nat) {r : Record} (member : r ∈ records [] tree) : ∃ off,
      keBootPackGet (archive base dirname mode tree) (some (slash :: r.name)) = some (some off) ∧
      ∃ more, (archive base dirname mode tree).drop off = r.body ++ more := by
  have written : archive base dirname mode tree =
      (records [] tree).flatMap Record.encode ++ filePushEof mode := by
    rw [archive, archiveCreate_records pure valid full (fun _ => rfl) (fun _ => rfl)]
  have nodup := records_nodup valid
  obtain ⟨before, after, split⟩ := List.append_of_mem member
  have others : ∀ x ∈ before, x.name ≠ r.name := by
    intro x inside same
    rw [split, List.map_append, List.nodup_append] at nodup
    exact nodup.2.2 x.name (List.mem_map_of_mem inside) r.name
      (List.mem_map_of_mem List.mem_cons_self) same
  obtain ⟨run, data⟩ :=
    bootPackGetFile_found (records_wellFormed valid) (filePushEof_marker mode) split others
  rw [written]
  exact ⟨_, by rw [keBootPackGet_slash, run], data⟩

/-- Without empty files the kernel reads of an archive what the tree says exactly if the
tree has no directory: the lookup of a directory is not NULL. -/
theorem archive_agrees_iff {base dirname : CString} {tree : Listing} (pure : slash ∉ dirname)
    (valid : Valid base dirname [] tree) (full : ∀ f ∈ files [] tree, f.2 ≠ []) (mode : Nat) :
    Agrees (archive base dirname mode tree) tree ↔ NoDirs tree := by
  have written : archive base dirname mode tree =
      (records [] tree).flatMap Record.encode ++ filePushEof mode := by
    rw [archive, archiveCreate_records pure valid full (fun _ => rfl) (fun _ => rfl)]
  have wellFormed := records_wellFormed valid
  have nodup := records_nodup valid
  have marker := filePushEof_marker mode
  have found : ∀ r ∈ records [] tree, ∃ off,
      keBootPackGet (archive base dirname mode tree) (some (slash :: r.name)) = some (some off) ∧
      ∃ more, (archive base dirname mode tree).drop off = r.body ++ more :=
    fun _ => record_found pure valid full mode
  have file : ∀ rel data, (rel, data) ∈ files [] tree ↔
      ∃ r ∈ records [] tree, r.type ≠ OMAR_DIR ∧ r.name = rel ∧ r.body.take r.len = data := by
    intro rel data
    rw [files_eq, List.mem_filterMap]
    refine exists_congr fun r => and_congr_right fun _ => ?_
    rw [fileOf]
    by_cases dir : r.type = OMAR_DIR
    · simp [dir]
    · simp [dir]
  rw [noDirs_iff []]
  constructor
  · rintro ⟨_, others⟩ r member dir
    obtain ⟨off, run, _⟩ := found r member
    have absent := others (slash :: r.name) ?_
    · rw [run] at absent
      cases absent
    · rintro rel data same inside
      obtain ⟨r', member', type, name, _⟩ := (file rel data).mp inside
      have one := List.inj_on_of_nodup_map nodup member' member
        (name.trans (List.cons.inj same).2.symm)
      exact type (one ▸ dir)
  · intro no_dirs
    refine ⟨?_, ?_⟩
    · intro rel data inside
      obtain ⟨r, member, _, rfl, rfl⟩ := (file rel data).mp inside
      obtain ⟨off, run, more, at_data⟩ := found r member
      refine ⟨off, run, ?_⟩
      rw [at_data]
      exact (List.take_prefix r.len r.body).trans (List.prefix_append _ _)
    · intro path other
      cases path with
      | nil => rfl
      | cons c path =>
        by_cases first : c = slash
        · subst first
          have absent : ∀ r ∈ records [] tree, r.name ≠ path := by
            rintro r member rfl
            exact other r.name (r.body.take r.len) rfl
              ((file _ _).mpr ⟨r, member, no_dirs r member, rfl, rfl⟩)
          rw [keBootPackGet_slash, written,
            (bootPackGetFile_unavailable wellFormed marker path).mpr absent]
        · have apart : c.val ≠ 0x2F := fun same => first (Subtype.ext same)
          rw [keBootPackGet, if_pos apart]

def aName : CString := [⟨0x61, by decide⟩]
def bName : CString := [⟨0x62, by decide⟩]

def oneFile : Listing :=
  .reg bName 0o100644 [0x58] .nil

/-- Two files, and a link between them, which is left out. -/
def twoFiles : Listing :=
  .reg bName 0o100644 [0x58] (.other aName (.reg [⟨0x63, by decide⟩] 0o100600 [1, 2, 3] .nil))

theorem archive_agrees_iff_twoFiles : Agrees (archive aName aName 0 twoFiles) twoFiles := by
  have valid : Valid aName aName [] twoFiles :=
    ⟨⟨by decide, by decide, by decide, by decide, by decide, by decide⟩, by decide,
      ⟨by decide, by decide, by decide, by decide, by decide, by decide⟩,
      ⟨by decide, by decide, by decide, by decide, by decide, by decide⟩, by decide, trivial⟩
  have full : ∀ f ∈ files [] twoFiles, f.2 ≠ [] := by decide
  exact (archive_agrees_iff (by decide) valid full 0).mpr trivial

def emptyFirst : Listing :=
  .reg aName 0o100644 [] oneFile

/-- The record of an empty file has no padding. The reader goes on behind where it would
end, which is inside the padding of the record of `b`, and takes it for a damaged archive. -/
theorem empty_file_hides_next : Valid aName aName [] emptyFirst ∧
    (bName, [0x58]) ∈ files [] emptyFirst ∧
    keBootPackGet (archive aName aName 0 emptyFirst) (some (slash :: bName)) = some none ∧
    ¬Agrees (archive aName aName 0 emptyFirst) emptyFirst := by
  have valid : Valid aName aName [] emptyFirst :=
    ⟨⟨by decide, by decide, by decide, by decide, by decide, by decide⟩, by decide,
      ⟨by decide, by decide, by decide, by decide, by decide, by decide⟩, by decide, trivial⟩
  have listed : (bName, [0x58]) ∈ files [] emptyFirst := by decide
  have absent :
      keBootPackGet (archive aName aName 0 emptyFirst) (some (slash :: bName)) = some none := by
    decide +kernel
  refine ⟨valid, listed, absent, fun agrees => ?_⟩
  obtain ⟨off, run, _⟩ := agrees.1 bName [0x58] listed
  rw [absent] at run
  cases run

end Agreement

end Algae.Tools.OmarCreate
