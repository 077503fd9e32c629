/- The free lists of the heap: each is threaded through its blocks, its head is in the control
   structure, and the bitmaps tell which of them have a block. -/

import Mathlib.Data.Set.Basic
import Algae.Lib.ThreadedList
import Algae.Mm.TlsfWords

set_option autoImplicit false
set_option relaxedAutoImplicit false

namespace Algae.Mm.TlsfLists

open Algae.Lib.ByteMemory Algae.Lib.TwoLevelIndex Algae.Lib.ThreadedList Algae.Sdk.Defs
open Algae.Mm.Tlsf Algae.Mm.TlsfWords

section Links

variable {m : Mem} {x y : Nat} {v : Nat}

def Clear (x y : Nat) : Prop := x + 16 ≤ y ∨ y + 16 ≤ x

private theorem nextFree_setNextFree (word : v < 0x10000000000000000) :
    nextFree (setNextFree m x v) x = v := by
  rw [nextFree, setNextFree, load64_store64, BitVec.toNat_ofNat]
  exact Nat.mod_eq_of_lt word

private theorem prevFree_setPrevFree (word : v < 0x10000000000000000) :
    prevFree (setPrevFree m x v) x = v := by
  rw [prevFree, setPrevFree, load64_store64, BitVec.toNat_ofNat]
  exact Nat.mod_eq_of_lt word

private theorem nextFree_setNextFree_other (clear : Clear x y) :
    nextFree (setNextFree m x v) y = nextFree m y := by
  unfold Clear at clear
  rw [nextFree, setNextFree, load64_store64_disjoint _ _ (by omega), nextFree]

private theorem prevFree_setPrevFree_other (clear : Clear x y) :
    prevFree (setPrevFree m x v) y = prevFree m y := by
  unfold Clear at clear
  rw [prevFree, setPrevFree, load64_store64_disjoint _ _ (by omega), prevFree]

private theorem nextFree_setPrevFree (clear : x ≠ y → Clear x y) :
    nextFree (setPrevFree m x v) y = nextFree m y := by
  have apart : x = y ∨ Clear x y := Classical.or_iff_not_imp_left.mpr clear
  unfold Clear at apart
  rw [nextFree, setPrevFree, load64_store64_disjoint _ _ (by omega), nextFree]

private theorem prevFree_setNextFree (clear : x ≠ y → Clear x y) :
    prevFree (setNextFree m x v) y = prevFree m y := by
  have apart : x = y ∨ Clear x y := Classical.or_iff_not_imp_left.mpr clear
  unfold Clear at apart
  rw [prevFree, setNextFree, load64_store64_disjoint _ _ (by omega), prevFree]

end Links

/-- The addresses that a link may hold: those of the blocks and of block_null. -/
structure Spots (S : Set Nat) : Prop where
  clear : ∀ x ∈ S, ∀ y ∈ S, x ≠ y → Clear x y
  nonzero : ∀ x ∈ S, x ≠ 0
  word : ∀ x ∈ S, x + 32 < 0x10000000000000000

structure Indexed (control : Nat) (s : Control) (L : Nat × Nat → List Nat) : Prop where
  heads : ∀ c, c.1 < 25 → c.2 < 32 → s.blocks c.1 c.2 = (L c).headD control
  bits : ∀ c, c.1 < 25 → ((s.slBitmap c.1).getLsbD c.2 = true ↔ L c ≠ [])
  summary : Summary 25 s.flBitmap s.slBitmap

structure FreeLists (control : Nat) (s : Control) (L : Nat × Nat → List Nat) : Prop where
  threads : ∀ c, Threaded (nextFree s.mem) (prevFree s.mem) control (L c)
  nodup : ∀ c, (L c).Nodup
  single : ∀ c c' x, x ∈ L c → x ∈ L c' → c = c'
  inside : ∀ c, L c ≠ [] → c.1 < 25 ∧ c.2 < 32
  indexed : Indexed control s L

/-- Every listed block is a spot other than block_null. -/
structure Known (control : Nat) (S : Set Nat) (L : Nat × Nat → List Nat) : Prop where
  null : control ∈ S
  real : ∀ c, ∀ x ∈ L c, x ∈ S ∧ x ≠ control

def LinksOnly (S : Set Nat) (m m' : Mem) : Prop :=
  ∀ a, (∀ x ∈ S, a < x + 16 ∨ x + 32 ≤ a) → m' a = m a

theorem inArrays_pos {fl sl : Nat} (row : fl < 25) (col : sl < 32) : inArrays fl sl = some () :=
  if_pos ⟨row, col⟩

section Index

variable {control : Nat} {s : Control} {L : Nat × Nat → List Nat}

private theorem update_blocks (blocks : Nat → Nat → Nat) (c c' : Nat × Nat) (v : Nat) :
    Function.update blocks c.1 (Function.update (blocks c.1) c.2 v) c'.1 c'.2 =
      if c' = c then v else blocks c'.1 c'.2 := by
  by_cases row : c'.1 = c.1
  · rw [row, Function.update_self]
    by_cases col : c'.2 = c.2
    · rw [if_pos (Prod.ext row col), col, Function.update_self]
    · rw [if_neg fun same => col (congrArg Prod.snd same), Function.update_of_ne col]
  · rw [if_neg fun same => row (congrArg Prod.fst same), Function.update_of_ne row]

private theorem update_bits (words : Nat → BitVec 32) (c c' : Nat × Nat) (word : BitVec 32)
    (others : ∀ i, i ≠ c.2 → word.getLsbD i = (words c.1).getLsbD i) :
    (Function.update words c.1 word c'.1).getLsbD c'.2 =
      if c' = c then word.getLsbD c.2 else (words c'.1).getLsbD c'.2 := by
  by_cases row : c'.1 = c.1
  · rw [row, Function.update_self]
    by_cases col : c'.2 = c.2
    · rw [if_pos (Prod.ext row col), col]
    · rw [if_neg fun same => col (congrArg Prod.snd same), others _ col]
  · rw [if_neg fun same => row (congrArg Prod.fst same), Function.update_of_ne row]

theorem Indexed.insert (index : Indexed control s L) (m : Mem) (x : Nat) {c : Nat × Nat}
    (row : c.1 < 25) (col : c.2 < 32) :
    Indexed control
      { mem := m,
        flBitmap := withBit s.flBitmap c.1,
        slBitmap := Function.update s.slBitmap c.1 (withBit (s.slBitmap c.1) c.2),
        blocks := Function.update s.blocks c.1 (Function.update (s.blocks c.1) c.2 x) }
      (Function.update L c (x :: L c)) where
  heads c' row' col' := by
    dsimp only
    rw [update_blocks, Function.update_apply]
    split
    · rfl
    · exact index.heads c' row' col'
  bits c' row' := by
    dsimp only
    rw [update_bits _ _ _ _ fun i other => by simp [withBit_getLsbD, other], Function.update_apply]
    split
    · simp [withBit_getLsbD, col]
    · exact index.bits c' row'
  summary := index.summary.insert row (by omega) col

theorem Indexed.keep (index : Indexed control s L) (m : Mem) {c : Nat × Nat} {xs : List Nat}
    (some_left : xs ≠ []) (some_before : L c ≠ []) (head : xs.headD control = (L c).headD control) :
    Indexed control { s with mem := m } (Function.update L c xs) where
  heads c' row col := by
    rw [Function.update_apply]
    split
    · rename_i same
      rw [head, ← same]
      exact index.heads c' row col
    · exact index.heads c' row col
  bits c' row := by
    rw [Function.update_apply]
    split
    · rename_i same
      rw [same]
      exact (index.bits c (same ▸ row)).trans ⟨fun _ => some_left, fun _ => some_before⟩
    · exact index.bits c' row
  summary := index.summary

private theorem removeHead_mem (control : Nat) (s : Control) (next fl sl : Nat) :
    (removeHead control s next fl sl).mem = s.mem := by
  unfold removeHead
  dsimp only
  split
  · split <;> rfl
  · rfl

private theorem Indexed.behead (index : Indexed control s L) {c : Nat × Nat} {xs : List Nat}
    (real : ∀ y ∈ xs, y ≠ control) (some_before : L c ≠ []) :
    Indexed control (removeHead control s (xs.headD control) c.1 c.2) (Function.update L c xs) := by
  cases xs with
  | nil =>
    have words : (removeHead control s control c.1 c.2).slBitmap =
        Function.update s.slBitmap c.1 (withoutBit (s.slBitmap c.1) c.2) := by
      simp only [removeHead, if_true]
      split <;> rfl
    have rows : (removeHead control s control c.1 c.2).flBitmap =
        if withoutBit (s.slBitmap c.1) c.2 = 0 then withoutBit s.flBitmap c.1 else s.flBitmap := by
      simp only [removeHead, if_true, Function.update_self]
      split <;> rfl
    have blocks : (removeHead control s control c.1 c.2).blocks =
        Function.update s.blocks c.1 (Function.update (s.blocks c.1) c.2 control) := by
      simp only [removeHead, if_true]
      split <;> rfl
    rw [List.headD_nil]
    refine ⟨fun c' row col => ?_, fun c' row => ?_, ?_⟩
    · rw [blocks, update_blocks, Function.update_apply]
      split
      · rfl
      · exact index.heads c' row col
    · rw [words, update_bits _ _ _ _ fun i other => by simp [withoutBit_getLsbD, other],
        Function.update_apply]
      split
      · simp [withoutBit_getLsbD]
      · exact index.bits c' row
    · rw [words, rows]
      exact index.summary.remove c.1 c.2
  | cons y ys =>
    have other : y ≠ control := real y List.mem_cons_self
    rw [List.headD_cons, removeHead, if_neg other]
    refine ⟨fun c' row col => ?_, fun c' row => ?_, index.summary⟩
    · dsimp only
      rw [update_blocks, Function.update_apply]
      split
      · rfl
      · exact index.heads c' row col
    · rw [Function.update_apply]
      split
      · rename_i same
        rw [same]
        exact (index.bits c (same ▸ row)).trans ⟨fun _ => by simp, fun _ => some_before⟩
      · exact index.bits c' row

end Index

section Writes

variable {S : Set Nat} {m : Mem}

theorem LinksOnly.store {m' : Mem} (only : LinksOnly S m m') {x w : Nat} (spot : x ∈ S)
    (link : w = x + 16 ∨ w = x + 24) (v : BitVec 64) : LinksOnly S m (store64 m' w v) := by
  intro a outside
  have apart := outside x spot
  rw [store64, storeLE_outside _ _ (by omega)]
  exact only a outside

def linkFront (m : Mem) (block current control : Nat) : Mem :=
  setPrevFree (setPrevFree (setNextFree m block current) block control) current block

structure FrontLinked (S : Set Nat) (m m' : Mem) (block current control : Nat) : Prop where
  next_block : nextFree m' block = current
  prev_block : prevFree m' block = control
  prev_current : prevFree m' current = block
  nexts : ∀ y ∈ S, y ≠ block → nextFree m' y = nextFree m y
  prevs : ∀ y ∈ S, y ≠ block → y ≠ current → prevFree m' y = prevFree m y

private theorem linkFront_linked (spots : Spots S) {block current control : Nat} (spot : block ∈ S)
    (spot' : current ∈ S) (null : control ∈ S) (other : current ≠ block) :
    FrontLinked S m (linkFront m block current control) block current control := by
  have apart : ∀ y ∈ S, y ≠ block → Clear block y :=
    fun y my ne => spots.clear block spot y my ne.symm
  have apart' : ∀ y ∈ S, y ≠ current → Clear current y := fun y my ne =>
    spots.clear current spot' y my ne.symm
  have word := spots.word block spot
  have word' := spots.word current spot'
  have null_word := spots.word control null
  constructor
  · rw [linkFront, nextFree_setPrevFree fun _ => apart' block spot other.symm,
      nextFree_setPrevFree fun no => absurd rfl no, nextFree_setNextFree (by omega)]
  · rw [linkFront, prevFree_setPrevFree_other (apart' block spot other.symm),
      prevFree_setPrevFree (by omega)]
  · exact prevFree_setPrevFree (by omega)
  · intro y my ne
    rw [linkFront, nextFree_setPrevFree fun ne => apart' y my ne.symm, nextFree_setPrevFree fun _ =>
      apart y my ne, nextFree_setNextFree_other (apart y my ne)]
  · intro y my ne ne'
    rw [linkFront, prevFree_setPrevFree_other (apart' y my ne'),
      prevFree_setPrevFree_other (apart y my ne), prevFree_setNextFree fun _ => apart y my ne]

def joinLinks (m : Mem) (prev next : Nat) : Mem := setNextFree (setPrevFree m next prev) prev next

structure Joined (S : Set Nat) (m m' : Mem) (prev next : Nat) : Prop where
  next_prev : nextFree m' prev = next
  prev_next : prevFree m' next = prev
  nexts : ∀ y ∈ S, y ≠ prev → nextFree m' y = nextFree m y
  prevs : ∀ y ∈ S, y ≠ next → prevFree m' y = prevFree m y

private theorem joinLinks_joined (spots : Spots S) {prev next : Nat} (spot : prev ∈ S)
    (spot' : next ∈ S) :
    Joined S m (joinLinks m prev next) prev next := by
  have apart : ∀ y ∈ S, prev ≠ y → Clear prev y := fun y my ne => spots.clear prev spot y my ne
  have apart' : ∀ y ∈ S, next ≠ y → Clear next y := fun y my ne => spots.clear next spot' y my ne
  have word := spots.word prev spot
  have word' := spots.word next spot'
  constructor
  · exact nextFree_setNextFree (by omega)
  · rw [joinLinks, prevFree_setNextFree (apart next spot'), prevFree_setPrevFree (by omega)]
  · intro y my ne
    rw [joinLinks, nextFree_setNextFree_other (apart y my ne.symm),
      nextFree_setPrevFree (apart' y my)]
  · intro y my ne
    rw [joinLinks, prevFree_setNextFree (apart y my),
      prevFree_setPrevFree_other (apart' y my ne.symm)]

end Writes

section Lists

variable {control : Nat} {s : Control} {L : Nat × Nat → List Nat} {S : Set Nat}

theorem Known.headD (known : Known control S L) {xs : List Nat} {c : Nat × Nat} (part : xs ⊆ L c) :
    xs.headD control ∈ S ∧ (xs.headD control = control ∨ xs.headD control ∈ xs) := by
  cases xs with
  | nil => exact ⟨known.null, Or.inl rfl⟩
  | cons x xs => exact ⟨(known.real c x (part List.mem_cons_self)).1, Or.inr List.mem_cons_self⟩

theorem Known.getLastD (known : Known control S L) {xs : List Nat} {c : Nat × Nat}
    (part : xs ⊆ L c) :
    xs.getLastD control ∈ S ∧ (xs.getLastD control = control ∨ xs.getLastD control ∈ xs) := by
  rcases List.eq_nil_or_concat xs with rfl | ⟨ys, y, rfl⟩
  · exact ⟨known.null, Or.inl rfl⟩
  · rw [List.concat_eq_append] at part ⊢
    rw [List.getLastD_concat]
    have member : y ∈ ys ++ [y] := List.mem_append_right _ List.mem_cons_self
    exact ⟨(known.real c y (part member)).1, Or.inr member⟩

theorem mem_pushed {c c' : Nat × Nat} {x y : Nat} :
    y ∈ Function.update L c (x :: L c) c' ↔ c' = c ∧ y = x ∨ y ∈ L c' := by
  rw [Function.update_apply]
  split
  · rename_i same
    simp [same]
  · rename_i other
    simp [other]

theorem mem_erased (lists : FreeLists control s L) {c c' : Nat × Nat} {x y : Nat}
    (member : x ∈ L c) :
    y ∈ Function.update L c ((L c).erase x) c' ↔ y ∈ L c' ∧ y ≠ x := by
  rw [Function.update_apply]
  split
  · rename_i same
    rw [(lists.nodup c).mem_erase_iff, same, and_comm]
  · rename_i other
    refine ⟨fun inside => ⟨inside, ?_⟩, And.left⟩
    rintro rfl
    exact other (lists.single c' c y inside member)

theorem FreeLists.setMem (lists : FreeLists control s L) {m' : Mem}
    (same : ∀ c, ∀ x ∈ L c, ∀ i, 16 ≤ i → i < 32 → m' (x + i) = s.mem (x + i)) :
    FreeLists control { s with mem := m' } L where
  threads c := by
    refine (lists.threads c).congr (fun x inside => ?_) fun x inside => ?_
    · refine congrArg BitVec.toNat (load64_congr fun i below => ?_)
      rw [Nat.add_assoc]
      exact same c x inside _ (by omega) (by omega)
    · refine congrArg BitVec.toNat (load64_congr fun i below => ?_)
      rw [Nat.add_assoc]
      exact same c x inside _ (by omega) (by omega)
  nodup := lists.nodup
  single := lists.single
  inside := lists.inside
  indexed := ⟨lists.indexed.heads, lists.indexed.bits, lists.indexed.summary⟩

theorem FreeLists.insert (lists : FreeLists control s L) (spots : Spots S)
    (known : Known control S L) {x : Nat} (spot : x ∈ S) (real : x ≠ control) (fresh : ∀ c, x ∉ L c)
    (aligned : 8 ∣ x) {c : Nat × Nat} (row : c.1 < 25) (col : c.2 < 32) :
    ∃ s', insertFreeBlock control x c.1 c.2 s = some s' ∧
      FreeLists control s' (Function.update L c (x :: L c)) ∧ LinksOnly S s.mem s'.mem := by
  have head := lists.indexed.heads c row col
  obtain ⟨head_spot, listed⟩ := known.headD (List.Subset.refl (L c))
  generalize current_eq : (L c).headD control = current at head head_spot listed
  have other : current ≠ x := by
    rintro rfl
    rcases listed with null | inside
    · exact real null
    · exact fresh c inside
  have word := spots.word x spot
  have placed : alignPtr (blockToPtr x) ALIGN_SIZE = some (blockToPtr x) := by
    unfold blockToPtr blockStartOffset
    exact alignPtr_aligned (by omega) (by omega)
  have linked := linkFront_linked (m := s.mem) spots spot head_spot known.null other
  refine ⟨{ mem := linkFront s.mem x current control,
            flBitmap := withBit s.flBitmap c.1,
            slBitmap := Function.update s.slBitmap c.1 (withBit (s.slBitmap c.1) c.2),
            blocks := Function.update s.blocks c.1 (Function.update (s.blocks c.1) c.2 x) }, ?_,
              ?_, ?_⟩
  · simp only [insertFreeBlock, inArrays_pos row col, head,
      tlsfAssert_pos (spots.nonzero current head_spot),
      tlsfAssert_pos (spots.nonzero x spot), tlsfAssert_pos placed.symm, Option.bind_eq_bind,
        Option.bind_some]
    rfl
  · refine ⟨fun c' => ?_, fun c' => ?_, fun c' c'' y => ?_, fun c' => ?_,
      lists.indexed.insert _ x row col⟩
    · rw [Function.update_apply]
      split
      · refine (lists.threads c).push (lists.nodup c) ?_ linked.prev_block ?_ ?_ ?_
        · rw [current_eq]
          exact linked.next_block
        · rw [current_eq]
          exact fun _ => linked.prev_current
        · intro y member
          exact linked.nexts y (known.real c y member).1 fun same => fresh c (same ▸ member)
        · rw [current_eq]
          intro y member
          exact linked.prevs y (known.real c y member).1 fun same => fresh c (same ▸ member)
      · rename_i apart
        refine (lists.threads c').congr (fun y member => ?_) fun y member => ?_
        · exact linked.nexts y (known.real c' y member).1 fun same => fresh c' (same ▸ member)
        · refine linked.prevs y (known.real c' y member).1 (fun same => fresh c' (same ▸ member)) ?_
          rintro rfl
          rcases listed with null | inside
          · exact (known.real c' y member).2 null
          · exact apart (lists.single c' c y member inside)
    · rw [Function.update_apply]
      split
      · exact List.nodup_cons.mpr ⟨fresh c, lists.nodup c⟩
      · exact lists.nodup c'
    · rw [mem_pushed, mem_pushed]
      rintro (⟨rfl, rfl⟩ | one) (⟨rfl, same⟩ | two)
      · rfl
      · exact absurd two (fresh c'')
      · exact absurd (same ▸ one) (fresh c')
      · exact lists.single c' c'' y one two
    · rw [Function.update_apply]
      split
      · rename_i same
        rw [same]
        exact fun _ => ⟨row, col⟩
      · exact lists.inside c'
  · exact ((LinksOnly.store (fun _ _ => rfl) spot (Or.inl rfl) _).store spot (Or.inr rfl) _).store
      head_spot
      (Or.inr rfl) _

theorem FreeLists.remove (lists : FreeLists control s L) (spots : Spots S)
    (known : Known control S L) {x : Nat} {c : Nat × Nat} (member : x ∈ L c) :
    ∃ s', removeFreeBlock control x c.1 c.2 s = some s' ∧
      FreeLists control s' (Function.update L c ((L c).erase x)) ∧ LinksOnly S s.mem s'.mem := by
  obtain ⟨before, after, split⟩ := List.append_of_mem member
  have nodup := lists.nodup c
  rw [split] at nodup
  have fresh : x ∉ before := fun inside =>
    (List.nodup_append.mp nodup).2.2 x inside x List.mem_cons_self rfl
  have rest : (L c).erase x = before ++ after := by
    rw [split, List.erase_append_right _ fresh, List.erase_cons_head]
  have real := (known.real c x member).2
  have listed : before ++ after ⊆ L c := by
    rw [split]
    intro y inside
    simp only [List.mem_append, List.mem_cons] at inside ⊢
    exact inside.imp_right Or.inr
  obtain ⟨row, col⟩ := lists.inside c (List.ne_nil_of_mem member)
  have thread := lists.threads c
  rw [split] at thread
  obtain ⟨prev_x, next_x⟩ := thread.neighbours real
  obtain ⟨prev_spot, prev_listed⟩ :=
    known.getLastD (fun y inside => listed (List.mem_append_left after inside))
  obtain ⟨next_spot, next_listed⟩ :=
    known.headD (fun y inside => listed (List.mem_append_right before inside))
  have head := lists.indexed.heads c row col
  generalize p_eq : before.getLastD control = p at prev_x prev_spot prev_listed
  generalize n_eq : after.headD control = n at next_x next_spot next_listed
  have joined := joinLinks_joined (m := s.mem) spots prev_spot next_spot
  have some_before : L c ≠ [] := List.ne_nil_of_mem member
  have index : Indexed control { s with mem := joinLinks s.mem p n } L :=
    ⟨lists.indexed.heads, lists.indexed.bits, lists.indexed.summary⟩
  obtain ⟨s', branch, mem, indexed⟩ : ∃ s',
      (if s.blocks c.1 c.2 = x then removeHead control { s with mem := joinLinks s.mem p n } n
        c.1 c.2
        else { s with mem := joinLinks s.mem p n }) = s' ∧ s'.mem = joinLinks s.mem p n ∧
      Indexed control s' (Function.update L c (before ++ after)) := by
    refine ⟨_, rfl, ?_, ?_⟩
    · split
      · exact removeHead_mem _ _ _ _ _
      · rfl
    · cases before with
      | nil =>
        rw [split] at head
        have same : s.blocks c.1 c.2 = x := head
        have step := index.behead (fun y inside => (known.real c y (listed inside)).2) some_before
        rw [List.nil_append, n_eq] at step
        rw [if_pos same]
        exact step
      | cons b front =>
        rw [split] at head
        have first : s.blocks c.1 c.2 = b := head
        have other : ¬s.blocks c.1 c.2 = x := by
          rw [first]
          rintro rfl
          exact fresh List.mem_cons_self
        rw [if_neg other]
        exact lists.indexed.keep _ (by simp) some_before (by rw [split]; rfl)
  have call : removeFreeBlock control x c.1 c.2 s = some s' := by
    simp only [removeFreeBlock, prev_x, next_x, inArrays_pos row col, Option.bind_eq_bind,
      Option.bind_some,
      tlsfAssert_pos (spots.nonzero p prev_spot), tlsfAssert_pos (spots.nonzero n next_spot)]
    exact congrArg some branch
  refine ⟨s', call,
    ⟨fun c' => ?_, fun c' => ?_, fun c' c'' y => ?_, fun c' => ?_, rest ▸ indexed⟩, ?_⟩
  · rw [Function.update_apply, mem, rest]
    split
    · refine thread.unlink (List.nodup_cons.mpr ⟨?_, nodup⟩) ?_ ?_ ?_ ?_
      · rw [← split]
        exact fun inside => (known.real c control inside).2 rfl
      · rw [p_eq, n_eq]
        exact fun _ => joined.next_prev
      · rw [p_eq, n_eq]
        exact fun _ => joined.prev_next
      · rw [p_eq]
        exact fun y inside => joined.nexts y (known.real c y (listed inside)).1
      · rw [n_eq]
        exact fun y inside => joined.prevs y (known.real c y (listed inside)).1
    · rename_i other
      have elsewhere : ∀ y ∈ L c', ∀ z, z = control ∨ z ∈ before ++ after → y ≠ z := by
        rintro y inside z (null | neighbour) rfl
        · exact (known.real c' y inside).2 null
        · exact other (lists.single c' c y inside (listed neighbour))
      refine (lists.threads c').congr (fun y inside => ?_) fun y inside => ?_
      · exact joined.nexts y (known.real c' y inside).1
          (elsewhere y inside p (prev_listed.imp_right (List.mem_append_left after)))
      · exact joined.prevs y (known.real c' y inside).1
          (elsewhere y inside n (next_listed.imp_right (List.mem_append_right before)))
  · rw [Function.update_apply]
    split
    · exact (lists.nodup c).erase x
    · exact lists.nodup c'
  · rw [mem_erased lists member, mem_erased lists member]
    exact fun one two => lists.single c' c'' y one.1 two.1
  · intro some_left
    obtain ⟨y, inside⟩ := List.exists_mem_of_ne_nil _ some_left
    exact lists.inside c' (List.ne_nil_of_mem ((mem_erased lists member).mp inside).1)
  · rw [mem]
    exact (LinksOnly.store (fun _ _ => rfl) next_spot (Or.inr rfl) _).store prev_spot (Or.inl rfl) _

end Lists

end Algae.Mm.TlsfLists
