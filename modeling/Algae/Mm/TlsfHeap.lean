/- The heap in memory: its blocks, their headers and the lists of those that are free. A change
   of some blocks and of the header behind them leaves everything else as it is. -/

import Algae.Mm.TlsfBlocks
import Algae.Mm.TlsfLists

set_option autoImplicit false
set_option relaxedAutoImplicit false

namespace Algae.Mm.TlsfHeap

open Algae.Lib.Allocation (Region Within Keeps)
open Algae.Lib.ByteMemory Algae.Lib.Tiling Algae.Lib.TwoLevelIndex Algae.Mm.Tlsf Algae.Mm.TlsfWords
open Algae.Mm.TlsfBlocks Algae.Mm.TlsfLists

def freeAddrs (bs : List Block) : Set Nat := {x | ∃ b ∈ bs, b.free = true ∧ b.addr = x}

/-- The memory of the blocks in use: where it begins, and how much it is. -/
def live (bs : List Block) : Set Region :=
  {p | ∃ b ∈ bs, b.free = false ∧ b.size ≠ 0 ∧ (b.addr + 16, b.size) = p}

/-- The heap with these blocks, of which those at the addresses of `F` are listed. -/
structure Holds (a : Arena) (s : Control) (bs : List Block) (F : Set Nat) : Prop where
  laid : Laid a bs
  fits : ∀ b ∈ bs, b.Fits a
  headers : ∀ b ∈ bs, Header s.mem b
  lists : ∃ L, FreeLists a.control s L ∧ (∀ x, x ∈ F ↔ ∃ c, x ∈ L c) ∧
    ∀ c, ∀ x ∈ L c, ∃ b ∈ bs, b.addr = x ∧ b.free = true ∧ mappingInsert b.size = c

section Sets

variable {xs ys : List Block} {b : Block}

theorem freeAddrs_append (xs ys : List Block) :
    freeAddrs (xs ++ ys) = freeAddrs xs ∪ freeAddrs ys := by
  ext x
  simp only [freeAddrs, Set.mem_ofPred_eq, Set.mem_union, List.mem_append, or_and_right, exists_or]

theorem freeAddrs_cons :
    freeAddrs (b :: ys) = (if b.free = true then {b.addr} else ∅) ∪ freeAddrs ys := by
  ext x
  simp only [freeAddrs, Set.mem_ofPred_eq, Set.mem_union, List.mem_cons, or_and_right, exists_or,
    exists_eq_left]
  split
  · rename_i free
    simp only [free, true_and, Set.mem_singleton_iff, @eq_comm _ x]
  · rename_i used
    simp [used]

theorem live_append (xs ys : List Block) : live (xs ++ ys) = live xs ∪ live ys := by
  ext p
  simp only [live, Set.mem_ofPred_eq, Set.mem_union, List.mem_append, or_and_right, exists_or]

private theorem live_cons : live (b :: ys) =
    (if b.free = false ∧ b.size ≠ 0 then {(b.addr + 16, b.size)} else ∅) ∪ live ys := by
  ext p
  simp only [live, Set.mem_ofPred_eq, Set.mem_union, List.mem_cons, or_and_right, exists_or,
    exists_eq_left]
  split
  · rename_i used
    simp only [used, Set.mem_singleton_iff, @eq_comm _ p, true_and, ne_eq, not_false_eq_true]
  · rename_i free
    rw [not_and] at free
    constructor
    · rintro (⟨used, positive, _⟩ | late)
      · exact absurd positive (free used)
      · exact Or.inr late
    · rintro (none | late)
      · exact none.elim
      · exact Or.inr late

theorem keeps_fewer {P : Set Region} {m m' : Mem} (xs mid ys : List Block)
    (keeps : Keeps (P ∪ live (xs ++ mid ++ ys)) m m') : Keeps (P ∪ live (xs ++ ys)) m m' := by
  refine keeps.mono (Set.union_subset_union_right _ ?_)
  rw [live_append, live_append (xs ++ mid), live_append xs]
  exact Set.union_subset_union_left _ Set.subset_union_left

theorem live_free (free : b.free = true) : live (b :: ys) = live ys := by
  rw [live_cons, if_neg (by simp [free]), Set.empty_union]

theorem freeAddrs_insert (free : b.free = true) :
    freeAddrs (xs ++ b :: ys) = insert b.addr (freeAddrs (xs ++ ys)) := by
  rw [freeAddrs_append, freeAddrs_append, freeAddrs_cons, if_pos free, Set.union_left_comm,
    Set.singleton_union]

theorem freeAddrs_used (used : b.free = false) :
    freeAddrs (xs ++ b :: ys) = freeAddrs (xs ++ ys) := by
  rw [freeAddrs_append, freeAddrs_append, freeAddrs_cons, if_neg (by simp [used]), Set.empty_union]

theorem live_skip (free : b.free = true) : live (xs ++ b :: ys) = live (xs ++ ys) := by
  rw [live_append, live_free free, ← live_append]

end Sets

section Spots

variable {a : Arena} {s : Control} {bs : List Block} {F : Set Nat} (h : Holds a s bs F)
include h

def spotsOf (a : Arena) (bs : List Block) : Set Nat := insert a.control (freeAddrs bs)

theorem Holds.free_bounds {b : Block} (member : b ∈ bs) (free : b.free = true) :
    a.control + 24 ≤ b.addr ∧ b.addr + 32 ≤ b.stop ∧ b.stop + 8 < 0x10000000000000000 := by
  have fits := h.fits b member
  have large := fits.size_of_free free
  have first := fits.first
  have below := a.below
  have word := fits.stop_word
  unfold Block.stop at word ⊢
  omega

theorem Holds.limit : a.control + 40 ≤ a.limit := by
  have below := a.below
  cases bs with
  | nil => cases h.laid
  | cons b rest =>
    have first := (h.fits b List.mem_cons_self).first
    have last := (h.fits b List.mem_cons_self).last
    unfold Block.stop at last
    omega

theorem Holds.spots : Spots (spotsOf a bs) where
  clear x mx y my other := by
    unfold Clear
    rcases mx with rfl | ⟨b, mb, free, rfl⟩
    · rcases my with rfl | ⟨c, mc, free', rfl⟩
      · exact absurd rfl other
      · have bounds := h.free_bounds mc free'
        omega
    · have bounds := h.free_bounds mb free
      rcases my with rfl | ⟨c, mc, free', rfl⟩
      · omega
      · have bounds' := h.free_bounds mc free'
        have apart := h.laid.apart mb mc fun same => other (congrArg Block.addr same)
        omega
  nonzero x mx := by
    have some_control := a.some_control
    rcases mx with rfl | ⟨b, mb, free, rfl⟩
    · omega
    · have bounds := h.free_bounds mb free
      omega
  word x mx := by
    rcases mx with rfl | ⟨b, mb, free, rfl⟩
    · have order := h.limit
      have word := a.word
      omega
    · have bounds := h.free_bounds mb free
      omega

theorem Holds.known {L : Nat × Nat → List Nat}
    (listed : ∀ c, ∀ x ∈ L c, ∃ b ∈ bs, b.addr = x ∧ b.free = true ∧ mappingInsert b.size = c) :
    Known a.control (spotsOf a bs) L where
  null := Set.mem_insert _ _
  real c x member := by
    obtain ⟨b, mb, rfl, free, _⟩ := listed c x member
    have bounds := h.free_bounds mb free
    exact ⟨Set.mem_insert_of_mem _ ⟨b, mb, free, rfl⟩, by omega⟩

theorem Holds.spot_apart {b : Block} (member : b ∈ bs) {x : Nat} (spot : x ∈ spotsOf a bs) :
    (x + 32 ≤ b.addr + 8 ∨ b.stop + 8 ≤ x + 16) ∨ b.free = true ∧ x = b.addr := by
  rcases spot with rfl | ⟨f, mf, free, rfl⟩
  · have first := (h.fits b member).first
    have below := a.below
    omega
  · by_cases same : f = b
    · subst same
      exact Or.inr ⟨free, rfl⟩
    · have bounds := h.free_bounds mf free
      have apart := h.laid.apart mf member same
      have forth : b.addr + 8 ≤ b.stop := by
        unfold Block.stop
        omega
      omega

private theorem Holds.links_header {m' : Mem} (only : LinksOnly (spotsOf a bs) s.mem m') {b : Block}
    (member : b ∈ bs) : Header m' b where
  word := by
    rw [← (h.headers b member).word]
    refine load64_congr fun i below => only _ fun x spot => ?_
    have forth : b.addr + 8 ≤ b.stop := by
      unfold Block.stop
      omega
    rcases h.spot_apart member spot with apart | ⟨_, rfl⟩
    · omega
    · omega
  link free := by
    rw [← (h.headers b member).link free]
    refine load64_congr fun i below => only _ fun x spot => ?_
    have bounds := h.free_bounds member free
    rcases h.spot_apart member spot with apart | ⟨_, rfl⟩
    · omega
    · omega

private theorem Holds.links_keeps {m' : Mem} (only : LinksOnly (spotsOf a bs) s.mem m') :
    Keeps (a.outside ∪ live bs) s.mem m' := by
  rintro r (around | ⟨b, member, used, _, rfl⟩) x ⟨low, high⟩
  · have order := h.limit
    have apart : x < a.control ∨ a.limit ≤ x := by
      rcases around with before | behind
      · omega
      · omega
    refine only x fun y spot => ?_
    rcases spot with rfl | ⟨b, mb, free, rfl⟩
    · omega
    · have bounds := h.free_bounds mb free
      have last := (h.fits b mb).last
      omega
  · dsimp only at low high
    refine only x fun y spot => ?_
    rcases h.spot_apart member spot with apart | ⟨free, _⟩
    · unfold Block.stop at apart
      omega
    · rw [used] at free
      cases free

end Spots

section Lists

variable {a : Arena} {s : Control} {bs : List Block} {F : Set Nat} (h : Holds a s bs F) {b : Block}
  (member : b ∈ bs)
include h member

theorem Holds.remove_at (listed : b.addr ∈ F) :
    ∃ s', removeFreeBlock a.control b.addr (mappingInsert b.size).1
      (mappingInsert b.size).2 s = some s' ∧
      Holds a s' bs (F \ {b.addr}) ∧ Keeps (a.outside ∪ live bs) s.mem s'.mem := by
  obtain ⟨L, lists, all, blocks⟩ := h.lists
  obtain ⟨c, inside⟩ := (all b.addr).mp listed
  obtain ⟨b', member', same, _, class_b⟩ := blocks c b.addr inside
  obtain rfl := h.laid.eq_of_addr member' member same
  obtain ⟨s', call, lists', only⟩ := lists.remove h.spots (h.known blocks) inside
  rw [class_b]
  refine ⟨s', call,
    ⟨h.laid, h.fits, fun b mb => h.links_header only mb, _, lists', fun x => ?_, ?_⟩,
    h.links_keeps only⟩
  · simp only [mem_erased lists inside, exists_and_right, ← all x]
    rfl
  · intro c' x mx
    exact blocks c' x ((mem_erased lists inside).mp mx).1

theorem Holds.remove (listed : b.addr ∈ F) :
    ∃ s', blockRemove a.control b.addr s = some s' ∧ Holds a s' bs (F \ {b.addr}) ∧
      Keeps (a.outside ∪ live bs) s.mem s'.mem := by
  rw [blockRemove, blockSize_eq (h.fits b member) (h.headers b member).word]
  exact h.remove_at member listed

theorem Holds.insert (free : b.free = true) (unlisted : b.addr ∉ F) :
    ∃ s', blockInsert a.control b.addr s = some s' ∧ Holds a s' bs (insert b.addr F) ∧
      Keeps (a.outside ∪ live bs) s.mem s'.mem := by
  have fits := h.fits b member
  have small := fits.small
  have bounds := h.free_bounds member free
  obtain ⟨L, lists, all, blocks⟩ := h.lists
  have row := mappingInsert_row small
  have col := (mappingInsert_listed (show b.size < 0x10000000000000000 by omega)).2.2
  have fresh : ∀ c, b.addr ∉ L c := fun c inside => unlisted ((all b.addr).mpr ⟨c, inside⟩)
  have spot : b.addr ∈ spotsOf a bs := Set.mem_insert_of_mem _ ⟨b, member, free, rfl⟩
  obtain ⟨s', call, lists', only⟩ := lists.insert h.spots (h.known blocks) spot (by omega) fresh
    fits.addr_aligned row col
  rw [blockInsert, blockSize_eq fits (h.headers b member).word]
  refine ⟨s', call,
    ⟨h.laid, h.fits, fun b mb => h.links_header only mb, _, lists', fun x => ?_, ?_⟩,
    h.links_keeps only⟩
  · simp only [mem_pushed, exists_or, exists_and_right, exists_eq, true_and, ← all x]
    rfl
  · intro c' x mx
    rcases mem_pushed.mp mx with ⟨rfl, rfl⟩ | old
    · exact ⟨b, member, rfl, free, rfl⟩
    · exact blocks c' x old

end Lists

section Reshape

variable {a : Arena} {s : Control} {xs mid mid' ys : List Block} {n : Block} {F : Set Nat}

private theorem live_like {n' : Block}
    (like : n'.addr = n.addr ∧ n'.size = n.size ∧ n'.free = n.free) :
    live (n' :: ys) = live (n :: ys) := by
  rw [live_cons, live_cons, like.1, like.2.1, like.2.2]

theorem live_flag (xs ys : List Block) (n : Block) (flag : Bool) :
    live (xs ++ { n with prevFree := flag } :: ys) = live (xs ++ n :: ys) := by
  have like : live ({ n with prevFree := flag } :: ys) = live (n :: ys) := live_like ⟨rfl, rfl, rfl⟩
  rw [live_append, live_append, like]

theorem Holds.reshape (h : Holds a s (xs ++ mid ++ n :: ys) F) (n' : Block)
    (unlisted : ∀ b ∈ mid, b.addr ∉ F) {m' : Mem}
    (same : ∀ x, Outside mid n x → m' x = s.mem x) (fits : ∀ b ∈ mid', b.Fits a)
    (headers : ∀ b ∈ mid', Header m' b)
    (like : n'.addr = n.addr ∧ n'.size = n.size ∧ n'.free = n.free)
    (next : load64 m' (n.addr + 8) = headerWord n.size n.free n'.prevFree)
    (path : ∀ r, Path Block.enter Block.leave r mid n.enter →
    Path Block.enter Block.leave r mid' n'.enter) :
    Holds a { s with mem := m' } (xs ++ mid' ++ n' :: ys) F ∧
      Keeps (a.outside ∪ live (xs ++ n :: ys)) s.mem m' := by
  have n_member : n ∈ xs ++ mid ++ n :: ys := by simp
  have n_fits := h.fits n n_member
  have leave : n'.leave = n.leave := by
    rw [Block.leave, Block.leave, Block.stop, Block.stop, like.1, like.2.1, like.2.2]
  obtain ⟨L, lists, all, blocks⟩ := h.lists
  have outside : ∀ c, ∀ x ∈ L c, ∀ i, 16 ≤ i → i < 32 → Outside mid n (x + i) := by
    intro c x inside i low high
    obtain ⟨b, mb, rfl, free, _⟩ := blocks c x inside
    have bounds := h.free_bounds mb free
    rw [List.append_assoc, List.mem_append, List.mem_append, List.mem_cons] at mb
    rcases mb with early | changed | rfl | late
    · exact h.laid.outside_before early (by omega)
    · exact absurd ((all b.addr).mpr ⟨c, inside⟩) (unlisted b changed)
    · exact Or.inl (by omega)
    · exact h.laid.outside_after n_fits late (by omega)
  refine ⟨⟨Path.replace h.laid path leave, ?_, ?_, L, ?_, all, ?_⟩, ?_⟩
  · intro b member
    rw [List.append_assoc, List.mem_append, List.mem_append, List.mem_cons] at member
    rcases member with early | inside | rfl | late
    · exact h.fits b (by simp [early])
    · exact fits b inside
    · obtain ⟨addr, size, free⟩ := like
      refine ⟨addr ▸ n_fits.first, ?_, addr ▸ n_fits.addr_aligned, size ▸ n_fits.size_aligned,
        size ▸ n_fits.small, ?_, ?_⟩
      · rw [Block.stop, addr, size]
        exact n_fits.last
      · rw [size, free]
        exact n_fits.sized
      · rw [Block.stop, addr, size]
        exact n_fits.ends
    · exact h.fits b (by simp [late])
  · exact headers_replace h.laid h.fits h.headers same headers like next
  · exact lists.setMem fun c x inside i low high => same _ (outside c x inside i low high)
  · intro c x inside
    obtain ⟨b, mb, rfl, free, class_b⟩ := blocks c x inside
    rw [List.append_assoc, List.mem_append, List.mem_append, List.mem_cons] at mb
    rcases mb with early | changed | rfl | late
    · exact ⟨b, by simp [early], rfl, free, class_b⟩
    · exact absurd ((all b.addr).mpr ⟨c, inside⟩) (unlisted b changed)
    · exact ⟨n', by simp, like.1, like.2.2.trans free, like.2.1 ▸ class_b⟩
    · exact ⟨b, by simp [late], rfl, free, class_b⟩
  · rintro r (around | ⟨b, mb, used, positive, rfl⟩) x ⟨low, high⟩
    · refine same x ?_
      rcases around with before | behind
      · refine Or.inr fun c inside => ?_
        have first := (h.fits c (by simp [inside])).first
        have below := a.below
        omega
      · have last := n_fits.last
        unfold Block.stop at last
        exact Or.inl (by omega)
    · dsimp only at low high
      refine same x ?_
      rw [List.mem_append, List.mem_cons] at mb
      rcases mb with early | rfl | late
      · refine h.laid.outside_before early ?_
        unfold Block.stop
        omega
      · exact Or.inl low
      · exact h.laid.outside_after n_fits late (by omega)

end Reshape

section Unlisted

variable {a : Arena} {s : Control} {xs mid ys : List Block} {b n : Block}

theorem Holds.unlisted {F : Set Nat} (h : Holds a s (xs ++ mid ++ ys) F) :
    ∀ b ∈ mid, b.addr ∉ freeAddrs (xs ++ ys) := by
  rintro b member ⟨c, inside, _, same⟩
  exact h.laid.elsewhere member inside same

theorem freeAddrs_remove (mid : List Block) (laid : Laid a (xs ++ mid ++ ys)) {b : Block}
    (member : b ∈ mid) :
    freeAddrs (xs ++ [b] ++ ys) \ {b.addr} = freeAddrs (xs ++ ys) := by
  ext x
  constructor
  · rintro ⟨⟨c, inside, free, rfl⟩, other⟩
    refine ⟨c, ?_, free, rfl⟩
    simp only [List.mem_append, List.mem_singleton] at inside ⊢
    rcases inside with (early | rfl) | late
    · exact Or.inl early
    · exact absurd rfl other
    · exact Or.inr late
  · rintro ⟨c, inside, free, rfl⟩
    refine ⟨⟨c, ?_, free, rfl⟩, laid.elsewhere member inside⟩
    simp only [List.mem_append] at inside ⊢
    exact inside.imp_left Or.inl

theorem live_insert (xs ys : List Block) (used : b.free = false) (sized : b.size ≠ 0) :
    live (xs ++ [b] ++ ys) = insert (b.addr + 16, b.size) (live (xs ++ ys)) := by
  rw [List.append_assoc, List.singleton_append, live_append, live_append, live_cons,
    if_pos ⟨used, sized⟩,
    Set.union_left_comm, Set.singleton_union]

theorem live_fresh (laid : Laid a (xs ++ [b] ++ ys)) (size : Nat) :
    (b.addr + 16, size) ∉ live (xs ++ ys) := by
  rintro ⟨c, inside, _, _, same⟩
  have addr : c.addr + 16 = b.addr + 16 := congrArg Prod.fst same
  exact laid.elsewhere List.mem_cons_self inside (by omega)

end Unlisted

end Algae.Mm.TlsfHeap
