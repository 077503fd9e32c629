/- The size field of a block header, which also holds two flags, and the class of a size. -/

import Mathlib.Tactic.IntervalCases
import Mathlib.Tactic.Ring
import Algae.Mm.Tlsf

set_option autoImplicit false
set_option relaxedAutoImplicit false

namespace Algae.Mm.TlsfWords

open Algae.Lib.ByteMemory Algae.Lib.TwoLevelIndex Algae.Sdk.Defs Algae.Mm.Tlsf

def headerWord (size : Nat) (free prev : Bool) : BitVec 64 :=
  BitVec.ofNat 64 (size + (free.toNat + 2 * prev.toNat))

section HeaderWord

variable {size : Nat} {free prev : Bool}

private theorem headerWord_toNat (small : size < 0x100000000) :
    (headerWord size free prev).toNat = size + (free.toNat + 2 * prev.toNat) := by
  have one := Bool.toNat_lt free
  have two := Bool.toNat_lt prev
  rw [headerWord, BitVec.toNat_ofNat]
  omega

theorem headerWord_getLsbD (aligned : 8 ∣ size) (small : size < 0x100000000) (i : Nat) :
    (headerWord size free prev).getLsbD i =
      if i = 0 then free else if i = 1 then prev else size.testBit i := by
  obtain ⟨k, rfl⟩ := aligned
  have one := Bool.toNat_lt free
  have two := Bool.toNat_lt prev
  have flags : free.toNat + 2 * prev.toNat < 2 ^ 3 := by omega
  rw [BitVec.getLsbD, headerWord_toNat small, show 8 * k = 2 ^ 3 * k from rfl,
    Nat.testBit_two_pow_mul_add k flags, Nat.testBit_two_pow_mul]
  rcases i with _ | _ | _ | i
  · cases free <;> cases prev <;> rfl
  · cases free <;> cases prev <;> rfl
  · cases free <;> cases prev <;> rfl
  · simp

theorem sizeBits_low (aligned : 8 ∣ size) {i : Nat} (low : i < 3) : size.testBit i = false := by
  obtain ⟨k, rfl⟩ := aligned
  rw [show 8 * k = 2 ^ 3 * k from rfl, Nat.testBit_two_pow_mul]
  simp [Nat.not_le.mpr low]

theorem freeBit_getLsbD (i : Nat) : blockHeaderFreeBit.getLsbD i = decide (i = 0) := by
  have bit := one_shift_getLsbD (w := 64) 0 i
  rw [show (1#64 <<< 0) = blockHeaderFreeBit from rfl] at bit
  rw [bit]
  simp only [decide_eq_decide]
  omega

theorem prevFreeBit_getLsbD (i : Nat) : blockHeaderPrevFreeBit.getLsbD i = decide (i = 1) := by
  have bit := one_shift_getLsbD (w := 64) 1 i
  rw [show (1#64 <<< 1) = blockHeaderPrevFreeBit from rfl] at bit
  rw [bit]
  simp only [decide_eq_decide]
  omega

private theorem ofNat_size_getLsbD (small : size < 0x100000000) (i : Nat) :
    (BitVec.ofNat 64 size).getLsbD i = size.testBit i := by
  rw [BitVec.getLsbD, BitVec.toNat_ofNat, Nat.mod_eq_of_lt (by omega)]

private theorem flag_set {word flag : BitVec 64} {k : Nat}
    (single : ∀ i, flag.getLsbD i = decide (i = k)) :
    word &&& flag ≠ 0 ↔ word.getLsbD k = true := by
  constructor
  · intro set
    by_contra unset
    apply set
    apply BitVec.eq_of_getLsbD_eq
    intro i _
    rw [BitVec.getLsbD_and, single]
    by_cases same : i = k
    · subst same
      simp [Bool.eq_false_iff.mpr unset]
    · simp [same]
  · intro set zero
    have bit := congrArg (BitVec.getLsbD · k) zero
    simp only [BitVec.getLsbD_and, single, set] at bit
    simp at bit

variable (aligned : 8 ∣ size) (small : size < 0x100000000)
include aligned small

theorem headerWord_size :
    (headerWord size free prev &&& ~~~(blockHeaderFreeBit ||| blockHeaderPrevFreeBit)).toNat =
    size := by
  have word : headerWord size free prev &&& ~~~(blockHeaderFreeBit ||| blockHeaderPrevFreeBit) =
      BitVec.ofNat 64 size := by
    apply BitVec.eq_of_getLsbD_eq
    intro i below
    rw [BitVec.getLsbD_and, BitVec.getLsbD_not, BitVec.getLsbD_or, freeBit_getLsbD,
      prevFreeBit_getLsbD, headerWord_getLsbD aligned small, ofNat_size_getLsbD small]
    by_cases first : i = 0
    · simp [first, sizeBits_low aligned (show 0 < 3 by omega)]
    · by_cases second : i = 1
      · simp [second, sizeBits_low aligned (show 1 < 3 by omega)]
      · simp [first, second, below]
  rw [word, BitVec.toNat_ofNat, Nat.mod_eq_of_lt (by omega)]

theorem setSize_word (word : BitVec 64) :
    BitVec.ofNat 64 size ||| (word &&& (blockHeaderFreeBit ||| blockHeaderPrevFreeBit)) =
      headerWord size (word.getLsbD 0) (word.getLsbD 1) := by
  apply BitVec.eq_of_getLsbD_eq
  intro i below
  rw [BitVec.getLsbD_or, BitVec.getLsbD_and, BitVec.getLsbD_or, freeBit_getLsbD,
    prevFreeBit_getLsbD, headerWord_getLsbD aligned small, ofNat_size_getLsbD small]
  by_cases first : i = 0
  · simp [first, sizeBits_low aligned (show 0 < 3 by omega)]
  · by_cases second : i = 1
    · simp [second, sizeBits_low aligned (show 1 < 3 by omega)]
    · simp [first, second]

theorem headerWord_isFree : headerWord size free prev &&& blockHeaderFreeBit ≠ 0 ↔ free = true := by
  rw [flag_set freeBit_getLsbD, headerWord_getLsbD aligned small, if_pos rfl]

theorem headerWord_isPrevFree :
    headerWord size free prev &&& blockHeaderPrevFreeBit ≠ 0 ↔ prev = true := by
  rw [flag_set prevFreeBit_getLsbD, headerWord_getLsbD aligned small, if_neg (by omega), if_pos rfl]

theorem headerWord_or_free :
    headerWord size free prev ||| blockHeaderFreeBit = headerWord size true prev := by
  apply BitVec.eq_of_getLsbD_eq
  intro i _
  rw [BitVec.getLsbD_or, freeBit_getLsbD, headerWord_getLsbD aligned small,
    headerWord_getLsbD aligned small]
  by_cases first : i = 0
  · simp [first]
  · simp [first]

theorem headerWord_or_prevFree :
    headerWord size free prev ||| blockHeaderPrevFreeBit = headerWord size free true := by
  apply BitVec.eq_of_getLsbD_eq
  intro i _
  rw [BitVec.getLsbD_or, prevFreeBit_getLsbD, headerWord_getLsbD aligned small,
    headerWord_getLsbD aligned small]
  by_cases second : i = 1
  · simp [second]
  · simp [second]

theorem headerWord_and_free :
    headerWord size free prev &&& ~~~blockHeaderFreeBit = headerWord size false prev := by
  apply BitVec.eq_of_getLsbD_eq
  intro i below
  rw [BitVec.getLsbD_and, BitVec.getLsbD_not, freeBit_getLsbD, headerWord_getLsbD aligned small,
    headerWord_getLsbD aligned small]
  by_cases first : i = 0
  · simp [first]
  · simp [first, below]

theorem headerWord_and_prevFree :
    headerWord size free prev &&& ~~~blockHeaderPrevFreeBit = headerWord size free false := by
  apply BitVec.eq_of_getLsbD_eq
  intro i below
  rw [BitVec.getLsbD_and, BitVec.getLsbD_not, prevFreeBit_getLsbD, headerWord_getLsbD aligned small,
    headerWord_getLsbD aligned small]
  by_cases second : i = 1
  · simp [second]
  · simp [second, below]

end HeaderWord

theorem headerWord_add (size more : Nat) (free prev : Bool) :
    headerWord size free prev + BitVec.ofNat 64 more = headerWord (size + more) free prev := by
  rw [headerWord, headerWord, ← BitVec.ofNat_add]
  congr 1
  ring

section Classes

def base (fl : Nat) : Nat := if fl = 0 then 0 else 2 ^ (fl + 7)

def width (fl : Nat) : Nat := if fl = 0 then 8 else 2 ^ (fl + 2)

theorem base_steps (fl : Nat) : base (fl + 1) = base fl + 32 * width fl := by
  rw [base, base, width, if_neg (Nat.succ_ne_zero fl)]
  split
  · rename_i zero
    rw [zero]
    rfl
  · ring

private theorem tlsfFls_eq {word : BitVec 32} (nonzero : word ≠ 0) :
    tlsfFls word = Nat.log2 word.toNat := by
  rw [tlsfFls, if_pos nonzero, builtinClz]
  omega

private theorem tlsfFlsSizet_eq {size : Nat} (positive : size ≠ 0)
    (word : size < 0x10000000000000000) :
    tlsfFlsSizet size = Nat.log2 size := by
  have high : (BitVec.ofNat 32 (size >>> 32)).toNat = size / 2 ^ 32 := by
    rw [BitVec.toNat_ofNat, Nat.shiftRight_eq_div_pow]
    omega
  have upper : BitVec.ofNat 32 (size >>> 32) ≠ 0 ↔ size / 2 ^ 32 ≠ 0 := by
    rw [Ne, ← BitVec.toNat_inj, high]
    rfl
  rw [tlsfFlsSizet]
  split
  · rename_i large
    have quotient := upper.mp large
    rw [tlsfFls_eq large, high]
    have bounds := (Nat.log2_eq_iff quotient).mp rfl
    have log : Nat.log2 size = Nat.log2 (size / 2 ^ 32) + 32 := by
      rw [Nat.log2_eq_iff positive, Nat.add_right_comm, pow_add, pow_add]
      omega
    omega
  · rename_i small
    have quotient := mt upper.mpr small
    have low : (BitVec.ofNat 32 size).toNat = size := by
      rw [BitVec.toNat_ofNat]
      omega
    have nonzero : BitVec.ofNat 32 size ≠ 0 := by
      intro zero
      rw [zero] at low
      exact positive low.symm
    rw [tlsfFls_eq nonzero, low]

private theorem mappingInsert_small {size : Nat} (small : size < 256) :
    mappingInsert size = (0, size / 8) := by
  rw [mappingInsert, if_pos (show size < SMALL_BLOCK_SIZE from small)]
  rfl

private theorem xor_high {n : Nat} (low : 32 ≤ n) (high : n < 64) :
    n ^^^ 1 <<< SL_INDEX_COUNT_LOG2 = n - 32 := by
  interval_cases n <;> rfl

theorem mappingInsert_large {size k : Nat} (log : 2 ^ (k + 8) ≤ size ∧ size < 2 ^ (k + 9))
    (word : size < 0x10000000000000000) :
    mappingInsert size = (k + 1, size / 2 ^ (k + 3) - 32) ∧
      32 ≤ size / 2 ^ (k + 3) ∧ size / 2 ^ (k + 3) < 64 := by
  have least : 2 ^ 8 ≤ 2 ^ (k + 8) := Nat.pow_le_pow_right (by omega) (by omega)
  have positive : size ≠ 0 := by omega
  have fls := tlsfFlsSizet_eq positive word
  rw [(Nat.log2_eq_iff positive).mpr log] at fls
  have low : 32 ≤ size / 2 ^ (k + 3) := by
    rw [Nat.le_div_iff_mul_le (Nat.two_pow_pos _), show 32 = 2 ^ 5 from rfl, ← pow_add,
      show 5 + (k + 3) = k + 8 by omega]
    exact log.1
  have high : size / 2 ^ (k + 3) < 64 := by
    rw [Nat.div_lt_iff_lt_mul (Nat.two_pow_pos _), show 64 = 2 ^ 6 from rfl, ← pow_add,
      show 6 + (k + 3) = k + 9 by omega]
    exact log.2
  refine ⟨?_, low, high⟩
  have shift : ((k + 8 : Nat) - (SL_INDEX_COUNT_LOG2 : Int)).toNat = k + 3 := by
    unfold SL_INDEX_COUNT_LOG2
    omega
  have row : ((k + 8 : Nat) - ((FL_INDEX_SHIFT : Int) - 1)).toNat = k + 1 := by
    unfold FL_INDEX_SHIFT
    omega
  rw [mappingInsert, if_neg (show ¬size < SMALL_BLOCK_SIZE by unfold SMALL_BLOCK_SIZE; omega)]
  simp only [fls]
  rw [shift, row, Nat.shiftRight_eq_div_pow, xor_high low high]

private theorem log_bounds {size : Nat} (large : 256 ≤ size) :
    ∃ k, 2 ^ (k + 8) ≤ size ∧ size < 2 ^ (k + 9) := by
  have positive : size ≠ 0 := by omega
  have eight := (Nat.le_log2 (k := 8) positive).mpr large
  obtain ⟨k, log⟩ := Nat.exists_eq_add_of_le eight
  refine ⟨k, ?_⟩
  have bounds := (Nat.log2_eq_iff positive).mp rfl
  rwa [log, show 8 + k = k + 8 by omega] at bounds

def Listed (size fl sl : Nat) : Prop :=
  lower base width fl sl ≤ size ∧ size < lower base width fl sl + width fl ∧ sl < 32

theorem mappingInsert_listed {size : Nat} (word : size < 0x10000000000000000) :
    Listed size (mappingInsert size).1 (mappingInsert size).2 := by
  by_cases small : size < 256
  · rw [mappingInsert_small small]
    simp only [Listed, lower, base, width, if_true]
    omega
  · obtain ⟨k, log⟩ := log_bounds (Nat.not_lt.mp small)
    obtain ⟨map, low, high⟩ := mappingInsert_large log word
    have step : 2 ^ (k + 8) = 32 * 2 ^ (k + 3) := by
      rw [show k + 8 = k + 3 + 5 by omega, pow_add]
      omega
    have quotient := Nat.div_add_mod size (2 ^ (k + 3))
    have rest := Nat.mod_lt size (Nat.two_pow_pos (k + 3))
    have cols : (size / 2 ^ (k + 3) - 32) * 2 ^ (k + 3) =
        2 ^ (k + 3) * (size / 2 ^ (k + 3)) - 32 * 2 ^ (k + 3) := by
      rw [Nat.sub_mul, Nat.mul_comm]
    have some_rows : 32 * 2 ^ (k + 3) ≤ 2 ^ (k + 3) * (size / 2 ^ (k + 3)) := by
      rw [Nat.mul_comm]
      exact Nat.mul_le_mul_left _ low
    rw [map]
    simp only [Listed, lower, base, width, if_neg (Nat.succ_ne_zero k)]
    rw [show k + 1 + 7 = k + 8 by omega, show k + 1 + 2 = k + 3 by omega, step, cols]
    omega

theorem mappingInsert_row {size : Nat} (small : size < 0x100000000) :
    (mappingInsert size).1 < 25 := by
  have listed := mappingInsert_listed (show size < 0x10000000000000000 by omega)
  by_contra beyond
  have rows := base_mono base_steps (Nat.not_lt.mp beyond)
  have last : base 25 = 0x100000000 := rfl
  have low := listed.1
  unfold lower at low
  omega

def roundUp (size : Nat) : Nat := if 256 ≤ size then size + (2 ^ (Nat.log2 size - 5) - 1) else size

theorem mappingSearch_eq {size : Nat} (word : size < 0x10000000000000000) :
    mappingSearch size = mappingInsert (roundUp size) := by
  rw [mappingSearch, roundUp]
  by_cases large : 256 ≤ size
  · have positive : size ≠ 0 := by omega
    have eight := (Nat.le_log2 (k := 8) positive).mpr large
    have shift :
        ((Nat.log2 size : Int) - (SL_INDEX_COUNT_LOG2 : Int)).toNat = Nat.log2 size - 5 := by
      unfold SL_INDEX_COUNT_LOG2
      omega
    rw [if_pos (show size ≥ SMALL_BLOCK_SIZE from large), if_pos large,
      tlsfFlsSizet_eq positive word, shift, Nat.shiftLeft_eq, Nat.one_mul]
  · rw [if_neg (show ¬size ≥ SMALL_BLOCK_SIZE from large), if_neg large]

theorem roundUp_large {size k : Nat} (log : 2 ^ (k + 8) ≤ size ∧ size < 2 ^ (k + 9)) :
    roundUp size = size + (2 ^ (k + 3) - 1) := by
  have least : 2 ^ 8 ≤ 2 ^ (k + 8) := Nat.pow_le_pow_right (by omega) (by omega)
  rw [roundUp, if_pos (by omega), (Nat.log2_eq_iff (by omega)).mpr log]
  rfl

theorem roundUp_le (size : Nat) : roundUp size ≤ size + size / 32 := by
  by_cases large : 256 ≤ size
  · obtain ⟨k, log⟩ := log_bounds large
    have step : 2 ^ (k + 8) = 32 * 2 ^ (k + 3) := by
      rw [show k + 8 = k + 3 + 5 by omega, pow_add]
      omega
    rw [roundUp_large log]
    omega
  · rw [roundUp, if_neg large]
    omega

theorem roundUp_lt {size : Nat} (small : size < 0x100000000) : roundUp size < 0x200000000 := by
  by_cases large : 256 ≤ size
  · obtain ⟨k, log⟩ := log_bounds large
    have part : 2 ^ (k + 3) ≤ 2 ^ (k + 8) := Nat.pow_le_pow_right (by omega) (by omega)
    rw [roundUp_large log]
    omega
  · rw [roundUp, if_neg large]
    omega

theorem mappingSearch_lower {size : Nat} (aligned : 8 ∣ size) (small : size < 0x100000000) :
    size ≤ lower base width (mappingSearch size).1 (mappingSearch size).2 := by
  have word : size < 0x10000000000000000 := by omega
  rw [mappingSearch_eq word]
  by_cases large : 256 ≤ size
  · obtain ⟨k, log⟩ := log_bounds large
    rw [roundUp_large log]
    have part : 2 ^ (k + 3) ≤ 2 ^ (k + 8) := Nat.pow_le_pow_right (by omega) (by omega)
    have double : 2 ^ (k + 9) = 2 ^ (k + 8) + 2 ^ (k + 8) := by ring
    have double' : 2 ^ (k + 10) = 2 ^ (k + 9) + 2 ^ (k + 9) := by ring
    have listed :=
      mappingInsert_listed (show size + (2 ^ (k + 3) - 1) < 0x10000000000000000 by omega)
    by_cases same : size + (2 ^ (k + 3) - 1) < 2 ^ (k + 9)
    · have map :=
        (mappingInsert_large ⟨Nat.le_trans log.1 (Nat.le_add_right _ _), same⟩ (by omega)).1
      rw [map] at listed ⊢
      dsimp only at listed ⊢
      have high := listed.2.1
      simp only [width, if_neg (Nat.succ_ne_zero k)] at high
      rw [show k + 1 + 2 = k + 3 by omega] at high
      omega
    · have log' : 2 ^ (k + 1 + 8) ≤ size + (2 ^ (k + 3) - 1) ∧
          size + (2 ^ (k + 3) - 1) < 2 ^ (k + 1 + 9) := by
        rw [show k + 1 + 8 = k + 9 by omega, show k + 1 + 9 = k + 10 by omega]
        omega
      have map := (mappingInsert_large log' (by omega)).1
      rw [map]
      simp only [lower, base, if_neg (Nat.succ_ne_zero _)]
      rw [show k + 1 + 1 + 7 = k + 9 by omega]
      omega
  · rw [roundUp, if_neg large, mappingInsert_small (by omega)]
    simp only [lower, base, width, if_true]
    omega

theorem mappingSearch_enough {size found : Nat} (aligned : 8 ∣ size) (small : size < 0x100000000)
    (word : found < 0x10000000000000000)
    (reached : Reaches (mappingSearch size).1 (mappingSearch size).2 (mappingInsert found).1
      (mappingInsert found).2) : size ≤ found := by
  have rounded := roundUp_lt small
  have listed := mappingInsert_listed word
  have column := (mappingInsert_listed (show roundUp size < 0x10000000000000000 by omega)).2.2
  rw [← mappingSearch_eq (by omega)] at column
  have rows := lower_mono base_steps column reached
  exact Nat.le_trans (mappingSearch_lower aligned small) (Nat.le_trans rows listed.1)

theorem mappingSearch_reaches {size found : Nat} (small : size < 0x100000000)
    (word : found < 0x10000000000000000) (enough : roundUp size ≤ found) :
    Reaches (mappingSearch size).1 (mappingSearch size).2 (mappingInsert found).1
      (mappingInsert found).2 := by
  have rounded := roundUp_lt small
  have listed := mappingInsert_listed (show roundUp size < 0x10000000000000000 by omega)
  obtain ⟨_, high, column⟩ := mappingInsert_listed word
  rw [mappingSearch_eq (by omega)]
  exact reaches_of_le base_steps column listed.1 enough high

end Classes

section Requests

theorem tlsfAssert_pos {cond : Prop} [Decidable cond] (holds : cond) : tlsfAssert cond = some () :=
  if_pos holds

private theorem power_single {k : Nat} (below : k < 64) :
    0 = BitVec.ofNat 64 (2 ^ k) &&& (BitVec.ofNat 64 (2 ^ k) - 1) := by
  apply BitVec.eq_of_getLsbD_eq
  intro i inside
  rw [BitVec.getLsbD_and, low_mask below i inside]
  by_cases low : i < k
  · have clear : (BitVec.ofNat 64 (2 ^ k)).getLsbD i = false := by
      rw [BitVec.getLsbD, BitVec.toNat_ofNat, Nat.testBit_mod_two_pow]
      simp only [Nat.testBit_two_pow, decide_eq_false (show ¬k = i by omega), Bool.and_false]
    rw [clear, Bool.false_and]
    exact BitVec.getLsbD_zero
  · rw [decide_eq_false low, Bool.and_false]
    exact BitVec.getLsbD_zero

theorem tlsfAlignUp_eq {k : Nat} (below : k < 64) (x : Nat) :
    tlsfAlignUp x (2 ^ k) = some ((x % 2 ^ 64 + (2 ^ k - 1)) % 2 ^ 64 / 2 ^ k * 2 ^ k) := by
  have up := alignUp_pow below (BitVec.ofNat 64 x)
  rw [BitVec.toNat_ofNat] at up
  simp only [tlsfAlignUp, tlsfAssert_pos (power_single below), Option.bind_eq_bind,
    Option.bind_some, up]

theorem alignPtr_aligned {x : Nat} (aligned : 8 ∣ x) (word : x < 0x10000000000000000) :
    alignPtr x ALIGN_SIZE = some x := by
  have up := tlsfAlignUp_eq (show 3 < 64 by omega) x
  rw [alignPtr, show ALIGN_SIZE = 2 ^ 3 from rfl, up]
  congr 1
  omega

theorem tlsfAlignDown_eq (x : Nat) (word : x < 0x10000000000000000) :
    tlsfAlignDown x ALIGN_SIZE = some (x / 8 * 8) := by
  have mask : (BitVec.ofNat 64 x &&& (BitVec.ofNat 64 8 - 1)).toNat = x % 8 := by
    rw [BitVec.toNat_and, BitVec.toNat_ofNat, Nat.mod_eq_of_lt word]
    exact Nat.and_two_pow_sub_one_eq_mod x 3
  have down :
      (BitVec.ofNat 64 x - (BitVec.ofNat 64 x &&& (BitVec.ofNat 64 8 - 1))).toNat = x / 8 * 8 := by
    rw [BitVec.toNat_sub, mask, BitVec.toNat_ofNat]
    omega
  have single : 0 = BitVec.ofNat 64 8 &&& (BitVec.ofNat 64 8 - 1) :=
    power_single (show 3 < 64 by omega)
  simp only [tlsfAlignDown, show ALIGN_SIZE = 8 from rfl, tlsfAssert_pos single,
    Option.bind_eq_bind, Option.bind_some, down]

/-- The size that a request is served with, 0 if none is. The sum wraps. -/
def adjusted (size : Nat) : Nat :=
  if size = 0 then 0
  else if (size + 7) % 0x10000000000000000 / 8 * 8 < 0x100000000 then
    max ((size + 7) % 0x10000000000000000 / 8 * 8) 24
  else 0

theorem adjustRequestSize_eq {size : Nat} (word : size < 0x10000000000000000) :
    adjustRequestSize size ALIGN_SIZE = some (adjusted size) := by
  have up := tlsfAlignUp_eq (show 3 < 64 by omega) size
  rw [Nat.mod_eq_of_lt (show size < 2 ^ 64 from word)] at up
  rw [adjustRequestSize, adjusted]
  by_cases zero : size = 0
  · rw [if_neg (by simp [zero]), if_pos zero]
  · rw [if_pos zero, if_neg zero, show ALIGN_SIZE = 2 ^ 3 from rfl, up]
    rfl

theorem adjusted_sized (size : Nat) :
    8 ∣ adjusted size ∧ adjusted size < 0x100000000 ∧ (adjusted size = 0 ∨ 24 ≤ adjusted size) := by
  rw [adjusted]
  split
  · omega
  · split
    · omega
    · omega

theorem le_adjusted {size : Nat} (fits : size + 7 < 0x10000000000000000)
    (served : adjusted size ≠ 0) :
    size ≤ adjusted size := by
  rw [adjusted] at served ⊢
  split
  · omega
  · rename_i positive
    rw [if_neg positive] at served
    split
    · omega
    · rename_i large
      exact absurd (if_neg large) served

theorem adjusted_wrapped {size : Nat} (word : size < 0x10000000000000000)
    (wraps : 0x10000000000000000 ≤ size + 7) : adjusted size = 24 := by
  rw [adjusted, if_neg (by omega), if_pos (by omega)]
  omega

end Requests

end Algae.Mm.TlsfWords
