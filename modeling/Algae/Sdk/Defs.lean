/- Kernel C definitions: status codes, the conversions between C integer types,
   the alignment macros and the bitmap macros of ke/defs.h. -/

import Mathlib.Data.Fintype.Card
import Mathlib.Logic.Function.Basic
import Mathlib.Tactic.NormNum
import Mathlib.Tactic.Ring
import Algae.Lib.ByteMemory

set_option autoImplicit false
set_option relaxedAutoImplicit false

namespace Algae.Sdk.Defs

open Algae.Lib.ByteMemory (Byte)

inductive NtStatus
  | success | accessDenied | noMemory | badObjName | invalidHandle | badObjType
  | objectNotFound | notDirectory | fileUnavl | notMapped | notSupported
  | invalidParam | procNotFound | procNoExec | noSpace
  deriving DecidableEq, Repr

abbrev Pointer := {p : BitVec 64 // p ≠ 0}

theorem frame_one_ne_null : (0x1000 : BitVec 64) ≠ 0 := by decide

theorem frame_two_ne_null : (0x2000 : BitVec 64) ≠ 0 := by decide

theorem frame_sixteen_ne_null : (0x10000 : BitVec 64) ≠ 0 := by decide

theorem pointers_few {xs : List Pointer} (nodup : xs.Nodup) : xs.length < 0x10000000000000000 := by
  let addresses : List (Fin 0x10000000000000000) := xs.map fun p => p.val.toFin
  have injective : Function.Injective fun p : Pointer => p.val.toFin := by
    intro p q same
    exact Subtype.ext (BitVec.eq_of_toFin_eq same)
  have distinct : (0 :: addresses).Nodup := by
    refine List.nodup_cons.mpr ⟨?_, nodup.map injective⟩
    intro null
    obtain ⟨p, _, zero⟩ := List.mem_map.mp null
    exact p.property (BitVec.eq_of_toFin_eq zero)
  have bound := distinct.length_le_card
  rw [Fintype.card_fin, List.length_cons, List.length_map] at bound
  omega

@[irreducible] def PAGESIZE : Nat := 4096

theorem page_pos : 0 < PAGESIZE := by
  rw [PAGESIZE]
  decide

/-! Values of a C type are integers in its range; a conversion reduces into it.
    The conversions are irreducible, since unfolding one while comparing terms
    counts up to its modulus. -/

@[irreducible] def toUSize (z : Int) : Nat := (z % 0x10000000000000000).toNat

@[irreducible] def toLong (z : Int) : Int := (z + 0x80000000) % 0x100000000 - 0x80000000

@[irreducible] def toQuad (z : Int) : Int :=
  (z + 0x8000000000000000) % 0x10000000000000000 - 0x8000000000000000

theorem toUSize_natCast {n : Nat} (h : n < 0x10000000000000000) : toUSize n = n := by
  unfold toUSize
  omega

theorem toLong_natCast {n : Nat} (h : n < 0x80000000) : toLong n = n := by
  unfold toLong
  omega

theorem toLong_toLong_succ (z : Int) : toLong (toLong z + 1) = toLong (z + 1) := by
  unfold toLong
  omega

theorem toQuad_natCast {n : Nat} (h : n < 0x8000000000000000) : toQuad n = n := by
  unfold toQuad
  omega

theorem toUSize_toQuad (z : Int) : toUSize (toQuad z) = toUSize z := by
  unfold toUSize toQuad
  omega

/-! The alignment macros keep the width of their argument, so ALIGN_UP of a
    32-bit value wraps at 32 bits. -/

def alignDown {w : Nat} (value align : BitVec w) : BitVec w := value &&& ~~~(align - 1)

def alignUp {w : Nat} (value align : BitVec w) : BitVec w :=
  (value + align - 1) &&& ~~~(align - 1)

private theorem and_not_low {w k : Nat} (v mask : BitVec w)
    (hm : ∀ i < w, mask.getLsbD i = decide (i < k)) :
    (v &&& ~~~mask).toNat = v.toNat / 2 ^ k * 2 ^ k := by
  have shifted : v &&& ~~~mask = (v >>> k) <<< k := by
    apply BitVec.eq_of_getLsbD_eq
    intro i hi
    have mask_bit : mask[i] = decide (i < k) := hm i hi
    by_cases low : i < k
    · simp [mask_bit, low, hi]
    · have back : k + (i - k) = i := by omega
      simp [mask_bit, low, hi, back]
  rw [shifted, BitVec.toNat_shiftLeft, BitVec.toNat_ushiftRight, Nat.shiftLeft_eq,
    Nat.shiftRight_eq_div_pow, Nat.mod_eq_of_lt]
  exact lt_of_le_of_lt (Nat.div_mul_le_self _ _) v.isLt

private theorem ofNat_one {w : Nat} (hw : 0 < w) : (1 : BitVec w).toNat = 1 := by
  have big : 1 < 2 ^ w := Nat.one_lt_two_pow (Nat.pos_iff_ne_zero.mp hw)
  change (BitVec.ofNat w 1).toNat = 1
  rw [BitVec.toNat_ofNat, Nat.mod_eq_of_lt big]

theorem low_mask {w k : Nat} (hw : k < w) (i : Nat) (_ : i < w) :
    (BitVec.ofNat w (2 ^ k) - 1).getLsbD i = decide (i < k) := by
  have big : 2 ^ k < 2 ^ w := Nat.pow_lt_pow_right (by norm_num) hw
  have positive : 0 < 2 ^ k := Nat.two_pow_pos k
  have value : (BitVec.ofNat w (2 ^ k) - 1).toNat = 2 ^ k - 1 := by
    rw [BitVec.toNat_sub, ofNat_one (by omega), BitVec.toNat_ofNat, Nat.mod_eq_of_lt big,
      show 2 ^ w - 1 + 2 ^ k = 2 ^ w + (2 ^ k - 1) by omega, Nat.add_mod_left,
      Nat.mod_eq_of_lt (by omega)]
  rw [BitVec.getLsbD, value]
  exact Nat.testBit_two_pow_sub_one k i

private theorem alignDown_pow {w k : Nat} (hw : k < w) (v : BitVec w) :
    (alignDown v (BitVec.ofNat w (2 ^ k))).toNat = v.toNat / 2 ^ k * 2 ^ k :=
  and_not_low v _ (low_mask hw)

theorem alignUp_pow {w k : Nat} (hw : k < w) (v : BitVec w) :
    (alignUp v (BitVec.ofNat w (2 ^ k))).toNat = (v.toNat + (2 ^ k - 1)) % 2 ^ w / 2 ^
    k * 2 ^ k := by
  have big : 2 ^ k < 2 ^ w := Nat.pow_lt_pow_right (by norm_num) hw
  have positive : 0 < 2 ^ k := Nat.two_pow_pos k
  have value : (v + BitVec.ofNat w (2 ^ k) - 1).toNat = (v.toNat + (2 ^ k - 1)) % 2 ^ w := by
    rw [BitVec.toNat_sub, ofNat_one (by omega), BitVec.toNat_add, BitVec.toNat_ofNat,
      Nat.mod_eq_of_lt big, Nat.add_mod_mod,
      show 2 ^ w - 1 + (v.toNat + 2 ^ k) = v.toNat + (2 ^ k - 1) + 2 ^ w by omega,
      Nat.add_mod_right]
  have down := and_not_low (v + BitVec.ofNat w (2 ^ k) - 1) _ (low_mask hw)
  rw [value] at down
  exact down

theorem alignDown_page {w : Nat} (hw : 12 < w) (v : BitVec w) :
    (alignDown v (BitVec.ofNat w 4096)).toNat = v.toNat / 4096 * 4096 :=
  alignDown_pow hw v

theorem alignUp_page {w : Nat} (hw : 12 < w) (v : BitVec w) :
    (alignUp v (BitVec.ofNat w 4096)).toNat = (v.toNat + 4095) % 2 ^ w / 4096 * 4096 :=
  alignUp_pow hw v

def blockAlignUp (n : Nat) : Nat := (alignUp (BitVec.ofNat 64 n) (BitVec.ofNat 64 512)).toNat

theorem blockAlignUp_eq {n : Nat} (h : n + 511 < 0x10000000000000000) :
    blockAlignUp n = (n + 511) / 512 * 512 := by
  have up := alignUp_pow (show 9 < 64 by norm_num) (BitVec.ofNat 64 n)
  have word : 2 ^ 64 = 0x10000000000000000 := rfl
  have block : 2 ^ 9 = 512 := rfl
  rw [block, word, BitVec.toNat_ofNat, word,
    Nat.mod_eq_of_lt (show n < 0x10000000000000000 by omega), Nat.mod_eq_of_lt h] at up
  exact up

def pageAlignUp (n : Nat) : Nat := (alignUp (BitVec.ofNat 64 n) (BitVec.ofNat 64 PAGESIZE)).toNat

theorem pageAlignUp_eq {n : Nat} (h : n + 4095 < 0x10000000000000000) :
    pageAlignUp n = (n + 4095) / 4096 * 4096 := by
  have word : 2 ^ 64 = 0x10000000000000000 := rfl
  rw [pageAlignUp, PAGESIZE, alignUp_page (by norm_num), BitVec.toNat_ofNat, word,
    Nat.mod_eq_of_lt (show n < 0x10000000000000000 by omega), Nat.mod_eq_of_lt h]

theorem pageAlignUp_multiple (n : Nat) : pageAlignUp n = pageAlignUp n / 4096 * 4096 := by
  rw [pageAlignUp, PAGESIZE, alignUp_page (by norm_num), Nat.mul_div_cancel _ (by norm_num)]

/-! The bitmap macros address bit `b % 8` of byte `b >> 3`. -/

def bit (n : Nat) : BitVec 64 := 1#64 <<< n

abbrev Bitmap := Nat → Byte

def setBit (a : Bitmap) (b : Nat) : Bitmap :=
  Function.update a (b >>> 3) (a (b >>> 3) ||| (bit (b % 8)).setWidth 8)

def clrBit (a : Bitmap) (b : Nat) : Bitmap :=
  Function.update a (b >>> 3) (a (b >>> 3) &&& (~~~bit (b % 8)).setWidth 8)

def testBit (a : Bitmap) (b : Nat) : Bool := (a (b >>> 3)).setWidth 64 &&& bit (b % 8) != 0

theorem testBit_full {a : Bitmap} {b : Nat} (h : a (b >>> 3) = 0xFF) : testBit a b = true := by
  have low : b % 8 < 8 := Nat.mod_lt _ (by norm_num)
  have ones : ∀ k < 8, ((0xFF : Byte).setWidth 64 &&& bit k != 0) = true := by decide
  rw [testBit, h]
  exact ones _ low

private theorem bit_getLsbD {n i : Nat} (hn : n < 64) : (bit n).getLsbD i = decide (i = n) := by
  by_cases h : i = n
  · simp [bit, h, hn]
  · by_cases below : i < n
    · simp [bit, below, h]
    · have : i - n ≠ 0 := by omega
      simp [bit, h, this]

theorem testBit_eq (a : Bitmap) (b : Nat) : testBit a b = (a (b >>> 3)).getLsbD (b % 8) := by
  have small : b % 8 < 8 := Nat.mod_lt _ (by norm_num)
  by_cases h : (a (b >>> 3)).getLsbD (b % 8) = true
  · have nonzero : (a (b >>> 3)).setWidth 64 &&& bit (b % 8) ≠ 0 := by
      intro zero
      have at_bit := congrArg (fun x : BitVec 64 => x.getLsbD (b % 8)) zero
      simp [bit_getLsbD (show b % 8 < 64 by omega), h] at at_bit
      omega
    simpa [testBit, h] using nonzero
  · have zero : (a (b >>> 3)).setWidth 64 &&& bit (b % 8) = 0 := by
      apply BitVec.eq_of_getLsbD_eq
      intro i hi
      by_cases same : i = b % 8
      · subst same
        simpa using fun _ hset => absurd hset h
      · simp [bit_getLsbD (show b % 8 < 64 by omega), same]
    simp [testBit, h, zero]

private theorem same_cell {b c : Nat} (byte : b >>> 3 = c >>> 3) (low : b % 8 = c % 8) : b = c := by
  rw [Nat.shiftRight_eq_div_pow, Nat.shiftRight_eq_div_pow] at byte
  omega

theorem testBit_setBit (a : Bitmap) (b c : Nat) :
    testBit (setBit a b) c = (decide (c = b) || testBit a c) := by
  have small : b % 8 < 64 := by omega
  have low : c % 8 < 8 := Nat.mod_lt _ (by norm_num)
  rw [testBit_eq, testBit_eq]
  by_cases byte : c >>> 3 = b >>> 3
  · by_cases same : c % 8 = b % 8
    · have := same_cell byte same
      subst this
      simp [setBit, bit_getLsbD small, low]
    · have differ : c ≠ b := fun h => same (by rw [h])
      simp [setBit, byte, bit_getLsbD small, same, differ]
  · have differ : c ≠ b := fun h => byte (by rw [h])
    simp [setBit, Function.update_of_ne byte, differ]

theorem testBit_clrBit (a : Bitmap) (b c : Nat) :
    testBit (clrBit a b) c = (decide (c ≠ b) && testBit a c) := by
  have small : b % 8 < 64 := by omega
  have low : c % 8 < 8 := Nat.mod_lt _ (by norm_num)
  rw [testBit_eq, testBit_eq]
  by_cases byte : c >>> 3 = b >>> 3
  · by_cases same : c % 8 = b % 8
    · have := same_cell byte same
      simp [clrBit, this, bit_getLsbD small]
    · have differ : c ≠ b := fun h => same (by rw [h])
      have wide : c % 8 < 64 := by omega
      have other : (bit (b % 8))[c % 8] = false := by
        rw [← BitVec.getLsbD_eq_getElem, bit_getLsbD small]
        simpa using same
      simp [clrBit, byte, other, differ, low, wide]
  · have differ : c ≠ b := fun h => byte (by rw [h])
    simp [clrBit, Function.update_of_ne byte, differ]

end Algae.Sdk.Defs
