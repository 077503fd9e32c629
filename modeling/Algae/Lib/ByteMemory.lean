/- Byte-addressed memory with little-endian words: what a load sees after a
   store, a fill or a block write, and what each of them leaves alone. -/

import Mathlib.Data.Nat.Basic
import Mathlib.Logic.Function.Basic
import Mathlib.Tactic.Ring

set_option autoImplicit false
set_option relaxedAutoImplicit false

namespace Algae.Lib.ByteMemory

abbrev Byte := BitVec 8

/-- Every address holds a byte; bounds are stated where they matter. -/
abbrev Mem := Nat → Byte

def loadLE (m : Mem) (a : Nat) : Nat → Nat
  | 0 => 0
  | n + 1 => (m a).toNat + 256 * loadLE m (a + 1) n

/-- Write the `n` low bytes of `v` from `a`, least significant first. -/
def storeLE (m : Mem) (a : Nat) : Nat → Nat → Mem
  | 0, _ => m
  | n + 1, v => storeLE (Function.update m a (BitVec.ofNat 8 v)) (a + 1) n (v / 256)

def write (m : Mem) (a n : Nat) (src : Nat → Byte) : Mem :=
  fun x => if a ≤ x ∧ x < a + n then src (x - a) else m x

def fill (m : Mem) (a n : Nat) (c : Byte) : Mem := write m a n fun _ => c

theorem loadLE_congr {m m' : Mem} {a n : Nat} (h : ∀ i < n, m (a + i) = m' (a + i)) :
    loadLE m a n = loadLE m' a n := by
  induction n generalizing a with
  | zero => rfl
  | succ n ih =>
    have head := h 0 (Nat.succ_pos n)
    have tail : loadLE m (a + 1) n = loadLE m' (a + 1) n := by
      apply ih
      intro i hi
      have := h (i + 1) (by omega)
      rwa [show a + (i + 1) = a + 1 + i by omega] at this
    simp only [loadLE, tail]
    rw [Nat.add_zero] at head
    rw [head]

theorem loadLE_lt (m : Mem) (a n : Nat) : loadLE m a n < 256 ^ n := by
  induction n generalizing a with
  | zero => simp [loadLE]
  | succ n ih =>
    have head := (m a).isLt
    have tail := ih (a + 1)
    simp only [loadLE, pow_succ]
    omega

theorem storeLE_outside (m : Mem) {a n x : Nat} (v : Nat) (h : x < a ∨ a + n ≤ x) :
    storeLE m a n v x = m x := by
  induction n generalizing m a v with
  | zero => rfl
  | succ n ih =>
    rw [storeLE, ih _ _ (by omega), Function.update_of_ne (by omega)]

theorem loadLE_storeLE (m : Mem) (a n v : Nat) :
    loadLE (storeLE m a n v) a n = v % 256 ^ n := by
  induction n generalizing m a v with
  | zero => simp [loadLE, Nat.mod_one]
  | succ n ih =>
    have head : storeLE m a (n + 1) v a = BitVec.ofNat 8 v := by
      rw [storeLE, storeLE_outside _ _ (by omega), Function.update_self]
    have split : v % 256 ^ (n + 1) = v % 256 + 256 * (v / 256 % 256 ^ n) := by
      rw [pow_succ', Nat.mod_mul]
    rw [loadLE, head, storeLE, ih, BitVec.toNat_ofNat, split]

private theorem storeLE_loadLE (m : Mem) (a n : Nat) : storeLE m a n (loadLE m a n) = m := by
  induction n generalizing a with
  | zero => rfl
  | succ n ih =>
    have low := (m a).isLt
    have byte : BitVec.ofNat 8 ((m a).toNat + 256 * loadLE m (a + 1) n) = m a := by
      apply BitVec.eq_of_toNat_eq
      rw [BitVec.toNat_ofNat]
      omega
    have high : ((m a).toNat + 256 * loadLE m (a + 1) n) / 256 = loadLE m (a + 1) n := by
      omega
    rw [loadLE, storeLE, byte, high, Function.update_eq_self, ih]

private theorem loadLE_storeLE_disjoint (m : Mem) {a b n k : Nat} (v : Nat)
    (h : a + n ≤ b ∨ b + k ≤ a) : loadLE (storeLE m b k v) a n = loadLE m a n := by
  apply loadLE_congr
  intro i hi
  exact storeLE_outside m v (by omega)

theorem write_inside (m : Mem) (src : Nat → Byte) {a n i : Nat} (h : i < n) :
    write m a n src (a + i) = src i := by
  have bounds : a ≤ a + i ∧ a + i < a + n := by omega
  rw [write, if_pos bounds, Nat.add_sub_cancel_left]

theorem write_outside (m : Mem) (src : Nat → Byte) {a n x : Nat} (h : x < a ∨ a + n ≤ x) :
    write m a n src x = m x := by
  rw [write, if_neg (by omega)]

theorem fill_inside (m : Mem) (c : Byte) {a n x : Nat} (h : a ≤ x ∧ x < a + n) :
    fill m a n c x = c := by
  rw [fill, write, if_pos h]

theorem fill_outside (m : Mem) (c : Byte) {a n x : Nat} (h : x < a ∨ a + n ≤ x) :
    fill m a n c x = m x :=
  write_outside m _ h

private theorem loadLE_zero {m : Mem} {a n : Nat} (h : ∀ i < n, m (a + i) = 0) :
    loadLE m a n = 0 := by
  induction n generalizing a with
  | zero => rfl
  | succ n ih =>
    have head : m a = 0 := h 0 (Nat.succ_pos n)
    have tail : loadLE m (a + 1) n = 0 := by
      apply ih
      intro i hi
      rw [show a + 1 + i = a + (i + 1) by omega]
      exact h (i + 1) (by omega)
    simp [loadLE, head, tail]

def load64 (m : Mem) (a : Nat) : BitVec 64 := BitVec.ofNat 64 (loadLE m a 8)

def store64 (m : Mem) (a : Nat) (v : BitVec 64) : Mem := storeLE m a 8 v.toNat

theorem load64_store64 (m : Mem) (a : Nat) (v : BitVec 64) : load64 (store64 m a v) a = v := by
  have word : v.toNat % 256 ^ 8 = v.toNat := Nat.mod_eq_of_lt v.isLt
  rw [load64, store64, loadLE_storeLE, word, BitVec.ofNat_toNat, BitVec.setWidth_eq]

theorem store64_load64 (m : Mem) (a : Nat) : store64 m a (load64 m a) = m := by
  have word : 2 ^ 64 = 256 ^ 8 := by norm_num
  rw [store64, load64, BitVec.toNat_ofNat, word, Nat.mod_eq_of_lt (loadLE_lt m a 8), storeLE_loadLE]

theorem load64_store64_disjoint (m : Mem) {a b : Nat} (v : BitVec 64) (h : a + 8 ≤ b ∨ b + 8 ≤ a) :
    load64 (store64 m b v) a = load64 m a := by
  rw [load64, load64, store64, loadLE_storeLE_disjoint m _ h]

theorem store64_outside (m : Mem) {a x : Nat} (v : BitVec 64) (h : x < a ∨ a + 8 ≤ x) :
    store64 m a v x = m x :=
  storeLE_outside m _ h

theorem load64_congr {m m' : Mem} {a : Nat} (h : ∀ i < 8, m (a + i) = m' (a + i)) :
    load64 m a = load64 m' a := by
  rw [load64, load64, loadLE_congr h]

theorem load64_zero {m : Mem} {a : Nat} (h : ∀ i < 8, m (a + i) = 0) : load64 m a = 0 := by
  rw [load64, loadLE_zero h]
  rfl

end Algae.Lib.ByteMemory
