/- The kernel string library: memory fills and copies, and comparisons. -/

import Algae.Lib.ByteImage

set_option autoImplicit false
set_option relaxedAutoImplicit false

namespace Algae.Rtl.String

open Algae.Lib.ByteImage Algae.Lib.ByteMemory

def rtlMemset (m : Mem) (s : Nat) (c : Byte) : Nat → Mem
  | 0 => m
  | n + 1 => Function.update (rtlMemset m s c n) (s + n) c

/-- Copy `n` bytes of `src`, an object apart from the destination, to `dest`. -/
def rtlMemcpy (m : Mem) (dest : Nat) (src : Nat → Byte) : Nat → Mem
  | 0 => m
  | n + 1 => Function.update (rtlMemcpy m dest src n) (dest + n) (src n)

abbrev CChar := {c : Byte // c ≠ 0}

theorem blank_ne_nul : (0x20 : Byte) ≠ 0 := by decide

theorem slash_ne_nul : (0x2F : Byte) ≠ 0 := by decide

theorem d_ne_nul : (0x64 : Byte) ≠ 0 := by decide

theorem x_ne_nul : (0x78 : Byte) ≠ 0 := by decide

abbrev CString := List CChar

def slash : CChar := ⟨0x2F, slash_ne_nul⟩

def rtlStrcmp : CString → CString → Int
  | [], [] => 0
  | [], c :: _ => 0 - (c.val.toNat : Int)
  | c :: _, [] => (c.val.toNat : Int) - 0
  | c :: s, d :: t => if c = d then rtlStrcmp s t else (c.val.toNat : Int) - d.val.toNat

theorem rtlStrcmp_eq_zero (s t : CString) : rtlStrcmp s t = 0 ↔ s = t := by
  have nonzero : ∀ c : CChar, c.val.toNat ≠ 0 := by
    intro c zero
    exact c.property (BitVec.eq_of_toNat_eq (zero.trans (BitVec.toNat_ofNat 0 8).symm))
  induction s generalizing t with
  | nil =>
    cases t with
    | nil => simp [rtlStrcmp]
    | cons d t => simp [rtlStrcmp, nonzero d]
  | cons c s ih =>
    cases t with
    | nil => simp [rtlStrcmp, nonzero c]
    | cons d t =>
      by_cases same : c = d
      · simp [rtlStrcmp, same, ih]
      · have apart : (c.val.toNat : Int) - d.val.toNat ≠ 0 := by
          intro zero
          exact same (Subtype.ext (BitVec.eq_of_toNat_eq (by omega)))
        simp [rtlStrcmp, same, apart]

def cString : List Byte → CString
  | [] => []
  | c :: s => if nonzero : c ≠ 0 then ⟨c, nonzero⟩ :: cString s else []

def CString.bytes (s : CString) : List Byte := s.map Subtype.val

theorem cString_bytes (s : CString) : cString (CString.bytes s) = s := by
  induction s with
  | nil => rfl
  | cons c s ih =>
    have here := c.property
    rw [CString.bytes, List.map_cons, cString, dif_pos here]
    exact congrArg (c :: ·) ih

theorem cString_bytes_nul (s : CString) (rest : List Byte) :
    cString (CString.bytes s ++ 0 :: rest) = s := by
  induction s with
  | nil => simp [CString.bytes, cString]
  | cons c s ih =>
    have here := c.property
    rw [CString.bytes, List.map_cons, List.cons_append, cString, dif_pos here]
    exact congrArg (c :: ·) ih

theorem cString_length_le (s : List Byte) : (cString s).length ≤ s.length := by
  induction s with
  | nil => exact Nat.le_refl 0
  | cons c s ih =>
    rw [cString]
    split
    · exact Nat.succ_le_succ ih
    · exact Nat.zero_le _

/-- Compare the bytes at a pointer with a constant; `none` is a read past the last byte. -/
def rtlMemcmp : List Byte → List Byte → Option Int
  | _, [] => some 0
  | [], _ :: _ => none
  | a :: s, b :: t => if a = b then rtlMemcmp s t else some ((a.toNat : Int) - b.toNat)

theorem rtlMemcmp_startsWith (s t : List Byte) :
    (rtlMemcmp s t).map (fun diff => decide (diff = 0)) = startsWith s t := by
  induction t generalizing s with
  | nil => simp [rtlMemcmp, startsWith]
  | cons b t ih =>
    cases s with
    | nil => rfl
    | cons a s =>
      by_cases same : a = b
      · simp [rtlMemcmp, startsWith, same, ih]
      · have apart : (a.toNat : Int) - b.toNat ≠ 0 := by
          intro zero
          exact same (BitVec.eq_of_toNat_eq (by omega))
        simp [rtlMemcmp, startsWith, same, apart]

theorem rtlMemcpy_eq_write (m : Mem) (dest : Nat) (src : Nat → Byte) (n : Nat) :
    rtlMemcpy m dest src n = write m dest n src := by
  induction n with
  | zero =>
    funext x
    rw [write_outside _ _ (by omega), rtlMemcpy]
  | succ n ih =>
    funext x
    rw [rtlMemcpy, ih]
    by_cases last : x = dest + n
    · subst last
      rw [Function.update_self, write_inside _ _ (Nat.lt_succ_self n)]
    · rw [Function.update_of_ne last]
      by_cases inside : dest ≤ x ∧ x < dest + n
      · obtain ⟨i, rfl⟩ := Nat.exists_eq_add_of_le inside.1
        rw [write_inside _ _ (by omega), write_inside _ _ (by omega)]
      · rw [write_outside _ _ (by omega), write_outside _ _ (by omega)]

theorem rtlMemset_eq_fill (m : Mem) (s : Nat) (c : Byte) (n : Nat) :
    rtlMemset m s c n = fill m s n c := by
  have as_copy : ∀ k, rtlMemset m s c k = rtlMemcpy m s (fun _ => c) k := by
    intro k
    induction k with
    | zero => rfl
    | succ k ih => rw [rtlMemset, rtlMemcpy, ih]
  rw [as_copy, rtlMemcpy_eq_write, fill]

end Algae.Rtl.String
