/- Sleeping on the main counter of the HPET: the deadline is computed from whole ticks of the
   units, modulo 2^64. -/

import Algae.Sdk.Defs

set_option autoImplicit false
set_option relaxedAutoImplicit false

namespace Algae.Platform.Hpet

open Algae.Sdk.Defs

section Code

def capClkPeriod (caps : BitVec 64) : BitVec 64 := caps >>> 32

def capRevId (caps : BitVec 64) : BitVec 64 := caps &&& 0xFF

/-- kiHpetInit bug checks on other capabilities; its `clkPeriod` is a ULONG and `revId` a UCHAR. -/
def kiHpetInitAccepts (caps : BitVec 64) : Prop :=
  (capClkPeriod caps).setWidth 32 ≠ (0 : BitVec 32) ∧
    (capClkPeriod caps).setWidth 32 ≤ (0x05F5E100 : BitVec 32) ∧
    (capRevId caps).setWidth 8 ≠ (0 : BitVec 8)

instance (caps : BitVec 64) : Decidable (kiHpetInitAccepts caps) :=
  inferInstanceAs (Decidable (_ ∧ _ ∧ _))

/-- At most `fuel` readings from the `k`-th on, which is the one it returns if it stops there. -/
def sleepLoop (counter : Nat → BitVec 64) (ticks : BitVec 64) : Nat → Nat → Option Nat
  | 0, _ => none
  | fuel + 1, k => if counter k < ticks then sleepLoop counter ticks fuel (k + 1) else some k

/-- `counter` are the values that the main counter is read with, one after another; the number
returned is that of the last reading. -/
def hpetSleep (caps : BitVec 64) (counter : Nat → BitVec 64) (fuel : Nat) (n units : BitVec 64) :
    Option (NtStatus × Nat) :=
  let period := capClkPeriod caps
  let ticks := counter 0 + n * (units / period)
  (sleepLoop counter ticks fuel 1).map fun k => (.success, k)

def hpetMsleep (caps : BitVec 64) (counter : Nat → BitVec 64) (fuel : Nat) (ms : BitVec 64) :
    Option (NtStatus × Nat) :=
  hpetSleep caps counter fuel ms 1000000000000

end Code

section Sleep

variable {counter : Nat → BitVec 64} {ticks : BitVec 64}

private theorem sleepLoop_stops {fuel k last : Nat}
    (stops : sleepLoop counter ticks fuel k = some last) :
    k ≤ last ∧ ticks ≤ counter last ∧ ∀ j, k ≤ j → j < last → counter j < ticks := by
  induction fuel generalizing k with
  | zero => cases stops
  | succ fuel ih =>
    rw [sleepLoop] at stops
    split at stops
    · rename_i early
      obtain ⟨after, reached, before⟩ := ih stops
      refine ⟨by omega, reached, ?_⟩
      intro j from_k to_last
      rcases Nat.eq_or_lt_of_le from_k with rfl | later
      · exact early
      · exact before j later to_last
    · rename_i late
      obtain rfl := Option.some.inj stops
      refine ⟨Nat.le_refl k, BitVec.not_lt.mp late, ?_⟩
      intro j from_k to_last
      omega

end Sleep

section Milliseconds

/-- Whenever a sleep of `n` milliseconds that first reads `first` returns, that many have passed
on the counter, however it goes on. -/
def SleepsLongEnough (caps first n : BitVec 64) : Prop :=
  ∀ counter : Nat → BitVec 64, counter 0 = first → (∀ i j, i ≤ j → counter i ≤ counter j) →
    ∀ fuel status last, hpetMsleep caps counter fuel n = some (status, last) →
      n.toNat * 1000000000000 ≤ ((counter last).toNat - first.toNat) * (capClkPeriod caps).toNat

private theorem ticks_toNat (caps first n : BitVec 64) :
    (first + n * (1000000000000 / capClkPeriod caps)).toNat =
      (first.toNat + n.toNat * (1000000000000 / (capClkPeriod caps).toNat)) %
      0x10000000000000000 := by
  rw [BitVec.toNat_add, BitVec.toNat_mul, BitVec.toNat_udiv]
  change (first.toNat + n.toNat * (1000000000000 / (capClkPeriod caps).toNat) % 2 ^ 64) % 2 ^ 64 = _
  rw [Nat.add_mod_mod]

/-- A counter that stands still until it is read the second time and then jumps. -/
private def jump (first target : BitVec 64) : Nat → BitVec 64 :=
  fun k => if k = 0 then first else target

private theorem jump_mono {first target : BitVec 64} (ahead : first ≤ target) :
    ∀ i j, i ≤ j → jump first target i ≤ jump first target j := by
  intro i j le
  unfold jump
  split
  · split
    · exact BitVec.le_refl _
    · exact ahead
  · rw [if_neg (by omega)]
    exact BitVec.le_refl _

private theorem advance_of_sleepsLongEnough {caps first n target : BitVec 64}
    (ahead : first ≤ target) (reached : first + n * (1000000000000 / capClkPeriod caps) ≤ target)
    (long : SleepsLongEnough caps first n) :
    n.toNat * 1000000000000 ≤ (target.toNat - first.toNat) * (capClkPeriod caps).toNat := by
  have run : hpetMsleep caps (jump first target) 1 n = some (.success, 1) := by
    have stop : ¬jump first target 1 < first + n * (1000000000000 / capClkPeriod caps) :=
      BitVec.not_lt.mpr reached
    change (sleepLoop (jump first target) (first + n * (1000000000000 / capClkPeriod caps))
      1 1).map _ = _
    rw [sleepLoop, if_neg stop]
    rfl
  exact long (jump first target) rfl (jump_mono ahead) 1 .success 1 run

/-- A sleep lasts as long as asked for exactly if it is for nothing, or a tick of the counter
divides the millisecond and the deadline does not wrap. -/
theorem sleep_long_enough_iff (caps first n : BitVec 64) (positive : 1 ≤ (capClkPeriod caps).toNat)
    (bounded : (capClkPeriod caps).toNat ≤ 0x05F5E100) :
    SleepsLongEnough caps first n ↔ n = 0 ∨ (capClkPeriod caps).toNat ∣ 1000000000000 ∧
      first.toNat + n.toNat * (1000000000000 / (capClkPeriod caps).toNat) <
        0x10000000000000000 := by
  set period := (capClkPeriod caps).toNat with period_eq
  set perMs := 1000000000000 / period with perMs_eq
  have ticks := ticks_toNat caps first n
  rw [← period_eq, ← perMs_eq] at ticks
  have whole : perMs * period ≤ 1000000000000 := Nat.div_mul_le_self _ _
  have some_tick : 1 ≤ perMs := (Nat.one_le_div_iff positive).mpr (by omega)
  constructor
  · intro long
    by_contra neither
    obtain ⟨asked, inexact⟩ := not_or.mp neither
    have n_pos : 1 ≤ n.toNat :=
      Nat.one_le_iff_ne_zero.mpr fun zero => asked (BitVec.eq_of_toNat_eq zero)
    have bound := n.isLt
    have first_bound := first.isLt
    by_cases wraps : first.toNat + n.toNat * perMs < 0x10000000000000000
    · -- the deadline falls short by the part of a tick in each millisecond
      rw [Nat.mod_eq_of_lt wraps] at ticks
      have advance := advance_of_sleepsLongEnough (BitVec.le_def.mpr (by omega))
        (BitVec.le_refl (first + n * (1000000000000 / capClkPeriod caps))) long
      rw [ticks, Nat.add_sub_cancel_left, ← period_eq, Nat.mul_assoc] at advance
      have exact_ms : perMs * period = 1000000000000 :=
        le_antisymm whole (Nat.le_of_mul_le_mul_left advance n_pos)
      exact inexact ⟨⟨perMs, by rw [Nat.mul_comm]; exact exact_ms.symm⟩, wraps⟩
    · by_cases passed : (first + n * (1000000000000 / capClkPeriod caps)).toNat ≤ first.toNat
      · have advance :=
          advance_of_sleepsLongEnough (BitVec.le_refl first) (BitVec.le_def.mpr passed) long
        rw [Nat.sub_self, Nat.zero_mul] at advance
        omega
      · have advance := advance_of_sleepsLongEnough (BitVec.le_def.mpr (by omega))
          (BitVec.le_refl (first + n * (1000000000000 / capClkPeriod caps))) long
        rw [← period_eq] at advance
        have early :
            (first + n * (1000000000000 / capClkPeriod caps)).toNat - first.toNat <
              n.toNat * perMs := by
          have := (first + n * (1000000000000 / capClkPeriod caps)).isLt
          omega
        have less : (n.toNat * perMs) * period ≤ n.toNat * 1000000000000 := by
          rw [Nat.mul_assoc]
          exact Nat.mul_le_mul_left _ whole
        have strict := Nat.mul_lt_mul_of_pos_right early positive
        omega
  · rintro (rfl | ⟨divides, wraps⟩) counter start mono fuel status last run
    · rw [show (0 : BitVec 64).toNat = 0 from rfl, Nat.zero_mul]
      exact Nat.zero_le _
    · obtain ⟨k, stops, pair⟩ := Option.map_eq_some_iff.mp run
      obtain rfl : k = last := (Prod.mk.inj pair).2
      have reached := BitVec.le_def.mp (sleepLoop_stops stops).2.1
      rw [start, ticks, Nat.mod_eq_of_lt wraps] at reached
      have enough : n.toNat * perMs ≤ (counter k).toNat - first.toNat := by omega
      calc n.toNat * 1000000000000 = n.toNat * perMs * period := by
            rw [Nat.mul_assoc, Nat.div_mul_cancel divides]
        _ ≤ ((counter k).toNat - first.toNat) * period := Nat.mul_le_mul_right _ enough

theorem sleep_long_enough_iff_even : (1 ≤ (capClkPeriod 0x05F5E10000000001).toNat ∧
    (capClkPeriod 0x05F5E10000000001).toNat ≤ 0x05F5E100) ∧
    SleepsLongEnough 0x05F5E10000000001 0 10 :=
  ⟨by decide, (sleep_long_enough_iff 0x05F5E10000000001 0 10 (by decide) (by decide)).mpr
    (Or.inr ⟨by decide, by decide⟩)⟩

/-- With the usual 14.318 MHz a millisecond is one of 14318 ticks, which are less. -/
theorem usual_period_sleeps_short : kiHpetInitAccepts 0x0429B17F00000001 ∧
    ¬SleepsLongEnough 0x0429B17F00000001 0 1 := by
  refine ⟨by decide, ?_⟩
  intro long
  exact absurd (@advance_of_sleepsLongEnough _ _ _ 14318 (by decide) (by decide) long) (by decide)

end Milliseconds

end Algae.Platform.Hpet
