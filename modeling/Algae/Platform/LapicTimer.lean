/- The timer of the local APIC: its calibration against the PIT, and the count that a quantum
   in microseconds is programmed with. -/

import Mathlib.Tactic.Linarith
import Algae.Sdk.Defs

set_option autoImplicit false
set_option relaxedAutoImplicit false

namespace Algae.Platform.LapicTimer

def LAPIC_LVT_TMR : Nat := 0x0320

def LAPIC_DCR : Nat := 0x03E0

def LAPIC_INIT_CNT : Nat := 0x0380

def LAPIC_TMR_SAMPLES : BitVec 64 := 0xFFFF

def LAPIC_TMR_VEC : BitVec 32 := 0x81

def LVT_TMR_ONESHOT : BitVec 8 := 0

def I8254_DIVIDEND : BitVec 64 := 1193182

structure Mcb where
  lapicTmrFreq : BitVec 64

section Code

/-- The readings lie before and after the wait for the samples; `none` is a division by zero. -/
def lapicTimerInit (ticksStart ticksEnd : BitVec 16) : Option (BitVec 64) :=
  -- both operands are promoted to int
  let ticksTotal := BitVec.ofInt 64 ((ticksStart.toNat : Int) - ticksEnd.toNat)
  if ticksTotal = 0 then none
  else some (LAPIC_TMR_SAMPLES / ticksTotal * I8254_DIVIDEND)

def lapicTimerStart (mask : Bool) (mode : BitVec 8) (count : BitVec 32) : List (Nat × BitVec 32) :=
  let tmp := mode.setWidth 32 <<< 17 ||| (BitVec.ofBool mask).setWidth 32 <<< 16 ||| LAPIC_TMR_VEC
  [(LAPIC_LVT_TMR, tmp), (LAPIC_DCR, 0), (LAPIC_INIT_CNT, count)]

def lapicTimerOneshot (mask : Bool) (count : BitVec 64) : List (Nat × BitVec 32) :=
  lapicTimerStart mask LVT_TMR_ONESHOT (count.setWidth 32)

/-- `none` is the bug check without a current core. -/
def lapicTimerOneshotUsec (core : Option Mcb) (usec : BitVec 64) :
    Option (List (Nat × BitVec 32)) :=
  match core with
  | none => none
  | some mcb =>
    let ticks := usec * (mcb.lapicTmrFreq / 1000000)
    some (lapicTimerOneshot false ticks)

end Code

section Quantum

def initialCount (writes : List (Nat × BitVec 32)) : Option (BitVec 32) :=
  (writes.reverse.find? fun write => write.1 = LAPIC_INIT_CNT).map Prod.snd

/-- The calibration yields a positive frequency, and a quantum whose ticks fit the register is
programmed with exactly so many. -/
def QuantumExpires (ticksStart ticksEnd : BitVec 16) (usec : BitVec 64) : Prop :=
  ∃ frequency, lapicTimerInit ticksStart ticksEnd = some frequency ∧ 0 < frequency.toNat ∧
    (1 ≤ usec.toNat * frequency.toNat / 1000000 →
      usec.toNat * frequency.toNat / 1000000 ≤ 0xFFFFFFFF →
      ∃ writes count, lapicTimerOneshotUsec (some ⟨frequency⟩) usec = some writes ∧
        initialCount writes = some count ∧ count.toNat = usec.toNat * frequency.toNat / 1000000)

def frequencyOf (ticks : Nat) : Nat := 0xFFFF / ticks * 1193182

variable {ticksStart ticksEnd : BitVec 16}

private theorem frequencyOf_bounds {ticks : Nat} (some_tick : 1 ≤ ticks) (few : ticks ≤ 0xFFFF) :
    1193182 ≤ frequencyOf ticks ∧ frequencyOf ticks ≤ 0xFFFF * 1193182 := by
  have low : 1 ≤ 0xFFFF / ticks := (Nat.one_le_div_iff some_tick).mpr few
  have high : 0xFFFF / ticks ≤ 0xFFFF := Nat.div_le_self _ _
  rw [frequencyOf]
  omega

private theorem lapicTimerInit_down (down : ticksEnd.toNat < ticksStart.toNat) :
    ∃ frequency, lapicTimerInit ticksStart ticksEnd = some frequency ∧
      frequency.toNat = frequencyOf (ticksStart.toNat - ticksEnd.toNat) := by
  have start := ticksStart.isLt
  have bounds := @frequencyOf_bounds (ticksStart.toNat - ticksEnd.toNat) (by omega) (by omega)
  have total : BitVec.ofInt 64 ((ticksStart.toNat : Int) - ticksEnd.toNat) =
      BitVec.ofNat 64 (ticksStart.toNat - ticksEnd.toNat) := by
    rw [← Nat.cast_sub down.le, BitVec.ofInt_natCast]
  have value : (BitVec.ofNat 64 (ticksStart.toNat - ticksEnd.toNat)).toNat =
      ticksStart.toNat - ticksEnd.toNat := by
    rw [BitVec.toNat_ofNat]
    omega
  have nonzero : BitVec.ofNat 64 (ticksStart.toNat - ticksEnd.toNat) ≠ 0 := by
    intro zero
    rw [zero] at value
    change 0 = _ at value
    omega
  refine ⟨LAPIC_TMR_SAMPLES / BitVec.ofNat 64 (ticksStart.toNat - ticksEnd.toNat) * I8254_DIVIDEND,
    ?_, ?_⟩
  · rw [lapicTimerInit, total]
    exact if_neg nonzero
  · rw [BitVec.toNat_mul, BitVec.toNat_udiv, value]
    change 0xFFFF / (ticksStart.toNat - ticksEnd.toNat) * 1193182 % 2 ^ 64 = frequencyOf _
    rw [frequencyOf] at bounds ⊢
    omega

private theorem lapicTimerInit_wrapped (wrapped : ticksStart.toNat < ticksEnd.toNat)
    {frequency : BitVec 64}
    (init : lapicTimerInit ticksStart ticksEnd = some frequency) : frequency = 0 := by
  have end_bound := ticksEnd.isLt
  have total : (BitVec.ofInt 64 ((ticksStart.toNat : Int) - ticksEnd.toNat)).toNat =
      0x10000000000000000 - (ticksEnd.toNat - ticksStart.toNat) := by
    rw [BitVec.toNat_ofInt]
    omega
  rw [lapicTimerInit] at init
  split at init
  · cases init
  · have none :
        LAPIC_TMR_SAMPLES / BitVec.ofInt 64 ((ticksStart.toNat : Int) - ticksEnd.toNat) = 0 := by
      apply BitVec.eq_of_toNat_eq
      rw [BitVec.toNat_udiv, total]
      change 0xFFFF / (0x10000000000000000 - (ticksEnd.toNat - ticksStart.toNat)) = 0
      exact Nat.div_eq_of_lt (by omega)
    rw [← Option.some.inj init, none]
    exact BitVec.zero_mul

private theorem lapicTimerInit_equal (ticks : BitVec 16) : lapicTimerInit ticks ticks = none := by
  rw [lapicTimerInit, Int.sub_self]
  exact if_pos rfl

private theorem ticks_split (usec frequency : Nat) : usec * frequency / 1000000 =
    usec * (frequency / 1000000) + usec * (frequency % 1000000) / 1000000 := by
  conv_lhs => rw [← Nat.div_add_mod frequency 1000000, Nat.mul_add, Nat.mul_left_comm]
  rw [Nat.mul_add_div (by decide)]

private theorem lapicTimerOneshotUsec_count (mcb : Mcb) (usec : BitVec 64) :
    ∃ writes, lapicTimerOneshotUsec (some mcb) usec = some writes ∧
      initialCount writes = some ((usec * (mcb.lapicTmrFreq / 1000000)).setWidth 32) :=
  ⟨_, rfl, rfl⟩

/-- A quantum expires exactly if the PIT did not wrap and the part of the frequency below a
megahertz makes no tick. -/
theorem quantum_expires_iff (ticksStart ticksEnd : BitVec 16) (usec : BitVec 64)
    (asked : 1 ≤ usec.toNat) :
    QuantumExpires ticksStart ticksEnd usec ↔ ticksEnd.toNat < ticksStart.toNat ∧
      (usec.toNat * frequencyOf (ticksStart.toNat - ticksEnd.toNat) / 1000000 ≤ 0xFFFFFFFF →
        usec.toNat * (frequencyOf (ticksStart.toNat - ticksEnd.toNat) % 1000000) < 1000000) := by
  rcases Nat.lt_trichotomy ticksEnd.toNat ticksStart.toNat with down | equal | wrapped
  · obtain ⟨frequency, init, value⟩ := lapicTimerInit_down down
    have start := ticksStart.isLt
    have bounds := @frequencyOf_bounds (ticksStart.toNat - ticksEnd.toNat) (by omega) (by omega)
    rw [← value] at bounds ⊢
    have ticks := ticks_split usec.toNat frequency.toNat
    have some_tick : usec.toNat * 1 ≤ usec.toNat * (frequency.toNat / 1000000) :=
      Nat.mul_le_mul_left _ (by omega)
    obtain ⟨writes, call, count⟩ := lapicTimerOneshotUsec_count ⟨frequency⟩ usec
    have programmed : usec.toNat * frequency.toNat / 1000000 ≤ 0xFFFFFFFF →
        ((usec * (frequency / 1000000)).setWidth 32).toNat = usec.toNat *
          (frequency.toNat / 1000000) := by
      intro fits
      rw [BitVec.toNat_setWidth, BitVec.toNat_mul, BitVec.toNat_udiv]
      change usec.toNat * (frequency.toNat / 1000000) % 2 ^ 64 % 2 ^ 32 = _
      omega
    constructor
    · rintro ⟨frequency', init', _, exact_count⟩
      obtain rfl := Option.some.inj (init.symm.trans init')
      refine ⟨down, ?_⟩
      intro fits
      obtain ⟨writes', count', call', count_is, equal⟩ := exact_count (by omega) fits
      rw [call] at call'
      obtain rfl := Option.some.inj call'
      rw [count] at count_is
      rw [← Option.some.inj count_is, programmed fits] at equal
      omega
    · rintro ⟨_, small⟩
      refine ⟨frequency, init, by omega, ?_⟩
      intro _ fits
      refine ⟨writes, _, call, count, ?_⟩
      have none : usec.toNat * (frequency.toNat % 1000000) / 1000000 = 0 :=
        Nat.div_eq_of_lt (small fits)
      rw [programmed fits, ticks, none, Nat.add_zero]
  · refine iff_of_false ?_ (by omega)
    rintro ⟨frequency, init, _⟩
    obtain rfl : ticksEnd = ticksStart := BitVec.eq_of_toNat_eq equal
    rw [lapicTimerInit_equal] at init
    cases init
  · refine iff_of_false ?_ (by omega)
    rintro ⟨frequency, init, positive, _⟩
    rw [lapicTimerInit_wrapped wrapped init] at positive
    exact absurd positive (by decide)

theorem quantum_expires_iff_microsecond :
    1 ≤ (1 : BitVec 64).toNat ∧ QuantumExpires 0xFF00 0xFE00 1 :=
  ⟨by decide, (quantum_expires_iff 0xFF00 0xFE00 1 (by decide)).mpr ⟨by decide, by decide⟩⟩

/-- Two readings that are the same divide by zero. -/
theorem equal_readings_divide_by_zero :
    lapicTimerInit 0xFFFF 0xFFFF = none ∧ ¬QuantumExpires 0xFFFF 0xFFFF 1 := by
  refine ⟨rfl, ?_⟩
  rintro ⟨frequency, init, _⟩
  cases init

end Quantum

end Algae.Platform.LapicTimer
