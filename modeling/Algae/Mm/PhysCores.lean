/- The frame allocator as the processors share it: mmAllocFrame and mmFreeFrame bit by bit, under
   the spinlock that they take. -/

import Algae.Lib.LockedCalls
import Algae.Mm.PhysRuns

set_option autoImplicit false
set_option relaxedAutoImplicit false

namespace Algae.Mm.PhysCores

open Relation (ReflTransGen)
open Algae.Lib.FirstFit Algae.Lib.LockedCalls
open Algae.Sdk.Defs Algae.Rtl.String Algae.Mm.Phys Algae.Mm.PhysRuns

inductive FrameCall
  | mmAllocFrame (count : Nat)
  | mmFreeFrame (base count : Nat)

/-- Where a processor is between the two calls of the lock. `again` is the second search, and
`searched` is where mmDoAllocFrames has returned. -/
inductive FramePc
  | counters (count : Nat)
  | scan (count : Nat) (again : Bool) (remaining i : Nat) (idx nFrames : Int)
  | found (count : Nat) (again : Bool) (idx nFrames : Int)
  | mark (count : Nat) (again : Bool) (idx : Int) (i n : Nat)
  | zero (count : Nat) (again : Bool) (idx : Int)
  | searched (count : Nat) (again : Bool) (ret : Nat)
  | align (base count : Nat)
  | clear (stop_at fuel p : Nat)

def counted (s : PhysState) (count : Nat) : PhysState :=
  { s with
    framesUsed := (s.framesUsed + count) % 0x10000000000000000
    framesFree := toUSize (s.framesFree - count) }

/-- One step: a turn of a loop, or what stands between two loops. -/
def frameStep : FramePc → PhysState → (FramePc × PhysState) ⊕ Nat
  | .counters count, s =>
    .inl (.scan count false s.highestFrameIdx 0 (-1) 0, counted s count)
  | .scan count again 0 _ idx nFrames, s => .inl (.found count again idx nFrames, s)
  | .scan count again (remaining + 1) i idx nFrames, s =>
    if testBit s.bitmap i = false then
      let idx := if idx < 0 then toQuad i else idx
      if toUSize nFrames ≥ count then
        .inl (.found count again idx (toLong (nFrames + 1)), s)
      else
        .inl (.scan count again remaining (i + 1) idx (toLong (nFrames + 1)), s)
    else
      .inl (.scan count again remaining (i + 1) (-1) 0, s)
  | .found count again idx nFrames, s =>
    if idx < 0 ∨ toUSize (toLong (nFrames - 1)) < count then
      .inl (.searched count again 0, s)
    else
      let start := toUSize idx
      let stop := (start + count) % 0x10000000000000000
      .inl (.mark count again idx start (stop - start), s)
  | .mark count again idx _ 0, s => .inl (.zero count again idx, s)
  | .mark count again idx i (n + 1), s =>
    .inl (.mark count again idx (i + 1) n, { s with bitmap := setBit s.bitmap i })
  | .zero count again idx, s =>
    let ret := toUSize (toQuad (idx * PAGESIZE))
    .inl (.searched count again ret, { s with
      lastIdx := toUSize idx
      mem := rtlMemset s.mem ret 0 (count * PAGESIZE % 0x10000000000000000) })
  | .searched count again ret, s =>
    if ret = 0 ∧ again = false then
      .inl (.scan count true s.highestFrameIdx 0 (-1) 0, { s with lastIdx := 0 })
    else
      .inr ret
  | .align base count, s =>
    let p := pageAlignUp base
    let stop_at := (p + count * PAGESIZE) % 0x10000000000000000
    .inl (.clear stop_at (stop_at - p) p, s)
  | .clear _ 0 _, _ => .inr 0
  | .clear stop_at (fuel + 1) p, s =>
    if p < stop_at then
      .inl (.clear stop_at fuel ((p + PAGESIZE) % 0x10000000000000000),
        { s with bitmap := clrBit s.bitmap (p / PAGESIZE) })
    else
      .inr 0

def frameBody : Body PhysState FrameCall FramePc Nat where
  early _ _ := none
  start
    | .mmAllocFrame count => .counters count
    | .mmFreeFrame base count => .align base count
  step := frameStep

section Alone

private theorem scan_path (s : PhysState) (count : Nat) (again : Bool) (remaining : Nat) :
    ∀ (i : Nat) (idx nFrames : Int),
      ReflTransGen frameBody.Next (.scan count again remaining i idx nFrames, s)
      (.found count again (scanFrames s.bitmap count remaining i idx nFrames).1
        (scanFrames s.bitmap count remaining i idx nFrames).2, s) := by
  induction remaining with
  | zero => exact fun i idx nFrames => .single rfl
  | succ remaining ih =>
    intro i idx nFrames
    rw [scanFrames]
    split
    · rename_i clear
      dsimp only
      split
      · rename_i enough
        refine .single ?_
        simp only [Body.Next, frameBody, frameStep, if_pos clear, if_pos enough]
      · rename_i short
        refine .head ?_ (ih _ _ _)
        simp only [Body.Next, frameBody, frameStep, if_pos clear, if_neg short]
    · rename_i used
      refine .head ?_ (ih _ _ _)
      simp only [Body.Next, frameBody, frameStep, if_neg used]

private theorem mark_path (count : Nat) (again : Bool) (idx : Int) (n : Nat) :
    ∀ (i : Nat) (s : PhysState), ReflTransGen frameBody.Next (.mark count again idx i n, s)
      (.zero count again idx, { s with bitmap := setFrames s.bitmap i n }) := by
  induction n with
  | zero => exact fun i s => .single rfl
  | succ n ih => exact fun i s => .head rfl (ih _ { s with bitmap := setBit s.bitmap i })

private theorem search_path (s : PhysState) (count : Nat) (again : Bool) :
    ReflTransGen frameBody.Next (.scan count again s.highestFrameIdx 0 (-1) 0, s)
      (.searched count again (mmDoAllocFrames s count).1, (mmDoAllocFrames s count).2) := by
  refine (scan_path s count again s.highestFrameIdx 0 (-1) 0).trans ?_
  unfold mmDoAllocFrames
  generalize scanFrames s.bitmap count s.highestFrameIdx 0 (-1) 0 = result
  obtain ⟨idx, nFrames⟩ := result
  dsimp only
  split
  · rename_i failed
    refine .single ?_
    simp only [Body.Next, frameBody, frameStep, if_pos failed]
  · rename_i served
    refine .head (b := (.mark count again idx (toUSize idx)
      ((toUSize idx + count) % 0x10000000000000000 - toUSize idx), s)) ?_
        ((mark_path _ _ _ _ _ _).tail ?_)
    · simp only [Body.Next, frameBody, frameStep, if_neg served]
    · rfl

private theorem alloc_completes (s : PhysState) (count : Nat) :
    frameBody.Completes (.mmAllocFrame count) s (mmAllocFrame s count).1
      (mmAllocFrame s count).2 := by
  have start : frameBody.Next (frameBody.start (.mmAllocFrame count), s)
      (.scan count false (counted s count).highestFrameIdx 0 (-1) 0, counted s count) := rfl
  have first := ReflTransGen.head start (search_path (counted s count) count false)
  have eq : mmAllocFrame s count =
      if (mmDoAllocFrames (counted s count) count).1 = 0 then
        mmDoAllocFrames { (mmDoAllocFrames (counted s count) count).2 with lastIdx := 0 } count
      else
        mmDoAllocFrames (counted s count) count := rfl
  by_cases zero : (mmDoAllocFrames (counted s count) count).1 = 0
  · rw [eq, if_pos zero]
    have second :=
      search_path { (mmDoAllocFrames (counted s count) count).2 with lastIdx := 0 } count true
    refine ⟨_, first.trans (.head ?_ second), ?_⟩
    · simp only [Body.Next, frameBody, frameStep, zero, true_and, if_true]
    · simp only [frameBody, frameStep, Bool.true_eq_false, and_false, if_false]
  · rw [eq, if_neg zero]
    refine ⟨_, first, ?_⟩
    simp only [frameBody, frameStep, zero, false_and, if_false]

private theorem clear_completes (stop_at fuel : Nat) :
    ∀ (p : Nat) (s : PhysState), ∃ m,
      ReflTransGen frameBody.Next (.clear stop_at fuel p, s)
        (m, { s with bitmap := clearPages s.bitmap stop_at fuel p }) ∧
        frameStep m { s with bitmap := clearPages s.bitmap stop_at fuel p } = .inr 0 := by
  induction fuel with
  | zero => exact fun p s => ⟨_, .refl, rfl⟩
  | succ fuel ih =>
    intro p s
    rw [clearPages]
    split
    · rename_i more
      obtain ⟨m, path, last⟩ :=
        ih ((p + PAGESIZE) % 0x10000000000000000)
          { s with bitmap := clrBit s.bitmap (p / PAGESIZE) }
      refine ⟨m, .head ?_ path, last⟩
      simp only [Body.Next, frameBody, frameStep, if_pos more]
    · rename_i past
      refine ⟨_, .refl, ?_⟩
      simp only [frameStep, if_neg past]

private theorem free_completes (s : PhysState) (base count : Nat) :
    frameBody.Completes (.mmFreeFrame base count) s 0 (mmFreeFrame s base count) := by
  obtain ⟨m, path, last⟩ :=
    clear_completes ((pageAlignUp base + count * PAGESIZE) % 0x10000000000000000)
    ((pageAlignUp base + count * PAGESIZE) % 0x10000000000000000 - pageAlignUp base)
      (pageAlignUp base) s
  exact ⟨m, .head rfl path, last⟩

private theorem frame_completes (c : FrameCall) (s : PhysState) :
    ∃ r s', frameBody.Completes c s r s' := by
  cases c with
  | mmAllocFrame count => exact ⟨_, _, alloc_completes s count⟩
  | mmFreeFrame base count => exact ⟨_, _, free_completes s base count⟩

end Alone

section Shared

variable {ι : Type} [DecidableEq ι]

/-- Calls one after the other, the last one first, with what they returned. -/
inductive OneByOne (s₀ : PhysState) : List (ι × FrameCall × Nat) → PhysState → Prop
  | nil : OneByOne s₀ [] s₀
  | alloc {h : List (ι × FrameCall × Nat)} {s : PhysState} (before : OneByOne s₀ h s) (i : ι)
    (count : Nat) :
      OneByOne s₀ ((i, .mmAllocFrame count, (mmAllocFrame s count).1) :: h) (mmAllocFrame s count).2
  | free {h : List (ι × FrameCall × Nat)} {s : PhysState} (before : OneByOne s₀ h s) (i : ι)
    (base count : Nat) :
      OneByOne s₀ ((i, .mmFreeFrame base count, 0) :: h) (mmFreeFrame s base count)

omit [DecidableEq ι] in
private theorem oneByOne_of_serial {s₀ s : PhysState} {h : List (ι × FrameCall × Nat)}
    (serial : Serial frameBody s₀ h s) :
    OneByOne s₀ h s := by
  induction serial with
  | nil => exact OneByOne.nil
  | @cons h s s' i c r _ call ih =>
    cases c with
    | mmAllocFrame count =>
      obtain ⟨rfl, rfl⟩ := call.unique _ (alloc_completes s count)
      exact OneByOne.alloc ih i count
    | mmFreeFrame base count =>
      obtain ⟨rfl, rfl⟩ := call.unique _ (free_completes s base count)
      exact OneByOne.free ih i base count

/-- The blocks that are live after the calls, where each asks for a frame at least or frees a block
that is live. -/
inductive LiveAfter : List (ι × FrameCall × Nat) → List Block → Prop
  | nil : LiveAfter [] []
  | refused {h : List (ι × FrameCall × Nat)} {live : List Block} {i : ι} {count : Nat}
    (before : LiveAfter h live)
      (positive : 1 ≤ count) : LiveAfter ((i, .mmAllocFrame count, 0) :: h) live
  | alloc {h : List (ι × FrameCall × Nat)} {live : List Block} {i : ι} {count ret : Nat}
    (before : LiveAfter h live)
      (positive : 1 ≤ count) (nonzero : ret ≠ 0) :
      LiveAfter ((i, .mmAllocFrame count, ret) :: h) (⟨ret, count⟩ :: live)
  | free {h : List (ι × FrameCall × Nat)} {live : List Block} {i : ι} {b : Block}
    (before : LiveAfter h live)
      (member : b ∈ live) : LiveAfter ((i, .mmFreeFrame b.base b.count, 0) :: h) (live.erase b)

omit [DecidableEq ι] in
private theorem frameRun_of_oneByOne {s₀ s : PhysState} {h : List (ι × FrameCall × Nat)}
    {live : List Block}
    (calls : OneByOne s₀ h s) (after : LiveAfter h live) : FrameRun s₀ s live := by
  induction after generalizing s with
  | nil =>
    cases calls
    exact FrameRun.start
  | @refused h live i count _ positive ih =>
    generalize zero : 0 = ret at calls
    cases calls with
    | alloc before => exact FrameRun.failed (ih before) positive zero.symm
  | @alloc h live i count ret _ positive nonzero ih =>
    cases calls with
    | alloc before => exact FrameRun.alloc (ih before) positive nonzero
  | @free h live i b _ member ih =>
    cases calls with
    | free before => exact FrameRun.free (ih before) member

def bothCalled : System Bool PhysState FrameCall FramePc Nat where
  lock := false
  shared := eightFrames
  phase i := if i then .waiting (.mmAllocFrame 2) else .waiting (.mmAllocFrame 1)
  history := []

private theorem bothCalled_reached :
    ReflTransGen (Step frameBody) (System.start eightFrames) bothCalled := by
  let first : System Bool PhysState FrameCall FramePc Nat :=
    ⟨false, eightFrames, Function.update (fun _ => .idle) true (.waiting (.mmAllocFrame 2)), []⟩
  have called : Step frameBody (System.start eightFrames) first :=
    Step.call (FrameCall.mmAllocFrame 2) rfl rfl
  have idle : first.phase false = .idle := rfl
  have phases :
      Function.update first.phase false (.waiting (.mmAllocFrame 1)) = bothCalled.phase := by
    funext i
    cases i <;> rfl
  have both :
      Step frameBody first
        { first with phase := Function.update first.phase false (.waiting (.mmAllocFrame 1)) } :=
    Step.call (FrameCall.mmAllocFrame 1) idle rfl
  rw [phases] at both
  exact (ReflTransGen.single called).tail both

theorem small_run : ∃ S : System Bool PhysState FrameCall FramePc Nat,
    ReflTransGen (Step frameBody) (System.start eightFrames) S ∧
      S.history = [(true, .mmAllocFrame 2, (mmAllocFrame eightFrames 2).1)] ∧
      S.phase false = .waiting (.mmAllocFrame 1) := by
  have waits : bothCalled.phase true = .waiting (.mmAllocFrame 2) := rfl
  exact ⟨_, bothCalled_reached.trans (return_alone rfl waits (alloc_completes eightFrames 2)),
    rfl, rfl⟩

/-- On any number of processors, in any order of their steps, the calls that have returned were made
one after the other, and at most one processor is between the calls of the lock. -/
theorem frame_calls_one_by_one {s₀ : PhysState} {S : System ι PhysState FrameCall FramePc Nat}
    (run : ReflTransGen (Step frameBody) (System.start s₀) S) :
    (∃ s, OneByOne s₀ S.history s ∧ (S.lock = false → S.shared = s)) ∧
      ∀ i j c d m n, S.phase i = .inside c m → S.phase j = .inside d n → i = j := by
  obtain ⟨s, serial, held⟩ := serial_of_run run
  refine ⟨⟨s, oneByOne_of_serial serial, fun clear => ?_⟩, fun i j c d m n => exclusive_of_run run⟩
  cases held with
  | free _ same _ => exact same
  | taken set _ _ _ =>
    rw [clear] at set
    cases set

theorem frame_calls_one_by_one_small : ∃ S : System Bool PhysState FrameCall FramePc Nat,
    ReflTransGen (Step frameBody) (System.start eightFrames) S ∧
      (∃ s, OneByOne eightFrames S.history s ∧ (S.lock = false → S.shared = s)) ∧
      ∀ i j c d m n, S.phase i = .inside c m → S.phase j = .inside d n → i = j := by
  obtain ⟨S, run, _⟩ := small_run
  exact ⟨S, run, frame_calls_one_by_one run⟩

/-- The blocks that processors hold do not overlap, and none has a frame that was in use before. -/
theorem frame_blocks_apart {s₀ : PhysState} (h0 : testBit s₀.bitmap 0 = true)
    (hb : s₀.highestFrameIdx < 0x80000000) {S : System ι PhysState FrameCall FramePc Nat}
    (run : ReflTransGen (Step frameBody) (System.start s₀) S)
    {live : List Block} (after : LiveAfter S.history live) :
    live.Pairwise (fun b c => Disjoint b.frames c.frames) ∧
      ∀ b ∈ live, ∀ f ∈ b.frames, f < s₀.highestFrameIdx ∧ testBit s₀.bitmap f = false := by
  obtain ⟨s, serial, _⟩ := serial_of_run run
  have inv := frame_run_inv h0 hb (frameRun_of_oneByOne (oneByOne_of_serial serial) after)
  refine ⟨inv.own.apart, fun b member f inside => ?_⟩
  have below := inv.below b member
  have bounds := mem_span.mp inside
  have low : f < s₀.highestFrameIdx := by omega
  refine ⟨low, Bool.eq_false_iff.mpr fun used => ?_⟩
  exact Set.disjoint_left.mp (inv.own.unreserved b member) inside ⟨low, used⟩

theorem frame_blocks_apart_small :
    ∃ (S : System Bool PhysState FrameCall FramePc Nat) (live : List Block),
    ReflTransGen (Step frameBody) (System.start eightFrames) S ∧ LiveAfter S.history live ∧
      live.length = 1 ∧
      live.Pairwise (fun b c => Disjoint b.frames c.frames) ∧
      ∀ b ∈ live, ∀ f ∈ b.frames, f < eightFrames.highestFrameIdx ∧
        testBit eightFrames.bitmap f = false := by
  obtain ⟨S, run, history, _⟩ := small_run
  have after : LiveAfter S.history [⟨(mmAllocFrame eightFrames 2).1, 2⟩] := by
    rw [history]
    exact LiveAfter.alloc LiveAfter.nil (by omega) (by decide +kernel)
  exact ⟨S, _, run, after, rfl, frame_blocks_apart (by decide) (by decide) run after⟩

/-- No order of steps leads to a deadlock: a processor that waits for the lock can still return. -/
theorem frame_call_can_return {s₀ : PhysState} {S : System ι PhysState FrameCall FramePc Nat}
    (run : ReflTransGen (Step frameBody) (System.start s₀) S) {i : ι} {c : FrameCall}
    (waits : S.phase i = .waiting c) :
    ∃ S' r, ReflTransGen (Step frameBody) S S' ∧ S'.phase i = .idle ∧ (i, c, r) ∈ S'.history :=
  waiting_can_return frame_completes run waits

theorem frame_call_can_return_small : ∃ S : System Bool PhysState FrameCall FramePc Nat,
    ReflTransGen (Step frameBody) (System.start eightFrames) S ∧
      ∃ S' r, ReflTransGen (Step frameBody) S S' ∧ S'.phase false = .idle ∧
        (false, FrameCall.mmAllocFrame 1, r) ∈ S'.history := by
  obtain ⟨S, run, _, waits⟩ := small_run
  exact ⟨S, run, frame_call_can_return run waits⟩

end Shared

end Algae.Mm.PhysCores
