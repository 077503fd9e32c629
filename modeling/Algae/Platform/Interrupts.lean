/- Interrupt entry and exit of the amd64 port: the macros of frameAsm.h as instruction
   lists, the processor as far as they use it, and the frame that the handler sees. -/

import Mathlib.Data.BitVec
import Algae.Lib.WordStack
import Algae.Platform.Process

set_option autoImplicit false
set_option relaxedAutoImplicit false

namespace Algae.Platform.Interrupts

open Algae.Lib Algae.Lib.WordStack
open Algae.Platform.Process (TrapFrame)

abbrev Word := BitVec 64

inductive Reg
  | rax | rcx | rdx | rbx | rsi | rdi | rbp | r8 | r9 | r10 | r11 | r12 | r13 | r14 | r15
  deriving DecidableEq, Repr

/-- One core. Memory is seen in words of eight bytes; `zf` is the zero flag of the code
that runs, the other flags of which nothing asks for. -/
structure Cpu where
  reg : Reg → Word
  rip : Word
  cs : BitVec 16
  rflags : Word
  rsp : Word
  ss : BitVec 16
  zf : Bool
  gsBase : Word
  kernelGsBase : Word
  mem : Word → Word

inductive Insn
  | push (r : Reg)
  | pushImm (w : Word)
  | pop (r : Reg)
  | addRsp (n : Word)
  | movRspRdi
  | testqRsp (mask off : Word)
  | jz (label : Nat)
  | label (n : Nat)
  | lfence
  | swapgs
  | call
  | iretq
  deriving DecidableEq, Repr

/-! The macros, and the vector that uses them. -/

def PUSH_ALL : List Insn :=
  [.push .r15, .push .r14, .push .r13, .push .r12, .push .r11, .push .r10, .push .r9, .push .r8,
    .push .rbp, .push .rdi, .push .rsi, .push .rbx, .push .rdx, .push .rcx, .push .rax]

def POP_ALL : List Insn :=
  [.pop .rax, .pop .rcx, .pop .rdx, .pop .rbx, .pop .rsi, .pop .rdi, .pop .rbp, .pop .r8, .pop .r9,
    .pop .r10, .pop .r11, .pop .r12, .pop .r13, .pop .r14, .pop .r15]

def PUSH_TRAPFRAME_EC (trapno : Word) : List Insn := PUSH_ALL ++ [.pushImm trapno]

def POP_TRAPFRAME_EC : List Insn := .addRsp 8 :: POP_ALL

def PUSH_TRAPFRAME (trapno : Word) : List Insn := .pushImm 0 :: PUSH_TRAPFRAME_EC trapno

def POP_TRAPFRAME : List Insn := POP_TRAPFRAME_EC ++ [.addRsp 8]

def INTR_ENTRY : List Insn :=
  [.testqRsp 0x3 8, .jz 1, .lfence, .swapgs, .label 1] ++ PUSH_TRAPFRAME 0

def INTR_EXIT : List Insn :=
  POP_TRAPFRAME ++ [.testqRsp 0x3 8, .jz 2, .lfence, .swapgs, .label 2, .iretq]

def lapicTmrIsr : List Insn := INTR_ENTRY ++ [.movRspRdi, .call] ++ INTR_EXIT

/-! What the processor does. -/

def Cpu.pushWord (s : Cpu) (w : Word) : Cpu :=
  { s with mem := Function.update s.mem (s.rsp - 8) w, rsp := s.rsp - 8 }

def Cpu.swapgs (s : Cpu) : Cpu :=
  { s with gsBase := s.kernelGsBase, kernelGsBase := s.gsBase }

/-- The five words from the stack pointer on become the new context; selectors have 16 bits.
The processor's checks of what it loads are left out. -/
def Cpu.iretq (s : Cpu) : Cpu :=
  { s with
    rip := s.mem s.rsp
    cs := (s.mem (s.rsp + 8)).setWidth 16
    rflags := s.mem (s.rsp + 16)
    rsp := s.mem (s.rsp + 24)
    ss := (s.mem (s.rsp + 32)).setWidth 16 }

/-- Run straight-line code with forward jumps; after a jump everything up to the label
is skipped. `handler` is the function that `call` calls, up to its return. -/
def exec (handler : Cpu → Cpu) : List Insn → Option Nat → Cpu → Cpu
  | [], _, s => s
  | i :: code, some n, s => exec handler code (if i = .label n then none else some n) s
  | .push r :: code, none, s => exec handler code none (s.pushWord (s.reg r))
  | .pushImm w :: code, none, s => exec handler code none (s.pushWord w)
  | .pop r :: code, none, s =>
    exec handler code none { s with reg := Function.update s.reg r (s.mem s.rsp), rsp := s.rsp + 8 }
  | .addRsp n :: code, none, s => exec handler code none { s with rsp := s.rsp + n }
  | .movRspRdi :: code, none, s =>
    exec handler code none { s with reg := Function.update s.reg .rdi s.rsp }
  | .testqRsp mask off :: code, none, s =>
    exec handler code none { s with zf := s.mem (s.rsp + off) &&& mask == 0 }
  | .jz n :: code, none, s => exec handler code (if s.zf then some n else none) s
  | .label _ :: code, none, s => exec handler code none s
  | .lfence :: code, none, s => exec handler code none s
  | .swapgs :: code, none, s => exec handler code none s.swapgs
  | .call :: code, none, s => exec handler code none (handler s)
  | .iretq :: code, none, s => exec handler code none s.iretq

def Cpu.user (s : Cpu) : Bool := s.cs &&& 3 != 0

def KERNEL_CS : BitVec 16 := 0x08

/-- The processor takes an interrupt: from user mode it goes to the stack `rsp0` of the
TSS. The interrupt gate clears IF, and TF, NT, RF and VM are cleared too. -/
def Cpu.interrupt (s : Cpu) (rsp0 entry : Word) : Cpu :=
  let top := (if s.user then rsp0 else s.rsp) &&& ~~~15#64
  let pushed := { s with rsp := top }.pushWord (s.ss.setWidth 64) |>.pushWord s.rsp
    |>.pushWord s.rflags |>.pushWord (s.cs.setWidth 64) |>.pushWord s.rip
  { pushed with
    rip := entry
    cs := KERNEL_CS
    ss := if s.user then 0 else s.ss
    rflags := s.rflags &&& ~~~0x34300#64 }

/-! The frame in memory. -/

def frameReg (tf : TrapFrame) : Reg → Word
  | .rax => tf.rax
  | .rcx => tf.rcx
  | .rdx => tf.rdx
  | .rbx => tf.rbx
  | .rsi => tf.rsi
  | .rdi => tf.rdi
  | .rbp => tf.rbp
  | .r8 => tf.r8
  | .r9 => tf.r9
  | .r10 => tf.r10
  | .r11 => tf.r11
  | .r12 => tf.r12
  | .r13 => tf.r13
  | .r14 => tf.r14
  | .r15 => tf.r15

/-- The words of a `struct trapFrame`, in the order of its fields. -/
def frameWords (tf : TrapFrame) : List Word :=
  [tf.trapno, tf.rax, tf.rcx, tf.rdx, tf.rbx, tf.rsi, tf.rdi, tf.rbp, tf.r8, tf.r9, tf.r10, tf.r11,
    tf.r12, tf.r13, tf.r14, tf.r15, tf.error_code, tf.rip, tf.cs, tf.rflags, tf.rsp, tf.ss]

def FrameAt (s : Cpu) (a : Word) (tf : TrapFrame) : Prop := Words 8 s.mem a (frameWords tf)

def interrupted (s : Cpu) : TrapFrame where
  trapno := 0
  rax := s.reg .rax
  rcx := s.reg .rcx
  rdx := s.reg .rdx
  rbx := s.reg .rbx
  rsi := s.reg .rsi
  rdi := s.reg .rdi
  rbp := s.reg .rbp
  r8 := s.reg .r8
  r9 := s.reg .r9
  r10 := s.reg .r10
  r11 := s.reg .r11
  r12 := s.reg .r12
  r13 := s.reg .r13
  r14 := s.reg .r14
  r15 := s.reg .r15
  error_code := 0
  rip := s.rip
  cs := s.cs.setWidth 64
  rflags := s.rflags
  rsp := s.rsp
  ss := s.ss.setWidth 64

structure Resumed (tf : TrapFrame) (s : Cpu) : Prop where
  reg : ∀ r, s.reg r = frameReg tf r
  rip : s.rip = tf.rip
  cs : s.cs = tf.cs.setWidth 16
  rflags : s.rflags = tf.rflags
  rsp : s.rsp = tf.rsp
  ss : s.ss = tf.ss.setWidth 16

/-- A C function: it returns with the stack pointer it was called with, in kernel mode,
and leaves the GS bases alone. -/
structure Returns (handler : Cpu → Cpu) : Prop where
  rsp : ∀ s, (handler s).rsp = s.rsp
  gsBase : ∀ s, (handler s).gsBase = s.gsBase
  kernelGsBase : ∀ s, (handler s).kernelGsBase = s.kernelGsBase

/-- GS refers to the core's KPCR exactly in kernel mode; the base that swapgs keeps
for the other mode is the other one. -/
structure KernelGs (kpcr : Word) (s : Cpu) : Prop where
  active : s.gsBase = kpcr ↔ s.user = false
  kept : s.kernelGsBase = kpcr ↔ s.user = true

section Steps

variable (handler : Cpu → Cpu)

def pushOrder : List Reg :=
  [.r15, .r14, .r13, .r12, .r11, .r10, .r9, .r8, .rbp, .rdi, .rsi, .rbx, .rdx, .rcx, .rax]

def Cpu.stack (s : Cpu) : Stack Word Word := ⟨s.mem, s.rsp⟩

def Cpu.save (s : Cpu) (rs : List Reg) : Cpu :=
  { s with mem := (s.stack.save 8 s.reg rs).mem, rsp := (s.stack.save 8 s.reg rs).top }

def Cpu.restore (s : Cpu) (rs : List Reg) : Cpu :=
  { s with
    reg := (WordStack.restore 8 s.mem s.reg s.rsp rs).1
    rsp := (WordStack.restore 8 s.mem s.reg s.rsp rs).2 }

theorem pushAll_eq : PUSH_ALL = pushOrder.map Insn.push := rfl

theorem popAll_eq : POP_ALL = pushOrder.reverse.map Insn.pop := rfl

theorem word_apart : Apart (8 : Word) 22 := by
  intro k low high same
  have value := congrArg BitVec.toNat same
  rw [nsmul_eq_mul, BitVec.toNat_mul, BitVec.natCast_eq_ofNat, BitVec.toNat_ofNat] at value
  change k % 0x10000000000000000 * 8 % 0x10000000000000000 = 0 at value
  omega

theorem stack_pushWord (s : Cpu) (w : Word) : (s.pushWord w).stack = s.stack.push 8 w := rfl

theorem stack_save (s : Cpu) (rs : List Reg) : (s.save rs).stack = s.stack.save 8 s.reg rs := rfl

theorem exec_push (rs : List Reg) (code : List Insn) (s : Cpu) :
    exec handler (rs.map Insn.push ++ code) none s = exec handler code none (s.save rs) := by
  induction rs generalizing s with
  | nil => rfl
  | cons r rs ih => exact ih (s.pushWord (s.reg r))

theorem exec_pop (rs : List Reg) (code : List Insn) (s : Cpu) :
    exec handler (rs.map Insn.pop ++ code) none s = exec handler code none (s.restore rs) := by
  induction rs generalizing s with
  | nil => rfl
  | cons r rs ih =>
    exact ih { s with reg := Function.update s.reg r (s.mem s.rsp), rsp := s.rsp + 8 }

/-- The core after a decision about GS, made on the code selector above the top of
the stack. -/
def Cpu.gsDecided (s : Cpu) : Cpu :=
  if s.mem (s.rsp + 8) &&& 3 = 0 then { s with zf := true } else { s with zf := false }.swapgs

private theorem exec_swap (n : Nat) (code : List Insn) (s : Cpu) :
    exec handler ([.testqRsp 0x3 8, .jz n, .lfence, .swapgs, .label n] ++ code) none s =
      exec handler code none s.gsDecided := by
  by_cases kernel : s.mem (s.rsp + 8) &&& 3 = 0
  · have zf : (s.mem (s.rsp + 8) &&& 3 == 0) = true := beq_iff_eq.mpr kernel
    rw [Cpu.gsDecided, if_pos kernel, List.cons_append, exec, zf]
    simp [exec]
  · have zf : (s.mem (s.rsp + 8) &&& 3 == 0) = false := beq_eq_false_iff_ne.mpr kernel
    rw [Cpu.gsDecided, if_neg kernel, List.cons_append, exec, zf]
    rfl

private theorem privilege_eq (w : Word) : w &&& 3 = 0 ↔ w.setWidth 16 &&& 3 = 0 := by
  rw [← BitVec.toNat_inj, ← BitVec.toNat_inj, BitVec.toNat_and, BitVec.toNat_and,
    BitVec.toNat_setWidth]
  change w.toNat &&& 2 ^ 2 - 1 = 0 ↔ w.toNat % 65536 &&& 2 ^ 2 - 1 = 0
  rw [Nat.and_two_pow_sub_one_eq_mod, Nat.and_two_pow_sub_one_eq_mod]
  omega

private theorem user_eq_false (s : Cpu) : s.user = false ↔ s.cs &&& 3 = 0 := by
  rw [Cpu.user, bne_eq_false_iff_eq]

private theorem interrupt_words (s : Cpu) (rsp0 entry : Word) :
    Words 8 (s.interrupt rsp0 entry).mem (s.interrupt rsp0 entry).rsp
      [s.rip, s.cs.setWidth 64, s.rflags, s.rsp, s.ss.setWidth 64] := by
  have none : Words 8 s.mem ((if s.user then rsp0 else s.rsp) &&& ~~~15#64) [] := trivial
  have ss := Words.push (s := ⟨s.mem, _⟩) word_apart none (by simp) (s.ss.setWidth 64)
  have rsp := ss.push word_apart (by simp) s.rsp
  have rflags := rsp.push word_apart (by simp) s.rflags
  have cs := rflags.push word_apart (by simp) (s.cs.setWidth 64)
  exact cs.push word_apart (by simp) s.rip

/-- The state in which the handler is called: the frame is complete and its address
the argument. -/
def Cpu.framed (s : Cpu) : Cpu :=
  let s := ((s.pushWord 0).save pushOrder).pushWord 0
  { s with reg := Function.update s.reg .rdi s.rsp }

private theorem exec_frame (code : List Insn) (s : Cpu) :
    exec handler (PUSH_TRAPFRAME 0 ++ .movRspRdi :: code) none s = exec handler code none
      s.framed := by
  have split : PUSH_TRAPFRAME 0 ++ .movRspRdi :: code =
      .pushImm 0 :: (pushOrder.map Insn.push ++ .pushImm 0 :: .movRspRdi :: code) := by
    rw [PUSH_TRAPFRAME, PUSH_TRAPFRAME_EC, pushAll_eq, List.cons_append, List.append_assoc]
    rfl
  rw [split, exec, exec_push, exec, exec, Cpu.framed]

private theorem stack_framed (s : Cpu) :
    s.framed.stack = ((s.stack.push 8 0).save 8 s.reg pushOrder).push 8 0 := by
  rw [← stack_pushWord]
  exact (stack_pushWord ((s.pushWord 0).save pushOrder) 0).trans (by rw [stack_save]; rfl)

private theorem framed_fields (s : Cpu) : s.framed.reg .rdi = s.framed.rsp ∧
    s.framed.gsBase = s.gsBase ∧ s.framed.kernelGsBase = s.kernelGsBase := by
  simp only [Cpu.framed, Cpu.save, Cpu.pushWord, Function.update_self, and_self]

private theorem interrupted_words (s : Cpu) : frameWords (interrupted s) =
    0 :: (pushOrder.reverse.map s.reg ++
      [0, s.rip, s.cs.setWidth 64, s.rflags, s.rsp, s.ss.setWidth 64]) := rfl

private theorem framed_words {s : Cpu} {rip cs rflags rsp ss : Word}
    (hardware : Words 8 s.stack.mem s.stack.top [rip, cs, rflags, rsp, ss]) :
    Words 8 s.framed.stack.mem s.framed.stack.top
      (0 :: (pushOrder.reverse.map s.reg ++ [0, rip, cs, rflags, rsp, ss])) := by
  have error := hardware.push word_apart (by simp) (0 : Word)
  have room :
    pushOrder.length + [0, rip, cs, rflags, rsp, ss].length ≤ 22 + 1 := by simp [pushOrder]
  have saved := Stack.save_words s.reg word_apart error room
  rw [stack_framed]
  exact saved.push word_apart (by simp [pushOrder]) (0 : Word)

private theorem gsDecided_fields (s : Cpu) : s.gsDecided.stack = s.stack ∧ s.gsDecided.reg = s.reg ∧
    s.gsDecided.gsBase = (if s.mem (s.rsp + 8) &&& 3 = 0 then s.gsBase else s.kernelGsBase) ∧
    s.gsDecided.kernelGsBase =
      (if s.mem (s.rsp + 8) &&& 3 = 0 then s.kernelGsBase else s.gsBase) := by
  rw [Cpu.gsDecided]
  split_ifs
  · exact ⟨rfl, rfl, rfl, rfl⟩
  · exact ⟨rfl, rfl, rfl, rfl⟩

private theorem interrupt_fields (s : Cpu) (rsp0 entry : Word) :
    (s.interrupt rsp0 entry).reg = s.reg ∧
    (s.interrupt rsp0 entry).gsBase = s.gsBase ∧
    (s.interrupt rsp0 entry).kernelGsBase = s.kernelGsBase := by
  simp only [Cpu.interrupt, Cpu.pushWord, and_self]

/-- The handler is called with the address of the frame, in which the interrupted context
lies, and with the other GS base if the interrupt came from user mode. -/
private theorem entry_spec (s : Cpu) (rsp0 entry : Word) : ∃ s₁,
    (∀ code, exec handler (INTR_ENTRY ++ .movRspRdi :: code) none (s.interrupt rsp0 entry) =
      exec handler code none s₁) ∧
    s₁.reg .rdi = s₁.rsp ∧ FrameAt s₁ s₁.rsp (interrupted s) ∧
    s₁.gsBase = (if s.user then s.kernelGsBase else s.gsBase) ∧
    s₁.kernelGsBase = (if s.user then s.gsBase else s.kernelGsBase) := by
  have words := interrupt_words s rsp0 entry
  obtain ⟨reg, active, kept⟩ := interrupt_fields s rsp0 entry
  generalize s.interrupt rsp0 entry = s₀ at words reg active kept ⊢
  obtain ⟨stack, reg', active', kept'⟩ := gsDecided_fields s₀
  obtain ⟨argument, active'', kept''⟩ := framed_fields s₀.gsDecided
  have same : (s.cs.setWidth 64).setWidth 16 = s.cs := by simp
  have mode : s₀.mem (s₀.rsp + 8) &&& 3 = 0 ↔ s.user = false := by
    rw [words.2.1, privilege_eq, same, user_eq_false]
  refine ⟨s₀.gsDecided.framed, fun code => ?_, argument, ?_, ?_, ?_⟩
  · rw [INTR_ENTRY, List.append_assoc, exec_swap, exec_frame]
  · have decided : Words 8 s₀.gsDecided.stack.mem s₀.gsDecided.stack.top
        [s.rip, s.cs.setWidth 64, s.rflags, s.rsp, s.ss.setWidth 64] := by
      rw [stack]
      exact words
    have frame := framed_words decided
    rwa [reg', reg, ← interrupted_words] at frame
  · rw [active'', active', active, kept]
    cases user : s.user with
    | false => rw [if_pos (mode.mpr user), if_neg Bool.false_ne_true]
    | true => rw [if_neg (fun zero => by rw [mode.mp zero] at user; cases user), if_pos rfl]
  · rw [kept'', kept', active, kept]
    cases user : s.user with
    | false => rw [if_pos (mode.mpr user), if_neg Bool.false_ne_true]
    | true => rw [if_neg (fun zero => by rw [mode.mp zero] at user; cases user), if_pos rfl]

/-- The core once the frame is popped, up to what the hardware pushed. -/
def Cpu.unframed (s : Cpu) : Cpu :=
  let s := { s with rsp := s.rsp + 8 }.restore pushOrder.reverse
  { s with rsp := s.rsp + 8 }

private theorem exec_unframe (code : List Insn) (s : Cpu) :
    exec handler (POP_TRAPFRAME ++ code) none s = exec handler code none s.unframed := by
  have split : POP_TRAPFRAME ++ code =
      .addRsp 8 :: (pushOrder.reverse.map Insn.pop ++ .addRsp 8 :: code) := by
    rw [POP_TRAPFRAME, POP_TRAPFRAME_EC, popAll_eq, List.cons_append, List.cons_append,
      List.append_assoc]
    rfl
  rw [split, exec, exec_pop, exec, Cpu.unframed]

theorem frameWords_split (tf : TrapFrame) : frameWords tf =
    [tf.trapno] ++ (pushOrder.reverse.map (frameReg tf) ++
      ([tf.error_code] ++ [tf.rip, tf.cs, tf.rflags, tf.rsp, tf.ss])) := rfl

private theorem unframed_rsp (s : Cpu) :
    s.unframed.rsp = s.rsp + 8 + (pushOrder.reverse.length • 8 : Word) + 8 := by
  rw [Cpu.unframed, Cpu.restore]
  simp only [restore_top]

theorem unframed_spec {s : Cpu} {tf : TrapFrame} (frame : FrameAt s s.rsp tf) :
    (∀ r, s.unframed.reg r = frameReg tf r) ∧
    Words 8 s.unframed.mem s.unframed.rsp [tf.rip, tf.cs, tf.rflags, tf.rsp, tf.ss] ∧
    s.unframed.gsBase = s.gsBase ∧ s.unframed.kernelGsBase = s.kernelGsBase := by
  rw [FrameAt, frameWords_split, words_append, words_append, words_append] at frame
  obtain ⟨_, regs, _, hardware⟩ := frame
  rw [List.length_singleton, one_nsmul] at regs hardware
  rw [List.length_map, List.length_singleton, one_nsmul] at hardware
  refine ⟨fun r => ?_, ?_, ?_⟩
  · have all : ∀ r : Reg, r ∈ pushOrder.reverse := by
      intro r
      cases r <;> decide
    exact restore_words (by decide) regs s.reg (all r)
  · rw [unframed_rsp]
    exact hardware
  · simp only [Cpu.unframed, Cpu.restore, and_self]

private theorem exit_spec {s : Cpu} {tf : TrapFrame} (frame : FrameAt s s.rsp tf) :
    Resumed tf (exec handler INTR_EXIT none s) ∧
    (exec handler INTR_EXIT none s).gsBase =
      (if tf.cs &&& 3 = 0 then s.gsBase else s.kernelGsBase) ∧
    (exec handler INTR_EXIT none s).kernelGsBase =
      (if tf.cs &&& 3 = 0 then s.kernelGsBase else s.gsBase) := by
  obtain ⟨regs, hardware, active, kept⟩ := unframed_spec frame
  have run : exec handler INTR_EXIT none s = s.unframed.gsDecided.iretq := by
    have code : INTR_EXIT =
        POP_TRAPFRAME ++ ([.testqRsp 0x3 8, .jz 2, .lfence, .swapgs, .label 2] ++ [.iretq]) := rfl
    rw [code, exec_unframe, exec_swap, exec, exec]
  obtain ⟨stack, regs', active', kept'⟩ := gsDecided_fields s.unframed
  rw [hardware.2.1] at active' kept'
  have mem : s.unframed.gsDecided.mem = s.unframed.mem := congrArg Stack.mem stack
  have rsp : s.unframed.gsDecided.rsp = s.unframed.rsp := congrArg Stack.top stack
  obtain ⟨rip, cs, rflags, user_rsp, ss, _⟩ := hardware
  have next : ∀ a : Word, a + 8 + 8 = a + 16 ∧ a + 8 + 8 + 8 = a + 24 ∧
      a + 8 + 8 + 8 + 8 = a + 32 := by
    intro a
    refine ⟨?_, ?_, ?_⟩ <;> simp only [BitVec.add_assoc] <;> rfl
  rw [(next _).1] at rflags
  rw [(next _).2.1] at user_rsp
  rw [(next _).2.2] at ss
  rw [run]
  refine ⟨⟨fun r => ?_, ?_, ?_, ?_, ?_, ?_⟩, active'.trans (by rw [active, kept]),
    kept'.trans (by rw [active, kept])⟩
  · exact (congrFun regs' r).trans (regs r)
  · simp only [Cpu.iretq, mem, rsp, rip]
  · simp only [Cpu.iretq, mem, rsp, cs]
  · simp only [Cpu.iretq, mem, rsp, rflags]
  · simp only [Cpu.iretq, mem, rsp, user_rsp]
  · simp only [Cpu.iretq, mem, rsp, ss]

end Steps

/-- What a core's bases have been through since halCpuInit wrote its KPCR to the active
one: other code keeps mode and bases, and interrupts come at any time. -/
inductive CoreRun (kpcr : Word) : Cpu → Prop
  | booted {s : Cpu} (kernel : s.user = false) (own : s.gsBase = kpcr)
    (other : s.kernelGsBase ≠ kpcr) :
      CoreRun kpcr s
  | runs {s s' : Cpu} (run : CoreRun kpcr s) (mode : s'.user = s.user)
    (active : s'.gsBase = s.gsBase)
      (kept : s'.kernelGsBase = s.kernelGsBase) : CoreRun kpcr s'
  | interrupt {s : Cpu} (run : CoreRun kpcr s) {handler : Cpu → Cpu} (returns : Returns handler)
      (rsp0 entry : Word) : CoreRun kpcr (exec handler lapicTmrIsr none (s.interrupt rsp0 entry))

section Interrupts

def wordAddr (a : Word) : Nat → Word
  | 0 => a
  | n + 1 => wordAddr a n + 8

private theorem frame_exists (s : Cpu) (a : Word) : ∃ tf, FrameAt s a tf := by
  let w : Nat → Word := fun i => s.mem (wordAddr a i)
  exact ⟨⟨w 0, w 1, w 2, w 3, w 4, w 5, w 6, w 7, w 8, w 9, w 10, w 11, w 12, w 13, w 14,
    w 15, w 16, w 17,
    w 18, w 19, w 20, w 21⟩, rfl, rfl, rfl, rfl, rfl, rfl, rfl, rfl, rfl, rfl, rfl, rfl, rfl,
      rfl, rfl, rfl,
    rfl, rfl, rfl, rfl, rfl, rfl, trivial⟩

private theorem Resumed.user_eq {tf : TrapFrame} {s : Cpu} (h : Resumed tf s) :
    s.user = false ↔ tf.cs &&& 3 = 0 := by
  rw [user_eq_false, h.cs, privilege_eq]

private theorem interrupt_spec {handler : Cpu → Cpu} (returns : Returns handler) (s : Cpu)
    (rsp0 entry : Word) : ∃ s₁,
    exec handler (INTR_ENTRY ++ [.movRspRdi]) none (s.interrupt rsp0 entry) = s₁ ∧
    FrameAt s₁ (s₁.reg .rdi) (interrupted s) ∧
    ∀ tf, FrameAt (handler s₁) (s₁.reg .rdi) tf →
      Resumed tf (exec handler lapicTmrIsr none (s.interrupt rsp0 entry)) ∧
      ∀ kpcr, KernelGs kpcr s →
        KernelGs kpcr (exec handler lapicTmrIsr none (s.interrupt rsp0 entry)) := by
  obtain ⟨s₁, enter, argument, frame, active, kept⟩ := entry_spec handler s rsp0 entry
  refine ⟨s₁, enter [], argument.symm ▸ frame, fun tf left => ?_⟩
  have code : lapicTmrIsr = INTR_ENTRY ++ .movRspRdi :: .call :: INTR_EXIT := by
    rw [lapicTmrIsr, List.append_assoc]
    rfl
  rw [argument, ← returns.rsp s₁] at left
  obtain ⟨resumed, active', kept'⟩ := exit_spec handler left
  rw [code, enter, exec]
  refine ⟨resumed, fun kpcr gs => ?_⟩
  obtain ⟨here, there⟩ : (handler s₁).gsBase = kpcr ∧ (handler s₁).kernelGsBase ≠ kpcr := by
    rw [returns.gsBase, returns.kernelGsBase, active, kept]
    cases user : s.user with
    | false => exact ⟨gs.active.mpr user, fun own => by rw [gs.kept.mp own] at user; cases user⟩
    | true => exact ⟨gs.kept.mpr user, fun own => by rw [gs.active.mp own] at user; cases user⟩
  by_cases kernel : tf.cs &&& 3 = 0
  · rw [if_pos kernel] at active' kept'
    have mode := resumed.user_eq.mpr kernel
    refine ⟨?_, ?_⟩
    · rw [active', mode]
      exact iff_of_true here rfl
    · rw [kept', mode]
      exact iff_of_false there Bool.false_ne_true
  · rw [if_neg kernel] at active' kept'
    have mode := Bool.eq_true_of_not_eq_false (fun mode => kernel (resumed.user_eq.mp mode))
    refine ⟨?_, ?_⟩
    · rw [active', mode]
      exact iff_of_false there (fun same => by cases same)
    · rw [kept', mode]
      exact iff_of_true here rfl

private theorem core_run_gs {kpcr : Word} {s : Cpu} (run : CoreRun kpcr s) : KernelGs kpcr s := by
  induction run with
  | booted kernel own other =>
    exact ⟨iff_of_true own kernel, iff_of_false other (by rw [kernel]; exact Bool.false_ne_true)⟩
  | runs _ mode active kept ih =>
    exact ⟨by rw [active, mode]; exact ih.active, by rw [kept, mode]; exact ih.kept⟩
  | interrupt _ returns rsp0 entry ih =>
    obtain ⟨s₁, _, _, exits⟩ := interrupt_spec returns _ rsp0 entry
    obtain ⟨tf, left⟩ := frame_exists _ (s₁.reg .rdi)
    exact (exits tf left).2 _ ih

/-- The handler gets the interrupted context as its frame, and the context that goes on is
the frame it leaves. GS refers to the KPCR exactly in kernel mode after the interrupt if it
did before, and so in every state of a core since its start. -/
theorem interrupt_exact {handler : Cpu → Cpu} (returns : Returns handler) (s : Cpu)
    (rsp0 entry : Word) : (∃ s₁,
      exec handler (INTR_ENTRY ++ [.movRspRdi]) none (s.interrupt rsp0 entry) = s₁ ∧
      FrameAt s₁ (s₁.reg .rdi) (interrupted s) ∧
      ∀ tf, FrameAt (handler s₁) (s₁.reg .rdi) tf →
        Resumed tf (exec handler lapicTmrIsr none (s.interrupt rsp0 entry))) ∧
    (∀ kpcr, KernelGs kpcr s →
    KernelGs kpcr (exec handler lapicTmrIsr none (s.interrupt rsp0 entry))) ∧
    ∀ kpcr s', CoreRun kpcr s' → (s'.gsBase = kpcr ↔ s'.user = false) := by
  obtain ⟨s₁, enter, frame, exits⟩ := interrupt_spec returns s rsp0 entry
  refine ⟨⟨s₁, enter, frame, fun tf left => (exits tf left).1⟩, ?_, fun _ _ run =>
    (core_run_gs run).active⟩
  obtain ⟨tf, left⟩ := frame_exists _ (s₁.reg .rdi)
  exact (exits tf left).2

def idleCpu : Cpu where
  reg _ := 7
  rip := 0x1000
  cs := KERNEL_CS
  rflags := 0x202
  rsp := 0x9000
  ss := 0x10
  zf := false
  gsBase := 0x5000
  kernelGsBase := 0
  mem _ := 0

/-- A user process, with the KPCR in the base that swapgs keeps. -/
def userCpu : Cpu where
  reg _ := 9
  rip := 0x400000
  cs := 0x1B
  rflags := 0x202
  rsp := 0x7FFF0000
  ss := 0x23
  zf := false
  gsBase := 0
  kernelGsBase := 0x5000
  mem _ := 0

/-- A handler that leaves another frame in the place of the one it is given. -/
def switchTo (tf : TrapFrame) (s : Cpu) : Cpu :=
  { s with mem := (Stack.save 8 id ⟨s.mem, s.reg .rdi + (frameWords tf).reverse.length • (8 : Word)⟩
      (frameWords tf).reverse).mem }

private theorem switchTo_frame (tf : TrapFrame) (s : Cpu) :
    FrameAt (switchTo tf s) (s.reg .rdi) tf := by
  have room :
    (frameWords tf).reverse.length + ([] : List Word).length ≤ 22 + 1 := by simp [frameWords]
  have words := Stack.save_words id word_apart
    (s := ⟨s.mem, s.reg .rdi + (frameWords tf).reverse.length • (8 : Word)⟩)
      (show Words 8 _ _ [] from True.intro) room
  rw [Stack.save_top, add_sub_cancel_right, List.reverse_reverse, List.map_id, List.append_nil]
    at words
  exact words

theorem interrupt_exact_switch :
    Resumed (interrupted idleCpu)
      (exec (switchTo (interrupted idleCpu)) lapicTmrIsr none (userCpu.interrupt 0x8000 0x2000)) ∧
    KernelGs 0x5000
      (exec (switchTo (interrupted idleCpu)) lapicTmrIsr none
      (userCpu.interrupt 0x8000 0x2000)) := by
  have returns : Returns (switchTo (interrupted idleCpu)) :=
    ⟨fun _ => rfl, fun _ => rfl, fun _ => rfl⟩
  have gs : KernelGs 0x5000 userCpu := ⟨by decide, by decide⟩
  obtain ⟨⟨s₁, _, _, exits⟩, kept, _⟩ := interrupt_exact returns userCpu 0x8000 0x2000
  exact ⟨exits _ (switchTo_frame _ s₁), kept _ gs⟩

end Interrupts

end Algae.Platform.Interrupts
