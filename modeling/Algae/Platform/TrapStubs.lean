/- The trap stubs of trap.S: what they bring back, and where the stack pointer is
   when they reach iretq. -/

import Algae.Platform.Interrupts

set_option autoImplicit false
set_option relaxedAutoImplicit false

namespace Algae.Platform.TrapStubs

open Algae.Lib Algae.Lib.WordStack
open Algae.Platform.Process (TrapFrame)
open Algae.Platform.Interrupts

/-- The instructions of interrupt entry and exit, and those for the interrupt flag. -/
inductive TrapInsn
  | insn (i : Insn)
  | cli
  | sti
  deriving DecidableEq, Repr

def insns (code : List Insn) : List TrapInsn := code.map .insn

def TRAP_ENTRY_EC (trapno : Word) : List TrapInsn :=
  .cli :: insns ([.testqRsp 0x3 16, .jz 1, .lfence, .swapgs, .label 1] ++ PUSH_TRAPFRAME_EC trapno)

def TRAP_EXIT_EC : List TrapInsn :=
  insns (POP_TRAPFRAME_EC ++ [.testqRsp 0x3 16, .jz 2, .lfence, .swapgs]) ++
    .sti :: insns [.label 2, .iretq]

def TRAP_ENTRY (trapno : Word) : List TrapInsn :=
  .cli :: insns ([.testqRsp 0x3 8, .jz 1, .lfence, .swapgs, .label 1] ++ PUSH_TRAPFRAME trapno)

def TRAP_EXIT : List TrapInsn :=
  insns (POP_TRAPFRAME_EC ++ [.testqRsp 0x3 16, .jz 2, .lfence, .swapgs]) ++
    .sti :: insns [.label 2, .iretq]

/-- A stub is built from the macros for a trap without an error code, or with one. -/
inductive Stub
  | trap (trapno : Word)
  | trapEc (trapno : Word)

def Stub.entry : Stub → List TrapInsn
  | .trap trapno => TRAP_ENTRY trapno
  | .trapEc trapno => TRAP_ENTRY_EC trapno

def Stub.exit : Stub → List TrapInsn
  | .trap _ => TRAP_EXIT
  | .trapEc _ => TRAP_EXIT_EC

def Stub.code (stub : Stub) : List TrapInsn :=
  stub.entry ++ insns [.movRspRdi, .call] ++ stub.exit

def breakpoint_handler : Stub := .trap 1

def arith_err : Stub := .trap 2

def overflow : Stub := .trap 3

def bound_range : Stub := .trap 4

def invl_op : Stub := .trap 5

def double_fault : Stub := .trapEc 6

def invl_tss : Stub := .trapEc 7

def segnp : Stub := .trapEc 8

def general_prot : Stub := .trapEc 9

def page_fault : Stub := .trapEc 10

def nmi : Stub := .trap 11

def ss_fault : Stub := .trapEc 12

/-! What the processor does. -/

def cli (s : Cpu) : Cpu := { s with rflags := s.rflags &&& ~~~0x200#64 }

def sti (s : Cpu) : Cpu := { s with rflags := s.rflags ||| 0x200#64 }

def execTrap (handler : Cpu → Cpu) : List TrapInsn → Option Nat → Cpu → Cpu
  | [], _, s => s
  | i :: code, some n, s => execTrap handler code (if i = .insn (.label n) then none else some n) s
  | .insn (.jz n) :: code, none, s => execTrap handler code (if s.zf then some n else none) s
  | .insn i :: code, none, s => execTrap handler code none (exec handler [i] none s)
  | .cli :: code, none, s => execTrap handler code none (cli s)
  | .sti :: code, none, s => execTrap handler code none (sti s)

/-! A run of a stub, from its first instruction on. -/

section Runs

variable (handler : Cpu → Cpu) (stub : Stub) (s : Cpu)

def entered : Cpu := execTrap handler (stub.entry ++ insns [.movRspRdi]) none s

def leaving : Cpu := execTrap handler stub.exit.dropLast none (handler (entered handler stub s))

/-- Where the hardware pushed the interrupted rip; an error code is pushed after it. -/
def Stub.ripAddr (s : Cpu) : Stub → Word
  | .trap _ => s.rsp
  | .trapEc _ => s.rsp + 8

end Runs

def Swapped (s s' : Cpu) : Prop := s'.gsBase = s.kernelGsBase ∧ s'.kernelGsBase = s.gsBase

def Unswapped (s s' : Cpu) : Prop := s'.gsBase = s.gsBase ∧ s'.kernelGsBase = s.kernelGsBase

def SwapsPaired (s before after s' : Cpu) : Prop :=
  Swapped s before ∧ Swapped after s' ∨ Unswapped s before ∧ Unswapped after s'

structure Undoes (handler : Cpu → Cpu) (stub : Stub) (s : Cpu) : Prop where
  reg : ∀ r, (leaving handler stub s).reg r = s.reg r
  rsp : (leaving handler stub s).rsp = stub.ripAddr s
  gs : SwapsPaired s (entered handler stub s) (handler (entered handler stub s))
    (leaving handler stub s)

/-- A handler that returns and leaves the frame it is given as it was. -/
structure KeepsFrame (handler : Cpu → Cpu) : Prop where
  returns : Returns handler
  frame : ∀ s tf, FrameAt s (s.reg .rdi) tf → FrameAt (handler s) (s.reg .rdi) tf

section Steps

variable (handler : Cpu → Cpu)

private theorem execTrap_insns {code : List Insn} (straight : ∀ n, .jz n ∉ code)
    (rest : List TrapInsn) (s : Cpu) : execTrap handler (insns code ++ rest) none s =
      execTrap handler rest none (exec handler code none s) := by
  induction code generalizing s with
  | nil => rfl
  | cons i code ih =>
    have later : ∀ n, .jz n ∉ code := fun n member => straight n (List.mem_cons_of_mem _ member)
    have run := ih later (exec handler [i] none s)
    cases i with
    | jz n => exact absurd List.mem_cons_self (straight n)
    | _ => exact run

/-- The core after a decision about GS, made on the code selector `off` bytes above the
top of the stack. -/
def decided (off : Word) (s : Cpu) : Cpu :=
  if s.mem (s.rsp + off) &&& 3 = 0 then { s with zf := true } else { s with zf := false }.swapgs

/-- The same on the way out, where interrupts come on with the exchange. -/
def decidedSti (off : Word) (s : Cpu) : Cpu :=
  if s.mem (s.rsp + off) &&& 3 = 0 then { s with zf := true } else sti { s with zf := false }.swapgs

private theorem execTrap_test (off : Word) (n : Nat) (rest : List TrapInsn) (s : Cpu) :
    execTrap handler (insns [.testqRsp 0x3 off, .jz n] ++ rest) none s =
      if s.mem (s.rsp + off) &&& 3 = 0 then execTrap handler rest (some n) { s with zf := true }
      else execTrap handler rest none { s with zf := false } := by
  have run : execTrap handler (insns [.testqRsp 0x3 off, .jz n] ++ rest) none s =
      execTrap handler rest (if s.mem (s.rsp + off) &&& 3 == 0 then some n else none)
        { s with zf := s.mem (s.rsp + off) &&& 3 == 0 } := rfl
  rw [run]
  split_ifs with set clear clear
  · rw [beq_iff_eq.mpr clear]
  · exact absurd (beq_iff_eq.mp set) clear
  · exact absurd (beq_iff_eq.mpr clear) set
  · rw [beq_eq_false_iff_ne.mpr clear]

private theorem execTrap_skip {i : TrapInsn} {n : Nat} (other : i ≠ .insn (.label n))
    (rest : List TrapInsn)
    (s : Cpu) : execTrap handler (i :: rest) (some n) s = execTrap handler rest (some n) s := by
  rw [execTrap, if_neg other]

private theorem execTrap_land (n : Nat) (rest : List TrapInsn) (s : Cpu) :
    execTrap handler (.insn (.label n) :: rest) (some n) s = execTrap handler rest none s := by
  rw [execTrap, if_pos rfl]

private theorem execTrap_swap (off : Word) (n : Nat) (rest : List TrapInsn) (s : Cpu) :
    execTrap handler (insns [.testqRsp 0x3 off, .jz n, .lfence, .swapgs, .label n] ++ rest) none s =
      execTrap handler rest none (decided off s) := by
  have test := execTrap_test handler off n (insns [.lfence, .swapgs, .label n] ++ rest) s
  refine test.trans ?_
  rw [decided]
  split_ifs
  · refine (execTrap_skip handler (by simp) _ _).trans ?_
    refine (execTrap_skip handler (by simp) _ _).trans ?_
    exact execTrap_land handler n rest _
  · rfl

private theorem execTrap_swap_sti (off : Word) (n : Nat) (rest : List TrapInsn) (s : Cpu) :
    execTrap handler (insns [.testqRsp 0x3 off, .jz n, .lfence, .swapgs] ++
      .sti :: .insn (.label n) :: rest) none s = execTrap handler rest none (decidedSti off s) := by
  have test := execTrap_test handler off n
    (insns [.lfence, .swapgs] ++ .sti :: .insn (.label n) :: rest) s
  refine test.trans ?_
  rw [decidedSti]
  split_ifs
  · refine (execTrap_skip handler (by simp) _ _).trans ?_
    refine (execTrap_skip handler (by simp) _ _).trans ?_
    refine (execTrap_skip handler (by simp) _ _).trans ?_
    exact execTrap_land handler n rest _
  · rfl

/-- The state at the call: the frame is pushed and its address the argument. -/
def framed (trapno : Word) (s : Cpu) : Cpu :=
  let s := (s.save pushOrder).pushWord trapno
  { s with reg := Function.update s.reg .rdi s.rsp }

def unframed (s : Cpu) : Cpu := { s with rsp := s.rsp + 8 }.restore pushOrder.reverse

private theorem exec_framed (trapno : Word) (s : Cpu) :
    exec handler (PUSH_TRAPFRAME_EC trapno ++ [.movRspRdi]) none s = framed trapno s := by
  rw [PUSH_TRAPFRAME_EC, pushAll_eq, List.append_assoc, exec_push]
  rfl

private theorem exec_unframed (s : Cpu) : exec handler POP_TRAPFRAME_EC none s = unframed s := by
  have split : POP_TRAPFRAME_EC = .addRsp 8 :: (pushOrder.reverse.map Insn.pop ++ []) := by
    rw [POP_TRAPFRAME_EC, popAll_eq, List.append_nil]
  rw [split, exec, exec_pop]
  rfl

def savedFrame (trapno : Word) (s : Cpu) : TrapFrame :=
  { interrupted s with
    trapno := trapno
    error_code := s.mem (wordAddr s.rsp 0)
    rip := s.mem (wordAddr s.rsp 1)
    cs := s.mem (wordAddr s.rsp 2)
    rflags := s.mem (wordAddr s.rsp 3)
    rsp := s.mem (wordAddr s.rsp 4)
    ss := s.mem (wordAddr s.rsp 5) }

private theorem savedFrame_words (trapno : Word) (s : Cpu) : frameWords (savedFrame trapno s) =
    trapno :: (pushOrder.reverse.map s.reg ++ [s.mem (wordAddr s.rsp 0), s.mem (wordAddr s.rsp 1),
      s.mem (wordAddr s.rsp 2), s.mem (wordAddr s.rsp 3), s.mem (wordAddr s.rsp 4),
      s.mem (wordAddr s.rsp 5)]) := rfl

private theorem savedFrame_reg (trapno : Word) (s : Cpu) (r : Reg) :
    frameReg (savedFrame trapno s) r = s.reg r := by
  cases r <;> rfl

private theorem savedFrame_cs (trapno : Word) (s : Cpu) :
    (savedFrame trapno s).cs = s.mem (s.rsp + 8 + 8) := rfl

private theorem framed_stack (trapno : Word) (s : Cpu) :
    (framed trapno s).stack = (s.stack.save 8 s.reg pushOrder).push 8 trapno :=
  (stack_pushWord (s.save pushOrder) trapno).trans (by rw [stack_save])

private theorem framed_frame (trapno : Word) (s : Cpu) :
    FrameAt (framed trapno s) (framed trapno s).rsp (savedFrame trapno s) := by
  have words : Words 8 (framed trapno s).stack.mem (framed trapno s).stack.top
      (frameWords (savedFrame trapno s)) := by
    have below :
      Words 8 s.stack.mem s.stack.top [s.mem (wordAddr s.rsp 0), s.mem (wordAddr s.rsp 1),
        s.mem (wordAddr s.rsp 2), s.mem (wordAddr s.rsp 3), s.mem (wordAddr s.rsp 4),
        s.mem (wordAddr s.rsp 5)] := ⟨rfl, rfl, rfl, rfl, rfl, rfl, trivial⟩
    have room : pushOrder.length + 6 ≤ 22 + 1 := by simp [pushOrder]
    have saved := Stack.save_words s.reg word_apart below room
    rw [framed_stack, savedFrame_words]
    exact saved.push word_apart (by simp [pushOrder]) trapno
  exact words

private theorem framed_rsp (trapno : Word) (s : Cpu) :
    (framed trapno s).rsp + 8 + (pushOrder.reverse.length • 8 : Word) = s.rsp := by
  have pushed : (framed trapno s).rsp = (s.stack.save 8 s.reg pushOrder).top - 8 := rfl
  have top : s.stack.top = s.rsp := rfl
  rw [pushed, Stack.save_top, sub_add_cancel, List.length_reverse, sub_add_cancel, top]

private theorem framed_gs (trapno : Word) (s : Cpu) : (framed trapno s).gsBase = s.gsBase ∧
    (framed trapno s).kernelGsBase = s.kernelGsBase := by
  simp only [framed, Cpu.save, Cpu.pushWord, and_self]

private theorem add_eight_eight (a : Word) : a + 8 + 8 = a + 16 := by
  rw [BitVec.add_assoc]
  rfl

private theorem unframed_handled {handler : Cpu → Cpu} (keeps : KeepsFrame handler)
    (trapno : Word) (s : Cpu) :
    (∀ r, (unframed (handler (framed trapno s))).reg r = s.reg r) ∧
    (unframed (handler (framed trapno s))).rsp = s.rsp ∧
    (unframed (handler (framed trapno s))).mem s.rsp = s.mem s.rsp ∧
    (unframed (handler (framed trapno s))).mem (s.rsp + 16) = s.mem (s.rsp + 16) ∧
    (unframed (handler (framed trapno s))).gsBase = s.gsBase ∧
    (unframed (handler (framed trapno s))).kernelGsBase = s.kernelGsBase := by
  have argument : (framed trapno s).reg .rdi = (framed trapno s).rsp := by
    simp only [framed, Function.update_self]
  have left := keeps.frame (framed trapno s) (savedFrame trapno s)
  rw [argument] at left
  have frame := left (framed_frame trapno s)
  rw [← keeps.returns.rsp] at frame
  obtain ⟨regs, ⟨_, cs, _⟩, active, kept⟩ := unframed_spec frame
  have rsp : (unframed (handler (framed trapno s))).rsp = s.rsp := by
    rw [unframed, Cpu.restore, ← framed_rsp trapno s, ← keeps.returns.rsp (framed trapno s)]
    exact restore_top _ _ _ _
  have error : (handler (framed trapno s)).mem s.rsp = s.mem s.rsp := by
    rw [FrameAt, frameWords_split, words_append, words_append, words_append] at frame
    obtain ⟨_, _, ⟨error, _⟩, _⟩ := frame
    rw [List.length_singleton, one_nsmul, List.length_map, keeps.returns.rsp, framed_rsp] at error
    exact error
  have code : (handler (framed trapno s)).unframed.rsp + 8 = s.rsp + 16 := by
    rw [← add_eight_eight, ← rsp]
    rfl
  rw [code] at cs
  obtain ⟨base, other⟩ := framed_gs trapno s
  have memory :
    (unframed (handler (framed trapno s))).mem = (handler (framed trapno s)).unframed.mem := rfl
  refine ⟨fun r => (regs r).trans (savedFrame_reg trapno s r), rsp, error, ?_, ?_, ?_⟩
  · rw [memory, cs, savedFrame_cs, add_eight_eight]
  · rw [← base, ← keeps.returns.gsBase (framed trapno s)]
    exact active
  · rw [← other, ← keeps.returns.kernelGsBase (framed trapno s)]
    exact kept

/-- The state in which the frame is pushed: the decision about GS is made, and where the
hardware pushed no error code there is one. -/
def Stub.pushed (s : Cpu) : Stub → Cpu
  | .trap _ => (decided 8 (cli s)).pushWord 0
  | .trapEc _ => decided 16 (cli s)

def Stub.trapno : Stub → Word
  | .trap trapno => trapno
  | .trapEc trapno => trapno

private theorem entered_eq (handler : Cpu → Cpu) (stub : Stub) (s : Cpu) :
    entered handler stub s = framed stub.trapno (stub.pushed s) := by
  have body : ∀ trapno n, .jz n ∉ PUSH_TRAPFRAME_EC trapno ++ [.movRspRdi] := by
    intro trapno n
    simp [PUSH_TRAPFRAME_EC, PUSH_ALL]
  have frame :
    ∀ trapno s, execTrap handler (insns (PUSH_TRAPFRAME_EC trapno ++ [.movRspRdi])) none s =
      framed trapno s := by
    intro trapno s
    rw [← exec_framed handler, ← List.append_nil (insns _)]
    exact execTrap_insns handler (body trapno) [] s
  cases stub with
  | trap trapno =>
    refine (execTrap_swap handler 8 1 (insns (PUSH_TRAPFRAME trapno ++ [.movRspRdi]))
      (cli s)).trans ?_
    exact frame trapno _
  | trapEc trapno =>
    refine (execTrap_swap handler 16 1 (insns (PUSH_TRAPFRAME_EC trapno ++ [.movRspRdi]))
      (cli s)).trans ?_
    exact frame trapno _

private theorem exec_exit (handler : Cpu → Cpu) (stub : Stub) (rest : List TrapInsn) (s : Cpu) :
    execTrap handler (stub.exit.dropLast ++ rest) none s =
      execTrap handler rest none (decidedSti 16 (unframed s)) := by
  have straight : ∀ n, .jz n ∉ POP_TRAPFRAME_EC := by
    intro n
    simp [POP_TRAPFRAME_EC, POP_ALL]
  have code : stub.exit.dropLast ++ rest = insns POP_TRAPFRAME_EC ++
      (insns [.testqRsp 0x3 16, .jz 2, .lfence, .swapgs] ++ .sti :: .insn (.label 2) :: rest) := by
    cases stub <;> rfl
  rw [code, execTrap_insns handler straight, exec_unframed, execTrap_swap_sti]

private theorem leaving_eq (handler : Cpu → Cpu) (stub : Stub) (s : Cpu) :
    leaving handler stub s = decidedSti 16 (unframed (handler (entered handler stub s))) := by
  rw [leaving, ← List.append_nil stub.exit.dropLast, exec_exit]
  rfl

private theorem execTrap_stub (handler : Cpu → Cpu) (stub : Stub) (s : Cpu) :
    execTrap handler stub.code none s = (leaving handler stub s).iretq := by
  have straight : ∀ n, .jz n ∉ PUSH_TRAPFRAME_EC stub.trapno ++ [.movRspRdi, .call] := by
    intro n
    simp [PUSH_TRAPFRAME_EC, PUSH_ALL]
  have called : ∀ s, exec handler (PUSH_TRAPFRAME_EC stub.trapno ++ [.movRspRdi, .call]) none s =
      handler (framed stub.trapno s) := by
    intro s
    rw [PUSH_TRAPFRAME_EC, pushAll_eq, List.append_assoc, exec_push]
    rfl
  have enter : execTrap handler stub.code none s =
      execTrap handler stub.exit none (handler (entered handler stub s)) := by
    rw [entered_eq, ← called]
    cases stub with
    | trap trapno =>
      refine (execTrap_swap handler 8 1
        (insns (PUSH_TRAPFRAME trapno ++ [.movRspRdi, .call]) ++ TRAP_EXIT)
        (cli s)).trans ?_
      exact execTrap_insns handler straight TRAP_EXIT ((decided 8 (cli s)).pushWord 0)
    | trapEc trapno =>
      refine (execTrap_swap handler 16 1 (insns (PUSH_TRAPFRAME_EC trapno ++ [.movRspRdi, .call]) ++
        TRAP_EXIT_EC) (cli s)).trans ?_
      exact execTrap_insns handler straight TRAP_EXIT_EC (decided 16 (cli s))
  have last : stub.exit = stub.exit.dropLast ++ [.insn .iretq] := by
    cases stub <;> rfl
  rw [enter, last, exec_exit, leaving_eq]
  rfl

private theorem decision_fields {s s' kept swapped : Cpu} {off : Word}
    (decision : s' = if s.mem (s.rsp + off) &&& 3 = 0 then kept else swapped)
    (stays : kept.reg = s.reg ∧ kept.stack = s.stack ∧ Unswapped s kept)
    (swaps : swapped.reg = s.reg ∧ swapped.stack = s.stack ∧ Swapped s swapped) :
    s'.reg = s.reg ∧ s'.stack = s.stack ∧
    (s.mem (s.rsp + off) &&& 3 = 0 → Unswapped s s') ∧
    (s.mem (s.rsp + off) &&& 3 ≠ 0 → Swapped s s') := by
  split_ifs at decision with kernel
  · rw [decision]
    exact ⟨stays.1, stays.2.1, fun _ => stays.2.2, fun user => absurd kernel user⟩
  · rw [decision]
    exact ⟨swaps.1, swaps.2.1, fun zero => absurd zero kernel, fun _ => swaps.2.2⟩

private theorem decided_fields (off : Word) (s : Cpu) : (decided off s).reg = s.reg ∧
    (decided off s).stack = s.stack ∧
    (s.mem (s.rsp + off) &&& 3 = 0 → Unswapped s (decided off s)) ∧
    (s.mem (s.rsp + off) &&& 3 ≠ 0 → Swapped s (decided off s)) :=
  decision_fields rfl ⟨rfl, rfl, rfl, rfl⟩ ⟨rfl, rfl, rfl, rfl⟩

private theorem decidedSti_fields (off : Word) (s : Cpu) : (decidedSti off s).reg = s.reg ∧
    (decidedSti off s).stack = s.stack ∧
    (s.mem (s.rsp + off) &&& 3 = 0 → Unswapped s (decidedSti off s)) ∧
    (s.mem (s.rsp + off) &&& 3 ≠ 0 → Swapped s (decidedSti off s)) :=
  decision_fields rfl ⟨rfl, rfl, rfl, rfl⟩ ⟨rfl, rfl, rfl, rfl⟩

/-- The word that iretq takes for the rip: the error code, or the 0 in its place. -/
def Stub.errorCode (s : Cpu) : Stub → Word
  | .trap _ => 0
  | .trapEc _ => s.mem s.rsp

/-- On the stack under the frame the error code comes first, then what the hardware
pushed before it; the decision about GS is made on its code selector. -/
private theorem pushed_fields (stub : Stub) (s : Cpu) : (stub.pushed s).reg = s.reg ∧
    (stub.pushed s).rsp = stub.ripAddr s - 8 ∧
    (stub.pushed s).mem (stub.pushed s).rsp = stub.errorCode s ∧
    (stub.pushed s).mem ((stub.pushed s).rsp + 16) = s.mem (stub.ripAddr s + 8) ∧
    (s.mem (stub.ripAddr s + 8) &&& 3 = 0 → Unswapped s (stub.pushed s)) ∧
    (s.mem (stub.ripAddr s + 8) &&& 3 ≠ 0 → Swapped s (stub.pushed s)) := by
  cases stub with
  | trap trapno =>
    obtain ⟨reg, stack, kernel, user⟩ := decided_fields 8 (cli s)
    have mem : (decided 8 (cli s)).mem = s.mem := congrArg Stack.mem stack
    have rsp : (decided 8 (cli s)).rsp = s.rsp := congrArg Stack.top stack
    have above : s.rsp - 8 + 16 = s.rsp + 8 := by
      rw [← add_eight_eight, sub_add_cancel]
    have apart : s.rsp + 8 ≠ s.rsp - 8 := by
      intro same
      bv_omega
    simp only [Stub.pushed, Stub.ripAddr, Stub.errorCode, Cpu.pushWord, rsp, mem, true_and]
    refine ⟨reg, Function.update_self _ _ _, ?_, kernel, user⟩
    rw [above, Function.update_of_ne apart]
  | trapEc trapno =>
    obtain ⟨reg, stack, kernel, user⟩ := decided_fields 16 (cli s)
    have mem : (decided 16 (cli s)).mem = s.mem := congrArg Stack.mem stack
    have rsp : (decided 16 (cli s)).rsp = s.rsp := congrArg Stack.top stack
    simp only [Stub.pushed, Stub.ripAddr, Stub.errorCode, rsp, mem, add_eight_eight, true_and]
    exact ⟨reg, (add_sub_cancel_right _ _).symm, kernel, user⟩

/-- A stub brings back the registers and exchanges GS in pairs, but no stub takes back its
error code: it reaches iretq eight bytes below the hardware's rip, and iretq takes the
error code for the rip. -/
theorem trap_stub_never_undoes {handler : Cpu → Cpu} (keeps : KeepsFrame handler)
    (stub : Stub) (s : Cpu) :
    ¬Undoes handler stub s ∧ (∀ r, (leaving handler stub s).reg r = s.reg r) ∧
    (leaving handler stub s).rsp = stub.ripAddr s - 8 ∧
    SwapsPaired s (entered handler stub s) (handler (entered handler stub s))
      (leaving handler stub s) ∧
    (execTrap handler stub.code none s).rip = stub.errorCode s := by
  obtain ⟨reg, rsp, error, code, kernel, user⟩ := pushed_fields stub s
  obtain ⟨reg', rsp', error', code', active', kept'⟩ :=
    unframed_handled keeps stub.trapno (stub.pushed s)
  obtain ⟨base, other⟩ := framed_gs stub.trapno (stub.pushed s)
  rw [← entered_eq handler] at reg' rsp' error' code' active' kept' base other
  obtain ⟨reg'', stack'', kernel'', user''⟩ :=
    decidedSti_fields 16 (unframed (handler (entered handler stub s)))
  rw [← leaving_eq] at reg'' stack'' kernel'' user''
  rw [rsp', code', code] at kernel'' user''
  have top : (leaving handler stub s).rsp = (stub.pushed s).rsp :=
    (congrArg Stack.top stack'').trans rsp'
  have low : (leaving handler stub s).rsp = stub.ripAddr s - 8 := top.trans rsp
  have inside : Unswapped (handler (entered handler stub s))
      (unframed (handler (entered handler stub s))) := by
    rw [Unswapped, active', kept', keeps.returns.gsBase, keeps.returns.kernelGsBase, base, other]
    exact ⟨rfl, rfl⟩
  refine ⟨fun undone => ?_, fun r => ?_, low, ?_, ?_⟩
  · have same := undone.rsp
    rw [low] at same
    bv_omega
  · rw [reg'', reg', reg]
  · by_cases zero : s.mem (stub.ripAddr s + 8) &&& 3 = 0
    · refine Or.inr ⟨?_, ?_⟩
      · exact ⟨base.trans (kernel zero).1, other.trans (kernel zero).2⟩
      · exact ⟨(kernel'' zero).1.trans inside.1, (kernel'' zero).2.trans inside.2⟩
    · refine Or.inl ⟨?_, ?_⟩
      · exact ⟨base.trans (user zero).1, other.trans (user zero).2⟩
      · exact ⟨(user'' zero).1.trans inside.2, (user'' zero).2.trans inside.1⟩
  · have mem : (leaving handler stub s).mem = (unframed (handler (entered handler stub s))).mem :=
      congrArg Stack.mem stack''
    rw [execTrap_stub, Cpu.iretq]
    simp only [top, mem, error', error]

end Steps

private theorem keepsFrame_id : KeepsFrame id :=
  ⟨⟨fun _ => rfl, fun _ => rfl, fun _ => rfl⟩, fun _ _ frame => frame⟩

theorem trap_stub_never_undoes_idle :
    ¬Undoes id breakpoint_handler (idleCpu.interrupt 0x8000 0x2000) := by
  exact (trap_stub_never_undoes keepsFrame_id breakpoint_handler _).1

/-- A stub does not take back all that it pushed, not even for a handler that does nothing. -/
theorem trap_stub_leaves_word : ¬∀ handler, KeepsFrame handler →
    ∀ stub s, Undoes handler stub s := by
  intro undoes
  have undone := (undoes id keepsFrame_id page_fault idleCpu).rsp
  have saved := (unframed_handled keepsFrame_id 10 (decided 16 (cli idleCpu))).2.1
  obtain ⟨_, stack, _⟩ := decidedSti_fields 16 (unframed (framed 10 (decided 16 (cli idleCpu))))
  have top := congrArg Stack.top stack
  rw [leaving_eq, entered_eq] at undone
  exact absurd (undone.symm.trans (top.trans saved)) (by decide)

end Algae.Platform.TrapStubs
