import Asnu.Lib.Record
import Asnu.Sched.Scheduler
import Asnu.Pmm.Region

/-!
The scheduler over the bytes of the memory that the allocator hands out. A
`Procedure` is 238 packed bytes at its address and the top of a stack is a word:
both may be bytes that the allocator's bitmap or another record is made of. The
variables of `scheduler.c` and the pushes of running code are not in this memory.
-/

namespace Asnu

open Lib

/-- The members of `Procedure`, with those of `state` and of `state.Regs` in their
places. -/
inductive ProcField where
  | pid
  | procState
  | privilegeLevel
  | threadId
  | id
  | parentCpuId
  | state
  | entryPoint
  | kernelStack
  | userStack
  | pagesMapped
  | timeUsedNs
  | timeSliceNs
  | isKernelProcedure
  | rax
  | rbx
  | rcx
  | rdx
  | rsi
  | rdi
  | rbp
  | rsp
  | r8
  | r9
  | r10
  | r11
  | r12
  | r13
  | r14
  | r15
  | rip
  | rflags
  | cr3
  | cs
  | ds
  | es
  | fs
  | gs
  | ss
  deriving DecidableEq

def procLayout : Layout ProcField where
  fields := [.pid, .procState, .privilegeLevel, .threadId, .id, .parentCpuId, .state, .entryPoint,
    .kernelStack, .userStack, .pagesMapped, .timeUsedNs, .timeSliceNs, .isKernelProcedure, .rax,
    .rbx, .rcx, .rdx, .rsi, .rdi, .rbp, .rsp, .r8, .r9, .r10, .r11, .r12, .r13, .r14, .r15, .rip,
    .rflags, .cr3, .cs, .ds, .es, .fs, .gs, .ss]
  width
    | .privilegeLevel | .isKernelProcedure => 1
    | .cs | .ds | .es | .fs | .gs | .ss => 2
    | .pid | .procState | .threadId | .id | .parentCpuId | .state => 4
    | _ => 8
  complete := by
    intro f
    cases f <;> decide
  fits := by decide

theorem size_procLayout : procLayout.size = sizeofProcedure.toNat := by decide

/-- The value of the enumeration constant. -/
def SchedulerState.code : SchedulerState → Nat
  | .procNew => 0
  | .procReady => 1
  | .procRunning => 2
  | .procWaiting => 3
  | .procSleeping => 4
  | .procTerminated => 5
  | .procSuspended => 6
  | .procIdle => 7

theorem SchedulerState.code_lt (st : SchedulerState) : st.code < 8 := by
  cases st <;> decide

/-- What the bytes of a record that holds `p` show. -/
def Procedure.field (p : Procedure) : ProcField → Nat
  | .pid => p.pid.toNat
  | .procState => p.procState.code
  | .privilegeLevel => p.privilegeLevel.toNat
  | .threadId => p.threadId.toNat
  | .id => p.state.id.toNat
  | .parentCpuId => p.state.parentCpuId.toNat
  | .state => p.state.state.code
  | .entryPoint => p.state.entryPoint.toNat
  | .kernelStack => p.state.kernelStack.toNat
  | .userStack => p.state.userStack.toNat
  | .pagesMapped => p.state.pagesMapped.toNat
  | .timeUsedNs => p.state.timeUsedNs.toNat
  | .timeSliceNs => p.state.timeSliceNs.toNat
  | .isKernelProcedure => p.state.isKernelProcedure.toNat
  | .rax => p.state.regs.rax.toNat
  | .rbx => p.state.regs.rbx.toNat
  | .rcx => p.state.regs.rcx.toNat
  | .rdx => p.state.regs.rdx.toNat
  | .rsi => p.state.regs.rsi.toNat
  | .rdi => p.state.regs.rdi.toNat
  | .rbp => p.state.regs.rbp.toNat
  | .rsp => p.state.regs.rsp.toNat
  | .r8 => p.state.regs.r8.toNat
  | .r9 => p.state.regs.r9.toNat
  | .r10 => p.state.regs.r10.toNat
  | .r11 => p.state.regs.r11.toNat
  | .r12 => p.state.regs.r12.toNat
  | .r13 => p.state.regs.r13.toNat
  | .r14 => p.state.regs.r14.toNat
  | .r15 => p.state.regs.r15.toNat
  | .rip => p.state.regs.rip.toNat
  | .rflags => p.state.regs.rflags.toNat
  | .cr3 => p.state.regs.cr3.toNat
  | .cs => p.state.regs.cs.toNat
  | .ds => p.state.regs.ds.toNat
  | .es => p.state.regs.es.toNat
  | .fs => p.state.regs.fs.toNat
  | .gs => p.state.regs.gs.toNat
  | .ss => p.state.regs.ss.toNat

/-- The fields that `create_proc` fills in, in their order, before it turns to the
stack. -/
def fillRecord (m : Memory) (p : Ptr) (pid : BitVec 32) (a : ProcArgs) : Memory :=
  let m := memset m p 0#32 sizeofProcedure
  let m := procLayout.putAll m p [
    (.pid, pid.toNat),
    (.procState, SchedulerState.procNew.code),
    (.privilegeLevel, (a.privilegeLevel &&& 3#8).toNat),
    (.threadId, 0)]
  procLayout.putAll m p [
    (.id, procLayout.get m p .pid),
    (.entryPoint, a.entryPoint.toNat),
    (.kernelStack, a.stackBase.toNat),
    (.userStack, (a.stackBase + a.stackSize).toNat),
    (.pagesMapped, 0),
    (.timeUsedNs, 0),
    (.timeSliceNs, 0),
    (.isKernelProcedure, (a.privilegeLevel == 0#8).toNat),
    (.rip, a.entryPoint.toNat),
    (.rflags, 0x202)]

/-- What `create_proc` stores once it has the record. -/
def initRecord (m : Memory) (p : Ptr) (pid : BitVec 32) (a : ProcArgs) : Memory :=
  let m := fillRecord m p pid a
  let stackTop := BitVec.ofNat 64 (procLayout.get m p .userStack) - 8#64
  let m := m.store64 stackTop 0#64
  procLayout.put m p .rsp stackTop.toNat

/-- The scheduler's variables, and the memory that the procedures are in. -/
structure SchedMem where
  pmm : Pmm
  procList : List Ptr
  currentProc : Ptr
  nextPid : BitVec 32

/-- The first `asm` block of `context_switch`: what it stores, in order. -/
def savedRegs (cpu : Cpu) : List (ProcField × Nat) :=
  [(.rax, cpu.rax.toNat), (.rbx, cpu.rbx.toNat), (.rcx, cpu.rcx.toNat), (.rdx, cpu.rdx.toNat),
    (.rsi, cpu.rsi.toNat), (.rdi, cpu.rdi.toNat), (.rbp, cpu.rbp.toNat), (.rsp, cpu.rsp.toNat),
    (.r8, cpu.r8.toNat), (.r9, cpu.r9.toNat), (.r10, cpu.r10.toNat), (.r11, cpu.r11.toNat),
    (.r12, cpu.r12.toNat), (.r13, cpu.r13.toNat), (.r14, cpu.r14.toNat), (.r15, cpu.r15.toNat),
    (.rflags, cpu.rflags.toNat)]

/-- The second `asm` block: the registers loaded from the fields of a record. -/
def loadedRegs (shown : ProcField → Nat) : Cpu where
  rax := BitVec.ofNat 64 (shown .rax)
  rbx := BitVec.ofNat 64 (shown .rbx)
  rcx := BitVec.ofNat 64 (shown .rcx)
  rdx := BitVec.ofNat 64 (shown .rdx)
  rsi := BitVec.ofNat 64 (shown .rsi)
  rdi := BitVec.ofNat 64 (shown .rdi)
  rbp := BitVec.ofNat 64 (shown .rbp)
  rsp := BitVec.ofNat 64 (shown .rsp)
  r8 := BitVec.ofNat 64 (shown .r8)
  r9 := BitVec.ofNat 64 (shown .r9)
  r10 := BitVec.ofNat 64 (shown .r10)
  r11 := BitVec.ofNat 64 (shown .r11)
  r12 := BitVec.ofNat 64 (shown .r12)
  r13 := BitVec.ofNat 64 (shown .r13)
  r14 := BitVec.ofNat 64 (shown .r14)
  r15 := BitVec.ofNat 64 (shown .r15)
  rflags := BitVec.ofNat 64 (shown .rflags)
  rip := BitVec.ofNat 64 (shown .rip)

namespace SchedMem

def procCount (s : SchedMem) : Nat := s.procList.length

/-- What the bytes at `p` show of a procedure. -/
def record (s : SchedMem) (p : Ptr) : ProcField → Nat := procLayout.get s.pmm.mem p

/-- Stores to fields of `*p`. -/
def store (s : SchedMem) (p : Ptr) (stores : List (ProcField × Nat)) : SchedMem :=
  { s with pmm := s.pmm.withMem (procLayout.putAll s.pmm.mem p stores) }

def setState (s : SchedMem) (p : Ptr) (st : SchedulerState) : SchedMem :=
  s.store p [(.procState, st.code)]

def createProc (s : SchedMem) (a : ProcArgs) : Ptr × SchedMem :=
  let (p, pmm) := kalloc s.pmm sizeofProcedure
  if p = NULL then (NULL, { s with pmm := pmm })
  else
    (p, { s with
      pmm := pmm.withMem (initRecord pmm.mem p s.nextPid a)
      nextPid := s.nextPid + 1#32 })

def registerProc (s : SchedMem) (proc : Ptr) : SchedMem :=
  if s.procCount ≥ maxProcs then s
  else
    let s := { s with procList := s.procList ++ [proc] }
    let s := s.setState proc .procReady
    if s.currentProc = NULL then
      { s with currentProc := proc }.setState proc .procRunning
    else s

def schedulerInit (s : SchedMem) : SchedMem :=
  { s with procList := [], currentProc := NULL, nextPid := 1#32 }

def proc (s : SchedMem) (i : Nat) : Ptr := s.procList.getD i NULL

/-- `p->proc_state == PROC_READY || p->proc_state == PROC_IDLE`. -/
def ready (s : SchedMem) (p : Ptr) : Bool :=
  s.record p .procState == SchedulerState.procReady.code ||
    s.record p .procState == SchedulerState.procIdle.code

/-- The start of the search: one past the first occurrence of the current
process, or 0. -/
def searchStart (s : SchedMem) : Nat :=
  if s.currentProc = NULL then 0
  else match first (fun i => s.proc i == s.currentProc) s.procCount with
    | some i => (i + 1) % s.procCount
    | none => 0

def findNextProc (s : SchedMem) : Ptr :=
  if s.procCount = 0 then NULL
  else
    let start := s.searchStart
    match first (fun i => s.ready (s.proc ((start + i) % s.procCount))) s.procCount with
    | some i => s.proc ((start + i) % s.procCount)
    | none => NULL

/-- The state that is left, and the registers that the CPU is loaded with by the jump,
if there is one. -/
def contextSwitch (s : SchedMem) (cpu : Cpu) : SchedMem × Option Cpu :=
  let next := s.findNextProc
  if next = NULL then (s, none)
  else
    let prev := s.currentProc
    if prev = next then (s, none)
    else
      let s := if prev = NULL then s
        else (s.store prev (savedRegs cpu)).setState prev .procReady
      let s := s.setState next .procRunning
      let s := { s with currentProc := next }
      (s, some (loadedRegs (s.record next)))

/-- A switch leaves this process and takes up `next`. -/
def Dispatches (s : SchedMem) (next : Ptr) : Prop :=
  s.findNextProc = next ∧ next ≠ NULL ∧ s.currentProc ≠ next

end SchedMem

/-- Where `create_proc` leaves the first stack pointer. -/
def ProcArgs.stackTop (a : ProcArgs) : Ptr := a.stackBase + a.stackSize - 8#64

/-- No byte of the bitmap is one of the `n` bytes from `p` on. -/
def Pmm.Spares (s : Pmm) (p : Ptr) (n : Nat) : Prop :=
  ∀ k < s.file.bitmapLength.toNat, ¬ InRange p n (s.file.bitmapBase + BitVec.ofNat 64 k)

instance Pmm.decidableSpares (s : Pmm) (p : Ptr) (n : Nat) : Decidable (s.Spares p n) :=
  inferInstanceAs (Decidable (∀ k < s.file.bitmapLength.toNat, _))

theorem Pmm.Spares.of_file_eq {s t : Pmm} {p : Ptr} {n : Nat} (h : s.Spares p n)
    (hfile : t.file = s.file) : t.Spares p n := by
  rw [Spares, hfile]
  exact h

/-- Stores to such bytes leave the bits alone. -/
theorem Pmm.Spares.bit_eq {s t : Pmm} {p : Ptr} {n : Nat} (h : s.Spares p n)
    (hfile : t.file = s.file) (hout : ∀ x, ¬ InRange p n x → t.mem x = s.mem x) {j : Nat}
    (hj : j < s.bitCount) : t.bit j = s.bit j :=
  Pmm.bit_of_bytes_eq hfile (fun k hk => hout _ (h k hk)) hj

/-! ### What a new record shows -/

section InitRecord

variable (m : Memory) (p : Ptr) (pid : BitVec 32) (a : ProcArgs)

theorem get_memset_record :
    procLayout.get (memset m p 0#32 sizeofProcedure) p = fun _ => 0 := by
  rw [memset_eq_fill]
  exact Layout.get_of_zero (fun x hx => Memory.fill_in m _ (size_procLayout ▸ hx))

theorem fillRecord_out {x : Ptr} (hx : ¬ procLayout.Has p x) : fillRecord m p pid a x = m x := by
  rw [fillRecord, Layout.putAll_out _ _ hx, Layout.putAll_out _ _ hx, memset_eq_fill]
  exact Memory.fill_out m _ (size_procLayout ▸ hx)

/-- The structure before `rsp` is stored. -/
def Procedure.withoutStack (proc : Procedure) : Procedure :=
  { proc with state := { proc.state with regs := { proc.state.regs with rsp := 0#64 } } }

theorem get_fillRecord :
    procLayout.get (fillRecord m p pid a) p = (initProc pid a).withoutStack.field := by
  rw [fillRecord, Layout.get_putAll, Layout.get_putAll, get_memset_record]
  funext f
  cases f <;>
    simp [Function.update, procLayout, Procedure.field, Procedure.withoutStack, initProc,
      SchedulerState.code]
  -- what is left is that the values fit their fields
  case pid => exact pid.isLt
  case id => exact pid.isLt
  case privilegeLevel => exact Nat.and_le_left.trans_lt a.privilegeLevel.isLt
  case entryPoint => exact a.entryPoint.isLt
  case kernelStack => exact a.stackBase.isLt
  case isKernelProcedure => exact (Bool.toNat_lt _).trans (by decide)
  case rip => exact a.entryPoint.isLt

theorem initRecord_eq : initRecord m p pid a =
    procLayout.put ((fillRecord m p pid a).store64 a.stackTop 0#64) p .rsp a.stackTop.toNat := by
  have htop : BitVec.ofNat 64 (procLayout.get (fillRecord m p pid a) p .userStack) - 8#64 =
      a.stackTop := by
    rw [get_fillRecord]
    change BitVec.ofNat 64 (a.stackBase + a.stackSize).toNat - 8#64 = a.stackTop
    rw [BitVec.ofNat_toNat, BitVec.setWidth_eq]
    rfl
  rw [initRecord, htop]

theorem initRecord_out {x : Ptr} (hx : ¬ procLayout.Has p x) (hword : ¬ InRange a.stackTop 8 x) :
    initRecord m p pid a x = m x := by
  rw [initRecord_eq, Layout.put_out _ _ _ hx, Memory.store64_out _ _ hword, fillRecord_out _ _ _ _ hx]

theorem initRecord_word {x : Ptr} (hx : ¬ procLayout.Has p x) (hword : InRange a.stackTop 8 x) :
    initRecord m p pid a x = 0#8 := by
  rw [initRecord_eq, Layout.put_out _ _ _ hx, Memory.store64, if_pos hword]
  exact congrArg (BitVec.ofNat 8) (Nat.zero_div _)

/-- A record that the word on the stack is not in shows what `create_proc` meant to
store. -/
theorem get_initRecord (hword : ∀ x, InRange a.stackTop 8 x → ¬ procLayout.Has p x) :
    procLayout.get (initRecord m p pid a) p = (initProc pid a).field := by
  have hkept : procLayout.get ((fillRecord m p pid a).store64 a.stackTop 0#64) p =
      procLayout.get (fillRecord m p pid a) p :=
    Layout.get_congr (fun x hx => Memory.store64_out _ _ (fun hin => hword x hin hx))
  rw [initRecord_eq, Layout.get_put, hkept, get_fillRecord]
  funext f
  by_cases hf : f = .rsp
  · rw [hf, Function.update_self]
    exact Nat.mod_eq_of_lt a.stackTop.isLt
  · rw [Function.update_of_ne hf]
    cases f <;> first | rfl | exact absurd rfl hf

end InitRecord

/-! ### What the two `asm` blocks do to a record -/

theorem loadedRegs_field (proc : Procedure) :
    loadedRegs proc.field = restoreRegs proc.state.regs := by
  simp [loadedRegs, restoreRegs, Procedure.field]

/-- The record with the registers of `cpu` saved in it. -/
def Procedure.saved (proc : Procedure) (cpu : Cpu) : Procedure :=
  { proc with state := { proc.state with regs := saveRegs cpu proc.state.regs } }

/-- Stores to fields, as updates of what a record shows. -/
def updated (shown : ProcField → Nat) (stores : List (ProcField × Nat)) : ProcField → Nat :=
  stores.foldl (fun shown e => Function.update shown e.1 (e.2 % 256 ^ procLayout.width e.1)) shown

theorem updated_savedRegs (proc : Procedure) (cpu : Cpu) :
    updated proc.field (savedRegs cpu) = (proc.saved cpu).field := by
  funext f
  cases f <;>
    simp [updated, savedRegs, Function.update, procLayout, Procedure.field, Procedure.saved,
      saveRegs, Nat.mod_eq_of_lt (BitVec.isLt _)]

theorem updated_setState (proc : Procedure) (st : SchedulerState) :
    updated proc.field [(.procState, st.code)] = { proc with procState := st }.field := by
  funext f
  cases f <;> simp [updated, Function.update, procLayout, Procedure.field]
  exact st.code_lt.trans (by decide)

end Asnu
