import Asnu.Pmm.Allocator

/-!
The scheduler of `scheduler.c` over objects: procedures are named by their address,
and neither they nor the words on the stacks are bytes of the allocator's memory.
`SchedMem` is the same code over those bytes; `Shows` says when the bytes are to be
read as these objects, which they are as long as nothing is stored over the bitmap or
over another record. `proc_list` and `proc_count` are one list, the registered
processes in order.
-/

namespace Asnu

open Lib

inductive SchedulerState where
  | procNew
  | procReady
  | procRunning
  | procWaiting
  | procSleeping
  | procTerminated
  | procSuspended
  | procIdle
  deriving DecidableEq, Repr

structure RegisterState where
  rax : BitVec 64 := 0#64
  rbx : BitVec 64 := 0#64
  rcx : BitVec 64 := 0#64
  rdx : BitVec 64 := 0#64
  rsi : BitVec 64 := 0#64
  rdi : BitVec 64 := 0#64
  rbp : BitVec 64 := 0#64
  rsp : BitVec 64 := 0#64
  r8 : BitVec 64 := 0#64
  r9 : BitVec 64 := 0#64
  r10 : BitVec 64 := 0#64
  r11 : BitVec 64 := 0#64
  r12 : BitVec 64 := 0#64
  r13 : BitVec 64 := 0#64
  r14 : BitVec 64 := 0#64
  r15 : BitVec 64 := 0#64
  rip : BitVec 64 := 0#64
  rflags : BitVec 64 := 0#64
  cr3 : BitVec 64 := 0#64
  cs : BitVec 16 := 0#16
  ds : BitVec 16 := 0#16
  es : BitVec 16 := 0#16
  fs : BitVec 16 := 0#16
  gs : BitVec 16 := 0#16
  ss : BitVec 16 := 0#16
  deriving DecidableEq

structure CPUState where
  id : BitVec 32 := 0#32
  parentCpuId : BitVec 32 := 0#32
  state : SchedulerState := .procNew
  entryPoint : BitVec 64 := 0#64
  kernelStack : BitVec 64 := 0#64
  userStack : BitVec 64 := 0#64
  pagesMapped : BitVec 64 := 0#64
  timeUsedNs : BitVec 64 := 0#64
  timeSliceNs : BitVec 64 := 0#64
  isKernelProcedure : Bool := false
  regs : RegisterState := {}
  deriving DecidableEq

/-- The defaults are what `memset(p, 0, sizeof(Procedure))` leaves. -/
structure Procedure where
  pid : BitVec 32 := 0#32
  procState : SchedulerState := .procNew
  privilegeLevel : BitVec 8 := 0#8
  threadId : BitVec 32 := 0#32
  state : CPUState := {}
  deriving DecidableEq

/-- The size of the packed structure in bytes. -/
def sizeofProcedure : BitVec 64 := 238#64

/-- The registers the CPU holds: the 16 general registers, `rflags`, and the
address at which execution continues. -/
structure Cpu where
  rax : BitVec 64
  rbx : BitVec 64
  rcx : BitVec 64
  rdx : BitVec 64
  rsi : BitVec 64
  rdi : BitVec 64
  rbp : BitVec 64
  rsp : BitVec 64
  r8 : BitVec 64
  r9 : BitVec 64
  r10 : BitVec 64
  r11 : BitVec 64
  r12 : BitVec 64
  r13 : BitVec 64
  r14 : BitVec 64
  r15 : BitVec 64
  rflags : BitVec 64
  rip : BitVec 64
  deriving DecidableEq

def maxProcs : Nat := 1024

structure Sched where
  procs : Ptr → Procedure
  stackWords : Ptr → BitVec 64
  procList : List Ptr
  currentProc : Ptr
  nextPid : BitVec 32

namespace Sched

def procCount (s : Sched) : Nat := s.procList.length

/-- Store through the pointer `p`. -/
def update (s : Sched) (p : Ptr) (f : Procedure → Procedure) : Sched :=
  { s with procs := fun q => if q = p then f (s.procs q) else s.procs q }

def setState (s : Sched) (p : Ptr) (st : SchedulerState) : Sched :=
  s.update p (fun proc => { proc with procState := st })

end Sched

/-- The parameters of `create_proc` that its body reads. -/
structure ProcArgs where
  entryPoint : BitVec 64
  privilegeLevel : BitVec 8
  stackBase : BitVec 64
  stackSize : BitVec 64
  deriving DecidableEq

/-- The fields `create_proc` fills in, over a zeroed structure. -/
def initProc (pid : BitVec 32) (a : ProcArgs) : Procedure :=
  let userStack := a.stackBase + a.stackSize
  { pid := pid
    procState := .procNew
    privilegeLevel := a.privilegeLevel &&& 3#8
    threadId := 0#32
    state := {
      id := pid
      entryPoint := a.entryPoint
      kernelStack := a.stackBase
      userStack := userStack
      pagesMapped := 0#64
      timeUsedNs := 0#64
      timeSliceNs := 0#64
      isKernelProcedure := a.privilegeLevel == 0#8
      regs := {
        rip := a.entryPoint
        rflags := 0x202#64
        rsp := userStack - 8#64 } } }

def createProc (pmm : Pmm) (s : Sched) (a : ProcArgs) : Ptr × Pmm × Sched :=
  let (p, pmm) := kalloc pmm sizeofProcedure
  if p = NULL then (NULL, pmm, s)
  else
    let stackTop := a.stackBase + a.stackSize - 8#64
    (p, pmm, { s.update p (fun _ => initProc s.nextPid a) with
      stackWords := fun x => if x = stackTop then 0#64 else s.stackWords x
      nextPid := s.nextPid + 1#32 })

def registerProc (s : Sched) (proc : Ptr) : Sched :=
  if s.procCount ≥ maxProcs then s
  else
    let s := { s with procList := s.procList ++ [proc] }
    let s := s.setState proc .procReady
    if s.currentProc = NULL then
      { s.setState proc .procRunning with currentProc := proc }
    else s

def schedulerInit (s : Sched) : Sched :=
  { s with procList := [], currentProc := NULL, nextPid := 1#32 }

def eligible (p : Procedure) : Bool :=
  p.procState == .procReady || p.procState == .procIdle

namespace Sched

def proc (s : Sched) (i : Nat) : Ptr := s.procList.getD i NULL

/-- The start of the search: one past the first occurrence of the current
process, or 0. -/
def searchStart (s : Sched) : Nat :=
  if s.currentProc = NULL then 0
  else match first (fun i => s.proc i == s.currentProc) s.procCount with
    | some i => (i + 1) % s.procCount
    | none => 0

end Sched

def findNextProc (s : Sched) : Ptr :=
  if s.procCount = 0 then NULL
  else
    let start := s.searchStart
    match first (fun i => eligible (s.procs (s.proc ((start + i) % s.procCount))))
        s.procCount with
    | some i => s.proc ((start + i) % s.procCount)
    | none => NULL

/-- The first `asm` block of `context_switch`: the fields it stores into. -/
def saveRegs (cpu : Cpu) (r : RegisterState) : RegisterState :=
  { r with
    rax := cpu.rax, rbx := cpu.rbx, rcx := cpu.rcx, rdx := cpu.rdx
    rsi := cpu.rsi, rdi := cpu.rdi, rbp := cpu.rbp, rsp := cpu.rsp
    r8 := cpu.r8, r9 := cpu.r9, r10 := cpu.r10, r11 := cpu.r11
    r12 := cpu.r12, r13 := cpu.r13, r14 := cpu.r14, r15 := cpu.r15
    rflags := cpu.rflags }

/-- The second `asm` block: the fields it loads, the last one by the jump. -/
def restoreRegs (r : RegisterState) : Cpu :=
  { rax := r.rax, rbx := r.rbx, rcx := r.rcx, rdx := r.rdx
    rsi := r.rsi, rdi := r.rdi, rbp := r.rbp, rsp := r.rsp
    r8 := r.r8, r9 := r.r9, r10 := r.r10, r11 := r.r11
    r12 := r.r12, r13 := r.r13, r14 := r.r14, r15 := r.r15
    rflags := r.rflags, rip := r.rip }

/-- How control leaves `context_switch`: by returning to its caller, or by the
jump with the registers loaded for another process. -/
inductive Exit where
  | ret (s : Sched)
  | jump (s : Sched) (cpu : Cpu)

def Exit.sched : Exit → Sched
  | .ret s => s
  | .jump s _ => s

/-- The registers the CPU is loaded with, if there is a jump. -/
def Exit.cpu? : Exit → Option Cpu
  | .ret _ => none
  | .jump _ cpu => some cpu

def Sched.saveContext (s : Sched) (p : Ptr) (cpu : Cpu) : Sched :=
  s.update p (fun proc =>
    { proc with state := { proc.state with regs := saveRegs cpu proc.state.regs } })

def contextSwitch (s : Sched) (cpu : Cpu) : Exit :=
  let next := findNextProc s
  if next = NULL then .ret s
  else
    let prev := s.currentProc
    if prev = next then .ret s
    else
      let s := if prev = NULL then s
        else (s.saveContext prev cpu).setState prev .procReady
      let s := s.setState next .procRunning
      let s := { s with currentProc := next }
      .jump s (restoreRegs (s.procs next).state.regs)

namespace Sched

/-- The state after `p` is appended to the list and made ready. -/
def appended (s : Sched) (p : Ptr) : Sched :=
  { s.setState p .procReady with procList := s.procList ++ [p] }

/-- The state after the first process `p` is appended and made current. -/
def started (s : Sched) (p : Ptr) : Sched :=
  { (s.setState p .procReady).setState p .procRunning with
    procList := s.procList ++ [p]
    currentProc := p }

/-- The state after a successful `create_proc` that returns `p`. -/
def spawned (s : Sched) (p : Ptr) (a : ProcArgs) : Sched :=
  { s.update p (fun _ => initProc s.nextPid a) with
    stackWords := fun x => if x = a.stackBase + a.stackSize - 8#64 then 0#64
      else s.stackWords x
    nextPid := s.nextPid + 1#32 }

/-- A switch leaves this process and takes up `next`. -/
def Dispatches (s : Sched) (next : Ptr) : Prop :=
  findNextProc s = next ∧ next ≠ NULL ∧ s.currentProc ≠ next

instance (s : Sched) (next : Ptr) : Decidable (s.Dispatches next) :=
  inferInstanceAs (Decidable (_ ∧ _))

/-- The record of `q` after a switch from `prev` to `next`. -/
def switched (s : Sched) (prev next : Ptr) (cpu : Cpu) (q : Ptr) : Procedure :=
  if q = next then { s.procs q with procState := .procRunning }
  else if prev ≠ NULL ∧ q = prev then
    { s.procs q with
      procState := .procReady
      state := { (s.procs q).state with
        regs := saveRegs cpu (s.procs q).state.regs } }
  else s.procs q

end Sched

/-- A creation fails for lack of memory and leaves the scheduler alone, or fills in the
record that the allocator returns. -/
theorem createProc_cases (pmm : Pmm) (s : Sched) (a : ProcArgs) :
    ((kalloc pmm sizeofProcedure).1 = NULL ∧
        createProc pmm s a = (NULL, (kalloc pmm sizeofProcedure).2, s)) ∨
      ((kalloc pmm sizeofProcedure).1 ≠ NULL ∧
        createProc pmm s a = ((kalloc pmm sizeofProcedure).1, (kalloc pmm sizeofProcedure).2,
          s.spawned (kalloc pmm sizeofProcedure).1 a)) := by
  unfold createProc
  by_cases hnull : (kalloc pmm sizeofProcedure).1 = NULL
  · exact Or.inl ⟨hnull, if_pos hnull⟩
  · exact Or.inr ⟨hnull, if_neg hnull⟩

/-- A registration is refused, makes the process ready, or, when nobody is
current, makes it current. -/
theorem registerProc_cases (s : Sched) (p : Ptr) :
    (maxProcs ≤ s.procCount ∧ registerProc s p = s) ∨
    (s.procCount < maxProcs ∧ s.currentProc = NULL ∧
      registerProc s p = s.started p) ∨
    (s.procCount < maxProcs ∧ s.currentProc ≠ NULL ∧
      registerProc s p = s.appended p) := by
  unfold registerProc
  by_cases hfull : s.procCount ≥ maxProcs
  · exact Or.inl ⟨hfull, if_pos hfull⟩
  · rw [if_neg hfull]
    have hlt : s.procCount < maxProcs := Nat.lt_of_not_le hfull
    by_cases hcur : s.currentProc = NULL
    · exact Or.inr (Or.inl ⟨hlt, hcur, if_pos hcur⟩)
    · exact Or.inr (Or.inr ⟨hlt, hcur, if_neg hcur⟩)

/-- Registering writes the state of a process and nothing else of it. -/
theorem registerProc_state (s : Sched) (p q : Ptr) :
    ((registerProc s p).procs q).state = (s.procs q).state := by
  rcases registerProc_cases s p with ⟨_, hexec⟩ | ⟨_, _, hexec⟩ | ⟨_, _, hexec⟩
  · rw [hexec]
  · by_cases hq : q = p <;>
      simp [hexec, Sched.started, Sched.setState, Sched.update, hq]
  · by_cases hq : q = p <;>
      simp [hexec, Sched.appended, Sched.setState, Sched.update, hq]

/-- The processes after the stores of a switch from `prev` to `next`. -/
theorem switch_procs (s : Sched) {prev next : Ptr} (cpu : Cpu)
    (hne : next ≠ prev) :
    ((if prev = NULL then s
      else (s.saveContext prev cpu).setState prev .procReady).setState next
        .procRunning).procs = s.switched prev next cpu := by
  funext q
  by_cases hprev : prev = NULL
  · by_cases hq : q = next <;>
      simp [Sched.setState, Sched.update, Sched.switched, hprev, hq]
  · by_cases hq : q = next
    · simp [Sched.setState, Sched.saveContext, Sched.update, Sched.switched,
        hprev, hq, hne]
    · by_cases hp : q = prev <;>
        simp [Sched.setState, Sched.saveContext, Sched.update,
          Sched.switched, hprev, hq, hp, hne.symm]

/-- Everything a switch can do. It returns and leaves the state alone when the
search yields nothing or the current process; otherwise it saves into the
current process, if there is one, and jumps into the process found. -/
theorem contextSwitch_cases (s : Sched) (cpu : Cpu) :
    (contextSwitch s cpu = .ret s ∧ ∀ p, ¬ s.Dispatches p) ∨
    ∃ next, s.Dispatches next ∧
      contextSwitch s cpu = .jump
        { s with
          procs := s.switched s.currentProc next cpu
          currentProc := next }
        (restoreRegs (s.procs next).state.regs) := by
  unfold contextSwitch
  by_cases hnull : findNextProc s = NULL
  · rw [if_pos hnull]
    exact Or.inl ⟨rfl, fun p h => h.2.1 (h.1.symm.trans hnull)⟩
  · by_cases hsame : s.currentProc = findNextProc s
    · rw [if_neg hnull, if_pos hsame]
      exact Or.inl ⟨rfl, fun p h => h.2.2 (hsame.trans h.1)⟩
    · refine Or.inr ⟨findNextProc s, ⟨rfl, hnull, hsame⟩, ?_⟩
      have hprocs := switch_procs s cpu (fun h => hsame h.symm)
      simp only [if_neg hnull, if_neg hsame]
      congr 1
      · rw [← hprocs]
        split <;> rfl
      · rw [hprocs]
        simp [Sched.switched]

namespace Sample

/-- The variables before `scheduler_init`. -/
def idleSched : Sched where
  procs := fun _ => {}
  stackWords := fun _ => 0#64
  procList := []
  currentProc := NULL
  nextPid := 0#32

end Sample

end Asnu
