import Asnu.Idt.PageFault
import Asnu.Lib.Stack

/-!
The exception stubs of `idt.asm`: what the CPU pushes before them, the
instructions they are made of, and what `iretq` takes back. The handler they
call is any code that keeps to the calling convention. The flags that `xor`
sets are left out, `iretq` loads the flags it finds in the frame.
-/

namespace Asnu

open Lib

inductive Reg where
  | rax | rbx | rcx | rdx | rsi | rdi | rbp | rsp
  | r8 | r9 | r10 | r11 | r12 | r13 | r14 | r15
  deriving DecidableEq

/-- What an exception saves, and the memory with the stack. -/
structure Core where
  regs : Reg → BitVec 64
  rip : BitVec 64
  cs : BitVec 16
  rflags : BitVec 64
  ss : BitVec 16
  mem : Memory
  /-- Where `iretq` has found a frame last. -/
  frame : BitVec 64

inductive Instr where
  | push (r : Reg)
  | pop (r : Reg)
  | mov (r : Reg) (n : BitVec 64)
  | xor (dst src : Reg)
  | callHandler
  | iretq
  deriving DecidableEq

namespace Core

def set (c : Core) (r : Reg) (v : BitVec 64) : Core :=
  { c with regs := Function.update c.regs r v }

def push (c : Core) (v : BitVec 64) : Core :=
  { c.set .rsp (c.regs .rsp - 8#64) with
    mem := c.mem.store64 (c.regs .rsp - 8#64) v }

def pop (c : Core) : BitVec 64 × Core :=
  (c.mem.load64 (c.regs .rsp), c.set .rsp (c.regs .rsp + 8#64))

def popTo (c : Core) (r : Reg) : Core := c.pop.2.set r c.pop.1

def pushFrom (c : Core) (r : Reg) : Core := c.push (c.regs r)

/-- In 64-bit mode `iretq` takes five words, the stack pointer among them. -/
def iretq (c : Core) : Core :=
  let frame := c.regs .rsp
  let (rip, c) := c.pop
  let (cs, c) := c.pop
  let (rflags, c) := c.pop
  let (rsp, c) := c.pop
  let (ss, c) := c.pop
  { c.set .rsp rsp with
    rip := rip
    cs := cs.setWidth 16
    rflags := rflags
    ss := ss.setWidth 16
    frame := frame }

/-- The return address of the call is pushed and popped inside the handler. -/
def exec (handler : Core → Option Core) (c : Core) : Instr → Option Core
  | .push r => some (c.pushFrom r)
  | .pop r => some (c.popTo r)
  | .mov r n => some (c.set r n)
  | .xor dst src => some (c.set dst (c.regs dst ^^^ c.regs src))
  | .callHandler => handler c
  | .iretq => some c.iretq

def run (handler : Core → Option Core) : Core → List Instr → Option Core
  | c, [] => some c
  | c, i :: is => (c.exec handler i).bind (fun c => run handler c is)

end Core

/-- The vectors with an error code. -/
def pushesErrorCode (vector : Fin 32) : Bool :=
  vector ∈ [8, 10, 11, 12, 13, 14, 17, 21, 29, 30]

/-- What the CPU does on an exception: from `top` on it pushes what it
interrupts. `top` is in the interrupted stack or, from user mode, in another. -/
def Core.raise (c : Core) (top : BitVec 64) (vector : Fin 32) (errCode : BitVec 64) : Core :=
  let framed := (((((c.set .rsp top).push (c.ss.setWidth 64)).push (c.regs .rsp)).push
    c.rflags).push (c.cs.setWidth 64)).push c.rip
  if pushesErrorCode vector then framed.push errCode else framed

def isrErrStub (n : BitVec 64) : List Instr :=
  [.pop .rsi, .push .rdi, .mov .rdi n, .callHandler, .pop .rdi, .iretq]

def isrNoErrStub (n : BitVec 64) : List Instr :=
  [.push .rsi, .push .rdi, .xor .rsi .rsi, .mov .rdi n, .callHandler, .pop .rdi, .pop .rsi,
    .iretq]

def isrStubTable : List (List Instr) :=
  [isrNoErrStub 0, isrNoErrStub 1, isrNoErrStub 2, isrNoErrStub 3, isrNoErrStub 4,
    isrNoErrStub 5, isrNoErrStub 6, isrNoErrStub 7, isrErrStub 8, isrNoErrStub 9,
    isrErrStub 10, isrErrStub 11, isrErrStub 12, isrErrStub 13, isrErrStub 14,
    isrNoErrStub 15, isrNoErrStub 16, isrErrStub 17, isrNoErrStub 18, isrNoErrStub 19,
    isrNoErrStub 20, isrNoErrStub 21, isrNoErrStub 22, isrNoErrStub 23, isrNoErrStub 24,
    isrNoErrStub 25, isrNoErrStub 26, isrNoErrStub 27, isrNoErrStub 28, isrNoErrStub 29,
    isrErrStub 30, isrNoErrStub 31]

/-- The stub that the descriptor of a vector points to. -/
def isrStub (vector : Fin 32) : List Instr := isrStubTable.getD vector []

/-- The vectors whose stub pops an error code. -/
def popsErrorCode (vector : Fin 32) : Bool :=
  vector ∈ [8, 10, 11, 12, 13, 14, 17, 30]

theorem isrStub_eq (vector : Fin 32) : isrStub vector =
    if popsErrorCode vector then isrErrStub (BitVec.ofNat 64 vector)
    else isrNoErrStub (BitVec.ofNat 64 vector) := by
  revert vector
  decide

namespace Core

variable {c x u : Core} {top w v : BitVec 64} {ws : List (BitVec 64)} {q r : Reg}

@[simp] theorem set_self : (c.set r v).regs r = v := by
  simp [set]

theorem set_ne (h : q ≠ r) : (c.set r v).regs q = c.regs q := by
  simp [set, h]

@[simp] theorem push_rsp : (c.push v).regs .rsp = c.regs .rsp - 8#64 := by
  simp [push]

theorem push_ne (h : q ≠ .rsp) : (c.push v).regs q = c.regs q := set_ne h

@[simp] theorem pop_rsp : c.pop.2.regs .rsp = c.regs .rsp + 8#64 := set_self

theorem pop_ne (h : q ≠ .rsp) : c.pop.2.regs q = c.regs q := set_ne h

/-- The words between the stack pointer and `top`. -/
def Stack (c : Core) (top : BitVec 64) (ws : List (BitVec 64)) : Prop :=
  StackAt c.mem top (c.regs .rsp) ws

theorem Stack.set (h : c.Stack top ws) (hr : r ≠ .rsp) : (c.set r v).Stack top ws := by
  rw [Stack, set_ne hr.symm]
  exact h

theorem Stack.push (h : c.Stack top ws) (hfit : ws.length < 16) (v : BitVec 64) :
    (c.push v).Stack top (v :: ws) := by
  rw [Stack, push_rsp]
  exact StackAt.push h (by omega) v

theorem Stack.pop (h : c.Stack top (w :: ws)) : c.pop.1 = w ∧ c.pop.2.Stack top ws := by
  rw [Stack, pop_rsp]
  exact StackAt.pop h

theorem pushFrom_ne (h : q ≠ .rsp) : (c.pushFrom r).regs q = c.regs q := push_ne h

theorem popTo_ne (h : q ≠ .rsp) (hr : q ≠ r) : (c.popTo r).regs q = c.regs q := by
  rw [popTo, set_ne hr, pop_ne h]

theorem Stack.pushFrom (h : c.Stack top ws) (hfit : ws.length < 16) (r : Reg) :
    (c.pushFrom r).Stack top (c.regs r :: ws) := h.push hfit (c.regs r)

theorem Stack.popTo (h : c.Stack top (w :: ws)) (hr : r ≠ .rsp) :
    (c.popTo r).regs r = w ∧ (c.popTo r).Stack top ws := by
  obtain ⟨hw, hws⟩ := h.pop
  exact ⟨by rw [Core.popTo, set_self, hw], hws.set hr⟩

/-- What the CPU pushes, the last word first. -/
def frameWords (c : Core) : List (BitVec 64) :=
  [c.rip, c.cs.setWidth 64, c.rflags, c.regs .rsp, c.ss.setWidth 64]

@[simp] theorem length_frameWords (c : Core) : c.frameWords.length = 5 := rfl

theorem raise_stack (c : Core) (top : BitVec 64) (vector : Fin 32) (errCode : BitVec 64) :
    (c.raise top vector errCode).Stack top
      (if pushesErrorCode vector then errCode :: c.frameWords else c.frameWords) := by
  have hstart : (c.set .rsp top).Stack top [] := by
    rw [Stack, set_self]
    exact StackAt.start _ top
  have hframe := ((((hstart.push (by decide) (c.ss.setWidth 64)).push (by simp)
    (c.regs .rsp)).push (by simp) c.rflags).push (by simp) (c.cs.setWidth 64)).push (by simp)
    c.rip
  rw [raise]
  by_cases hpushes : pushesErrorCode vector
  · rw [if_pos hpushes, if_pos hpushes]
    exact hframe.push (by simp) errCode
  · rw [if_neg hpushes, if_neg hpushes]
    exact hframe

theorem raise_ne (vector : Fin 32) (errCode : BitVec 64) (h : q ≠ .rsp) :
    (c.raise top vector errCode).regs q = c.regs q := by
  have hframed : ∀ v1 v2 v3 v4 v5, ((((((c.set .rsp top).push v1).push v2).push v3).push
      v4).push v5).regs q = c.regs q := by
    intro v1 v2 v3 v4 v5
    rw [push_ne h, push_ne h, push_ne h, push_ne h, push_ne h, set_ne h]
  rw [raise]
  split
  · rw [push_ne h, hframed]
  · rw [hframed]

/-- The words that `iretq` takes, in their order. -/
theorem iretq_eq (c : Core) : c.iretq =
    { c.pop.2.pop.2.pop.2.pop.2.pop.2.set .rsp c.pop.2.pop.2.pop.2.pop.1 with
      rip := c.pop.1
      cs := c.pop.2.pop.1.setWidth 16
      rflags := c.pop.2.pop.2.pop.1
      ss := c.pop.2.pop.2.pop.2.pop.2.pop.1.setWidth 16
      frame := c.regs .rsp } := rfl

theorem iretq_ne (h : q ≠ .rsp) : c.iretq.regs q = c.regs q := by
  simp only [iretq_eq]
  rw [set_ne h, pop_ne h, pop_ne h, pop_ne h, pop_ne h, pop_ne h]

end Core

/-- The interrupted code goes on as if nothing had happened, and the frame was
taken from where the CPU had put it. -/
structure Resumes (c c' : Core) (top : BitVec 64) : Prop where
  regs : ∀ r, c'.regs r = c.regs r
  rip : c'.rip = c.rip
  cs : c'.cs = c.cs
  rflags : c'.rflags = c.rflags
  ss : c'.ss = c.ss
  frame : c'.frame = top - 40#64

namespace Core

variable {c x u : Core} {top : BitVec 64}

/-- `iretq` undoes what the CPU did. -/
theorem iretq_resumes (h : u.Stack top c.frameWords)
    (hregs : ∀ r, r ≠ .rsp → u.regs r = c.regs r) : Resumes c u.iretq top := by
  have hframe : u.regs .rsp = top - 40#64 := h.pointer
  obtain ⟨hrip, h1⟩ := h.pop
  obtain ⟨hcs, h2⟩ := h1.pop
  obtain ⟨hrflags, h3⟩ := h2.pop
  obtain ⟨hrsp, h4⟩ := h3.pop
  obtain ⟨hss, _⟩ := h4.pop
  have hregs : ∀ r, u.iretq.regs r = c.regs r := by
    intro r
    by_cases hr : r = .rsp
    · rw [hr, iretq_eq]
      simpa using hrsp
    · rw [iretq_ne hr, hregs r hr]
  rw [iretq_eq] at hregs ⊢
  exact ⟨hregs, hrip, by simp [hcs], hrflags, by simp [hss], hframe⟩

end Core

/-- The registers that a call leaves as they were. -/
def calleeSaved : List Reg := [.rbx, .rbp, .rsp, .r12, .r13, .r14, .r15]

/-- The registers that a call may change and that no stub saves. -/
def scratch : List Reg := [.rax, .rcx, .rdx, .r8, .r9, .r10, .r11]

/-- The calling convention: a call that returns has kept these registers and
what its caller and the interrupted code have on the stack below `top`. -/
structure Sysv (handler : Core → Option Core) (top : BitVec 64) : Prop where
  saved : ∀ d x, handler d = some x → ∀ r ∈ calleeSaved, x.regs r = d.regs r
  stack : ∀ d x, handler d = some x →
    ∀ a, InRange (d.regs .rsp) (top - d.regs .rsp).toNat a → x.mem a = d.mem a

/-- The state in which a stub calls the handler. -/
def Core.atCall (c : Core) (stub : List Instr) : Option Core :=
  c.run (fun _ => none) (stub.takeWhile (· ≠ .callHandler))

/-- The state before the `iretq` of a stub, when the call has returned in `x`:
the registers in `saved` are back, the others are the handler's. -/
structure Returning (c x u : Core) (top : BitVec 64) (ws : List (BitVec 64))
    (saved : List Reg) : Prop where
  stack : u.Stack top ws
  restored : ∀ r ∈ saved, u.regs r = c.regs r
  others : ∀ r, r ∉ saved → r ≠ .rsp → u.regs r = x.regs r
  callee : ∀ r ∈ calleeSaved, r ≠ .rsp → x.regs r = c.regs r

namespace Core

/-- What a stub with an error code has done before the call. -/
def errCall (c : Core) (n : BitVec 64) : Core := ((c.popTo .rsi).pushFrom .rdi).set .rdi n

def noErrCall (c : Core) (n : BitVec 64) : Core :=
  let pushed := (c.pushFrom .rsi).pushFrom .rdi
  (pushed.set .rsi (pushed.regs .rsi ^^^ pushed.regs .rsi)).set .rdi n

theorem atCall_isrErrStub (c : Core) (n : BitVec 64) :
    c.atCall (isrErrStub n) = some (c.errCall n) := rfl

theorem atCall_isrNoErrStub (c : Core) (n : BitVec 64) :
    c.atCall (isrNoErrStub n) = some (c.noErrCall n) := rfl

theorem run_isrErrStub (handler : Core → Option Core) (c : Core) (n : BitVec 64) :
    c.run handler (isrErrStub n) =
      (handler (c.errCall n)).bind (fun x => some (x.popTo .rdi).iretq) := rfl

theorem run_isrNoErrStub (handler : Core → Option Core) (c : Core) (n : BitVec 64) :
    c.run handler (isrNoErrStub n) = (handler (c.noErrCall n)).bind
      (fun x => some ((x.popTo .rdi).popTo .rsi).iretq) := rfl

end Core

namespace Sysv

variable {handler : Core → Option Core} {top : BitVec 64} (hsysv : Sysv handler top)
  {c d x : Core} {e : BitVec 64} {ws : List (BitVec 64)} {n : BitVec 64}
include hsysv

theorem kept (h : d.Stack top ws) (hreturns : handler d = some x) : x.Stack top ws := by
  have hrsp := hsysv.saved d x hreturns .rsp (by decide)
  rw [Core.Stack, hrsp]
  exact StackAt.kept h (hsysv.stack d x hreturns)

/-- What a stub has not touched before the call comes back from it. -/
theorem callee (hd : ∀ r, r ∉ [Reg.rsi, .rdi, .rsp] → d.regs r = c.regs r)
    (hreturns : handler d = some x) :
    ∀ r ∈ calleeSaved, r ≠ .rsp → x.regs r = c.regs r := by
  have houtside : ∀ r ∈ calleeSaved, r ≠ .rsp → r ∉ [Reg.rsi, .rdi, .rsp] := by decide
  intro r hr hrsp
  rw [hsysv.saved d x hreturns r hr, hd r (houtside r hr hrsp)]

/-- The stub takes the error code off the stack, and the old `rsi` is nowhere. -/
theorem errStub_returning (hstack : c.Stack top (e :: ws)) (hfit : ws.length < 16)
    (hreturns : handler (c.errCall n) = some x) :
    Returning c x (x.popTo .rdi) top ws [.rdi] := by
  have hrdi : (c.popTo .rsi).regs .rdi = c.regs .rdi := Core.popTo_ne (by decide) (by decide)
  have hpushed : (c.errCall n).Stack top (c.regs .rdi :: ws) := by
    rw [← hrdi]
    exact ((hstack.popTo (by decide)).2.pushFrom hfit .rdi).set (by decide)
  have hothers : ∀ r, r ∉ [Reg.rsi, .rdi, .rsp] → (c.errCall n).regs r = c.regs r := by
    intro r hr
    simp only [List.mem_cons, List.not_mem_nil, or_false, not_or] at hr
    rw [Core.errCall, Core.set_ne hr.2.1, Core.pushFrom_ne hr.2.2, Core.popTo_ne hr.2.2 hr.1]
  obtain ⟨hword, hpopped⟩ := (hsysv.kept hpushed hreturns).popTo (r := .rdi) (by decide)
  refine ⟨hpopped, fun r hr => ?_, fun r hr hrsp => ?_, hsysv.callee hothers hreturns⟩
  · rw [List.mem_singleton.mp hr, hword]
  · exact Core.popTo_ne hrsp (fun heq => hr (List.mem_singleton.mpr heq))

theorem noErrStub_returning (hstack : c.Stack top ws) (hfit : ws.length + 1 < 16)
    (hreturns : handler (c.noErrCall n) = some x) :
    Returning c x ((x.popTo .rdi).popTo .rsi) top ws [.rdi, .rsi] := by
  have hrdi : (c.pushFrom .rsi).regs .rdi = c.regs .rdi := Core.pushFrom_ne (by decide)
  have hpushed : (c.noErrCall n).Stack top (c.regs .rdi :: c.regs .rsi :: ws) := by
    rw [← hrdi]
    exact (((hstack.pushFrom (by omega) .rsi).pushFrom hfit .rdi).set (by decide)).set
      (by decide)
  have hothers : ∀ r, r ∉ [Reg.rsi, .rdi, .rsp] → (c.noErrCall n).regs r = c.regs r := by
    intro r hr
    simp only [List.mem_cons, List.not_mem_nil, or_false, not_or] at hr
    rw [Core.noErrCall, Core.set_ne hr.2.1, Core.set_ne hr.1, Core.pushFrom_ne hr.2.2,
      Core.pushFrom_ne hr.2.2]
  obtain ⟨hrdi, hpopped⟩ := (hsysv.kept hpushed hreturns).popTo (r := .rdi) (by decide)
  obtain ⟨hrsi, hempty⟩ := hpopped.popTo (r := .rsi) (by decide)
  refine ⟨hempty, fun r hr => ?_, fun r hr hrsp => ?_, hsysv.callee hothers hreturns⟩
  · simp only [List.mem_cons, List.not_mem_nil, or_false] at hr
    rcases hr with rfl | rfl
    · rw [Core.popTo_ne (by decide) (by decide), hrdi]
    · exact hrsi
  · simp only [List.mem_cons, List.not_mem_nil, or_false, not_or] at hr
    rw [Core.popTo_ne hrsp hr.2, Core.popTo_ne hrsp hr.1]

end Sysv


theorem reg_cases (r : Reg) : r ∈ calleeSaved ∨ r ∈ scratch ∨ r = .rdi ∨ r = .rsi := by
  cases r <;> decide

/-- With the frame at the stack pointer the interrupted code goes on exactly if
the handler has left it all registers that the stub does not restore. -/
theorem Returning.resumes_iff {c d x u : Core} {top : BitVec 64} {saved : List Reg}
    (h : Returning d x u top c.frameWords saved)
    (hregs : ∀ r, r ≠ .rsp → d.regs r = c.regs r)
    (hrdi : .rdi ∈ saved) (hscratch : ∀ r ∈ scratch, r ∉ saved ∧ r ≠ .rsp) :
    Resumes c u.iretq top ↔ (∀ r ∈ scratch, x.regs r = c.regs r) ∧
      (.rsi ∉ saved → x.regs .rsi = c.regs .rsi) := by
  constructor
  · intro hresumes
    have hleft : ∀ r, r ∉ saved → r ≠ .rsp → x.regs r = c.regs r := by
      intro r hr hrsp
      rw [← h.others r hr hrsp, ← hresumes.regs r, Core.iretq_ne hrsp]
    exact ⟨fun r hr => hleft r (hscratch r hr).1 (hscratch r hr).2,
      fun hrsi => hleft .rsi hrsi (by decide)⟩
  · rintro ⟨hkept, hrsi⟩
    refine Core.iretq_resumes h.stack (fun r hrsp => ?_)
    by_cases hr : r ∈ saved
    · rw [h.restored r hr, hregs r hrsp]
    · rw [h.others r hr hrsp]
      rcases reg_cases r with hcallee | hin | rfl | rfl
      · rw [h.callee r hcallee hrsp, hregs r hrsp]
      · exact hkept r hin
      · exact absurd hrdi hr
      · exact hrsi hr

/-- A word between the stack pointer and the frame is taken for the frame's. -/
theorem Returning.not_resumes {c d x u : Core} {top e : BitVec 64} {saved : List Reg}
    (h : Returning d x u top (e :: c.frameWords) saved) : ¬ Resumes c u.iretq top := by
  intro hresumes
  have hframe : u.regs .rsp = top - 40#64 := hresumes.frame
  have hpointer : u.regs .rsp = top - 48#64 := h.stack.pointer
  rw [hframe] at hpointer
  bv_omega

/-- A stub pops an error code only where the CPU pushes one. -/
theorem pushes_of_pops : ∀ vector, popsErrorCode vector → pushesErrorCode vector := by
  decide

/-- The handler gets the vector, and the error code if the stub pops one. -/
theorem atCall_args {c d : Core} {top : BitVec 64} {vector : Fin 32} {errCode : BitVec 64}
    (hcall : (c.raise top vector errCode).atCall (isrStub vector) = some d) :
    d.regs .rdi = BitVec.ofNat 64 vector ∧
      d.regs .rsi = if popsErrorCode vector then errCode else 0#64 := by
  have hstack := c.raise_stack top vector errCode
  rw [isrStub_eq] at hcall
  by_cases hpops : popsErrorCode vector
  · rw [if_pos hpops, Core.atCall_isrErrStub] at hcall
    obtain rfl := Option.some.inj hcall
    rw [if_pos (pushes_of_pops vector hpops)] at hstack
    refine ⟨Core.set_self, ?_⟩
    rw [Core.errCall, Core.set_ne (by decide), Core.pushFrom_ne (by decide), if_pos hpops]
    exact (hstack.popTo (by decide)).1
  · rw [if_neg hpops, Core.atCall_isrNoErrStub] at hcall
    obtain rfl := Option.some.inj hcall
    refine ⟨Core.set_self, ?_⟩
    rw [Core.noErrCall, Core.set_ne (by decide), Core.set_self, if_neg hpops, BitVec.xor_self]

/-- Code that returns only where `exception_handler` does returns from page
faults only. -/
theorem returns_from_page_faults {handler : Core → Option Core}
    (hfollows : ∀ d x, handler d = some x → ∃ s cr2 s',
      exceptionHandler s ((d.regs .rdi).setWidth 32) (d.regs .rsi) cr2 = some s')
    {c d x : Core} {top : BitVec 64} {vector : Fin 32} {errCode : BitVec 64}
    (hcall : (c.raise top vector errCode).atCall (isrStub vector) = some d)
    (hreturns : handler d = some x) : vector = 14 := by
  obtain ⟨s, cr2, s', hhandler⟩ := hfollows d x hreturns
  obtain ⟨hfault, _, _⟩ := exceptionHandler_eq_some hhandler
  have honly : ∀ v : Fin 32, (BitVec.ofNat 64 v).setWidth 32 = 14#32 → v = 14 := by decide
  rw [(atCall_args hcall).1] at hfault
  exact honly vector hfault

/-- When the handler returns from an exception, the interrupted code goes on as
before exactly if the stub pops what the CPU pushes and the handler has left the
registers alone that the stub does not save, `rsi` among them when there is an
error code. -/
theorem exception_transparent_iff (handler : Core → Option Core) (top : BitVec 64)
    (hsysv : Sysv handler top) (vector : Fin 32) (c : Core) (errCode : BitVec 64)
    (d x : Core) (hcall : (c.raise top vector errCode).atCall (isrStub vector) = some d)
    (hreturns : handler d = some x) :
    ∃ c', (c.raise top vector errCode).run handler (isrStub vector) = some c' ∧
      (Resumes c c' top ↔ pushesErrorCode vector = popsErrorCode vector ∧
        (∀ r ∈ scratch, x.regs r = c.regs r) ∧
        (popsErrorCode vector → x.regs .rsi = c.regs .rsi)) := by
  have hstack := c.raise_stack top vector errCode
  have hregs : ∀ r, r ≠ .rsp → (c.raise top vector errCode).regs r = c.regs r :=
    fun r hr => Core.raise_ne vector errCode hr
  rw [isrStub_eq] at hcall ⊢
  by_cases hpops : popsErrorCode vector
  · have hpushes := pushes_of_pops vector hpops
    rw [if_pos hpops, Core.atCall_isrErrStub] at hcall
    obtain rfl := Option.some.inj hcall
    rw [if_pos hpushes] at hstack
    have hback := hsysv.errStub_returning hstack (by simp) hreturns
    rw [if_pos hpops, Core.run_isrErrStub, hreturns]
    refine ⟨_, rfl, (hback.resumes_iff hregs (by decide) (by decide)).trans ?_⟩
    simp [hpushes, hpops]
  · rw [if_neg hpops, Core.atCall_isrNoErrStub] at hcall
    obtain rfl := Option.some.inj hcall
    rw [if_neg hpops, Core.run_isrNoErrStub, hreturns]
    refine ⟨_, rfl, ?_⟩
    by_cases hpushes : pushesErrorCode vector
    · rw [if_pos hpushes] at hstack
      have hback := hsysv.noErrStub_returning hstack (by simp) hreturns
      constructor
      · exact fun hresumes => absurd hresumes hback.not_resumes
      · rintro ⟨hsame, _⟩
        exact absurd (hsame ▸ hpushes) hpops
    · rw [if_neg hpushes] at hstack
      have hback := hsysv.noErrStub_returning hstack (by simp) hreturns
      refine (hback.resumes_iff hregs (by decide) (by decide)).trans ?_
      simp [hpushes, hpops]

namespace Sample

/-- A handler that comes back from page faults only, and changes nothing. -/
def recover (d : Core) : Option Core := if d.regs .rdi = 14#64 then some d else none

theorem sysv_recover (top : BitVec 64) : Sysv recover top where
  saved := by
    intro d x h r _
    rw [recover] at h
    split at h
    · rw [Option.some.inj h]
    · cases h
  stack := by
    intro d x h a _
    rw [recover] at h
    split at h
    · rw [Option.some.inj h]
    · cases h

/-- Interrupted code with `rsi` in use and zero in the other registers. -/
def core (rsi : BitVec 64) : Core where
  regs := Function.update (fun _ => 0#64) .rsi rsi
  rip := 0x400000#64
  cs := 0x08#16
  rflags := 0x202#64
  ss := 0x10#16
  mem := fun _ => 0#8
  frame := 0#64

theorem recover_errCall (c : Core) : recover (c.errCall 14#64) = some (c.errCall 14#64) := by
  rw [recover, Core.errCall, if_pos Core.set_self]

end Sample

open Sample in
/-- A write to a page that is not mapped, with 7 in `rsi`: the error code is in
`rsi` when the code goes on. -/
theorem page_fault_loses_rsi :
    ∃ c', ((core 7#64).raise 0x9000#64 14 2#64).run recover (isrStub 14) = some c' ∧
      c'.regs .rsi = 2#64 ∧ ¬ Resumes (core 7#64) c' 0x9000#64 := by
  have hrun : ((core 7#64).raise 0x9000#64 14 2#64).run recover (isrStub 14) =
      some ((((core 7#64).raise 0x9000#64 14 2#64).errCall 14#64).popTo .rdi).iretq := by
    rw [isrStub_eq, if_pos (by decide), Core.run_isrErrStub]
    exact congrArg (fun o => Option.bind o _) (recover_errCall _)
  have hrsi : (((((core 7#64).raise 0x9000#64 14 2#64).errCall 14#64).popTo .rdi).iretq).regs
      .rsi = 2#64 := by decide +kernel
  refine ⟨_, hrun, hrsi, fun hresumes => ?_⟩
  have hlost := hresumes.regs .rsi
  rw [hrsi] at hlost
  exact absurd hlost (by decide)

open Sample in
theorem exception_transparent_iff_readFault :
    ∃ c', ((core 0#64).raise 0x9000#64 14 0#64).run recover (isrStub 14) = some c' ∧
      Resumes (core 0#64) c' 0x9000#64 := by
  have hcall : ((core 0#64).raise 0x9000#64 14 0#64).atCall (isrStub 14) =
      some (((core 0#64).raise 0x9000#64 14 0#64).errCall 14#64) := rfl
  obtain ⟨c', hrun, hiff⟩ := exception_transparent_iff recover 0x9000#64
    (sysv_recover 0x9000#64) 14 (core 0#64) 0#64 _ _ hcall (recover_errCall _)
  exact ⟨c', hrun, hiff.mpr ⟨by decide, by decide +kernel, fun _ => by decide +kernel⟩⟩

end Asnu
