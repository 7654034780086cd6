import Asnu.Lib.Run
import Asnu.Pmm.Region
import Asnu.Sched.Select

/-!
The scheduler together with the allocator that `create_proc` calls. Next to
the kernel's state a history is kept: which procedures were created, with
which arguments, and what was passed to `register_proc`, oldest first.
-/

namespace Asnu

open Lib

inductive SchedCall where
  | createProc (a : ProcArgs)
  | registerProc (p : Ptr)
  | contextSwitch (cpu : Cpu)

structure Kernel where
  pmm : Pmm
  sched : Sched
  created : List (Ptr × ProcArgs)
  submitted : List Ptr

namespace Kernel

def exec (k : Kernel) : SchedCall → Kernel
  | .createProc a =>
      let (p, pmm, sched) := createProc k.pmm k.sched a
      { k with
        pmm := pmm
        sched := sched
        created := if p = NULL then k.created else (p, a) :: k.created }
  | .registerProc p =>
      { k with
        sched := registerProc k.sched p
        submitted := k.submitted ++ [p] }
  | .contextSwitch cpu => { k with sched := k.sched.after cpu }

/-- Calls that satisfy `guard` in the state in which they are made. -/
def StepIf (guard : Kernel → SchedCall → Prop) (k : Kernel) (c : SchedCall)
    (k' : Kernel) : Prop := guard k c ∧ k' = k.exec c

def Created (k : Kernel) (p : Ptr) : Prop := ∃ a, (p, a) ∈ k.created

instance (k : Kernel) (p : Ptr) : Decidable (k.Created p) :=
  decidable_of_iff (∃ x ∈ k.created, x.1 = p)
    ⟨fun ⟨x, hx, h⟩ => ⟨x.2, h ▸ hx⟩, fun ⟨a, h⟩ => ⟨(p, a), h, rfl⟩⟩

/-- `scheduler_init` on top of an allocator state. -/
def boot (pmm : Pmm) (s : Sched) : Kernel :=
  { pmm := pmm, sched := schedulerInit s, created := [], submitted := [] }

/-- The registers `create_proc` prepares for a process. -/
def initialCpu (a : ProcArgs) : Cpu :=
  { rax := 0#64, rbx := 0#64, rcx := 0#64, rdx := 0#64
    rsi := 0#64, rdi := 0#64, rbp := 0#64
    rsp := a.stackBase + a.stackSize - 8#64
    r8 := 0#64, r9 := 0#64, r10 := 0#64, r11 := 0#64
    r12 := 0#64, r13 := 0#64, r14 := 0#64, r15 := 0#64
    rflags := 0x202#64, rip := a.entryPoint }

/-- The created procedures are different frames whose bits are set. -/
structure Stocked (k : Kernel) : Prop where
  sized : k.pmm.Sized
  owned : ∀ x ∈ k.created, x.1 ≠ NULL ∧
    ∃ i < k.pmm.bitCount, x.1 = k.pmm.frame i ∧ k.pmm.bit i = true
  distinct : k.created.Pairwise (fun x y => x.1 ≠ y.1)

theorem stocked_boot {pmm : Pmm} (h : pmm.Sized) (s : Sched) :
    (boot pmm s).Stocked where
  sized := h
  owned := by simp [boot]
  distinct := List.Pairwise.nil

theorem Stocked.ne_null {k : Kernel} (h : k.Stocked) {p : Ptr}
    (hp : k.Created p) : p ≠ NULL := by
  obtain ⟨a, ha⟩ := hp
  exact (h.owned _ ha).1

/-- The state after a successful `create_proc` that returns `p`. -/
def withProc (k : Kernel) (pmm : Pmm) (p : Ptr) (a : ProcArgs) : Kernel :=
  { k with
    pmm := pmm
    sched := { k.sched.update p (fun _ => initProc k.sched.nextPid a) with
      stackWords := fun x => if x = a.stackBase + a.stackSize - 8#64 then 0#64
        else k.sched.stackWords x
      nextPid := k.sched.nextPid + 1#32 }
    created := (p, a) :: k.created }

/-- `create_proc` fails and leaves the scheduler alone, or returns the first
free frame. -/
theorem exec_createProc (k : Kernel) (a : ProcArgs) :
    (∃ pmm, k.exec (.createProc a) = { k with pmm := pmm } ∧
      (pmm = k.pmm ∨ ∃ i, k.pmm.firstFree = some i ∧ pmm = k.pmm.mark i)) ∨
    ∃ i, k.pmm.firstFree = some i ∧ k.pmm.frame i ≠ NULL ∧
      k.exec (.createProc a) =
        k.withProc (k.pmm.mark i) (k.pmm.frame i) a := by
  have hkalloc := @kalloc_eq k.pmm sizeofProcedure (by decide)
  cases hfree : k.pmm.firstFree with
  | none =>
      rw [hfree] at hkalloc
      exact Or.inl ⟨k.pmm, by simp [exec, createProc, hkalloc], Or.inl rfl⟩
  | some i =>
      rw [hfree] at hkalloc
      by_cases hnull : k.pmm.frame i = NULL
      · exact Or.inl ⟨k.pmm.mark i, by simp [exec, createProc, hkalloc, hnull],
          Or.inr ⟨i, rfl, rfl⟩⟩
      · exact Or.inr ⟨i, rfl, hnull,
          by simp [exec, createProc, hkalloc, hnull, withProc]⟩

/-- The frame the search finds is not the frame of a created procedure. -/
theorem Stocked.fresh {k : Kernel} (h : k.Stocked) {i : Nat}
    (hfree : k.pmm.firstFree = some i) : ∀ x ∈ k.created, x.1 ≠ k.pmm.frame i := by
  intro x hx heq
  have hcount := h.sized.bitCount_le
  obtain ⟨hi, hbit, _⟩ := Pmm.firstFree_eq_some.mp hfree
  obtain ⟨_, j, hj, hptr, hset⟩ := h.owned x hx
  have hij := k.pmm.frame_inj (by omega) (by omega) (hptr.symm.trans heq)
  rw [hij, hbit] at hset
  exact Bool.noConfusion hset

theorem Stocked.not_created {k : Kernel} (h : k.Stocked) {i : Nat}
    (hfree : k.pmm.firstFree = some i) : ¬ k.Created (k.pmm.frame i) := by
  rintro ⟨a, ha⟩
  exact h.fresh hfree _ ha rfl

theorem Stocked.bit_mark {k : Kernel} (h : k.Stocked) {i j : Nat}
    (hfree : k.pmm.firstFree = some i) (hj : j < k.pmm.bitCount) :
    (k.pmm.mark i).bit j = if j = i then true else k.pmm.bit j :=
  h.sized.bit_mark (Pmm.firstFree_eq_some.mp hfree).1 hj

theorem Stocked.mark {k : Kernel} (h : k.Stocked) {i : Nat}
    (hfree : k.pmm.firstFree = some i) :
    ({ k with pmm := k.pmm.mark i } : Kernel).Stocked where
  sized := h.sized.of_file_eq rfl
  owned := by
    intro x hx
    obtain ⟨hne, j, hj, hptr, hset⟩ := h.owned x hx
    exact ⟨hne, j, hj, hptr, by rw [h.bit_mark hfree hj, hset, ite_self]⟩
  distinct := h.distinct

theorem Stocked.withProc {k : Kernel} (h : k.Stocked) {i : Nat} (a : ProcArgs)
    (hfree : k.pmm.firstFree = some i) (hnull : k.pmm.frame i ≠ NULL) :
    (k.withProc (k.pmm.mark i) (k.pmm.frame i) a).Stocked where
  sized := h.sized.of_file_eq rfl
  owned := by
    intro x hx
    rcases List.mem_cons.mp hx with rfl | hx
    · have hi := (Pmm.firstFree_eq_some.mp hfree).1
      have hset := h.bit_mark hfree hi
      rw [if_pos rfl] at hset
      exact ⟨hnull, i, hi, rfl, hset⟩
    · exact (h.mark hfree).owned x hx
  distinct := List.Pairwise.cons (fun x hx => (h.fresh hfree x hx).symm) h.distinct

theorem stocked_exec {k : Kernel} (h : k.Stocked) (c : SchedCall) :
    (k.exec c).Stocked := by
  cases c with
  | createProc a =>
      rcases exec_createProc k a with
        ⟨pmm, hexec, rfl | ⟨i, hfree, rfl⟩⟩ | ⟨i, hfree, hnull, hexec⟩
      · rw [hexec]
        exact ⟨h.sized, h.owned, h.distinct⟩
      · rw [hexec]
        exact h.mark hfree
      · rw [hexec]
        exact h.withProc a hfree hnull
  | registerProc p => exact ⟨h.sized, h.owned, h.distinct⟩
  | contextSwitch cpu => exact ⟨h.sized, h.owned, h.distinct⟩

end Kernel

end Asnu
