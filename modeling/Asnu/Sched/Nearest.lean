import Asnu.Lib.Interference
import Asnu.Sched.Select

/-!
`find_next_proc` access by access: which places of `proc_list` it looks at, which
processes it asks for their state, and that it finds the nearest one in cyclic
order. Nothing writes `proc_count` in between, so it is read once.
-/

namespace Asnu

open Lib

/-- What an access of `find_next_proc` goes to. -/
inductive SearchAccess where
  | procCount
  | currentProc
  | procList (i : Nat)
  | procState (p : Ptr)
  deriving DecidableEq

abbrev SearchCode := Prog Sched SearchAccess

namespace FindNext

/-- The first loop, `n` more turns from `i` on. -/
def start (count : Nat) (cur : Ptr) : Nat → Nat → SearchCode Nat
  | 0, _ => pure 0
  | n + 1, i => do
      let p ← Prog.read (.procList i) (fun s => s.proc i)
      if p = cur then pure ((i + 1) % count) else start count cur n (i + 1)

/-- The second loop. -/
def next (count start : Nat) : Nat → Nat → SearchCode Ptr
  | 0, _ => pure NULL
  | n + 1, i => do
      let idx := (start + i) % count
      let p ← Prog.read (.procList idx) (fun s => s.proc idx)
      let found ← Prog.read (.procState p) (fun s => eligible (s.procs p))
      if found then pure p else next count start n (i + 1)

def searchStart (count : Nat) : SearchCode Nat := do
  let cur ← Prog.read .currentProc Sched.currentProc
  if cur = NULL then pure 0 else start count cur count 0

end FindNext

def findNextProcCode : SearchCode Ptr := do
  let count ← Prog.read .procCount Sched.procCount
  if count = 0 then pure NULL
  else do
    let start ← FindNext.searchStart count
    FindNext.next count start count 0

namespace Sched

/-- Places below `proc_count`, and processes that stand there. -/
def Confines (s : Sched) : SearchAccess → Prop
  | .procCount | .currentProc => True
  | .procList i => i < s.procCount
  | .procState p => p ∈ s.procList

theorem proc_mem {s : Sched} {i : Nat} (hi : i < s.procCount) : s.proc i ∈ s.procList := by
  rw [proc, List.getD_eq_getElem _ _ hi]
  exact List.getElem_mem hi

/-- One past the first occurrence of the current process, or 0. -/
def startAfter (s : Sched) : Nat :=
  if s.currentProc ≠ NULL ∧ s.procList.contains s.currentProc then
    (s.procList.idxOf s.currentProc + 1) % s.procCount
  else 0

/-- The least distance from `start` at which there is an eligible process. -/
def Nearest (s : Sched) (start d : Nat) : Prop :=
  d < s.procCount ∧ s.ready (s.proc ((start + d) % s.procCount)) = true ∧
    ∀ j < d, s.ready (s.proc ((start + j) % s.procCount)) = false

theorem first_proc_eq (s : Sched) (p : Ptr) :
    first (fun i => s.proc i == p) s.procCount =
      if p ∈ s.procList then some (s.procList.idxOf p) else none := by
  split
  · next hmem =>
      have hlt : s.procList.idxOf p < s.procCount := List.idxOf_lt_length_of_mem hmem
      refine first_eq_some_iff.mpr ⟨hlt, ?_, fun j hj => ?_⟩
      · rw [proc, List.getD_eq_getElem _ _ hlt, List.getElem_idxOf hlt, beq_self_eq_true]
      · rw [proc, List.getD_eq_getElem _ _ (hj.trans hlt)]
        exact List.not_of_lt_findIdx hj
  · next hnot =>
      refine first_eq_none_iff.mpr (fun j hj => beq_eq_false_iff_ne.mpr ?_)
      rintro rfl
      exact hnot (proc_mem hj)

theorem searchStart_eq (s : Sched) : s.searchStart = s.startAfter := by
  unfold searchStart startAfter
  by_cases hnull : s.currentProc = NULL
  · rw [if_pos hnull, if_neg (fun h => h.1 hnull)]
  · rw [if_neg hnull, first_proc_eq]
    by_cases hmem : s.currentProc ∈ s.procList
    · rw [if_pos hmem, if_pos ⟨hnull, List.contains_iff_mem.mpr hmem⟩]
    · rw [if_neg hmem, if_neg (fun h => hmem (List.contains_iff_mem.mp h.2))]

theorem nearest_iff (s : Sched) (start d : Nat) :
    first (fun i => eligible (s.procs (s.proc ((start + i) % s.procCount)))) s.procCount =
      some d ↔ s.Nearest start d := first_eq_some_iff

end Sched

/-! ### The loops -/

namespace FindNext

variable (s : Sched)

theorem start_alone (cur : Ptr) (n i : Nat) :
    (start s.procCount cur n i).alone s =
      (match firstFrom (fun i => s.proc i == cur) n i with
        | some k => (k + 1) % s.procCount
        | none => 0, s) := by
  induction n generalizing i with
  | zero => rfl
  | succ n ih =>
      rw [start, Prog.alone_bind, Prog.alone_read, firstFrom]
      by_cases hp : s.proc i = cur
      · simp [hp]
      · simpa [hp] using ih (i + 1)

theorem next_alone (base n i : Nat) :
    (next s.procCount base n i).alone s =
      (match firstFrom (fun i => eligible (s.procs (s.proc ((base + i) % s.procCount)))) n i with
        | some k => s.proc ((base + k) % s.procCount)
        | none => NULL, s) := by
  induction n generalizing i with
  | zero => rfl
  | succ n ih =>
      rw [next, firstFrom, Prog.alone_bind, Prog.alone_read, Prog.alone_bind, Prog.alone_read]
      by_cases hready : eligible (s.procs (s.proc ((base + i) % s.procCount))) = true
      · rw [if_pos hready, if_pos hready]
        rfl
      · rw [if_neg hready, if_neg hready]
        exact ih (i + 1)

theorem searchStart_alone : (searchStart s.procCount).alone s = (s.searchStart, s) := by
  rw [searchStart, Sched.searchStart, Prog.alone_bind, Prog.alone_read]
  by_cases hnull : s.currentProc = NULL
  · rw [if_pos hnull, if_pos hnull]
    rfl
  · rw [if_neg hnull, if_neg hnull]
    exact start_alone s s.currentProc s.procCount 0

theorem start_keeps (count : Nat) (cur : Ptr) (n i : Nat) :
    (start count cur n i).Keeps (fun s => s) := by
  induction n generalizing i with
  | zero => exact .ret _
  | succ n ih =>
      refine (Prog.Keeps.read _ _).bind (fun p => ?_)
      split
      · exact .ret _
      · exact ih (i + 1)

theorem next_keeps (count base n i : Nat) : (next count base n i).Keeps (fun s => s) := by
  induction n generalizing i with
  | zero => exact .ret _
  | succ n ih =>
      refine (Prog.Keeps.read _ _).bind (fun p => (Prog.Keeps.read _ _).bind (fun found => ?_))
      split
      · exact .ret _
      · exact ih (i + 1)

theorem searchStart_keeps (count : Nat) : (searchStart count).Keeps (fun s => s) := by
  refine (Prog.Keeps.read _ _).bind (fun cur => ?_)
  split
  · exact .ret _
  · exact start_keeps count cur count 0

/-- The first loop stays below the bound. -/
theorem start_confined (cur : Ptr) (n i : Nat) (hi : i + n ≤ s.procCount) :
    ∀ a ∈ (start s.procCount cur n i).trace s, s.Confines a := by
  induction n generalizing i with
  | zero => exact List.forall_mem_nil _
  | succ n ih =>
      rw [start, Prog.trace_bind, Prog.trace_read, List.singleton_append, List.forall_mem_cons]
      refine ⟨show i < s.procCount by omega, ?_⟩
      split
      · exact List.forall_mem_nil _
      · exact ih (i + 1) (by omega)

/-- The second loop reduces its places to the bound. -/
theorem next_confined (hpos : 0 < s.procCount) (base n i : Nat) :
    ∀ a ∈ (next s.procCount base n i).trace s, s.Confines a := by
  have hlt : ∀ j, (base + j) % s.procCount < s.procCount := fun j => Nat.mod_lt _ hpos
  induction n generalizing i with
  | zero => exact List.forall_mem_nil _
  | succ n ih =>
      rw [next, Prog.trace_bind, Prog.trace_read, Prog.alone_read, List.singleton_append,
        List.forall_mem_cons, Prog.trace_bind, Prog.trace_read, Prog.alone_read,
        List.singleton_append, List.forall_mem_cons]
      refine ⟨hlt i, Sched.proc_mem (hlt i), ?_⟩
      by_cases hready : eligible (s.procs (s.proc ((base + i) % s.procCount))) = true
      · rw [if_pos hready]
        exact List.forall_mem_nil _
      · rw [if_neg hready]
        exact ih (i + 1)

theorem searchStart_confined :
    ∀ a ∈ (searchStart s.procCount).trace s, s.Confines a := by
  rw [searchStart, Prog.trace_bind, Prog.trace_read, List.singleton_append, List.forall_mem_cons]
  refine ⟨trivial, ?_⟩
  split
  · exact List.forall_mem_nil _
  · exact start_confined s _ _ 0 (Nat.zero_add _).le

end FindNext

/-- Access by access the search is the function of before. -/
theorem findNextProcCode_alone (s : Sched) : findNextProcCode.alone s = (findNextProc s, s) := by
  rw [findNextProcCode, findNextProc, Prog.alone_bind, Prog.alone_read]
  by_cases hzero : s.procCount = 0
  · rw [if_pos hzero, if_pos hzero]
    rfl
  · rw [if_neg hzero, if_neg hzero, Prog.alone_bind, FindNext.searchStart_alone]
    exact FindNext.next_alone s s.searchStart s.procCount 0

theorem findNextProcCode_keeps : findNextProcCode.Keeps (fun s => s) := by
  refine (Prog.Keeps.read _ _).bind (fun count => ?_)
  split
  · exact .ret _
  · exact (FindNext.searchStart_keeps count).bind
      (fun start => FindNext.next_keeps count start count 0)

theorem findNextProcCode_confined (s : Sched) :
    ∀ a ∈ findNextProcCode.trace s, s.Confines a := by
  rw [findNextProcCode, Prog.trace_bind, Prog.trace_read, List.singleton_append,
    List.forall_mem_cons, Prog.alone_read]
  refine ⟨trivial, ?_⟩
  by_cases hzero : s.procCount = 0
  · rw [if_pos hzero]
    exact List.forall_mem_nil _
  · rw [if_neg hzero, Prog.trace_bind, FindNext.searchStart_alone, List.forall_mem_append]
    exact ⟨FindNext.searchStart_confined s,
      FindNext.next_confined s (Nat.pos_of_ne_zero hzero) _ _ 0⟩

theorem findNextProc_of_nearest {s : Sched} {d : Nat} (h : s.Nearest s.startAfter d) :
    findNextProc s = s.proc ((s.startAfter + d) % s.procCount) := by
  have hpos : s.procCount ≠ 0 := Nat.ne_zero_of_lt h.1
  have hfirst := (s.nearest_iff _ d).mpr h
  simp only [findNextProc, if_neg hpos, s.searchStart_eq, hfirst]

theorem exists_nearest {s : Sched} (h : findNextProc s ≠ NULL) :
    ∃ d, s.Nearest s.startAfter d := by
  unfold findNextProc at h
  split at h
  · exact absurd rfl h
  · simp only [s.searchStart_eq] at h
    split at h
    · next d hfirst => exact ⟨d, (s.nearest_iff _ d).mp hfirst⟩
    · exact absurd rfl h

/-- The search finds the nearest eligible process after the current one, looks at places
below `proc_count` only, and writes nothing. -/
theorem find_next_nearest (s : Sched) (hnull : NULL ∉ s.procList) :
    let found := (findNextProcCode.alone s).1
    (∀ d, s.Nearest s.startAfter d → found = s.proc ((s.startAfter + d) % s.procCount)) ∧
      (found ≠ NULL → ∃ d, s.Nearest s.startAfter d) ∧
      (found = NULL ↔ ∀ p ∈ s.procList, eligible (s.procs p) = false) ∧
      (∀ a ∈ findNextProcCode.trace s, s.Confines a) ∧
      findNextProcCode.Keeps (fun s => s) := by
  have hfound : (findNextProcCode.alone s).1 = findNextProc s :=
    congrArg Prod.fst (findNextProcCode_alone s)
  simp only [hfound]
  exact ⟨fun d => findNextProc_of_nearest, exists_nearest,
    Sched.findNextProc_eq_null_iff hnull, findNextProcCode_confined s, findNextProcCode_keeps⟩

namespace Sample

/-- Three processes, the second of them twice in the list; the current one is not there. -/
def crowd : Sched where
  procs := fun p =>
    { procState := if p = 0x1000#64 then .procRunning
        else if p = 0x2000#64 then .procIdle else .procReady }
  stackWords := fun _ => 0#64
  procList := [0x1000#64, 0x2000#64, 0x2000#64, 0x3000#64]
  currentProc := 0x4000#64
  nextPid := 5#32

end Sample

theorem find_next_nearest_crowd :
    let found := (findNextProcCode.alone Sample.crowd).1
    (∀ d, Sample.crowd.Nearest Sample.crowd.startAfter d →
        found = Sample.crowd.proc ((Sample.crowd.startAfter + d) % Sample.crowd.procCount)) ∧
      (found ≠ NULL → ∃ d, Sample.crowd.Nearest Sample.crowd.startAfter d) ∧
      (found = NULL ↔ ∀ p ∈ Sample.crowd.procList, eligible (Sample.crowd.procs p) = false) ∧
      (∀ a ∈ findNextProcCode.trace Sample.crowd, Sample.crowd.Confines a) ∧
      findNextProcCode.Keeps (fun s => s) :=
  find_next_nearest Sample.crowd (by decide)

end Asnu
