import Asnu.Pmm.Blocks
import Asnu.Sched.Kernel

/-!
The state invariant of the scheduler. The list is the first 1024 submissions
in order, the current process is in it and running, everybody else in it is
ready, and a created process outside it is new.
-/

namespace Asnu

open Lib

namespace Kernel

/-- Only created processes are registered, each at most once. -/
def RegistersOnce (k : Kernel) : SchedCall → Prop
  | .registerProc p => k.Created p ∧ p ∉ k.submitted
  | _ => True

instance (k : Kernel) : (c : SchedCall) → Decidable (k.RegistersOnce c)
  | .registerProc p => inferInstanceAs (Decidable (k.Created p ∧ p ∉ k.submitted))
  | .createProc _ => inferInstanceAs (Decidable True)
  | .contextSwitch _ => inferInstanceAs (Decidable True)

/-- The state the scheduler keeps for a created process. -/
def expectedState (s : Sched) (p : Ptr) : SchedulerState :=
  if p = s.currentProc then .procRunning
  else if p ∈ s.procList then .procReady
  else .procNew

structure Orderly (k : Kernel) : Prop where
  stocked : k.Stocked
  submitted_created : ∀ p ∈ k.submitted, k.Created p
  submitted_nodup : k.submitted.Nodup
  listed : k.sched.procList = k.submitted.take maxProcs
  current : (k.sched.procList = [] ∧ k.sched.currentProc = NULL) ∨
    k.sched.currentProc ∈ k.sched.procList
  states : ∀ p, k.Created p →
    (k.sched.procs p).procState = expectedState k.sched p

theorem orderly_boot {pmm : Pmm} (h : pmm.Sized) (s : Sched) :
    (boot pmm s).Orderly where
  stocked := stocked_boot h s
  submitted_created := by simp [boot]
  submitted_nodup := List.nodup_nil
  listed := by simp [boot, schedulerInit]
  current := Or.inl ⟨rfl, rfl⟩
  states := by
    rintro p ⟨a, ha⟩
    simp [boot] at ha

namespace Orderly

theorem mem_submitted {k : Kernel} (h : k.Orderly) {p : Ptr}
    (hp : p ∈ k.sched.procList) : p ∈ k.submitted := by
  rw [h.listed] at hp
  exact List.mem_of_mem_take hp

theorem mem_created {k : Kernel} (h : k.Orderly) {p : Ptr}
    (hp : p ∈ k.sched.procList) : k.Created p :=
  h.submitted_created p (h.mem_submitted hp)

theorem null_notMem {k : Kernel} (h : k.Orderly) : NULL ∉ k.sched.procList :=
  fun hp => h.stocked.ne_null (h.mem_created hp) rfl

theorem nodup {k : Kernel} (h : k.Orderly) : k.sched.procList.Nodup := by
  rw [h.listed]
  exact h.submitted_nodup.sublist (List.take_sublist _ _)

theorem count_le {k : Kernel} (h : k.Orderly) : k.sched.procCount ≤ maxProcs := by
  rw [Sched.procCount, h.listed]
  exact List.length_take_le _ _

/-- The current process is in the list as soon as there is one. -/
theorem current_mem {k : Kernel} (h : k.Orderly)
    (hcur : k.sched.currentProc ≠ NULL) :
    k.sched.currentProc ∈ k.sched.procList := by
  rcases h.current with ⟨_, hnull⟩ | hmem
  · exact absurd hnull hcur
  · exact hmem

theorem current_created {k : Kernel} (h : k.Orderly)
    (hcur : k.sched.currentProc ≠ NULL) : k.Created k.sched.currentProc :=
  h.mem_created (h.current_mem hcur)

/-- The current process is running, so the search never returns it. -/
theorem current_not_ready {k : Kernel} (h : k.Orderly)
    (hcur : k.sched.currentProc ≠ NULL) :
    k.sched.ready k.sched.currentProc = false := by
  have hstate := h.states _ (h.current_created hcur)
  rw [expectedState, if_pos rfl] at hstate
  simp [Sched.ready, eligible, hstate]

theorem createProc {k : Kernel} (h : k.Orderly) (a : ProcArgs) :
    (k.exec (.createProc a)).Orderly := by
  have hstocked := stocked_exec h.stocked (.createProc a)
  rcases exec_createProc k a with ⟨pmm, hexec, _⟩ | ⟨i, hfree, hnull, hexec⟩
  · rw [hexec] at hstocked ⊢
    exact ⟨hstocked, h.submitted_created, h.submitted_nodup, h.listed, h.current,
      h.states⟩
  · rw [hexec] at hstocked ⊢
    have hnew := h.stocked.not_created hfree
    constructor
    · exact hstocked
    · intro p hp
      obtain ⟨b, hb⟩ := h.submitted_created p hp
      exact ⟨b, List.mem_cons_of_mem _ hb⟩
    · exact h.submitted_nodup
    · exact h.listed
    · exact h.current
    · rintro p ⟨b, hb⟩
      rcases List.mem_cons.mp hb with heq | hold
      · obtain ⟨rfl, rfl⟩ := Prod.mk.injEq .. ▸ heq
        -- the new process is neither current nor listed
        have hlisted : k.pmm.frame i ∉ k.sched.procList :=
          fun hp => hnew (h.mem_created hp)
        have hcur : k.pmm.frame i ≠ k.sched.currentProc := by
          intro hp
          exact hnew (hp ▸ h.current_created (hp ▸ hnull))
        simp [Kernel.withProc, Sched.update, initProc, expectedState, hlisted, hcur]
      · have hne : p ≠ k.pmm.frame i := fun hp => hnew ⟨b, hp ▸ hold⟩
        have hstate := h.states p ⟨b, hold⟩
        simpa [Kernel.withProc, Sched.update, expectedState, hne] using hstate

section Registering

variable {k : Kernel} (h : k.Orderly) {p : Ptr}
include h

theorem submitted_append (hp : k.Created p) : ∀ q ∈ k.submitted ++ [p], k.Created q :=
  List.forall_mem_append.mpr ⟨h.submitted_created, List.forall_mem_singleton.mpr hp⟩

theorem nodup_append (hnew : p ∉ k.submitted) : (k.submitted ++ [p]).Nodup := by
  rw [List.nodup_append]
  refine ⟨h.submitted_nodup, List.nodup_singleton p, ?_⟩
  intro q hq r hr
  rw [List.mem_singleton] at hr
  exact fun heq => hnew (hr ▸ heq ▸ hq)

theorem count_eq : k.sched.procCount = min maxProcs k.submitted.length := by
  rw [Sched.procCount, h.listed, List.length_take]

/-- Below the limit the list is all of the submissions so far. -/
theorem listed_append (hlt : k.sched.procCount < maxProcs) :
    k.sched.procList ++ [p] = (k.submitted ++ [p]).take maxProcs := by
  have hcount := h.count_eq
  rw [h.listed, List.take_of_length_le (by omega),
    List.take_of_length_le (by rw [List.length_append, List.length_singleton]; omega)]

/-- At the limit the list does not grow. -/
theorem listed_full (hfull : maxProcs ≤ k.sched.procCount) :
    k.sched.procList = (k.submitted ++ [p]).take maxProcs := by
  have hcount := h.count_eq
  rw [List.take_append_of_le_length (by omega)]
  exact h.listed

theorem states_started (hcur : k.sched.currentProc = NULL) {q : Ptr} (hq : k.Created q) :
    ((k.sched.started p).procs q).procState = expectedState (k.sched.started p) q := by
  have hempty : k.sched.procList = [] := by
    rcases h.current with ⟨hnil, _⟩ | hmem
    · exact hnil
    · exact absurd (hcur ▸ hmem) h.null_notMem
  have hstate := h.states q hq
  have hqnull : q ≠ NULL := h.stocked.ne_null hq
  by_cases hqp : q = p
  · simp [Sched.started, Sched.setState, Sched.update, expectedState, hqp]
  · simpa [Sched.started, Sched.setState, Sched.update, expectedState, hqp, hcur,
      hqnull, hempty] using hstate

theorem states_appended (hpcur : p ≠ k.sched.currentProc) {q : Ptr} (hq : k.Created q) :
    ((k.sched.appended p).procs q).procState = expectedState (k.sched.appended p) q := by
  have hstate := h.states q hq
  by_cases hqp : q = p
  · simp [Sched.appended, Sched.setState, Sched.update, expectedState, hqp, hpcur]
  · simpa [Sched.appended, Sched.setState, Sched.update, expectedState, hqp] using hstate

theorem registerProc (hguard : k.RegistersOnce (.registerProc p)) :
    (k.exec (.registerProc p)).Orderly := by
  obtain ⟨hcreated, hnew⟩ := hguard
  have hstocked := stocked_exec h.stocked (.registerProc p)
  have hsubmitted := h.submitted_append hcreated
  have hnodup := h.nodup_append hnew
  rcases registerProc_cases k.sched p with
    ⟨hfull, hexec⟩ | ⟨hlt, hcur, hexec⟩ | ⟨hlt, hcur, hexec⟩
  · simp only [exec, hexec] at hstocked ⊢
    exact ⟨hstocked, hsubmitted, hnodup, h.listed_full hfull, h.current, h.states⟩
  · simp only [exec, hexec] at hstocked ⊢
    exact ⟨hstocked, hsubmitted, hnodup, h.listed_append hlt,
      Or.inr (by simp [Sched.started]), fun _ hq => h.states_started hcur hq⟩
  · have hmem := h.current_mem hcur
    have hpcur : p ≠ k.sched.currentProc :=
      fun heq => hnew (h.mem_submitted (heq ▸ hmem))
    simp only [exec, hexec] at hstocked ⊢
    exact ⟨hstocked, hsubmitted, hnodup, h.listed_append hlt,
      Or.inr (List.mem_append_left _ hmem), fun _ hq => h.states_appended hpcur hq⟩

end Registering

theorem contextSwitch {k : Kernel} (h : k.Orderly) (cpu : Cpu) :
    (k.exec (.contextSwitch cpu)).Orderly := by
  have hstocked := stocked_exec h.stocked (.contextSwitch cpu)
  rcases contextSwitch_cases k.sched cpu with ⟨hret, _⟩ | ⟨next, hnext, _⟩
  · simp only [exec, Sched.after_eq_self hret] at hstocked ⊢
    exact ⟨hstocked, h.submitted_created, h.submitted_nodup, h.listed, h.current,
      h.states⟩
  · have hafter := Sched.after_of_dispatches hnext cpu
    have hmem := hnext.mem.1
    have hne : next ≠ k.sched.currentProc := fun heq => hnext.2.2 heq.symm
    simp only [exec, hafter] at hstocked ⊢
    refine ⟨hstocked, h.submitted_created, h.submitted_nodup, h.listed,
      Or.inr hmem, ?_⟩
    intro q hq
    have hstate := h.states q hq
    by_cases hqn : q = next
    · simp [Sched.switched, expectedState, hqn]
    · by_cases hqc : q = k.sched.currentProc
      · have hqnull : q ≠ NULL := h.stocked.ne_null hq
        have hqlist : q ∈ k.sched.procList := hqc ▸ h.current_mem (hqc ▸ hqnull)
        simp [Sched.switched, expectedState, hqn, hqc.symm, hqnull, hqlist]
      · simpa [Sched.switched, expectedState, hqn, hqc] using hstate

end Orderly

theorem orderly_step {k k' : Kernel} {c : SchedCall} (h : k.Orderly)
    (hstep : StepIf RegistersOnce k c k') : k'.Orderly := by
  obtain ⟨hguard, rfl⟩ := hstep
  cases c with
  | createProc a => exact h.createProc a
  | registerProc p => exact h.registerProc hguard
  | contextSwitch cpu => exact h.contextSwitch cpu

end Kernel

/-- What the list, the count, the current process and the process states have
to do with each other. The submissions beyond the first 1024 are the ones
`register_proc` refused. -/
structure Kernel.Coherent (k : Kernel) : Prop where
  count_le : k.sched.procCount ≤ 1024
  current_null_iff : k.sched.currentProc = NULL ↔ k.sched.procCount = 0
  current_mem : k.sched.procCount ≠ 0 → k.sched.currentProc ∈ k.sched.procList
  current_running : k.sched.procCount ≠ 0 →
    (k.sched.procs k.sched.currentProc).procState = .procRunning
  others_ready : ∀ p ∈ k.sched.procList, p ≠ k.sched.currentProc →
    (k.sched.procs p).procState = .procReady
  distinct : k.sched.procList.Nodup
  in_order : k.sched.procList = k.submitted.take 1024
  refused : ∀ p ∈ k.submitted.drop 1024,
    (k.sched.procs p).procState = .procNew ∧ p ∉ k.sched.procList

theorem Kernel.Orderly.coherent {k : Kernel} (h : k.Orderly) : k.Coherent := by
  have hcurrent : k.sched.currentProc ≠ NULL ↔ k.sched.procCount ≠ 0 := by
    rw [Sched.procCount, ne_eq, ne_eq, List.length_eq_zero_iff]
    constructor
    · intro hcur hnil
      have hmem := h.current_mem hcur
      simp [hnil] at hmem
    · intro hlist hcur
      rcases h.current with ⟨hnil, _⟩ | hmem
      · exact hlist hnil
      · exact h.null_notMem (hcur ▸ hmem)
  constructor
  · exact h.count_le
  · exact not_iff_not.mp hcurrent
  · exact fun hcount => h.current_mem (hcurrent.mpr hcount)
  · intro hcount
    rw [h.states _ (h.current_created (hcurrent.mpr hcount)), expectedState, if_pos rfl]
  · intro p hp hne
    rw [h.states p (h.mem_created hp), expectedState, if_neg hne, if_pos hp]
  · exact h.nodup
  · exact h.listed
  · intro p hp
    have hnotMem : p ∉ k.sched.procList := by
      intro hlisted
      have hnodup := h.submitted_nodup
      rw [h.listed] at hlisted
      rw [← List.take_append_drop maxProcs k.submitted, List.nodup_append] at hnodup
      exact hnodup.2.2 p hlisted p hp rfl
    have hcreated := h.submitted_created p (List.mem_of_mem_drop hp)
    have hne : p ≠ k.sched.currentProc := by
      rintro rfl
      exact hnotMem (h.current_mem (h.stocked.ne_null hcreated))
    refine ⟨?_, hnotMem⟩
    rw [h.states p hcreated, expectedState, if_neg hne, if_neg hnotMem]

namespace Sample

/-- A scheduler before `scheduler_init`. -/
def blank : Sched :=
  { procs := fun _ => {}
    stackWords := fun _ => 0#64
    procList := []
    currentProc := NULL
    nextPid := 0#32 }

/-- Two processes on 4096-byte stacks, as `test_sched` makes them. -/
def args0 : ProcArgs := ⟨0x400000#64, 0#8, 0x100000#64, 4096#64⟩

def args1 : ProcArgs := ⟨0x500000#64, 0#8, 0x102000#64, 4096#64⟩

def frames : Ledger :=
  [Call.palloc, .palloc, .palloc, .palloc].foldl Ledger.exec (Ledger.start eightFrames)

def kernel : Kernel :=
  [SchedCall.createProc args0, .createProc args1, .registerProc 0x104000#64,
    .registerProc 0x105000#64].foldl Kernel.exec (Kernel.boot frames.pmm blank)

/-- What the boot thread may hold when the first switch comes. -/
def bootCpu : Cpu :=
  { Kernel.initialCpu args0 with rsp := 0x9000#64, rip := 0x8000#64 }

theorem frames_reached : Run Ledger.AnyStep (Ledger.start eightFrames)
    [.palloc, .palloc, .palloc, .palloc] frames :=
  Run.cons rfl (Run.cons rfl (Run.cons rfl (Run.cons rfl (Run.nil _))))

end Sample

end Asnu
