import Asnu.Lib.Turns
import Asnu.Sched.Blocked

/-!
Whose turn it is, while other kernel code sets the states of processes, creates
processes and registers them between the switches. A process that may run is
not passed over: until its turn comes nobody else has a second one.
-/

namespace Asnu

open Lib

/-- What happens to the scheduler's data. The allocator that a creation asks is in whatever
state it is in then. -/
inductive SchedEvent where
  | createProc (pmm : Pmm) (a : ProcArgs)
  | registerProc (p : Ptr)
  | setState (p : Ptr) (state : SchedulerState)
  | contextSwitch (cpu : Cpu)

/-- `p` itself is at most made ready or idle. -/
def SchedEvent.Spares (p : Ptr) : SchedEvent → Prop
  | .setState q state => q = p → state = .procReady ∨ state = .procIdle
  | _ => True

instance (p : Ptr) : (e : SchedEvent) → Decidable (e.Spares p)
  | .setState q state =>
      inferInstanceAs (Decidable (q = p → state = .procReady ∨ state = .procIdle))
  | .createProc _ _ | .registerProc _ | .contextSwitch _ => inferInstanceAs (Decidable True)

namespace Sched

def exec (s : Sched) : SchedEvent → Sched
  | .createProc pmm a => (createProc pmm s a).2.2
  | .registerProc p => registerProc s p
  | .setState p state => s.setState p state
  | .contextSwitch cpu => s.after cpu

/-- No process is created in the memory of a registered one, and none is registered that is
registered already. -/
def Allowed (s : Sched) : SchedEvent → Prop
  | .createProc pmm _ => (kalloc pmm sizeofProcedure).1 ∉ s.procList
  | .registerProc p => p ≠ NULL ∧ p ∉ s.procList
  | .setState _ _ | .contextSwitch _ => True

instance (s : Sched) : (e : SchedEvent) → Decidable (s.Allowed e)
  | .createProc pmm _ => inferInstanceAs (Decidable ((kalloc pmm sizeofProcedure).1 ∉ s.procList))
  | .registerProc p => inferInstanceAs (Decidable (p ≠ NULL ∧ p ∉ s.procList))
  | .setState _ _ | .contextSwitch _ => inferInstanceAs (Decidable True)

/-- The process that each switch leaves current, in order. -/
def turns (s : Sched) : List SchedEvent → List Ptr
  | [] => []
  | .contextSwitch cpu :: events => (s.after cpu).currentProc :: (s.after cpu).turns events
  | e :: events => (s.exec e).turns events

/-- The current process, or one the search would take. -/
def Runnable (s : Sched) (p : Ptr) : Prop := p = s.currentProc ∨ s.ready p = true

instance (s : Sched) (p : Ptr) : Decidable (s.Runnable p) :=
  inferInstanceAs (Decidable (_ ∨ _))

/-- Distinct registered processes, one of them current as soon as there is one. -/
structure Roster (s : Sched) : Prop where
  nodup : s.procList.Nodup
  null_notMem : NULL ∉ s.procList
  count_le : s.procCount ≤ maxProcs
  current : (s.procList = [] ∧ s.currentProc = NULL) ∨ s.currentProc ∈ s.procList

end Sched

/-- Every state that the kernel's calls lead to is one. -/
theorem Kernel.Orderly.roster {k : Kernel} (h : k.Orderly) : k.sched.Roster :=
  ⟨h.nodup, h.null_notMem, h.count_le, h.current⟩

namespace Sched

namespace Roster

variable {s : Sched} {p q : Ptr}

theorem current_mem (h : s.Roster) (hp : p ∈ s.procList) : s.currentProc ∈ s.procList := by
  rcases h.current with ⟨hnil, -⟩ | hmem
  · rw [hnil] at hp
    exact absurd hp List.not_mem_nil
  · exact hmem

theorem current_ne_null (h : s.Roster) (hp : p ∈ s.procList) : s.currentProc ≠ NULL :=
  fun hnull => h.null_notMem (hnull ▸ h.current_mem hp)

/-- The search goes round the circle of the current process. -/
theorem findNextProc_circle (h : s.Roster) (hp : p ∈ s.procList) :
    findNextProc s = ((circle s.currentProc s.procList).find? s.ready).getD NULL := by
  obtain ⟨us, vs, hlist, hus⟩ := List.eq_append_cons_of_mem (h.current_mem hp)
  rw [findNextProc_split hlist hus rfl (h.current_ne_null hp)]
  conv_rhs => rw [hlist, circle_split hus]

theorem find_circle (h : s.Roster) (hp : p ∈ s.procList) (hfound : findNextProc s ≠ NULL) :
    (circle s.currentProc s.procList).find? s.ready = some (findNextProc s) := by
  have heq := h.findNextProc_circle hp
  cases hfind : (circle s.currentProc s.procList).find? s.ready with
  | none =>
      rw [hfind] at heq
      exact absurd heq hfound
  | some q =>
      rw [hfind] at heq
      exact congrArg some heq.symm

/-- As long as a process other than the current one may run, a switch takes place. -/
theorem exists_dispatches (h : s.Roster) (hp : p ∈ s.procList) (hready : s.ready p = true)
    (hcur : s.currentProc ≠ p) : ∃ q, s.Dispatches q := by
  have hfound : findNextProc s ≠ NULL := by
    intro hnull
    rw [(findNextProc_eq_null_iff h.null_notMem).mp hnull p hp] at hready
    exact Bool.noConfusion hready
  refine ⟨findNextProc s, rfl, hfound, fun hself => ?_⟩
  have hmem := h.current_mem hp
  have hfind := h.find_circle hp hfound
  rw [← hself] at hfind
  obtain ⟨us, hup⟩ := upcoming_find h.nodup hmem hp (Or.inr hready) hfind hcur
  refine current_notMem_upcoming h.nodup hmem hp ?_
  rw [hup]
  exact List.mem_append_right _ List.mem_cons_self

theorem setState (h : s.Roster) (q : Ptr) (state : SchedulerState) :
    (s.setState q state).Roster := ⟨h.nodup, h.null_notMem, h.count_le, h.current⟩

theorem createProc (h : s.Roster) (pmm : Pmm) (a : ProcArgs) :
    (s.exec (.createProc pmm a)).Roster := by
  rw [exec]
  rcases createProc_cases pmm s a with ⟨-, heq⟩ | ⟨-, heq⟩ <;> rw [heq]
  · exact h
  · exact ⟨h.nodup, h.null_notMem, h.count_le, h.current⟩

theorem registerProc (h : s.Roster) (hnull : q ≠ NULL) (hnew : q ∉ s.procList) :
    (s.exec (.registerProc q)).Roster := by
  have hnodup : (s.procList ++ [q]).Nodup :=
    List.nodup_append.mpr ⟨h.nodup, List.nodup_singleton q, by
      rintro r hr _ hq rfl
      exact hnew (List.mem_singleton.mp hq ▸ hr)⟩
  have hnotMem : NULL ∉ s.procList ++ [q] := by
    simp [h.null_notMem, hnull.symm]
  rw [exec]
  rcases registerProc_cases s q with ⟨-, heq⟩ | ⟨hlt, -, heq⟩ | ⟨hlt, hcur, heq⟩ <;> rw [heq]
  · exact h
  · exact ⟨hnodup, hnotMem, by simpa [started, procCount] using hlt,
      Or.inr (List.mem_append_right _ (List.mem_singleton_self q))⟩
  · refine ⟨hnodup, hnotMem, by simpa [appended, procCount] using hlt, Or.inr ?_⟩
    rcases h.current with ⟨-, hnone⟩ | hmem
    · exact absurd hnone hcur
    · exact List.mem_append_left _ hmem

theorem after (h : s.Roster) (cpu : Cpu) : (s.after cpu).Roster := by
  rcases contextSwitch_cases s cpu with ⟨hret, -⟩ | ⟨next, hnext, -⟩
  · rw [after_eq_self hret]
    exact h
  · rw [after_of_dispatches hnext cpu]
    exact ⟨h.nodup, h.null_notMem, h.count_le, Or.inr hnext.mem.1⟩

end Roster

/-- `p` is registered and may run, and since some moment the processes `seen` have been current,
once each, and none of them comes again before `p`. -/
structure Waits (s : Sched) (p : Ptr) (seen : List Ptr) : Prop where
  roster : s.Roster
  listed : p ∈ s.procList
  runnable : s.Runnable p
  once : OnceEach p s.currentProc s.procList seen

namespace Waits

variable {s : Sched} {p q : Ptr} {seen : List Ptr}

theorem current_mem (h : s.Waits p seen) : s.currentProc ∈ s.procList :=
  h.roster.current_mem h.listed

/-- A creation leaves the record of `p` alone. -/
theorem createProc (h : s.Waits p seen) {pmm : Pmm} {a : ProcArgs}
    (hfresh : (kalloc pmm sizeofProcedure).1 ∉ s.procList) :
    (s.exec (.createProc pmm a)).Waits p seen := by
  have hroster := h.roster.createProc pmm a
  rw [exec] at hroster ⊢
  rcases createProc_cases pmm s a with ⟨-, heq⟩ | ⟨-, heq⟩ <;> rw [heq] at hroster ⊢
  · exact h
  · refine ⟨hroster, h.listed, h.runnable.imp_right (fun hready => ?_), h.once⟩
    have hne : p ≠ (kalloc pmm sizeofProcedure).1 := fun hsame => hfresh (hsame ▸ h.listed)
    simpa [Sched.ready, spawned, update, hne] using hready

theorem registerProc (h : s.Waits p seen) (hnull : q ≠ NULL) (hnew : q ∉ s.procList) :
    (s.exec (.registerProc q)).Waits p seen := by
  have hroster := h.roster.registerProc hnull hnew
  rw [exec] at hroster ⊢
  rcases registerProc_cases s q with ⟨-, heq⟩ | ⟨-, hcur, -⟩ | ⟨-, -, heq⟩
  · rw [heq]
    exact h
  · exact absurd hcur (h.roster.current_ne_null h.listed)
  · rw [heq] at hroster ⊢
    refine ⟨hroster, List.mem_append_left _ h.listed, h.runnable.imp_right (fun hready => ?_),
      h.once.join h.current_mem h.listed hnew⟩
    have hne : p ≠ q := fun hsame => hnew (hsame ▸ h.listed)
    simpa [Sched.ready, appended, Sched.setState, update, hne] using hready

theorem setState (h : s.Waits p seen) {state : SchedulerState}
    (hspare : q = p → state = .procReady ∨ state = .procIdle) :
    (s.setState q state).Waits p seen := by
  refine ⟨h.roster.setState q state, h.listed, h.runnable.imp_right (fun hready => ?_), h.once⟩
  by_cases hq : p = q
  · rcases hspare hq.symm with rfl | rfl <;>
      simp [Sched.ready, Sched.setState, update, hq, eligible]
  · simpa [Sched.ready, Sched.setState, update, hq] using hready

/-- The next one is `p`, or one that has not been current yet. -/
theorem after (h : s.Waits p seen) (cpu : Cpu) : (s.after cpu).currentProc = p ∨
    (s.after cpu).Waits p ((s.after cpu).currentProc :: seen) := by
  by_cases hnobody : ∀ q, ¬ s.Dispatches q
  · refine Or.inl ?_
    rcases contextSwitch_cases s cpu with ⟨hret, -⟩ | ⟨next, hnext, -⟩
    · rw [after_eq_self hret]
      by_contra hcur
      have hready := h.runnable.resolve_left (Ne.symm hcur)
      obtain ⟨q, hq⟩ := h.roster.exists_dispatches h.listed hready hcur
      exact hnobody q hq
    · exact absurd hnext (hnobody next)
  · obtain ⟨q, hq⟩ := not_forall_not.mp hnobody
    have hafter := after_of_dispatches hq cpu
    have hcur : (s.after cpu).currentProc = q := by rw [hafter]
    rw [hcur]
    refine or_iff_not_imp_left.mpr (fun hqp => ?_)
    have hfind := h.roster.find_circle h.listed (hq.1 ▸ hq.2.1)
    rw [hq.1] at hfind
    refine ⟨h.roster.after cpu, by rw [after_procList]; exact h.listed, Or.inr ?_, ?_⟩
    · by_cases hp : s.currentProc = p
      · have hstate := after_left_state (h.roster.null_notMem <| · ▸ h.listed) hp hq cpu
        simp [Sched.ready, eligible, hstate]
      · have hkept : (s.after cpu).procs p = s.procs p :=
          after_procs_ne cpu (Ne.symm hp) (fun hd => hqp (hq.1.symm.trans hd.1))
        rw [Sched.ready, hkept]
        exact h.runnable.resolve_left (Ne.symm hp)
    · rw [hcur, after_procList]
      exact h.once.pass h.roster.nodup h.current_mem h.listed h.runnable hfind hqp

/-- The turns of a run, up to the one of `p`. -/
theorem turns {events : List SchedEvent} (h : s.Waits p seen)
    (hall : Along (fun s e => s.Allowed e ∧ e.Spares p) Sched.exec s events) :
    p ∈ s.turns events ∨
      (events.foldl Sched.exec s).Waits p ((s.turns events).reverse ++ seen) := by
  induction events generalizing s seen with
  | nil => exact Or.inr h
  | cons e events ih =>
      obtain ⟨⟨hallowed, hspares⟩, hrest⟩ := hall
      cases e with
      | contextSwitch cpu =>
          rcases h.after cpu with hturn | hnext
          · exact Or.inl (by rw [Sched.turns, hturn]; exact List.mem_cons_self)
          · rcases ih hnext hrest with hturn | hwaits
            · exact Or.inl (List.mem_cons_of_mem _ hturn)
            · refine Or.inr ?_
              rw [Sched.turns, List.reverse_cons, List.append_assoc]
              exact hwaits
      | createProc pmm a => exact ih (h.createProc hallowed) hrest
      | registerProc q => exact ih (h.registerProc hallowed.1 hallowed.2) hrest
      | setState q state => exact ih (h.setState hspares) hrest

end Waits

end Sched

/-- In any run in which a registered process stays able to run, it is taken up before anybody
else has a second turn, so at the latest when all the others have had one. -/
theorem runnable_process_gets_turn {s : Sched} (h : s.Roster) {p : Ptr} (hp : p ∈ s.procList)
    (hrun : s.Runnable p) {events : List SchedEvent}
    (hall : Along (fun s e => s.Allowed e ∧ e.Spares p) Sched.exec s events) :
    p ∈ s.turns events ∨ (s.currentProc :: s.turns events).Nodup ∧
      (s.turns events).length < (events.foldl Sched.exec s).procCount ∧
      (events.foldl Sched.exec s).procCount ≤ maxProcs := by
  have hstart : s.Waits p [s.currentProc] :=
    ⟨h, hp, hrun, OnceEach.start h.nodup (h.current_mem hp) hp⟩
  refine (hstart.turns hall).imp_right (fun hwaits => ?_)
  have hperm : (s.currentProc :: s.turns events).Perm
      ((s.turns events).reverse ++ [s.currentProc]) := by
    rw [← List.reverse_cons]
    exact (List.reverse_perm _).symm
  refine ⟨hperm.nodup_iff.mpr hwaits.once.once, ?_, hwaits.roster.count_le⟩
  have hlength := hwaits.once.length_le
  rwa [← hperm.length_eq, List.length_cons] at hlength

namespace Sample

/-- The first process is put to sleep, and a third one is registered before the first switch. -/
def threeTurns : List SchedEvent :=
  [.setState 0x104000#64 .procSleeping, .registerProc 0x106000#64, .contextSwitch bootCpu,
    .contextSwitch bootCpu, .contextSwitch bootCpu]

end Sample

theorem runnable_process_gets_turn_sample :
    0x105000#64 ∈ Sample.kernel.sched.turns Sample.threeTurns := by
  have hroster : Sample.kernel.sched.Roster := by
    constructor <;> decide +kernel
  have hall : Along (fun s e => s.Allowed e ∧ e.Spares 0x105000#64) Sched.exec
      Sample.kernel.sched Sample.threeTurns := by decide +kernel
  refine (runnable_process_gets_turn hroster (by decide +kernel) (by decide +kernel)
    hall).resolve_right (fun hnone => ?_)
  exact absurd hnone.2.1 (by decide +kernel)

end Asnu
