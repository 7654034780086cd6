import Asnu.Lib.Ring
import Asnu.Sched.Select

/-!
Round-robin. With the current process running, the processes that can ever be
current are it and the eligible ones; they form a ring in list order, which no
switch changes, and every switch moves one place further in it.
-/

namespace Asnu

open Lib

namespace Sched

/-- The current process and the eligible ones, in list order. -/
def ringOf (s : Sched) : List Ptr := ring s.ready s.currentProc s.procList

/-- The state after `n` switches, the CPU holding `cpus i` at the `i`-th. -/
def afterN (s : Sched) (cpus : Nat → Cpu) : Nat → Sched
  | 0 => s
  | n + 1 => (afterN s cpus n).after (cpus n)

/-- Distinct registered processes, one of them current and running. -/
structure Rotating (s : Sched) : Prop where
  nodup : s.procList.Nodup
  null_notMem : NULL ∉ s.procList
  current_mem : s.currentProc ∈ s.procList
  running : (s.procs s.currentProc).procState = .procRunning

namespace Rotating

theorem current_not_ready {s : Sched} (h : s.Rotating) :
    s.ready s.currentProc = false := by
  simp [ready, eligible, h.running]

theorem current_ne_null {s : Sched} (h : s.Rotating) : s.currentProc ≠ NULL :=
  fun heq => h.null_notMem (heq ▸ h.current_mem)

theorem current_mem_ring {s : Sched} (h : s.Rotating) :
    s.currentProc ∈ s.ringOf := mem_ring.mpr ⟨h.current_mem, Or.inl rfl⟩

/-- The search, read as a step in the ring: what it finds, or the current
process when it finds nothing, is the successor of the current process. -/
theorem search_eq_succ {s : Sched} (h : s.Rotating) :
    (if findNextProc s = NULL then s.currentProc else findNextProc s) =
      s.ringOf.getD ((s.ringOf.idxOf s.currentProc + 1) % s.ringOf.length) NULL := by
  obtain ⟨xs, ys, hlist, hxs⟩ := List.eq_append_cons_of_mem h.current_mem
  have hys : s.currentProc ∉ ys := by
    have hnodup := h.nodup
    rw [hlist, List.nodup_middle, List.nodup_cons] at hnodup
    exact fun hc => hnodup.1 (List.mem_append_right _ hc)
  have hsucc := find?_eq_ring_succ NULL hxs hys h.current_not_ready
  rw [← hlist] at hsucc
  rw [ringOf, ← hsucc, findNextProc_split hlist hxs rfl h.current_ne_null]
  cases hfind : (ys ++ (xs ++ [s.currentProc])).find? s.ready with
  | none => simp
  | some q =>
      have hq : q ∈ s.procList := by
        have hmem := List.mem_of_find?_eq_some hfind
        rw [hlist]
        simp only [List.mem_append, List.mem_cons] at hmem ⊢
        tauto
      have hqnull : q ≠ NULL := fun heq => h.null_notMem (heq ▸ hq)
      simp [hqnull]

/-- A switch that takes place: the process left becomes ready, the one taken
up running, and the ring stays. -/
theorem after_dispatches {s : Sched} (h : s.Rotating) {next : Ptr}
    (hnext : s.Dispatches next) (cpu : Cpu) :
    (s.after cpu).Rotating ∧ (s.after cpu).ringOf = s.ringOf := by
  have hafter := after_of_dispatches hnext cpu
  have hmem := hnext.mem
  have hne : s.currentProc ≠ next := hnext.2.2
  constructor
  · rw [hafter]
    exact ⟨h.nodup, h.null_notMem, hmem.1, by simp [switched]⟩
  · rw [ringOf, ringOf, ring, ring, after_procList]
    apply List.filter_congr
    intro p _
    rw [hafter]
    by_cases hpn : p = next
    · have hready : s.ready p = true := hpn ▸ hmem.2
      simp [hpn, hpn ▸ hready]
    · by_cases hpc : p = s.currentProc
      · have hpnull : p ≠ NULL := hpc ▸ h.current_ne_null
        simp [ready, switched, eligible, hpc, hne, h.current_ne_null]
      · simp [ready, switched, hpn, hpc, beq_false_of_ne hpn, beq_false_of_ne hpc]

/-- One call of `context_switch` moves one place further in the ring. -/
theorem after_step {s : Sched} (h : s.Rotating) (cpu : Cpu) :
    (s.after cpu).Rotating ∧ (s.after cpu).ringOf = s.ringOf ∧
      (s.after cpu).currentProc =
        s.ringOf.getD ((s.ringOf.idxOf s.currentProc + 1) % s.ringOf.length) NULL := by
  rw [← h.search_eq_succ]
  rcases contextSwitch_cases s cpu with ⟨hret, hnone⟩ | ⟨next, hnext, _⟩
  · have hself := after_eq_self hret
    rw [hself]
    refine ⟨h, rfl, ?_⟩
    split
    · rfl
    · next hnull =>
        by_contra hcur
        exact hnone _ ⟨rfl, hnull, hcur⟩
  · obtain ⟨hrot, hring⟩ := h.after_dispatches hnext cpu
    refine ⟨hrot, hring, ?_⟩
    rw [if_neg (hnext.1 ▸ hnext.2.1), hnext.1, after_of_dispatches hnext cpu]

/-- After any number of switches the ring is the same and the current process
is that many places further on. -/
theorem afterN_current {s : Sched} (h : s.Rotating) (cpus : Nat → Cpu) (k : Nat) :
    (s.afterN cpus k).Rotating ∧ (s.afterN cpus k).ringOf = s.ringOf ∧
      s.ringOf.idxOf (s.afterN cpus k).currentProc =
        (s.ringOf.idxOf s.currentProc + k) % s.ringOf.length := by
  have hpos : 0 < s.ringOf.length := List.length_pos_of_mem h.current_mem_ring
  induction k with
  | zero =>
      have hlt := List.idxOf_lt_length_of_mem h.current_mem_ring
      exact ⟨h, rfl, by rw [afterN, Nat.add_zero, Nat.mod_eq_of_lt hlt]⟩
  | succ k ih =>
      obtain ⟨hrot, hring, hidx⟩ := ih
      obtain ⟨hrot', hring', hcur⟩ := hrot.after_step (cpus k)
      refine ⟨hrot', hring'.trans hring, ?_⟩
      have hring_nodup : s.ringOf.Nodup := nodup_ring h.nodup
      rw [hring] at hcur
      rw [afterN, hcur, idxOf_getD hring_nodup NULL (Nat.mod_lt _ hpos), hidx,
        Nat.mod_add_mod, Nat.add_assoc]

end Rotating

/-- A process outside the ring is not touched by any number of switches. -/
theorem Rotating.afterN_procs {s : Sched} (h : s.Rotating) (cpus : Nat → Cpu)
    (k : Nat) {p : Ptr} (hp : p ∉ s.ringOf) :
    (s.afterN cpus k).procs p = s.procs p := by
  induction k with
  | zero => rfl
  | succ k ih =>
      obtain ⟨hrot, hring, _⟩ := h.afterN_current cpus k
      have hcur : p ≠ (s.afterN cpus k).currentProc := by
        rintro rfl
        exact hp (hring ▸ hrot.current_mem_ring)
      have hnext : ¬ (s.afterN cpus k).Dispatches p := by
        intro hdispatch
        have hmem := hdispatch.mem
        exact hp (hring ▸ mem_ring.mpr ⟨hmem.1, Or.inr hmem.2⟩)
      rw [afterN, after_procs_ne _ hcur hnext, ih]

end Sched

/-- After `k` switches the current process is the one `k` places further in
the ring; in any `m` consecutive switches, `m` being the size of the ring,
every member is current exactly once; everybody else is left alone. -/
theorem context_switch_round_robin (s : Sched) (cpus : Nat → Cpu)
    (hnodup : s.procList.Nodup) (hnull : NULL ∉ s.procList)
    (hcur : s.currentProc ∈ s.procList)
    (hrunning : (s.procs s.currentProc).procState = .procRunning) :
    (∀ k, (s.afterN cpus k).currentProc =
      s.ringOf.getD ((s.ringOf.idxOf s.currentProc + k) % s.ringOf.length) NULL) ∧
    (∀ start, ∀ p ∈ s.ringOf, ∃! i, i < s.ringOf.length ∧
      (s.afterN cpus (start + i)).currentProc = p) ∧
    (∀ k p, p ∉ s.ringOf → (s.afterN cpus k).procs p = s.procs p) := by
  have h : s.Rotating := ⟨hnodup, hnull, hcur, hrunning⟩
  have hplace : ∀ k, (s.afterN cpus k).currentProc ∈ s.ringOf := by
    intro k
    obtain ⟨hrot, hring, _⟩ := h.afterN_current cpus k
    exact hring ▸ hrot.current_mem_ring
  refine ⟨?_, ?_, fun k p hp => h.afterN_procs cpus k hp⟩
  · intro k
    obtain ⟨_, _, hidx⟩ := h.afterN_current cpus k
    have hlt := List.idxOf_lt_length_of_mem (hplace k)
    rw [← hidx, List.getD_eq_getElem _ _ hlt, List.getElem_idxOf]
  · intro start p hp
    have hq := List.idxOf_lt_length_of_mem hp
    have hiff : ∀ i, (s.afterN cpus (start + i)).currentProc = p ↔
        (s.ringOf.idxOf s.currentProc + start + i) % s.ringOf.length =
          s.ringOf.idxOf p := by
      intro i
      obtain ⟨_, _, hidx⟩ := h.afterN_current cpus (start + i)
      rw [Nat.add_assoc, ← hidx]
      constructor
      · rintro rfl
        rfl
      · intro heq
        exact List.idxOf_inj (hplace (start + i)) |>.mp heq
    simp only [hiff]
    exact existsUnique_add_mod _ hq

/-- Four processes, the second running, the third waiting. -/
def fourProcs : Sched :=
  { procs := fun p =>
      { procState := if p = 0x2000#64 then .procRunning
          else if p = 0x3000#64 then .procWaiting else .procReady }
    stackWords := fun _ => 0#64
    procList := [0x1000#64, 0x2000#64, 0x3000#64, 0x4000#64]
    currentProc := 0x2000#64
    nextPid := 5#32 }

theorem context_switch_round_robin_fourProcs :
    (fourProcs.afterN (fun _ => restoreRegs {}) 2).currentProc =
      fourProcs.ringOf.getD ((fourProcs.ringOf.idxOf fourProcs.currentProc + 2) %
        fourProcs.ringOf.length) NULL :=
  (context_switch_round_robin fourProcs (fun _ => restoreRegs {}) (by decide) (by decide)
    (by decide) rfl).1 2

example : fourProcs.ringOf = [0x1000#64, 0x2000#64, 0x4000#64] := by decide

end Asnu
