import Asnu.Sched.Invariant

/-!
What becomes of a saved context. `context_switch` stores every register but
`rip` and loads `rip` with the rest, so a process continues at the address its
record has held since `create_proc`. `register_proc` makes the first process
current without loading it, so the first save overwrites its context with
whatever the boot thread had in the CPU.
-/

namespace Asnu

open Lib

theorem restoreRegs_saveRegs (cpu : Cpu) (r : RegisterState) :
    restoreRegs (saveRegs cpu r) = { cpu with rip := r.rip } := rfl

namespace Sched

/-- A call of `context_switch` that does not take up `p`. -/
def Bypass (p : Ptr) (s : Sched) (cpu : Cpu) (t : Sched) : Prop :=
  ¬ s.Dispatches p ∧ t = s.after cpu

theorem cpu?_of_dispatches {s : Sched} {p : Ptr} (h : s.Dispatches p)
    (cpu : Cpu) :
    (contextSwitch s cpu).cpu? = some (restoreRegs (s.procs p).state.regs) := by
  rcases contextSwitch_cases s cpu with ⟨_, hnone⟩ | ⟨next, hnext, hjump⟩
  · exact absurd h (hnone p)
  · obtain rfl : next = p := hnext.1.symm.trans h.1
    rw [hjump, Exit.cpu?]

/-- While a process is not current and not taken up its record stays. -/
theorem bypass_run {s t : Sched} {p : Ptr} {cpus : List Cpu}
    (hrun : Run (Bypass p) s cpus t) (hcur : s.currentProc ≠ p) :
    t.currentProc ≠ p ∧ t.procs p = s.procs p := by
  refine hrun.invariant
    (fun u => u.currentProc ≠ p ∧ u.procs p = s.procs p) ?_ ⟨hcur, rfl⟩
  rintro u cpu v ⟨hne, hprocs⟩ ⟨hbypass, rfl⟩
  refine ⟨?_, by rw [after_procs_ne cpu hne.symm hbypass, hprocs]⟩
  rcases contextSwitch_cases u cpu with ⟨hret, _⟩ | ⟨next, hnext, _⟩
  · rw [after_eq_self hret]
    exact hne
  · rw [after_of_dispatches hnext cpu]
    rintro rfl
    exact hbypass hnext

/-- A state in which nothing can be taken up is never left. -/
theorem idle_run {s t : Sched} {p : Ptr} {cpus : List Cpu}
    (hidle : ∀ q, ¬ s.Dispatches q) (hrun : Run (Bypass p) s cpus t) : t = s := by
  refine hrun.invariant (fun u => u = s) ?_ rfl
  rintro u cpu v rfl ⟨_, rfl⟩
  rcases contextSwitch_cases u cpu with ⟨hret, _⟩ | ⟨next, hnext, _⟩
  · exact after_eq_self hret
  · exact absurd hnext (hidle next)

/-- When a process is taken up after a switch, the switch had something to take up. -/
theorem dispatches_of_run {s t : Sched} {p : Ptr} {cpu : Cpu} {cpus : List Cpu}
    (hrun : Run (Bypass p) (s.after cpu) cpus t) (hload : t.Dispatches p) :
    ∃ q, s.Dispatches q := by
  rcases contextSwitch_cases s cpu with ⟨hret, _⟩ | ⟨q, hq, _⟩
  · rw [after_eq_self hret] at hrun
    by_contra hnone
    have hidle : ∀ q, ¬ s.Dispatches q := fun q hq => hnone ⟨q, hq⟩
    exact hidle p (idle_run hidle hrun ▸ hload)
  · exact ⟨q, hq⟩

/-- The record of the process left, once another one is taken up. -/
theorem after_left {s : Sched} {p q : Ptr} (hp : p ≠ NULL)
    (hcur : s.currentProc = p) (hq : s.Dispatches q) (cpu : Cpu) :
    (s.after cpu).currentProc ≠ p ∧
      ((s.after cpu).procs p).state.regs = saveRegs cpu (s.procs p).state.regs := by
  have hne : p ≠ q := fun heq => hq.2.2 (hcur.trans heq)
  rw [after_of_dispatches hq cpu]
  exact ⟨hne.symm, by simp [switched, hne, hcur, hp]⟩

/-- The record stays as it was left until the process is taken up again. -/
theorem regs_of_run {s t : Sched} {p : Ptr} (hp : p ≠ NULL) (hcur : s.currentProc = p)
    (hout : ∃ q, s.Dispatches q) {cpu : Cpu} {cpus : List Cpu}
    (hrun : Run (Bypass p) (s.after cpu) cpus t) :
    (t.procs p).state.regs = saveRegs cpu (s.procs p).state.regs := by
  obtain ⟨q, hq⟩ := hout
  obtain ⟨hleft, hsaved⟩ := after_left hp hcur hq cpu
  rw [(bypass_run hrun hleft).2, hsaved]

end Sched

/-- A process switched out with registers `r`, and taken up again after any
number of other switches, gets back `r` with the `rip` of its record; that is
`r` exactly when it is to continue at that very address. -/
theorem context_round_trip_iff (s : Sched) (p : Ptr) (hp : p ≠ NULL)
    (hcur : s.currentProc = p) (r : Cpu) (hout : ∃ q, s.Dispatches q)
    (others : List Cpu) (t : Sched)
    (hrun : Run (Sched.Bypass p) (s.after r) others t) (r' : Cpu)
    (hin : t.Dispatches p) :
    (contextSwitch t r').cpu? = some r ↔ r.rip = (s.procs p).state.regs.rip := by
  have hsaved := Sched.regs_of_run hp hcur hout hrun
  rw [Sched.cpu?_of_dispatches hin, hsaved, restoreRegs_saveRegs]
  constructor
  · intro heq
    exact congrArg Cpu.rip (Option.some.inj heq).symm
  · intro hrip
    rw [← hrip]

theorem context_round_trip_iff_sample :
    (contextSwitch (Sample.kernel.sched.after (Kernel.initialCpu Sample.args0))
        Sample.bootCpu).cpu? = some (Kernel.initialCpu Sample.args0) ↔
      0x400000#64 = (Sample.kernel.sched.procs 0x104000#64).state.regs.rip :=
  context_round_trip_iff Sample.kernel.sched 0x104000#64 (by decide)
    (by decide +kernel) (Kernel.initialCpu Sample.args0)
    ⟨0x105000#64, by decide +kernel⟩ [] _ (Run.nil _) Sample.bootCpu
    (by decide +kernel)

/-- A process switched out away from its entry point is sent back there. -/
theorem saved_context_loses_rip :
    ¬ ∀ (s : Sched) (p : Ptr), p ≠ NULL → s.currentProc = p →
      ∀ r : Cpu, (∃ q, s.Dispatches q) → ∀ (others : List Cpu) (t : Sched),
      Run (Sched.Bypass p) (s.after r) others t → ∀ r' : Cpu, t.Dispatches p →
        (contextSwitch t r').cpu? = some r := by
  intro hclaim
  have hloaded := hclaim Sample.kernel.sched 0x104000#64 (by decide)
    (by decide +kernel) Sample.bootCpu ⟨0x105000#64, by decide +kernel⟩ [] _
    (Run.nil _) Sample.bootCpu (by decide +kernel)
  exact absurd hloaded (by decide +kernel)

/-- In every run the address a created process is sent to is its entry point:
nothing but `create_proc` ever stores `rip`. -/
theorem rip_eq_entryPoint {k k' : Kernel} {ops : List SchedCall}
    (hrun : Run (Kernel.StepIf Kernel.RegistersOnce) k ops k') (hk : k.Stocked)
    (hrip : ∀ p a, (p, a) ∈ k.created →
      (k.sched.procs p).state.regs.rip = a.entryPoint) :
    ∀ p a, (p, a) ∈ k'.created →
      (k'.sched.procs p).state.regs.rip = a.entryPoint := by
  refine (hrun.invariant (fun u => u.Stocked ∧ ∀ p a, (p, a) ∈ u.created →
    (u.sched.procs p).state.regs.rip = a.entryPoint) ?_ ⟨hk, hrip⟩).2
  rintro u c v ⟨hu, hrip⟩ ⟨_, rfl⟩
  refine ⟨Kernel.stocked_exec hu c, ?_⟩
  cases c with
  | createProc b =>
      rcases Kernel.exec_createProc u b with ⟨pmm, hexec, _⟩ | ⟨i, hfree, _, hexec⟩
      · rw [hexec]
        exact hrip
      · rw [hexec]
        intro p a ha
        rcases List.mem_cons.mp ha with heq | hold
        · obtain ⟨rfl, rfl⟩ := Prod.mk.injEq .. ▸ heq
          simp [Kernel.withProc, Sched.update, initProc]
        · have hne : p ≠ u.pmm.frame i := hu.fresh hfree _ hold
          simpa [Kernel.withProc, Sched.update, hne] using hrip p a hold
  | registerProc q =>
      intro p a ha
      rw [Kernel.exec, registerProc_state]
      exact hrip p a ha
  | contextSwitch cpu =>
      intro p a ha
      rcases contextSwitch_cases u.sched cpu with ⟨hret, _⟩ | ⟨next, hnext, _⟩
      · simpa only [Kernel.exec, Sched.after_eq_self hret] using hrip p a ha
      · rw [← hrip p a ha, Kernel.exec, Sched.after_of_dispatches hnext cpu]
        simp only [Sched.switched]
        split
        · rfl
        · split <;> rfl

namespace Kernel

theorem restoreRegs_initProc (pid : BitVec 32) (a : ProcArgs) :
    restoreRegs (initProc pid a).state.regs = initialCpu a := rfl

/-- The calls of the boot thread: procedures are created and registered. -/
def BootCall (k : Kernel) : SchedCall → Prop
  | .createProc _ => True
  | .registerProc p => k.Created p
  | .contextSwitch _ => False

instance (k : Kernel) : (c : SchedCall) → Decidable (k.BootCall c)
  | .createProc _ => inferInstanceAs (Decidable True)
  | .registerProc p => inferInstanceAs (Decidable (k.Created p))
  | .contextSwitch _ => inferInstanceAs (Decidable False)

/-- Before the first switch the current process is the first one registered,
and every process has the registers it was created with. -/
structure Booting (k : Kernel) : Prop where
  stocked : k.Stocked
  listed : ∀ p ∈ k.sched.procList, p ∈ k.submitted
  submitted_created : ∀ p ∈ k.submitted, k.Created p
  current : k.sched.currentProc = k.submitted.head?.getD NULL
  prepared : ∀ p a, (p, a) ∈ k.created →
    ∃ pid, (k.sched.procs p).state = (initProc pid a).state

theorem booting_boot {pmm : Pmm} (h : pmm.Sized) (s : Sched) :
    (boot pmm s).Booting where
  stocked := stocked_boot h s
  listed := by simp [boot, schedulerInit]
  submitted_created := by simp [boot]
  current := rfl
  prepared := by simp [boot]

namespace Booting

theorem createProc {k : Kernel} (h : k.Booting) (a : ProcArgs) :
    (k.exec (.createProc a)).Booting := by
  have hstocked := stocked_exec h.stocked (.createProc a)
  rcases exec_createProc k a with ⟨pmm, hexec, _⟩ | ⟨i, hfree, _, hexec⟩
  · rw [hexec] at hstocked ⊢
    exact ⟨hstocked, h.listed, h.submitted_created, h.current, h.prepared⟩
  · rw [hexec] at hstocked ⊢
    refine ⟨hstocked, h.listed, ?_, h.current, ?_⟩
    · intro p hp
      obtain ⟨b, hb⟩ := h.submitted_created p hp
      exact ⟨b, List.mem_cons_of_mem _ hb⟩
    · intro p b hb
      rcases List.mem_cons.mp hb with heq | hold
      · obtain ⟨rfl, rfl⟩ := Prod.mk.injEq .. ▸ heq
        exact ⟨k.sched.nextPid, by simp [Kernel.withProc, Sched.update]⟩
      · have hne : p ≠ k.pmm.frame i := h.stocked.fresh hfree _ hold
        obtain ⟨pid, hpid⟩ := h.prepared p b hold
        exact ⟨pid, by simpa [Kernel.withProc, Sched.update, hne] using hpid⟩

theorem registerProc_mem {s : Sched} {p q : Ptr}
    (hq : q ∈ (Asnu.registerProc s p).procList) : q ∈ s.procList ∨ q = p := by
  rcases registerProc_cases s p with ⟨_, hexec⟩ | ⟨_, _, hexec⟩ | ⟨_, _, hexec⟩ <;>
    rw [hexec] at hq
  · exact Or.inl hq
  · simpa [Sched.started] using hq
  · simpa [Sched.appended] using hq

/-- The first process submitted becomes current and stays so. -/
theorem registerProc_current {k : Kernel} (h : k.Booting) (p : Ptr) :
    (Asnu.registerProc k.sched p).currentProc =
      (k.submitted ++ [p]).head?.getD NULL := by
  have hcurrent := h.current
  cases hsub : k.submitted with
  | nil =>
      have hempty : k.sched.procCount = 0 := by
        rw [Sched.procCount, List.length_eq_zero_iff, List.eq_nil_iff_forall_not_mem]
        intro q hq
        simpa [hsub] using h.listed q hq
      rw [hsub] at hcurrent
      rcases registerProc_cases k.sched p with
        ⟨hfull, _⟩ | ⟨_, _, hexec⟩ | ⟨_, hcur, _⟩
      · rw [hempty] at hfull
        exact absurd hfull (by decide)
      · rw [hexec]
        rfl
      · exact absurd hcurrent hcur
  | cons q rest =>
      rw [hsub] at hcurrent
      have hqnull : q ≠ NULL := h.stocked.ne_null (h.submitted_created q (by simp [hsub]))
      rcases registerProc_cases k.sched p with
        ⟨_, hexec⟩ | ⟨_, hcur, _⟩ | ⟨_, _, hexec⟩
      · rw [hexec]
        exact hcurrent
      · exact absurd (hcurrent.symm.trans hcur) hqnull
      · rw [hexec]
        exact hcurrent

theorem registerProc {k : Kernel} (h : k.Booting) {p : Ptr} (hp : k.Created p) :
    (k.exec (.registerProc p)).Booting where
  stocked := stocked_exec h.stocked (.registerProc p)
  listed := by
    intro q hq
    rw [exec, List.mem_append, List.mem_singleton]
    exact (registerProc_mem hq).imp_left (h.listed q)
  submitted_created := by
    intro q hq
    rcases List.mem_append.mp hq with hq | hq
    · exact h.submitted_created q hq
    · exact List.mem_singleton.mp hq ▸ hp
  current := registerProc_current h p
  prepared := by
    intro q a hq
    obtain ⟨pid, hpid⟩ := h.prepared q a hq
    exact ⟨pid, (registerProc_state k.sched p q).trans hpid⟩

end Booting

theorem booting_step {k k' : Kernel} {c : SchedCall} (h : k.Booting)
    (hstep : StepIf BootCall k c k') : k'.Booting := by
  obtain ⟨hguard, rfl⟩ := hstep
  cases c with
  | createProc a => exact h.createProc a
  | registerProc p => exact h.registerProc hguard
  | contextSwitch cpu => exact hguard.elim

end Kernel

/-- The first load of a process is the context `create_proc` prepared, unless
it is the first one registered; that one gets what the boot thread had in the
CPU at the first switch, and its own entry point. -/
theorem Kernel.Booting.loads_prepared_iff {k : Kernel} (h : k.Booting) {p : Ptr} {a : ProcArgs}
    (hp : (p, a) ∈ k.created) {switches : List Cpu} {t : Sched}
    (hrun : Run (Sched.Bypass p) k.sched switches t) (cpu : Cpu) (hload : t.Dispatches p) :
    (contextSwitch t cpu).cpu? = some (Kernel.initialCpu a) ↔
      k.submitted.head? ≠ some p ∨
      ∃ r rest, switches = r :: rest ∧
        { r with rip := a.entryPoint } = Kernel.initialCpu a := by
  have hpnull : p ≠ NULL := h.stocked.ne_null ⟨a, hp⟩
  obtain ⟨pid, hprepared⟩ := h.prepared p a hp
  have hfirst : k.submitted.head? = some p ↔ k.sched.currentProc = p := by
    rw [h.current]
    cases k.submitted.head? with
    | none => simp [hpnull.symm]
    | some q => simp
  rw [Sched.cpu?_of_dispatches hload, Option.some.injEq]
  by_cases hcur : k.sched.currentProc = p
  · rw [iff_comm, or_iff_right (fun hne => hne (hfirst.mpr hcur))]
    cases hrun with
    | nil => exact absurd hcur hload.2.2
    | @cons _ u _ r rest hstep hrest =>
        obtain ⟨_, rfl⟩ := hstep
        -- the first switch left `p`: otherwise nothing could ever be taken up
        have hout := Sched.dispatches_of_run hrest hload
        rw [Sched.regs_of_run hpnull hcur hout hrest, restoreRegs_saveRegs, hprepared]
        constructor
        · rintro ⟨r', rest', heq, hregs⟩
          obtain ⟨rfl, rfl⟩ := List.cons.inj heq
          exact hregs
        · intro hregs
          exact ⟨r, rest, rfl, hregs⟩
  · have hkept := (Sched.bypass_run hrun hcur).2
    rw [hkept, hprepared, Kernel.restoreRegs_initProc]
    exact ⟨fun _ => Or.inl (fun heq => hcur (hfirst.mp heq)), fun _ => rfl⟩

end Asnu
