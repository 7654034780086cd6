import Asnu.Sched.Invariant

/-!
The timer interrupt: `pit_handler` of the PIT driver, `scheduler_tick`, and
the end-of-interrupt command of the IDT code, over an interrupt controller
that keeps one bit for IRQ0. The handler sends the command after the tick, and
a tick that switches leaves by the jump of `context_switch` before that.
-/

namespace Asnu

open Lib

def pic1Command : BitVec 16 := 0x20#16

def pic2Command : BitVec 16 := 0xA0#16

def picEoi : BitVec 8 := 0x20#8

/-- `SchedTickFreq`, which no code writes. -/
def schedTickFreq : BitVec 64 := 10#64

structure Machine where
  kernel : Kernel
  pitTicks : BitVec 64
  schedTicks : BitVec 64
  /-- The in-service bit of IRQ0. -/
  inService : Bool

namespace Machine

/-- The command port of the first controller: an end-of-interrupt command
clears the bit of the most urgent line in service, and IRQ0 is that line. -/
def outb (m : Machine) (port : BitVec 16) (byte : BitVec 8) : Machine :=
  if port = pic1Command ∧ byte = picEoi then { m with inService := false } else m

end Machine

def idtPicSendEoi (m : Machine) (irq : BitVec 8) : Machine :=
  let m := if irq ≥ 8#8 then m.outb pic2Command picEoi else m
  m.outb pic1Command picEoi

/-- How control leaves a function of the handler: by a return, or by the jump
into a process with these registers. -/
inductive Leave where
  | ret (m : Machine)
  | jump (m : Machine) (cpu : Cpu)

def Leave.machine : Leave → Machine
  | .ret m => m
  | .jump m _ => m

def schedulerTick (m : Machine) (cpu : Cpu) : Leave :=
  let m := { m with schedTicks := m.schedTicks + 1#64 }
  if m.schedTicks % schedTickFreq = 0#64 then
    match contextSwitch m.kernel.sched cpu with
    | .ret s => .ret { m with kernel := { m.kernel with sched := s } }
    | .jump s cpu => .jump { m with kernel := { m.kernel with sched := s } } cpu
  else .ret m

def pitHandler (m : Machine) (cpu : Cpu) : Leave :=
  let m := { m with pitTicks := m.pitTicks + 1#64 }
  match schedulerTick m cpu with
  | .ret m => .ret (idtPicSendEoi m 0#8)
  | .jump m cpu => .jump m cpu

/-- What can happen: the scheduler is called, somebody else writes the record of a
process, its state with it, and the timer fires while the CPU holds some registers. -/
inductive Event where
  | call (c : SchedCall)
  | record (p : Ptr) (proc : Procedure)
  | tick (cpu : Cpu)

namespace Machine

/-- A timer interrupt that is delivered: the bit is set on entry. -/
def interrupt (m : Machine) (cpu : Cpu) : Leave :=
  pitHandler { m with inService := true } cpu

/-- While IRQ0 is in service the controller holds further ticks back. -/
def exec (m : Machine) : Event → Machine
  | .call c => { m with kernel := m.kernel.exec c }
  | .record p proc =>
      { m with kernel := { m.kernel with sched := m.kernel.sched.update p (fun _ => proc) } }
  | .tick cpu => if m.inService then m else (m.interrupt cpu).machine

/-- Nothing is asked of the calls: processes may be registered again, and `create_proc`
may hand out any record. -/
def Step (m : Machine) (e : Event) (m' : Machine) : Prop := m' = m.exec e

/-- The next tick is one on which the scheduler switches. -/
def Due (m : Machine) : Prop := (m.schedTicks + 1#64) % schedTickFreq = 0#64

instance (m : Machine) : Decidable m.Due :=
  inferInstanceAs (Decidable (_ = _))

/-- The machine with `s` for the scheduler's state. -/
def withSched (m : Machine) (s : Sched) : Machine :=
  { m with kernel := { m.kernel with sched := s } }

theorem schedulerTick_idle {m : Machine} (h : ¬ m.Due) (cpu : Cpu) :
    schedulerTick m cpu = .ret { m with schedTicks := m.schedTicks + 1#64 } := by
  unfold schedulerTick
  exact if_neg h

/-- A due tick leaves the way `context_switch` does. -/
theorem schedulerTick_due {m : Machine} (h : m.Due) (cpu : Cpu) :
    schedulerTick m cpu =
      let m' := { m with schedTicks := m.schedTicks + 1#64 }
      match contextSwitch m.kernel.sched cpu with
      | .ret s => .ret (m'.withSched s)
      | .jump s cpu => .jump (m'.withSched s) cpu := by
  unfold schedulerTick
  exact if_pos h

/-- Everything a delivered tick can do. It returns with the bit cleared when
the tick is not due or there is nobody to switch to; otherwise it leaves by
the jump, the bit still set. -/
theorem interrupt_cases (m : Machine) (cpu : Cpu) :
    ((¬ m.Due ∨ ∀ p, ¬ m.kernel.sched.Dispatches p) ∧
      (m.interrupt cpu).machine.inService = false ∧
      (m.interrupt cpu).machine.kernel = m.kernel) ∨
    (m.Due ∧ (∃ p, m.kernel.sched.Dispatches p) ∧
      (m.interrupt cpu).machine.inService = true ∧
      (m.interrupt cpu).machine.kernel = m.kernel.exec (.contextSwitch cpu)) := by
  let entered : Machine :=
    { m with inService := true, pitTicks := m.pitTicks + 1#64 }
  have hkernel : entered.kernel = m.kernel := rfl
  have hhandler : m.interrupt cpu =
      match schedulerTick entered cpu with
      | .ret m => .ret (idtPicSendEoi m 0#8)
      | .jump m cpu => .jump m cpu := rfl
  by_cases hdue : m.Due
  · have htick := schedulerTick_due (m := entered) hdue cpu
    rcases contextSwitch_cases m.kernel.sched cpu with ⟨hret, hnone⟩ | ⟨p, hp, hjump⟩
    · rw [hkernel, hret] at htick
      rw [hhandler, htick]
      exact Or.inl ⟨Or.inr hnone, rfl, rfl⟩
    · rw [hkernel, hjump] at htick
      rw [hhandler, htick, Kernel.exec, Sched.after, hjump]
      exact Or.inr ⟨hdue, ⟨p, hp⟩, rfl, rfl⟩
  · rw [hhandler, schedulerTick_idle (m := entered) hdue]
    exact Or.inl ⟨Or.inl hdue, rfl, rfl⟩

end Machine

/-- With every process registered at most once, there is somebody to switch to exactly
when another process than the current one is eligible. -/
theorem Sched.exists_dispatches_iff_other {s : Sched} (hnull : NULL ∉ s.procList)
    (hnodup : s.procList.Nodup) :
    (∃ p, s.Dispatches p) ↔
      ∃ p ∈ s.procList, p ≠ s.currentProc ∧ eligible (s.procs p) = true := by
  constructor
  · rintro ⟨p, hp⟩
    exact ⟨p, hp.mem.1, fun heq => hp.2.2 heq.symm, hp.mem.2⟩
  · rintro ⟨p, hp, hother, hready⟩
    have hfound : findNextProc s ≠ NULL := by
      intro h
      have hnone := (findNextProc_eq_null_iff hnull).mp h p hp
      rw [ready, hready] at hnone
      exact Bool.noConfusion hnone
    refine ⟨findNextProc s, rfl, hfound, fun heq => ?_⟩
    have hcur : s.currentProc ∈ s.procList := heq ▸ (findNextProc_mem rfl hfound).1
    obtain ⟨xs, ys, hlist⟩ := List.append_of_mem hcur
    -- the search comes to the current process last
    obtain ⟨hbefore, hbehind⟩ : s.currentProc ∉ xs ∧ s.currentProc ∉ ys := by
      rw [hlist, List.nodup_middle, List.nodup_cons, List.mem_append] at hnodup
      exact ⟨fun h => hnodup.1 (Or.inl h), fun h => hnodup.1 (Or.inr h)⟩
    have hsplit := findNextProc_split hlist hbefore rfl (heq ▸ hfound)
    have hp' : p ∈ ys ++ xs := by
      rw [hlist, List.mem_append, List.mem_cons] at hp
      rw [List.mem_append]
      rcases hp with hp | rfl | hp
      · exact Or.inr hp
      · exact absurd rfl hother
      · exact Or.inl hp
    obtain ⟨q, hq⟩ : ∃ q, (ys ++ xs).find? s.ready = some q := by
      rw [← Option.isSome_iff_exists, List.find?_isSome]
      exact ⟨p, hp', hready⟩
    rw [← List.append_assoc, List.find?_append, hq] at hsplit
    have hmem := List.mem_of_find?_eq_some hq
    have hqcur : q = s.currentProc := hsplit.symm.trans heq.symm
    rw [hqcur, List.mem_append] at hmem
    exact hmem.elim hbehind hbefore

namespace Machine

/-- No tick that is delivered now has somebody to switch to. -/
def Acknowledges (m : Machine) : Event → Prop
  | .tick _ => m.inService = false → ¬ (m.Due ∧ ∃ p, m.kernel.sched.Dispatches p)
  | _ => True

theorem interrupt_inService (m : Machine) (cpu : Cpu) :
    (m.interrupt cpu).machine.inService = false ↔
      ¬ (m.Due ∧ ∃ p, m.kernel.sched.Dispatches p) := by
  rcases m.interrupt_cases cpu with ⟨hquiet, hclear, _⟩ | ⟨hdue, hsome, hset, _⟩
  · simp only [hclear, true_iff]
    rintro ⟨hdue, p, hp⟩
    rcases hquiet with hnot | hnone
    · exact hnot hdue
    · exact hnone p hp
  · simp [hset, hdue, hsome]

/-- One step: the bit stays clear exactly if no tick of the step switches, and once
set it stays so. -/
theorem exec_inService (m : Machine) (e : Event) :
    (m.exec e).inService = false ↔ m.inService = false ∧ m.Acknowledges e := by
  cases e with
  | call c => exact (and_iff_left trivial).symm
  | record p proc => exact (and_iff_left trivial).symm
  | tick cpu =>
      rw [exec, Acknowledges]
      cases hservice : m.inService with
      | true => simp [hservice]
      | false => simpa using m.interrupt_inService cpu

/-- The bit is clear at the end of a run exactly if every tick of it found nobody to
switch to. -/
theorem run_inService {m u : Machine} {events : List Event} (hrun : Run Step m events u)
    (hm : m.inService = false) :
    u.inService = false ↔
      Run (fun v e w => v.Acknowledges e ∧ Step v e w) m events u := by
  constructor
  · induction hrun with
    | nil m => exact fun _ => Run.nil m
    | cons hstep hrest ih =>
        rename_i v w u e events
        intro hu
        have hw : w.inService = false := by
          by_contra hset
          refine hset ?_
          clear ih hstep hset
          induction hrest with
          | nil _ => exact hu
          | cons hstep _ ih =>
              obtain rfl := hstep
              exact ((exec_inService _ _).mp (ih hu)).1
        have hack := (exec_inService v e).mp (hstep ▸ hw)
        exact Run.cons ⟨hack.2, hstep⟩ (ih hw hu)
  · intro hgood
    refine hgood.invariant (fun v => v.inService = false) ?_ hm
    rintro v e w hv ⟨hack, rfl⟩
    exact (exec_inService v e).mpr ⟨hv, hack⟩

end Machine

namespace Machine

/-- Anything may happen at any time. -/
theorem run_events (m : Machine) (events : List Event) :
    Run Step m events (events.foldl exec m) := by
  induction events generalizing m with
  | nil => exact Run.nil m
  | cons e events ih => exact Run.cons rfl (ih _)

end Machine

namespace Sample

def machine : Machine := ⟨Kernel.boot frames.pmm blank, 0#64, 0#64, false⟩

def calls : List Event :=
  [.call (.createProc args0), .call (.createProc args1),
    .call (.registerProc 0x104000#64), .call (.registerProc 0x105000#64)]

def ticks : List Event := (List.replicate 9 bootCpu).map .tick

/-- The second process is asleep when the tenth tick comes. -/
def nap : List Event :=
  calls ++ ticks ++ [.record 0x105000#64 { procState := .procSleeping }]

def napping : Machine := nap.foldl Machine.exec machine

theorem napping_reached : Run Machine.Step machine nap napping := Machine.run_events _ _

end Sample

end Asnu
