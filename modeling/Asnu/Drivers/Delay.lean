import Asnu.Drivers.Pit
import Asnu.Lib.Total

/-!
The delays of the PIT driver. The timer may interrupt a delay before each of its
accesses to the volatile variables, any number of times, and the interrupts come
as far apart as the reload value of channel 0 says.
-/

namespace Asnu

open Lib

def pitFreq : Nat := 1193182

def pitCmdPort : BitVec 16 := 0x43#16

def pitChannel0Port : BitVec 16 := 0x40#16

/-- Channel 0 of the timer. -/
structure PitChannel where
  /-- The low byte of a reload value the high byte of which is still to come. -/
  low : Option (BitVec 8)
  reload : BitVec 16

namespace PitChannel

/-- A command lets the next two bytes for the channel be a reload value. -/
def outb (ch : PitChannel) (port : BitVec 16) (byte : BitVec 8) : PitChannel :=
  if port = pitCmdPort then { ch with low := none }
  else if port = pitChannel0Port then
    match ch.low with
    | none => { ch with low := some byte }
    | some low => { low := none, reload := byte ++ low }
  else ch

/-- How many input clocks lie between two interrupts. -/
def period (ch : PitChannel) : Nat := if ch.reload = 0#16 then 65536 else ch.reload.toNat

end PitChannel

structure PitDriver where
  machine : Machine
  channel : PitChannel
  pitTickFreq : BitVec 64

def pitInit (d : PitDriver) (freq : BitVec 32) : PitDriver :=
  let divisor := BitVec.ofNat 32 pitFreq / freq
  let ch := d.channel.outb pitCmdPort 0x36#8
  let ch := ch.outb pitChannel0Port ((divisor &&& 0xFF#32).setWidth 8)
  let ch := ch.outb pitChannel0Port (((divisor >>> 8) &&& 0xFF#32).setWidth 8)
  { d with channel := ch, pitTickFreq := freq.setWidth 64 }

/-- A delay under way. -/
structure Waiting where
  driver : PitDriver
  /-- The interrupts that come before each of the accesses to come, as the registers that
  the CPU holds then. -/
  arrivals : Nat → List Cpu
  /-- How many there have been since the call. -/
  interrupts : Nat := 0

namespace Waiting

/-- The interrupts before the next access. -/
def interrupted (s : Waiting) : Waiting :=
  { driver := { s.driver with
      machine := (s.arrivals 0).foldl (fun m cpu => (m.interrupt cpu).machine) s.driver.machine }
    arrivals := fun k => s.arrivals (k + 1)
    interrupts := s.interrupts + (s.arrivals 0).length }

def ticks (s : Waiting) : BitVec 64 := s.driver.machine.pitTicks

end Waiting

def pitGetTicks : Code Waiting (BitVec 64) :=
  Code.access (fun s => (s.interrupted.ticks, s.interrupted))

def waitLoop (start ticks : BitVec 64) : Nat → Code Waiting Unit
  | 0 => Code.giveUp
  | turns + 1 => do
      let now ← pitGetTicks
      if now - start < ticks then waitLoop start ticks turns
      else pure ()

def pitWaitTicks (turns : Nat) (ticks : BitVec 64) : Code Waiting (BitVec 64) := do
  let start ← pitGetTicks
  waitLoop start ticks turns
  pitGetTicks

def pitWaitMs (turns : Nat) (ms : BitVec 64) : Code Waiting Unit := do
  let freq ← Code.access (fun s => (s.interrupted.driver.pitTickFreq, s.interrupted))
  let _ ← pitWaitTicks turns (ms * freq / 1000#64)
  pure ()

/-- Whenever the delay ends, the interrupts up to then have taken `ms` thousandths of a second
at least. -/
def LongEnough (d : PitDriver) (ms : BitVec 64) : Prop :=
  ∀ arrivals turns, Code.Ensures (pitWaitMs turns ms) { driver := d, arrivals := arrivals }
    (fun _ s => ms.toNat * pitFreq ≤ s.interrupts * d.channel.period * 1000)

/-! ### Counting the interrupts -/

theorem idtPicSendEoi_pitTicks (m : Machine) (irq : BitVec 8) :
    (idtPicSendEoi m irq).pitTicks = m.pitTicks := by
  have houtb : ∀ (m : Machine) (port : BitVec 16) (byte : BitVec 8),
      (m.outb port byte).pitTicks = m.pitTicks := by
    intro m port byte
    unfold Machine.outb
    split
    · rfl
    · rfl
  unfold idtPicSendEoi
  split
  · rw [houtb, houtb]
  · rw [houtb]

theorem schedulerTick_pitTicks (m : Machine) (cpu : Cpu) :
    (schedulerTick m cpu).machine.pitTicks = m.pitTicks := by
  by_cases hdue : m.Due
  · rw [Machine.schedulerTick_due hdue]
    cases contextSwitch m.kernel.sched cpu with
    | ret s => rfl
    | jump s cpu => rfl
  · rw [Machine.schedulerTick_idle hdue]
    rfl

theorem interrupt_pitTicks (m : Machine) (cpu : Cpu) :
    (m.interrupt cpu).machine.pitTicks = m.pitTicks + 1#64 := by
  have htick := schedulerTick_pitTicks
    { m with inService := true, pitTicks := m.pitTicks + 1#64 } cpu
  rw [Machine.interrupt, pitHandler]
  dsimp only
  cases hleave : schedulerTick { m with inService := true, pitTicks := m.pitTicks + 1#64 } cpu with
  | ret m' =>
      rw [hleave] at htick
      exact (idtPicSendEoi_pitTicks m' 0#8).trans htick
  | jump m' cpu' =>
      rw [hleave] at htick
      exact htick

theorem interrupts_pitTicks (m : Machine) (cpus : List Cpu) :
    (cpus.foldl (fun m cpu => (m.interrupt cpu).machine) m).pitTicks =
      m.pitTicks + BitVec.ofNat 64 cpus.length := by
  induction cpus generalizing m with
  | nil => exact (BitVec.add_zero _).symm
  | cons cpu cpus ih =>
      rw [List.foldl_cons, ih, interrupt_pitTicks, List.length_cons, BitVec.add_assoc,
        Nat.add_comm, BitVec.ofNat_add]

/-- The tick counter tells, modulo `2 ^ 64`, how many interrupts there have been. -/
def Waiting.Counts (base : BitVec 64) (s : Waiting) : Prop :=
  s.ticks = base + BitVec.ofNat 64 s.interrupts

theorem Waiting.Counts.interrupted {base : BitVec 64} {s : Waiting} (h : s.Counts base) :
    s.interrupted.Counts base := by
  have hcount := interrupts_pitTicks s.driver.machine (s.arrivals 0)
  have hbefore : s.driver.machine.pitTicks = base + BitVec.ofNat 64 s.interrupts := h
  rw [hbefore, BitVec.add_assoc, ← BitVec.ofNat_add] at hcount
  exact hcount

theorem Waiting.interrupts_le (s : Waiting) : s.interrupts ≤ s.interrupted.interrupts :=
  Nat.le_add_right _ _

theorem pitGetTicks_ensures {base : BitVec 64} {s : Waiting} (h : s.Counts base) :
    Code.Ensures pitGetTicks s (fun now t =>
      now = base + BitVec.ofNat 64 t.interrupts ∧ t.Counts base ∧ s.interrupts ≤ t.interrupts) :=
  (Code.returns_access.mpr ⟨h.interrupted, h.interrupted, s.interrupts_le⟩ :
    Code.Returns pitGetTicks s _).ensures

/-- The loop ends when enough interrupts have come. -/
theorem waitLoop_ensures {base ticks : BitVec 64} {begun : Nat} (turns : Nat) {s : Waiting}
    (h : s.Counts base) (hbegun : begun ≤ s.interrupts) :
    Code.Ensures (waitLoop (base + BitVec.ofNat 64 begun) ticks turns) s (fun _ t =>
      t.Counts base ∧ ticks.toNat ≤ t.interrupts) := by
  induction turns generalizing s with
  | zero => exact fun _ _ heq => nomatch heq
  | succ turns ih =>
      refine (pitGetTicks_ensures h).bind ?_
      rintro _ t ⟨rfl, ht, hlater⟩
      have hle : begun ≤ t.interrupts := Nat.le_trans hbegun hlater
      split
      · exact ih ht hle
      · next henough =>
          refine (Code.returns_pure.mpr ⟨ht, ?_⟩ : Code.Returns _ t _).ensures
          have hpassed : base + BitVec.ofNat 64 t.interrupts - (base + BitVec.ofNat 64 begun) =
              BitVec.ofNat 64 (t.interrupts - begun) := by
            obtain ⟨n, hn⟩ := Nat.exists_eq_add_of_le hle
            rw [hn, Nat.add_sub_cancel_left, BitVec.ofNat_add, ← BitVec.add_assoc, offset_sub]
          rw [hpassed, BitVec.lt_def, BitVec.toNat_ofNat] at henough
          have hmod := Nat.mod_le (t.interrupts - begun) (2 ^ 64)
          omega

/-- The ticks that a delay waits for. -/
def delayTicks (d : PitDriver) (ms : BitVec 64) : BitVec 64 := ms * d.pitTickFreq / 1000#64

theorem pitWaitMs_ensures (d : PitDriver) (arrivals : Nat → List Cpu) (turns : Nat)
    (ms : BitVec 64) :
    Code.Ensures (pitWaitMs turns ms) { driver := d, arrivals := arrivals }
      (fun _ s => (delayTicks d ms).toNat ≤ s.interrupts) := by
  have hstart : Waiting.Counts d.machine.pitTicks { driver := d, arrivals := arrivals } :=
    (BitVec.add_zero _).symm
  have hfreq : Code.Ensures
      (Code.access (fun s : Waiting => (s.interrupted.driver.pitTickFreq, s.interrupted)))
      { driver := d, arrivals := arrivals }
      (fun freq t => freq = d.pitTickFreq ∧ t.Counts d.machine.pitTicks) :=
    (Code.returns_access.mpr ⟨rfl, hstart.interrupted⟩ : Code.Returns _ _ _).ensures
  refine hfreq.bind ?_
  rintro _ s ⟨rfl, hs⟩
  have hwait : Code.Ensures (pitWaitTicks turns (delayTicks d ms)) s
      (fun _ t => (delayTicks d ms).toNat ≤ t.interrupts) := by
    refine (pitGetTicks_ensures hs).bind ?_
    rintro _ t ⟨rfl, ht, _⟩
    refine (waitLoop_ensures turns ht (Nat.le_refl _)).bind ?_
    rintro _ u ⟨hu, hpassed⟩
    refine (pitGetTicks_ensures hu).mono ?_
    rintro _ v ⟨_, _, hlater⟩
    exact Nat.le_trans hpassed hlater
  exact hwait.bind (fun _ t ht => (Code.returns_pure.mpr ht : Code.Returns _ t _).ensures)

/-- All interrupts at once, between the first two reads of the tick counter. -/
def atOnce (cpu : Cpu) (n : Nat) : Nat → List Cpu :=
  fun k => if k = 2 then List.replicate n cpu else []

/-- No more interrupts need to come than ticks are waited for. -/
theorem pitWaitMs_shortest (d : PitDriver) (cpu : Cpu) (ms : BitVec 64) :
    Code.Returns (pitWaitMs 1 ms)
      { driver := d, arrivals := atOnce cpu (delayTicks d ms).toNat }
      (fun _ s => s.interrupts = (delayTicks d ms).toNat) := by
  have hlength : (atOnce cpu (delayTicks d ms).toNat 2).length = (delayTicks d ms).toNat := by
    rw [atOnce, if_pos rfl, List.length_replicate]
  have hcount := interrupts_pitTicks d.machine (atOnce cpu (delayTicks d ms).toNat 2)
  rw [hlength, BitVec.ofNat_toNat, BitVec.setWidth_eq] at hcount
  simp only [pitWaitMs, pitWaitTicks, waitLoop, pitGetTicks, Code.returns_bind,
    Code.returns_access]
  refine Code.Returns.ite (fun hmore => ?_) (fun _ => ?_)
  · have hpassed : (List.foldl (fun m cpu => (m.interrupt cpu).machine) d.machine
        (atOnce cpu (delayTicks d ms).toNat 2)).pitTicks - d.machine.pitTicks < delayTicks d ms :=
      hmore
    rw [hcount, offset_sub] at hpassed
    exact absurd hpassed (Nat.lt_irrefl _)
  · simp only [Code.returns_pure]
    change 0 + 0 + 0 + (atOnce cpu (delayTicks d ms).toNat 2).length + 0 = _
    rw [hlength]
    omega

/-- The delay is as long as the ticks it waits for. -/
theorem longEnough_iff_ticks (d : PitDriver) (cpu : Cpu) (ms : BitVec 64) :
    LongEnough d ms ↔
      ms.toNat * pitFreq ≤ (delayTicks d ms).toNat * d.channel.period * 1000 := by
  constructor
  · intro h
    obtain ⟨_, s, heq, hcount⟩ := pitWaitMs_shortest d cpu ms
    have hlong : ms.toNat * pitFreq ≤ s.interrupts * d.channel.period * 1000 := h _ _ _ s heq
    rwa [hcount] at hlong
  · intro hticks arrivals turns
    refine (pitWaitMs_ensures d arrivals turns ms).mono (fun _ s hs => Nat.le_trans hticks ?_)
    exact Nat.mul_le_mul_right _ (Nat.mul_le_mul_right _ hs)

/-! ### The divisor -/

/-- A low byte and the byte above it. -/
theorem append_bytes (v : BitVec 32) :
    (((v >>> 8) &&& 0xFF#32).setWidth 8 ++ (v &&& 0xFF#32).setWidth 8 : BitVec 16) =
      v.setWidth 16 := by
  have hbyte : ∀ x : BitVec 32, (x &&& 0xFF#32).setWidth 8 = x.setWidth 8 := by
    intro x
    have hones : (0xFF#32).setWidth 8 = BitVec.allOnes 8 := by decide
    rw [BitVec.setWidth_and, hones, BitVec.and_allOnes]
  rw [hbyte, hbyte]
  ext i hi
  rw [BitVec.getElem_append]
  split
  · simp
  · simp
    congr 1
    omega

/-- The input clocks from one interrupt to the next. -/
def clocks (freq : Nat) : Nat :=
  if pitFreq / freq % 65536 = 0 then 65536 else pitFreq / freq % 65536

theorem pitInit_period (d : PitDriver) (freq : BitVec 32) :
    (pitInit d freq).channel.period = clocks freq.toNat := by
  have hreload : (pitInit d freq).channel.reload =
      (BitVec.ofNat 32 pitFreq / freq).setWidth 16 := append_bytes _
  have hfreq : (BitVec.ofNat 32 pitFreq).toNat = pitFreq := by decide
  have hnat : (pitInit d freq).channel.reload.toNat = pitFreq / freq.toNat % 65536 := by
    rw [hreload, BitVec.toNat_setWidth, BitVec.toNat_udiv, hfreq]
  have hzero : (pitInit d freq).channel.reload = 0#16 ↔ pitFreq / freq.toNat % 65536 = 0 := by
    rw [← BitVec.toNat_inj, hnat, BitVec.toNat_zero]
  rw [PitChannel.period, clocks, hnat]
  simp only [hzero]

/-- The product in `pit_wait_ms` is taken modulo `2 ^ 64`. -/
theorem delayTicks_toNat (d : PitDriver) (freq : BitVec 32) (ms : BitVec 64) :
    (delayTicks (pitInit d freq) ms).toNat = ms.toNat * freq.toNat % 2 ^ 64 / 1000 := by
  have hwidth : (freq.setWidth 64).toNat = freq.toNat := by
    rw [BitVec.toNat_setWidth]
    exact Nat.mod_eq_of_lt (Nat.lt_trans freq.isLt (by decide))
  change (ms * freq.setWidth 64 / 1000#64).toNat = _
  rw [BitVec.toNat_udiv, BitVec.toNat_mul, hwidth]
  rfl

/-- The divisor is cut off to 16 bits. -/
theorem clocks_le {freq : Nat} (hfreq : 0 < freq) (hle : freq ≤ pitFreq) :
    clocks freq ≤ pitFreq / freq ∧ clocks freq ≤ 65536 := by
  have hpos : 0 < pitFreq / freq := Nat.div_pos hle hfreq
  have hmod := Nat.mod_le (pitFreq / freq) 65536
  unfold clocks
  split
  · omega
  · omega

/-- Whole divisors of the input frequency give ticks that are as long as they should be. -/
theorem clocks_mul_eq_iff {freq : Nat} (hfreq : 0 < freq) (hle : freq ≤ pitFreq) :
    freq * clocks freq = pitFreq ↔ 19 ≤ freq ∧ freq ∣ pitFreq := by
  obtain ⟨hquot, hbytes⟩ := clocks_le hfreq hle
  constructor
  · intro heq
    refine ⟨?_, Dvd.intro _ heq⟩
    by_contra hsmall
    have hprod : freq * clocks freq ≤ 18 * 65536 := Nat.mul_le_mul (by omega) hbytes
    rw [heq] at hprod
    exact absurd hprod (by decide)
  · rintro ⟨hlarge, hdvd⟩
    have hsmall : pitFreq / freq < 65536 := by
      refine (Nat.div_lt_iff_lt_mul hfreq).mpr ?_
      unfold pitFreq
      omega
    have hpos : 0 < pitFreq / freq := Nat.div_pos hle hfreq
    have hclocks : clocks freq = pitFreq / freq := by
      rw [clocks, Nat.mod_eq_of_lt hsmall, if_neg (by omega)]
    rw [hclocks, Nat.mul_div_cancel' hdvd]

/-! ### Which delays are long enough -/

/-- A frequency that is a divisor of the input frequency waits whole ticks only; above the
input frequency the ticks are far too long, as long as the product keeps its upper bits. -/
def LosesNothing (freq ms : Nat) : Prop :=
  ms = 0 ∨
    (19 ≤ freq ∧ freq ∣ pitFreq ∧ 1000 ∣ ms * freq ∧ ms * freq < 2 ^ 64) ∨
    (pitFreq < freq ∧ ms * freq < 2 ^ 64)

instance (freq ms : Nat) : Decidable (LosesNothing freq ms) :=
  inferInstanceAs (Decidable (_ ∨ _))

/-- Up to the input frequency every step of the computation loses something or nothing. -/
theorem exact_of_long_enough {freq ms : Nat} (hfreq : 0 < freq) (hle : freq ≤ pitFreq)
    (hms : 0 < ms)
    (h : ms * pitFreq ≤ ms * freq % 2 ^ 64 / 1000 * clocks freq * 1000) :
    freq * clocks freq = pitFreq ∧ ms * freq % 2 ^ 64 / 1000 * 1000 = ms * freq := by
  have hticks : ms * freq % 2 ^ 64 / 1000 * 1000 ≤ ms * freq :=
    Nat.le_trans (Nat.div_mul_le_self _ _) (Nat.mod_le _ _)
  have hclocks : freq * clocks freq ≤ pitFreq :=
    Nat.le_trans (Nat.mul_le_mul_left freq (clocks_le hfreq hle).1) (Nat.mul_div_le _ _)
  have hpos : 0 < clocks freq := by
    unfold clocks
    split
    · decide
    · omega
  have hchain : ms * pitFreq ≤ ms * freq % 2 ^ 64 / 1000 * 1000 * clocks freq := by
    calc ms * pitFreq ≤ ms * freq % 2 ^ 64 / 1000 * clocks freq * 1000 := h
      _ = ms * freq % 2 ^ 64 / 1000 * 1000 * clocks freq := Nat.mul_right_comm _ _ _
  have hproduct : ms * pitFreq ≤ ms * (freq * clocks freq) := by
    calc ms * pitFreq ≤ ms * freq % 2 ^ 64 / 1000 * 1000 * clocks freq := hchain
      _ ≤ ms * freq * clocks freq := Nat.mul_le_mul_right _ hticks
      _ = ms * (freq * clocks freq) := Nat.mul_assoc _ _ _
  have hexact : freq * clocks freq = pitFreq :=
    Nat.le_antisymm hclocks (Nat.le_of_mul_le_mul_left hproduct hms)
  refine ⟨hexact, Nat.le_antisymm hticks ?_⟩
  rw [← hexact, ← Nat.mul_assoc] at hchain
  exact Nat.le_of_mul_le_mul_right hchain hpos

/-- Above the input frequency a tick is counted for every 65536 input clocks. -/
theorem long_enough_above {freq ms : Nat} (hfreq : pitFreq < freq) (hms : 0 < ms)
    (hsmall : ms * freq < 2 ^ 64) :
    ms * pitFreq ≤ ms * freq % 2 ^ 64 / 1000 * 1000 * 65536 := by
  rw [Nat.mod_eq_of_lt hsmall]
  have hmore : ms * (pitFreq + 1) ≤ ms * freq := Nat.mul_le_mul_left ms hfreq
  have hleast : pitFreq + 1 ≤ ms * (pitFreq + 1) := Nat.le_mul_of_pos_left _ hms
  have hmany : 1193182 ≤ ms * freq :=
    Nat.le_trans (show 1193182 ≤ pitFreq + 1 by decide) (Nat.le_trans hleast hmore)
  rw [Nat.mul_add] at hmore
  omega

theorem long_enough_of_losesNothing {freq ms : Nat} (hfreq : 0 < freq)
    (h : LosesNothing freq ms) :
    ms * pitFreq ≤ ms * freq % 2 ^ 64 / 1000 * clocks freq * 1000 := by
  rcases Nat.eq_zero_or_pos ms with rfl | hms
  · rw [Nat.zero_mul]
    exact Nat.zero_le _
  · rcases h with hzero | ⟨hlarge, hdvd, hwhole, hsmall⟩ | ⟨habove, hsmall⟩
    · omega
    · have hle : freq ≤ pitFreq := Nat.le_of_dvd (by decide) hdvd
      have hexact := (clocks_mul_eq_iff hfreq hle).mpr ⟨hlarge, hdvd⟩
      rw [Nat.mod_eq_of_lt hsmall, Nat.mul_right_comm, Nat.div_mul_cancel hwhole,
        Nat.mul_assoc, hexact]
    · have hclocks : clocks freq = 65536 := by
        rw [clocks, Nat.div_eq_of_lt habove]
        rfl
      rw [hclocks, Nat.mul_right_comm]
      exact long_enough_above habove hms hsmall

theorem losesNothing_of_long_enough {freq ms : Nat} (hfreq : 0 < freq)
    (hbound : freq ≤ pitFreq ∨ ms * freq < 2 ^ 64)
    (h : ms * pitFreq ≤ ms * freq % 2 ^ 64 / 1000 * clocks freq * 1000) :
    LosesNothing freq ms := by
  rcases Nat.eq_zero_or_pos ms with hzero | hms
  · exact Or.inl hzero
  · rcases Nat.lt_or_ge pitFreq freq with habove | hle
    · exact Or.inr (Or.inr ⟨habove, hbound.resolve_left (Nat.not_le_of_lt habove)⟩)
    · obtain ⟨hexact, hticks⟩ := exact_of_long_enough hfreq hle hms h
      obtain ⟨hlarge, hdvd⟩ := (clocks_mul_eq_iff hfreq hle).mp hexact
      refine Or.inr (Or.inl ⟨hlarge, hdvd, Dvd.intro_left _ hticks, ?_⟩)
      have hmod := Nat.div_mul_le_self (ms * freq % 2 ^ 64) 1000
      have hlt := Nat.mod_lt (ms * freq) (Nat.two_pow_pos 64)
      omega

/-- After `pit_init` a delay is long enough, whenever its interrupts come, if nothing is lost
in its ticks. Up to the input frequency, and above it while the product does not wrap, it is
so in no other case. -/
theorem delay_long_enough_iff (d : PitDriver) (freq : BitVec 32) (ms : BitVec 64)
    (hfreq : 1 ≤ freq.toNat) :
    (LosesNothing freq.toNat ms.toNat → LongEnough (pitInit d freq) ms) ∧
      (freq.toNat ≤ pitFreq ∨ ms.toNat * freq.toNat < 2 ^ 64 →
        (LongEnough (pitInit d freq) ms ↔ LosesNothing freq.toNat ms.toNat)) := by
  rw [longEnough_iff_ticks _ Sample.bootCpu, pitInit_period, delayTicks_toNat]
  refine ⟨long_enough_of_losesNothing hfreq, fun hbound => ?_⟩
  exact ⟨losesNothing_of_long_enough hfreq hbound, long_enough_of_losesNothing hfreq⟩

namespace Sample

/-- A timer of which nothing is known. -/
def timer : PitDriver where
  machine := machine
  channel := { low := none, reload := 0#16 }
  pitTickFreq := 0#64

end Sample

/-- 41 is a divisor of the input frequency, and 41 ticks are one second. -/
theorem delay_long_enough_second : LongEnough (pitInit Sample.timer 41#32) 1000#64 :=
  ((delay_long_enough_iff Sample.timer 41#32 1000#64 (by decide)).2 (by decide)).mpr
    (by decide)

/-- At the frequency that the kernel asks for, ten milliseconds are one tick of 11931 clocks,
which is not quite as long. -/
theorem ten_milliseconds_short : ¬ LongEnough (pitInit Sample.timer 100#32) 10#64 := by
  rw [longEnough_iff_ticks _ Sample.bootCpu, pitInit_period, delayTicks_toNat]
  decide

end Asnu
