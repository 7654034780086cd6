import Asnu.Idt.Pic
import Asnu.Lib.Run

/-!
The interrupt table, `idt_init`, and what becomes of interrupts afterwards: in any run of
requests, answers, ends of service and calls that change masks or gates, an interrupt that the
CPU takes is that of a line whose mask was cleared last, and it finds the gate that was set
last for this line.
-/

namespace Asnu.Irq

open Lib

/-! ### The table -/

/-- `idt_entry_t`. -/
structure IdtEntry where
  isrLow : BitVec 16
  kernelCs : BitVec 16
  ist : BitVec 8
  attributes : BitVec 8
  isrMid : BitVec 16
  isrHigh : BitVec 32
  reserved : BitVec 32

abbrev Idt := BitVec 8 → IdtEntry

/-- `GDT_OFFSET_KERNEL_CODE`. -/
def gdtOffsetKernelCode : BitVec 16 := 0x08#16

def idtSetDesc (idt : Idt) (vector : BitVec 8) (isr : BitVec 64) (flags : BitVec 8) : Idt :=
  Function.update idt vector
    { isrLow := (isr &&& 0xffff#64).setWidth 16
      kernelCs := gdtOffsetKernelCode
      ist := 0#8
      attributes := flags
      isrMid := ((isr >>> 16) &&& 0xffff#64).setWidth 16
      isrHigh := ((isr >>> 32) &&& 0xffffffff#64).setWidth 32
      reserved := 0#32 }

/-- What the CPU finds in an entry: the code segment, the address and the attributes. -/
structure Gate where
  segment : BitVec 16
  isr : BitVec 64
  attributes : BitVec 8
  deriving DecidableEq

def IdtEntry.gate (e : IdtEntry) : Gate where
  segment := e.kernelCs
  isr := e.isrHigh ++ e.isrMid ++ e.isrLow
  attributes := e.attributes

theorem setWidth_and_ones (x : BitVec 64) {k : Nat} (hk : k ≤ 64) :
    (x &&& BitVec.ofNat 64 (2 ^ k - 1)).setWidth k = x.setWidth k := by
  apply BitVec.eq_of_getLsbD_eq
  intro i hi
  have hone : (BitVec.ofNat 64 (2 ^ k - 1)).getLsbD i = true := by
    rw [BitVec.getLsbD_ofNat, Nat.testBit_two_pow_sub_one]
    simp only [hi, decide_true, Bool.and_true, decide_eq_true_eq]
    omega
  rw [BitVec.getLsbD_setWidth, BitVec.getLsbD_setWidth, BitVec.getLsbD_and, hone, Bool.and_true]

/-- The three parts of an address are the address again. -/
theorem address_parts (isr : BitVec 64) :
    ((isr >>> 32) &&& 0xffffffff#64).setWidth 32 ++ ((isr >>> 16) &&& 0xffff#64).setWidth 16 ++
      (isr &&& 0xffff#64).setWidth 16 = isr := by
  have h16 : ∀ x : BitVec 64, (x &&& 0xffff#64).setWidth 16 = x.setWidth 16 :=
    fun x => setWidth_and_ones x (by decide)
  have h32 : ∀ x : BitVec 64, (x &&& 0xffffffff#64).setWidth 32 = x.setWidth 32 :=
    fun x => setWidth_and_ones x (by decide)
  rw [h32, h16, h16]
  apply BitVec.eq_of_getLsbD_eq
  intro i hi
  simp only [BitVec.getLsbD_append, BitVec.getLsbD_setWidth, BitVec.getLsbD_ushiftRight]
  by_cases hlow : i < 16
  · simp [hlow]
  · by_cases hmid : i < 32
    · have hplace : 16 + (i - 16) = i := by omega
      have hwidth : i - 16 < 16 := by omega
      simp [hlow, hplace, hwidth]
    · have hplace : 32 + (i - 16 - 16) = i := by omega
      have hwidth : ¬ i - 16 < 16 ∧ i - 16 - 16 < 32 := by omega
      simp [hlow, hplace, hwidth]

theorem gate_idtSetDesc (idt : Idt) (vector : BitVec 8) (isr : BitVec 64) (flags : BitVec 8) :
    (idtSetDesc idt vector isr flags vector).gate =
      { segment := gdtOffsetKernelCode, isr := isr, attributes := flags } := by
  rw [idtSetDesc, Function.update_self]
  exact congrArg (fun a => Gate.mk gdtOffsetKernelCode a flags) (address_parts isr)

theorem gate_idtSetDesc_ne (idt : Idt) {vector v : BitVec 8} (h : v ≠ vector) (isr : BitVec 64)
    (flags : BitVec 8) : (idtSetDesc idt vector isr flags v).gate = (idt v).gate := by
  rw [idtSetDesc, Function.update_of_ne h]

/-! ### `idt_init` -/

structure Interrupts where
  pics : Pics
  idt : Idt
  /-- `IF`. -/
  flag : Bool

/-- The addresses of the handlers. -/
structure Handlers where
  isrStubTable : Nat → BitVec 64
  pitHandler : BitVec 64
  idtKeyboardHandler : BitVec 64

/-- Present, ring 0, an interrupt gate. -/
def interruptGate : BitVec 8 := 0x8e#8

def idtInitExceptions (h : Handlers) (idt : Idt) : Idt :=
  (List.range 32).foldl (fun idt vector =>
    idtSetDesc idt (BitVec.ofNat 8 vector) (h.isrStubTable vector) interruptGate) idt

def idtInit (h : Handlers) (s : Interrupts) : Interrupts :=
  let idt := idtInitExceptions h s.idt
  let pics := idtPicRemap s.pics 0x20#32 0x28#32
  let idt := idtSetDesc idt 0x20#8 h.pitHandler interruptGate
  let idt := idtSetDesc idt 0x21#8 h.idtKeyboardHandler interruptGate
  let pics := pics.outb pic1Data 0b11111100#8
  let pics := pics.outb pic2Data 0b11111111#8
  let pics := idtIrqClearMask pics 0#8
  let pics := idtIrqClearMask pics 1#8
  { pics := pics, idt := idt, flag := true }

/-! ### Masks -/

theorem Chip.data_mask {c : Chip} (h : c.expects = .mask) (byte : BitVec 8) :
    c.data byte = { c with mask := byte } := by
  cases c
  cases h
  rfl

namespace Pics

/-- The mask of one of the lines 0 to 15. -/
def masked (p : Pics) (n : Nat) : Bool :=
  if n < 8 then p.master.mask.getLsbD n else p.slave.mask.getLsbD (n - 8)

/-- The controllers are through with their initialization by `idt_pic_remap`. There is no
device on line 2 of the first. -/
structure Programmed (p : Pics) : Prop where
  masterExpects : p.master.expects = .mask
  slaveExpects : p.slave.expects = .mask
  masterOffset : p.master.offset = 0x20#8
  slaveOffset : p.slave.offset = 0x28#8
  masterWiring : p.master.wiring = 4#8
  slaveWiring : p.slave.wiring = 2#8
  masterEoi : p.master.autoEoi = false
  slaveEoi : p.slave.autoEoi = false
  free : p.master.service.requested 2 = false

variable {p : Pics}

theorem outb_master_mask (h : p.Programmed) (byte : BitVec 8) :
    p.outb pic1Data byte = { p with master := { p.master with mask := byte } } := by
  have hdata : p.outb pic1Data byte = { p with master := p.master.data byte } := rfl
  rw [hdata, Chip.data_mask h.masterExpects]

theorem outb_slave_mask (h : p.Programmed) (byte : BitVec 8) :
    p.outb pic2Data byte = { p with slave := { p.slave with mask := byte } } := by
  have hdata : p.outb pic2Data byte = { p with slave := p.slave.data byte } := rfl
  rw [hdata, Chip.data_mask h.slaveExpects]

end Pics

theorem getLsbD_one_shift {k i : Nat} (hk : k < 32) :
    (1#32 <<< k).getLsbD i = decide (i = k) := by
  rw [BitVec.getLsbD_shiftLeft, BitVec.getLsbD_one]
  by_cases h : i = k
  · subst h
    simp [hk]
  · rcases Nat.lt_or_gt_of_ne h with hlt | hgt
    · simp [hlt, h]
    · have hsub : i - k ≠ 0 := by omega
      simp [hsub, h]

/-- The change makes the bit of a line `b` and leaves the other seven alone. -/
def Puts (b : Bool) (change : BitVec 32 → BitVec 32 → BitVec 32) : Prop :=
  ∀ (x : BitVec 8) {k i : Nat}, k < 32 → i < 8 →
    ((change (x.setWidth 32) (1#32 <<< k)).setWidth 8).getLsbD i =
      if i = k then b else x.getLsbD i

theorem puts_set : Puts true (fun value bit => value ||| bit) := by
  intro x k i hk hi
  have hwide : i < 32 := by omega
  rw [BitVec.getLsbD_setWidth, BitVec.getLsbD_or, BitVec.getLsbD_setWidth, getLsbD_one_shift hk]
  by_cases h : i = k
  · subst h
    simp [hi]
  · simp [hi, hwide, h]

theorem puts_clear : Puts false (fun value bit => value &&& ~~~bit) := by
  intro x k i hk hi
  have hwide : i < 32 := by omega
  rw [BitVec.getLsbD_setWidth, BitVec.getLsbD_and, BitVec.getLsbD_setWidth, BitVec.getLsbD_not,
    getLsbD_one_shift hk]
  by_cases h : i = k
  · simp [h]
  · simp [hi, hwide, h]

/-- What a call that changes a mask does. The source shifts by the number of the line, which is
less than 32 for these. -/
structure MaskChanged (b : Bool) (irqLine : BitVec 8) (p q : Pics) : Prop where
  programmed : q.Programmed
  masked : ∀ n < 16, q.masked n = if n = irqLine.toNat then b else p.masked n
  master : q.master.service = p.master.service
  slave : q.slave.service = p.slave.service

theorem irqChangeMask_changed {b : Bool} {change : BitVec 32 → BitVec 32 → BitVec 32}
    (hchange : Puts b change) {p : Pics} (h : p.Programmed) {irqLine : BitVec 8}
    (hline : irqLine.toNat < 40) : MaskChanged b irqLine p (irqChangeMask change p irqLine) := by
  by_cases hfirst : irqLine < 8#8
  · have hlt : irqLine.toNat < 8 := hfirst
    have hcall : irqChangeMask change p irqLine = { p with master := { p.master with
        mask := (change (p.master.mask.setWidth 32) (1#32 <<< irqLine.toNat)).setWidth 8 } } := by
      rw [irqChangeMask, irqPort, if_pos hfirst]
      exact Pics.outb_master_mask h _
    rw [hcall]
    refine ⟨⟨h.masterExpects, h.slaveExpects, h.masterOffset, h.slaveOffset, h.masterWiring,
      h.slaveWiring, h.masterEoi, h.slaveEoi, h.free⟩, fun n hn => ?_, rfl, rfl⟩
    unfold Pics.masked
    by_cases hn8 : n < 8
    · rw [if_pos hn8, if_pos hn8]
      exact hchange _ (by omega) hn8
    · rw [if_neg hn8, if_neg hn8, if_neg (by omega)]
  · have hge : 8 ≤ irqLine.toNat := Nat.le_of_not_lt hfirst
    have hsub : (irqLine - 8#8).toNat = irqLine.toNat - 8 := by bv_omega
    have hcall : irqChangeMask change p irqLine =
        { p with slave := { p.slave with mask :=
            (change (p.slave.mask.setWidth 32) (1#32 <<< (irqLine.toNat - 8))).setWidth 8 } } := by
      rw [irqChangeMask, irqPort, if_neg hfirst, ← hsub]
      exact Pics.outb_slave_mask h _
    rw [hcall]
    refine ⟨⟨h.masterExpects, h.slaveExpects, h.masterOffset, h.slaveOffset, h.masterWiring,
      h.slaveWiring, h.masterEoi, h.slaveEoi, h.free⟩, fun n hn => ?_, rfl, rfl⟩
    unfold Pics.masked
    by_cases hn8 : n < 8
    · rw [if_pos hn8, if_pos hn8, if_neg (by omega)]
    · rw [if_neg hn8, if_neg hn8]
      refine (hchange _ (by omega) (by omega)).trans ?_
      have hsame : n - 8 = irqLine.toNat - 8 ↔ n = irqLine.toNat := by omega
      simp only [hsame]

/-! ### The state behind `idt_init` -/

/-- The controllers as `idt_pic_remap` leaves them, whatever they were before. -/
theorem idtPicRemap_eq (p : Pics) :
    idtPicRemap p 0x20#32 0x28#32 =
      { master := { offset := 0x20#8, mask := 0#8, wiring := 4#8, autoEoi := false, single := false
                    icw4 := true, expects := .mask, service := .idle }
        slave := { offset := 0x28#8, mask := 0#8, wiring := 2#8, autoEoi := false, single := false
                   icw4 := true, expects := .mask, service := .idle } } := rfl

/-- The controllers as `idt_init` leaves them. -/
theorem idtInit_pics (h : Handlers) (s : Interrupts) :
    (idtInit h s).pics =
      { master := { offset := 0x20#8, mask := 0b11111100#8, wiring := 4#8, autoEoi := false
                    single := false, icw4 := true, expects := .mask, service := .idle }
        slave := { offset := 0x28#8, mask := 0b11111111#8, wiring := 2#8, autoEoi := false
                   single := false, icw4 := true, expects := .mask, service := .idle } } := by
  unfold idtInit
  rw [idtPicRemap_eq]
  rfl

def kernelGate (isr : BitVec 64) (flags : BitVec 8) : Gate :=
  { segment := gdtOffsetKernelCode, isr := isr, attributes := flags }

theorem gate_setDescs (isr : Nat → BitVec 64) (flags : BitVec 8) (idt : Idt) {n : Nat}
    (hn : n ≤ 256) (v : BitVec 8) :
    ((List.range n).foldl (fun idt vector =>
        idtSetDesc idt (BitVec.ofNat 8 vector) (isr vector) flags) idt v).gate =
      if v.toNat < n then kernelGate (isr v.toNat) flags else (idt v).gate := by
  induction n with
  | zero => rfl
  | succ n ih =>
      rw [List.range_succ, List.foldl_append, List.foldl_cons, List.foldl_nil]
      by_cases hv : v = BitVec.ofNat 8 n
      · have hnat : v.toNat = n := by rw [hv, BitVec.toNat_ofNat, Nat.mod_eq_of_lt (by omega)]
        rw [if_pos (by omega), ← hv, gate_idtSetDesc, hnat]
        rfl
      · have hnat : v.toNat ≠ n := by
          intro h
          exact hv (by rw [← h, BitVec.ofNat_toNat, BitVec.setWidth_eq])
        have hless : v.toNat < n + 1 ↔ v.toNat < n := by omega
        rw [gate_idtSetDesc_ne _ hv, ih (by omega)]
        simp only [hless]

/-! ### The lines and gates that the calls ask for -/

/-- Which lines have been told to be masked, and the gate that was set last for each number. -/
structure Lines where
  masked : Nat → Bool
  gates : BitVec 8 → Gate

inductive Event where
  | raise (n : Nat)
  | interrupt
  | eoi (irq : BitVec 8)
  | setFlag (flag : Bool)
  | setMask (irqLine : BitVec 8)
  | clearMask (irqLine : BitVec 8)
  | setDesc (vector : BitVec 8) (isr : BitVec 64) (flags : BitVec 8)

namespace Interrupts

/-- The CPU takes an interrupt: its number, and the state in which the handler begins. -/
def interrupt (s : Interrupts) : Option (BitVec 8 × Interrupts) :=
  if s.flag then
    s.pics.acknowledge.map (fun (v, pics) => (v, { s with pics := pics, flag := false }))
  else none

/-- No device is on line 2, nor is there a line above 15; a call shifts by less than 32. -/
def exec (s : Interrupts) : Event → Option Interrupts
  | .raise n => if n < 16 ∧ n ≠ 2 then some { s with pics := s.pics.raise n } else none
  | .interrupt => s.interrupt.map Prod.snd
  | .eoi irq => some { s with pics := idtPicSendEoi s.pics irq }
  | .setFlag flag => some { s with flag := flag }
  | .setMask irqLine =>
      if irqLine.toNat < 40 then some { s with pics := kiIrqSetMask s.pics irqLine } else none
  | .clearMask irqLine =>
      if irqLine.toNat < 40 then some { s with pics := idtIrqClearMask s.pics irqLine } else none
  | .setDesc vector isr flags => some { s with idt := idtSetDesc s.idt vector isr flags }

def Step (s : Interrupts) (e : Event) (t : Interrupts) : Prop := s.exec e = some t

end Interrupts

namespace Lines

/-- Behind `idt_init`: the timer and the keyboard, and the exceptions. -/
def initial (h : Handlers) (gates : BitVec 8 → Gate) : Lines where
  masked := fun n => decide (n ≠ 0 ∧ n ≠ 1)
  gates := fun v =>
    if v = 0x21#8 then kernelGate h.idtKeyboardHandler interruptGate
    else if v = 0x20#8 then kernelGate h.pitHandler interruptGate
    else if v.toNat < 32 then kernelGate (h.isrStubTable v.toNat) interruptGate
    else gates v

def next (a : Lines) : Event → Lines
  | .setMask irqLine => { a with masked := Function.update a.masked irqLine.toNat true }
  | .clearMask irqLine => { a with masked := Function.update a.masked irqLine.toNat false }
  | .setDesc vector isr flags =>
      { a with gates := Function.update a.gates vector (kernelGate isr flags) }
  | .raise _ | .interrupt | .eoi _ | .setFlag _ => a

end Lines

structure Agrees (s : Interrupts) (a : Lines) : Prop where
  programmed : s.pics.Programmed
  masked : ∀ n < 16, s.pics.masked n = a.masked n
  gates : ∀ v, (s.idt v).gate = a.gates v

theorem idtInit_agrees (h : Handlers) (s : Interrupts) :
    Agrees (idtInit h s) (.initial h (fun v => (s.idt v).gate)) := by
  have hpics := idtInit_pics h s
  refine ⟨?_, ?_, fun v => ?_⟩
  · rw [hpics]
    exact ⟨rfl, rfl, rfl, rfl, rfl, rfl, rfl, rfl, rfl⟩
  · rw [hpics]
    have hmasks : ∀ n < 16, (if n < 8 then (0b11111100#8).getLsbD n
        else (0b11111111#8).getLsbD (n - 8)) = decide (n ≠ 0 ∧ n ≠ 1) := by decide
    exact hmasks
  · change (idtSetDesc (idtSetDesc (idtInitExceptions h s.idt) 0x20#8 h.pitHandler interruptGate)
      0x21#8 h.idtKeyboardHandler interruptGate v).gate = _
    unfold Lines.initial
    by_cases hkeyboard : v = 0x21#8
    · subst hkeyboard
      exact gate_idtSetDesc _ _ _ _
    by_cases hpit : v = 0x20#8
    · subst hpit
      rw [gate_idtSetDesc_ne _ hkeyboard]
      exact gate_idtSetDesc _ _ _ _
    · rw [gate_idtSetDesc_ne _ hkeyboard, gate_idtSetDesc_ne _ hpit]
      simp only [if_neg hkeyboard, if_neg hpit]
      exact gate_setDescs h.isrStubTable interruptGate s.idt (by decide) v

/-! ### Steps -/

section Steps

variable {p q : Pics} {s t : Interrupts} {a : Lines}

/-- What leaves a controller as it was programmed, and its mask. -/
structure Chip.SameSetup (c d : Chip) : Prop where
  offset : d.offset = c.offset
  mask : d.mask = c.mask
  wiring : d.wiring = c.wiring
  autoEoi : d.autoEoi = c.autoEoi
  expects : d.expects = c.expects

theorem Pics.Programmed.of_same (h : p.Programmed) (hmaster : p.master.SameSetup q.master)
    (hslave : p.slave.SameSetup q.slave) (hfree : q.master.service.requested 2 = false) :
    q.Programmed where
  masterExpects := hmaster.expects.trans h.masterExpects
  slaveExpects := hslave.expects.trans h.slaveExpects
  masterOffset := hmaster.offset.trans h.masterOffset
  slaveOffset := hslave.offset.trans h.slaveOffset
  masterWiring := hmaster.wiring.trans h.masterWiring
  slaveWiring := hslave.wiring.trans h.slaveWiring
  masterEoi := hmaster.autoEoi.trans h.masterEoi
  slaveEoi := hslave.autoEoi.trans h.slaveEoi
  free := hfree

theorem Pics.masked_of_same (hmaster : p.master.SameSetup q.master)
    (hslave : p.slave.SameSetup q.slave) (n : Nat) : q.masked n = p.masked n := by
  unfold Pics.masked
  rw [hmaster.mask, hslave.mask]

theorem Chip.sameSetup_service (c : Chip) (service : Service) :
    c.SameSetup { c with service := service } := ⟨rfl, rfl, rfl, rfl, rfl⟩

/-- Everything that an answer to the CPU can be. -/
theorem Pics.acknowledge_cases (h : p.Programmed) {v : BitVec 8}
    (hack : p.acknowledge = some (v, q)) :
    (∃ l, p.joined.pending = some l ∧ l ≠ 2 ∧ v = p.master.vector l ∧
      q = { p with master := p.master.accept l }) ∨
    (∃ k, p.joined.pending = some 2 ∧ p.slave.pending = some k ∧ v = p.slave.vector k ∧
      q = { master := p.master.accept 2, slave := p.slave.accept k }) := by
  have hwired : ∀ l < 8, (4#8).getLsbD l = decide (l = 2) := by decide
  unfold Pics.acknowledge at hack
  cases hl : p.joined.pending with
  | none =>
      rw [hl] at hack
      cases hack
  | some l =>
      have hlt : l < 8 := (Service.pending_eq_some_iff.mp hl).1
      simp only [hl, h.masterWiring, hwired l hlt, decide_eq_true_eq] at hack
      by_cases htwo : l = 2
      · subst htwo
        rw [if_pos rfl] at hack
        cases hk : p.slave.pending with
        | none =>
            rw [hk] at hack
            cases hack
        | some k =>
            simp only [hk, h.slaveWiring, if_true, Option.some.injEq,
              Prod.mk.injEq] at hack
            exact Or.inr ⟨k, rfl, rfl, hack.1.symm, hack.2.symm⟩
      · rw [if_neg htwo] at hack
        simp only [Option.some.injEq, Prod.mk.injEq] at hack
        exact Or.inl ⟨l, rfl, htwo, hack.1.symm, hack.2.symm⟩

/-- Controllers that keep account of their services take a line this way. -/
theorem Chip.accept_eq {c : Chip} (h : c.autoEoi = false) (l : Nat) :
    c.accept l = { c with service := c.service.take l } := by
  rw [Chip.accept, h, if_neg Bool.false_ne_true]

theorem Chip.sameSetup_accept (c : Chip) (l : Nat) : c.SameSetup (c.accept l) :=
  c.sameSetup_service _

/-- What is in line 2 of the first controller goes on when the line is taken, and is nothing
before. -/
theorem Pics.acknowledge_programmed (h : p.Programmed) {v : BitVec 8}
    (hack : p.acknowledge = some (v, q)) :
    q.Programmed ∧ ∀ n, q.masked n = p.masked n := by
  have hfree : ∀ l, (p.master.accept l).service.requested 2 = false := by
    intro l
    rw [Chip.accept_eq h.masterEoi]
    by_cases hl : 2 = l
    · subst hl
      exact Function.update_self (2 : Nat) false p.master.service.requested
    · exact (Function.update_of_ne hl _ _).trans h.free
  have hself : ∀ c : Chip, c.SameSetup c := fun _ => ⟨rfl, rfl, rfl, rfl, rfl⟩
  rcases Pics.acknowledge_cases h hack with ⟨l, -, -, -, rfl⟩ | ⟨k, -, -, -, rfl⟩
  · exact ⟨h.of_same (p.master.sameSetup_accept l) (hself _) (hfree l),
      masked_of_same (p.master.sameSetup_accept l) (hself _)⟩
  · exact ⟨h.of_same (p.master.sameSetup_accept 2) (p.slave.sameSetup_accept k) (hfree 2),
      masked_of_same (p.master.sameSetup_accept 2) (p.slave.sameSetup_accept k)⟩

theorem Pics.idtPicSendEoi_eq (p : Pics) (irq : BitVec 8) :
    idtPicSendEoi p irq =
      { master := { p.master with service := p.master.service.finish 8 }
        slave := if irq ≥ 8#8 then { p.slave with service := p.slave.service.finish 8 }
          else p.slave } := by
  unfold idtPicSendEoi
  split
  · rfl
  · rfl

theorem Pics.eoi_programmed (h : p.Programmed) (irq : BitVec 8) :
    (idtPicSendEoi p irq).Programmed ∧ ∀ n, (idtPicSendEoi p irq).masked n = p.masked n := by
  have hslave : p.slave.SameSetup (if irq ≥ 8#8 then
      { p.slave with service := p.slave.service.finish 8 } else p.slave) := by
    split
    · exact p.slave.sameSetup_service _
    · exact ⟨rfl, rfl, rfl, rfl, rfl⟩
  rw [Pics.idtPicSendEoi_eq]
  refine ⟨h.of_same (p.master.sameSetup_service _) hslave ?_,
    masked_of_same (p.master.sameSetup_service _) hslave⟩
  exact (congrFun Service.finish_requested 2).trans h.free

theorem Pics.raise_programmed (h : p.Programmed) {n : Nat} (hn : n ≠ 2) :
    (p.raise n).Programmed ∧ ∀ k, (p.raise n).masked k = p.masked k := by
  have hself : ∀ c : Chip, c.SameSetup c := fun _ => ⟨rfl, rfl, rfl, rfl, rfl⟩
  unfold Pics.raise
  split
  · refine ⟨h.of_same (p.master.sameSetup_service _) (hself _) ?_,
      masked_of_same (p.master.sameSetup_service _) (hself _)⟩
    exact (Function.update_of_ne (Ne.symm hn) _ _).trans h.free
  · exact ⟨h.of_same (hself _) (p.slave.sameSetup_service _) h.free,
      masked_of_same (hself _) (p.slave.sameSetup_service _)⟩

/-- One step keeps the controllers as they were programmed, with the masks and gates that the
calls have asked for. -/
theorem Agrees.step {e : Event} (h : Agrees s a) (hstep : s.Step e t) : Agrees t (a.next e) := by
  unfold Interrupts.Step at hstep
  have hsame : ∀ {q : Pics} {flag : Bool}, q.Programmed ∧ (∀ n, q.masked n = s.pics.masked n) →
      Agrees { s with pics := q, flag := flag } a := fun hq =>
    ⟨hq.1, fun n hn => (hq.2 n).trans (h.masked n hn), h.gates⟩
  have hchanged : ∀ {b : Bool} {irqLine : BitVec 8} {q : Pics}, MaskChanged b irqLine s.pics q →
      Agrees { s with pics := q }
        { a with masked := Function.update a.masked irqLine.toNat b } := by
    intro b irqLine q hq
    refine ⟨hq.programmed, fun n hn => (hq.masked n hn).trans ?_, h.gates⟩
    rw [h.masked n hn]
    exact (Function.update_apply a.masked _ _ n).symm
  cases e with
  | raise n =>
      simp only [Interrupts.exec, Option.ite_none_right_eq_some, Option.some.injEq] at hstep
      obtain ⟨⟨-, hn⟩, rfl⟩ := hstep
      exact hsame (Pics.raise_programmed h.programmed hn)
  | interrupt =>
      obtain ⟨⟨v, t'⟩, hint, rfl⟩ := Option.map_eq_some_iff.mp hstep
      simp only [Interrupts.interrupt, Option.ite_none_right_eq_some] at hint
      obtain ⟨⟨v', q⟩, hack, hpair⟩ := Option.map_eq_some_iff.mp hint.2
      obtain ⟨rfl, rfl⟩ := Prod.mk.inj hpair
      exact hsame (Pics.acknowledge_programmed h.programmed hack)
  | eoi irq =>
      cases hstep
      exact hsame (Pics.eoi_programmed h.programmed irq)
  | setFlag flag =>
      cases hstep
      exact ⟨h.programmed, h.masked, h.gates⟩
  | setMask irqLine =>
      simp only [Interrupts.exec, Option.ite_none_right_eq_some, Option.some.injEq] at hstep
      obtain ⟨hline, rfl⟩ := hstep
      exact hchanged (irqChangeMask_changed puts_set h.programmed hline)
  | clearMask irqLine =>
      simp only [Interrupts.exec, Option.ite_none_right_eq_some, Option.some.injEq] at hstep
      obtain ⟨hline, rfl⟩ := hstep
      exact hchanged (irqChangeMask_changed puts_clear h.programmed hline)
  | setDesc vector isr flags =>
      cases hstep
      refine ⟨h.programmed, h.masked, fun v => ?_⟩
      change (idtSetDesc s.idt vector isr flags v).gate = Function.update a.gates vector _ v
      by_cases hv : v = vector
      · subst hv
        rw [gate_idtSetDesc, Function.update_self]
        rfl
      · rw [gate_idtSetDesc_ne _ hv, Function.update_of_ne hv, h.gates v]

theorem Pics.master_vector (h : p.Programmed) {l : Nat} (hl : l < 8) :
    p.master.vector l = BitVec.ofNat 8 (0x20 + l) := by
  have hall : ∀ l < 8, (0x20#8 ||| BitVec.ofNat 8 l) = BitVec.ofNat 8 (0x20 + l) := by decide
  rw [Chip.vector, h.masterOffset, hall l hl]

theorem Pics.slave_vector (h : p.Programmed) {k : Nat} (hk : k < 8) :
    p.slave.vector k = BitVec.ofNat 8 (0x20 + (8 + k)) := by
  have hall : ∀ k < 8, (0x28#8 ||| BitVec.ofNat 8 k) = BitVec.ofNat 8 (0x20 + (8 + k)) := by
    decide
  rw [Chip.vector, h.slaveOffset, hall k hk]

theorem Interrupts.acknowledged {v : BitVec 8} (hint : s.interrupt = some (v, t)) :
    s.pics.acknowledge = some (v, t.pics) := by
  simp only [Interrupts.interrupt, Option.ite_none_right_eq_some] at hint
  obtain ⟨⟨v', q⟩, hack, hpair⟩ := Option.map_eq_some_iff.mp hint.2
  obtain ⟨rfl, rfl⟩ := Prod.mk.inj hpair
  exact hack

theorem Agrees.pending_unmasked (h : Agrees s a) {l : Nat}
    (hl : s.pics.joined.pending = some l) : l < 8 ∧ a.masked l = false := by
  obtain ⟨hlt, -, hadmits, -⟩ := Service.pending_eq_some_iff.mp hl
  have hmask : s.pics.joined.mask = s.pics.master.mask := by
    unfold Pics.joined
    split
    · rfl
    · rfl
  rw [Chip.admits, hmask, Bool.not_eq_true'] at hadmits
  refine ⟨hlt, (h.masked l (by omega)).symm.trans ?_⟩
  rw [Pics.masked, if_pos hlt, hadmits]

/-- The line that an interrupt is for. -/
theorem Agrees.interrupt_line (h : Agrees s a) {v : BitVec 8}
    (hint : s.interrupt = some (v, t)) :
    ∃ n < 16, v = BitVec.ofNat 8 (0x20 + n) ∧ a.masked n = false ∧
      (8 ≤ n → a.masked 2 = false) := by
  have hack := Interrupts.acknowledged hint
  rcases Pics.acknowledge_cases h.programmed hack with
    ⟨l, hl, -, rfl, -⟩ | ⟨k, hl, hk, rfl, -⟩
  · obtain ⟨hlt, hmasked⟩ := h.pending_unmasked hl
    refine ⟨l, by omega, ?_, hmasked, fun hge => by omega⟩
    exact Pics.master_vector h.programmed hlt
  · obtain ⟨hlt, -, hadmits, -⟩ := Service.pending_eq_some_iff.mp hk
    refine ⟨8 + k, by omega, ?_, ?_, fun _ => (h.pending_unmasked hl).2⟩
    · exact Pics.slave_vector h.programmed hlt
    · rw [Chip.admits, Bool.not_eq_true'] at hadmits
      refine (h.masked (8 + k) (by omega)).symm.trans ?_
      rw [Pics.masked, if_neg (by omega), Nat.add_sub_cancel_left, hadmits]

end Steps

theorem agrees_of_run (h : Handlers) {s₀ s : Interrupts} {events : List Event}
    (hrun : Run Interrupts.Step (idtInit h s₀) events s) :
    Agrees s (events.foldl Lines.next (.initial h (fun v => (s₀.idt v).gate))) := by
  have hkeep : ∀ s e t a, Agrees s a → Interrupts.Step s e t → Agrees t (Lines.next a e) :=
    fun _ _ _ _ hs hstep => hs.step hstep
  exact hrun.simulates Agrees hkeep (idtInit_agrees h s₀)

/-- From `idt_init` on, in any run, the masks are those the calls have asked for last; an
interrupt that the CPU takes is that of a line whose mask was cleared last, one of the second
controller only if that of line 2 was too; and its number has the gate that was set last. -/
theorem interrupts_follow_calls (h : Handlers) {s₀ s : Interrupts} {events : List Event}
    (hrun : Run Interrupts.Step (idtInit h s₀) events s) :
    let a := events.foldl Lines.next (Lines.initial h (fun v => (s₀.idt v).gate))
    (∀ n < 16, s.pics.masked n = a.masked n) ∧
      ∀ v t, s.interrupt = some (v, t) →
        (s.idt v).gate = a.gates v ∧ ∃ n < 16, v = BitVec.ofNat 8 (0x20 + n) ∧
          a.masked n = false ∧ (8 ≤ n → a.masked 2 = false) := by
  intro a
  have hagrees : Agrees s a := agrees_of_run h hrun
  exact ⟨hagrees.masked, fun v _ hint => ⟨hagrees.gates v, hagrees.interrupt_line hint⟩⟩

namespace Sample

def handlers : Handlers where
  isrStubTable := fun k => 0xffffffff80001000#64 + BitVec.ofNat 64 (16 * k)
  pitHandler := 0xffffffff80002000#64
  idtKeyboardHandler := 0xffffffff80002100#64

def blankChip : Chip where
  offset := 0#8
  mask := 0#8
  wiring := 0#8
  autoEoi := false
  single := false
  icw4 := false
  expects := .mask
  service := .idle

def reset : Interrupts where
  pics := { master := blankChip, slave := blankChip }
  idt := fun _ => ⟨0#16, 0#16, 0#8, 0#8, 0#16, 0#32, 0#32⟩
  flag := false

/-- Line 12 and the one on which the second controller hangs are unmasked, line 12 gets a gate,
and its device interrupts. -/
def mouse : List Event :=
  [.clearMask 2#8, .clearMask 12#8, .setDesc 0x2c#8 0xffffffff80003000#64 interruptGate, .raise 12]

/-- The state that events lead to from `idt_init` on. -/
def after (events : List Event) : Interrupts :=
  events.foldl (fun s e => (s.exec e).getD s) (idtInit handlers reset)

theorem mouse_run : Run Interrupts.Step (idtInit handlers reset) mouse (after mouse) :=
  .cons rfl (.cons rfl (.cons rfl (.cons rfl (.nil _))))

end Sample

theorem interrupts_follow_calls_mouse :
    ∃ t, (Sample.after Sample.mouse).interrupt = some (0x2c#8, t) ∧
      (Sample.after Sample.mouse).pics.masked 12 = false ∧
      (Sample.after Sample.mouse).pics.masked 2 = false ∧
      ((Sample.after Sample.mouse).idt 0x2c#8).gate =
        kernelGate 0xffffffff80003000#64 interruptGate := by
  have hfollow := interrupts_follow_calls Sample.handlers Sample.mouse_run
  exact ⟨_, rfl, hfollow.1 12 (by decide), hfollow.1 2 (by decide), (hfollow.2 0x2c#8 _ rfl).1⟩

end Asnu.Irq
