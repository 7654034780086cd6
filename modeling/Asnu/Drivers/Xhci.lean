import Asnu.CString
import Asnu.Lib.Run

/-!
The event ring of the xHCI driver and a controller that fills it as it is told.
`xHciInit` advertises sixteen entries, which are sixteen bytes each for the
controller and eight for the handler, over an array of 128 bytes. What the
handler prints, and the controller's registers but for the ports', are left out.
-/

namespace Asnu

open Lib

def xhciPortCount : BitVec 8 := 8#8

def xhciTrbRingSize : Nat := 16

def trbTypePortStatusChange : BitVec 32 := 0x20#32

def trbTypeTransferEvent : BitVec 32 := 0x21#32

/-- The bytes of `EventRing.ring`, sixteen `uint64_t`. -/
def ringBytes : Nat := xhciTrbRingSize * 8

structure ErstEntry where
  ringSegmentBaseAddress : BitVec 64
  ringSegmentSize : BitVec 32
  reserved : BitVec 32

/-- The driver's variables. `EventRing` is kept in memory, where the controller
reaches it. -/
structure Xhci where
  mem : Memory
  /-- The address of `EventRing`. -/
  eventRing : Ptr
  erstTable : ErstEntry
  haveKeyboard : Bool
  haveMouse : Bool
  eois : Nat

namespace Xhci

def cyclePtr (s : Xhci) : Ptr := s.eventRing + 136#64

def indexPtr (s : Xhci) : Ptr := s.eventRing + 144#64

def cycle (s : Xhci) : BitVec 8 := s.mem s.cyclePtr

def index (s : Xhci) : BitVec 64 := s.mem.load64 s.indexPtr

/-- The end of the handler: the next index, and the acknowledgement. -/
def advance (s : Xhci) : Xhci :=
  let index := (s.index + 1#64) % BitVec.ofNat 64 xhciTrbRingSize
  let mem := s.mem.store64 s.indexPtr index
  let mem := if index = 0#64 then mem.poke s.cyclePtr (mem s.cyclePtr ^^^ 1#8) else mem
  { s with mem := mem, eois := s.eois + 1 }

/-- The handler from the type of the TRB on, with what it still reads of it. A port
answers the read of its status register with `portsc`. -/
def handleTrb (s : Xhci) (trb : Ptr) (trbType : BitVec 32) (portsc : BitVec 8 → BitVec 32) :
    List (Ptr × Nat) × Xhci :=
  if trbType = trbTypePortStatusChange then
    let portId := ((s.mem.load64 trb >>> 24) &&& 0xFF#64).setWidth 8
    if portId < 1#8 ∨ xhciPortCount < portId then ([(trb, 8)], s)
    else
      let speed := (portsc portId >>> 10) &&& 0xF#32
      let connected := portsc portId &&& 1#32 ≠ 0#32
      if connected ∧ speed = 3#32 then
        if s.haveKeyboard then ([(trb, 8)], s)
        else ([(trb, 8)], { s with haveKeyboard := true }.advance)
      else if connected ∧ speed = 2#32 then
        if s.haveMouse then ([(trb, 8)], s)
        else ([(trb, 8)], { s with haveMouse := true }.advance)
      else ([(trb, 8)], s.advance)
  else if trbType = trbTypeTransferEvent then ([(trb, 8)], s.advance)
  else ([], s.advance)

end Xhci

/-- The handler, with the reads it makes through `trb`. -/
def xhciIrqHandler (s : Xhci) (portsc : BitVec 8 → BitVec 32) : List (Ptr × Nat) × Xhci :=
  let trb := s.eventRing + s.index * 8#64
  let word := s.mem.load64 (trb + 16#64)
  let trbType := ((word >>> 10) &&& 0x3F#64).setWidth 32
  let cycle := (word &&& 1#64).setWidth 8
  let (reads, s) := if cycle ≠ s.cycle then ([], s) else s.handleTrb trb trbType portsc
  ((trb + 16#64, 8) :: (trb + 16#64, 8) :: reads, s)

/-- What `xHciInit` does to the ring and to its entry in the segment table. -/
def xHciInit (m : Memory) (eventRing : Ptr) : Xhci :=
  { mem := ((m.store64 (eventRing + 128#64) eventRing).poke (eventRing + 136#64) 1#8).store64
      (eventRing + 144#64) 0#64
    eventRing := eventRing
    erstTable :=
      { ringSegmentBaseAddress := eventRing
        ringSegmentSize := BitVec.ofNat 32 xhciTrbRingSize
        reserved := 0#32 }
    haveKeyboard := false
    haveMouse := false
    eois := 0 }

/-- What the controller has to report; it sets the cycle bit itself. -/
structure Trb where
  parameter : BitVec 64
  status : BitVec 32
  control : BitVec 32

/-- The driver with the controller: how many events it has written and its cycle state,
how often the handler has been called, and what both have accessed. -/
structure XhciSystem where
  xhci : Xhci
  produced : Nat
  producerCycle : Bool
  handled : Nat
  /-- The stores of the controller. -/
  writes : List (Ptr × Nat)
  /-- The reads through `trb`, with the number of the call. -/
  reads : List (Nat × Ptr × Nat)

inductive XhciEvent where
  | event (trb : Trb)
  | irq (portsc : BitVec 8 → BitVec 32)

def XhciEvent.isIrq : XhciEvent → Bool
  | .event _ => false
  | .irq _ => true

namespace XhciSystem

def start (m : Memory) (eventRing : Ptr) : XhciSystem :=
  { xhci := xHciInit m eventRing
    produced := 0
    producerCycle := true
    handled := 0
    writes := []
    reads := [] }

/-- Where event `k` goes. -/
def trbPtr (s : XhciSystem) (k : Nat) : Ptr :=
  s.xhci.erstTable.ringSegmentBaseAddress +
    BitVec.ofNat 64 (16 * (k % s.xhci.erstTable.ringSegmentSize.toNat))

/-- The two upper words of the TRB in memory. -/
def upperWords (trb : Trb) (cycle : Bool) : BitVec 64 :=
  ((trb.control &&& ~~~1#32) ||| (if cycle then 1#32 else 0#32)) ++ trb.status

def exec (s : XhciSystem) : XhciEvent → XhciSystem
  | .event trb =>
      let p := s.trbPtr s.produced
      let mem := (s.xhci.mem.store64 p trb.parameter).store64 (p + 8#64)
        (upperWords trb s.producerCycle)
      { s with
        xhci := { s.xhci with mem := mem }
        produced := s.produced + 1
        producerCycle :=
          if (s.produced + 1) % s.xhci.erstTable.ringSegmentSize.toNat = 0 then !s.producerCycle
          else s.producerCycle
        writes := (p, 16) :: s.writes }
  | .irq portsc =>
      let (reads, xhci) := xhciIrqHandler s.xhci portsc
      { s with
        xhci := xhci
        handled := s.handled + 1
        reads := reads.map (fun r => (s.handled, r)) ++ s.reads }

/-- There is an interrupt for each event, and the controller waits for the handler when
the ring is full. -/
def Allowed (s : XhciSystem) : XhciEvent → Prop
  | .event _ => s.produced < s.handled + s.xhci.erstTable.ringSegmentSize.toNat
  | .irq _ => s.handled < s.produced

def Step (s : XhciSystem) (e : XhciEvent) (s' : XhciSystem) : Prop :=
  s.Allowed e ∧ s' = s.exec e

end XhciSystem

/-- All bytes of an access are among `n` from `a` on. -/
def Within (a : Ptr) (n : Nat) (access : Ptr × Nat) : Prop :=
  ∀ d < access.2, InRange a n (access.1 + BitVec.ofNat 64 d)

namespace XhciSystem

/-- Call `k` of the handler reads event `k`, neither side leaves the ring. -/
structure Agrees (s : XhciSystem) : Prop where
  reads : ∀ r ∈ s.reads, Within (s.trbPtr r.1) 16 r.2
  inside : ∀ r ∈ s.reads, Within s.xhci.eventRing ringBytes r.2
  writes : ∀ w ∈ s.writes, Within s.xhci.eventRing ringBytes w

/-- Until the handler runs for the first time its index is 0, unless the controller has
written over it; afterwards the read that it began with is among those recorded. -/
structure Followed (eventRing : Ptr) (s : XhciSystem) : Prop where
  ring : s.xhci.eventRing = eventRing
  segment : s.xhci.erstTable.ringSegmentBaseAddress = eventRing
  size : s.xhci.erstTable.ringSegmentSize.toNat = xhciTrbRingSize
  written : s.writes = (List.range s.produced).reverse.map (fun k => (s.trbPtr k, 16))
  silent : s.handled = 0 → s.reads = []
  index : s.handled = 0 → s.produced ≤ 8 → s.xhci.index = 0#64
  first : 0 < s.handled → 8 < s.produced ∨ (0, eventRing + 16#64, 8) ∈ s.reads

theorem followed_start (m : Memory) (eventRing : Ptr) : (start m eventRing).Followed eventRing where
  ring := rfl
  segment := rfl
  size := rfl
  written := rfl
  silent := fun _ => rfl
  index := fun _ _ => Memory.load64_store64 _ _ _
  first := fun h => absurd h (Nat.lt_irrefl 0)

theorem handleTrb_table (x : Xhci) (trb : Ptr) (trbType : BitVec 32)
    (portsc : BitVec 8 → BitVec 32) :
    (x.handleTrb trb trbType portsc).2.eventRing = x.eventRing ∧
      (x.handleTrb trb trbType portsc).2.erstTable = x.erstTable := by
  have hadvance : ∀ y : Xhci, y.advance.eventRing = y.eventRing ∧
      y.advance.erstTable = y.erstTable := by
    intro y
    simp only [Xhci.advance, and_self]
  unfold Xhci.handleTrb
  dsimp only
  split
  · split
    · exact ⟨rfl, rfl⟩
    · split
      · split
        · exact ⟨rfl, rfl⟩
        · exact hadvance _
      · split
        · split
          · exact ⟨rfl, rfl⟩
          · exact hadvance _
        · exact hadvance _
  · split <;> exact hadvance _

/-- The handler keeps the table, and the first thing it reads is its word 2. -/
theorem handler_spec (x : Xhci) (portsc : BitVec 8 → BitVec 32) :
    (xhciIrqHandler x portsc).2.eventRing = x.eventRing ∧
      (xhciIrqHandler x portsc).2.erstTable = x.erstTable ∧
      (x.eventRing + x.index * 8#64 + 16#64, 8) ∈ (xhciIrqHandler x portsc).1 := by
  unfold xhciIrqHandler
  dsimp only
  split
  · exact ⟨rfl, rfl, List.mem_cons_self⟩
  · obtain ⟨hring, htable⟩ := handleTrb_table x (x.eventRing + x.index * 8#64) _ portsc
    exact ⟨hring, htable, List.mem_cons_self⟩

namespace Followed

variable {eventRing : Ptr} {s : XhciSystem} (h : s.Followed eventRing)
include h

theorem trbPtr_eq (k : Nat) : s.trbPtr k = eventRing + BitVec.ofNat 64 (16 * (k % 16)) := by
  rw [trbPtr, h.segment, h.size, xhciTrbRingSize]

/-- A store into one of the first eight entries misses the index. -/
theorem index_event (trb : Trb) (hproduced : s.produced < 8) :
    (s.exec (.event trb)).xhci.index = s.xhci.index := by
  have hring := h.ring
  refine Memory.load64_congr (fun x hx => ?_)
  have hx : InRange (s.xhci.eventRing + 144#64) 8 x := hx
  have hptr := h.trbPtr_eq s.produced
  rw [Nat.mod_eq_of_lt (show s.produced < 16 by omega), ← hring] at hptr
  have hlow : ¬ InRange (s.trbPtr s.produced) 8 x := by
    rw [hptr]
    unfold InRange at *
    bv_omega
  have hhigh : ¬ InRange (s.trbPtr s.produced + 8#64) 8 x := by
    rw [hptr]
    unfold InRange at *
    bv_omega
  exact (Memory.store64_out _ _ hhigh).trans (Memory.store64_out _ _ hlow)

theorem event (trb : Trb) : (s.exec (.event trb)).Followed eventRing where
  ring := h.ring
  segment := h.segment
  size := h.size
  written := by
    have hptr : ∀ k, (s.exec (.event trb)).trbPtr k = s.trbPtr k := fun _ => rfl
    have hwrites : (s.exec (.event trb)).writes = (s.trbPtr s.produced, 16) :: s.writes := rfl
    have hproduced : (s.exec (.event trb)).produced = s.produced + 1 := rfl
    rw [hwrites, hproduced, h.written, List.range_succ, List.reverse_append]
    simp only [hptr, List.reverse_singleton, List.singleton_append, List.map_cons]
  silent := h.silent
  index := by
    intro hnone hproduced
    have hproduced : s.produced + 1 ≤ 8 := hproduced
    rw [h.index_event trb (by omega)]
    exact h.index hnone (by omega)
  first := fun hhandled => (h.first hhandled).imp_left (fun hlt => Nat.lt_succ_of_lt hlt)

theorem irq (portsc : BitVec 8 → BitVec 32) : (s.exec (.irq portsc)).Followed eventRing := by
  obtain ⟨hring, htable, hread⟩ := handler_spec s.xhci portsc
  have hreads : (s.exec (.irq portsc)).reads =
      (xhciIrqHandler s.xhci portsc).1.map (fun r => (s.handled, r)) ++ s.reads := rfl
  have hptr : ∀ k, (s.exec (.irq portsc)).trbPtr k = s.trbPtr k := by
    intro k
    have hsame : (s.exec (.irq portsc)).xhci.erstTable = s.xhci.erstTable := htable
    rw [trbPtr, trbPtr, hsame]
  refine ⟨hring.trans h.ring, ?_, ?_, ?_, fun hnone => absurd hnone (Nat.succ_ne_zero _),
    fun hnone => absurd hnone (Nat.succ_ne_zero _), fun _ => ?_⟩
  · exact (congrArg ErstEntry.ringSegmentBaseAddress htable).trans h.segment
  · exact (congrArg (fun e => e.ringSegmentSize.toNat) htable).trans h.size
  · simp only [hptr]
    exact h.written
  · rw [hreads]
    by_cases hfirst : s.handled = 0
    · by_cases hproduced : s.produced ≤ 8
      · refine Or.inr (List.mem_append_left _ (List.mem_map.mpr ⟨_, hread, ?_⟩))
        rw [hfirst, h.index hfirst hproduced, h.ring, BitVec.zero_mul, BitVec.add_zero]
      · exact Or.inl (Nat.lt_of_not_le hproduced)
    · exact (h.first (Nat.pos_of_ne_zero hfirst)).imp_right (List.mem_append_right _)

theorem step {e : XhciEvent} {s' : XhciSystem} (hstep : s.Step e s') : s'.Followed eventRing := by
  obtain ⟨_, rfl⟩ := hstep
  cases e with
  | event trb => exact h.event trb
  | irq portsc => exact h.irq portsc

/-- The ninth entry lies behind the ring. -/
theorem produced_le_of_agrees (hagrees : s.Agrees) : s.produced ≤ 8 := by
  by_contra hmore
  have hmem : (s.trbPtr 8, 16) ∈ s.writes := by
    rw [h.written]
    exact List.mem_map.mpr ⟨8, by simpa using hmore, rfl⟩
  have hin := hagrees.writes _ hmem 0 (Nat.zero_lt_succ 15)
  rw [h.trbPtr_eq, h.ring] at hin
  unfold InRange ringBytes xhciTrbRingSize at hin
  bv_omega

/-- The word that the first call reads belongs to the second TRB. -/
theorem not_agrees_of_first (hread : (0, eventRing + 16#64, 8) ∈ s.reads) : ¬ s.Agrees := by
  intro hagrees
  have hin := hagrees.reads _ hread 0 (Nat.zero_lt_succ 7)
  rw [h.trbPtr_eq] at hin
  unfold InRange at hin
  bv_omega

theorem agrees_iff : s.Agrees ↔ s.handled = 0 ∧ s.produced ≤ 8 := by
  constructor
  · intro hagrees
    have hproduced := h.produced_le_of_agrees hagrees
    refine ⟨?_, hproduced⟩
    by_contra hhandled
    rcases h.first (Nat.pos_of_ne_zero hhandled) with hmore | hread
    · omega
    · exact h.not_agrees_of_first hread hagrees
  · rintro ⟨hnone, hproduced⟩
    have hreads := h.silent hnone
    refine ⟨?_, ?_, fun w hw d hd => ?_⟩
    · simp [hreads]
    · simp [hreads]
    · rw [h.written] at hw
      obtain ⟨k, hk, rfl⟩ := List.mem_map.mp hw
      have hk : k < s.produced := by simpa using hk
      have hd : d < 16 := hd
      rw [h.trbPtr_eq, h.ring, Nat.mod_eq_of_lt (show k < 16 by omega)]
      unfold InRange ringBytes xhciTrbRingSize
      bv_omega

end Followed

/-- The counters count the steps. -/
theorem run_counts {s t : XhciSystem} {es : List XhciEvent} (hrun : Run Step s es t) :
    t.handled = s.handled + es.countP XhciEvent.isIrq ∧
      t.produced + t.handled = s.produced + s.handled + es.length := by
  induction hrun with
  | nil _ => exact ⟨rfl, rfl⟩
  | cons hstep _ ih =>
      obtain ⟨_, rfl⟩ := hstep
      obtain ⟨hhandled, hall⟩ := ih
      rename_i s _ e es _ _
      cases e with
      | event trb =>
          have hkept : (s.exec (.event trb)).handled = s.handled := rfl
          have hmore : (s.exec (.event trb)).produced = s.produced + 1 := rfl
          rw [List.countP_cons_of_neg (by simp [XhciEvent.isIrq]), List.length_cons]
          omega
      | irq portsc =>
          have hkept : (s.exec (.irq portsc)).produced = s.produced := rfl
          have hmore : (s.exec (.irq portsc)).handled = s.handled + 1 := rfl
          rw [List.countP_cons_of_pos (by simp [XhciEvent.isIrq]), List.length_cons]
          omega

end XhciSystem

/-- In every run from `xHciInit` with a controller that obeys the segment table, the calls
read the events they are made for and nobody leaves the ring exactly if the run has no call
of the handler and at most eight events. -/
theorem event_ring_agrees_iff (m : Memory) (eventRing : Ptr) (es : List XhciEvent)
    (t : XhciSystem)
    (hrun : Run XhciSystem.Step (XhciSystem.start m eventRing) es t) :
    t.Agrees ↔ es.countP XhciEvent.isIrq = 0 ∧ es.length ≤ 8 := by
  have h := hrun.invariant (XhciSystem.Followed eventRing) (fun _ _ _ hs hstep => hs.step hstep)
    (XhciSystem.followed_start m eventRing)
  obtain ⟨hhandled, hall⟩ := XhciSystem.run_counts hrun
  have hstart : (XhciSystem.start m eventRing).handled = 0 ∧
      (XhciSystem.start m eventRing).produced = 0 := ⟨rfl, rfl⟩
  rw [h.agrees_iff]
  omega

namespace Sample

/-- Nothing to report, on a ring at `0x1000` in zeroed memory. -/
def quietTrb : Trb := { parameter := 0#64, status := 0#32, control := 0x8000#32 }

def ringStart : XhciSystem := XhciSystem.start (fun _ => 0#8) 0x1000#64

theorem allowed_event : ringStart.Allowed (.event quietTrb) := Nat.zero_lt_succ 15

end Sample

open Sample in
theorem event_ring_agrees_iff_oneEvent : (ringStart.exec (.event quietTrb)).Agrees :=
  (event_ring_agrees_iff (fun _ => 0#8) 0x1000#64 [.event quietTrb] _
    (Run.cons ⟨allowed_event, rfl⟩ (Run.nil _))).mpr ⟨rfl, by decide⟩

open Sample in
/-- The first call for the first event reads the word behind its TRB. -/
theorem first_call_reads_behind :
    ∃ t, Run XhciSystem.Step ringStart [.event quietTrb, .irq (fun _ => 0#32)] t ∧
      (0, 0x1010#64, 8) ∈ t.reads ∧ t.trbPtr 0 = 0x1000#64 ∧ ¬ t.Agrees := by
  have h := (XhciSystem.followed_start (fun _ => 0#8) 0x1000#64).event quietTrb
  have hcalled := h.irq (fun _ => 0#32)
  refine ⟨_, Run.cons ⟨allowed_event, rfl⟩ (Run.cons ⟨Nat.zero_lt_one, rfl⟩ (Run.nil _)),
    ?_, hcalled.trbPtr_eq 0, fun hagrees => ?_⟩
  · exact (hcalled.first (by decide)).resolve_left (by decide)
  · exact absurd (hcalled.agrees_iff.mp hagrees).1 (by decide)

end Asnu
