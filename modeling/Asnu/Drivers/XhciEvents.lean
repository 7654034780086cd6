import Asnu.Drivers.Xhci

/-!
What a call of `XhciIrqHandler` does to the ring, and runs of calls between which
new events appear: which of them move the ring on, and the places the events were
found at.
-/

namespace Asnu

open Lib

/-- A place of the ring, with the lap's cycle. -/
structure RingPlace where
  index : BitVec 64
  cycle : BitVec 8
  deriving DecidableEq

/-- The place after this one; the cycle flips when the index comes back to 0. -/
def RingPlace.next (p : RingPlace) : RingPlace :=
  let index := (p.index + 1#64) % BitVec.ofNat 64 xhciTrbRingSize
  { index := index, cycle := if index = 0#64 then p.cycle ^^^ 1#8 else p.cycle }

theorem RingPlace.index_next (p : RingPlace) :
    p.next.index.toNat = (p.index.toNat + 1) % xhciTrbRingSize := by
  change ((p.index + 1#64) % 16#64).toNat = (p.index.toNat + 1) % 16
  rw [BitVec.toNat_umod, BitVec.toNat_add]
  exact Nat.mod_mod_of_dvd _ (by decide)

/-- Two places in a row are different ones. -/
theorem RingPlace.next_ne (p : RingPlace) : p.next ≠ p := by
  intro heq
  have hindex := p.index_next
  rw [heq, xhciTrbRingSize] at hindex
  omega

namespace Xhci

def place (s : Xhci) : RingPlace := { index := s.index, cycle := s.cycle }

/-- The pointer of the handler. -/
def trb (s : Xhci) : Ptr := s.eventRing + s.index * 8#64

/-- The word the handler takes for the last of the TRB. -/
def word (s : Xhci) : BitVec 64 := s.mem.load64 (s.trb + 16#64)

def trbType (s : Xhci) : BitVec 32 := ((s.word >>> 10) &&& 0x3F#64).setWidth 32

def portId (s : Xhci) : BitVec 8 := ((s.mem.load64 s.trb >>> 24) &&& 0xFF#64).setWidth 8

/-- The cycle bit, as the handler reads it, is the one it waits for. -/
def Valid (s : Xhci) : Prop := (s.word &&& 1#64).setWidth 8 = s.cycle

instance (s : Xhci) : Decidable s.Valid := inferInstanceAs (Decidable (_ = _))

/-- A device of this speed is connected. -/
def Attached (speed portsc : BitVec 32) : Prop :=
  portsc &&& 1#32 ≠ 0#32 ∧ (portsc >>> 10) &&& 0xF#32 = speed

instance (speed portsc : BitVec 32) : Decidable (Attached speed portsc) :=
  inferInstanceAs (Decidable (_ ∧ _))

/-- A port status change of a port that is not there, of a second keyboard or of a
second mouse. -/
def Dropped (s : Xhci) (portsc : BitVec 8 → BitVec 32) : Prop :=
  s.trbType = trbTypePortStatusChange ∧
    ((s.portId < 1#8 ∨ xhciPortCount < s.portId) ∨
      (Attached 3#32 (portsc s.portId) ∧ s.haveKeyboard = true) ∨
      (Attached 2#32 (portsc s.portId) ∧ s.haveMouse = true))

instance (s : Xhci) (portsc : BitVec 8 → BitVec 32) : Decidable (s.Dropped portsc) :=
  inferInstanceAs (Decidable (_ ∧ _))

/-- The call has consumed the event, or there was none and the ring is as before. -/
structure Consumes (s : Xhci) (s' : Xhci) : Prop where
  place : s.Valid → s'.place = s.place.next
  eoi : s.Valid → s'.eois = s.eois + 1
  waits : ¬ s.Valid → s'.place = s.place

/-- The index and the cycle do not overlap. -/
theorem cyclePtr_not_inRange (s : Xhci) : ¬ InRange s.indexPtr 8 s.cyclePtr := by
  unfold InRange indexPtr cyclePtr
  bv_omega

theorem cycle_store (s : Xhci) (v : BitVec 64) :
    s.mem.store64 s.indexPtr v s.cyclePtr = s.cycle :=
  Memory.store64_out s.mem v s.cyclePtr_not_inRange

theorem index_store_poke (s : Xhci) (v : BitVec 64) (b : BitVec 8) :
    ((s.mem.store64 s.indexPtr v).poke s.cyclePtr b).load64 s.indexPtr = v := by
  have hpoke : ∀ x, InRange s.indexPtr 8 x →
      (s.mem.store64 s.indexPtr v).poke s.cyclePtr b x = s.mem.store64 s.indexPtr v x := by
    intro x hx
    refine Memory.poke_ne _ _ (fun heq => ?_)
    rw [heq] at hx
    exact s.cyclePtr_not_inRange hx
  rw [Memory.load64_congr hpoke, Memory.load64_store64]

theorem place_advance (s : Xhci) : s.advance.place = s.place.next := by
  have hring : s.advance.eventRing = s.eventRing := by simp only [advance]
  have hindexPtr : s.advance.indexPtr = s.indexPtr := by rw [indexPtr, hring, indexPtr]
  have hcyclePtr : s.advance.cyclePtr = s.cyclePtr := by rw [cyclePtr, hring, cyclePtr]
  rw [place, index, cycle, hindexPtr, hcyclePtr, RingPlace.next]
  by_cases hwrap : (s.index + 1#64) % BitVec.ofNat 64 xhciTrbRingSize = 0#64
  · have hmem : s.advance.mem = (s.mem.store64 s.indexPtr 0#64).poke s.cyclePtr
        (s.mem.store64 s.indexPtr 0#64 s.cyclePtr ^^^ 1#8) := by
      simp only [advance, hwrap, if_true]
    simp only [place, hwrap, if_true]
    rw [hmem, index_store_poke, Memory.poke_self, cycle_store]
  · have hmem : s.advance.mem =
        s.mem.store64 s.indexPtr ((s.index + 1#64) % BitVec.ofNat 64 xhciTrbRingSize) := by
      simp only [advance, hwrap, if_false]
    simp only [place, hwrap, if_false]
    rw [hmem, Memory.load64_store64, cycle_store]

theorem handler_invalid {s : Xhci} {portsc : BitVec 8 → BitVec 32} (h : ¬ s.Valid) :
    (xhciIrqHandler s portsc).2 = s := by
  unfold xhciIrqHandler
  dsimp only
  exact congrArg Prod.snd (if_pos h)

theorem handler_valid {s : Xhci} {portsc : BitVec 8 → BitVec 32} (h : s.Valid) :
    (xhciIrqHandler s portsc).2 = (s.handleTrb s.trb s.trbType portsc).2 := by
  unfold xhciIrqHandler
  dsimp only
  exact congrArg Prod.snd (if_neg (not_not_intro h))

section Port

variable {s : Xhci} {portsc : BitVec 8 → BitVec 32}

/-- Of a port that is there, only a second device is dropped. -/
theorem dropped_iff_of_port (htype : s.trbType = trbTypePortStatusChange)
    (hport : ¬ (s.portId < 1#8 ∨ xhciPortCount < s.portId)) :
    s.Dropped portsc ↔
      (Attached 3#32 (portsc s.portId) ∧ s.haveKeyboard = true) ∨
        (Attached 2#32 (portsc s.portId) ∧ s.haveMouse = true) := by
  rw [Dropped, and_iff_right htype, or_iff_right hport]

theorem handleTrb_port (htype : s.trbType = trbTypePortStatusChange)
    (hport : ¬ (s.portId < 1#8 ∨ xhciPortCount < s.portId)) :
    (s.handleTrb s.trb s.trbType portsc).2 =
      if Attached 3#32 (portsc s.portId) then
        if s.haveKeyboard then s else { s with haveKeyboard := true }.advance
      else if Attached 2#32 (portsc s.portId) then
        if s.haveMouse then s else { s with haveMouse := true }.advance
      else s.advance := by
  rw [handleTrb, if_pos htype]
  dsimp only
  unfold portId at hport
  rw [if_neg hport]
  unfold portId
  generalize portsc _ = v
  by_cases hkeyboard : Attached 3#32 v
  · rw [if_pos hkeyboard, if_pos (And.intro hkeyboard.1 hkeyboard.2), apply_ite Prod.snd]
  · rw [if_neg hkeyboard, if_neg (show ¬ (_ ∧ _) from hkeyboard)]
    by_cases hmouse : Attached 2#32 v
    · rw [if_pos hmouse, if_pos (And.intro hmouse.1 hmouse.2), apply_ite Prod.snd]
    · rw [if_neg hmouse, if_neg (show ¬ (_ ∧ _) from hmouse)]

theorem not_attached_mouse {v : BitVec 32} (h : Attached 3#32 v) : ¬ Attached 2#32 v := by
  intro hmouse
  exact absurd (h.2.symm.trans hmouse.2) (by decide)

/-- A dropped event changes nothing, any other moves the ring on, whichever device it
announces. -/
theorem handleTrb_cases (s : Xhci) (portsc : BitVec 8 → BitVec 32) :
    (s.Dropped portsc ∧ (s.handleTrb s.trb s.trbType portsc).2 = s) ∨
      (¬ s.Dropped portsc ∧ ∃ keyboard mouse, (s.handleTrb s.trb s.trbType portsc).2 =
        { s with haveKeyboard := keyboard, haveMouse := mouse }.advance) := by
  by_cases htype : s.trbType = trbTypePortStatusChange
  · by_cases hport : s.portId < 1#8 ∨ xhciPortCount < s.portId
    · refine Or.inl ⟨⟨htype, Or.inl hport⟩, ?_⟩
      rw [handleTrb, if_pos htype]
      exact congrArg Prod.snd (if_pos hport)
    · rw [dropped_iff_of_port htype hport, handleTrb_port htype hport]
      by_cases hkeyboard : Attached 3#32 (portsc s.portId)
      · rw [if_pos hkeyboard]
        by_cases hhave : s.haveKeyboard = true
        · exact Or.inl ⟨Or.inl ⟨hkeyboard, hhave⟩, if_pos hhave⟩
        · refine Or.inr ⟨?_, true, s.haveMouse, if_neg hhave⟩
          rintro (⟨-, hold⟩ | ⟨hmouse, -⟩)
          · exact hhave hold
          · exact not_attached_mouse hkeyboard hmouse
      · rw [if_neg hkeyboard]
        by_cases hmouse : Attached 2#32 (portsc s.portId)
        · rw [if_pos hmouse]
          by_cases hhave : s.haveMouse = true
          · exact Or.inl ⟨Or.inr ⟨hmouse, hhave⟩, if_pos hhave⟩
          · refine Or.inr ⟨?_, s.haveKeyboard, true, if_neg hhave⟩
            rintro (⟨hother, -⟩ | ⟨-, hold⟩)
            · exact hkeyboard hother
            · exact hhave hold
        · refine Or.inr ⟨?_, s.haveKeyboard, s.haveMouse, if_neg hmouse⟩
          rintro (⟨hother, -⟩ | ⟨hother, -⟩)
          · exact hkeyboard hother
          · exact hmouse hother
  · refine Or.inr ⟨fun hdropped => htype hdropped.1, s.haveKeyboard, s.haveMouse, ?_⟩
    rw [handleTrb, if_neg htype]
    split
    · rfl
    · rfl

end Port

/-- A call consumes the event, unless it is one of those that are dropped. -/
theorem consumes_iff (s : Xhci) (portsc : BitVec 8 → BitVec 32) :
    s.Consumes (xhciIrqHandler s portsc).2 ↔ ¬ (s.Valid ∧ s.Dropped portsc) := by
  by_cases hvalid : s.Valid
  · rw [handler_valid hvalid, and_iff_right hvalid]
    rcases handleTrb_cases s portsc with ⟨hdropped, heq⟩ | ⟨hkept, keyboard, mouse, heq⟩
    · refine iff_of_false (fun h => ?_) (not_not_intro hdropped)
      have heoi := h.eoi hvalid
      rw [heq] at heoi
      exact Nat.succ_ne_self _ heoi.symm
    · refine iff_of_true ⟨fun _ => ?_, fun _ => ?_, fun h => absurd hvalid h⟩ hkept
      · rw [heq, place_advance]
        rfl
      · rw [heq]
        simp only [advance]
  · rw [handler_invalid hvalid]
    exact iff_of_true ⟨fun h => absurd h hvalid, fun h => absurd h hvalid, fun _ => rfl⟩
      (fun h => hvalid h.1)

end Xhci

/-! ### Runs -/

/-- The handler, and the places of the valid events it was called for, newest first. -/
structure RingRun where
  xhci : Xhci
  found : List RingPlace := []

/-- New events are written, or the handler is called. -/
inductive RingEvent where
  | written (mem : Memory)
  | irq (portsc : BitVec 8 → BitVec 32)

namespace RingRun

def start (x : Xhci) : RingRun := { xhci := x }

def exec (s : RingRun) : RingEvent → RingRun
  | .written mem => { s with xhci := { s.xhci with mem := mem } }
  | .irq portsc =>
      { xhci := (xhciIrqHandler s.xhci portsc).2
        found := if s.xhci.Valid then s.xhci.place :: s.found else s.found }

/-- What is written leaves the handler's own variables alone. -/
def Step (s : RingRun) (e : RingEvent) (s' : RingRun) : Prop :=
  (∀ mem, e = .written mem → (s.exec e).xhci.place = s.xhci.place) ∧ s' = s.exec e

def Consumes (s : RingRun) (e : RingEvent) (s' : RingRun) : Prop :=
  ∀ portsc, e = .irq portsc → s.xhci.Consumes s'.xhci

/-- The call is for an event that the handler drops. -/
def Drops (s : RingRun) : RingEvent → Prop
  | .written _ => False
  | .irq portsc => s.xhci.Valid ∧ s.xhci.Dropped portsc

/-- From the place at the start, each valid event was found one place after the one
before it, and each has its end-of-interrupt. -/
structure InOrder (x : Xhci) (s : RingRun) : Prop where
  found : s.found = (List.range s.found.length).reverse.map (fun k => RingPlace.next^[k] x.place)
  place : s.xhci.place = RingPlace.next^[s.found.length] x.place
  eois : s.xhci.eois = x.eois + s.found.length

theorem inOrder_start (x : Xhci) : (start x).InOrder x := ⟨rfl, rfl, rfl⟩

theorem consumes_iff (s : RingRun) (e : RingEvent) : s.Consumes e (s.exec e) ↔ ¬ s.Drops e := by
  cases e with
  | written mem => exact iff_of_true (fun portsc h => by cases h) not_false
  | irq portsc =>
      rw [Drops, ← Xhci.consumes_iff]
      exact ⟨fun h => h portsc rfl, fun h p hp => by cases hp; exact h⟩

/-- One more place at the head of the list. -/
theorem places_cons (p : RingPlace) (n : Nat) :
    (List.range (n + 1)).reverse.map (fun k => RingPlace.next^[k] p) =
      RingPlace.next^[n] p :: (List.range n).reverse.map (fun k => RingPlace.next^[k] p) := by
  rw [List.range_succ, List.reverse_append, List.reverse_singleton, List.singleton_append,
    List.map_cons]

/-- A call that consumes what it finds keeps the order. -/
theorem InOrder.step {x : Xhci} {s s' : RingRun} {e : RingEvent} (h : s.InOrder x)
    (hstep : s.Step e s') (hconsumes : s.Consumes e s') : s'.InOrder x := by
  obtain ⟨hown, rfl⟩ := hstep
  cases e with
  | written mem => exact ⟨h.found, (hown mem rfl).trans h.place, h.eois⟩
  | irq portsc =>
      have hcall := hconsumes portsc rfl
      by_cases hvalid : s.xhci.Valid
      · have hfound : (s.exec (.irq portsc)).found = s.xhci.place :: s.found := if_pos hvalid
        refine ⟨?_, ?_, ?_⟩
        · rw [hfound, List.length_cons, places_cons, ← h.place, ← h.found]
        · rw [hfound, List.length_cons, Function.iterate_succ_apply', ← h.place]
          exact hcall.place hvalid
        · rw [hfound, List.length_cons, ← Nat.add_assoc, ← h.eois]
          exact hcall.eoi hvalid
      · have hfound : (s.exec (.irq portsc)).found = s.found := if_neg hvalid
        have hsame : (s.exec (.irq portsc)).xhci = s.xhci := Xhci.handler_invalid hvalid
        refine ⟨?_, ?_, ?_⟩
        · rw [hfound]
          exact h.found
        · rw [hfound, hsame]
          exact h.place
        · rw [hfound, hsame]
          exact h.eois

/-- In an ordered run no two calls in a row are for the same event. -/
theorem InOrder.isChain {x : Xhci} {s : RingRun} (h : s.InOrder x) :
    s.found.IsChain (fun later earlier => later = earlier.next ∧ later ≠ earlier) := by
  rw [h.found]
  generalize s.found.length = n
  induction n with
  | zero => exact List.isChain_nil
  | succ n ih =>
      rw [places_cons]
      cases n with
      | zero => exact List.isChain_singleton _
      | succ n =>
          rw [places_cons] at ih ⊢
          refine List.isChain_cons_cons.mpr ⟨?_, ih⟩
          rw [Function.iterate_succ_apply']
          exact ⟨rfl, RingPlace.next_ne _⟩

end RingRun

/-- In a run of the handler every call consumes its event exactly if none is for an event
that the handler drops: a port status change of a port that is not there, of a second
keyboard or of a second mouse. Then each event is found one place after the one before
it, and is acknowledged once. -/
theorem events_consumed_iff (x : Xhci) (events : List RingEvent) (t : RingRun) :
    (Run (fun s e s' => s.Step e s' ∧ s.Consumes e s') (RingRun.start x) events t ↔
        Run (fun s e s' => s.Step e s' ∧ ¬ s.Drops e) (RingRun.start x) events t) ∧
      (Run (fun s e s' => s.Step e s' ∧ ¬ s.Drops e) (RingRun.start x) events t →
        t.InOrder x ∧
          t.found.IsChain (fun later earlier => later = earlier.next ∧ later ≠ earlier)) := by
  have hiff : Run (fun s e s' => s.Step e s' ∧ s.Consumes e s') (RingRun.start x) events t ↔
      Run (fun s e s' => s.Step e s' ∧ ¬ s.Drops e) (RingRun.start x) events t := by
    refine Run.congr_along (fun _ => True) ?_ (fun _ _ _ _ _ _ => trivial) trivial
    rintro s e s' - ⟨-, rfl⟩
    exact s.consumes_iff e
  refine ⟨hiff, fun hrun => ?_⟩
  have horder := (hiff.mpr hrun).invariant (RingRun.InOrder x)
    (fun _ _ _ h hstep => h.step hstep.1 hstep.2) (RingRun.inOrder_start x)
  exact ⟨horder, horder.isChain⟩

namespace Sample

/-- A high speed device at port 2, when there is a keyboard already. -/
def secondKeyboard : Xhci :=
  { mem := fun p =>
      if p = 0x1003#64 then 2#8 else if p = 0x1010#64 then 1#8
      else if p = 0x1011#64 then 0x80#8 else if p = 0x1088#64 then 1#8 else 0#8
    eventRing := 0x1000#64
    erstTable :=
      { ringSegmentBaseAddress := 0x1000#64, ringSegmentSize := 16#32, reserved := 0#32 }
    haveKeyboard := true
    haveMouse := false
    eois := 0 }

end Sample

open Sample in
/-- Two calls find the event of the second keyboard; it is never acknowledged, and the
handler would find it again. -/
theorem second_keyboard_stalls :
    ∃ t, Run RingRun.Step (RingRun.start secondKeyboard)
        [.irq (fun _ => 0xC01#32), .irq (fun _ => 0xC01#32)] t ∧
      t.found = [{ index := 0#64, cycle := 1#8 }, { index := 0#64, cycle := 1#8 }] ∧
      t.xhci.eois = 0 ∧
      ¬ Run (fun s e s' => s.Step e s' ∧ s.Consumes e s') (RingRun.start secondKeyboard)
        [.irq (fun _ => 0xC01#32), .irq (fun _ => 0xC01#32)] t := by
  have hstep : ∀ s : RingRun, s.Step (.irq (fun _ => 0xC01#32)) (s.exec (.irq (fun _ => 0xC01#32))) :=
    fun s => ⟨fun mem h => (by cases h), rfl⟩
  refine ⟨_, Run.cons (hstep _) (Run.cons (hstep _) (Run.nil _)), ?_, ?_, ?_⟩
  · decide
  · decide
  · rintro (_ | ⟨⟨⟨-, rfl⟩, hfirst⟩, -⟩)
    exact absurd ((hfirst _ rfl).eoi (by decide)) (by decide)

end Asnu
