import Asnu.Idt.Dispatch

/-!
Ends of interrupts. The command that a handler sends ends the service of its own line; the
handler of the keyboard sends it twice.
-/

namespace Asnu.Irq

open Lib

/-- The same lines are in service. -/
def SameService (p q : Pics) : Prop :=
  q.master.service.inService = p.master.service.inService ∧
    q.slave.service.inService = p.slave.service.inService

/-- The end of `idt_keyboard_handler`. -/
def idtKeyboardHandlerEnd (p : Pics) : Pics :=
  (idtPicSendEoi p 1#8).outb pic1Command picEoi

section Eoi

variable {p q : Pics} {s t : Interrupts} {a : Lines} {v : BitVec 8} {n : Nat}

theorem joined_inService (p : Pics) :
    p.joined.service.inService = p.master.service.inService := by
  unfold Pics.joined
  split
  · rfl
  · rfl

/-- A line of the first controller that is taken and ended. -/
theorem master_finish_accept (h : p.Programmed) {l : Nat} (hl : p.joined.pending = some l) :
    ((p.master.accept l).service.finish 8).inService = p.master.service.inService := by
  obtain ⟨hlt, -, -, hfree, -⟩ := Service.pending_eq_some_iff.mp hl
  rw [joined_inService] at hfree
  rw [Chip.accept_eq h.masterEoi]
  exact Service.finish_take hlt hfree

theorem slave_finish_accept (h : p.Programmed) {k : Nat} (hk : p.slave.pending = some k) :
    ((p.slave.accept k).service.finish 8).inService = p.slave.service.inService := by
  obtain ⟨hlt, -, -, hfree, -⟩ := Service.pending_eq_some_iff.mp hk
  rw [Chip.accept_eq h.slaveEoi]
  exact Service.finish_take hlt hfree

/-- The number of an interrupt says which line it is for. -/
theorem line_of_vector {m n : Nat} (hm : m < 16) (hn : n < 16)
    (h : BitVec.ofNat 8 (0x20 + m) = BitVec.ofNat 8 (0x20 + n)) : m = n := by
  have hnat := congrArg BitVec.toNat h
  rw [BitVec.toNat_ofNat, BitVec.toNat_ofNat] at hnat
  omega

/-- The end-of-interrupt command for the line of an interrupt undoes what the answer to the
CPU did to the lines in service. -/
theorem Agrees.eoi_restores (h : Agrees s a) (hint : s.interrupt = some (v, t)) (hn : n < 16)
    (hv : v = BitVec.ofNat 8 (0x20 + n)) :
    SameService s.pics (idtPicSendEoi t.pics (BitVec.ofNat 8 n)) := by
  have hsecond : ∀ n < 16, BitVec.ofNat 8 n ≥ 8#8 ↔ 8 ≤ n := by decide
  have hack := Interrupts.acknowledged hint
  rw [Pics.idtPicSendEoi_eq]
  simp only [hsecond n hn]
  rcases Pics.acknowledge_cases h.programmed hack with
    ⟨l, hl, -, hvl, hpics⟩ | ⟨k, hl, hk, hvk, hpics⟩
  · have hlt := (Service.pending_eq_some_iff.mp hl).1
    rw [hv, Pics.master_vector h.programmed hlt] at hvl
    obtain rfl := line_of_vector hn (by omega) hvl
    rw [if_neg (by omega), hpics]
    exact ⟨master_finish_accept h.programmed hl, rfl⟩
  · have hlt := (Service.pending_eq_some_iff.mp hk).1
    rw [hv, Pics.slave_vector h.programmed hlt] at hvk
    obtain rfl := line_of_vector hn (by omega) hvk
    rw [if_pos (by omega), hpics]
    exact ⟨master_finish_accept h.programmed hl, slave_finish_accept h.programmed hk⟩

/-- A second command for the first controller ends the service of another line, if there is
one. -/
theorem SameService.outb_eoi_iff (h : SameService p q) :
    SameService p (q.outb pic1Command picEoi) ↔
      ∀ l < 8, p.master.service.inService l = false := by
  have hnone : (∀ l < 8, p.master.service.inService l = false) ↔
      (q.master.service.finish 8).inService = q.master.service.inService := by
    rw [Service.finish_inService_iff, h.1]
  rw [hnone]
  constructor
  · exact fun hsame => hsame.1.trans h.1.symm
  · exact fun hsame => ⟨hsame.trans h.1, h.2⟩

end Eoi

/-- In any run from `idt_init` on: the command that ends the interrupt of a line ends just the
service that the interrupt began, and the same command once more changes nothing exactly if the
interrupt came while no line of the first controller was in service. -/
theorem interrupt_ended (h : Handlers) {s₀ s t : Interrupts} {events : List Event}
    (hrun : Run Interrupts.Step (idtInit h s₀) events s) {v : BitVec 8} {n : Nat}
    (hint : s.interrupt = some (v, t)) (hn : n < 16) (hv : v = BitVec.ofNat 8 (0x20 + n)) :
    SameService s.pics (idtPicSendEoi t.pics (BitVec.ofNat 8 n)) ∧
      (SameService s.pics ((idtPicSendEoi t.pics (BitVec.ofNat 8 n)).outb pic1Command picEoi) ↔
        ∀ l < 8, s.pics.master.service.inService l = false) := by
  have hrestored := (agrees_of_run h hrun).eoi_restores hint hn hv
  exact ⟨hrestored, hrestored.outb_eoi_iff⟩

/-- Line 12, which ends its service at both controllers. -/
theorem interrupt_ended_mouse :
    ∃ t, (Sample.after Sample.mouse).interrupt = some (0x2c#8, t) ∧
      SameService (Sample.after Sample.mouse).pics (idtPicSendEoi t.pics 12#8) := by
  have hint : (Sample.after Sample.mouse).interrupt = some (0x2c#8, _) := rfl
  exact ⟨_, hint,
    (interrupt_ended Sample.handlers Sample.mouse_run hint (n := 12) (by decide) rfl).1⟩

/-! ### The timer and the keyboard -/

/-- No call unmasks another line than the two of `idt_init`, or replaces their gates. -/
def Event.Quiet : Event → Prop
  | .clearMask irqLine => irqLine = 0#8 ∨ irqLine = 1#8
  | .setDesc vector _ _ => vector ≠ 0x20#8 ∧ vector ≠ 0x21#8
  | _ => True

/-- Only the timer and the keyboard are unmasked or in service, and they have their gates. -/
structure TwoLines (h : Handlers) (s : Interrupts) (a : Lines) : Prop where
  agrees : Agrees s a
  masked : ∀ n < 16, 2 ≤ n → a.masked n = true
  timer : a.gates 0x20#8 = kernelGate h.pitHandler interruptGate
  keyboard : a.gates 0x21#8 = kernelGate h.idtKeyboardHandler interruptGate
  served : ∀ l, s.pics.master.service.inService l = true → l < 2

theorem idtInit_twoLines (h : Handlers) (s : Interrupts) :
    TwoLines h (idtInit h s) (.initial h (fun v => (s.idt v).gate)) where
  agrees := idtInit_agrees h s
  masked := fun n _ hn => decide_eq_true (by omega)
  timer := rfl
  keyboard := rfl
  served := by
    rw [idtInit_pics]
    exact fun l hl => absurd hl Bool.false_ne_true

section TwoLines

variable {h : Handlers} {s t : Interrupts} {a : Lines} {v : BitVec 8}

/-- An interrupt is one of the two. -/
theorem TwoLines.interrupt (ht : TwoLines h s a) (hint : s.interrupt = some (v, t)) :
    ∃ l < 2, s.pics.joined.pending = some l ∧ v = BitVec.ofNat 8 (0x20 + l) ∧
      t.pics = { s.pics with master := s.pics.master.accept l } := by
  have hlow : ∀ l, s.pics.joined.pending = some l → l < 2 := by
    intro l hl
    obtain ⟨hlt, hmasked⟩ := ht.agrees.pending_unmasked hl
    by_contra hge
    rw [ht.masked l (by omega) (by omega)] at hmasked
    cases hmasked
  rcases Pics.acknowledge_cases ht.agrees.programmed (Interrupts.acknowledged hint) with
    ⟨l, hl, -, hv, hpics⟩ | ⟨k, hl, -⟩
  · have hlt := hlow l hl
    exact ⟨l, hlt, hl, hv.trans (Pics.master_vector ht.agrees.programmed (by omega)), hpics⟩
  · exact absurd (hlow 2 hl) (by decide)

theorem TwoLines.step {e : Event} (ht : TwoLines h s a) (hstep : s.Step e t) (hquiet : e.Quiet) :
    TwoLines h t (a.next e) := by
  have hagrees := ht.agrees.step hstep
  have hsame : t.pics.master.service.inService = s.pics.master.service.inService →
      ∀ l, t.pics.master.service.inService l = true → l < 2 := by
    intro heq
    rw [heq]
    exact ht.served
  unfold Interrupts.Step at hstep
  cases e with
  | raise n =>
      simp only [Interrupts.exec, Option.ite_none_right_eq_some, Option.some.injEq] at hstep
      obtain ⟨-, rfl⟩ := hstep
      refine ⟨hagrees, ht.masked, ht.timer, ht.keyboard, hsame ?_⟩
      unfold Pics.raise
      split
      · rfl
      · rfl
  | interrupt =>
      obtain ⟨⟨v, t'⟩, hint, rfl⟩ := Option.map_eq_some_iff.mp hstep
      obtain ⟨k, hk, -, -, hpics⟩ := ht.interrupt hint
      refine ⟨hagrees, ht.masked, ht.timer, ht.keyboard, fun l hl => ?_⟩
      change t'.pics.master.service.inService l = true at hl
      rw [hpics, Chip.accept_eq ht.agrees.programmed.masterEoi] at hl
      by_cases hlk : l = k
      · exact hlk ▸ hk
      · exact ht.served l ((Function.update_of_ne hlk _ _).symm.trans hl)
  | eoi irq =>
      cases hstep
      refine ⟨hagrees, ht.masked, ht.timer, ht.keyboard, fun l hl => ?_⟩
      rw [Pics.idtPicSendEoi_eq] at hl
      exact ht.served l (Service.finish_inService_le hl)
  | setFlag flag =>
      cases hstep
      exact ⟨hagrees, ht.masked, ht.timer, ht.keyboard, ht.served⟩
  | setMask irqLine =>
      simp only [Interrupts.exec, Option.ite_none_right_eq_some, Option.some.injEq] at hstep
      obtain ⟨hline, rfl⟩ := hstep
      have hchanged := irqChangeMask_changed puts_set ht.agrees.programmed hline
      refine ⟨hagrees, fun n hn hge => ?_, ht.timer, ht.keyboard,
        hsame (congrArg Service.inService hchanged.master)⟩
      change Function.update a.masked irqLine.toNat true n = true
      rw [Function.update_apply, ht.masked n hn hge, ite_self]
  | clearMask irqLine =>
      simp only [Interrupts.exec, Option.ite_none_right_eq_some, Option.some.injEq] at hstep
      obtain ⟨hline, rfl⟩ := hstep
      have hchanged := irqChangeMask_changed puts_clear ht.agrees.programmed hline
      refine ⟨hagrees, fun n hn hge => ?_, ht.timer, ht.keyboard,
        hsame (congrArg Service.inService hchanged.master)⟩
      have hne : n ≠ irqLine.toNat := by
        rcases hquiet with rfl | rfl
        · exact Nat.ne_of_gt (Nat.lt_of_lt_of_le (by decide) hge)
        · exact Nat.ne_of_gt (Nat.lt_of_lt_of_le (by decide) hge)
      exact (Function.update_of_ne hne _ _).trans (ht.masked n hn hge)
  | setDesc vector isr flags =>
      cases hstep
      exact ⟨hagrees, ht.masked, (Function.update_of_ne hquiet.1.symm _ _).trans ht.timer,
        (Function.update_of_ne hquiet.2.symm _ _).trans ht.keyboard, ht.served⟩

/-- Nothing is in service when the keyboard interrupts. -/
theorem TwoLines.idle_of_keyboard (ht : TwoLines h s a) (hint : s.interrupt = some (v, t))
    (hv : v = 0x21#8) : ∀ l < 8, s.pics.master.service.inService l = false := by
  obtain ⟨k, hk, hpending, hvk, -⟩ := ht.interrupt hint
  obtain rfl : 1 = k := line_of_vector (by decide) (by omega) (hv.symm.trans hvk)
  obtain ⟨-, -, -, hfree, -⟩ := Service.pending_eq_some_iff.mp hpending
  rw [joined_inService] at hfree
  intro l _
  by_cases hl : l ≤ 1
  · exact hfree l hl
  · rw [← Bool.not_eq_true]
    exact fun hserved => hl (Nat.le_of_lt_succ (ht.served l hserved))

end TwoLines

/-- As long as only the timer and the keyboard are unmasked, every interrupt goes to one of
their two handlers, and that of the keyboard, which ends its interrupt twice, ends no other. -/
theorem two_lines_handled (h : Handlers) {s₀ s t : Interrupts} {events : List Event}
    (hrun : Run (fun s e t => Interrupts.Step s e t ∧ e.Quiet) (idtInit h s₀) events s)
    {v : BitVec 8} (hint : s.interrupt = some (v, t)) :
    (v = 0x20#8 ∧ (s.idt v).gate = kernelGate h.pitHandler interruptGate) ∨
      (v = 0x21#8 ∧ (s.idt v).gate = kernelGate h.idtKeyboardHandler interruptGate ∧
        SameService s.pics (idtKeyboardHandlerEnd t.pics)) := by
  have hkeep : ∀ s e t a, TwoLines h s a → Interrupts.Step s e t ∧ e.Quiet →
      TwoLines h t (Lines.next a e) := fun _ _ _ _ hs hstep => hs.step hstep.1 hstep.2
  have htwo := hrun.simulates (TwoLines h) hkeep (idtInit_twoLines h s₀)
  obtain ⟨l, hl, -, hv, -⟩ := htwo.interrupt hint
  have hgate := htwo.agrees.gates v
  rcases Nat.lt_succ_iff_lt_or_eq.mp hl with hzero | rfl
  · obtain rfl : l = 0 := by omega
    exact Or.inl ⟨hv, by rw [hgate, hv]; exact htwo.timer⟩
  · have hrestored := htwo.agrees.eoi_restores hint (by decide) hv
    refine Or.inr ⟨hv, by rw [hgate, hv]; exact htwo.keyboard, ?_⟩
    exact hrestored.outb_eoi_iff.mpr (htwo.idle_of_keyboard hint hv)

/-- A key behind a tick of the timer that has come to its end. -/
def Sample.keyPressed : List Event :=
  [.raise 0, .interrupt, .eoi 0#8, .setFlag true, .raise 1]

theorem two_lines_handled_key :
    ∃ t, (Sample.after Sample.keyPressed).interrupt = some (0x21#8, t) ∧
      SameService (Sample.after Sample.keyPressed).pics (idtKeyboardHandlerEnd t.pics) := by
  have hrun : Run (fun s e t => Interrupts.Step s e t ∧ e.Quiet)
      (idtInit Sample.handlers Sample.reset) Sample.keyPressed (Sample.after Sample.keyPressed) :=
    .cons ⟨rfl, trivial⟩ (.cons ⟨rfl, trivial⟩ (.cons ⟨rfl, trivial⟩ (.cons ⟨rfl, trivial⟩
      (.cons ⟨rfl, trivial⟩ (.nil _)))))
  have hint : (Sample.after Sample.keyPressed).interrupt = some (0x21#8, _) := rfl
  rcases two_lines_handled Sample.handlers hrun hint with ⟨hv, -⟩ | ⟨-, -, hsame⟩
  · exact absurd hv (by decide)
  · exact ⟨_, hint, hsame⟩

end Asnu.Irq
