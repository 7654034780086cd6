import Asnu.Drivers.Keyboard

/-!
`kbd_getc` one access at a time, with keyboard interrupts in between. Every
character stored in the buffer is numbered, and every cell carries the number
of the character in it, so that a character returned can be traced to the push
it came from. An overflow overwrites all cells, which then hold no character.
-/

namespace Asnu

open Lib

/-- A character read from a cell, and the number of the push that put it there. -/
abbrev Traced := BitVec 8 × Option Nat

/-- The access that `kbd_getc` makes next, with what it has read so far. -/
inductive Access where
  | outside
  | test
  | readCell
  | readTail (c : Traced)
  | writeTail (c : Traced) (tail : BitVec 16)
  | count (c : Traced)
  deriving DecidableEq

/-- The test of head against tail has been passed, and tail is not yet written. -/
def Access.InWindow : Access → Prop
  | .outside | .test | .count _ => False
  | .readCell | .readTail _ | .writeTail _ _ => True

instance : (a : Access) → Decidable a.InWindow
  | .outside | .test | .count _ => inferInstanceAs (Decidable False)
  | .readCell | .readTail _ | .writeTail _ _ => inferInstanceAs (Decidable True)

structure Reader where
  kbd : Kbd
  access : Access := .outside
  /-- The number of the character in each cell. -/
  tags : Nat → Option Nat := fun _ => none
  /-- The characters stored so far; the first has number 0. -/
  pushed : List (BitVec 8) := []
  /-- What the calls have returned so far, oldest first. -/
  returned : List Traced := []

/-- A keyboard interrupt that pushes `c`, a call of `kbd_getc`, or the next
access of the call. -/
inductive ReaderEvent where
  | interrupt (c : BitVec 8)
  | call
  | access
  deriving DecidableEq

namespace Reader

def start (k : Kbd) : Reader := { kbd := initKeyboardDriver k }

/-- An interrupt with `c` would overflow the buffer. -/
def Overflows (r : Reader) (c : BitVec 8) : Prop :=
  ¬ r.kbd.Ignores c ∧ kbdNext r.kbd.head = r.kbd.tail

instance (r : Reader) (c : BitVec 8) : Decidable (r.Overflows c) :=
  inferInstanceAs (Decidable (_ ∧ _))

def interrupt (r : Reader) (c : BitVec 8) : Reader :=
  if r.kbd.Ignores c then { r with kbd := kbdPushback r.kbd c }
  else if kbdNext r.kbd.head = r.kbd.tail then
    { r with kbd := kbdPushback r.kbd c, tags := fun _ => none }
  else
    { r with
      kbd := kbdPushback r.kbd c
      tags := fun i => if i = r.kbd.head.toNat then some r.pushed.length else r.tags i
      pushed := r.pushed ++ [c] }

/-- What reading cell `i` gives. -/
def cell (r : Reader) (i : Nat) : Traced := (r.kbd.buf i, r.tags i)

/-- A call begins when none is in progress. -/
def call (r : Reader) : Reader :=
  match r.access with
  | .outside => { r with kbd := { r.kbd with bufferingRead := true }, access := .test }
  | _ => r

def next (r : Reader) : Reader :=
  match r.access with
  | .outside => r
  | .test => if r.kbd.head = r.kbd.tail then r else { r with access := .readCell }
  | .readCell => { r with access := .readTail (r.cell r.kbd.tail.toNat) }
  | .readTail c => { r with access := .writeTail c r.kbd.tail }
  | .writeTail c tail => { r with kbd := { r.kbd with tail := kbdNext tail }, access := .count c }
  | .count c =>
      { r with
        kbd := { r.kbd with bufferingRead := false, cursorRead := r.kbd.cursorRead + 1#32 }
        access := .outside
        returned := r.returned ++ [c] }

def exec (r : Reader) : ReaderEvent → Reader
  | .interrupt c => r.interrupt c
  | .call => r.call
  | .access => r.next

def Step (r : Reader) (e : ReaderEvent) (r' : Reader) : Prop := r' = r.exec e

/-- `c` is the character pushed with the number it carries, and that number is
below `n`. -/
def Comes (r : Reader) (n : Nat) (c : Traced) : Prop :=
  ∃ m < n, c.2 = some m ∧ r.pushed[m]? = some c.1

/-- The characters were pushed in this order. -/
def InOrder (c d : Traced) : Prop := ∀ m n, c.2 = some m → d.2 = some n → m < n

/-- What has been returned was in the buffer when it was read, nothing twice,
and in the order of the pushes. -/
structure Faithful (r : Reader) : Prop where
  comes : ∀ c ∈ r.returned, r.Comes r.pushed.length c
  ordered : r.returned.Pairwise InOrder

/-- The interrupt does not overflow the buffer while `kbd_getc` is between its
test and its write of the tail. -/
def Undisturbed (r : Reader) : ReaderEvent → Prop
  | .interrupt c => r.access.InWindow → ¬ r.Overflows c
  | .call | .access => True

instance (r : Reader) : (e : ReaderEvent) → Decidable (r.Undisturbed e)
  | .interrupt _ => inferInstanceAs (Decidable (_ → _))
  | .call | .access => inferInstanceAs (Decidable True)

/-- The characters in the buffer with their numbers, oldest first. -/
def queue (r : Reader) : List Traced :=
  Circular.contents kbdBufSize r.cell r.kbd.head.toNat r.kbd.tail.toNat

end Reader

/-- The characters from number `first` on, with their numbers. -/
def numbered (pushed : List (BitVec 8)) (first : Nat) : List Traced :=
  ((pushed.drop first).zipIdx first).map (fun x => (x.1, some x.2))

theorem numbered_length (pushed : List (BitVec 8)) : numbered pushed pushed.length = [] := by
  simp [numbered]

theorem numbered_append {pushed : List (BitVec 8)} {first : Nat} (c : BitVec 8)
    (h : first ≤ pushed.length) :
    numbered (pushed ++ [c]) first = numbered pushed first ++ [(c, some pushed.length)] := by
  have hlen : first + (pushed.drop first).length = pushed.length := by
    rw [List.length_drop, Nat.add_sub_cancel' h]
  rw [numbered, List.drop_append_of_le_length h, List.zipIdx_append, hlen]
  simp [numbered]

/-- The first of them is the one with number `first`. -/
theorem numbered_cons {pushed : List (BitVec 8)} {first : Nat} {c : Traced}
    {rest : List Traced} (h : numbered pushed first = c :: rest) :
    c.2 = some first ∧ pushed[first]? = some c.1 ∧ rest = numbered pushed (first + 1) := by
  cases hdrop : pushed.drop first with
  | nil => simp [numbered, hdrop] at h
  | cons x xs =>
      have hhead : pushed[first]? = some x := by
        have hget : (pushed.drop first)[0]? = pushed[first + 0]? := List.getElem?_drop
        rw [hdrop] at hget
        exact hget.symm
      have htail : pushed.drop (first + 1) = xs := by
        rw [← List.tail_drop, hdrop, List.tail_cons]
      simp only [numbered, hdrop, List.zipIdx_cons, List.map_cons, List.cons.injEq] at h
      obtain ⟨rfl, rfl⟩ := h
      exact ⟨rfl, hhead, by rw [numbered, htail]⟩

namespace Reader

/-- What `kbd_getc` has read is still there, and has a number below `first` once
the tail is past it. -/
def Reading (r : Reader) (first : Nat) : Prop :=
  match r.access with
  | .outside | .test => True
  | .readCell => r.kbd.head ≠ r.kbd.tail
  | .readTail c => r.kbd.head ≠ r.kbd.tail ∧ c = r.cell r.kbd.tail.toNat
  | .writeTail c tail =>
      r.kbd.head ≠ r.kbd.tail ∧ c = r.cell r.kbd.tail.toNat ∧ tail = r.kbd.tail
  | .count c => r.Comes first c ∧ ∀ d ∈ r.returned, InOrder d c

/-- The buffer holds the characters from number `first` on, and those returned
have smaller numbers. -/
structure Sound (r : Reader) (first : Nat) : Prop where
  fits : r.kbd.Fits
  queue : r.queue = numbered r.pushed first
  first_le : first ≤ r.pushed.length
  past : ∀ c ∈ r.returned, r.Comes first c
  ordered : r.returned.Pairwise InOrder
  reading : r.Reading first

theorem Comes.mono {r r' : Reader} {m n : Nat} {c : Traced} (h : r.Comes m c) (hmn : m ≤ n)
    (hpushed : r.pushed <+: r'.pushed) : r'.Comes n c := by
  obtain ⟨k, hk, htag, hchar⟩ := h
  obtain ⟨more, hmore⟩ := hpushed
  have hlt := (List.getElem?_eq_some_iff.mp hchar).1
  refine ⟨k, Nat.lt_of_lt_of_le hk hmn, htag, ?_⟩
  rw [← hmore, List.getElem?_append_left hlt, hchar]

theorem Sound.faithful {r : Reader} {first : Nat} (h : r.Sound first) : r.Faithful where
  comes := fun c hc => (h.past c hc).mono h.first_le List.prefix_rfl
  ordered := h.ordered

theorem sound_start (k : Kbd) : (start k).Sound 0 where
  fits := Kbd.fits_init k
  queue := Circular.contents_self _ (show (0#16).toNat < kbdBufSize by decide)
  first_le := Nat.le_refl 0
  past := by simp [start]
  ordered := List.Pairwise.nil
  reading := trivial

variable {r : Reader} {first : Nat} {c : BitVec 8}

theorem interrupt_ignored (h : r.kbd.Ignores c) : r.interrupt c = r := by
  rw [interrupt, if_pos h, Kbd.pushback_ignored h]

/-- From `r` to `r'` an interrupt has happened that `kbd_getc` does not notice
but in the buffer. -/
structure Passes (r r' : Reader) : Prop where
  access : r'.access = r.access
  returned : r'.returned = r.returned
  pushed : r.pushed <+: r'.pushed

/-- The interrupt empties the buffer. -/
structure Cleared (r r' : Reader) : Prop extends Passes r r' where
  head : r'.kbd.head = 0#16
  tail : r'.kbd.tail = 0#16
  none_pushed : r'.pushed = r.pushed

/-- The interrupt stores `c` at the head. -/
structure Stored (r r' : Reader) (c : BitVec 8) : Prop extends Passes r r' where
  head : r'.kbd.head = kbdNext r.kbd.head
  tail : r'.kbd.tail = r.kbd.tail
  cell : ∀ i, r'.cell i =
    if i = r.kbd.head.toNat then (c, some r.pushed.length) else r.cell i
  one_pushed : r'.pushed = r.pushed ++ [c]

theorem interrupt_cleared (h : ¬ r.kbd.Ignores c)
    (hfull : kbdNext r.kbd.head = r.kbd.tail) : Cleared r (r.interrupt c) := by
  have heq : r.interrupt c =
      { r with kbd := overflowKbdBfr r.kbd, tags := fun _ => none } := by
    rw [interrupt, if_neg h, if_pos hfull, Kbd.pushback_overflow h hfull]
  rw [heq]
  exact ⟨⟨rfl, rfl, List.prefix_rfl⟩, rfl, rfl, rfl⟩

theorem interrupt_stored (h : ¬ r.kbd.Ignores c)
    (hroom : kbdNext r.kbd.head ≠ r.kbd.tail) : Stored r (r.interrupt c) c := by
  rw [interrupt, if_neg h, if_neg hroom, Kbd.pushback_stored h hroom]
  refine ⟨⟨rfl, rfl, List.prefix_append _ _⟩, rfl, rfl, fun i => ?_, rfl⟩
  simp only [Reader.cell]
  split <;> rfl

theorem interrupt_access (r : Reader) (c : BitVec 8) : (r.interrupt c).access = r.access := by
  rcases r.kbd.pushback_cases c with hign | ⟨hign, hroom⟩ | ⟨hign, hfull⟩
  · rw [interrupt_ignored hign]
  · exact (interrupt_stored hign hroom).access
  · exact (interrupt_cleared hign hfull).access

/-- What a call in progress has read does not change, if it has looked at the
buffer only when this is still as it was. -/
theorem Reading.passes {r r' : Reader} {first n : Nat} (h : r.Reading first)
    (hpasses : Passes r r') (hn : first ≤ n)
    (hsame : r.access.InWindow → r'.kbd.head ≠ r'.kbd.tail ∧
      r'.kbd.tail = r.kbd.tail ∧ r'.cell r.kbd.tail.toNat = r.cell r.kbd.tail.toNat) :
    r'.Reading n := by
  unfold Reading at h ⊢
  rw [hpasses.access]
  cases haccess : r.access with
  | outside => trivial
  | test => trivial
  | readCell => exact (hsame (haccess ▸ trivial)).1
  | readTail d =>
      obtain ⟨hne, htail, hcell⟩ := hsame (haccess ▸ trivial)
      simp only [haccess] at h
      exact ⟨hne, by rw [htail, hcell, h.2]⟩
  | writeTail d tail =>
      obtain ⟨hne, htail, hcell⟩ := hsame (haccess ▸ trivial)
      simp only [haccess] at h
      exact ⟨hne, by rw [htail, hcell, h.2.1], by rw [htail, h.2.2]⟩
  | count d =>
      simp only [haccess] at h
      exact ⟨h.1.mono hn hpasses.pushed, by rw [hpasses.returned]; exact h.2⟩

theorem Reading.not_empty (h : r.Reading first) (hwindow : r.access.InWindow) :
    r.kbd.head ≠ r.kbd.tail := by
  unfold Reading at h
  cases haccess : r.access with
  | outside => simp [haccess, Access.InWindow] at hwindow
  | test => simp [haccess, Access.InWindow] at hwindow
  | readCell => simpa only [haccess] using h
  | readTail d =>
      simp only [haccess] at h
      exact h.1
  | writeTail d tail =>
      simp only [haccess] at h
      exact h.1
  | count d => simp [haccess, Access.InWindow] at hwindow

/-- A character is stored in a cell that a call in progress does not look at. -/
theorem Sound.stored (h : r.Sound first) (hign : ¬ r.kbd.Ignores c)
    (hroom : kbdNext r.kbd.head ≠ r.kbd.tail) : (r.interrupt c).Sound first := by
  have hstored := interrupt_stored hign hroom
  refine ⟨?_, ?_, ?_, fun d hd => ?_, ?_, ?_⟩
  · refine ⟨?_, hstored.tail ▸ h.fits.tail⟩
    rw [hstored.head, kbdNext_toNat]
    exact Circular.next_lt (by decide) _
  · have hpush := Circular.contents_push r.cell h.fits.head h.fits.tail
      (fun heq => hroom ((kbdNext_eq_iff _ _).mpr heq)) (c, some r.pushed.length)
    rw [Reader.queue, funext hstored.cell, hstored.head, hstored.tail, kbdNext_toNat, hpush,
      hstored.one_pushed, numbered_append c h.first_le, ← h.queue, Reader.queue]
  · exact Nat.le_trans h.first_le hstored.pushed.length_le
  · rw [hstored.returned] at hd
    exact (h.past d hd).mono (Nat.le_refl _) hstored.pushed
  · rw [hstored.returned]
    exact h.ordered
  · refine h.reading.passes hstored.toPasses (Nat.le_refl _) (fun hwindow => ?_)
    have hne := h.reading.not_empty hwindow
    refine ⟨hstored.head ▸ hstored.tail ▸ hroom, hstored.tail, ?_⟩
    rw [hstored.cell]
    exact if_neg (fun heq => hne (BitVec.eq_of_toNat_eq heq.symm))

/-- An overflow outside the window leaves an empty buffer, and no call that has
read anything from it. -/
theorem Sound.cleared (h : r.Sound first) (hign : ¬ r.kbd.Ignores c)
    (hfull : kbdNext r.kbd.head = r.kbd.tail) (hwindow : ¬ r.access.InWindow) :
    (r.interrupt c).Sound r.pushed.length := by
  have hcleared := interrupt_cleared hign hfull
  refine ⟨?_, ?_, hcleared.pushed.length_le, fun d hd => ?_, ?_, ?_⟩
  · exact ⟨hcleared.head ▸ by decide, hcleared.tail ▸ by decide⟩
  · rw [hcleared.none_pushed, numbered_length, Reader.queue, hcleared.head, hcleared.tail]
    exact Circular.contents_self _ (by decide)
  · rw [hcleared.returned] at hd
    exact (h.past d hd).mono h.first_le hcleared.pushed
  · rw [hcleared.returned]
    exact h.ordered
  · exact h.reading.passes hcleared.toPasses h.first_le (fun hin => absurd hin hwindow)

theorem Sound.interrupt (h : r.Sound first)
    (hundisturbed : r.Undisturbed (.interrupt c)) : ∃ n, (r.interrupt c).Sound n := by
  rcases r.kbd.pushback_cases c with hign | ⟨hign, hroom⟩ | ⟨hign, hfull⟩
  · rw [interrupt_ignored hign]
    exact ⟨first, h⟩
  · exact ⟨first, h.stored hign hroom⟩
  · exact ⟨_, h.cleared hign hfull (fun hwindow => hundisturbed hwindow ⟨hign, hfull⟩)⟩

/-- The write of the tail takes the oldest character out of the buffer. -/
theorem Sound.writeTail {d : Traced} {tail : BitVec 16} (h : r.Sound first)
    (haccess : r.access = .writeTail d tail) : r.next.Sound (first + 1) := by
  have hreading := h.reading
  simp only [Reading, haccess] at hreading
  obtain ⟨hne, hd, rfl⟩ := hreading
  have hnext : r.next = { r with
      kbd := { r.kbd with tail := kbdNext r.kbd.tail }
      access := .count d } := by simp only [next, haccess]
  have hpop := Circular.contents_pop r.cell h.fits.head h.fits.tail
    (fun heq => hne (BitVec.eq_of_toNat_eq heq))
  obtain ⟨htag, hchar, hrest⟩ := numbered_cons (h.queue.symm.trans hpop)
  rw [← hd] at htag hchar
  have hlt := (List.getElem?_eq_some_iff.mp hchar).1
  rw [hnext]
  refine ⟨⟨h.fits.head, ?_⟩, ?_, hlt, fun e he => ?_, h.ordered, ⟨?_, ?_⟩⟩
  · rw [kbdNext_toNat]
    exact Circular.next_lt (by decide) _
  · rw [Reader.queue, kbdNext_toNat, ← hrest]
    rfl
  · exact (h.past e he).mono (Nat.le_succ first) List.prefix_rfl
  · exact ⟨first, Nat.lt_succ_self first, htag, hchar⟩
  · intro e he m n hm hn
    obtain ⟨k, hk, hktag, _⟩ := h.past e he
    obtain rfl := Option.some.inj (hktag.symm.trans hm)
    obtain rfl := Option.some.inj (htag.symm.trans hn)
    exact hk

/-- A call that returns adds its character behind the others. -/
theorem Sound.count {d : Traced} (h : r.Sound first) (haccess : r.access = .count d) :
    r.next.Sound first := by
  have hreading := h.reading
  simp only [Reading, haccess] at hreading
  obtain ⟨hcomes, hlater⟩ := hreading
  have hnext : r.next = { r with
      kbd := { r.kbd with bufferingRead := false, cursorRead := r.kbd.cursorRead + 1#32 }
      access := .outside
      returned := r.returned ++ [d] } := by simp only [next, haccess]
  rw [hnext]
  refine ⟨⟨h.fits.head, h.fits.tail⟩, h.queue, h.first_le, fun e he => ?_, ?_, trivial⟩
  · rcases List.mem_append.mp he with he | he
    · exact h.past e he
    · obtain rfl := List.mem_singleton.mp he
      exact hcomes
  · refine List.pairwise_append.mpr ⟨h.ordered, List.pairwise_singleton _ _, ?_⟩
    intro e he f hf
    obtain rfl := List.mem_singleton.mp hf
    exact hlater e he

/-- The other accesses only read. -/
theorem Sound.read {access : Access} (h : r.Sound first)
    (hreading : Reading { r with access := access } first) :
    Sound { r with access := access } first :=
  ⟨h.fits, h.queue, h.first_le, h.past, h.ordered, hreading⟩

theorem Sound.next (h : r.Sound first) : ∃ n, r.next.Sound n := by
  have hreading := h.reading
  unfold Reading at hreading
  cases haccess : r.access with
  | outside => exact ⟨first, by simpa only [Reader.next, haccess] using h⟩
  | test =>
      by_cases hempty : r.kbd.head = r.kbd.tail
      · exact ⟨first, by simpa only [Reader.next, haccess, if_pos hempty] using h⟩
      · refine ⟨first, ?_⟩
        simp only [Reader.next, haccess, if_neg hempty]
        exact h.read hempty
  | readCell =>
      simp only [haccess] at hreading
      simp only [Reader.next, haccess]
      exact ⟨first, h.read ⟨hreading, rfl⟩⟩
  | readTail d =>
      simp only [haccess] at hreading
      simp only [Reader.next, haccess]
      exact ⟨first, h.read ⟨hreading.1, hreading.2, rfl⟩⟩
  | writeTail d tail => exact ⟨first + 1, h.writeTail haccess⟩
  | count d => exact ⟨first, h.count haccess⟩

theorem Sound.call (h : r.Sound first) : r.call.Sound first := by
  unfold Reader.call
  split
  · exact ⟨⟨h.fits.head, h.fits.tail⟩, h.queue, h.first_le, h.past, h.ordered, trivial⟩
  · exact h

theorem Sound.step {r' : Reader} {e : ReaderEvent} (h : r.Sound first)
    (hstep : r.Step e r') (hundisturbed : r.Undisturbed e) : ∃ n, r'.Sound n := by
  obtain rfl : r' = r.exec e := hstep
  cases e with
  | interrupt c => exact h.interrupt hundisturbed
  | call => exact ⟨first, h.call⟩
  | access => exact h.next

end Reader

/-- In every run in which no interrupt overflows the buffer between the test and
the write of the tail, what is returned was pushed, once and in that order. -/
theorem getc_faithful (k : Kbd) (es : List ReaderEvent) (r : Reader)
    (hrun : Run (fun r e r' => r.Step e r' ∧ r.Undisturbed e) (Reader.start k) es r) :
    r.Faithful := by
  have hsound : ∃ n, r.Sound n := by
    refine hrun.invariant (fun r => ∃ n, r.Sound n) ?_ ⟨0, Reader.sound_start k⟩
    rintro r e r' ⟨n, h⟩ ⟨hstep, hundisturbed⟩
    exact h.step hstep hundisturbed
  obtain ⟨n, h⟩ := hsound
  exact h.faithful

namespace Sample

/-- A call that returns the one character typed. -/
def readOne : List ReaderEvent :=
  [.interrupt 97#8, .call, .access, .access, .access, .access, .access]

/-- After `n` characters, which nobody has read. -/
def filled : Nat → Reader
  | 0 => Reader.start {}
  | n + 1 => (filled n).interrupt 97#8

theorem run_filled (n : Nat) :
    Run Reader.Step (Reader.start {}) (List.replicate n (.interrupt 97#8)) (filled n) := by
  induction n with
  | zero => exact Run.nil _
  | succ n ih =>
      rw [List.replicate_succ']
      exact ih.append (Run.cons rfl (Run.nil _))

theorem filled_spec {n : Nat} (hn : n ≤ 65534) :
    (filled n).kbd.head.toNat = n ∧ (filled n).kbd.tail = 0#16 ∧
      (filled n).access = .outside ∧ (filled n).returned = [] := by
  induction n with
  | zero => exact ⟨rfl, rfl, rfl, rfl⟩
  | succ n ih =>
      obtain ⟨hhead, htail, haccess, hreturned⟩ := ih (by omega)
      have hnext : (kbdNext (filled n).kbd.head).toNat = n + 1 := by
        rw [kbdNext_toNat, hhead, Circular.next, kbdBufSize, Nat.mod_eq_of_lt (by omega)]
      have hign : ¬ (filled n).kbd.Ignores 97#8 := fun h => absurd h.1 (by decide)
      have hroom : kbdNext (filled n).kbd.head ≠ (filled n).kbd.tail := by
        rw [htail]
        intro heq
        rw [heq] at hnext
        exact absurd hnext (by simp)
      have hstored := Reader.interrupt_stored hign hroom
      exact ⟨by rw [filled, hstored.head, hnext], hstored.tail.trans htail,
        hstored.access.trans haccess, hstored.returned.trans hreturned⟩

/-- An overflow just after the test makes the call return a cell of the empty
buffer. -/
theorem returned_late {r : Reader} (haccess : r.access = .outside)
    (hreturned : r.returned = []) (hne : r.kbd.head ≠ r.kbd.tail)
    (hfull : kbdNext r.kbd.head = r.kbd.tail) :
    (r.call.next.interrupt 97#8).next.next.next.next.returned = [(0#8, none)] := by
  have htest : r.call.next =
      { r with kbd := { r.kbd with bufferingRead := true }, access := .readCell } := by
    simp [Reader.call, Reader.next, haccess, hne]
  have hign : ¬ r.call.next.kbd.Ignores 97#8 := fun h => absurd h.1 (by decide)
  have hover : r.call.next.interrupt 97#8 =
      { r.call.next with kbd := overflowKbdBfr r.call.next.kbd, tags := fun _ => none } := by
    rw [Reader.interrupt, if_neg hign, Kbd.pushback_overflow hign (by rw [htest]; exact hfull),
      if_pos (by rw [htest]; exact hfull)]
  rw [hover, htest]
  simp [Reader.next, Reader.cell, overflowKbdBfr, hreturned, kbdBufSize]

end Sample

theorem getc_faithful_readOne : (Sample.readOne.foldl Reader.exec (Reader.start {})).Faithful :=
  getc_faithful {} Sample.readOne _
    (Run.cons ⟨rfl, by decide⟩ (Run.cons ⟨rfl, trivial⟩ (Run.cons ⟨rfl, trivial⟩
      (Run.cons ⟨rfl, trivial⟩ (Run.cons ⟨rfl, trivial⟩ (Run.cons ⟨rfl, trivial⟩
        (Run.cons ⟨rfl, trivial⟩ (Run.nil _))))))))

/-- With 65534 characters waiting, one more between the test and the read makes
`kbd_getc` return a NUL that nobody typed. -/
theorem getc_returns_unpushed :
    ¬ ∀ (k : Kbd) (es : List ReaderEvent) (r : Reader),
      Run Reader.Step (Reader.start k) es r → r.Faithful := by
  intro hclaim
  obtain ⟨hhead, htail, haccess, hreturned⟩ := Sample.filled_spec (Nat.le_refl 65534)
  have hne : (Sample.filled 65534).kbd.head ≠ (Sample.filled 65534).kbd.tail := by
    intro heq
    rw [heq, htail] at hhead
    exact absurd hhead (by decide)
  have hfull : kbdNext (Sample.filled 65534).kbd.head = (Sample.filled 65534).kbd.tail := by
    rw [kbdNext_eq_iff, hhead, htail]
    decide
  have hlast : Run Reader.Step (Sample.filled 65534)
      [.call, .access, .interrupt 97#8, .access, .access, .access, .access]
      ((Sample.filled 65534).call.next.interrupt 97#8).next.next.next.next :=
    Run.cons rfl (Run.cons rfl (Run.cons rfl (Run.cons rfl (Run.cons rfl
      (Run.cons rfl (Run.cons rfl (Run.nil _)))))))
  have hfaithful := hclaim _ _ _ ((Sample.run_filled 65534).append hlast)
  have hmem : ((0#8, none) : Traced) ∈
      ((Sample.filled 65534).call.next.interrupt 97#8).next.next.next.next.returned := by
    rw [Sample.returned_late haccess hreturned hne hfull]
    exact List.mem_singleton_self _
  obtain ⟨n, _, htag, _⟩ := hfaithful.comes _ hmem
  exact absurd htag (by simp)

end Asnu
