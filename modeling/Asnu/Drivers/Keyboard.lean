import Asnu.Lib.Circular
import Asnu.Lib.Run

/-!
The character buffer of the PS/2 keyboard driver: the interrupt side puts
characters in with `KbdPushback`, and `kbd_getc` takes them out. Echoing a
character to the screen is left out.
-/

namespace Asnu

open Lib

def kbdBufSize : Nat := 65535

def backspace : BitVec 8 := 8#8

structure Kbd where
  /-- `kbd_drvr_buf`. -/
  buf : Nat → BitVec 8 := fun _ => 0#8
  /-- `kbd_buf_head` and `kbd_buf_tail`. -/
  head : BitVec 16 := 0#16
  tail : BitVec 16 := 0#16
  bufferingRead : Bool := false
  cursorRead : BitVec 32 := 0#32

/-- `(i + 1) % KBD_BUF_SIZE`, cut to 16 bits. -/
def kbdNext (i : BitVec 16) : BitVec 16 := BitVec.ofNat 16 ((i.toNat + 1) % kbdBufSize)

def overflowKbdBfr (k : Kbd) : Kbd :=
  { k with
    head := 0#16
    tail := 0#16
    buf := fun i => if i < kbdBufSize then 0#8 else k.buf i }

def kbdPushback (k : Kbd) (c : BitVec 8) : Kbd :=
  if c = backspace ∧ k.cursorRead = 0#32 then k
  else
    let next := kbdNext k.head
    if next ≠ k.tail then
      { k with
        buf := fun i => if i = k.head.toNat then c else k.buf i
        head := next }
    else overflowKbdBfr k

/-- A call that finds the buffer empty waits in its loop. -/
def kbdGetc (k : Kbd) : Option (BitVec 8 × Kbd) :=
  let k := { k with bufferingRead := true }
  if k.head = k.tail then none
  else
    let c := k.buf k.tail.toNat
    let k := { k with tail := kbdNext k.tail }
    let k := { k with bufferingRead := false }
    some (c, { k with cursorRead := k.cursorRead + 1#32 })

def initKeyboardDriver (k : Kbd) : Kbd := { k with head := 0#16, tail := 0#16 }

/-- `c` is put in, or a call of `kbd_getc` returns `c`. -/
inductive KbdEvent where
  | pushback (c : BitVec 8)
  | getc (c : BitVec 8)
  deriving DecidableEq

/-- What the events say was returned. -/
def KbdEvent.returned : KbdEvent → Option (BitVec 8)
  | .pushback _ => none
  | .getc c => some c

namespace Kbd

def Step (k : Kbd) (e : KbdEvent) (k' : Kbd) : Prop :=
  match e with
  | .pushback c => k' = kbdPushback k c
  | .getc c => kbdGetc k = some (c, k')

/-- Both indices are indices of the buffer. -/
structure Fits (k : Kbd) : Prop where
  head : k.head.toNat < kbdBufSize
  tail : k.tail.toNat < kbdBufSize

/-- The characters between the two indices, oldest first. -/
def contents (k : Kbd) : List (BitVec 8) :=
  Circular.contents kbdBufSize k.buf k.head.toNat k.tail.toNat

/-- `KbdPushback` returns at its first test. -/
def Ignores (k : Kbd) (c : BitVec 8) : Prop := c = backspace ∧ k.cursorRead = 0#32

instance (k : Kbd) (c : BitVec 8) : Decidable (k.Ignores c) :=
  inferInstanceAs (Decidable (_ ∧ _))

end Kbd

@[simp] theorem kbdNext_toNat (i : BitVec 16) :
    (kbdNext i).toNat = Circular.next kbdBufSize i.toNat := by
  have hlt := Circular.next_lt (n := kbdBufSize) (by decide) i.toNat
  rw [kbdNext, BitVec.toNat_ofNat]
  exact Nat.mod_eq_of_lt (Nat.lt_trans hlt (by decide))

theorem kbdNext_eq_iff (i j : BitVec 16) :
    kbdNext i = j ↔ Circular.next kbdBufSize i.toNat = j.toNat := by
  rw [← BitVec.toNat_inj, kbdNext_toNat]

namespace Kbd

theorem fits_init (k : Kbd) : (initKeyboardDriver k).Fits :=
  ⟨show (0#16).toNat < kbdBufSize by decide, show (0#16).toNat < kbdBufSize by decide⟩

theorem contents_init (k : Kbd) : (initKeyboardDriver k).contents = [] :=
  Circular.contents_self _ (show (0#16).toNat < kbdBufSize by decide)

variable {k : Kbd} {c : BitVec 8}

/-- An emptied buffer is read and written from the start. -/
theorem overflow_index (k : Kbd) :
    (overflowKbdBfr k).head.toNat = 0 ∧ (overflowKbdBfr k).tail.toNat = 0 := ⟨rfl, rfl⟩

theorem pushback_ignored (h : k.Ignores c) : kbdPushback k c = k := if_pos h

theorem pushback_stored (h : ¬ k.Ignores c) (hroom : kbdNext k.head ≠ k.tail) :
    kbdPushback k c =
      { k with
        buf := fun i => if i = k.head.toNat then c else k.buf i
        head := kbdNext k.head } :=
  (if_neg h).trans (if_pos hroom)

theorem pushback_overflow (h : ¬ k.Ignores c) (hfull : kbdNext k.head = k.tail) :
    kbdPushback k c = overflowKbdBfr k :=
  (if_neg h).trans (if_neg (fun hne => hne hfull))

/-- A push is ignored, stores, or overflows the buffer. -/
theorem pushback_cases (k : Kbd) (c : BitVec 8) :
    k.Ignores c ∨ (¬ k.Ignores c ∧ kbdNext k.head ≠ k.tail) ∨
      (¬ k.Ignores c ∧ kbdNext k.head = k.tail) := by
  by_cases h : k.Ignores c
  · exact Or.inl h
  · by_cases hfull : kbdNext k.head = k.tail
    · exact Or.inr (Or.inr ⟨h, hfull⟩)
    · exact Or.inr (Or.inl ⟨h, hfull⟩)

theorem pushback_cursorRead (k : Kbd) (c : BitVec 8) :
    (kbdPushback k c).cursorRead = k.cursorRead := by
  rcases k.pushback_cases c with h | ⟨h, hroom⟩ | ⟨h, hfull⟩
  · rw [pushback_ignored h]
  · rw [pushback_stored h hroom]
  · rw [pushback_overflow h hfull]
    rfl

/-- A call that returns takes the character at the tail. -/
theorem getc_eq_some {k' : Kbd} (h : kbdGetc k = some (c, k')) :
    k.head ≠ k.tail ∧ c = k.buf k.tail.toNat ∧
      k' = { k with
        tail := kbdNext k.tail
        bufferingRead := false
        cursorRead := k.cursorRead + 1#32 } := by
  simp only [kbdGetc] at h
  split at h
  · exact absurd h (by simp)
  · next hne =>
      obtain ⟨rfl, rfl⟩ := Prod.mk.inj (Option.some.inj h)
      exact ⟨hne, rfl, rfl⟩

theorem Fits.pushback (h : k.Fits) (c : BitVec 8) : (kbdPushback k c).Fits := by
  rcases k.pushback_cases c with hign | ⟨hign, hroom⟩ | ⟨hign, hfull⟩
  · rw [pushback_ignored hign]
    exact h
  · rw [pushback_stored hign hroom]
    exact ⟨by rw [kbdNext_toNat]; exact Circular.next_lt (by decide) _, h.tail⟩
  · rw [pushback_overflow hign hfull]
    obtain ⟨hhead, htail⟩ := k.overflow_index
    exact ⟨hhead ▸ by decide, htail ▸ by decide⟩

theorem Fits.getc {k' : Kbd} (h : k.Fits) (hgetc : kbdGetc k = some (c, k')) : k'.Fits := by
  obtain ⟨_, _, rfl⟩ := getc_eq_some hgetc
  exact ⟨h.head, by rw [kbdNext_toNat]; exact Circular.next_lt (by decide) _⟩

theorem Fits.step {k' : Kbd} {e : KbdEvent} (h : k.Fits) (hstep : k.Step e k') :
    k'.Fits := by
  cases e with
  | pushback c =>
      obtain rfl : k' = kbdPushback k c := hstep
      exact h.pushback c
  | getc c => exact h.getc hstep

theorem Fits.contents_stored (h : k.Fits) (hign : ¬ k.Ignores c)
    (hroom : kbdNext k.head ≠ k.tail) :
    (kbdPushback k c).contents = k.contents ++ [c] := by
  rw [pushback_stored hign hroom, contents, contents]
  simp only [kbdNext_toNat]
  apply Circular.contents_push k.buf h.head h.tail
  exact fun heq => hroom ((kbdNext_eq_iff _ _).mpr heq)

theorem contents_overflow (hign : ¬ k.Ignores c) (hfull : kbdNext k.head = k.tail) :
    (kbdPushback k c).contents = [] := by
  obtain ⟨hhead, htail⟩ := k.overflow_index
  rw [pushback_overflow hign hfull, contents, hhead, htail]
  exact Circular.contents_self _ (by decide)

/-- The buffer is full with one cell unused. -/
theorem Fits.full_iff (h : k.Fits) : kbdNext k.head = k.tail ↔ k.contents.length = 65534 := by
  rw [kbdNext_eq_iff, contents, Circular.length_contents]
  exact Circular.next_eq_iff h.head h.tail (by decide)

theorem Fits.length_contents_le (h : k.Fits) : k.contents.length ≤ 65534 := by
  have hlt := Circular.size_lt (t := k.tail.toNat) h.head
  rw [contents, Circular.length_contents]
  exact Nat.le_of_lt_succ hlt

theorem Fits.contents_getc {k' : Kbd} (h : k.Fits) (hgetc : kbdGetc k = some (c, k')) :
    k.contents = c :: k'.contents := by
  obtain ⟨hne, rfl, rfl⟩ := getc_eq_some hgetc
  simp only [contents, kbdNext_toNat]
  apply Circular.contents_pop k.buf h.head h.tail
  exact fun heq => hne (BitVec.eq_of_toNat_eq heq)

theorem Fits.getc_eq_none_iff (h : k.Fits) : kbdGetc k = none ↔ k.contents = [] := by
  have hsize := Circular.size_eq_zero_iff h.head h.tail
  rw [← List.length_eq_zero_iff, contents, Circular.length_contents, hsize, BitVec.toNat_inj]
  simp [kbdGetc]

end Kbd

/-- What the buffer is for: a queue of at most 65534 characters. Next to it
stand the characters that have been put in, returned, and lost in overflows. -/
structure KeyQueue where
  contents : List (BitVec 8)
  cursorRead : BitVec 32
  entered : List (BitVec 8)
  returned : List (BitVec 8)
  discarded : List (BitVec 8)
  bounded : contents.length ≤ 65534
  ordered : (returned ++ contents).Sublist entered
  counted : entered.length = returned.length + contents.length + discarded.length

namespace KeyQueue

def start (cursorRead : BitVec 32) : KeyQueue where
  contents := []
  cursorRead := cursorRead
  entered := []
  returned := []
  discarded := []
  bounded := Nat.zero_le _
  ordered := List.Sublist.refl _
  counted := rfl

/-- Put `c` in. -/
def append (q : KeyQueue) (c : BitVec 8) (hroom : q.contents.length < 65534) : KeyQueue :=
  { q with
    contents := q.contents ++ [c]
    entered := q.entered ++ [c]
    bounded := by
      rw [List.length_append, List.length_singleton]
      exact hroom
    ordered := by
      rw [← List.append_assoc]
      exact q.ordered.append (List.Sublist.refl _)
    counted := by
      have hcount := q.counted
      simp only [List.length_append, List.length_singleton]
      omega }

/-- Lose everything, and `c` with it. -/
def overflow (q : KeyQueue) (c : BitVec 8) : KeyQueue :=
  { q with
    contents := []
    entered := q.entered ++ [c]
    discarded := q.discarded ++ q.contents ++ [c]
    bounded := Nat.zero_le _
    ordered := by
      have hreturned := (List.sublist_append_left q.returned q.contents).trans q.ordered
      rw [List.append_nil]
      exact hreturned.trans (List.sublist_append_left _ _)
    counted := by
      have hcount := q.counted
      simp only [List.length_append, List.length_singleton, List.length_nil]
      omega }

def push (q : KeyQueue) (c : BitVec 8) : KeyQueue :=
  if c = backspace ∧ q.cursorRead = 0#32 then q
  else if hroom : q.contents.length < 65534 then q.append c hroom
  else q.overflow c

/-- Take out the oldest character. -/
def pop (q : KeyQueue) {c : BitVec 8} {rest : List (BitVec 8)}
    (hq : q.contents = c :: rest) : KeyQueue :=
  { q with
    contents := rest
    cursorRead := q.cursorRead + 1#32
    returned := q.returned ++ [c]
    bounded := by
      have hbound := q.bounded
      rw [hq, List.length_cons] at hbound
      exact Nat.le_of_succ_le hbound
    ordered := by
      have hordered := q.ordered
      rw [hq] at hordered
      rwa [List.append_assoc, List.singleton_append]
    counted := by
      have hcount := q.counted
      rw [hq, List.length_cons] at hcount
      simp only [List.length_append, List.length_singleton]
      omega }

def Step (q : KeyQueue) (e : KbdEvent) (q' : KeyQueue) : Prop :=
  match e with
  | .pushback c => q' = q.push c
  | .getc c => ∃ rest, ∃ hq : q.contents = c :: rest, q' = q.pop hq

/-- Without an overflow nothing is lost. -/
theorem entered_eq {q : KeyQueue} (h : q.discarded = []) :
    q.entered = q.returned ++ q.contents := by
  have hcount := q.counted
  rw [h, List.length_nil, Nat.add_zero, ← List.length_append] at hcount
  exact (q.ordered.eq_of_length hcount.symm).symm

theorem push_ignored {q : KeyQueue} {c : BitVec 8}
    (h : c = backspace ∧ q.cursorRead = 0#32) : q.push c = q := if_pos h

theorem push_room {q : KeyQueue} {c : BitVec 8}
    (h : ¬ (c = backspace ∧ q.cursorRead = 0#32)) (hroom : q.contents.length < 65534) :
    q.push c = q.append c hroom := (if_neg h).trans (dif_pos hroom)

theorem push_full {q : KeyQueue} {c : BitVec 8}
    (h : ¬ (c = backspace ∧ q.cursorRead = 0#32)) (hfull : ¬ q.contents.length < 65534) :
    q.push c = q.overflow c := (if_neg h).trans (dif_neg hfull)

theorem push_returned (q : KeyQueue) (c : BitVec 8) : (q.push c).returned = q.returned := by
  unfold push
  split
  · rfl
  · split <;> rfl

/-- The characters returned are those of the events. -/
theorem run_returned {q q' : KeyQueue} {es : List KbdEvent} (hrun : Run Step q es q') :
    q'.returned = q.returned ++ es.filterMap KbdEvent.returned := by
  induction hrun with
  | nil q => simp
  | @cons q r q' e es hstep _ ih =>
      rw [ih]
      cases e with
      | pushback c =>
          obtain rfl : r = q.push c := hstep
          rw [push_returned, List.filterMap_cons_none rfl]
      | getc c =>
          obtain ⟨rest, hq, rfl⟩ := hstep
          have hc : KbdEvent.returned (.getc c) = some c := rfl
          rw [List.filterMap_cons_some hc, pop, List.append_assoc, List.singleton_append]

end KeyQueue

namespace Kbd

/-- The queue that the buffer stands for. -/
structure Represents (k : Kbd) (q : KeyQueue) : Prop where
  fits : k.Fits
  contents : q.contents = k.contents
  cursorRead : q.cursorRead = k.cursorRead

theorem represents_init (k : Kbd) :
    (initKeyboardDriver k).Represents (KeyQueue.start k.cursorRead) :=
  ⟨fits_init k, (contents_init k).symm, rfl⟩

variable {k k' : Kbd} {q : KeyQueue} {c : BitVec 8}

theorem Represents.pushback (h : k.Represents q) (c : BitVec 8) :
    (kbdPushback k c).Represents (q.push c) := by
  have hfits := h.fits.pushback c
  have hcursor := k.pushback_cursorRead c
  have hlen := h.fits.length_contents_le
  have hfull := h.fits.full_iff
  rcases k.pushback_cases c with hign | ⟨hign, hroom⟩ | ⟨hign, hnext⟩
  · rw [pushback_ignored hign, KeyQueue.push_ignored (h.cursorRead ▸ hign)]
    exact h
  · have hlt : q.contents.length < 65534 := by
      rw [h.contents]
      exact Nat.lt_of_le_of_ne hlen (fun heq => hroom (hfull.mpr heq))
    rw [KeyQueue.push_room (h.cursorRead ▸ hign) hlt]
    refine ⟨hfits, ?_, h.cursorRead.trans hcursor.symm⟩
    rw [h.fits.contents_stored hign hroom, ← h.contents]
    rfl
  · have hge : ¬ q.contents.length < 65534 := by
      rw [h.contents, hfull.mp hnext]
      exact Nat.lt_irrefl _
    rw [KeyQueue.push_full (h.cursorRead ▸ hign) hge]
    refine ⟨hfits, ?_, h.cursorRead.trans hcursor.symm⟩
    rw [contents_overflow hign hnext]
    rfl

theorem Represents.getc (h : k.Represents q) (hgetc : kbdGetc k = some (c, k')) :
    ∃ hq : q.contents = c :: k'.contents, k'.Represents (q.pop hq) := by
  have hq := h.contents.trans (h.fits.contents_getc hgetc)
  refine ⟨hq, h.fits.getc hgetc, rfl, ?_⟩
  obtain ⟨_, _, rfl⟩ := getc_eq_some hgetc
  exact congrArg (· + 1#32) h.cursorRead

theorem Represents.step {e : KbdEvent} (h : k.Represents q) (hstep : k.Step e k') :
    ∃ q', q.Step e q' ∧ k'.Represents q' := by
  cases e with
  | pushback c =>
      obtain rfl : k' = kbdPushback k c := hstep
      exact ⟨q.push c, rfl, h.pushback c⟩
  | getc c =>
      obtain ⟨hq, hpop⟩ := h.getc hstep
      exact ⟨q.pop hq, ⟨_, hq, rfl⟩, hpop⟩

end Kbd

/-- Every sequence of pushes and reads is one of the queue, with the same
characters returned: in the order they were put in, none twice, and none lost
but by an overflow. A read waits exactly while the queue is empty. -/
theorem keyboard_refines_queue (boot k : Kbd) (es : List KbdEvent)
    (hrun : Run Kbd.Step (initKeyboardDriver boot) es k) :
    (k.head.toNat < 65535 ∧ k.tail.toNat < 65535) ∧
      ∃ q : KeyQueue, Run KeyQueue.Step (KeyQueue.start boot.cursorRead) es q ∧
        q.contents = k.contents ∧ q.cursorRead = k.cursorRead ∧
        (kbdGetc k = none ↔ q.contents = []) ∧
        q.returned = es.filterMap KbdEvent.returned ∧
        (q.returned ++ q.contents).Sublist q.entered ∧
        (q.discarded = [] → q.entered = q.returned ++ q.contents) := by
  have hstep : ∀ k e k' q, Kbd.Represents k q → k.Step e k' →
      ∃ q', KeyQueue.Step q e q' ∧ Kbd.Represents k' q' := fun _ _ _ _ h hstep => h.step hstep
  obtain ⟨q, hqueue, h⟩ := hrun.refines Kbd.Represents hstep (Kbd.represents_init boot)
  have hreturned := KeyQueue.run_returned hqueue
  refine ⟨⟨h.fits.head, h.fits.tail⟩, q, hqueue, h.contents, h.cursorRead, ?_, hreturned,
    q.ordered, KeyQueue.entered_eq⟩
  rw [h.contents]
  exact h.fits.getc_eq_none_iff

namespace Sample

/-- A buffer with two characters in it. -/
def typed : Kbd := kbdPushback (kbdPushback (initKeyboardDriver {}) 97#8) 98#8

/-- The buffer after one of its characters is read. -/
def afterRead (k : Kbd) : Kbd :=
  { k with
    tail := kbdNext k.tail
    bufferingRead := false
    cursorRead := k.cursorRead + 1#32 }

end Sample

open Sample in
theorem keyboard_refines_queue_typed :
    ∃ q : KeyQueue,
      Run KeyQueue.Step (KeyQueue.start 0#32)
        [.pushback 97#8, .pushback 98#8, .getc 97#8, .getc 98#8] q ∧
      q.returned = [97#8, 98#8] ∧ q.contents = [] := by
  have hfirst : kbdGetc typed = some (97#8, afterRead typed) := by rfl
  have hsecond : kbdGetc (afterRead typed) = some (98#8, afterRead (afterRead typed)) := by rfl
  obtain ⟨_, q, hqueue, _, _, hwaits, hreturned, _⟩ := keyboard_refines_queue {} _
    [.pushback 97#8, .pushback 98#8, .getc 97#8, .getc 98#8]
    (Run.cons rfl (Run.cons rfl (Run.cons hfirst (Run.cons hsecond (Run.nil _)))))
  exact ⟨q, hqueue, hreturned, hwaits.mp (by rfl)⟩

end Asnu
