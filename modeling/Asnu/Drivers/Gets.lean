import Asnu.Drivers.Getc

/-!
Line input: `kbd_gets` over the accesses of `kbd_getc`, one loop iteration at a
time, with keyboard interrupts anywhere in between. The indices written to the
caller's buffer are kept in a list. What is printed is left out.
-/

namespace Asnu

open Lib

def newline : BitVec 8 := 10#8

/-- The input loop, the loop that counts the characters, or neither. -/
inductive Phase where
  | reading
  | counting (tmprd : Int)
  | returned
  deriving DecidableEq

/-- A call `kbd_gets(out, maxlen)`. -/
structure Line where
  maxlen : Int
  read : Int := 0
  out : Int → BitVec 8
  /-- The indices of `out` written so far, newest first. -/
  writes : List Int
  phase : Phase := .reading

namespace Line

/-- The call up to its input loop. -/
def start (maxlen : Int) (out : Int → BitVec 8) : Line where
  maxlen := maxlen
  out := fun i => if 0 ≤ i ∧ i < maxlen then 0#8 else out i
  writes := List.map (fun i : Nat => (i : Int)) (List.range maxlen.toNat)

/-- `out[i] = c`. -/
def write (l : Line) (i : Int) (c : BitVec 8) : Line :=
  { l with out := fun j => if j = i then c else l.out j, writes := i :: l.writes }

/-- The body of the input loop once `kbd_getc` has returned `c`. -/
def take (l : Line) (c : BitVec 8) : Line :=
  if c = newline ∨ c = 0#8 then { l with phase := .counting 0 }
  else if c = backspace then
    let l := { l with read := l.read - 1 }
    l.write l.read 0#8
  else
    let l := l.write l.read c
    { l with read := l.read + 1 }

/-- An iteration of the loop that counts, or the return behind it. -/
def count (l : Line) (tmprd : Int) : Line :=
  if l.out tmprd ≠ 0#8 then { l with phase := .counting (tmprd + 1) }
  else
    let l := if tmprd ≠ l.read then { l with read := tmprd } else l
    { l with phase := .returned }

/-- `read` is the length of a line that fits, nothing was written outside the
buffer, and its last byte ends the line. -/
structure Inside (l : Line) : Prop where
  read_nonneg : 0 ≤ l.read
  read_le : l.read ≤ l.maxlen - 1
  writes : ∀ i ∈ l.writes, 0 ≤ i ∧ i < l.maxlen
  last : l.out (l.maxlen - 1) = 0#8

end Line

/-- The access is the last one of a call that returns `c`. -/
def Access.Returns (c : BitVec 8) : Access → Prop
  | .count d => d.1 = c
  | .outside | .test | .readCell | .readTail _ | .writeTail _ _ => False

instance (c : BitVec 8) : (a : Access) → Decidable (a.Returns c)
  | .count d => inferInstanceAs (Decidable (d.1 = c))
  | .outside | .test | .readCell | .readTail _ | .writeTail _ _ =>
      inferInstanceAs (Decidable False)

structure Terminal where
  reader : Reader
  line : Option Line := none

/-- A keyboard interrupt that pushes `c`, a call of `kbd_gets`, or the next step
of the call. -/
inductive TerminalEvent where
  | interrupt (c : BitVec 8)
  | call (maxlen : Int) (out : Int → BitVec 8)
  | step

namespace Terminal

def start (k : Kbd) : Terminal := { reader := Reader.start k }

/-- A step of the input loop: the loop's test and the call of `kbd_getc`, or the
next access of `kbd_getc`, the last of which returns a character. -/
def input (t : Terminal) (l : Line) : Terminal :=
  match t.reader.access with
  | .outside =>
      if l.read < l.maxlen - 1 then { t with reader := t.reader.call }
      else { t with line := some { l with phase := .counting 0 } }
  | .count c => { t with reader := t.reader.next, line := some (l.take c.1) }
  | _ => { t with reader := t.reader.next }

def step (t : Terminal) : Terminal :=
  match t.line with
  | none => t
  | some l =>
      match l.phase with
      | .reading => t.input l
      | .counting tmprd => { t with line := some (l.count tmprd) }
      | .returned => t

def exec (t : Terminal) : TerminalEvent → Terminal
  | .interrupt c => { t with reader := t.reader.interrupt c }
  | .call maxlen out => { t with line := some (Line.start maxlen out) }
  | .step => t.step

/-- The last call has returned. -/
def Idle (t : Terminal) : Prop := ∀ l ∈ t.line, l.phase = .returned

instance (t : Terminal) : Decidable t.Idle :=
  inferInstanceAs (Decidable (∀ l ∈ t.line, l.phase = .returned))

/-- Calls come one after the other, with a buffer of at least one byte. -/
def Allowed (t : Terminal) : TerminalEvent → Prop
  | .call maxlen _ => t.Idle ∧ 1 ≤ maxlen
  | .interrupt _ | .step => True

instance (t : Terminal) : (e : TerminalEvent) → Decidable (t.Allowed e)
  | .call maxlen _ => inferInstanceAs (Decidable (t.Idle ∧ 1 ≤ maxlen))
  | .interrupt _ | .step => inferInstanceAs (Decidable True)

def Step (t : Terminal) (e : TerminalEvent) (t' : Terminal) : Prop :=
  t.Allowed e ∧ t' = t.exec e

/-- `kbd_getc` is about to return a backspace to an empty line. -/
def Underflows (t : Terminal) : Prop :=
  t.reader.access.Returns backspace ∧ ∃ l ∈ t.line, l.phase = .reading ∧ l.read = 0

instance (t : Terminal) : Decidable t.Underflows :=
  inferInstanceAs (Decidable (_ ∧ ∃ l ∈ t.line, l.phase = .reading ∧ l.read = 0))

/-- The step does not take a backspace with an empty line. -/
def Editable (t : Terminal) : TerminalEvent → Prop
  | .step => ¬ t.Underflows
  | .interrupt _ | .call _ _ => True

instance (t : Terminal) : (e : TerminalEvent) → Decidable (t.Editable e)
  | .step => inferInstanceAs (Decidable (¬ t.Underflows))
  | .interrupt _ | .call _ _ => inferInstanceAs (Decidable True)

end Terminal

namespace Line

theorem inside_start {maxlen : Int} (h : 1 ≤ maxlen) (out : Int → BitVec 8) :
    (start maxlen out).Inside where
  read_nonneg := Int.le_refl 0
  read_le := by simp only [start]; omega
  writes := by
    intro i hi
    obtain ⟨j, hj, rfl⟩ := List.mem_map.mp hi
    have hlt := List.mem_range.mp hj
    simp only [start]
    omega
  last := by
    simp only [start]
    exact if_pos ⟨by omega, by omega⟩

variable {l : Line}

/-- A write below the last byte. -/
theorem Inside.write (h : l.Inside) {i : Int} (hi : 0 ≤ i) (hlt : i < l.maxlen - 1)
    (c : BitVec 8) : (l.write i c).Inside where
  read_nonneg := h.read_nonneg
  read_le := h.read_le
  writes := by
    intro j hj
    rcases List.mem_cons.mp hj with rfl | hj
    · simp only [Line.write]
      omega
    · exact h.writes j hj
  last := by
    rw [← h.last]
    exact if_neg (fun heq : l.maxlen - 1 = i => by omega)

theorem Inside.read (h : l.Inside) {read : Int} (hlow : 0 ≤ read)
    (hhigh : read ≤ l.maxlen - 1) : Inside { l with read := read } :=
  ⟨hlow, hhigh, h.writes, h.last⟩

theorem Inside.phase (h : l.Inside) (phase : Phase) : Inside { l with phase := phase } :=
  ⟨h.read_nonneg, h.read_le, h.writes, h.last⟩

theorem Inside.take (h : l.Inside) (hread : l.read < l.maxlen - 1) {c : BitVec 8}
    (hback : c = backspace → l.read ≠ 0) : (l.take c).Inside := by
  have hlow := h.read_nonneg
  unfold Line.take
  split
  · exact h.phase _
  · split
    · next hc =>
        have hpos := hback hc
        have hless : Inside { l with read := l.read - 1 } := h.read (by omega) (by omega)
        exact hless.write (show 0 ≤ l.read - 1 by omega)
          (show l.read - 1 < l.maxlen - 1 by omega) 0#8
    · have hwritten := h.write hlow hread c
      exact hwritten.read (show 0 ≤ l.read + 1 by omega) (show l.read + 1 ≤ l.maxlen - 1 by omega)

end Line

namespace Line

/-- The counting loop stops inside the buffer. -/
theorem Inside.count {l : Line} (h : l.Inside) {tmprd : Int} (hlow : 0 ≤ tmprd)
    (hhigh : tmprd ≤ l.maxlen - 1) : (l.count tmprd).Inside := by
  unfold Line.count
  split
  · exact h.phase _
  · split
    · exact (h.read hlow hhigh).phase _
    · exact h.phase _

/-- The input loop is left for the start of the counting loop. -/
theorem take_counting {l : Line} {c : BitVec 8} (hreading : l.phase = .reading) {i : Int}
    (h : (l.take c).phase = .counting i) : i = 0 := by
  unfold Line.take at h
  split at h
  · exact (Phase.counting.inj h).symm
  · split at h <;> exact absurd (hreading.symm.trans h) (by simp)

theorem count_next {l : Line} (h : l.Inside) {tmprd i : Int} (hhigh : tmprd ≤ l.maxlen - 1)
    (hphase : (l.count tmprd).phase = .counting i) :
    i = tmprd + 1 ∧ i ≤ (l.count tmprd).maxlen - 1 := by
  unfold Line.count at hphase ⊢
  split at hphase
  · next hchar =>
      obtain rfl := Phase.counting.inj hphase
      have hne : tmprd ≠ l.maxlen - 1 := fun heq => hchar (heq ▸ h.last)
      rw [if_pos hchar]
      exact ⟨rfl, show tmprd + 1 ≤ l.maxlen - 1 by omega⟩
  · exact absurd hphase (by simp)

end Line

namespace Terminal

/-- `kbd_getc` is in progress only for an input loop whose test has passed, and
the counting loop has not left the buffer. -/
structure Sound (t : Terminal) : Prop where
  inside : ∀ l ∈ t.line, l.Inside
  counting : ∀ l ∈ t.line, ∀ i, l.phase = .counting i → 0 ≤ i ∧ i ≤ l.maxlen - 1
  busy : t.reader.access ≠ .outside →
    ∃ l ∈ t.line, l.phase = .reading ∧ l.read < l.maxlen - 1

theorem sound_start (k : Kbd) : (start k).Sound where
  inside := by simp [start]
  counting := by simp [start]
  busy := fun h => absurd rfl h

variable {t : Terminal}

theorem Sound.interrupt (h : t.Sound) (c : BitVec 8) : (t.exec (.interrupt c)).Sound where
  inside := h.inside
  counting := h.counting
  busy := by
    have haccess := t.reader.interrupt_access c
    intro hne
    exact h.busy (haccess ▸ hne)

theorem Sound.call (h : t.Sound) {maxlen : Int} {out : Int → BitVec 8} (hidle : t.Idle)
    (hmaxlen : 1 ≤ maxlen) : (t.exec (.call maxlen out)).Sound where
  inside := by
    rintro l hl
    obtain rfl := Option.some.inj hl
    exact Line.inside_start hmaxlen out
  counting := by
    rintro l hl i hi
    obtain rfl := Option.some.inj hl
    exact absurd hi (by simp [Line.start])
  busy := by
    intro hne
    obtain ⟨l, hl, hreading, _⟩ := h.busy hne
    exact absurd (hreading.symm.trans (hidle l hl)) (by simp)

/-- A line that has left its loops, or will count from the start. -/
theorem Sound.of_line {l : Line} {reader : Reader} (hinside : l.Inside)
    (hcounting : ∀ i, l.phase = .counting i → 0 ≤ i ∧ i ≤ l.maxlen - 1)
    (hbusy : reader.access ≠ .outside → l.phase = .reading ∧ l.read < l.maxlen - 1) :
    Sound { reader := reader, line := some l } where
  inside := by
    rintro l' hl
    obtain rfl := Option.some.inj hl
    exact hinside
  counting := by
    rintro l' hl
    obtain rfl := Option.some.inj hl
    exact hcounting
  busy := fun hne => ⟨l, rfl, hbusy hne⟩

theorem Sound.input (h : t.Sound) {l : Line} (hl : t.line = some l)
    (hreading : l.phase = .reading) (hedit : ¬ t.Underflows) : (t.input l).Sound := by
  have hinside := h.inside l hl
  have hnot : ∀ i, l.phase = .counting i → 0 ≤ i ∧ i ≤ l.maxlen - 1 :=
    fun i hi => absurd (hreading.symm.trans hi) (by simp)
  have htest : t.reader.access ≠ .outside → l.read < l.maxlen - 1 := by
    intro hne
    obtain ⟨l', hl', _, hlt⟩ := h.busy hne
    obtain rfl := Option.some.inj (hl.symm.trans hl')
    exact hlt
  unfold Terminal.input
  split
  · next haccess =>
      split
      · next hlt =>
          rw [hl]
          exact Sound.of_line hinside hnot (fun _ => ⟨hreading, hlt⟩)
      · refine Sound.of_line (hinside.phase _) ?_ (fun hne => absurd haccess hne)
        rintro i hi
        obtain rfl := Phase.counting.inj hi
        exact ⟨Int.le_refl 0, Int.le_trans hinside.read_nonneg hinside.read_le⟩
  · next c haccess =>
      have hlt := htest (by simp [haccess])
      have hback : c.1 = backspace → l.read ≠ 0 := by
        intro hc hzero
        exact hedit ⟨haccess ▸ hc, l, hl, hreading, hzero⟩
      have htaken := hinside.take hlt hback
      have hbounds := Int.le_trans htaken.read_nonneg htaken.read_le
      refine Sound.of_line htaken (fun i hi => ?_) (fun hne => absurd ?_ hne)
      · rw [Line.take_counting hreading hi]
        exact ⟨Int.le_refl 0, hbounds⟩
      · simp [Reader.next, haccess]
  · next hother hcount =>
      have hlt := htest (fun heq => hother heq)
      rw [hl]
      exact Sound.of_line hinside hnot (fun _ => ⟨hreading, hlt⟩)

theorem Sound.step (h : t.Sound) (hedit : ¬ t.Underflows) : t.step.Sound := by
  unfold Terminal.step
  cases hl : t.line with
  | none => exact h
  | some l =>
      cases hphase : l.phase with
      | reading => simpa only [hphase] using h.input hl hphase hedit
      | counting tmprd =>
          obtain ⟨hlow, hhigh⟩ := h.counting l hl tmprd hphase
          have hinside := h.inside l hl
          simp only [hphase]
          refine Sound.of_line (hinside.count hlow hhigh) (fun i hi => ?_) (fun hne => ?_)
          · obtain ⟨rfl, hle⟩ := Line.count_next hinside hhigh hi
            exact ⟨by omega, hle⟩
          · obtain ⟨l', hl', hreading, _⟩ := h.busy hne
            obtain rfl := Option.some.inj (hl.symm.trans hl')
            exact absurd (hreading.symm.trans hphase) (by simp)
      | returned => simpa only [hphase] using h

theorem Sound.exec {e : TerminalEvent} {t' : Terminal} (h : t.Sound) (hstep : t.Step e t')
    (hedit : t.Editable e) : t'.Sound := by
  obtain ⟨hallowed, rfl⟩ := hstep
  cases e with
  | interrupt c => exact h.interrupt c
  | call maxlen out => exact h.call hallowed.1 hallowed.2
  | step => exact h.step hedit

end Terminal

/-- In every run in which no backspace is returned to an empty line, `kbd_gets`
stays inside its buffer: in its loops, and when it returns. -/
theorem gets_stays_inside (k : Kbd) (es : List TerminalEvent) (t : Terminal)
    (hrun : Run (fun t e t' => t.Step e t' ∧ t.Editable e) (Terminal.start k) es t) :
    ∀ l ∈ t.line, 0 ≤ l.read ∧ l.read ≤ l.maxlen - 1 ∧
      (∀ i ∈ l.writes, 0 ≤ i ∧ i < l.maxlen) ∧ l.out (l.maxlen - 1) = 0#8 := by
  have hsound := hrun.invariant Terminal.Sound
    (fun _ _ _ h hstep => h.exec hstep.1 hstep.2) (Terminal.sound_start k)
  intro l hl
  have hinside := hsound.inside l hl
  exact ⟨hinside.read_nonneg, hinside.read_le, hinside.writes, hinside.last⟩

namespace Terminal

/-- The line of the call is inside its buffer. -/
def InBuffer (t : Terminal) : Prop := ∀ l ∈ t.line, l.Inside

/-- A backspace taken with an empty line leaves `read` at -1. -/
theorem Underflows.not_inBuffer {t : Terminal} (h : t.Underflows) : ¬ t.step.InBuffer := by
  obtain ⟨hreturns, l, hl, hreading, hzero⟩ := h
  have hstep : t.step = t.input l := by
    rw [step, show t.line = some l from hl]
    simp only [hreading]
  cases haccess : t.reader.access with
  | count d =>
      have hinput : t.input l = { t with reader := t.reader.next, line := some (l.take d.1) } := by
        rw [input, haccess]
      have hd : d.1 = backspace := by
        rw [haccess] at hreturns
        exact hreturns
      have hread : (l.take d.1).read = -1 := by
        have hother : ¬ (backspace = newline ∨ backspace = 0#8) := by decide
        rw [hd, Line.take, if_neg hother, if_pos rfl]
        change l.read - 1 = -1
        omega
      intro hin
      rw [hstep, hinput] at hin
      have hnonneg := (hin _ rfl).read_nonneg
      omega
  | outside | test | readCell | readTail _ | writeTail _ _ =>
      rw [haccess] at hreturns
      exact hreturns.elim

theorem Sound.inBuffer_iff {t : Terminal} (h : t.Sound) {e : TerminalEvent} {t' : Terminal}
    (hstep : t.Step e t') : t'.InBuffer ↔ t.Editable e := by
  constructor
  · intro hin
    cases e with
    | step =>
        obtain ⟨_, rfl⟩ := hstep
        exact fun hunder => hunder.not_inBuffer hin
    | interrupt c => trivial
    | call maxlen out => trivial
  · exact fun hedit => (h.exec hstep hedit).inside

end Terminal

/-- The runs in which `kbd_gets` is inside its buffer after every step are those in which
no backspace is returned to an empty line. -/
theorem gets_inside_run_iff (k : Kbd) (es : List TerminalEvent) (t : Terminal) :
    Run (fun t e t' => t.Step e t' ∧ t'.InBuffer) (Terminal.start k) es t ↔
      Run (fun t e t' => t.Step e t' ∧ t.Editable e) (Terminal.start k) es t :=
  Run.congr_along Terminal.Sound (fun _ _ _ h hstep => h.inBuffer_iff hstep)
    (fun _ _ _ h hstep hin => h.exec hstep ((h.inBuffer_iff hstep).mp hin))
    (Terminal.sound_start k)

namespace Sample

/-- `a` and Enter, read as a line. -/
def oneLine : List TerminalEvent :=
  [.interrupt 97#8, .interrupt 10#8, .call 80 (fun _ => 255#8)] ++
    List.replicate 14 .step

/-- Then a backspace, and the next line begins. -/
def rubOut : List TerminalEvent :=
  oneLine ++ [.interrupt 8#8, .call 2 (fun _ => 255#8)] ++ List.replicate 6 .step

/-- The state after some events. -/
def after (es : List TerminalEvent) : Terminal := es.foldl Terminal.exec (Terminal.start {})

end Sample

theorem gets_stays_inside_oneLine :
    ∃ l ∈ (Sample.after Sample.oneLine).line, 0 ≤ l.read ∧ l.read ≤ l.maxlen - 1 ∧
      (∀ i ∈ l.writes, 0 ≤ i ∧ i < l.maxlen) ∧ l.out (l.maxlen - 1) = 0#8 := by
  have halong : Along (fun t e => Terminal.Allowed t e ∧ t.Editable e) Terminal.exec
      (Terminal.start {}) Sample.oneLine := by decide +kernel
  have hcalled : (Sample.after Sample.oneLine).line.isSome := by decide +kernel
  obtain ⟨l, hl⟩ := Option.isSome_iff_exists.mp hcalled
  exact ⟨l, hl, gets_stays_inside {} Sample.oneLine _
    ((Run.of_along halong).mono (fun _ _ _ h => ⟨⟨h.1.1, h.2⟩, h.1.2⟩)) l hl⟩

/-- Once a character has been read, a backspace is accepted at the start of a
line, and `kbd_gets` writes in front of its buffer. -/
theorem gets_writes_before_buffer :
    ¬ ∀ (k : Kbd) (es : List TerminalEvent) (t : Terminal),
      Run Terminal.Step (Terminal.start k) es t → ∀ l ∈ t.line,
        ∀ i ∈ l.writes, 0 ≤ i ∧ i < l.maxlen := by
  intro hclaim
  have halong : Along Terminal.Allowed Terminal.exec (Terminal.start {}) Sample.rubOut := by
    decide +kernel
  have hwrites := hclaim {} Sample.rubOut _ (Run.of_along halong)
  have hline : ((Sample.after Sample.rubOut).line.map Line.writes) = some [-1, 0, 1] := by
    decide +kernel
  obtain ⟨l, hl, hlist⟩ := Option.map_eq_some_iff.mp hline
  have hbound := hwrites l hl (-1) (by rw [hlist]; simp)
  exact absurd hbound.1 (by decide)

end Asnu
