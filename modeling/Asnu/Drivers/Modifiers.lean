import Asnu.Drivers.Keyboard

/-!
The keyboard interrupt: `KeyboardDriverMain` over the scancodes of set 1, beside
the keys that the same scancodes say are held.
-/

namespace Asnu

open Lib

/-- The bytes of a row of a layout. -/
def row (keys : String) : List (BitVec 8) := keys.toList.map (fun c => BitVec.ofNat 8 c.toNat)

def usLayoutNrml : List (BitVec 8) :=
  row "\x00`1234567890-=\x08" ++
  row "\tqwertyuiop[]\n" ++
  row "\x00asdfghjkl;'`\x00" ++
  row "\\zxcvbnm,./\x00" ++
  row "*\x00 " ++ List.replicate 21 0#8 ++
  row "-\x00\x00\x00+" ++ List.replicate 44 0#8

def usLayoutCaps : List (BitVec 8) :=
  row "\x00`1234567890-=\x08" ++
  row "\tQWERTYUIOP[]\n" ++
  row "\x00ASDFGHJKL;'\x00\x00" ++
  row "\\ZXCVBNM,./\x00" ++
  row "*\x00 " ++ List.replicate 21 0#8 ++
  row "-\x00\x00\x00+" ++ List.replicate 44 0#8

def usLayoutShft : List (BitVec 8) :=
  row "\x00~!@#$%^&*()_+\x08" ++
  row "\tQWERTYUIOP\x7b\x7d\n" ++
  row "\x00ASDFGHJKL:\"`\x00" ++
  row "|ZXCVBNM<>?\x00" ++
  row "*\x00 " ++ List.replicate 21 0#8 ++
  row "-\x00\x00\x00+" ++ List.replicate 44 0#8

def layoutAt (layout : List (BitVec 8)) (scancode : BitVec 8) : BitVec 8 :=
  layout.getD scancode.toNat 0#8

/-- The driver with its static variables. -/
structure KbdDriver where
  kbd : Kbd
  shift : BitVec 8 := 0#8
  caps : BitVec 8 := 0#8
  extended : Bool := false
  ch : BitVec 8 := 0#8

def kbdFlushCheck (d : KbdDriver) (chr : BitVec 8) : KbdDriver :=
  { d with kbd := kbdPushback d.kbd chr }

def IsBreak (scancode : BitVec 8) : Prop := scancode &&& 0x80#8 ≠ 0#8

instance (scancode : BitVec 8) : Decidable (IsBreak scancode) :=
  inferInstanceAs (Decidable (_ ≠ _))

/-- The character of a key under the modifiers. -/
def keyChar (d : KbdDriver) (scancode : BitVec 8) : BitVec 8 :=
  if d.shift ≠ 0#8 then layoutAt usLayoutShft scancode
  else if d.caps ≠ 0#8 ∧ (0x61#8).sle (layoutAt usLayoutNrml scancode) ∧
      (layoutAt usLayoutNrml scancode).sle 0x7A#8 then
    layoutAt usLayoutCaps scancode
  else layoutAt usLayoutNrml scancode

/-- The end of `KeyboardDriverMain`, for a key that may have a character. -/
def typeKey (d : KbdDriver) (scancode : BitVec 8) : KbdDriver :=
  let d := { d with ch := keyChar d scancode }
  if d.ch ≠ 0#8 then kbdFlushCheck d d.ch else d

def keyboardDriverMain (d : KbdDriver) (scancode : BitVec 8) : KbdDriver :=
  if scancode = 0xE0#8 then { d with extended := true }
  else if d.extended then
    if IsBreak scancode then { d with extended := false }
    else if d.kbd.bufferingRead then { d with extended := false }
    else { d with extended := false }
  else if IsBreak scancode then
    let key := scancode &&& 0x7F#8
    if key = 0x2A#8 ∨ key = 0x36#8 then { d with shift := 0#8 } else d
  else if scancode = 0x2A#8 ∨ scancode = 0x36#8 then { d with shift := 1#8 }
  else if scancode = 0x3A#8 then { d with caps := if d.caps = 0#8 then 1#8 else 0#8 }
  else typeKey d scancode

/-! ### The keys that are held -/

def leftShift : BitVec 8 := 0x2A#8

def rightShift : BitVec 8 := 0x36#8

def capsLock : BitVec 8 := 0x3A#8

/-- What the scancodes so far say about the keys, those with an `E0` before them left
out: which are held, and how often Caps Lock went down. -/
structure Hands where
  held : List (BitVec 8) := []
  capsPresses : Nat := 0
  prefixed : Bool := false

namespace Hands

/-- A make code of a key that is held is a repeat. -/
def make (h : Hands) (key : BitVec 8) : Hands :=
  if key ∈ h.held then h
  else
    { h with
      held := key :: h.held
      capsPresses := if key = capsLock then h.capsPresses + 1 else h.capsPresses }

def release (h : Hands) (key : BitVec 8) : Hands :=
  { h with held := h.held.filter (fun k => k ≠ key) }

def receive (h : Hands) (scancode : BitVec 8) : Hands :=
  if scancode = 0xE0#8 then { h with prefixed := true }
  else if h.prefixed then { h with prefixed := false }
  else if IsBreak scancode then h.release (scancode &&& 0x7F#8)
  else h.make scancode

def ShiftHeld (h : Hands) : Prop := leftShift ∈ h.held ∨ rightShift ∈ h.held

/-- The scancode is `E0` or comes after one. -/
def Extended (h : Hands) (scancode : BitVec 8) : Prop := scancode = 0xE0#8 ∨ h.prefixed

instance (h : Hands) (scancode : BitVec 8) : Decidable (h.Extended scancode) :=
  inferInstanceAs (Decidable (_ ∨ _))

end Hands

/-- The driver and the keys. -/
structure Typing where
  driver : KbdDriver
  hands : Hands

/-- A scancode arrives, or something else is done to the buffer. -/
inductive TypingEvent where
  | scancode (b : BitVec 8)
  | buffer (kbd : Kbd)

namespace Typing

def start (kbd : Kbd) : Typing := { driver := { kbd := kbd }, hands := {} }

def exec (s : Typing) : TypingEvent → Typing
  | .scancode b => { driver := keyboardDriverMain s.driver b, hands := s.hands.receive b }
  | .buffer kbd => { s with driver := { s.driver with kbd := kbd } }

/-- The modifiers after the event are those of the keys held, and an `E0` and the code
after it have done nothing. -/
structure Follows (s : Typing) (e : TypingEvent) (s' : Typing) : Prop where
  shift : s'.driver.shift ≠ 0#8 ↔ s'.hands.ShiftHeld
  caps : s'.driver.caps.toNat = s'.hands.capsPresses % 2
  extended : ∀ b, e = .scancode b → s.hands.Extended b →
    s'.driver.shift = s.driver.shift ∧ s'.driver.caps = s.driver.caps ∧
      s'.driver.kbd = s.driver.kbd

/-- No shift key is released while the other one is held, and Caps Lock is not held long
enough to repeat. -/
def Separate (s : Typing) : TypingEvent → Prop
  | .scancode b =>
      s.hands.Extended b ∨
        (IsBreak b → (b &&& 0x7F#8 = leftShift → rightShift ∉ s.hands.held) ∧
          (b &&& 0x7F#8 = rightShift → leftShift ∉ s.hands.held)) ∧
        (b = capsLock → capsLock ∉ s.hands.held)
  | .buffer _ => True

/-- What the driver's variables say about the keys. -/
structure Tracks (s : Typing) : Prop where
  extended : s.driver.extended = s.hands.prefixed
  shift : s.driver.shift ≠ 0#8 ↔ s.hands.ShiftHeld
  caps : s.driver.caps.toNat = s.hands.capsPresses % 2

end Typing

section Driver

variable (d : KbdDriver) {b : BitVec 8}

theorem driver_prefix : keyboardDriverMain d 0xE0#8 = { d with extended := true } := if_pos rfl

theorem driver_extended (hb : b ≠ 0xE0#8) (hext : d.extended = true) :
    keyboardDriverMain d b = { d with extended := false } := by
  rw [keyboardDriverMain, if_neg hb, if_pos hext, ite_self, ite_self]

theorem driver_break (hb : b ≠ 0xE0#8) (hext : d.extended ≠ true) (hbreak : IsBreak b) :
    keyboardDriverMain d b =
      if b &&& 0x7F#8 = leftShift ∨ b &&& 0x7F#8 = rightShift then { d with shift := 0#8 }
      else d := by
  rw [keyboardDriverMain, if_neg hb, if_neg hext, if_pos hbreak]
  rfl

theorem driver_make (hb : b ≠ 0xE0#8) (hext : d.extended ≠ true) (hmake : ¬ IsBreak b) :
    keyboardDriverMain d b =
      if b = leftShift ∨ b = rightShift then { d with shift := 1#8 }
      else if b = capsLock then { d with caps := if d.caps = 0#8 then 1#8 else 0#8 }
      else typeKey d b := by
  rw [keyboardDriverMain, if_neg hb, if_neg hext, if_neg hmake]
  rfl

/-- A character changes no modifier. -/
theorem typeKey_modifiers (b : BitVec 8) :
    (typeKey d b).shift = d.shift ∧ (typeKey d b).caps = d.caps ∧
      (typeKey d b).extended = d.extended := by
  simp only [typeKey]
  split
  · exact ⟨rfl, rfl, rfl⟩
  · exact ⟨rfl, rfl, rfl⟩

/-- Outside a prefix, `extended` stays false. -/
theorem driver_plain_extended (hb : b ≠ 0xE0#8) (hext : d.extended ≠ true) :
    (keyboardDriverMain d b).extended = d.extended := by
  by_cases hbreak : IsBreak b
  · rw [driver_break d hb hext hbreak]
    split
    · rfl
    · rfl
  · rw [driver_make d hb hext hbreak]
    split
    · rfl
    · split
      · rfl
      · exact (typeKey_modifiers d b).2.2

end Driver

namespace Hands

variable {h : Hands} {b key : BitVec 8}

theorem shiftHeld_release_iff (key : BitVec 8) :
    (h.release key).ShiftHeld ↔
      (leftShift ∈ h.held ∧ leftShift ≠ key) ∨ (rightShift ∈ h.held ∧ rightShift ≠ key) := by
  simp [ShiftHeld, release]

theorem mem_make_iff (k key : BitVec 8) : k ∈ (h.make key).held ↔ k = key ∨ k ∈ h.held := by
  unfold make
  split
  · next hheld => exact ⟨Or.inr, fun hk => hk.elim (fun heq => heq ▸ hheld) id⟩
  · exact List.mem_cons

theorem shiftHeld_make_iff (key : BitVec 8) :
    (h.make key).ShiftHeld ↔ key = leftShift ∨ key = rightShift ∨ h.ShiftHeld := by
  rw [ShiftHeld, mem_make_iff, mem_make_iff, ShiftHeld, eq_comm, @eq_comm _ rightShift]
  tauto

/-- Only the first make code of Caps Lock is a press. -/
theorem capsPresses_make (key : BitVec 8) :
    (h.make key).capsPresses =
      if key = capsLock ∧ capsLock ∉ h.held then h.capsPresses + 1 else h.capsPresses := by
  unfold make
  split
  · next hheld => rw [if_neg (fun hpress => hpress.2 (hpress.1 ▸ hheld))]
  · next hnew =>
      by_cases hkey : key = capsLock
      · rw [if_pos hkey, if_pos ⟨hkey, hkey ▸ hnew⟩]
      · rw [if_neg hkey, if_neg (fun hpress => hkey hpress.1)]

theorem prefixed_make (key : BitVec 8) : (h.make key).prefixed = h.prefixed := by
  unfold make
  split
  · rfl
  · rfl

theorem receive_break (hext : ¬ h.Extended b) (hbreak : IsBreak b) :
    h.receive b = h.release (b &&& 0x7F#8) := by
  rw [receive, if_neg (fun hb => hext (Or.inl hb)), if_neg (fun hp => hext (Or.inr hp)),
    if_pos hbreak]

theorem receive_make (hext : ¬ h.Extended b) (hmake : ¬ IsBreak b) : h.receive b = h.make b := by
  rw [receive, if_neg (fun hb => hext (Or.inl hb)), if_neg (fun hp => hext (Or.inr hp)),
    if_neg hmake]

/-- An extended code says nothing of the keys, and `E0` announces one. -/
theorem receive_extended (hext : h.Extended b) :
    h.receive b = { h with prefixed := decide (b = 0xE0#8) } := by
  unfold receive
  split
  · next hb => rw [decide_eq_true hb]
  · next hb => rw [if_pos (hext.resolve_left hb), decide_eq_false hb]

end Hands

namespace Typing

variable {s : Typing} {b : BitVec 8}

theorem tracks_start (kbd : Kbd) : (start kbd).Tracks where
  extended := rfl
  shift := by simp [start, Hands.ShiftHeld]
  caps := rfl

/-- A release of a key is right unless it is a shift key and the other one is held. -/
theorem Tracks.release_iff (h : s.Tracks) (hb : b ≠ 0xE0#8) (hext : s.driver.extended ≠ true)
    (hbreak : IsBreak b) :
    ((keyboardDriverMain s.driver b).shift ≠ 0#8 ↔
        (s.hands.release (b &&& 0x7F#8)).ShiftHeld) ↔
      (b &&& 0x7F#8 = leftShift → rightShift ∉ s.hands.held) ∧
        (b &&& 0x7F#8 = rightShift → leftShift ∉ s.hands.held) := by
  have hapart : leftShift ≠ rightShift := by decide
  rw [driver_break _ hb hext hbreak, Hands.shiftHeld_release_iff]
  by_cases hleft : b &&& 0x7F#8 = leftShift
  · simp [hleft, hapart, hapart.symm]
  · by_cases hright : b &&& 0x7F#8 = rightShift
    · simp [hright, hapart, hapart.symm]
    · have hshift : s.driver.shift ≠ 0#8 ↔
          leftShift ∈ s.hands.held ∨ rightShift ∈ s.hands.held := h.shift
      simpa [hleft, hright, Ne.symm hleft, Ne.symm hright] using hshift

/-- A make code leaves the shift flag right. -/
theorem Tracks.shift_make (h : s.Tracks) (hb : b ≠ 0xE0#8) (hext : s.driver.extended ≠ true)
    (hmake : ¬ IsBreak b) :
    (keyboardDriverMain s.driver b).shift ≠ 0#8 ↔ (s.hands.make b).ShiftHeld := by
  rw [driver_make _ hb hext hmake, Hands.shiftHeld_make_iff]
  split
  · next hshift => simpa [or_assoc] using Or.inl hshift
  · next hshift =>
      have hsame : b = leftShift ∨ b = rightShift ∨ s.hands.ShiftHeld ↔ s.hands.ShiftHeld := by
        rw [← or_assoc]
        exact or_iff_right hshift
      rw [hsame, ← h.shift]
      split
      · rfl
      · rw [(typeKey_modifiers _ _).1]

/-- A make code leaves the Caps Lock flag right unless it is a repeat. -/
theorem Tracks.caps_make_iff (h : s.Tracks) (hb : b ≠ 0xE0#8) (hext : s.driver.extended ≠ true)
    (hmake : ¬ IsBreak b) :
    (keyboardDriverMain s.driver b).caps.toNat = (s.hands.make b).capsPresses % 2 ↔
      (b = capsLock → capsLock ∉ s.hands.held) := by
  have hcaps := h.caps
  rw [driver_make _ hb hext hmake, Hands.capsPresses_make]
  by_cases hlock : b = capsLock
  · have htoggle : (if s.driver.caps = 0#8 then 1#8 else 0#8 : BitVec 8).toNat =
        (s.hands.capsPresses + 1) % 2 := by
      split
      · next hzero =>
          rw [hzero] at hcaps
          change 1 = _
          change 0 = _ at hcaps
          omega
      · next hone =>
          have hpos : s.driver.caps.toNat ≠ 0 := fun hz => hone (BitVec.eq_of_toNat_eq hz)
          change 0 = _
          omega
    have hnotShift : ¬ (b = leftShift ∨ b = rightShift) := by
      rw [hlock]
      decide
    rw [if_neg hnotShift, if_pos hlock]
    simp only [htoggle, hlock, true_and, true_implies]
    split
    · next hnew => exact iff_of_true rfl hnew
    · next hheld => exact iff_of_false (by omega) hheld
  · have hrepeat : ¬ (b = capsLock ∧ capsLock ∉ s.hands.held) := fun hpress => hlock hpress.1
    rw [if_neg hrepeat, if_neg hlock]
    refine iff_of_true ?_ (fun hpress => absurd hpress hlock)
    split
    · exact hcaps
    · rw [(typeKey_modifiers _ _).2.1]
      exact hcaps

theorem Tracks.extended_iff (h : s.Tracks) (b : BitVec 8) :
    s.hands.Extended b ↔ b = 0xE0#8 ∨ s.driver.extended = true := by
  rw [Hands.Extended, h.extended]

/-- The driver does nothing but keep the prefix. -/
theorem Tracks.driver_of_extended (h : s.Tracks) (hext : s.hands.Extended b) :
    keyboardDriverMain s.driver b = { s.driver with extended := decide (b = 0xE0#8) } := by
  by_cases hb : b = 0xE0#8
  · rw [hb, driver_prefix]
    rfl
  · rw [driver_extended _ hb (((h.extended_iff b).mp hext).resolve_left hb), decide_eq_false hb]

/-- Both sides follow the prefix. -/
theorem Tracks.exec_extended (h : s.Tracks) (e : TypingEvent) :
    (s.exec e).driver.extended = (s.exec e).hands.prefixed := by
  cases e with
  | buffer kbd => exact h.extended
  | scancode b =>
      change (keyboardDriverMain s.driver b).extended = (s.hands.receive b).prefixed
      by_cases hext : s.hands.Extended b
      · rw [h.driver_of_extended hext, Hands.receive_extended hext]
      · have hplain := (not_congr (h.extended_iff b)).mp hext
        rw [not_or] at hplain
        rw [driver_plain_extended _ hplain.1 hplain.2, h.extended]
        by_cases hbreak : IsBreak b
        · rw [Hands.receive_break hext hbreak]
          rfl
        · rw [Hands.receive_make hext hbreak, Hands.prefixed_make]

/-- Of a plain code, only the modifiers can be wrong. -/
theorem follows_plain_iff (hext : ¬ s.hands.Extended b) :
    s.Follows (.scancode b) (s.exec (.scancode b)) ↔
      ((keyboardDriverMain s.driver b).shift ≠ 0#8 ↔ (s.hands.receive b).ShiftHeld) ∧
        (keyboardDriverMain s.driver b).caps.toNat = (s.hands.receive b).capsPresses % 2 := by
  constructor
  · exact fun h => ⟨h.shift, h.caps⟩
  · rintro ⟨hshift, hcaps⟩
    refine ⟨hshift, hcaps, fun c hc hcext => ?_⟩
    cases hc
    exact absurd hcext hext

theorem Tracks.follows_extended (h : s.Tracks) (hext : s.hands.Extended b) :
    s.Follows (.scancode b) (s.exec (.scancode b)) := by
  have hdriver := h.driver_of_extended hext
  have hhands := Hands.receive_extended hext
  refine ⟨?_, ?_, ?_⟩
  · change (keyboardDriverMain s.driver b).shift ≠ 0#8 ↔ (s.hands.receive b).ShiftHeld
    rw [hdriver, hhands]
    exact h.shift
  · change (keyboardDriverMain s.driver b).caps.toNat = (s.hands.receive b).capsPresses % 2
    rw [hdriver, hhands]
    exact h.caps
  · intro c hc _
    cases hc
    change (keyboardDriverMain s.driver b).shift = _ ∧ (keyboardDriverMain s.driver b).caps = _ ∧
      (keyboardDriverMain s.driver b).kbd = _
    rw [hdriver]
    exact ⟨rfl, rfl, rfl⟩

theorem driver_break_caps (d : KbdDriver) (hb : b ≠ 0xE0#8) (hext : d.extended ≠ true)
    (hbreak : IsBreak b) : (keyboardDriverMain d b).caps = d.caps := by
  rw [driver_break d hb hext hbreak]
  split
  · rfl
  · rfl

/-- One event. -/
theorem Tracks.follows_iff (h : s.Tracks) (e : TypingEvent) :
    s.Follows e (s.exec e) ↔ s.Separate e := by
  cases e with
  | buffer kbd =>
      refine iff_of_true ⟨h.shift, h.caps, fun b hb => ?_⟩ trivial
      cases hb
  | scancode b =>
      by_cases hext : s.hands.Extended b
      · exact iff_of_true (h.follows_extended hext) (Or.inl hext)
      · have hplain := (not_congr (h.extended_iff b)).mp hext
        rw [not_or] at hplain
        rw [follows_plain_iff hext, Separate, or_iff_right hext]
        by_cases hbreak : IsBreak b
        · have hlock : b ≠ capsLock := by
            rintro rfl
            exact absurd hbreak (by decide)
          rw [Hands.receive_break hext hbreak, h.release_iff hplain.1 hplain.2 hbreak,
            driver_break_caps _ hplain.1 hplain.2 hbreak]
          exact ⟨fun hr => ⟨fun _ => hr.1, fun hl => absurd hl hlock⟩,
            fun hr => ⟨hr.1 hbreak, h.caps⟩⟩
        · rw [Hands.receive_make hext hbreak, h.caps_make_iff hplain.1 hplain.2 hbreak]
          exact ⟨fun hm => ⟨fun hk => absurd hk hbreak, hm.2⟩,
            fun hm => ⟨h.shift_make hplain.1 hplain.2 hbreak, hm.2⟩⟩

end Typing

/-- In a run of the keyboard interrupt, the modifiers follow the keys from step to step
exactly if no shift key is released while the other is held and Caps Lock never repeats. -/
theorem modifiers_follow_iff (kbd : Kbd) (events : List TypingEvent) (s : Typing) :
    Run (fun s e s' => s' = s.exec e ∧ s.Follows e s') (Typing.start kbd) events s ↔
      Run (fun s e s' => s' = s.exec e ∧ s.Separate e) (Typing.start kbd) events s := by
  refine Run.congr_along Typing.Tracks ?_ ?_ (Typing.tracks_start kbd)
  · rintro s e s' h rfl
    exact h.follows_iff e
  · rintro s e s' h rfl hfollows
    exact ⟨h.exec_extended e, hfollows.shift, hfollows.caps⟩

/-- Both shift keys go down, and the right one comes up. -/
theorem left_shift_lost :
    ¬ ∃ s, Run (fun s e s' => s' = s.exec e ∧ s.Follows e s') (Typing.start {})
      [.scancode 0x2A#8, .scancode 0x36#8, .scancode 0xB6#8] s := by
  rintro ⟨s, _ | ⟨⟨rfl, -⟩, _ | ⟨⟨rfl, -⟩, _ | ⟨⟨rfl, hlast⟩, _⟩⟩⟩⟩
  exact absurd (hlast.shift.mpr (Or.inl (by decide))) (by decide)

end Asnu
