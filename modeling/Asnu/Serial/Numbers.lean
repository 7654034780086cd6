import Asnu.Serial

/-!
The conversions of `serial.c` that print a number from a buffer of their own. In
the source the buffers have 16 bytes, and 32 in `serial_fwrite` itself; here they
have no end, and the places stored to are kept.
-/

namespace Asnu

open Lib

abbrev Printing := Code (Buffer (BitVec 8))

def isZero {w : Nat} (v : BitVec w) : Bool := decide (v = 0#w)

theorem isZero_iff {w : Nat} (v : BitVec w) : isZero v = true ↔ v.toNat = 0 := by
  rw [isZero, decide_eq_true_iff, ← BitVec.toNat_inj, BitVec.toNat_ofNat, Nat.zero_mod]

/-- Digits of a number without a sign, by division. -/
def unsignedLoop {w : Nat} (base : BitVec w) : DigitLoop (BitVec w) (BitVec 8) where
  more := fun v => decide (0#w < v)
  digit := fun v => ascii '0' + (v % base).setWidth 8
  next := fun v => v / base

def uintDigits (turns : Nat) (value : BitVec 32) : Printing Nat :=
  if value = 0#32 then do
    Buffer.store 0 (ascii '0')
    Buffer.store 1 (ascii '0')
    Buffer.store 2 (ascii '0')
    Buffer.store 3 (ascii '0')
    pure 4
  else do
    let i ← Buffer.digits (unsignedLoop 10#32) turns value 0
    Buffer.pad (ascii '0') (4 - i) i

def serialWriteUint (turns : Nat) (value : BitVec 32) : Printing Unit := do
  let i ← uintDigits turns value
  Buffer.reverse i (i / 2) 0
  Buffer.store i 0#8
  Buffer.emit 0#8 turns 0

def hexDigits (uppercase : Bool) : List (BitVec 8) :=
  (if uppercase then "0123456789ABCDEF" else "0123456789abcdef").toList.map ascii

def hexDigit (uppercase : Bool) (d : Nat) : BitVec 8 := (hexDigits uppercase).getD d 0#8

def hexLoop (uppercase : Bool) : DigitLoop (BitVec 64) (BitVec 8) where
  more := fun v => decide (0#64 < v)
  digit := fun v => hexDigit uppercase (v &&& 0xF#64).toNat
  next := fun v => v >>> 4

def serialWriteHex (turns : Nat) (value : BitVec 64) (uppercase : Bool) : Printing Unit :=
  Buffer.print (ascii '0') 0#8 isZero (hexLoop uppercase) turns value

def serialWriteOctal (turns : Nat) (value : BitVec 32) : Printing Unit :=
  Buffer.print (ascii '0') 0#8 isZero (unsignedLoop 8#32) turns value

/-- The case of `%llu`; the terminator is there before the digits are turned round. -/
def writeLlu (turns : Nat) (v : BitVec 64) : Printing Unit := do
  let i ← Buffer.number (ascii '0') isZero (unsignedLoop 10#64) turns v
  Buffer.store i 0#8
  Buffer.reverse i (i / 2) 0
  Buffer.emit 0#8 turns 0

def signedLoop : DigitLoop (BitVec 64) (BitVec 8) where
  more := fun v => (0#64).slt v
  digit := fun v => ascii '0' + (v.srem 10#64).setWidth 8
  next := fun v => v.sdiv 10#64

def lldSign (neg : Bool) (i : Nat) : Printing Nat :=
  if neg then do
    Buffer.store i (ascii '-')
    pure (i + 1)
  else pure i

/-- The case of `%lld`. -/
def writeLld (turns : Nat) (v : BitVec 64) : Printing Unit := do
  let neg := v.slt 0#64
  let v := if neg then -v else v
  let i ← Buffer.number (ascii '0') isZero signedLoop turns v
  let i ← lldSign neg i
  Buffer.store i 0#8
  Buffer.reverse i (i / 2) 0
  Buffer.emit 0#8 turns 0

/-! ### Digits -/

def decimalDigit (d : Nat) : BitVec 8 := ascii '0' + BitVec.ofNat 8 d

/-- The digit a character stands for. -/
def decimalValue (c : BitVec 8) : Option Nat :=
  if ascii '0' ≤ c ∧ c ≤ ascii '9' then some (c - ascii '0').toNat else none

theorem decimalValue_decimalDigit : ∀ d < 10, decimalValue (decimalDigit d) = some d := by
  decide

def hexValue (uppercase : Bool) (c : BitVec 8) : Option Nat :=
  let a := if uppercase then ascii 'A' else ascii 'a'
  if ascii '0' ≤ c ∧ c ≤ ascii '9' then some (c - ascii '0').toNat
  else if a ≤ c ∧ c < a + 6#8 then some (10 + (c - a).toNat)
  else none

theorem hexValue_hexDigit (uppercase : Bool) :
    ∀ d < 16, hexValue uppercase (hexDigit uppercase d) = some d := by
  cases uppercase <;> decide

theorem hexLoop_yields (uppercase : Bool) (v : BitVec 64) :
    (hexLoop uppercase).Yields v ((Nat.digits 16 v.toNat).map (hexDigit uppercase)) := by
  refine DigitLoop.yields_digits _ (by decide) BitVec.toNat (hexDigit uppercase) ?_ ?_ ?_ v
  · intro v
    simp [hexLoop, BitVec.lt_def]
  · intro v _
    have hlow : (v &&& 0xF#64).toNat = v.toNat % 16 := by
      rw [BitVec.toNat_and]
      exact Nat.and_two_pow_sub_one_eq_mod v.toNat 4
    exact congrArg (hexDigit uppercase) hlow
  · intro v _
    change (v >>> 4).toNat = v.toNat / 16
    rw [BitVec.toNat_ushiftRight, Nat.shiftRight_eq_div_pow]

/-- The loops end, and the terminator is the last place stored to. -/
theorem serialWriteHex_returns (cells : Nat → BitVec 8) (value : BitVec 64) (uppercase : Bool)
    {turns : Nat} (hturns : 17 ≤ turns) :
    Code.Returns (serialWriteHex turns value uppercase) { cells := cells }
      (fun _ b => b.Sends (numeral 16 (hexDigit uppercase) value.toNat)) := by
  have hzero : ascii '0' = hexDigit uppercase 0 := by cases uppercase <;> decide
  have hlength : (numeral 16 (hexDigit uppercase) value.toNat).length ≤ 16 :=
    (numeral_length_le_iff (by decide) _ (by decide)).mpr value.isLt
  have hchars : ∀ c ∈ numeral 16 (hexDigit uppercase) value.toNat, c ≠ 0#8 := by
    rintro c hc rfl
    obtain ⟨d, hd, _⟩ :=
      (isNumeral_numeral (hexValue_hexDigit uppercase) (by decide) value.toNat).digits _ hc
    have hnone : hexValue uppercase 0#8 = none := by cases uppercase <;> decide
    rw [hnone] at hd
    cases hd
  rw [serialWriteHex, hzero]
  have henough : (numeral 16 (hexDigit uppercase) value.toNat).length < turns := by omega
  exact Buffer.print_returns cells (isZero_iff value) (hexLoop_yields uppercase value) hchars
    henough

/-- The call returns, has stored to the sixteen bytes only, and has sent the shortest text
that reads back as the value. -/
def HexExact (cells : Nat → BitVec 8) (value : BitVec 64) (uppercase : Bool) : Prop :=
  Code.Terminates (fun turns => serialWriteHex turns value uppercase) { cells := cells }
    (fun _ b => (∀ i ∈ b.stores, i < 16) ∧
      IsNumeral (hexValue uppercase) 16 value.toNat b.sent)

/-- The terminator is inside if there are at most fifteen digits. -/
theorem HexExact.bound {cells : Nat → BitVec 8} {value : BitVec 64} {uppercase : Bool}
    (h : HexExact cells value uppercase) : value.toNat < 16 ^ 15 := by
  obtain ⟨bound, hbound⟩ := h
  obtain ⟨_, b, heq, hinside, _⟩ := hbound (max bound 17) (Nat.le_max_left _ _)
  have hreturns := serialWriteHex_returns cells value uppercase (Nat.le_max_right bound 17)
  have hstores := (hreturns.ensures _ b heq).stores
  have hlength := hinside _ ((hstores _).mpr (Nat.le_refl _))
  exact (numeral_length_le_iff (by decide) _ (by decide)).mp (Nat.lt_succ_iff.mp hlength)

theorem serial_write_hex_iff (cells : Nat → BitVec 8) (value : BitVec 64) (uppercase : Bool) :
    HexExact cells value uppercase ↔ value.toNat < 2 ^ 60 := by
  have hpow : (16 : Nat) ^ 15 = 2 ^ 60 := by decide
  rw [← hpow]
  refine ⟨HexExact.bound, fun hvalue => ⟨17, fun turns hturns => ?_⟩⟩
  have hlength : (numeral 16 (hexDigit uppercase) value.toNat).length ≤ 15 :=
    (numeral_length_le_iff (by decide) _ (by decide)).mpr hvalue
  refine (serialWriteHex_returns cells value uppercase hturns).mono ?_
  intro _ b hb
  refine ⟨fun i hi => ?_, ?_⟩
  · have hle := (hb.stores i).mp hi
    omega
  · rw [hb.sent]
    exact isNumeral_numeral (hexValue_hexDigit uppercase) (by decide) _

/-- A pointer into the upper half has sixteen digits. -/
theorem upper_half_overruns : ¬ HexExact (fun _ => 0#8) 0xFFFFFFFF80000000#64 false :=
  fun h => absurd h.bound (by decide)

/-! ### The others -/

theorem unsignedLoop_yields {w : Nat} {base : BitVec w} (hbase : 1 < base.toNat) (v : BitVec w) :
    (unsignedLoop base).Yields v ((Nat.digits base.toNat v.toNat).map decimalDigit) := by
  refine DigitLoop.yields_digits _ hbase BitVec.toNat decimalDigit ?_ ?_ ?_ v
  · intro v
    simp [unsignedLoop, BitVec.lt_def]
  · intro v _
    have hdigit : (v % base).setWidth 8 = BitVec.ofNat 8 (v.toNat % base.toNat) := by
      apply BitVec.eq_of_toNat_eq
      rw [BitVec.toNat_setWidth, BitVec.toNat_umod, BitVec.toNat_ofNat]
    exact congrArg (ascii '0' + ·) hdigit
  · intro v _
    exact BitVec.toNat_udiv

theorem signedLoop_yields (v : BitVec 64) :
    signedLoop.Yields v (digitText v.toInt.toNat) := by
  have hten : 1 < 10 := by decide
  refine DigitLoop.yields_digits _ hten (fun v => v.toInt.toNat) decimalDigit ?_ ?_ ?_ v
  · intro v
    simp [signedLoop, BitVec.slt]
  · intro v hv
    exact congrArg (ascii '0' + ·) (srem_ten (by decide) (by omega))
  · intro v hv
    exact toNat_sdiv_ten (by decide) (by omega)

theorem decimalDigit_ne_zero : ∀ d < 10, decimalDigit d ≠ 0#8 := by decide

theorem numeral_ne_zero {base : Nat} (hbase : 1 < base) (hten : base ≤ 10) {n : Nat} {c : BitVec 8}
    (hc : c ∈ numeral base decimalDigit n) : c ≠ 0#8 := by
  unfold numeral at hc
  split at hc
  · obtain rfl := List.mem_singleton.mp hc
    decide
  · obtain ⟨d, hd, rfl⟩ := List.mem_map.mp (List.mem_reverse.mp hc)
    exact decimalDigit_ne_zero d (Nat.lt_of_lt_of_le (Nat.digits_lt_base hbase hd) hten)

theorem serialWriteOctal_returns (cells : Nat → BitVec 8) (value : BitVec 32) {turns : Nat}
    (hturns : 33 ≤ turns) :
    Code.Returns (serialWriteOctal turns value) { cells := cells }
      (fun _ b => b.Sends (numeral 8 decimalDigit value.toNat)) := by
  have hlength : (numeral 8 decimalDigit value.toNat).length ≤ 11 := by
    refine (numeral_length_le_iff (by decide) _ (by decide)).mpr (Nat.lt_trans value.isLt ?_)
    decide
  have hyields : (unsignedLoop 8#32).Yields value ((Nat.digits 8 value.toNat).map decimalDigit) :=
    unsignedLoop_yields (by decide) value
  have hchars : ∀ c ∈ numeral 8 decimalDigit value.toNat, c ≠ 0#8 :=
    fun c hc => numeral_ne_zero (by decide) (by decide) hc
  have henough : (numeral 8 decimalDigit value.toNat).length < turns := by omega
  exact Buffer.print_returns cells (isZero_iff value) hyields hchars henough

theorem uintDigits_returns (cells : Nat → BitVec 8) (value : BitVec 32) {turns : Nat}
    (hturns : 33 ≤ turns) :
    Code.Returns (uintDigits turns value) { cells := cells } (fun i b =>
      i = ((numeral 10 decimalDigit value.toNat).leftpad 4 (ascii '0')).reverse.length ∧
        Buffer.Holds 0#8 ((numeral 10 decimalDigit value.toNat).leftpad 4 (ascii '0')).reverse
          b) := by
  have hstart : Buffer.Holds 0#8 [] { cells := cells } := Buffer.holds_nil cells
  unfold uintDigits
  by_cases hvalue : value = 0#32
  · rw [if_pos hvalue, hvalue]
    refine (hstart.store _).bind (fun _ b₁ h₁ => (h₁.store _).bind (fun _ b₂ h₂ =>
      (h₂.store _).bind (fun _ b₃ h₃ => (h₃.store _).bind (fun _ b₄ h₄ => ?_))))
    exact Code.returns_pure.mpr ⟨rfl, h₄⟩
  · have hpos : value.toNat ≠ 0 := fun hzero => hvalue (BitVec.eq_of_toNat_eq hzero)
    have hyields : (unsignedLoop 10#32).Yields value
        ((Nat.digits 10 value.toNat).map decimalDigit) := unsignedLoop_yields (by decide) value
    have hlength : (Nat.digits 10 value.toNat).length ≤ 10 := by
      refine (Nat.digits_length_le_iff (by decide) _).mpr (Nat.lt_trans value.isLt ?_)
      decide
    rw [if_neg hvalue, numeral, if_neg hpos, List.leftpad, List.reverse_append,
      List.reverse_reverse, List.reverse_replicate, List.length_reverse]
    refine (hstart.digits hyields (by rw [List.length_map]; omega)).bind ?_
    rintro _ b ⟨rfl, hb⟩
    rw [List.nil_append] at hb ⊢
    exact hb.pad _ _

/-- At least four digits. -/
theorem serialWriteUint_returns (cells : Nat → BitVec 8) (value : BitVec 32) {turns : Nat}
    (hturns : 33 ≤ turns) :
    Code.Returns (serialWriteUint turns value) { cells := cells }
      (fun _ b => b.Sends ((numeral 10 decimalDigit value.toNat).leftpad 4 (ascii '0'))) := by
  have hlength : (numeral 10 decimalDigit value.toNat).length ≤ 10 := by
    refine (numeral_length_le_iff (by decide) _ (by decide)).mpr (Nat.lt_trans value.isLt ?_)
    decide
  have hchars : ∀ c ∈ (numeral 10 decimalDigit value.toNat).leftpad 4 (ascii '0'), c ≠ 0#8 := by
    intro c hc
    rcases List.mem_append.mp hc with hpad | hdigit
    · obtain rfl := (List.mem_replicate.mp hpad).2
      decide
    · exact numeral_ne_zero (by decide) (by decide) hdigit
  have henough : ((numeral 10 decimalDigit value.toNat).leftpad 4 (ascii '0')).length < turns := by
    rw [List.length_leftpad]
    omega
  refine (uintDigits_returns cells value (by omega)).bind ?_
  rintro _ b ⟨rfl, hb⟩
  rw [← List.append_nil (List.reverse _)] at hb
  refine hb.reverse.bind (fun _ b' hb' => ?_)
  rw [List.append_nil, List.reverse_reverse] at hb'
  rw [List.length_reverse]
  exact (hb'.store 0#8).bind (fun _ b'' hb'' => hb''.emit hchars henough)

/-- The terminator is stored before the digits are turned round. -/
theorem writeLlu_returns (cells : Nat → BitVec 8) (v : BitVec 64) {turns : Nat}
    (hturns : 33 ≤ turns) :
    Code.Returns (writeLlu turns v) { cells := cells }
      (fun _ b => b.Sends (numeral 10 decimalDigit v.toNat)) := by
  have hlength : (numeral 10 decimalDigit v.toNat).length ≤ 20 := by
    refine (numeral_length_le_iff (by decide) _ (by decide)).mpr (Nat.lt_trans v.isLt ?_)
    decide
  have hyields : (unsignedLoop 10#64).Yields v ((Nat.digits 10 v.toNat).map decimalDigit) :=
    unsignedLoop_yields (by decide) v
  have henough : (numeral 10 decimalDigit v.toNat).length < turns := by omega
  refine (Buffer.number_returns 0#8 (isZero_iff v) hyields henough).bind ?_
  rintro _ b ⟨rfl, hb⟩
  refine (hb.store 0#8).bind (fun _ b' hb' => hb'.reverse.bind (fun _ b'' hb'' => ?_))
  rw [List.reverse_reverse] at hb''
  exact hb''.emit (fun c hc => numeral_ne_zero (by decide) (by decide) hc) henough

/-- The number that `%lld` has left to write in digits. -/
def lldRest (v : BitVec 64) : BitVec 64 := if v.slt 0#64 then -v else v

def lldDigits (v : BitVec 64) : List (BitVec 8) :=
  if isZero (lldRest v) then [ascii '0'] else digitText (lldRest v).toInt.toNat

/-- The digits, behind the sign. -/
def lldText (v : BitVec 64) : List (BitVec 8) :=
  (if v.slt 0#64 then [ascii '-'] else []) ++ (lldDigits v).reverse

theorem lld_length_le (v : BitVec 64) : (digitText v.toInt.toNat).length ≤ 19 := by
  have hlt := BitVec.toInt_lt (x := v)
  rw [digitText, List.length_map]
  exact (Nat.digits_length_le_iff (by decide) _).mpr (by omega)

theorem lldText_length_le (v : BitVec 64) : (lldText v).length ≤ 20 := by
  have hdigits : (lldDigits v).length ≤ 19 := by
    unfold lldDigits
    split
    · decide
    · exact lld_length_le (lldRest v)
  rw [lldText, List.length_append, List.length_reverse]
  split
  · rw [List.length_singleton]
    omega
  · rw [List.length_nil]
    omega

theorem lldText_ne_zero {v : BitVec 64} {c : BitVec 8} (hc : c ∈ lldText v) : c ≠ 0#8 := by
  rcases List.mem_append.mp hc with hsign | hdigit
  · split at hsign
    · obtain rfl := List.mem_singleton.mp hsign
      decide
    · cases hsign
  · unfold lldDigits at hdigit
    split at hdigit
    · obtain rfl := List.mem_singleton.mp (List.mem_reverse.mp hdigit)
      decide
    · obtain ⟨d, hd, rfl⟩ := List.mem_map.mp (List.mem_reverse.mp hdigit)
      exact decimalDigit_ne_zero d (Nat.digits_lt_base (by decide) hd)

theorem lldSign_returns {l : List (BitVec 8)} {b : Buffer (BitVec 8)} (h : b.Holds 0#8 l)
    (neg : Bool) :
    Code.Returns (lldSign neg l.length) b (fun i t =>
      i = (l ++ if neg then [ascii '-'] else []).length ∧
        t.Holds 0#8 (l ++ if neg then [ascii '-'] else [])) := by
  cases neg with
  | false =>
      refine Code.returns_pure.mpr ?_
      simpa using h
  | true =>
      refine (h.store _).bind (fun _ t ht => Code.returns_pure.mpr ⟨?_, ht⟩)
      rw [List.length_append]
      rfl

theorem writeLld_returns (cells : Nat → BitVec 8) (v : BitVec 64) {turns : Nat}
    (hturns : 33 ≤ turns) :
    Code.Returns (writeLld turns v) { cells := cells } (fun _ b => b.Sends (lldText v)) := by
  have hlength := lldText_length_le v
  have henough : (digitText (lldRest v).toInt.toNat).length < turns := by
    have hdigits := lld_length_le (lldRest v)
    omega
  have htext : (lldDigits v ++ if v.slt 0#64 then [ascii '-'] else []).reverse = lldText v := by
    rw [List.reverse_append, lldText]
    split
    · rfl
    · rfl
  have hnumber : Code.Returns (Buffer.number (ascii '0') isZero signedLoop turns (lldRest v))
      { cells := cells } (fun i t => i = (lldDigits v).length ∧ t.Holds 0#8 (lldDigits v)) :=
    Buffer.number_holds _ 0#8 (signedLoop_yields (lldRest v)) henough
  refine hnumber.bind ?_
  rintro _ b ⟨rfl, hb⟩
  refine (lldSign_returns hb (v.slt 0#64)).bind ?_
  rintro _ b' ⟨rfl, hb'⟩
  refine (hb'.store 0#8).bind (fun _ b'' hb'' => hb''.reverse.bind (fun _ b''' hend => ?_))
  rw [htext] at hend
  exact hend.emit (fun c hc => lldText_ne_zero hc) (by omega)

end Asnu
