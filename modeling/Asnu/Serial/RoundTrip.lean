import Asnu.Serial.Decimal

/-!
The numbers without a sign read back as what was printed, and `%lld` prints what it
is given but for the least number, which is its own negation.
-/

namespace Asnu

open Lib

/-- The call returns, has used its buffer of `size` bytes within its bounds, and has sent the
number `n` in digits of `base`, at least `width` of them. -/
def RoundTrips (print : Nat → Printing Unit) (cells : Nat → BitVec 8) (size base width n : Nat) :
    Prop :=
  Code.Terminates print { cells := cells }
    (fun _ b => b.Within size ∧ IsPadded decimalValue base width (ascii '0') n b.sent)

theorem isNumeral_decimal {base : Nat} (hbase : 1 < base) (hten : base ≤ 10) (n : Nat) :
    IsNumeral decimalValue base n (numeral base decimalDigit n) :=
  isNumeral_numeral (fun d hd => decimalValue_decimalDigit d (Nat.lt_of_lt_of_le hd hten)) hbase n

theorem RoundTrips.of_sends {print : Nat → Printing Unit} {cells : Nat → BitVec 8}
    {size base width n : Nat} (turns : Nat) (hbase : 1 < base) (hten : base ≤ 10)
    (hsize : ((numeral base decimalDigit n).leftpad width (ascii '0')).length < size)
    (hprint : ∀ t, turns ≤ t → Code.Returns (print t) { cells := cells }
      (fun _ b => b.Sends ((numeral base decimalDigit n).leftpad width (ascii '0')))) :
    RoundTrips print cells size base width n := by
  refine ⟨turns, fun t ht => (hprint t ht).mono (fun _ b hb => ⟨hb.within hsize, ?_⟩)⟩
  rw [hb.sent]
  have hpos : 0 < base := by omega
  exact (isNumeral_decimal hbase hten n).leftpad (by decide) hpos width

/-- A numeral has a digit. -/
theorem leftpad_one (base n : Nat) :
    (numeral base decimalDigit n).leftpad 1 (ascii '0') = numeral base decimalDigit n := by
  have hlength : (numeral base decimalDigit n).length ≠ 0 := by
    unfold numeral
    split
    · decide
    · next hn =>
        rw [List.length_reverse, List.length_map, ne_eq, List.length_eq_zero_iff]
        exact Nat.digits_ne_nil_iff_ne_zero.mpr hn
  have hnone : 1 - (numeral base decimalDigit n).length = 0 := by omega
  rw [List.leftpad, hnone, List.replicate_zero, List.nil_append]

theorem numeral_length_lt {base n k size : Nat} (hbase : 1 < base) (hk : 0 < k)
    (hn : n < base ^ k) (hsize : k < size) : (numeral base decimalDigit n).length < size :=
  Nat.lt_of_le_of_lt ((numeral_length_le_iff hbase decimalDigit hk).mpr hn) hsize

/-- What is printed without a sign reads back, in every base, and is not longer than its
buffer. -/
theorem unsigned_round_trips (cells : Nat → BitVec 8) :
    (∀ value : BitVec 32,
      RoundTrips (fun turns => serialWriteUint turns value) cells 16 10 4 value.toNat) ∧
    (∀ value : BitVec 32,
      RoundTrips (fun turns => serialWriteOctal turns value) cells 16 8 1 value.toNat) ∧
    ∀ v : BitVec 64, RoundTrips (fun turns => writeLlu turns v) cells 32 10 1 v.toNat := by
  refine ⟨fun value => ?_, fun value => ?_, fun v => ?_⟩
  · have hlength : (numeral 10 decimalDigit value.toNat).length < 16 :=
      numeral_length_lt (k := 10) (by decide) (by decide)
        (Nat.lt_trans value.isLt (by decide)) (by decide)
    refine .of_sends 33 (by decide) (by decide) ?_ (fun _ => serialWriteUint_returns cells value)
    rw [List.length_leftpad]
    omega
  · have hlength : (numeral 8 decimalDigit value.toNat).length < 16 :=
      numeral_length_lt (k := 11) (by decide) (by decide)
        (Nat.lt_trans value.isLt (by decide)) (by decide)
    refine .of_sends 33 (by decide) (by decide) ?_ (fun turns hturns => ?_)
    · rwa [leftpad_one]
    · rw [leftpad_one]
      exact serialWriteOctal_returns cells value hturns
  · have hlength : (numeral 10 decimalDigit v.toNat).length < 32 :=
      numeral_length_lt (k := 20) (by decide) (by decide)
        (Nat.lt_trans v.isLt (by decide)) (by decide)
    refine .of_sends 33 (by decide) (by decide) ?_ (fun turns hturns => ?_)
    · rwa [leftpad_one]
    · rw [leftpad_one]
      exact writeLlu_returns cells v hturns

/-! ### The numbers with a sign -/

/-- A minus sign exactly if the number is negative, and its absolute value in as few digits
as possible. -/
def IsSigned (v : BitVec 64) (text : List (BitVec 8)) : Prop :=
  ∃ ds, IsNumeral decimalValue 10 v.toInt.natAbs ds ∧
    text = (if v.slt 0#64 then [ascii '-'] else []) ++ ds

/-- `%lld` returns, has used its buffer within its bounds, and has sent the number. -/
def LldExact (cells : Nat → BitVec 8) (v : BitVec 64) : Prop :=
  Code.Terminates (fun turns => writeLld turns v) { cells := cells }
    (fun _ b => b.Within 32 ∧ IsSigned v b.sent)

theorem lldExact_iff_isSigned (cells : Nat → BitVec 8) (v : BitVec 64) :
    LldExact cells v ↔ IsSigned v (lldText v) := by
  have hlength := lldText_length_le v
  constructor
  · rintro ⟨bound, hbound⟩
    obtain ⟨_, b, heq, _, hsigned⟩ := hbound (max bound 33) (Nat.le_max_left _ _)
    have hsends := (writeLld_returns cells v (Nat.le_max_right bound 33)).ensures _ b heq
    rwa [hsends.sent] at hsigned
  · intro hsigned
    refine ⟨33, fun turns hturns => (writeLld_returns cells v hturns).mono (fun _ b hb => ?_)⟩
    refine ⟨hb.within (by omega), ?_⟩
    rwa [hb.sent]

/-- The least number stays negative. -/
theorem toInt_lldRest (v : BitVec 64) :
    (lldRest v).toInt = if v = BitVec.intMin 64 then v.toInt else v.toInt.natAbs := by
  unfold lldRest
  by_cases hneg : v.slt 0#64 = true
  · have hlt : v.toInt < 0 := by simpa [BitVec.slt] using hneg
    rw [if_pos hneg, BitVec.toInt_neg_eq_ite]
    split
    · next hleast => rw [hleast]
    · omega
  · have hpos : 0 ≤ v.toInt := by simpa [BitVec.slt] using hneg
    rw [if_neg hneg]
    split
    · rfl
    · omega

theorem lldDigits_reverse {v : BitVec 64} (hv : v ≠ BitVec.intMin 64) :
    (lldDigits v).reverse = numeral 10 decimalDigit v.toInt.natAbs := by
  have hrest := toInt_lldRest v
  rw [if_neg hv] at hrest
  have hzero : isZero (lldRest v) = true ↔ v.toInt.natAbs = 0 := by
    rw [isZero, decide_eq_true_iff, ← BitVec.toInt_inj, hrest, BitVec.toInt_zero]
    omega
  unfold lldDigits numeral
  simp only [hzero, hrest, Int.toNat_natCast]
  split
  · rfl
  · rfl

theorem lldText_least : lldText (BitVec.intMin 64) = [ascii '-'] := by decide

/-- No digit is left behind the sign of the least number. -/
theorem not_isSigned_least : ¬ IsSigned (BitVec.intMin 64) (lldText (BitVec.intMin 64)) := by
  rintro ⟨ds, hds, htext⟩
  rw [lldText_least, if_pos (by decide)] at htext
  exact hds.nonempty (List.cons.inj htext).2.symm

/-- Every number but the least is printed. -/
theorem lld_exact_iff (cells : Nat → BitVec 8) (v : BitVec 64) :
    LldExact cells v ↔ v ≠ BitVec.intMin 64 := by
  rw [lldExact_iff_isSigned]
  constructor
  · rintro hsigned rfl
    exact not_isSigned_least hsigned
  · intro hv
    refine ⟨_, isNumeral_decimal (by decide) (by decide) _, ?_⟩
    rw [lldText, lldDigits_reverse hv]

theorem least_prints_sign_only :
    Code.Terminates (fun turns => writeLld turns (BitVec.intMin 64)) { cells := fun _ => 0#8 }
        (fun _ b => b.sent = [ascii '-']) ∧
      ¬ LldExact (fun _ => 0#8) (BitVec.intMin 64) := by
  refine ⟨⟨33, fun turns hturns => ?_⟩, fun h => ?_⟩
  · refine (writeLld_returns _ _ hturns).mono (fun _ b hb => ?_)
    rw [hb.sent, lldText_least]
  · exact not_isSigned_least ((lldExact_iff_isSigned _ _).mp h)

end Asnu
