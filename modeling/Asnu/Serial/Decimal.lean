import Asnu.Serial.Interrupted
import Asnu.Serial.Numbers

/-!
The text of `serial_i2s` after any calls before. What it returns is always the
text it writes for the value, whether that is kept from the last call or written
anew; which values are written as decimal numbers is another matter.
-/

namespace Asnu

open Lib

/-- After calls of `serial_i2s` since the start. -/
def afterI2s (values : List (BitVec 32)) : Serial :=
  values.foldl (fun s v => ((serialI2s v).alone s).2) Serial.start

/-- The string at `temp`, which has 16 bytes. -/
def I2s.text (c : I2s) : List (BitVec 8) :=
  ((List.range 16).map c.temp).takeWhile (fun b => b ≠ 0#8)

/-- The string that the call for `value` returns. -/
def i2sText (earlier : List (BitVec 32)) (value : BitVec 32) : List (BitVec 8) :=
  (afterI2s (earlier ++ [value])).i2s.text

/-- `text` is the value in decimal: a minus sign in front exactly if it is negative, and
digits, with zeros before them only to make up four characters. -/
structure IsDecimal (value : BitVec 32) (text ds : List (BitVec 8)) : Prop where
  sign : text = signText value ++ ds
  digits : ∀ c ∈ ds, ∃ d ∈ decimalValue c, d < 10
  width : 4 ≤ text.length
  padding : 4 < text.length → ascii '0' ∉ ds.head?
  reads : (if value.slt 0#32 then -(readBack decimalValue 10 ds : Int)
    else readBack decimalValue 10 ds) = value.toInt

theorem I2s.Reads.text {v : BitVec 32} {c : I2s} (h : c.Reads v 0) : c.text = render v := by
  obtain ⟨n, hn⟩ : ∃ n, 16 = (render v).length + (n + 1) :=
    ⟨15 - (render v).length, by have := render_length_le v; omega⟩
  have hchars : (List.range (render v).length).map c.temp = render v := by
    refine List.ext_getElem (by simp) (fun k hk hk' => ?_)
    rw [List.getElem_map, List.getElem_range, h k (Nat.zero_le _) (Nat.le_of_lt hk'),
      List.getD_eq_getElem _ _ hk']
  have hstop : c.temp ((render v).length + 0) = 0#8 := by
    rw [Nat.add_zero, h _ (Nat.zero_le _) (Nat.le_refl _), List.getD_eq_default _ _ (Nat.le_refl _)]
  rw [I2s.text, hn, List.range_add, List.map_append, hchars, List.range_succ_eq_map,
    List.map_cons, List.map_cons, hstop, List.takeWhile_append_of_pos, List.takeWhile_cons_of_neg,
    List.append_nil]
  · simp
  · intro b hb
    exact decide_eq_true (render_ne_zero hb)

/-- One call, whatever the calls before. -/
theorem serialI2s_sent {s : Serial} (hok : s.i2s.Ok) (value : BitVec 32) :
    Sent (fun c => c.Ok ∧ c.Reads value 0) s.out ((serialI2s value).alone s).2 :=
  (Harmless.idle.serialI2s value).alone (show Sent I2s.Ok s.out s from ⟨hok, rfl⟩)

theorem afterI2s_ok (values : List (BitVec 32)) : (afterI2s values).i2s.Ok := by
  unfold afterI2s
  generalize hs : Serial.start = s
  have hok : s.i2s.Ok := hs ▸ Serial.start_ok
  clear hs
  induction values generalizing s with
  | nil => exact hok
  | cons value values ih => exact ih _ (serialI2s_sent hok value).1.1

/-- A kept text is the one that would be written. -/
theorem i2sText_eq (earlier : List (BitVec 32)) (value : BitVec 32) :
    i2sText earlier value = render value := by
  rw [i2sText, afterI2s, List.foldl_append]
  exact (serialI2s_sent (afterI2s_ok earlier) value).1.2.text

/-! ### Which values are written right -/

theorem digitText_eq (n : Nat) : digitText n = (Nat.digits 10 n).map decimalDigit := rfl

theorem readBack_digitText (n : Nat) : readBack decimalValue 10 (digitText n).reverse = n := by
  rw [digitText_eq, readBack_digits decimalValue_decimalDigit
    (fun d hd => Nat.digits_lt_base (by decide) hd), Nat.ofDigits_digits]

theorem isDigit_digitText {n : Nat} {c : BitVec 8} (hc : c ∈ digitText n) :
    ∃ d ∈ decimalValue c, d < 10 := by
  obtain ⟨d, hd, rfl⟩ := List.mem_map.mp hc
  have hlt := Nat.digits_lt_base (by decide) hd
  exact ⟨d, decimalValue_decimalDigit d hlt, hlt⟩

/-- The first digit of a number that is not 0 is not 0. -/
theorem head_digitText {n : Nat} (hn : n ≠ 0) : ascii '0' ∉ (digitText n).reverse.head? := by
  have hnumeral := isNumeral_numeral decimalValue_decimalDigit (by decide) n
  rw [numeral, if_neg hn, ← digitText_eq] at hnumeral
  intro hhead
  have hzero : decimalValue (ascii '0') = some 0 := by decide
  obtain ⟨c, htext⟩ := List.length_eq_one_iff.mp (hnumeral.shortest ⟨_, hhead, hzero⟩)
  rw [htext] at hhead
  obtain rfl : c = ascii '0' := Option.some.inj hhead
  have hreads := hnumeral.reads
  rw [htext] at hreads
  exact hn hreads.symm

theorem magnitude_of_nonneg {v : BitVec 32} (hv : 0 ≤ v.toInt) : (magnitude v : Int) = v.toInt := by
  have hpos : ¬ v.slt 0#32 := by simpa [BitVec.slt] using hv
  rw [magnitude, if_neg hpos]
  omega

/-- The least number is its own negation. -/
theorem magnitude_of_neg {v : BitVec 32} (hv : v.toInt < 0) :
    (magnitude v : Int) = if v = BitVec.intMin 32 then 0 else -v.toInt := by
  have hneg : v.slt 0#32 := by simpa [BitVec.slt] using hv
  rw [magnitude, if_pos hneg, BitVec.toInt_neg_eq_ite]
  split
  · omega
  · omega

theorem render_eq (v : BitVec 32) :
    render v = List.replicate (4 - (signText v ++ (digitText (magnitude v)).reverse).length)
      (ascii '0') ++ (signText v ++ (digitText (magnitude v)).reverse) := rfl

/-- A number without a sign. -/
theorem isDecimal_of_nonneg {v : BitVec 32} (hv : 0 ≤ v.toInt) :
    IsDecimal v (render v) (render v) := by
  have hpos : ¬ v.slt 0#32 := by simpa [BitVec.slt] using hv
  have hsign : signText v = [] := if_neg hpos
  have hrender := render_eq v
  rw [hsign, List.nil_append] at hrender
  refine ⟨by rw [hsign, List.nil_append], fun c hc => ?_, ?_, fun hlong => ?_, ?_⟩
  · rw [hrender, List.mem_append, List.mem_replicate, List.mem_reverse] at hc
    rcases hc with ⟨-, rfl⟩ | hc
    · decide
    · exact isDigit_digitText hc
  · rw [hrender, List.length_append, List.length_replicate]
    omega
  · rw [hrender, List.length_append, List.length_replicate] at hlong
    have hnone : 4 - (digitText (magnitude v)).reverse.length = 0 := by omega
    rw [hrender, hnone, List.replicate_zero, List.nil_append]
    refine head_digitText (fun hzero => ?_)
    rw [hzero] at hlong
    exact absurd hlong (by decide)
  · rw [if_neg hpos, hrender, readBack_replicate _ _ (by decide), readBack_digitText,
      magnitude_of_nonneg hv]

/-- The minus sign and at least three digits leave no room for zeros before it. -/
theorem isDecimal_neg_iff {v : BitVec 32} (hv : v.toInt < 0) :
    (∃ ds, IsDecimal v (render v) ds) ↔ 100 ≤ magnitude v := by
  have hneg : v.slt 0#32 := by simpa [BitVec.slt] using hv
  have hsign : signText v = [ascii '-'] := if_pos hneg
  have hlength : 2 < (digitText (magnitude v)).length ↔ 100 ≤ magnitude v := by
    rw [digitText_eq, List.length_map]
    exact Nat.lt_digits_length_iff (by decide) _
  have hrender := render_eq v
  rw [hsign, List.singleton_append, List.length_cons, List.length_reverse] at hrender
  rw [← hlength]
  constructor
  · rintro ⟨ds, hds⟩
    by_contra hshort
    obtain ⟨k, hk⟩ : ∃ k, 4 - ((digitText (magnitude v)).length + 1) = k + 1 :=
      ⟨2 - (digitText (magnitude v)).length, by omega⟩
    have hhead := hds.sign
    rw [hrender, hk, hsign, List.replicate_succ, List.cons_append, List.singleton_append] at hhead
    exact absurd (List.cons.inj hhead).1 (by decide)
  · intro hlong
    have hnone : 4 - ((digitText (magnitude v)).length + 1) = 0 := by omega
    rw [hnone, List.replicate_zero, List.nil_append] at hrender
    have hmagnitude := magnitude_of_neg hv
    have hbig := hlength.mp hlong
    refine ⟨(digitText (magnitude v)).reverse, ?_, ?_, ?_, fun _ => ?_, ?_⟩
    · rw [hrender, hsign, List.singleton_append]
    · exact fun c hc => isDigit_digitText (List.mem_reverse.mp hc)
    · rw [hrender, List.length_cons, List.length_reverse]
      omega
    · exact head_digitText (by omega)
    · rw [if_pos hneg, readBack_digitText, hmagnitude]
      split
      · next hleast =>
          rw [if_pos hleast] at hmagnitude
          omega
      · exact Int.neg_neg _

/-- After any calls, a value is returned as it would be at first, and the text is its decimal
numeral exactly if it has no sign, or three digits behind the sign and is not the least. -/
theorem i2s_decimal_iff (earlier : List (BitVec 32)) (value : BitVec 32) :
    ((∃ ds, IsDecimal value (i2sText earlier value) ds) ∧
        i2sText earlier value = i2sText [] value) ↔
      0 ≤ value.toInt ∨ (value.toInt ≤ -100 ∧ value ≠ BitVec.intMin 32) := by
  rw [i2sText_eq, i2sText_eq, and_iff_left rfl]
  by_cases hvalue : 0 ≤ value.toInt
  · exact iff_of_true ⟨_, isDecimal_of_nonneg hvalue⟩ (Or.inl hvalue)
  · have hneg : value.toInt < 0 := Int.not_le.mp hvalue
    have hmagnitude := magnitude_of_neg hneg
    rw [isDecimal_neg_iff hneg, or_iff_right hvalue]
    by_cases hleast : value = BitVec.intMin 32
    · rw [if_pos hleast] at hmagnitude
      exact iff_of_false (by omega) (fun h => h.2 hleast)
    · rw [if_neg hleast] at hmagnitude
      rw [and_iff_left hleast]
      omega

/-- The zeros come before the sign. -/
theorem i2s_minus_five :
    i2sText [] (-5#32) = [ascii '0', ascii '0', ascii '-', ascii '5'] ∧
      ¬ ∃ ds, IsDecimal (-5#32) (i2sText [] (-5#32)) ds := by
  have htext : i2sText [] (-5#32) = [ascii '0', ascii '0', ascii '-', ascii '5'] := by
    rw [i2sText_eq]
    decide
  refine ⟨htext, ?_⟩
  rintro ⟨ds, hds⟩
  have hhead := hds.sign
  rw [htext] at hhead
  exact absurd (List.cons.inj hhead).1 (by decide)

end Asnu
