import Asnu.Lib.Numeral
import Asnu.Printk.Prints

/-!
What the text of a number is: its digits, the zeros above them, what `#` takes off and puts
there, the sign, as far as there is room for them, and spaces. The buffer comes by it step by
step.
-/

namespace Asnu.Printk

open Lib Lib.Code

/-! ### Digits -/

def digitChars (uppercase : Bool) : List (BitVec 8) :=
  (['0', '1', '2', '3', '4', '5', '6', '7', '8', '9'] ++
    if uppercase then ['A', 'B', 'C', 'D', 'E', 'F'] else ['a', 'b', 'c', 'd', 'e', 'f']).map ascii

/-- The character of a digit. -/
def digitChar (uppercase : Bool) (d : Nat) : BitVec 8 := (digitChars uppercase).getD d 0#8

theorem ntoaDigit_eq (uppercase : Bool) :
    ∀ d < 16, ntoaDigit uppercase (BitVec.ofNat 64 d) = digitChar uppercase d := by
  cases uppercase <;> decide

theorem digitChar_zero (uppercase : Bool) : digitChar uppercase 0 = ascii '0' := by
  cases uppercase <;> rfl

/-- The digits that the loop comes by if it may go on. -/
def loopDigits (base value : Nat) : List Nat :=
  if value = 0 then [0] else Nat.digits base value

theorem ntoaDigits_chars {base : BitVec 64} (hbase : 1 < base.toNat) (hsmall : base.toNat ≤ 16)
    (uppercase : Bool) (room : Nat) (value : BitVec 64) (b : NtoaBuf)
    (h : b.len + room + 1 = ntoaBufferSize) :
    (ntoaDigits base uppercase room value b h).chars =
      b.chars ++ ((loopDigits base.toNat value.toNat).take (room + 1)).map
        (digitChar uppercase) := by
  have hdigit : ∀ v : BitVec 64,
      ntoaDigit uppercase (v % base) = digitChar uppercase (v.toNat % base.toNat) := by
    intro v
    have hlt : v.toNat % base.toNat < base.toNat := Nat.mod_lt _ (by omega)
    rw [← ntoaDigit_eq uppercase _ (by omega), ← BitVec.toNat_umod, BitVec.ofNat_toNat,
      BitVec.setWidth_eq]
  -- the first digit and those of what is left
  have hfirst : ∀ v : BitVec 64, ∃ rest, loopDigits base.toNat v.toNat =
      v.toNat % base.toNat :: rest ∧
        (v / base ≠ 0#64 → rest = loopDigits base.toNat (v / base).toNat) ∧
        (v / base = 0#64 → rest = []) := by
    intro v
    have hdiv : v / base = 0#64 ↔ v.toNat / base.toNat = 0 := by
      rw [← BitVec.toNat_udiv, ← BitVec.toNat_inj]
      rfl
    by_cases hv : v.toNat = 0
    · refine ⟨[], by rw [loopDigits, if_pos hv, hv, Nat.zero_mod], fun hne => ?_, fun _ => rfl⟩
      exact absurd (hdiv.mpr (by rw [hv, Nat.zero_div])) hne
    · refine ⟨Nat.digits base.toNat (v.toNat / base.toNat), ?_, fun hne => ?_, fun hz => ?_⟩
      · rw [loopDigits, if_neg hv, Nat.digits_def' hbase (Nat.pos_of_ne_zero hv)]
      · rw [loopDigits, BitVec.toNat_udiv, if_neg (fun hz => hne (hdiv.mpr hz))]
      · rw [hdiv.mp hz, Nat.digits_zero]
  induction room generalizing value b with
  | zero =>
      obtain ⟨rest, hdigits, -, -⟩ := hfirst value
      rw [ntoaDigits, NtoaBuf.push_chars, hdigit, hdigits]
      rfl
  | succ room ih =>
      obtain ⟨rest, hdigits, hmore, hend⟩ := hfirst value
      rw [hdigits, List.take_succ_cons, List.map_cons, ntoaDigits]
      split
      · next hne =>
          rw [ih, NtoaBuf.push_chars, hdigit, hmore hne, List.append_assoc,
            List.singleton_append]
      · next hzero =>
          rw [hend (not_not.mp hzero), NtoaBuf.push_chars, hdigit, List.take_nil, List.map_nil]

/-- The digits in the buffer, of which 0 has one or, with a precision, none. -/
def placedDigits (base value : Nat) (precision : Bool) : List Nat :=
  if value = 0 then (if precision then [] else [0]) else (Nat.digits base value).take 32

theorem ntoaStart_chars {base : BitVec 64} (hbase : 1 < base.toNat) (hsmall : base.toNat ≤ 16)
    (value : BitVec 64) (flags : Flags) :
    (ntoaStart value base flags).chars =
      (placedDigits base.toNat value.toNat flags.precision).map (digitChar flags.uppercase) := by
  have hzero : value = 0#64 ↔ value.toNat = 0 := by
    rw [← BitVec.toNat_inj]
    rfl
  unfold ntoaStart placedDigits
  by_cases hv : value = 0#64
  · rw [if_pos (hzero.mp hv)]
    cases flags.precision with
    | false =>
        rw [if_pos (Or.inl rfl)]
        refine (ntoaDigits_chars hbase hsmall _ 31 value {} rfl).trans ?_
        rw [loopDigits, if_pos (hzero.mp hv)]
        rfl
    | true =>
        rw [if_neg (by simp [hv])]
        rfl
  · rw [if_pos (Or.inr hv), if_neg (fun h => hv (hzero.mpr h))]
    refine (ntoaDigits_chars hbase hsmall _ 31 value {} rfl).trans ?_
    rw [loopDigits, if_neg (fun h => hv (hzero.mpr h))]
    rfl

/-! ### Zeros -/

namespace NtoaBuf

theorem zeros_chars (n : Nat) (b : NtoaBuf) :
    (b.zeros n).chars = b.chars ++ List.replicate (min n (ntoaBufferSize - b.len)) (ascii '0') := by
  induction n generalizing b with
  | zero => rw [zeros, Nat.zero_min, List.replicate_zero, List.append_nil]
  | succ n ih =>
      rw [zeros]
      split
      · next h =>
          have hcount : min (n + 1) (ntoaBufferSize - b.len) =
              min n (ntoaBufferSize - (b.len + 1)) + 1 := by omega
          rw [ih, push_chars, push_len, hcount, List.replicate_succ, List.append_assoc,
            List.singleton_append]
      · next h =>
          have hnone : min (n + 1) (ntoaBufferSize - b.len) = 0 := by omega
          rw [hnone, List.replicate_zero, List.append_nil]

theorem zeros_len (n : Nat) (b : NtoaBuf) :
    (b.zeros n).len = b.len + min n (ntoaBufferSize - b.len) := by
  unfold len
  rw [zeros_chars, List.length_append, List.length_replicate]
  rfl

theorem pushIf_chars (b : NtoaBuf) (c : BitVec 8) :
    (b.pushIf c).chars = b.chars ++ [c].take (ntoaBufferSize - b.len) := by
  unfold pushIf
  split
  · next h => rw [push_chars, List.take_of_length_le (by rw [List.length_singleton]; omega)]
  · next h =>
      have hfull : ntoaBufferSize - b.len = 0 := by omega
      rw [hfull, List.take_zero, List.append_nil]

theorem pushIf_pushIf_chars (b : NtoaBuf) (c d : BitVec 8) :
    ((b.pushIf c).pushIf d).chars = b.chars ++ [c, d].take (ntoaBufferSize - b.len) := by
  have hlen : (b.pushIf c).len = b.len + ([c].take (ntoaBufferSize - b.len)).length := by
    rw [len, pushIf_chars, List.length_append, len]
  have hroom : ntoaBufferSize - b.len - ([c].take (ntoaBufferSize - b.len)).length =
      ntoaBufferSize - b.len - [c].length := by
    rw [List.length_take]
    omega
  rw [pushIf_chars, hlen, pushIf_chars, List.append_assoc, Nat.sub_add_eq, hroom,
    ← List.take_append, List.singleton_append]

theorem pop_chars (b : NtoaBuf) : b.pop.chars = b.chars.take (b.len - 1) :=
  List.dropLast_eq_take

theorem pop_len (b : NtoaBuf) : b.pop.len = b.len - 1 := List.length_dropLast

end NtoaBuf

/-- Zeros stand in for spaces in front of a sign, too. -/
def signed (negative : Bool) (flags : Flags) : Bool := negative || flags.plus || flags.space

/-- The width behind `ntoaZeros`. -/
def widthLeft (negative : Bool) (width : Nat) (flags : Flags) : Nat :=
  if !flags.left && flags.zeropad && signed negative flags then width - 1 else width

/-- How much of the buffer is full behind `ntoaZeros`, with `n` digits in it. -/
def filled (negative : Bool) (prec width : Nat) (flags : Flags) (n : Nat) : Nat :=
  if flags.left then n
  else max n (min ntoaBufferSize
    (max prec (if flags.zeropad then widthLeft negative width flags else 0)))

theorem ntoaZeros_left {flags : Flags} (h : flags.left = true) (b : NtoaBuf) (negative : Bool)
    (prec width : BitVec 32) : ntoaZeros b negative prec width flags = (b, width) := by
  rw [ntoaZeros, if_pos h]

theorem ntoaZeros_width (b : NtoaBuf) (negative : Bool) (prec width : BitVec 32)
    (flags : Flags) : (ntoaZeros b negative prec width flags).2.toNat =
      widthLeft negative width.toNat flags := by
  cases hleft : flags.left with
  | true => simp [ntoaZeros_left hleft, widthLeft, hleft]
  | false =>
      have hsigned : (flags.zeropad = true ∧ (negative = true ∨ flags.plus ∨ flags.space)) ↔
          (flags.zeropad && signed negative flags) = true := by
        simp [signed, or_assoc]
      simp only [ntoaZeros, widthLeft, hleft, Bool.not_false, Bool.true_and, Bool.false_eq_true,
        if_false, hsigned]
      by_cases hzero : width = 0#32
      · rw [if_neg (fun h => h.1 hzero), hzero]
        exact (ite_self 0).symm
      · by_cases h : (flags.zeropad && signed negative flags) = true
        · rw [if_pos ⟨hzero, h⟩, if_pos h]
          bv_omega
        · rw [if_neg (fun hn => h hn.2), if_neg h]

theorem ntoaZeros_chars (b : NtoaBuf) (negative : Bool) (prec width : BitVec 32)
    (flags : Flags) : (ntoaZeros b negative prec width flags).1.chars =
      b.chars ++ List.replicate (filled negative prec.toNat width.toNat flags b.len - b.len)
        (ascii '0') := by
  have hwidth := ntoaZeros_width b negative prec width flags
  have hfits : b.len ≤ ntoaBufferSize := b.fits
  cases hleft : flags.left with
  | true =>
      rw [ntoaZeros_left hleft, filled, if_pos hleft, Nat.sub_self, List.replicate_zero,
        List.append_nil]
  | false =>
      have hright : ¬ flags.left = true := by simp [hleft]
      simp only [ntoaZeros, if_neg hright] at hwidth
      simp only [ntoaZeros, filled, if_neg hright]
      generalize (if width ≠ 0#32 ∧ flags.zeropad = true ∧
        (negative = true ∨ flags.plus = true ∨ flags.space = true) then width - 1#32
        else width) = w at hwidth ⊢
      by_cases hzero : flags.zeropad = true
      · rw [if_pos hzero, if_pos hzero, NtoaBuf.zeros_chars, NtoaBuf.zeros_chars,
          NtoaBuf.zeros_len, hwidth, List.append_assoc, ← List.replicate_add]
        congr 2
        omega
      · rw [if_neg hzero, if_neg hzero, NtoaBuf.zeros_chars]
        congr 2
        omega

/-! ### The prefix and the sign -/

/-- How many of `n` characters `#` leaves. Without a precision it takes the last one off, for
its prefix, and with base 16 the last two, if they are just as many as the width. -/
def kept (base prec width : Nat) (flags : Flags) (n : Nat) : Nat :=
  if flags.hash = true ∧ flags.precision = false ∧ n ≠ 0 ∧ (n = prec ∨ n = width) then
    n - (if base = 16 ∧ n ≠ 1 then 2 else 1)
  else n

/-- What `#` puts, the last character first. -/
def hashChars (base : Nat) (flags : Flags) : List (BitVec 8) :=
  if flags.hash = true then
    (if base = 16 then [if flags.uppercase then ascii 'X' else ascii 'x']
    else if base = 2 then [ascii 'b'] else []) ++ [ascii '0']
  else []

def signChars (negative : Bool) (flags : Flags) : List (BitVec 8) :=
  if negative then [ascii '-']
  else if flags.plus then [ascii '+']
  else if flags.space then [ascii ' ']
  else []

theorem kept_le (base prec width : Nat) (flags : Flags) (n : Nat) :
    kept base prec width flags n ≤ n := by
  unfold kept
  split
  · exact Nat.sub_le _ _
  · exact Nat.le_refl n

theorem ntoaCut_chars {flags : Flags} (hhash : flags.hash = true) (b : NtoaBuf)
    (base prec width : BitVec 32) :
    (ntoaCut b base prec width flags).chars =
      b.chars.take (kept base.toNat prec.toNat width.toNat flags b.len) := by
  have hsixteen : base = 16#32 ↔ base.toNat = 16 := by
    rw [← BitVec.toNat_inj]
    rfl
  unfold ntoaCut kept
  by_cases h : flags.precision = false ∧ b.len ≠ 0 ∧ (b.len = prec.toNat ∨ b.len = width.toNat)
  · have hall : flags.hash = true ∧ flags.precision = false ∧ b.len ≠ 0 ∧
        (b.len = prec.toNat ∨ b.len = width.toNat) := ⟨hhash, h⟩
    rw [if_pos h, if_pos hall, NtoaBuf.pop_len]
    simp only [hsixteen]
    by_cases htwo : base.toNat = 16 ∧ b.len ≠ 1
    · have hleft : b.len - 1 ≠ 0 ∧ base.toNat = 16 := by omega
      rw [if_pos hleft, if_pos htwo, NtoaBuf.pop_chars, NtoaBuf.pop_chars, NtoaBuf.pop_len,
        List.take_take]
      congr 1
      omega
    · have hleft : ¬ (b.len - 1 ≠ 0 ∧ base.toNat = 16) := by omega
      rw [if_neg hleft, if_neg htwo, NtoaBuf.pop_chars]
  · rw [if_neg h, if_neg (fun hall => h hall.2)]
    exact (List.take_length).symm

theorem ntoaHash_chars (b : NtoaBuf) (base prec width : BitVec 32) (flags : Flags) :
    (ntoaHash b base prec width flags).chars =
      b.chars.take (kept base.toNat prec.toNat width.toNat flags b.len) ++
        (hashChars base.toNat flags).take
          (ntoaBufferSize - kept base.toNat prec.toNat width.toNat flags b.len) := by
  have hcut : ∀ {l : NtoaBuf}, l.chars =
      b.chars.take (kept base.toNat prec.toNat width.toNat flags b.len) →
      l.len = kept base.toNat prec.toNat width.toNat flags b.len := by
    intro l hl
    rw [NtoaBuf.len, hl, List.length_take]
    exact Nat.min_eq_left (kept_le _ _ _ _ _)
  have hbase : ∀ n : BitVec 32, base = n ↔ base.toNat = n.toNat := fun n => BitVec.toNat_inj.symm
  unfold ntoaHash hashChars
  by_cases hhash : flags.hash = true
  · have hchars := ntoaCut_chars hhash b base prec width
    rw [if_pos hhash, if_pos hhash]
    simp only [hbase]
    change NtoaBuf.chars (NtoaBuf.pushIf (if base.toNat = 16 then _ else
      if base.toNat = 2 then _ else _) _) = _
    split
    · rw [NtoaBuf.pushIf_pushIf_chars, hcut hchars, hchars, List.singleton_append]
    split
    · rw [NtoaBuf.pushIf_pushIf_chars, hcut hchars, hchars, List.singleton_append]
    · rw [NtoaBuf.pushIf_chars, hcut hchars, hchars, List.nil_append]
  · rw [if_neg hhash, if_neg hhash, List.take_nil, List.append_nil, kept,
      if_neg (fun hall => hhash hall.1)]
    exact (List.take_length).symm

theorem ntoaSign_chars (b : NtoaBuf) (negative : Bool) (flags : Flags) :
    (ntoaSign b negative flags).chars =
      b.chars ++ (signChars negative flags).take (ntoaBufferSize - b.len) := by
  unfold ntoaSign signChars
  split
  · exact NtoaBuf.pushIf_chars b _
  split
  · exact NtoaBuf.pushIf_chars b _
  split
  · exact NtoaBuf.pushIf_chars b _
  · rw [List.take_nil, List.append_nil]

/-! ### The whole text -/

section Text

variable (value : BitVec 64) (negative : Bool) (base : BitVec 64) (prec width : BitVec 32)
  (flags : Flags)

/-- How many digits of the number there are in the buffer, zeros above it included, when `#`
and the sign have their turn. -/
def digitPlaces : Nat :=
  kept base.toNat prec.toNat (widthLeft negative width.toNat flags) (hashless value flags)
    (filled negative prec.toNat width.toNat flags
      (placedDigits base.toNat value.toNat flags.precision).length)

/-- These digits, the last one first. -/
def bodyDigits : List Nat :=
  (placedDigits base.toNat value.toNat flags.precision ++
    List.replicate (filled negative prec.toNat width.toNat flags
      (placedDigits base.toNat value.toNat flags.precision).length -
        (placedDigits base.toNat value.toNat flags.precision).length) 0).take
    (digitPlaces value negative base prec width flags)

/-- What there is room for of what stands in front of the digits. -/
def leadChars : List (BitVec 8) :=
  let pre := (hashChars base.toNat (hashless value flags)).take
    (ntoaBufferSize - digitPlaces value negative base prec width flags)
  pre ++ (signChars negative flags).take
    (ntoaBufferSize - (digitPlaces value negative base prec width flags + pre.length))

/-- The characters of the number, the first one first. -/
def numberChars : List (BitVec 8) :=
  (leadChars value negative base prec width flags).reverse ++
    ((bodyDigits value negative base prec width flags).map (digitChar flags.uppercase)).reverse

/-- The text of a number in its field. -/
def numberText : List (BitVec 8) :=
  let text := numberChars value negative base prec width flags
  let spaces := widthLeft negative width.toNat flags - text.length
  padding (!flags.left && !flags.zeropad) spaces ++ (text ++ padding flags.left spaces)

theorem le_filled (n : Nat) : n ≤ filled negative prec.toNat width.toNat flags n := by
  unfold filled
  split
  · exact Nat.le_refl n
  · exact Nat.le_max_left _ _

theorem bodyDigits_length :
    (bodyDigits value negative base prec width flags).length =
      digitPlaces value negative base prec width flags := by
  have hle := le_filled negative prec width flags
    (placedDigits base.toNat value.toNat flags.precision).length
  rw [bodyDigits, List.length_take, List.length_append, List.length_replicate,
    Nat.add_sub_cancel' hle]
  exact Nat.min_eq_left (kept_le _ _ _ _ _)

/-- What does not depend on `#` is the same for 0. -/
theorem hashless_same {β : Type} (f : Flags → β)
    (hf : ∀ flags : Flags, f { flags with hash := false } = f flags) :
    f (hashless value flags) = f flags := by
  unfold hashless
  split
  · exact hf flags
  · rfl

theorem hashless_filled (n : Nat) :
    filled negative prec.toNat width.toNat (hashless value flags) n =
      filled negative prec.toNat width.toNat flags n :=
  hashless_same value flags (filled negative prec.toNat width.toNat · n) (fun _ => rfl)

theorem hashless_widthLeft :
    widthLeft negative width.toNat (hashless value flags) =
      widthLeft negative width.toNat flags :=
  hashless_same value flags (widthLeft negative width.toNat) (fun _ => rfl)

theorem hashless_signChars :
    signChars negative (hashless value flags) = signChars negative flags :=
  hashless_same value flags (signChars negative) (fun _ => rfl)

theorem hashless_start :
    ntoaStart value base (hashless value flags) = ntoaStart value base flags :=
  hashless_same value flags (ntoaStart value base) (fun _ => rfl)

theorem hashless_left : (hashless value flags).left = flags.left :=
  hashless_same value flags Flags.left (fun _ => rfl)

theorem hashless_zeropad : (hashless value flags).zeropad = flags.zeropad :=
  hashless_same value flags Flags.zeropad (fun _ => rfl)

theorem ntoaFilled_chars (hbase : 1 < base.toNat) (hsmall : base.toNat ≤ 16) :
    (ntoaFilled (ntoaStart value base flags) negative (base.setWidth 32) prec width
        (hashless value flags)).1.chars =
      (bodyDigits value negative base prec width flags).map (digitChar flags.uppercase) ++
        leadChars value negative base prec width flags := by
  have hnat : (base.setWidth 32).toNat = base.toNat := by
    rw [BitVec.toNat_setWidth, Nat.mod_eq_of_lt (by omega)]
  have hlen : (ntoaStart value base flags).len =
      (placedDigits base.toNat value.toNat flags.precision).length := by
    rw [NtoaBuf.len, ntoaStart_chars hbase hsmall, List.length_map]
  have hle := le_filled negative prec width flags
    (placedDigits base.toNat value.toNat flags.precision).length
  -- with the zeros
  have hzeros := ntoaZeros_chars (ntoaStart value base flags) negative prec width
    (hashless value flags)
  have hwidth := ntoaZeros_width (ntoaStart value base flags) negative prec width
    (hashless value flags)
  rw [ntoaStart_chars hbase hsmall, hlen, hashless_filled, ← digitChar_zero flags.uppercase,
    ← List.map_replicate, ← List.map_append] at hzeros
  rw [hashless_widthLeft] at hwidth
  unfold ntoaFilled
  generalize ntoaZeros (ntoaStart value base flags) negative prec width
    (hashless value flags) = filledBuf at hzeros hwidth ⊢
  have hfull : filledBuf.1.len = filled negative prec.toNat width.toNat flags
      (placedDigits base.toNat value.toNat flags.precision).length := by
    rw [NtoaBuf.len, hzeros, List.length_map, List.length_append, List.length_replicate,
      Nat.add_sub_cancel' hle]
  -- with the prefix
  have hpre := ntoaHash_chars filledBuf.1 (base.setWidth 32) prec filledBuf.2
    (hashless value flags)
  rw [hnat, hwidth, hfull, hzeros, ← List.map_take] at hpre
  change NtoaBuf.chars (ntoaSign _ _ _) = _
  rw [ntoaSign_chars, NtoaBuf.len, hpre, hashless_signChars, List.length_append, List.length_map,
    List.append_assoc]
  have hbody := bodyDigits_length value negative base prec width flags
  unfold bodyDigits at hbody ⊢
  unfold leadChars
  rw [← digitPlaces, hbody]

/-- The width that is left is that of the field. -/
theorem ntoaFilled_width (b : NtoaBuf) :
    (ntoaFilled b negative (base.setWidth 32) prec width (hashless value flags)).2.toNat =
      widthLeft negative width.toNat flags :=
  (ntoaZeros_width b negative prec width (hashless value flags)).trans
    (hashless_widthLeft value negative width flags)

/-- What the functions of `printk.c` put of a number is its text. -/
theorem ntoaText_eq (hbase : 1 < base.toNat) (hsmall : base.toNat ≤ 16) :
    ntoaText value negative base prec width flags =
      numberText value negative base prec width flags := by
  have hchars := ntoaFilled_chars value negative base prec width flags hbase hsmall
  have hwidth := ntoaFilled_width value negative base prec width flags (ntoaStart value base flags)
  have hlength : ((bodyDigits value negative base prec width flags).map
      (digitChar flags.uppercase) ++ leadChars value negative base prec width flags).length =
        (numberChars value negative base prec width flags).length := by
    rw [numberChars, ← List.reverse_append, List.length_reverse]
  simp only [ntoaText, revText, hashless_start, hchars, hwidth, hlength, hashless_left,
    hashless_zeropad, List.reverse_append]
  rfl

end Text

end Asnu.Printk
