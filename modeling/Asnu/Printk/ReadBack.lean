import Mathlib.Data.List.TakeWhile
import Asnu.Printk.Format

/-!
Numbers read back from what the integer conversions put: past spaces, with a sign and with
the prefix of the base, as far as there are digits.
-/

namespace Asnu.Printk

open Lib Lib.Code

/-! ### Reading -/

/-- The digit that a character stands for. -/
def digitValue (c : BitVec 8) : Option Nat :=
  if ascii '0' ≤ c ∧ c ≤ ascii '9' then some (c - ascii '0').toNat
  else if ascii 'a' ≤ c ∧ c ≤ ascii 'z' then some ((c - ascii 'a').toNat + 10)
  else if ascii 'A' ≤ c ∧ c ≤ ascii 'Z' then some ((c - ascii 'A').toNat + 10)
  else none

def isDigitOf (base : Nat) (c : BitVec 8) : Bool := (digitValue c).any (· < base)

/-- The letter of a prefix. -/
def isBaseLetter (base : Nat) (c : BitVec 8) : Bool :=
  (base = 16 ∧ (c = ascii 'x' ∨ c = ascii 'X')) ∨ (base = 2 ∧ c = ascii 'b')

def scanPrefix (base : Nat) : List (BitVec 8) → List (BitVec 8)
  | c :: d :: text => if c = ascii '0' ∧ isBaseLetter base d then text else c :: d :: text
  | text => text

def scanDigits (base : Nat) (text : List (BitVec 8)) : Nat :=
  readBack digitValue base ((scanPrefix base text).takeWhile (isDigitOf base))

def scanSign (base : Nat) : List (BitVec 8) → Int
  | [] => scanDigits base []
  | c :: text =>
      if c = ascii '-' then -(scanDigits base text : Int)
      else if c = ascii '+' then scanDigits base text
      else scanDigits base (c :: text)

def isSpace (c : BitVec 8) : Bool := c = ascii ' '

/-- The number at the beginning of a text, and 0 if there is none. -/
def scan (base : Nat) (text : List (BitVec 8)) : Int := scanSign base (text.dropWhile isSpace)

section Scan

variable {base : Nat} {text : List (BitVec 8)}

theorem dropWhile_spaces (i : Nat) (text : List (BitVec 8)) :
    (List.replicate i (ascii ' ') ++ text).dropWhile isSpace = text.dropWhile isSpace := by
  induction i with
  | zero => rfl
  | succ i ih => exact ih

theorem scan_spaces (base i : Nat) (text : List (BitVec 8)) :
    scan base (List.replicate i (ascii ' ') ++ text) = scan base text := by
  rw [scan, dropWhile_spaces, scan]

theorem takeWhile_spaces (j : Nat) (text : List (BitVec 8)) :
    (text ++ List.replicate j (ascii ' ')).takeWhile (isDigitOf base) =
      text.takeWhile (isDigitOf base) := by
  induction text with
  | nil =>
      cases j with
      | zero => rfl
      | succ j => rfl
  | cons c text ih => rw [List.cons_append, List.takeWhile_cons, List.takeWhile_cons, ih]

theorem isBaseLetter_space (base : Nat) : isBaseLetter base (ascii ' ') = false := by
  have hx : ¬ (ascii ' ' = ascii 'x' ∨ ascii ' ' = ascii 'X') := by decide
  have hb : ascii ' ' ≠ ascii 'b' := by decide
  simp only [isBaseLetter, hx, hb, and_false, or_false, decide_false]

theorem scanPrefix_cons (c d : BitVec 8) (text : List (BitVec 8)) :
    scanPrefix base (c :: d :: text) =
      if c = ascii '0' ∧ isBaseLetter base d then text else c :: d :: text := rfl

theorem scanPrefix_spaces (j : Nat) (text : List (BitVec 8)) :
    scanPrefix base (text ++ List.replicate j (ascii ' ')) =
      scanPrefix base text ++ List.replicate j (ascii ' ') := by
  cases text with
  | nil =>
      match j with
      | 0 => rfl
      | 1 => rfl
      | j + 2 =>
          have hne : ascii ' ' ≠ ascii '0' := by decide
          exact (scanPrefix_cons _ _ _).trans (if_neg (fun h => hne h.1))
  | cons c text =>
      cases text with
      | nil =>
          cases j with
          | zero => rfl
          | succ j =>
              refine (scanPrefix_cons _ _ _).trans (if_neg (fun h => ?_))
              rw [isBaseLetter_space] at h
              exact Bool.false_ne_true h.2
      | cons d text =>
          rw [List.cons_append, List.cons_append, scanPrefix_cons, scanPrefix_cons]
          split
          · rfl
          · rfl

theorem scanDigits_spaces (j : Nat) (text : List (BitVec 8)) :
    scanDigits base (text ++ List.replicate j (ascii ' ')) = scanDigits base text := by
  rw [scanDigits, scanPrefix_spaces, takeWhile_spaces, scanDigits]

/-- Spaces behind a number do not count. -/
theorem scan_append_spaces (j : Nat) (text : List (BitVec 8)) :
    scan base (text ++ List.replicate j (ascii ' ')) = scan base text := by
  induction text with
  | nil => rw [List.nil_append, ← List.append_nil (List.replicate j _), scan_spaces]
  | cons c text ih =>
      unfold scan at ih ⊢
      rw [List.cons_append, List.dropWhile_cons, List.dropWhile_cons]
      split
      · exact ih
      · rw [scanSign, scanSign, ← List.cons_append, scanDigits_spaces, scanDigits_spaces]

/-! ### Digits and prefixes -/

theorem not_isBaseLetter {c : BitVec 8} (h : isDigitOf base c = true) :
    isBaseLetter base c = false := by
  rw [← Bool.not_eq_true]
  intro hletter
  rcases of_decide_eq_true hletter with ⟨rfl, rfl | rfl⟩ | ⟨rfl, rfl⟩
  · exact absurd h (by decide)
  · exact absurd h (by decide)
  · exact absurd h (by decide)

theorem isDigitOf_zero (hbase : 1 < base) : isDigitOf base (ascii '0') = true := by
  have hzero : digitValue (ascii '0') = some 0 := by decide
  rw [isDigitOf, hzero, Option.any_some, decide_eq_true_eq]
  omega

/-- Digits without a prefix are taken as they are. -/
theorem scanDigits_digits (h : ∀ c ∈ text, isDigitOf base c = true) :
    scanDigits base text = readBack digitValue base text := by
  have hplain : scanPrefix base text = text := by
    match text with
    | [] => rfl
    | [_] => rfl
    | c :: d :: text =>
        refine if_neg (fun hpre => ?_)
        rw [not_isBaseLetter (h d (List.mem_cons_of_mem _ List.mem_cons_self))] at hpre
        exact Bool.false_ne_true hpre.2
  rw [scanDigits, hplain, List.takeWhile_eq_self_iff.mpr h]

theorem scanDigits_prefixed {c : BitVec 8} (hc : isBaseLetter base c = true)
    (h : ∀ c ∈ text, isDigitOf base c = true) :
    scanDigits base (ascii '0' :: c :: text) = readBack digitValue base text := by
  rw [scanDigits, scanPrefix, if_pos ⟨rfl, hc⟩, List.takeWhile_eq_self_iff.mpr h]

/-- A letter that has lost its zero hides the number. -/
theorem scanDigits_letter {c : BitVec 8} (hc : isBaseLetter base c = true)
    (text : List (BitVec 8)) : scanDigits base (c :: text) = 0 := by
  have hzero : c ≠ ascii '0' := by
    rcases of_decide_eq_true hc with ⟨-, rfl | rfl⟩ | ⟨-, rfl⟩ <;> decide
  have hdigit : isDigitOf base c = false := by
    rw [← Bool.not_eq_true]
    intro hd
    rw [not_isBaseLetter hd] at hc
    exact Bool.false_ne_true hc
  have hplain : scanPrefix base (c :: text) = c :: text := by
    cases text with
    | nil => rfl
    | cons d text => exact if_neg (fun h => hzero h.1)
  rw [scanDigits, hplain, List.takeWhile_cons, hdigit]
  rfl

/-! ### What stands in front -/

/-- A character that is neither skipped nor taken for a sign. -/
def isPlain (c : BitVec 8) : Bool := !isSpace c && c ≠ ascii '-' && c ≠ ascii '+'

theorem isPlain_digit {c : BitVec 8} (h : isDigitOf base c = true) : isPlain c = true := by
  rw [← Bool.not_eq_false]
  intro hplain
  have hsign : c = ascii ' ' ∨ c = ascii '-' ∨ c = ascii '+' := by
    by_contra hnone
    simp_all [isPlain, isSpace]
  rcases hsign with rfl | rfl | rfl
  · exact Bool.false_ne_true h
  · exact Bool.false_ne_true h
  · exact Bool.false_ne_true h

theorem scan_plain (h : ∀ c ∈ text, isPlain c = true) : scan base text = scanDigits base text := by
  cases text with
  | nil => rfl
  | cons c text =>
      have hc := h c List.mem_cons_self
      simp only [isPlain, Bool.and_eq_true, Bool.not_eq_true', decide_eq_true_eq] at hc
      rw [scan, List.dropWhile_cons, hc.1.1]
      simp only [Bool.false_eq_true, if_false, scanSign, if_neg hc.1.2, if_neg hc.2]

/-- A sign counts if there was room for it. -/
theorem scan_sign (h : ∀ c ∈ text, isPlain c = true) (negative : Bool) (flags : Flags)
    (room : Nat) :
    scan base (((signChars negative flags).take room).reverse ++ text) =
      if negative = true ∧ 0 < room then -(scanDigits base text : Int)
      else scanDigits base text := by
  have hplain : scan base text = scanDigits base text := scan_plain h
  cases room with
  | zero =>
      rw [List.take_zero, if_neg (fun h => Nat.not_lt_zero 0 h.2)]
      exact hplain
  | succ room =>
      have hroom : ∀ c : BitVec 8, [c].take (room + 1) = [c] := fun c => by
        rw [List.take_succ_cons, List.take_nil]
      cases negative with
      | true =>
          rw [if_pos ⟨rfl, Nat.succ_pos room⟩, signChars, if_pos rfl, hroom]
          rfl
      | false =>
          have hpos : ¬ (false = true ∧ 0 < room + 1) := fun h => Bool.false_ne_true h.1
          rw [if_neg hpos, signChars, if_neg Bool.false_ne_true]
          split
          · rw [hroom]
            rfl
          split
          · rw [hroom]
            exact (scan_spaces base 1 text).trans hplain
          · rw [List.take_nil]
            exact hplain

/-- What `#` put counts if it was put whole, or not at all. -/
theorem scanDigits_hash (h : ∀ c ∈ text, isDigitOf base c = true) (hbase : 1 < base)
    (flags : Flags) (room : Nat) :
    scanDigits base (((hashChars base flags).take room).reverse ++ text) =
      if room = 1 ∧ (hashChars base flags).length = 2 then 0
      else readBack digitValue base text := by
  have hzero : digitValue (ascii '0') = some 0 := by decide
  have hcons : ∀ c ∈ ascii '0' :: text, isDigitOf base c = true := by
    intro c hc
    rcases List.mem_cons.mp hc with rfl | hc
    · exact isDigitOf_zero hbase
    · exact h c hc
  -- a zero alone is one more digit
  have hdigit : scanDigits base (ascii '0' :: text) = readBack digitValue base text := by
    rw [scanDigits_digits hcons]
    exact readBack_replicate digitValue base hzero 1 text
  have hletter : ∀ c, isBaseLetter base c = true → hashChars base flags = [c, ascii '0'] →
      scanDigits base (((hashChars base flags).take room).reverse ++ text) =
        if room = 1 ∧ (hashChars base flags).length = 2 then 0
        else readBack digitValue base text := by
    intro c hc hchars
    rw [hchars]
    match room with
    | 0 =>
        rw [if_neg (fun h => absurd h.1 (by decide))]
        exact scanDigits_digits h
    | 1 =>
        rw [if_pos ⟨rfl, rfl⟩]
        exact scanDigits_letter hc text
    | room + 2 =>
        rw [if_neg (fun h => absurd h.1 (by omega)), List.take_of_length_le (by simp)]
        exact scanDigits_prefixed hc h
  by_cases hhash : flags.hash = true
  · by_cases hsixteen : base = 16
    · refine hletter _ ?_ (by rw [hashChars, if_pos hhash, if_pos hsixteen]; rfl)
      subst hsixteen
      cases flags.uppercase <;> decide
    by_cases htwo : base = 2
    · refine hletter (ascii 'b') ?_ (by
        rw [hashChars, if_pos hhash, if_neg hsixteen, if_pos htwo]; rfl)
      subst htwo
      decide
    · have hchars : hashChars base flags = [ascii '0'] := by
        rw [hashChars, if_pos hhash, if_neg hsixteen, if_neg htwo, List.nil_append]
      rw [hchars, if_neg (fun h => absurd h.2 (by decide))]
      cases room with
      | zero => exact scanDigits_digits h
      | succ room =>
          rw [List.take_of_length_le (by simp)]
          exact hdigit
  · have hchars : hashChars base flags = [] := by rw [hashChars, if_neg hhash]
    rw [hchars, if_neg (fun h => absurd h.2 (by decide)), List.take_nil]
    exact scanDigits_digits h

end Scan

/-! ### Numbers -/

theorem digitValue_digitChar (uppercase : Bool) :
    ∀ d < 16, digitValue (digitChar uppercase d) = some d := by
  cases uppercase <;> decide

section Number

variable (value : BitVec 64) (negative : Bool) (base : BitVec 64) (prec width : BitVec 32)
  (flags : Flags)

/-- Nothing that counts was lost: no digit to `#` or for want of room, and for want of room
neither the zero of a prefix with a letter nor the minus sign. -/
structure ReadsBack : Prop where
  digits : (Nat.digits base.toNat value.toNat).length ≤
    digitPlaces value negative base prec width flags
  letter : (hashChars base.toNat (hashless value flags)).length = 2 →
    digitPlaces value negative base prec width flags ≠ 31
  sign : negative = true →
    digitPlaces value negative base prec width flags +
      (hashChars base.toNat (hashless value flags)).length < 32

theorem placedDigits_length_le (base value : Nat) (precision : Bool) :
    (placedDigits base value precision).length ≤ 32 := by
  unfold placedDigits
  split
  · split
    · exact Nat.zero_le 32
    · decide
  · rw [List.length_take]
    exact Nat.min_le_left _ _

theorem digitPlaces_le : digitPlaces value negative base prec width flags ≤ ntoaBufferSize := by
  have hplaced := placedDigits_length_le base.toNat value.toNat flags.precision
  refine Nat.le_trans (kept_le _ _ _ _ _) ?_
  unfold filled ntoaBufferSize
  split
  · exact hplaced
  · omega

theorem bodyDigits_lt (hbase : 1 < base.toNat) :
    ∀ d ∈ bodyDigits value negative base prec width flags, d < base.toNat := by
  intro d hd
  have hzero : 0 < base.toNat := by omega
  rcases List.mem_append.mp (List.mem_of_mem_take hd) with hd | hd
  · unfold placedDigits at hd
    split at hd
    · split at hd
      · exact absurd hd List.not_mem_nil
      · rw [List.mem_singleton.mp hd]
        exact hzero
    · exact Nat.digits_lt_base hbase (List.mem_of_mem_take hd)
  · rw [(List.mem_replicate.mp hd).2]
    exact hzero

theorem bodyDigits_iff (hbase : 1 < base.toNat) :
    Nat.ofDigits base.toNat (bodyDigits value negative base prec width flags) = value.toNat ↔
      (Nat.digits base.toNat value.toNat).length ≤
        digitPlaces value negative base prec width flags := by
  have hle := le_filled negative prec width flags
    (placedDigits base.toNat value.toNat flags.precision).length
  by_cases hvalue : value.toNat = 0
  · -- zeros only
    refine iff_of_true ?_ (by rw [hvalue, Nat.digits_zero]; exact Nat.zero_le _)
    have hzeros : ∀ d ∈ bodyDigits value negative base prec width flags, d = 0 := by
      intro d hd
      rcases List.mem_append.mp (List.mem_of_mem_take hd) with hd | hd
      · rw [placedDigits, if_pos hvalue] at hd
        split at hd
        · exact absurd hd List.not_mem_nil
        · exact List.mem_singleton.mp hd
      · exact (List.mem_replicate.mp hd).2
    rw [hvalue, List.eq_replicate_of_mem hzeros, Nat.ofDigits_replicate_zero]
  · have hplaced : placedDigits base.toNat value.toNat flags.precision =
        (Nat.digits base.toNat value.toNat).take 32 := if_neg hvalue
    have hplaces : digitPlaces value negative base prec width flags ≤
        filled negative prec.toNat width.toNat flags
          (placedDigits base.toNat value.toNat flags.precision).length := kept_le _ _ _ _ _
    unfold bodyDigits
    rw [hplaced] at hle hplaces ⊢
    exact ofDigits_cut_iff hbase (digitPlaces_le value negative base prec width flags) (by omega)

theorem hashChars_zero {base : Nat} (hvalue : value = 0#64) :
    hashChars base (hashless value flags) = [] := by
  rw [hashless, if_pos hvalue, hashChars, if_neg Bool.false_ne_true]

theorem hashChars_plain (base : Nat) : ∀ c ∈ hashChars base flags, isPlain c = true := by
  intro c hc
  have hmem : c ∈ ['x', 'X', 'b', '0'].map ascii := by
    unfold hashChars at hc
    split at hc
    · rcases List.mem_append.mp hc with hc | hc
      · split at hc
        · obtain rfl := List.mem_singleton.mp hc
          cases flags.uppercase <;> decide
        split at hc
        · obtain rfl := List.mem_singleton.mp hc
          decide
        · exact absurd hc List.not_mem_nil
      · obtain rfl := List.mem_singleton.mp hc
        decide
    · exact absurd hc List.not_mem_nil
  fin_cases hmem <;> decide

/-- The digits as a number; the letter of a prefix that has lost its zero hides them. -/
def readDigits : Nat :=
  if ntoaBufferSize - digitPlaces value negative base prec width flags = 1 ∧
      (hashChars base.toNat (hashless value flags)).length = 2 then 0
  else Nat.ofDigits base.toNat (bodyDigits value negative base prec width flags)

theorem padding_eq (cond : Bool) (n : Nat) :
    padding cond n = List.replicate (if cond then n else 0) (ascii ' ') := by
  cases cond with
  | false => rfl
  | true => rfl

/-- The number has spaces in front of it and behind it. -/
theorem numberText_spaces : ∃ i j, numberText value negative base prec width flags =
    List.replicate i (ascii ' ') ++ (numberChars value negative base prec width flags ++
      List.replicate j (ascii ' ')) := by
  simp only [numberText, padding_eq]
  exact ⟨_, _, rfl⟩

/-- The text as a number, which has its minus sign if there was room for it. -/
theorem scan_numberText (hbase : 1 < base.toNat) (hsmall : base.toNat ≤ 16) :
    scan base.toNat (numberText value negative base prec width flags) =
      if negative = true ∧ digitPlaces value negative base prec width flags +
          (hashChars base.toNat (hashless value flags)).length < 32 then
        -(readDigits value negative base prec width flags : Int)
      else readDigits value negative base prec width flags := by
  have hdigits := bodyDigits_lt value negative base prec width flags hbase
  have hchars : ∀ c ∈ ((bodyDigits value negative base prec width flags).map
      (digitChar flags.uppercase)).reverse, isDigitOf base.toNat c = true := by
    intro c hc
    obtain ⟨d, hd, rfl⟩ := List.mem_map.mp (List.mem_reverse.mp hc)
    have hlt := hdigits d hd
    rw [isDigitOf, digitValue_digitChar flags.uppercase d (by omega), Option.any_some,
      decide_eq_true_eq]
    exact hlt
  have hplain : ∀ c ∈ ((hashChars base.toNat (hashless value flags)).take
      (ntoaBufferSize - digitPlaces value negative base prec width flags)).reverse ++
        ((bodyDigits value negative base prec width flags).map
          (digitChar flags.uppercase)).reverse, isPlain c = true := by
    intro c hc
    rcases List.mem_append.mp hc with hc | hc
    · exact hashChars_plain _ _ c (List.mem_of_mem_take (List.mem_reverse.mp hc))
    · exact isPlain_digit (hchars c hc)
  have hread : readBack digitValue base.toNat
      ((bodyDigits value negative base prec width flags).map (digitChar flags.uppercase)).reverse =
      Nat.ofDigits base.toNat (bodyDigits value negative base prec width flags) :=
    readBack_digits (fun d hd => digitValue_digitChar _ d (by omega)) hdigits
  obtain ⟨i, j, htext⟩ := numberText_spaces value negative base prec width flags
  have hroom : ∀ places hash : Nat,
      (0 < ntoaBufferSize - (places + min (ntoaBufferSize - places) hash)) ↔
        places + hash < 32 := by
    unfold ntoaBufferSize
    omega
  rw [htext, scan_spaces, scan_append_spaces, numberChars, leadChars, List.reverse_append,
    List.append_assoc, scan_sign hplain, scanDigits_hash hchars hbase, hread, List.length_take]
  simp only [hroom]
  rfl

/-- A number that is read back is the one that was put exactly if nothing was lost. -/
theorem numberText_scan_iff (hbase : 1 < base.toNat) (hsmall : base.toNat ≤ 16)
    (hneg : negative = true → value.toNat ≠ 0) :
    scan base.toNat (numberText value negative base prec width flags) =
        (if negative then -(value.toNat : Int) else value.toNat) ↔
      ReadsBack value negative base prec width flags := by
  have hplaces := digitPlaces_le value negative base prec width flags
  have hbody := bodyDigits_iff value negative base prec width flags hbase
  have hsame : readDigits value negative base prec width flags = value.toNat ↔
      (Nat.digits base.toNat value.toNat).length ≤
          digitPlaces value negative base prec width flags ∧
        ((hashChars base.toNat (hashless value flags)).length = 2 →
          digitPlaces value negative base prec width flags ≠ 31) := by
    unfold readDigits ntoaBufferSize at *
    split
    · next hlost =>
        have hvalue : value.toNat ≠ 0 := by
          intro hzero
          rw [hashChars_zero value flags (BitVec.eq_of_toNat_eq hzero)] at hlost
          exact absurd hlost.2 (by decide)
        exact iff_of_false (fun h => hvalue h.symm) (fun h => h.2 hlost.2 (by omega))
    · next hkept =>
        rw [hbody]
        refine ⟨fun h => ⟨h, fun htwo hlast => hkept ⟨by omega, htwo⟩⟩, fun h => h.1⟩
  rw [scan_numberText value negative base prec width flags hbase hsmall]
  cases negative with
  | false =>
      rw [if_neg (fun h => Bool.false_ne_true h.1), if_neg Bool.false_ne_true, Int.ofNat_inj,
        hsame]
      exact ⟨fun h => ⟨h.1, h.2, fun h => absurd h Bool.false_ne_true⟩, fun h => ⟨h.1, h.2⟩⟩
  | true =>
      have hvalue := hneg rfl
      by_cases hsign : digitPlaces value true base prec width flags +
          (hashChars base.toNat (hashless value flags)).length < 32
      · rw [if_pos ⟨rfl, hsign⟩, if_pos rfl, Int.neg_inj, Int.ofNat_inj, hsame]
        exact ⟨fun h => ⟨h.1, h.2, fun _ => hsign⟩, fun h => ⟨h.1, h.2⟩⟩
      · rw [if_neg (fun h => hsign h.2), if_pos rfl]
        exact iff_of_false (by omega) (fun h => hsign (h.sign rfl))

end Number

/-! ### Directives -/

/-- Nothing of the number that an integer conversion puts is lost. -/
def Fields.ReadsBack (d : Fields) (args : Nat → BitVec 64) (k : Nat) (conv : BitVec 8) : Prop :=
  let s := d.setting args k
  let value := integerValue s.flags conv (args (k + d.args))
  Printk.ReadsBack (BitVec.ofNat 64 value.natAbs) (decide (value < 0)) (integerBase conv)
    s.precision s.width (integerFlags s.flags conv)

/-- What an integer conversion puts, read as a number in its base, is the argument it was given
exactly if `#` took none of its digits off and the digits, the prefix and the sign all had room
in the buffer of the number. -/
theorem integer_reads_back_iff (m : Memory) (d : Fields) (args : Nat → BitVec 64) (k : Nat)
    {conv : BitVec 8} (hconv : IsInteger conv) :
    scan (integerBase conv).toNat (d.render m args k conv) =
        integerValue (d.setting args k).flags conv (args (k + d.args)) ↔
      d.ReadsBack args k conv := by
  have hbase := integerBase_range conv
  have hlt := integerValue_lt (d.setting args k).flags conv (args (k + d.args))
  unfold Fields.render Fields.ReadsBack
  simp only
  rw [specifierText, if_pos hconv, integerText]
  generalize integerValue (d.setting args k).flags conv (args (k + d.args)) = value at hlt ⊢
  have hnat : (BitVec.ofNat 64 value.natAbs).toNat = value.natAbs := by
    rw [BitVec.toNat_ofNat, Nat.mod_eq_of_lt hlt]
  have hread := numberText_scan_iff (BitVec.ofNat 64 value.natAbs) (decide (value < 0))
    (integerBase conv) (d.setting args k).precision (d.setting args k).width
    (integerFlags (d.setting args k).flags conv) hbase.1 hbase.2 (fun hneg => by
      have hlow := of_decide_eq_true hneg
      rw [hnat]
      omega)
  have hvalue : (if decide (value < 0) = true then -(value.natAbs : Int) else value.natAbs) =
      value := by
    simp only [decide_eq_true_eq]
    split
    · omega
    · omega
  rwa [hnat, hvalue] at hread

/-- `%#`, a width of one digit and `x`. -/
def hexIn (digit : Char) : Fields :=
  { flags := [ascii '#'], width := .digits [ascii digit] }

theorem integer_reads_back_wide :
    scan 16 ((hexIn '8').render (fun _ => 0#8) (fun _ => 0xabc#64) 0 (ascii 'x')) = 0xabc := by
  have hreads : (hexIn '8').ReadsBack (fun _ => 0xabc#64) 0 (ascii 'x') :=
    ⟨by decide +kernel, by decide +kernel, by decide +kernel⟩
  exact (integer_reads_back_iff (fun _ => 0#8) (hexIn '8') _ 0 (by decide)).mpr hreads

/-- The prefix takes the place of two digits if the width is just that of the digits. -/
example : (hexIn '3').render (fun _ => 0#8) (fun _ => 0xabc#64) 0 (ascii 'x') =
    ['0', 'x', 'c'].map ascii := by decide +kernel

end Asnu.Printk
