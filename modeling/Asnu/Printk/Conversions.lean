import Asnu.Printk.Numbers

/-!
What the conversions of `_vsnprintf` put: the text of each, from its flags, its numbers and
its argument.
-/

namespace Asnu.Printk

open Lib Lib.Code

/-! ### The texts -/

/-- How many bits of an integer argument count. -/
def argumentBits (flags : Flags) : Nat :=
  if flags.longLong ∨ flags.long then 64
  else if flags.char then 8
  else if flags.short then 16
  else 32

/-- The number that an integer conversion is given. -/
def integerValue (flags : Flags) (c : BitVec 8) (arg : BitVec 64) : Int :=
  if isSigned c then (arg.setWidth (argumentBits flags)).toInt
  else (arg.setWidth (argumentBits flags)).toNat

def integerText (flags : Flags) (width precision : BitVec 32) (c : BitVec 8) (arg : BitVec 64) :
    List (BitVec 8) :=
  let value := integerValue flags c arg
  numberText (BitVec.ofNat 64 value.natAbs) (decide (value < 0)) (integerBase c) precision width
    (integerFlags flags c)

/-- A text in a field. -/
def fieldText (flags : Flags) (width : BitVec 32) (text : List (BitVec 8)) : List (BitVec 8) :=
  padding (!flags.left) (width.toNat - text.length) ++
    (text ++ padding flags.left (width.toNat - text.length))

/-- How many characters `_strnlen_s` is asked for. -/
def stringBound (precision : BitVec 32) : Nat :=
  if precision ≠ 0#32 then precision.toNat else 2 ^ 64 - 1

/-- The characters that `_strnlen_s` counts, which are those of the string as far as they are
looked at. -/
def stringSeen (m : Memory) (precision : BitVec 32) (p : Ptr) : List (BitVec 8) :=
  charsAt m p (stringBound precision)

/-- The characters that are put. -/
def stringShown (m : Memory) (flags : Flags) (precision : BitVec 32) (p : Ptr) :
    List (BitVec 8) :=
  if flags.precision then (stringSeen m precision p).take precision.toNat
  else stringSeen m precision p

def pointerText (flags : Flags) (precision : BitVec 32) (arg : BitVec 64) : List (BitVec 8) :=
  numberText arg false 16#64 precision 16#32 { flags with zeropad := true, uppercase := true }

/-- 1 if the specifier takes an argument. -/
def takes (c : BitVec 8) : Nat :=
  if IsInteger c then 1
  else if c = ascii 'c' ∨ c = ascii 's' ∨ c = ascii 'p' then 1
  else 0

def specifierText (m : Memory) (flags : Flags) (width precision : BitVec 32) (c : BitVec 8)
    (arg : BitVec 64) : List (BitVec 8) :=
  if IsInteger c then
    integerText flags width precision c arg
  else if c = ascii 'c' then fieldText flags width [arg.setWidth 8]
  else if c = ascii 's' then fieldText flags width (stringShown m flags precision arg)
  else if c = ascii 'p' then pointerText flags precision arg
  else [c]

/-! ### Integers -/

theorem magnitude_toNat {w : Nat} (x : BitVec w) : (magnitude x).toNat = x.toInt.natAbs := by
  have hx := x.isLt
  have hint := BitVec.toInt_eq_toNat_cond x
  unfold magnitude
  simp only [BitVec.slt, BitVec.toInt_zero, decide_eq_true_eq]
  generalize hW : 2 ^ w = W at hx hint
  split at hint
  · split
    · omega
    · next hpos =>
        have hzero : x.toNat = 0 := by omega
        rw [BitVec.toNat_sub, hzero, hint, hzero]
        simp
  · rw [if_neg (by omega), BitVec.toNat_sub, BitVec.toNat_zero, hW, Nat.add_zero,
      Nat.mod_eq_of_lt (by omega)]
    omega

theorem slt_zero {w : Nat} (x : BitVec w) : x.slt 0#w = decide (x.toInt < 0) := by
  rw [BitVec.slt, BitVec.toInt_zero]

theorem natAbs_toInt_lt {w : Nat} (hw : w ≤ 64) (x : BitVec w) : x.toInt.natAbs < 2 ^ 64 := by
  have hx := x.isLt
  have hpow : 2 ^ w ≤ 2 ^ 64 := Nat.pow_le_pow_right (by decide) hw
  rw [← magnitude_toNat]
  exact Nat.lt_of_lt_of_le (magnitude x).isLt hpow

/-- The length modifiers, the first that counts. -/
theorem argumentBits_cases (flags : Flags) :
    ((flags.longLong = true ∨ flags.long = true) ∧ argumentBits flags = 64) ∨
    ¬ (flags.longLong = true ∨ flags.long = true) ∧
      ((flags.char = true ∧ argumentBits flags = 8) ∨
      ¬ flags.char = true ∧
        ((flags.short = true ∧ argumentBits flags = 16) ∨
        ¬ flags.short = true ∧ argumentBits flags = 32)) := by
  unfold argumentBits
  by_cases hlong : flags.longLong = true ∨ flags.long = true
  · exact Or.inl ⟨hlong, if_pos hlong⟩
  refine Or.inr ⟨hlong, ?_⟩
  rw [if_neg hlong]
  by_cases hchar : flags.char = true
  · exact Or.inl ⟨hchar, if_pos hchar⟩
  refine Or.inr ⟨hchar, ?_⟩
  rw [if_neg hchar]
  by_cases hshort : flags.short = true
  · exact Or.inl ⟨hshort, if_pos hshort⟩
  · exact Or.inr ⟨hshort, if_neg hshort⟩

theorem argumentBits_le (flags : Flags) : argumentBits flags ≤ 64 := by
  have hcases := argumentBits_cases flags
  omega

theorem integerValue_lt (flags : Flags) (c : BitVec 8) (arg : BitVec 64) :
    (integerValue flags c arg).natAbs < 2 ^ 64 := by
  have hbits := argumentBits_le flags
  unfold integerValue
  split
  · exact natAbs_toInt_lt hbits _
  · rw [Int.natAbs_natCast]
    exact Nat.lt_of_lt_of_le (BitVec.isLt _) (Nat.pow_le_pow_right (by decide) hbits)

theorem signedArg_eq (flags : Flags) {c : BitVec 8} (hc : isSigned c = true) (arg : BitVec 64) :
    signedArg flags arg =
      (BitVec.ofNat 64 (integerValue flags c arg).natAbs, decide (integerValue flags c arg < 0)) := by
  have hall : ∀ x : BitVec 32, ((magnitude x).setWidth 64, x.slt 0#32) =
      (BitVec.ofNat 64 x.toInt.natAbs, decide (x.toInt < 0)) := fun x => by
    rw [← magnitude_toNat, slt_zero, BitVec.ofNat_toNat]
  rw [integerValue, if_pos hc]
  rcases argumentBits_cases flags with ⟨hlong, hbits⟩ | ⟨hlong, ⟨hchar, hbits⟩ |
    ⟨hchar, ⟨hshort, hbits⟩ | ⟨hshort, hbits⟩⟩⟩
  · rw [signedArg, if_pos hlong, hbits, BitVec.setWidth_eq, ← magnitude_toNat, slt_zero,
      BitVec.ofNat_toNat, BitVec.setWidth_eq]
  · rw [signedArg, if_neg hlong, if_pos hchar]
    refine (hall _).trans ?_
    rw [BitVec.toInt_signExtend_of_le (by decide), hbits]
  · rw [signedArg, if_neg hlong, if_neg hchar, if_pos hshort]
    refine (hall _).trans ?_
    rw [BitVec.toInt_signExtend_of_le (by decide), hbits]
  · rw [signedArg, if_neg hlong, if_neg hchar, if_neg hshort, hbits]
    exact hall _

theorem unsignedArg_eq (flags : Flags) {c : BitVec 8} (hc : ¬ isSigned c = true)
    (arg : BitVec 64) :
    unsignedArg flags arg = BitVec.ofNat 64 (integerValue flags c arg).natAbs := by
  rw [integerValue, if_neg hc, Int.natAbs_natCast, BitVec.ofNat_toNat, unsignedArg]
  rcases argumentBits_cases flags with ⟨hlong, hbits⟩ | ⟨hlong, ⟨hchar, hbits⟩ |
    ⟨hchar, ⟨hshort, hbits⟩ | ⟨hshort, hbits⟩⟩⟩
  · rw [if_pos hlong, hbits, BitVec.setWidth_eq, BitVec.setWidth_eq]
  · rw [if_neg hlong, if_pos hchar, hbits]
  · rw [if_neg hlong, if_neg hchar, if_pos hshort, hbits]
  · rw [if_neg hlong, if_neg hchar, if_neg hshort, hbits]

/-- What is made of the flags of an integer leaves its length. -/
theorem integerValue_flags (flags : Flags) (c : BitVec 8) (arg : BitVec 64) :
    integerValue (integerFlags flags c) c arg = integerValue flags c arg := by
  have hlongLong : (integerFlags flags c).longLong = flags.longLong := by
    simp only [integerFlags, apply_ite Flags.longLong, ite_self]
  have hlong : (integerFlags flags c).long = flags.long := by
    simp only [integerFlags, apply_ite Flags.long, ite_self]
  have hchar : (integerFlags flags c).char = flags.char := by
    simp only [integerFlags, apply_ite Flags.char, ite_self]
  have hshort : (integerFlags flags c).short = flags.short := by
    simp only [integerFlags, apply_ite Flags.short, ite_self]
  have hbits : argumentBits (integerFlags flags c) = argumentBits flags := by
    unfold argumentBits
    rw [hlongLong, hlong, hchar, hshort]
  unfold integerValue
  rw [hbits]

/-! ### Strings -/

section Strings

variable {out : Out} {m : Memory} {P : Ptr → Prop} {k turns : Nat} {p : Ptr}

/-- Fewer characters are the first of them. -/
theorem charsAt_take (m : Memory) (p : Ptr) {i n : Nat} (hi : i ≤ n) :
    (charsAt m p n).take i = charsAt m p i := by
  induction n generalizing p i with
  | zero =>
      obtain rfl : i = 0 := Nat.le_zero.mp hi
      rfl
  | succ n ih =>
      cases i with
      | zero => rfl
      | succ i =>
          rw [charsAt, charsAt]
          split
          · exact List.take_nil
          · rw [List.take_succ_cons, ih _ (Nat.le_of_succ_le_succ hi)]

theorem inString_start (p : Ptr) (text : List (BitVec 8)) : InString p text p :=
  inRange_self p (Nat.succ_pos _)

theorem strnlenLoop_prints {n : Nat} {maxsize : BitVec 64}
    (hmax : maxsize.toNat = n) (hP : ∀ x, InString p (charsAt m p n) x → P x)
    (hturns : (charsAt m p n).length < turns) (idx : BitVec 64) :
    Prints out m P (strnlenLoop turns p maxsize) idx k [] 0
      (p + BitVec.ofNat 64 (charsAt m p n).length) := by
  have hp : P p := hP p (inString_start p _)
  have hhere : p + BitVec.ofNat 64 ([] : List (BitVec 8)).length = p := BitVec.add_zero p
  induction n generalizing p turns maxsize with
  | zero =>
      obtain ⟨turns, rfl⟩ := exists_turn hturns
      have hzero : maxsize = 0#64 := BitVec.eq_of_toNat_eq hmax
      rw [charsAt, hhere]
      refine .look hp ?_
      by_cases hc : m p = 0#8
      · exact .ite_pos hc (.pure _ _ _ _ _ _)
      · exact .ite_neg hc (.ite_pos hzero (.pure _ _ _ _ _ _))
  | succ n ih =>
      obtain ⟨turns, rfl⟩ := exists_turn hturns
      have hmore : maxsize ≠ 0#64 := by
        rintro rfl
        cases hmax
      by_cases hc : m p = 0#8
      · rw [charsAt, if_pos hc, hhere]
        exact .look hp (.ite_pos hc (.pure _ _ _ _ _ _))
      · rw [charsAt, if_neg hc] at hP hturns ⊢
        rw [List.length_cons] at hturns ⊢
        rw [← succ_offset]
        refine .look hp (.ite_neg hc (.ite_neg hmore ?_))
        have hnext : ∀ x, InString (p + 1) (charsAt m (p + 1) n) x → P x :=
          fun x hx => hP x (inString_cons hx)
        exact ih (by bv_omega) hnext (Nat.lt_of_succ_lt_succ hturns)
          (hnext _ (inString_start _ _)) (BitVec.add_zero _)

/-- The loop of `%s` stops at the terminator, or when the precision is used up. -/
theorem stringLoop_puts (hkeeps : Keeps out P) {flags : Flags} {n : Nat} {precision : BitVec 32}
    (hstop : if flags.precision then precision.toNat = n else (charsAt m p n).length < n)
    (hP : ∀ x, InString p (charsAt m p n) x → P x) (hturns : (charsAt m p n).length < turns) :
    Puts out m P (stringLoop out flags turns p precision) k (charsAt m p n) 0 := by
  have hp : P p := hP p (inString_start p _)
  induction n generalizing p turns precision with
  | zero =>
      obtain ⟨turns, rfl⟩ := exists_turn hturns
      have hused : flags.precision = true ∧ precision = 0#32 := by
        cases hflag : flags.precision with
        | false => simp [hflag] at hstop
        | true => exact ⟨rfl, BitVec.eq_of_toNat_eq (by simpa [hflag] using hstop)⟩
      intro idx
      rw [charsAt, List.length_nil, BitVec.add_zero]
      refine .look hp ?_
      by_cases hc : m p = 0#8
      · exact .ite_pos hc (.pure _ _ _ _ _ _)
      · exact .ite_neg hc (.ite_pos hused (.pure _ _ _ _ _ _))
  | succ n ih =>
      obtain ⟨turns, rfl⟩ := exists_turn hturns
      intro idx
      by_cases hc : m p = 0#8
      · rw [charsAt, if_pos hc, List.length_nil, BitVec.add_zero]
        exact .look hp (.ite_pos hc (.pure _ _ _ _ _ _))
      · rw [charsAt, if_neg hc] at hP hturns hstop ⊢
        rw [List.length_cons] at hturns hstop
        have hleft : ¬ (flags.precision = true ∧ precision = 0#32) := by
          rintro ⟨hflag, rfl⟩
          simp [hflag] at hstop
        have hnext : ∀ x, InString (p + 1) (charsAt m (p + 1) n) x → P x :=
          fun x hx => hP x (inString_cons hx)
        have hstop' : if flags.precision then
              (if flags.precision then precision - 1#32 else precision).toNat = n
            else (charsAt m (p + 1) n).length < n := by
          cases hflag : flags.precision with
          | false => simpa [hflag] using hstop
          | true =>
              simp only [hflag, if_true] at hstop ⊢
              bv_omega
        have hrest := ih hstop' hnext (Nat.lt_of_succ_lt_succ hturns)
          (hnext _ (inString_start _ _))
        have hput : Puts out m P (put out (m p)) k [m p] 0 := fun _ => .put _
        exact .look hp (.ite_neg hc (.ite_neg hleft (.look hp (hput.bind hkeeps hrest idx))))

/-- A string argument whose characters `_strnlen_s` can look at and count. -/
structure Countable (m : Memory) (P : Ptr → Prop) (precision : BitVec 32) (p : Ptr) : Prop where
  length : (stringSeen m precision p).length < 2 ^ 32
  reads : ∀ x, InString p (stringSeen m precision p) x → P x

variable {flags : Flags} {width precision : BitVec 32} {args : Nat → BitVec 64}

theorem stringShown_length (m : Memory) (flags : Flags) (precision : BitVec 32) (p : Ptr) :
    (stringShown m flags precision p).length =
      if flags.precision then min precision.toNat (stringSeen m precision p).length
      else (stringSeen m precision p).length := by
  unfold stringShown
  split
  · exact List.length_take
  · rfl

/-- What is put is what the loop of `%s` comes by. -/
theorem stringLoop_shown (hkeeps : Keeps out P)
    (hnone : flags.precision = false → precision = 0#32) (hp : Countable m P precision p)
    (hturns : 2 ^ 32 ≤ turns) :
    Puts out m P (stringLoop out flags turns p precision) k
      (stringShown m flags precision p) 0 := by
  have hlength := hp.length
  cases hflag : flags.precision with
  | true =>
      have hshown : stringShown m flags precision p = charsAt m p precision.toNat := by
        rw [stringShown, if_pos hflag, stringSeen, charsAt_take]
        unfold stringBound
        split
        · exact Nat.le_refl _
        · have hlt := precision.isLt
          omega
      have hreads := hp.reads
      rw [hshown]
      have hle : (charsAt m p precision.toNat).length ≤ (stringSeen m precision p).length := by
        rw [← hshown, stringShown_length, if_pos hflag]
        exact Nat.min_le_right _ _
      refine stringLoop_puts hkeeps (by rw [if_pos hflag]) (fun x hx => hreads x ?_) (by omega)
      exact Nat.lt_of_lt_of_le hx (Nat.succ_le_succ hle)
  | false =>
      have hbound : stringBound precision = 2 ^ 64 - 1 := if_neg (fun h => h (hnone hflag))
      have hshown : stringShown m flags precision p = charsAt m p (2 ^ 64 - 1) := by
        rw [stringShown, hflag, stringSeen, hbound]
        rfl
      rw [stringSeen, hbound] at hlength
      have hreads := hp.reads
      rw [stringSeen, hbound] at hreads
      rw [hshown]
      refine stringLoop_puts hkeeps ?_ hreads (by omega)
      rw [hflag]
      exact Nat.lt_of_lt_of_le hlength (by decide)

theorem string_puts (hkeeps : Keeps out P) (hnone : flags.precision = false → precision = 0#32)
    (hp : Countable m P precision (args k))
    (hturns : 2 ^ 32 ≤ turns) :
    Puts out m P (string out turns args flags width precision) k
      (fieldText flags width (stringShown m flags precision (args k))) 1 := by
  intro idx
  have hmax : (if precision ≠ 0#32 then precision.setWidth 64 else -1#64).toNat =
      stringBound precision := by
    unfold stringBound
    split
    · rw [BitVec.toNat_setWidth]
      have hlt := precision.isLt
      omega
    · rfl
  have hlength := hp.length
  have hcount : ((args k + BitVec.ofNat 64 (stringSeen m precision (args k)).length -
      args k).setWidth 32).toNat = (stringSeen m precision (args k)).length := by
    rw [offset_sub, BitVec.toNat_setWidth, BitVec.toNat_ofNat]
    omega
  generalize hl : (args k + BitVec.ofNat 64 (stringSeen m precision (args k)).length -
    args k).setWidth 32 = l at hcount
  have hshown : (if flags.precision then (if l < precision then l else precision) else l).toNat =
      (stringShown m flags precision (args k)).length := by
    rw [stringShown_length]
    split
    · split
      · next hlt =>
          have hnat : l.toNat < precision.toNat := hlt
          omega
      · next hnot =>
          have hnat : precision.toNat ≤ l.toNat := Nat.le_of_not_lt hnot
          omega
    · exact hcount
  refine .vaArg ?_
  have hlen : Prints out m P (strnlenS turns (args k)
      (if precision ≠ 0#32 then precision.setWidth 64 else -1#64)) idx (k + 1) [] 0 l := by
    rw [← hl]
    exact (strnlenLoop_prints (k := k + 1) hmax hp.reads
      (Nat.lt_of_lt_of_le hlength hturns) idx).quiet hkeeps (.pure _ _ _ _ _ _)
  refine hlen.quiet hkeeps ?_
  unfold fieldText
  rw [← hshown]
  have hloop := stringLoop_shown (k := k + 1) hkeeps hnone hp hturns
  exact Puts.bind hkeeps (.pad hkeeps _ _) (hloop.bind hkeeps (.pad hkeeps _ _)) idx

/-! ### The switch -/

theorem character_puts (hkeeps : Keeps out P) :
    Puts out m P (character out args flags width) k
      (fieldText flags width [(args k).setWidth 8]) 1 := by
  intro idx
  have hfirst : Puts out m P (pad out (!flags.left) (width.toNat - 1)) k
      (padding (!flags.left) (width.toNat - 1)) 0 := .pad hkeeps _ _
  have hput : Puts out m P (put out ((args k).setWidth 8)) (k + 1) [(args k).setWidth 8] 0 :=
    fun _ => .put _
  have hlast : Puts out m P (pad out flags.left (width.toNat - 1)) (k + 1)
      (padding flags.left (width.toNat - 1)) 0 := .pad hkeeps _ _
  have hrest : Puts out m P (fun idx => vaArg args >>= fun c =>
      put out (c.setWidth 8) idx >>= pad out flags.left (width.toNat - 1)) k
      ([(args k).setWidth 8] ++ padding flags.left (width.toNat - 1)) 1 :=
    fun idx => .vaArg (hput.bind hkeeps hlast idx)
  have hall := hfirst.bind hkeeps hrest idx
  rwa [Nat.zero_add] at hall

theorem integerBase_range (c : BitVec 8) :
    1 < (integerBase c).toNat ∧ (integerBase c).toNat ≤ 16 := by
  unfold integerBase
  split
  · decide
  split
  · decide
  split
  · decide
  · decide

theorem number_puts (hkeeps : Keeps out P) (value : BitVec 64) (negative : Bool)
    {base : BitVec 64} (hbase : 1 < base.toNat ∧ base.toNat ≤ 16) :
    Puts out m P (fun idx => ntoaLong out idx value negative base precision width flags) k
      (numberText value negative base precision width flags) 0 := by
  rw [← ntoaText_eq value negative base precision width flags hbase.1 hbase.2]
  exact ntoaLong_puts hkeeps value negative base precision width flags

theorem integer_puts (hkeeps : Keeps out P) (c : BitVec 8) :
    Puts out m P (integer out args flags width precision c) k
      (integerText flags width precision c (args k)) 1 := by
  intro idx
  refine .vaArg ?_
  unfold integerText
  have hbase := integerBase_range c
  rw [← integerValue_flags]
  by_cases hsigned : isSigned c = true
  · rw [if_pos hsigned, signedArg_eq _ hsigned]
    exact number_puts hkeeps _ _ hbase idx
  · have hplain : decide (integerValue (integerFlags flags c) c (args k) < 0) = false := by
      rw [integerValue, if_neg hsigned, decide_eq_false_iff_not]
      omega
    rw [if_neg hsigned, unsignedArg_eq _ hsigned, ← hplain]
    exact number_puts hkeeps _ _ hbase idx

theorem pointer_puts (hkeeps : Keeps out P) :
    Puts out m P (pointer out args flags precision) k (pointerText flags precision (args k)) 1 :=
  fun idx => .vaArg (number_puts hkeeps _ _ (by decide) idx)

theorem specifier_puts (hkeeps : Keeps out P) (hnone : flags.precision = false → precision = 0#32)
    (c : BitVec 8)
    (hturns : 2 ^ 32 ≤ turns) (hstring : c = ascii 's' → Countable m P precision (args k)) :
    Puts out m P (specifier out turns args flags width precision c) k
      (specifierText m flags width precision c (args k)) (takes c) := by
  have hput : ∀ c, Puts out m P (put out c) k [c] 0 := fun c _ => .put c
  unfold specifier specifierText takes
  by_cases hint : IsInteger c
  · simp only [if_pos hint]
    exact integer_puts hkeeps c
  simp only [if_neg hint]
  by_cases hchar : c = ascii 'c'
  · simp only [hchar, true_or, if_true]
    exact character_puts hkeeps
  simp only [if_neg hchar]
  by_cases hstr : c = ascii 's'
  · simp only [hstr, true_or, or_true, if_true]
    exact string_puts hkeeps hnone (hstring hstr) hturns
  simp only [if_neg hstr]
  by_cases hptr : c = ascii 'p'
  · simp only [hptr, or_true, if_true]
    exact pointer_puts hkeeps
  simp only [hchar, hstr, hptr, or_self, if_false]
  by_cases hpercent : c = ascii '%'
  · simp only [hpercent]
    exact hput _
  · simp only [if_neg hpercent]
    exact hput _

end Strings

end Asnu.Printk
