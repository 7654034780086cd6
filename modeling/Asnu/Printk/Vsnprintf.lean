import Asnu.Printk.Ntoa

/-!
`_vsnprintf`: the format is gone through character by character, and what a directive asks
for is taken from the argument list. A character that the source reads several times with
nothing in between is read once here.
-/

namespace Asnu.Printk

open Lib Lib.Code

/-- `*p`. -/
def look (p : Ptr) : Formatting (BitVec 8) :=
  access (fun s => (s.dev.mem p, { s with reads := p :: s.reads }))

/-- The next argument, which has eight bytes whatever its type. -/
def vaArg (args : Nat → BitVec 64) : Formatting (BitVec 64) :=
  access (fun s => (args s.taken, { s with taken := s.taken + 1 }))

def isDigit (ch : BitVec 8) : Bool := decide (ascii '0' ≤ ch ∧ ch ≤ ascii '9')

/-- The loop of `_atoi`, with the number so far; it also gives the place where it stops. -/
def atoi : Nat → BitVec 32 → Ptr → Formatting (BitVec 32 × Ptr)
  | 0, _, _ => giveUp
  | turns + 1, i, str => do
      let c ← look str
      if isDigit c then atoi turns (i * 10#32 + (c - ascii '0').setWidth 32) (str + 1)
      else pure (i, str)

/-- The loop of `_strnlen_s`, which gives the place where it stops. -/
def strnlenLoop : Nat → Ptr → BitVec 64 → Formatting Ptr
  | 0, _, _ => giveUp
  | turns + 1, s, maxsize => do
      let c ← look s
      if c = 0#8 then pure s
      else if maxsize = 0#64 then pure s
      else strnlenLoop turns (s + 1) (maxsize - 1#64)

def strnlenS (turns : Nat) (str : Ptr) (maxsize : BitVec 64) : Formatting (BitVec 32) := do
  let s ← strnlenLoop turns str maxsize
  pure ((s - str).setWidth 32)

/-! ### The fields of a directive -/

/-- The flag that a character stands for. -/
def setFlag (flags : Flags) (c : BitVec 8) : Option Flags :=
  if c = ascii '0' then some { flags with zeropad := true }
  else if c = ascii '-' then some { flags with left := true }
  else if c = ascii '+' then some { flags with plus := true }
  else if c = ascii ' ' then some { flags with space := true }
  else if c = ascii '#' then some { flags with hash := true }
  else none

def flagsLoop : Nat → Flags → Ptr → Formatting (Flags × Ptr)
  | 0, _, _ => giveUp
  | turns + 1, flags, format => do
      let c ← look format
      match setFlag flags c with
      | some flags => flagsLoop turns flags (format + 1)
      | none => pure (flags, format)

/-- A width from the argument list. -/
def starWidth (flags : Flags) (arg : BitVec 64) : Flags × BitVec 32 :=
  let w := arg.setWidth 32
  if w.slt 0#32 then ({ flags with left := true }, -w) else (flags, w)

def widthField (turns : Nat) (args : Nat → BitVec 64) (flags : Flags) (format : Ptr) :
    Formatting (Flags × BitVec 32 × Ptr) := do
  let c ← look format
  if isDigit c then do
    let (width, format) ← atoi turns 0#32 format
    pure (flags, width, format)
  else if c = ascii '*' then do
    let w ← vaArg args
    let (flags, width) := starWidth flags w
    pure (flags, width, format + 1)
  else pure (flags, 0#32, format)

/-- A precision from the argument list. -/
def starPrecision (arg : BitVec 64) : BitVec 32 :=
  let prec := arg.setWidth 32
  if (0#32).slt prec then prec else 0#32

def precisionField (turns : Nat) (args : Nat → BitVec 64) (flags : Flags) (format : Ptr) :
    Formatting (Flags × BitVec 32 × Ptr) := do
  let c ← look format
  if c = ascii '.' then do
    let flags := { flags with precision := true }
    let format := format + 1
    let c ← look format
    if isDigit c then do
      let (precision, format) ← atoi turns 0#32 format
      pure (flags, precision, format)
    else if c = ascii '*' then do
      let prec ← vaArg args
      pure (flags, starPrecision prec, format + 1)
    else pure (flags, 0#32, format)
  else pure (flags, 0#32, format)

def lengthField (flags : Flags) (format : Ptr) : Formatting (Flags × Ptr) := do
  let c ← look format
  if c = ascii 'l' then do
    let flags := { flags with long := true }
    let format := format + 1
    let c ← look format
    if c = ascii 'l' then pure ({ flags with longLong := true }, format + 1)
    else pure (flags, format)
  else if c = ascii 'h' then do
    let flags := { flags with short := true }
    let format := format + 1
    let c ← look format
    if c = ascii 'h' then pure ({ flags with char := true }, format + 1)
    else pure (flags, format)
  else if c = ascii 't' ∨ c = ascii 'j' ∨ c = ascii 'z' then
    pure ({ flags with long := true }, format + 1)
  else pure (flags, format)

/-! ### The conversions -/

def integerBase (c : BitVec 8) : BitVec 64 :=
  if c = ascii 'x' ∨ c = ascii 'X' then 16#64
  else if c = ascii 'o' then 8#64
  else if c = ascii 'b' then 2#64
  else 10#64

def isSigned (c : BitVec 8) : Bool := decide (c = ascii 'i' ∨ c = ascii 'd')

/-- The flags that count for an integer. -/
def integerFlags (flags : Flags) (c : BitVec 8) : Flags :=
  let flags := if integerBase c = 10#64 then { flags with hash := false } else flags
  let flags := if c = ascii 'X' then { flags with uppercase := true } else flags
  let flags := if isSigned c then flags else { flags with plus := false, space := false }
  if flags.precision then { flags with zeropad := false } else flags

/-- `value > 0 ? value : 0 - value`. -/
def magnitude {w : Nat} (value : BitVec w) : BitVec w :=
  if (0#w).slt value then value else 0#w - value

/-- An argument with a sign, as what is printed of it and whether a minus sign is. -/
def signedArg (flags : Flags) (arg : BitVec 64) : BitVec 64 × Bool :=
  if flags.longLong ∨ flags.long then (magnitude arg, arg.slt 0#64)
  else
    let value : BitVec 32 :=
      if flags.char then (arg.setWidth 8).signExtend 32
      else if flags.short then (arg.setWidth 16).signExtend 32
      else arg.setWidth 32
    ((magnitude value).setWidth 64, value.slt 0#32)

def unsignedArg (flags : Flags) (arg : BitVec 64) : BitVec 64 :=
  if flags.longLong ∨ flags.long then arg
  else if flags.char then (arg.setWidth 8).setWidth 64
  else if flags.short then (arg.setWidth 16).setWidth 64
  else (arg.setWidth 32).setWidth 64

def integer (out : Out) (args : Nat → BitVec 64) (flags : Flags) (width precision : BitVec 32)
    (c : BitVec 8) (idx : BitVec 64) : Formatting (BitVec 64) := do
  let flags := integerFlags flags c
  let arg ← vaArg args
  if isSigned c then
    let (value, negative) := signedArg flags arg
    ntoaLong out idx value negative (integerBase c) precision width flags
  else ntoaLong out idx (unsignedArg flags arg) false (integerBase c) precision width flags

def character (out : Out) (args : Nat → BitVec 64) (flags : Flags) (width : BitVec 32)
    (idx : BitVec 64) : Formatting (BitVec 64) := do
  let idx ← pad out (!flags.left) (width.toNat - 1) idx
  let c ← vaArg args
  let idx ← put out (c.setWidth 8) idx
  pad out flags.left (width.toNat - 1) idx

/-- The output loop of `%s`. -/
def stringLoop (out : Out) (flags : Flags) : Nat → Ptr → BitVec 32 → BitVec 64 →
    Formatting (BitVec 64)
  | 0, _, _, _ => giveUp
  | turns + 1, p, precision, idx => do
      let c ← look p
      if c = 0#8 then pure idx
      else if flags.precision ∧ precision = 0#32 then pure idx
      else do
        let c ← look p
        let idx ← put out c idx
        stringLoop out flags turns (p + 1) (if flags.precision then precision - 1#32 else precision)
          idx

def string (out : Out) (turns : Nat) (args : Nat → BitVec 64) (flags : Flags)
    (width precision : BitVec 32) (idx : BitVec 64) : Formatting (BitVec 64) := do
  let p ← vaArg args
  let l ← strnlenS turns p (if precision ≠ 0#32 then precision.setWidth 64 else -1#64)
  let l := if flags.precision then (if l < precision then l else precision) else l
  let idx ← pad out (!flags.left) (width.toNat - l.toNat) idx
  let idx ← stringLoop out flags turns p precision idx
  pad out flags.left (width.toNat - l.toNat) idx

def pointer (out : Out) (args : Nat → BitVec 64) (flags : Flags) (precision : BitVec 32)
    (idx : BitVec 64) : Formatting (BitVec 64) := do
  let arg ← vaArg args
  ntoaLong out idx arg false 16#64 precision 16#32 { flags with zeropad := true, uppercase := true }

/-- The specifiers of integers. -/
def IsInteger (c : BitVec 8) : Prop := c ∈ ['d', 'i', 'u', 'x', 'X', 'o', 'b'].map ascii

instance (c : BitVec 8) : Decidable (IsInteger c) :=
  decidable_of_iff ((['d', 'i', 'u', 'x', 'X', 'o', 'b'].map ascii).any (fun d => d == c) = true)
    (by rw [IsInteger, List.any_eq_true]; simp only [beq_iff_eq, exists_eq_right])

/-- The `switch` on the specifier. -/
def specifier (out : Out) (turns : Nat) (args : Nat → BitVec 64) (flags : Flags)
    (width precision : BitVec 32) (c : BitVec 8) (idx : BitVec 64) : Formatting (BitVec 64) :=
  if IsInteger c then
    integer out args flags width precision c idx
  else if c = ascii 'c' then character out args flags width idx
  else if c = ascii 's' then string out turns args flags width precision idx
  else if c = ascii 'p' then pointer out args flags precision idx
  else if c = ascii '%' then put out (ascii '%') idx
  else put out c idx

/-- What stands behind a `%`; gives the place behind the specifier as well. -/
def directive (out : Out) (turns : Nat) (args : Nat → BitVec 64) (format : Ptr)
    (idx : BitVec 64) : Formatting (Ptr × BitVec 64) := do
  let (flags, format) ← flagsLoop turns {} format
  let (flags, width, format) ← widthField turns args flags format
  let (flags, precision, format) ← precisionField turns args flags format
  let (flags, format) ← lengthField flags format
  let c ← look format
  let idx ← specifier out turns args flags width precision c idx
  pure (format + 1, idx)

/-- The loop over the format; `turns` is also for the loops inside. -/
def formatLoop (out : Out) (turns : Nat) (args : Nat → BitVec 64) :
    Nat → Ptr → BitVec 64 → Formatting (BitVec 64)
  | 0, _, _ => giveUp
  | n + 1, format, idx => do
      let c ← look format
      if c = 0#8 then pure idx
      else if c ≠ ascii '%' then do
        let idx ← put out c idx
        formatLoop out turns args n (format + 1) idx
      else do
        let (format, idx) ← directive out turns args (format + 1) idx
        formatLoop out turns args n format idx

def vsnprintf (turns : Nat) (out : OutFct) (buffer : Ptr) (maxlen : BitVec 64) (format : Ptr)
    (args : Nat → BitVec 64) : Formatting (BitVec 32) := do
  let out := if buffer = NULL then outNull else out
  let sink : Out := fun c idx => out c buffer idx maxlen
  let idx ← formatLoop sink turns args turns format 0#64
  -- the terminator
  let _ ← put sink 0#8 (if idx < maxlen then idx else maxlen - 1#64)
  pure (idx.setWidth 32)

/-- `printk_`, with the place of its buffer of one character. -/
def printk (flantermWrite : FlantermWrite) (turns : Nat) (buffer format : Ptr)
    (args : Nat → BitVec 64) : Formatting (BitVec 32) :=
  vsnprintf turns (outChar flantermWrite) buffer (-1#64) format args

def snprintf (turns : Nat) (buffer : Ptr) (count : BitVec 64) (format : Ptr)
    (args : Nat → BitVec 64) : Formatting (BitVec 32) :=
  vsnprintf turns outBuffer buffer count format args

end Asnu.Printk
