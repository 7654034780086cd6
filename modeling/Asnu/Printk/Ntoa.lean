import Asnu.CString
import Asnu.Lib.Deliver
import Asnu.Lib.Total

/-!
The output functions of `printk.c`, and the conversion of numbers: digits, the last one
first, in a buffer of 32 characters, with padding, prefix and sign behind them, and the way
back out of it. Every store of the source to this buffer stands under a test that there is
room; here the buffer cannot be stored to otherwise.
-/

namespace Asnu.Printk

open Lib Lib.Code

/-! ### Output -/

/-- What `flanterm_write(GetGlobalFtCtx(), &c, 1)` does to memory. The terminal is not part of
the repository: its context and the framebuffer are somewhere in memory. -/
abbrev FlantermWrite := Memory → BitVec 8 → Memory

structure Device where
  mem : Memory
  /-- The characters that `flanterm_write` has been given, each in a call of its own. -/
  handed : List (BitVec 8) := []

/-- A call of `flanterm_write`. -/
def Device.hand (flantermWrite : FlantermWrite) (d : Device) (c : BitVec 8) : Device where
  mem := flantermWrite d.mem c
  handed := d.handed ++ [c]

/-- `out_fct_type`. -/
abbrev OutFct := BitVec 8 → Ptr → BitVec 64 → BitVec 64 → Device → Device

def outBuffer : OutFct := fun character buffer idx maxlen d =>
  if idx < maxlen then { d with mem := d.mem.poke (buffer + idx) character } else d

def outNull : OutFct := fun _ _ _ _ d => d

def outChar (flantermWrite : FlantermWrite) : OutFct := fun character _ _ _ d =>
  if character = 0#8 then d else d.hand flantermWrite character

/-- What a call has read, taken from its argument list and given to the output function. -/
structure State where
  dev : Device
  /-- The addresses read, newest first. -/
  reads : List Ptr := []
  /-- How many arguments have been taken. -/
  taken : Nat := 0

abbrev Formatting := Code State

/-- An output function with its buffer. -/
abbrev Out := Sink (BitVec 8) Device 64

/-- `out(c, buffer, idx++, maxlen)`, which gives the next `idx`. -/
def put (out : Out) (c : BitVec 8) (idx : BitVec 64) : Formatting (BitVec 64) :=
  access (fun s => (idx + 1#64, { s with dev := out c idx s.dev }))

/-- The loops that put one character `n` times. -/
def putMany (out : Out) (c : BitVec 8) : Nat → BitVec 64 → Formatting (BitVec 64)
  | 0, idx => pure idx
  | n + 1, idx => do
      let idx ← put out c idx
      putMany out c n idx

/-- A loop that pads with spaces, under its condition. -/
def pad (out : Out) (cond : Bool) (n : Nat) (idx : BitVec 64) : Formatting (BitVec 64) :=
  if cond then putMany out (ascii ' ') n idx else pure idx

def putText (out : Out) : List (BitVec 8) → BitVec 64 → Formatting (BitVec 64)
  | [], idx => pure idx
  | c :: text, idx => do
      let idx ← put out c idx
      putText out text idx

/-! ### Flags -/

structure Flags where
  zeropad : Bool := false
  left : Bool := false
  plus : Bool := false
  space : Bool := false
  hash : Bool := false
  uppercase : Bool := false
  char : Bool := false
  short : Bool := false
  long : Bool := false
  longLong : Bool := false
  precision : Bool := false
  deriving DecidableEq

/-! ### The buffer of a number -/

/-- `PRINTF_NTOA_BUFFER_SIZE`. -/
def ntoaBufferSize : Nat := 32

/-- `buf`, of which the first `len` characters count. -/
structure NtoaBuf where
  chars : List (BitVec 8) := []
  fits : chars.length ≤ ntoaBufferSize := by decide

namespace NtoaBuf

def len (b : NtoaBuf) : Nat := b.chars.length

/-- `buf[len++] = c`. -/
def push (b : NtoaBuf) (c : BitVec 8) (h : b.len < ntoaBufferSize) : NtoaBuf where
  chars := b.chars ++ [c]
  fits := by
    rw [List.length_append, List.length_singleton]
    exact h

/-- `len--`. -/
def pop (b : NtoaBuf) : NtoaBuf where
  chars := b.chars.dropLast
  fits := by
    have hfits := b.fits
    rw [List.length_dropLast]
    omega

/-- `if (len < PRINTF_NTOA_BUFFER_SIZE) buf[len++] = c`. -/
def pushIf (b : NtoaBuf) (c : BitVec 8) : NtoaBuf :=
  if h : b.len < ntoaBufferSize then b.push c h else b

/-- At most `n` turns of a loop that fills up with zeros. -/
def zeros : Nat → NtoaBuf → NtoaBuf
  | 0, b => b
  | n + 1, b => if h : b.len < ntoaBufferSize then zeros n (b.push (ascii '0') h) else b

@[simp] theorem push_chars (b : NtoaBuf) (c : BitVec 8) (h : b.len < ntoaBufferSize) :
    (b.push c h).chars = b.chars ++ [c] := rfl

@[simp] theorem push_len (b : NtoaBuf) (c : BitVec 8) (h : b.len < ntoaBufferSize) :
    (b.push c h).len = b.len + 1 := List.length_append

end NtoaBuf

def ntoaDigit (uppercase : Bool) (d : BitVec 64) : BitVec 8 :=
  let digit := d.setWidth 8
  if digit < 10#8 then ascii '0' + digit
  else (if uppercase then ascii 'A' else ascii 'a') + digit - 10#8

/-- The loop over the digits, with `room` places left behind the next one. -/
def ntoaDigits (base : BitVec 64) (uppercase : Bool) :
    (room : Nat) → BitVec 64 → (b : NtoaBuf) → b.len + room + 1 = ntoaBufferSize → NtoaBuf
  | 0, value, b, h => b.push (ntoaDigit uppercase (value % base)) (by omega)
  | room + 1, value, b, h =>
      let b' := b.push (ntoaDigit uppercase (value % base)) (by omega)
      if value / base ≠ 0#64 then
        ntoaDigits base uppercase room (value / base) b' (by rw [NtoaBuf.push_len]; omega)
      else b'

/-- The leading zeros, and the width that is left. -/
def ntoaZeros (b : NtoaBuf) (negative : Bool) (prec width : BitVec 32) (flags : Flags) :
    NtoaBuf × BitVec 32 :=
  if flags.left then (b, width)
  else
    let width :=
      if width ≠ 0#32 ∧ flags.zeropad ∧ (negative ∨ flags.plus ∨ flags.space) then width - 1#32
      else width
    let b := b.zeros (prec.toNat - b.len)
    (if flags.zeropad then b.zeros (width.toNat - b.len) else b, width)

/-- What `#` takes off again, for the prefix to replace. -/
def ntoaCut (b : NtoaBuf) (base : BitVec 32) (prec width : BitVec 32) (flags : Flags) : NtoaBuf :=
  if flags.precision = false ∧ b.len ≠ 0 ∧ (b.len = prec.toNat ∨ b.len = width.toNat) then
    if b.pop.len ≠ 0 ∧ base = 16#32 then b.pop.pop else b.pop
  else b

def ntoaHash (b : NtoaBuf) (base : BitVec 32) (prec width : BitVec 32) (flags : Flags) :
    NtoaBuf :=
  if flags.hash then
    let b := ntoaCut b base prec width flags
    let b :=
      if base = 16#32 then b.pushIf (if flags.uppercase then ascii 'X' else ascii 'x')
      else if base = 2#32 then b.pushIf (ascii 'b')
      else b
    b.pushIf (ascii '0')
  else b

def ntoaSign (b : NtoaBuf) (negative : Bool) (flags : Flags) : NtoaBuf :=
  if negative then b.pushIf (ascii '-')
  else if flags.plus then b.pushIf (ascii '+')
  else if flags.space then b.pushIf (ascii ' ')
  else b

def outRev (out : Out) (idx : BitVec 64) (buf : List (BitVec 8)) (width : BitVec 32)
    (flags : Flags) : Formatting (BitVec 64) := do
  let startIdx := idx
  let idx ← pad out (!flags.left && !flags.zeropad) (width.toNat - buf.length) idx
  let idx ← putText out buf.reverse idx
  pad out flags.left (width.toNat - (idx - startIdx).toNat) idx

def ntoaFormat (out : Out) (idx : BitVec 64) (b : NtoaBuf) (negative : Bool)
    (base prec width : BitVec 32) (flags : Flags) : Formatting (BitVec 64) :=
  let (b, width) := ntoaZeros b negative prec width flags
  let b := ntoaHash b base prec width flags
  let b := ntoaSign b negative flags
  outRev out idx b.chars width flags

/-- The digits of a number, the last one first; 0 has none if a precision is given. -/
def ntoaStart (value base : BitVec 64) (flags : Flags) : NtoaBuf :=
  if flags.precision = false ∨ value ≠ 0#64 then
    ntoaDigits base flags.uppercase 31 value {} rfl
  else {}

/-- `_ntoa_long`, and `_ntoa_long_long`, which is the same with 64 bits to a `long`. -/
def ntoaLong (out : Out) (idx : BitVec 64) (value : BitVec 64) (negative : Bool)
    (base : BitVec 64) (prec width : BitVec 32) (flags : Flags) : Formatting (BitVec 64) :=
  -- no hash for 0
  let flags := if value = 0#64 then { flags with hash := false } else flags
  ntoaFormat out idx (ntoaStart value base flags) negative (base.setWidth 32) prec width flags

end Asnu.Printk
