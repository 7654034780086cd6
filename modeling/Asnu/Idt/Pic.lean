import Mathlib.Tactic
import Asnu.Drivers.Pit
import Asnu.Lib.Priority

/-!
The two interrupt controllers, and the functions of `idt.c` and `KiIrqSetMask` that program
them. A controller is what its command and data ports make of it: an initialization of up to
four words, then its mask, and requests that wait for their turn. The second one hangs on line
2 of the first.
-/

namespace Asnu.Irq

open Lib

def pic1Data : BitVec 16 := 0x21#16

def pic2Data : BitVec 16 := 0xA1#16

/-! ### The controllers -/

/-- What the next byte at the data port is taken for. -/
inductive Expects where
  | icw2
  | icw3
  | icw4
  | mask
  deriving DecidableEq

structure Chip where
  /-- The number of the interrupt of line 0. -/
  offset : BitVec 8
  mask : BitVec 8
  /-- The lines with another controller on them, or the number of the own line there. -/
  wiring : BitVec 8
  /-- No service is kept account of. -/
  autoEoi : Bool
  single : Bool
  icw4 : Bool
  expects : Expects
  service : Service

namespace Chip

def command (c : Chip) (byte : BitVec 8) : Chip :=
  if byte.getLsbD 4 then
    { c with mask := 0#8, single := byte.getLsbD 1, icw4 := byte.getLsbD 0, autoEoi := false
             expects := .icw2, service := .idle }
  else if byte = picEoi then { c with service := c.service.finish 8 }
  else c

def data (c : Chip) (byte : BitVec 8) : Chip :=
  match c.expects with
  | .icw2 =>
      { c with offset := byte &&& 0xf8#8
               expects := if c.single then (if c.icw4 then .icw4 else .mask) else .icw3 }
  | .icw3 => { c with wiring := byte, expects := if c.icw4 then .icw4 else .mask }
  | .icw4 => { c with autoEoi := byte.getLsbD 1, expects := .mask }
  | .mask => { c with mask := byte }

def admits (c : Chip) (l : Nat) : Bool := !c.mask.getLsbD l

def request (c : Chip) (l : Nat) : Chip := { c with service := c.service.request l }

def pending (c : Chip) : Option Nat := c.service.pending 8 c.admits

/-- The number that goes to the CPU, and what goes on behind it. -/
def vector (c : Chip) (l : Nat) : BitVec 8 := c.offset ||| BitVec.ofNat 8 l

def accept (c : Chip) (l : Nat) : Chip :=
  { c with service := if c.autoEoi then (c.service.take l).finish 8 else c.service.take l }

end Chip

structure Pics where
  master : Chip
  slave : Chip

namespace Pics

def outb (p : Pics) (port : BitVec 16) (byte : BitVec 8) : Pics :=
  if port = pic1Command then { p with master := p.master.command byte }
  else if port = pic1Data then { p with master := p.master.data byte }
  else if port = pic2Command then { p with slave := p.slave.command byte }
  else if port = pic2Data then { p with slave := p.slave.data byte }
  else p

def inb (p : Pics) (port : BitVec 16) : BitVec 8 :=
  if port = pic1Data then p.master.mask
  else if port = pic2Data then p.slave.mask
  else 0xff#8

/-- A device asks for attention on one of the lines 0 to 15. -/
def raise (p : Pics) (n : Nat) : Pics :=
  if n < 8 then { p with master := p.master.request n }
  else { p with slave := p.slave.request (n - 8) }

/-- The first controller with what the second one asks for on line 2. -/
def joined (p : Pics) : Chip := if p.slave.pending.isSome then p.master.request 2 else p.master

/-- The answer to the CPU, with the number of the interrupt. -/
def acknowledge (p : Pics) : Option (BitVec 8 × Pics) :=
  match p.joined.pending with
  | none => none
  | some l =>
      let master := p.master.accept l
      if p.master.wiring.getLsbD l then
        -- the controller whose own line this is gives the number
        match p.slave.pending with
        | some k =>
            if p.slave.wiring = BitVec.ofNat 8 l then
              some (p.slave.vector k, { master := master, slave := p.slave.accept k })
            else none
        | none => none
      else some (p.master.vector l, { p with master := master })

end Pics

/-! ### The code -/

/-- `IOWait`. -/
def ioWait (p : Pics) : Pics := p.outb 0x80#16 0#8

/-- A store to a port and the wait behind it. -/
def outbWait (p : Pics) (port : BitVec 16) (byte : BitVec 8) : Pics := ioWait (p.outb port byte)

/-- `ICW1_INIT | ICW1_ICW4`. -/
def icw1 : BitVec 8 := 0x11#8

def icw4Mode8086 : BitVec 8 := 0x01#8

def idtPicRemap (p : Pics) (offset1 offset2 : BitVec 32) : Pics :=
  let p := outbWait p pic1Command icw1
  let p := outbWait p pic2Command icw1
  let p := outbWait p pic1Data (offset1.setWidth 8)
  let p := outbWait p pic2Data (offset2.setWidth 8)
  let p := outbWait p pic1Data 4#8
  let p := outbWait p pic2Data 2#8
  let p := outbWait p pic1Data icw4Mode8086
  let p := outbWait p pic2Data icw4Mode8086
  let p := p.outb pic1Data 0#8
  p.outb pic2Data 0#8

def idtPicSendEoi (p : Pics) (irq : BitVec 8) : Pics :=
  let p := if irq ≥ 8#8 then p.outb pic2Command picEoi else p
  p.outb pic1Command picEoi

/-- The port with the mask of a line, and the line's place in it. -/
def irqPort (irqLine : BitVec 8) : BitVec 16 × BitVec 8 :=
  if irqLine < 8#8 then (pic1Data, irqLine) else (pic2Data, irqLine - 8#8)

/-- A mask read, changed at the bit of a line and written back. -/
def irqChangeMask (change : BitVec 32 → BitVec 32 → BitVec 32) (p : Pics) (irqLine : BitVec 8) :
    Pics :=
  let (port, line) := irqPort irqLine
  let value := change ((p.inb port).setWidth 32) (1#32 <<< line.toNat)
  p.outb port (value.setWidth 8)

def kiIrqSetMask : Pics → BitVec 8 → Pics := irqChangeMask (fun value bit => value ||| bit)

def idtIrqClearMask : Pics → BitVec 8 → Pics := irqChangeMask (fun value bit => value &&& ~~~bit)

end Asnu.Irq
