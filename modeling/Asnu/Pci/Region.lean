import Asnu.Pci.Mmio

/-!
The region that probing reports beside the one that the function decodes. A memory
register is assigned if its address is not 0; the loop takes a register that is not 0
for one, and a 64-bit register is never 0.
-/

namespace Asnu

open Lib

/-- The line that `PciLogDeviceInfo` prints about the region: its base, size and place, or
none for "No MMIO region mapped". -/
def pciLogRegion (dev : MmioDevice) : Option (Ptr × BitVec 32 × BitVec 8) :=
  if dev.mmioBase ≠ NULL ∧ 0#32 < dev.mmioSize then
    some (dev.mmioBase, dev.mmioSize, dev.mmioBarIndex)
  else none

namespace MmioDevice

variable (dev : MmioDevice)

abbrev low (i : Nat) : BitVec 32 := dev.bar.getD i 0

/-- A register for memory: bit 0 is clear. -/
def IsMemory (i : Nat) : Prop := dev.low i &&& 0x1#32 = 0#32

/-- A register for memory that takes the next place too. -/
def IsWide (i : Nat) : Prop := dev.IsMemory i ∧ Wide (dev.low i)

/-- The places at which a register begins. -/
inductive BarStart : Nat → Prop where
  | first : BarStart 0
  | narrow {i : Nat} (h : BarStart i) (hi : ¬ dev.IsWide i) : BarStart (i + 1)
  | wide {i : Nat} (h : BarStart i) (hi : dev.IsWide i) : BarStart (i + 2)

/-- The address in the register at place `i`. -/
def base (i : Nat) : Ptr :=
  if Wide (dev.low i) then
    ((dev.low (i + 1)).setWidth 64 <<< 32) ||| (dev.low i &&& ~~~0xF#32).setWidth 64
  else (dev.low i &&& ~~~0xF#32).setWidth 64

/-- A memory register that has been given an address. -/
structure Assigned (i : Nat) : Prop where
  place : i < 6
  start : dev.BarStart i
  memory : dev.IsMemory i
  address : dev.base i ≠ NULL

structure FirstAssigned (i : Nat) : Prop where
  assigned : dev.Assigned i
  first : ∀ j < i, ¬ dev.Assigned j

end MmioDevice

section Layout

variable (hw : PciHardware) (dev : MmioDevice)

/-- The writable bits of the register at place `i`. -/
abbrev writableAt (i : Nat) : BitVec 32 :=
  hw.writable (barAddress dev.bus dev.slot dev.function i)

/-- The register at place `i` decodes `2 ^ k` bytes: its address is aligned, and the bits
from `k` on can be written. -/
structure Decodes (i k : Nat) : Prop where
  size : 4 ≤ k
  aligned : 2 ^ k ∣ (dev.base i).toNat
  bits : if Wide (dev.low i) then
      writableAt hw dev (i + 1) ++ writableAt hw dev i = addressBits 64 k
    else writableAt hw dev i = addressBits 32 k

/-- The registers fit into the six places, and the first one with an address decodes a region. -/
structure BarLayout : Prop where
  fits : ∀ i < 6, dev.BarStart i → dev.IsWide i → i + 1 < 6
  decodes : ∀ i, dev.FirstAssigned i → ∃ k, Decodes hw dev i k

/-- `dev'` has the region that the first assigned register of `dev` decodes, or none if there
is no such register. -/
structure Reported (dev' : MmioDevice) : Prop where
  region : ∀ i k, dev.FirstAssigned i → Decodes hw dev i k →
    dev'.mmioBarIndex = BitVec.ofNat 8 i ∧ dev'.mmioBase = dev.base i ∧
      dev'.is64BitPciDevice = decide (Wide (dev.low i)) ∧ dev'.mmioSize.toNat = 2 ^ k ∧
      pciLogRegion dev' ≠ none
  nothing : (∀ i, ¬ dev.Assigned i) → dev'.mmioBase = NULL ∧ dev'.mmioSize = 0#32

/-- An address bit of the register at place `i` can be written, so that it decodes less than
4 GiB. -/
def HasLowBits (i : Nat) : Prop := writableAt hw dev i &&& ~~~0xF#32 ≠ 0#32

end Layout

/-! ### Which place is probed -/

namespace MmioDevice

variable {dev : MmioDevice}

theorem not_isWide_of_skipped {i : Nat} (h : Skipped (dev.low i)) : ¬ dev.IsWide i := by
  rintro ⟨hmemory, hwide⟩
  rcases h with hzero | hio
  · rw [Wide, hzero] at hwide
    exact absurd hwide (by decide)
  · exact hio hmemory

theorem not_assigned_of_skipped {i : Nat} (h : Skipped (dev.low i)) : ¬ dev.Assigned i := by
  intro hassigned
  rcases h with hzero | hio
  · have hnarrow : ¬ Wide (dev.low i) := by
      rw [hzero]
      decide
    refine hassigned.address ?_
    rw [base, if_neg hnarrow, hzero]
    rfl
  · exact hio hassigned.memory

theorem barStart_of_skipped {i : Nat} (h : ∀ j < i, Skipped (dev.low j)) : dev.BarStart i := by
  induction i with
  | zero => exact .first
  | succ i ih =>
      have hbefore := ih (fun j hj => h j (Nat.lt_succ_of_lt hj))
      exact .narrow hbefore (not_isWide_of_skipped (h i (Nat.lt_succ_self i)))

theorem probed_eq_some_iff {j : Nat} :
    dev.probed = some j ↔
      ¬ Skipped (dev.low j) ∧ j < 6 ∧ ∀ i < j, Skipped (dev.low i) := by
  rw [probed, List.find?_range_eq_some]
  simp

/-- If nothing is probed, nothing is assigned. -/
theorem not_assigned_of_none (h : dev.probed = none) (i : Nat) : ¬ dev.Assigned i := by
  intro hassigned
  have hskipped := List.find?_eq_none.mp h i (List.mem_range.mpr hassigned.place)
  exact not_assigned_of_skipped (by simpa using hskipped) hassigned

/-- With an address the place probed is the first assigned, and the only one. -/
theorem firstAssigned_iff {i j : Nat} (h : dev.probed = some j) (hbase : dev.base j ≠ NULL) :
    dev.FirstAssigned i ↔ i = j := by
  obtain ⟨hprobed, hj, hbefore⟩ := probed_eq_some_iff.mp h
  have hmemory : dev.IsMemory j := not_not.mp (not_or.mp hprobed).2
  have hassigned : dev.Assigned j := ⟨hj, barStart_of_skipped hbefore, hmemory, hbase⟩
  constructor
  · intro hfirst
    rcases Nat.lt_trichotomy i j with hlt | heq | hgt
    · exact absurd hfirst.assigned (not_assigned_of_skipped (hbefore i hlt))
    · exact heq
    · exact absurd hassigned (hfirst.first j hgt)
  · rintro rfl
    exact ⟨hassigned, fun k hk => not_assigned_of_skipped (hbefore k hk)⟩

/-- The least assigned place. -/
theorem exists_firstAssigned {i : Nat} (h : dev.Assigned i) : ∃ j, dev.FirstAssigned j := by
  classical
  exact ⟨Nat.find ⟨i, h⟩, Nat.find_spec ⟨i, h⟩, fun _ hj => Nat.find_min ⟨i, h⟩ hj⟩

end MmioDevice

/-! ### What is found out about it -/

/-- The size that is left of what reads back after all ones have been written. -/
def regionSize (low writable : BitVec 32) : BitVec 32 :=
  ~~~((low ||| writable) &&& ~~~0xF#32) + 1#32

theorem setWidth_high_low (high low : BitVec 32) :
    ((high.setWidth 64 <<< 32) ||| low.setWidth 64).setWidth 32 = low := by
  ext i hi
  simp

/-- The high half does not count in the size that is kept. -/
theorem setWidth_size (high low : BitVec 32) :
    (~~~((high.setWidth 64 <<< 32) ||| low.setWidth 64) + 1#64).setWidth 32 = ~~~low + 1#32 := by
  rw [BitVec.setWidth_add _ _ (by decide), BitVec.setWidth_not (by decide), setWidth_high_low]
  rfl

namespace MmioDevice

variable {dev : MmioDevice}

theorem setWidth_base (i : Nat) : (dev.base i).setWidth 32 = dev.low i &&& ~~~0xF#32 := by
  unfold base
  split
  · exact setWidth_high_low _ _
  · exact BitVec.setWidth_setWidth_of_le _ (by decide)

end MmioDevice

section Size

variable {hw : PciHardware} {dev : MmioDevice} {i k : Nat}

/-- The low half of a 64-bit register has the low bits. -/
theorem Decodes.low_bits (h : Decodes hw dev i k) : writableAt hw dev i = addressBits 32 k := by
  have hbits := h.bits
  split at hbits
  · have hlow := congrArg (BitVec.setWidth 32) hbits
    rwa [BitVec.setWidth_append_eq_right, setWidth_addressBits (by decide)] at hlow
  · exact hbits

theorem Decodes.and_low_bits (h : Decodes hw dev i k) :
    writableAt hw dev i &&& ~~~0xF#32 = addressBits 32 k := by
  have htype : ~~~0xF#32 = addressBits 32 4 := by decide
  rw [h.low_bits, htype, addressBits_and_addressBits h.size]

theorem Decodes.hasLowBits_iff (h : Decodes hw dev i k) : HasLowBits hw dev i ↔ k < 32 := by
  rw [HasLowBits, h.and_low_bits, ne_eq, addressBits_eq_zero_iff, Nat.not_le]

/-- The bits that read back are the address bits. -/
theorem Decodes.regionSize_eq (h : Decodes hw dev i k) :
    regionSize (dev.low i) (writableAt hw dev i) = ~~~(addressBits 32 k) + 1#32 := by
  have haligned := congrArg (BitVec.setWidth 32) (or_addressBits h.aligned)
  rw [BitVec.setWidth_or, setWidth_addressBits (by decide), MmioDevice.setWidth_base] at haligned
  rw [regionSize, BitVec.and_or_distrib_right, h.and_low_bits, haligned]

/-- Without an address the bits that read back are the writable ones. -/
theorem regionSize_eq_zero_iff (hbase : dev.base i = NULL) :
    regionSize (dev.low i) (writableAt hw dev i) = 0#32 ↔ ¬ HasLowBits hw dev i := by
  have hlow := congrArg (BitVec.setWidth 32) hbase
  rw [MmioDevice.setWidth_base] at hlow
  have hnull : dev.low i &&& ~~~0xF#32 = 0#32 := hlow
  rw [regionSize, BitVec.and_or_distrib_right, hnull, BitVec.zero_or, HasLowBits, not_not,
    ← BitVec.neg_eq_not_add, BitVec.neg_eq_zero_iff]

end Size

/-- The record after the probe of place `j`. -/
def MmioDevice.withRegion (dev : MmioDevice) (hw : PciHardware) (j : Nat) : MmioDevice :=
  { dev with
    mmioBase := dev.base j
    mmioSize := regionSize (dev.low j) (writableAt hw dev j)
    mmioBarIndex := BitVec.ofNat 8 j
    is64BitPciDevice := decide (Wide (dev.low j)) }

section Probe

variable {hw : PciHardware} {c : ConfigSpace} {bus slot func : BitVec 8} {j : Nat}

theorem bar_eq_low (hj : j < 6) :
    hw.bar (pciReadDevice c bus slot func) j = (pciReadDevice c bus slot func).low j := by
  rw [PciHardware.bar, MmioDevice.low, bar_pciReadDevice hj, bar_pciReadDevice hj]

/-- What a register reads after all ones have been written. -/
theorem read_ones (hw : PciHardware) (c : ConfigSpace) (bus slot func : BitVec 8) (hj : j < 6) :
    writeRegister hw.writable c (barAddress bus slot func j) 0xFFFFFFFF#32
        (barAddress bus slot func j) =
      (pciReadDevice c bus slot func).low j |||
        writableAt hw (pciReadDevice c bus slot func) j := by
  have hones : 0xFFFFFFFF#32 = BitVec.allOnes 32 := by decide
  rw [writeRegister_same, hones, maskedWrite_ones, MmioDevice.low, bar_pciReadDevice hj]
  rfl

theorem probe32_eq (hj : j < 6) (hnarrow : ¬ Wide ((pciReadDevice c bus slot func).low j))
    (reads : List Nat) :
    (hw.probe32 (pciReadDevice c bus slot func) j { space := c, barReads := reads }).1 =
      (pciReadDevice c bus slot func).withRegion hw j := by
  have hread := read_ones hw c bus slot func hj
  simp only [PciHardware.probe32, MmioDevice.withRegion, MmioDevice.base, if_neg hnarrow,
    decide_eq_false hnarrow, regionSize, bar_eq_low hj, ← hread]
  rfl

theorem probe64_eq (hj : j + 1 < 6) (hwide : Wide ((pciReadDevice c bus slot func).low j))
    (reads : List Nat) :
    (hw.probe64 (pciReadDevice c bus slot func) j { space := c, barReads := reads }).1 =
      (pciReadDevice c bus slot func).withRegion hw j := by
  have hne : barAddress bus slot func j ≠ barAddress bus slot func (j + 1) := by
    intro heq
    have hsame := configAddress_barOffset_inj (by omega) (by omega) heq
    omega
  have hread : writeRegister hw.writable
      (writeRegister hw.writable c (barAddress bus slot func j) 0xFFFFFFFF#32)
      (barAddress bus slot func (j + 1)) 0xFFFFFFFF#32 (barAddress bus slot func j) = _ :=
    (writeRegister_other hne).trans (read_ones hw c bus slot func (by omega))
  simp only [PciHardware.probe64, MmioDevice.withRegion, MmioDevice.base, if_pos hwide,
    decide_eq_true hwide, regionSize, bar_eq_low hj, bar_eq_low (show j < 6 by omega), ← hread,
    setWidth_size]
  rfl

theorem probeAt_eq (hj : j < 6)
    (hfits : Wide ((pciReadDevice c bus slot func).low j) → j + 1 < 6) (reads : List Nat) :
    (hw.probeAt (pciReadDevice c bus slot func) { space := c, barReads := reads } j).1 =
      (pciReadDevice c bus slot func).withRegion hw j := by
  rw [PciHardware.probeAt, bar_eq_low hj]
  split
  · next hwide => exact probe64_eq (hfits hwide) hwide reads
  · next hnarrow => exact probe32_eq hj hnarrow reads

end Probe

theorem ofNat_place_inj {i j : Nat} (hi : i < 6) (hj : j < 6)
    (h : BitVec.ofNat 8 i = BitVec.ofNat 8 j) : i = j := by
  have hnat := congrArg BitVec.toNat h
  rw [BitVec.toNat_ofNat, BitVec.toNat_ofNat] at hnat
  omega

section Report

variable {hw : PciHardware} {dev : MmioDevice} {j : Nat}

/-- With an address the region is reported exactly if its size fits into 32 bits. -/
theorem reported_of_base (h : BarLayout hw dev) (hprobed : dev.probed = some j)
    (hbase : dev.base j ≠ NULL) :
    Reported hw dev (dev.withRegion hw j) ↔ HasLowBits hw dev j := by
  have hfirst : dev.FirstAssigned j := (MmioDevice.firstAssigned_iff hprobed hbase).mpr rfl
  constructor
  · intro hreported
    obtain ⟨k, hk⟩ := h.decodes j hfirst
    obtain ⟨_, _, _, hsize, _⟩ := hreported.region j k hfirst hk
    rw [hk.hasLowBits_iff]
    by_contra hbig
    have hzero := addressBits_eq_zero_iff.mpr (Nat.le_of_not_lt hbig)
    rw [MmioDevice.withRegion, hk.regionSize_eq, hzero] at hsize
    exact absurd hsize.symm (Nat.ne_of_gt (Nat.two_pow_pos k))
  · intro hlow
    refine ⟨fun i k hi hk => ?_, fun hnone => absurd hfirst.assigned (hnone j)⟩
    obtain rfl := (MmioDevice.firstAssigned_iff hprobed hbase).mp hi
    have hsize : (dev.withRegion hw i).mmioSize.toNat = 2 ^ k := by
      rw [MmioDevice.withRegion, hk.regionSize_eq,
        toNat_neg_addressBits (hk.hasLowBits_iff.mp hlow)]
    have hpos : 0#32 < (dev.withRegion hw i).mmioSize := by
      rw [BitVec.lt_def, hsize]
      exact Nat.two_pow_pos k
    refine ⟨rfl, rfl, rfl, hsize, ?_⟩
    rw [pciLogRegion, if_pos ⟨hbase, hpos⟩]
    exact Option.some_ne_none _

/-- Without an address nothing must be assigned, and no size read back. -/
theorem reported_of_no_base (h : BarLayout hw dev) (hprobed : dev.probed = some j)
    (hbase : dev.base j = NULL) :
    Reported hw dev (dev.withRegion hw j) ↔
      (∀ i, ¬ dev.Assigned i) ∧ ¬ HasLowBits hw dev j := by
  rw [← regionSize_eq_zero_iff hbase]
  constructor
  · intro hreported
    have hnone : ∀ i, ¬ dev.Assigned i := by
      intro i hassigned
      obtain ⟨f, hf⟩ := MmioDevice.exists_firstAssigned hassigned
      obtain ⟨k, hk⟩ := h.decodes f hf
      have hindex := (hreported.region f k hf hk).1
      obtain rfl := ofNat_place_inj (probed_lt hprobed) hf.assigned.place hindex
      exact hf.assigned.address hbase
    exact ⟨hnone, (hreported.nothing hnone).2⟩
  · rintro ⟨hnone, hsize⟩
    exact ⟨fun i k hi _ => absurd hi.assigned (hnone i), fun _ => ⟨hbase, hsize⟩⟩

end Report

/-- What is reported is what is decoded exactly if the place probed has an address and a region
of less than 4 GiB, or nothing is assigned and the place probed has no low bits to write. -/
theorem region_reported_iff (hw : PciHardware) (c : ConfigSpace) (bus slot func : BitVec 8)
    (h : BarLayout hw (pciReadDevice c bus slot func)) :
    Reported hw (pciReadDevice c bus slot func)
        (hw.pciGetDeviceMMIORegion (pciReadDevice c bus slot func) { space := c }).1 ↔
      ∀ j, (pciReadDevice c bus slot func).probed = some j →
        ((pciReadDevice c bus slot func).base j ≠ NULL ∧
            HasLowBits hw (pciReadDevice c bus slot func) j) ∨
          ((∀ i, ¬ (pciReadDevice c bus slot func).Assigned i) ∧
            ¬ HasLowBits hw (pciReadDevice c bus slot func) j) := by
  cases hprobed : (pciReadDevice c bus slot func).probed with
  | none =>
      have hnone := MmioDevice.not_assigned_of_none hprobed
      rw [region_of_none hprobed]
      refine iff_of_true ⟨fun i _ hi _ => absurd hi.assigned (hnone i), fun _ => ⟨rfl, rfl⟩⟩
        (fun j hj => nomatch hj)
  | some j =>
      obtain ⟨hnot, hj, hbefore⟩ := MmioDevice.probed_eq_some_iff.mp hprobed
      have hmemory : (pciReadDevice c bus slot func).IsMemory j := not_not.mp (not_or.mp hnot).2
      have hstart := MmioDevice.barStart_of_skipped hbefore
      obtain ⟨reads, _, heq⟩ := region_of_probed hprobed
      rw [heq, probeAt_eq hj (fun hwide => h.fits j hj hstart ⟨hmemory, hwide⟩)]
      simp only [Option.some.injEq, forall_eq']
      by_cases hbase : (pciReadDevice c bus slot func).base j = NULL
      · have hleft : ¬ ((pciReadDevice c bus slot func).base j ≠ NULL ∧
            HasLowBits hw (pciReadDevice c bus slot func) j) := fun hboth => hboth.1 hbase
        rw [reported_of_no_base h hprobed hbase, or_iff_right hleft]
      · rw [reported_of_base h hprobed hbase]
        constructor
        · exact fun hlow => Or.inl ⟨hbase, hlow⟩
        · rintro (⟨_, hlow⟩ | ⟨hnone, _⟩)
          · exact hlow
          · exact absurd ⟨hj, hstart, hmemory, hbase⟩ (hnone j)

namespace Sample

/-- A network card with 128 KiB of registers and some ports. -/
def card : ConfigSpace := fun address =>
  if address = 0x80000000#32 then 0x100E8086#32
  else if address = 0x80000010#32 then 0xFEB80000#32
  else if address = 0x80000014#32 then 0x0000C001#32
  else 0#32

def cardHardware : PciHardware where
  writable := fun address =>
    if address = 0x80000010#32 then 0xFFFE0000#32
    else if address = 0x80000014#32 then 0x0000FFC0#32
    else 0#32
  behind := 0#32

/-- A display adapter with 4 GiB of memory above the first 32 GiB. -/
def display : ConfigSpace := fun address =>
  if address = 0x80000000#32 then 0x67DF1002#32
  else if address = 0x80000010#32 then 0x0000000C#32
  else if address = 0x80000014#32 then 0x00000008#32
  else 0#32

def displayHardware : PciHardware where
  writable := fun address => if address = 0x80000014#32 then 0xFFFFFFFF#32 else 0#32
  behind := 0#32

/-- The first place has the only region that matters. -/
theorem barLayout_of_first {hw : PciHardware} {dev : MmioDevice} {k : Nat}
    (hprobed : dev.probed = some 0) (hbase : dev.base 0 ≠ NULL) (hlast : ¬ Wide (dev.low 5))
    (hk : Decodes hw dev 0 k) : BarLayout hw dev where
  fits := by
    intro i hi _ hwide
    by_contra hend
    obtain rfl : i = 5 := by omega
    exact hlast hwide.2
  decodes := by
    intro i hi
    obtain rfl := (MmioDevice.firstAssigned_iff hprobed hbase).mp hi
    exact ⟨k, hk⟩

theorem card_layout : BarLayout cardHardware (pciReadDevice card 0 0 0) :=
  barLayout_of_first (k := 17) (by decide +kernel) (by decide +kernel) (by decide +kernel)
    ⟨by decide, by decide +kernel, by decide +kernel⟩

theorem display_decodes : Decodes displayHardware (pciReadDevice display 0 0 0) 0 32 :=
  ⟨by decide, by decide +kernel, by decide +kernel⟩

theorem display_layout : BarLayout displayHardware (pciReadDevice display 0 0 0) :=
  barLayout_of_first (by decide +kernel) (by decide +kernel) (by decide +kernel) display_decodes

end Sample

open Sample in
theorem region_reported_iff_card :
    Reported cardHardware (pciReadDevice card 0 0 0)
      (cardHardware.pciGetDeviceMMIORegion (pciReadDevice card 0 0 0) { space := card }).1 := by
  refine (region_reported_iff cardHardware card 0 0 0 card_layout).mpr (fun j hj => Or.inl ?_)
  have hprobed : (pciReadDevice card 0 0 0).probed = some 0 := by decide +kernel
  obtain rfl := Option.some.inj (hprobed.symm.trans hj)
  have hlow : writableAt cardHardware (pciReadDevice card 0 0 0) 0 &&& ~~~0xF#32 ≠ 0#32 := by
    decide +kernel
  exact ⟨by decide +kernel, hlow⟩

open Sample in
/-- A size of 4 GiB does not fit into `MMIOSize`. -/
theorem display_not_reported :
    BarLayout displayHardware (pciReadDevice display 0 0 0) ∧
      ¬ Reported displayHardware (pciReadDevice display 0 0 0)
        (displayHardware.pciGetDeviceMMIORegion (pciReadDevice display 0 0 0)
          { space := display }).1 := by
  refine ⟨display_layout, fun hreported => ?_⟩
  have hfirst : (pciReadDevice display 0 0 0).FirstAssigned 0 :=
    (MmioDevice.firstAssigned_iff (by decide +kernel) (by decide +kernel)).mpr rfl
  obtain ⟨_, _, _, hsize, _⟩ := hreported.region 0 32 hfirst display_decodes
  exact absurd hsize (Nat.ne_of_lt (BitVec.isLt _))

end Asnu
