import Asnu.CString
import Asnu.Lib.Register
import Asnu.Pci

/-!
The probing of base address registers. `PciGetDeviceMMIORegion` takes the six words
from 0x10 on for such registers whatever the header says, and the first of them that
is not zero and not of I/O for the region. Configuration registers keep what is
written in their writable bits.
-/

namespace Asnu

open Lib

/-- `PciDevice_t` with the fields of the memory-mapped region. -/
structure MmioDevice extends PciDevice where
  mmioBase : Ptr := NULL
  mmioSize : BitVec 32 := 0
  mmioBarIndex : BitVec 8 := 0
  is64BitPciDevice : Bool := false
  deriving DecidableEq

/-- The record that `PciReadFullDevice` returns. -/
def pciReadDevice (c : ConfigSpace) (bus slot func : BitVec 8) : MmioDevice :=
  { toPciDevice := pciReadFullDevice c bus slot func }

structure PciProbe where
  space : ConfigSpace
  /-- The addresses written, newest first. -/
  writes : List (BitVec 32) := []
  /-- The places of `dev->bar` that have been read. -/
  barReads : List Nat := []

/-- `0x10 + i * 4`. -/
def barOffset (i : Nat) : BitVec 8 := BitVec.ofNat 8 (0x10 + i * 4)

/-- What the configuration space is like: `writable` has the writable bits of its registers,
and `behind` is what a read of `dev->bar` past its end gives. -/
structure PciHardware where
  writable : ConfigSpace
  behind : BitVec 32

namespace PciHardware

variable (hw : PciHardware)

def pciConfigWriteDword (s : PciProbe) (bus slot func offset : BitVec 8) (value : BitVec 32) :
    PciProbe :=
  let address := configAddress bus slot func offset
  { s with
    space := writeRegister hw.writable s.space address value
    writes := address :: s.writes }

section Probe

variable (dev : MmioDevice)

/-- `dev->bar[i]`. -/
def bar (i : Nat) : BitVec 32 := dev.bar.getD i hw.behind

/-- A write to the register at place `i`. -/
def writeBar (s : PciProbe) (i : Nat) (value : BitVec 32) : PciProbe :=
  hw.pciConfigWriteDword s dev.bus dev.slot dev.function (barOffset i) value

def readBar (s : PciProbe) (i : Nat) : BitVec 32 :=
  pciConfigReadDword s.space dev.bus dev.slot dev.function (barOffset i)

/-- The branch for a 64-bit register. -/
def probe64 (i : Nat) (s : PciProbe) : MmioDevice × PciProbe :=
  let low := hw.bar dev i
  let baseLow := low &&& ~~~0xF#32
  let high := hw.bar dev (i + 1)
  let s := { s with barReads := (i + 1) :: s.barReads }
  let fullBase := (high.setWidth 64 <<< 32) ||| baseLow.setWidth 64
  let s := hw.writeBar dev s i 0xFFFFFFFF#32
  let s := hw.writeBar dev s (i + 1) 0xFFFFFFFF#32
  let sizeLow := readBar dev s i
  let sizeHigh := readBar dev s (i + 1)
  let s := hw.writeBar dev s i low
  let s := hw.writeBar dev s (i + 1) high
  let sizeMask := (sizeHigh.setWidth 64 <<< 32) ||| (sizeLow &&& ~~~0xF#32).setWidth 64
  ({ dev with
      mmioBase := fullBase
      mmioSize := (~~~sizeMask + 1#64).setWidth 32
      mmioBarIndex := BitVec.ofNat 8 i
      is64BitPciDevice := true }, s)

def probe32 (i : Nat) (s : PciProbe) : MmioDevice × PciProbe :=
  let low := hw.bar dev i
  let baseLow := low &&& ~~~0xF#32
  let s := hw.writeBar dev s i 0xFFFFFFFF#32
  let sizeMask := readBar dev s i
  let s := hw.writeBar dev s i low
  ({ dev with
      mmioBase := baseLow.setWidth 64
      mmioSize := ~~~(sizeMask &&& ~~~0xF#32) + 1#32
      mmioBarIndex := BitVec.ofNat 8 i
      is64BitPciDevice := false }, s)

/-- The loop over the places that are left. -/
def probeLoop : List Nat → PciProbe → MmioDevice × PciProbe
  | [], s =>
      ({ dev with
          mmioBase := NULL
          mmioSize := 0#32
          mmioBarIndex := 0xFF#8
          is64BitPciDevice := false }, s)
  | i :: is, s =>
      let low := hw.bar dev i
      let s := { s with barReads := i :: s.barReads }
      if low = 0#32 ∨ low &&& 0x1#32 ≠ 0#32 then probeLoop is s
      else if low &&& 0x6#32 = 0x4#32 then hw.probe64 dev i s
      else hw.probe32 dev i s

def pciGetDeviceMMIORegion (s : PciProbe) : MmioDevice × PciProbe :=
  hw.probeLoop dev (List.range 6) s

end Probe

end PciHardware

/-- The places that the loop passes over. -/
def Skipped (low : BitVec 32) : Prop := low = 0#32 ∨ low &&& 0x1#32 ≠ 0#32

instance (low : BitVec 32) : Decidable (Skipped low) := inferInstanceAs (Decidable (_ ∨ _))

/-- The type bits say that the register goes on in the next. -/
def Wide (low : BitVec 32) : Prop := low &&& 0x6#32 = 0x4#32

instance (low : BitVec 32) : Decidable (Wide low) := inferInstanceAs (Decidable (_ = _))

/-- The first place that the loop does not pass over. -/
def MmioDevice.probed (dev : MmioDevice) : Option Nat :=
  (List.range 6).find? (fun i => ¬ Skipped (dev.bar.getD i 0))

/-- How many base address registers a header of this type has. -/
def baseRegisters (headerType : BitVec 32) : Nat :=
  if headerType = 0#32 then 6
  else if headerType = 1#32 then 2
  else if headerType = 2#32 then 1
  else 0

/-- The last register that the size is read from if place `i` is probed. -/
def MmioDevice.lastRegister (dev : MmioDevice) (i : Nat) : Nat :=
  if Wide (dev.bar.getD i 0) then i + 1 else i

/-- The probing has read inside `dev->bar`, has written base address registers only, and has
left the configuration space as it was. -/
structure Undisturbed (c : ConfigSpace) (dev : MmioDevice) (s : PciProbe) : Prop where
  reads : ∀ i ∈ s.barReads, i < 6
  writes : ∀ a ∈ s.writes, ∃ i < baseRegisters dev.headerType,
    a = configAddress dev.bus dev.slot dev.function (barOffset i)
  space : s.space = c

theorem configAddress_low (bus slot func offset : BitVec 8) :
    (configAddress bus slot func offset).setWidth 8 = offset &&& 0xFC#8 := by
  ext i hi
  simp [configAddress]

theorem configAddress_barOffset_inj {bus slot func : BitVec 8} {i j : Nat} (hi : i < 7)
    (hj : j < 7)
    (h : configAddress bus slot func (barOffset i) = configAddress bus slot func (barOffset j)) :
    i = j := by
  have hlow := congrArg (BitVec.setWidth 8) h
  rw [configAddress_low, configAddress_low] at hlow
  have hall : ∀ i < 7, ∀ j < 7, barOffset i &&& 0xFC#8 = barOffset j &&& 0xFC#8 → i = j := by
    decide
  exact hall i hi j hj hlow

theorem baseRegisters_le (headerType : BitVec 32) : baseRegisters headerType ≤ 6 := by
  unfold baseRegisters
  split_ifs
  · exact Nat.le_refl _
  · decide
  · decide
  · decide

section Loop

variable (hw : PciHardware) (dev : MmioDevice) (s : PciProbe)

/-- The probe of place `i`. -/
def PciHardware.probeAt (i : Nat) : MmioDevice × PciProbe :=
  if Wide (hw.bar dev i) then hw.probe64 dev i s else hw.probe32 dev i s

/-- What is returned if nothing is probed. -/
def MmioDevice.withoutRegion (dev : MmioDevice) : MmioDevice :=
  { dev with
    mmioBase := NULL
    mmioSize := 0#32
    mmioBarIndex := 0xFF#8
    is64BitPciDevice := false }

theorem probeLoop_cons (i : Nat) (is : List Nat) :
    hw.probeLoop dev (i :: is) s =
      if Skipped (hw.bar dev i) then hw.probeLoop dev is { s with barReads := i :: s.barReads }
      else hw.probeAt dev { s with barReads := i :: s.barReads } i := rfl

theorem probeLoop_none {is : List Nat} (h : ∀ i ∈ is, Skipped (hw.bar dev i)) :
    hw.probeLoop dev is s =
      (dev.withoutRegion, { s with barReads := is.reverse ++ s.barReads }) := by
  induction is generalizing s with
  | nil => rfl
  | cons i is ih =>
      have hskip : Skipped (hw.bar dev i) := h i List.mem_cons_self
      rw [probeLoop_cons, if_pos hskip, ih _ (fun j hj => h j (List.mem_cons_of_mem _ hj)),
        List.reverse_cons, List.append_assoc]
      rfl

theorem probeLoop_some {is : List Nat} {j : Nat}
    (h : is.find? (fun i => ¬ Skipped (hw.bar dev i)) = some j) :
    ∃ reads, (∀ i ∈ reads, i ∈ is) ∧
      hw.probeLoop dev is s = hw.probeAt dev { s with barReads := reads ++ s.barReads } j := by
  induction is generalizing s with
  | nil => cases h
  | cons i is ih =>
      rw [probeLoop_cons]
      by_cases hskip : Skipped (hw.bar dev i)
      · rw [List.find?_cons_of_neg (by simpa using hskip)] at h
        obtain ⟨reads, hreads, heq⟩ := ih { s with barReads := i :: s.barReads } h
        refine ⟨reads ++ [i], fun k hk => ?_, ?_⟩
        · rcases List.mem_append.mp hk with hk | hk
          · exact List.mem_cons_of_mem _ (hreads k hk)
          · exact List.mem_singleton.mp hk ▸ List.mem_cons_self
        · rw [if_pos hskip, heq, List.append_assoc]
          rfl
      · rw [List.find?_cons_of_pos (by simpa using hskip)] at h
        obtain rfl := Option.some.inj h
        refine ⟨[i], fun k hk => List.mem_singleton.mp hk ▸ List.mem_cons_self, ?_⟩
        rw [if_neg hskip]
        rfl

end Loop

section Read

variable {hw : PciHardware} {c : ConfigSpace} {bus slot func : BitVec 8} {s : PciProbe}

/-- The record holds the registers. -/
theorem bar_pciReadDevice {i : Nat} (hi : i < 6) (d : BitVec 32) :
    (pciReadDevice c bus slot func).bar.getD i d =
      c (configAddress bus slot func (barOffset i)) := by
  have hlength : i < ((List.range 6).map (fun i =>
      pciConfigReadDword c bus slot func (BitVec.ofNat 8 (0x10 + i * 4)))).length := by
    rwa [List.length_map, List.length_range]
  change ((List.range 6).map (fun i =>
    pciConfigReadDword c bus slot func (BitVec.ofNat 8 (0x10 + i * 4)))).getD i d = _
  rw [List.getD_eq_getElem _ _ hlength, List.getElem_map, List.getElem_range]
  rfl

theorem find_probed (hw : PciHardware) :
    (List.range 6).find? (fun i => ¬ Skipped (hw.bar (pciReadDevice c bus slot func) i)) =
      (pciReadDevice c bus slot func).probed := by
  refine List.find?_congr (fun i hi => ?_)
  have hlt := List.mem_range.mp hi
  rw [PciHardware.bar, bar_pciReadDevice hlt, bar_pciReadDevice hlt]

theorem probed_lt {dev : MmioDevice} {j : Nat} (h : dev.probed = some j) : j < 6 :=
  List.mem_range.mp (List.mem_of_find?_eq_some h)

/-- The whole function, if a place is probed. -/
theorem region_of_probed {j : Nat} (h : (pciReadDevice c bus slot func).probed = some j) :
    ∃ reads, (∀ i ∈ reads, i < 6) ∧
      hw.pciGetDeviceMMIORegion (pciReadDevice c bus slot func) { space := c } =
        hw.probeAt (pciReadDevice c bus slot func) { space := c, barReads := reads } j := by
  rw [← find_probed hw] at h
  obtain ⟨reads, hreads, heq⟩ :=
    probeLoop_some hw (pciReadDevice c bus slot func) { space := c } h
  refine ⟨reads, fun i hi => List.mem_range.mp (hreads i hi), ?_⟩
  rw [PciHardware.pciGetDeviceMMIORegion, heq, List.append_nil]

theorem region_of_none (h : (pciReadDevice c bus slot func).probed = none) :
    hw.pciGetDeviceMMIORegion (pciReadDevice c bus slot func) { space := c } =
      ((pciReadDevice c bus slot func).withoutRegion,
        { space := c, barReads := (List.range 6).reverse }) := by
  rw [← find_probed hw] at h
  refine (probeLoop_none hw _ _ (fun i hi => ?_)).trans ?_
  · have hskip := List.find?_eq_none.mp h i hi
    simpa using hskip
  · rw [List.append_nil]

/-- The address of the register at place `i`. -/
abbrev barAddress (bus slot func : BitVec 8) (i : Nat) : BitVec 32 :=
  configAddress bus slot func (barOffset i)

theorem probe32_space {j : Nat} (hj : j < 6) {reads : List Nat} :
    (hw.probe32 (pciReadDevice c bus slot func) j { space := c, barReads := reads }).2.space =
      c :=
  writeRegister_restore (bar_pciReadDevice hj hw.behind)

theorem probe64_space {j : Nat} (hj : j + 1 < 6) {reads : List Nat} :
    (hw.probe64 (pciReadDevice c bus slot func) j { space := c, barReads := reads }).2.space =
      c := by
  have hne : barAddress bus slot func j ≠ barAddress bus slot func (j + 1) := by
    intro heq
    have hsame := configAddress_barOffset_inj (by omega) (by omega) heq
    omega
  exact writeRegister_restore_two hne (bar_pciReadDevice (by omega) hw.behind)
    (bar_pciReadDevice hj hw.behind)

/-- Which of seven places a register is at. -/
theorem exists_barAddress_iff (bus slot func : BitVec 8) {j n : Nat} (hj : j < 7) (hn : n ≤ 7) :
    (∃ i < n, barAddress bus slot func j = barAddress bus slot func i) ↔ j < n := by
  constructor
  · rintro ⟨i, hi, heq⟩
    rwa [configAddress_barOffset_inj hj (by omega) heq]
  · exact fun hlt => ⟨j, hlt, rfl⟩

theorem undisturbed_probe32_iff {j : Nat} (hj : j < 6) {reads : List Nat}
    (hreads : ∀ i ∈ reads, i < 6) :
    Undisturbed c (pciReadDevice c bus slot func)
        (hw.probe32 (pciReadDevice c bus slot func) j { space := c, barReads := reads }).2 ↔
      j < baseRegisters (pciReadDevice c bus slot func).headerType := by
  have hbase := baseRegisters_le (pciReadDevice c bus slot func).headerType
  have hplace := exists_barAddress_iff bus slot func (show j < 7 by omega)
    (Nat.le_succ_of_le hbase)
  constructor
  · intro h
    exact hplace.mp (h.writes _ List.mem_cons_self)
  · intro hlt
    refine ⟨hreads, fun a ha => ?_, probe32_space hj⟩
    have hwrites : a ∈ [barAddress bus slot func j, barAddress bus slot func j] := ha
    have heq : a = barAddress bus slot func j := by simpa using hwrites
    rw [heq]
    exact hplace.mpr hlt

theorem undisturbed_probe64_iff {j : Nat} (hj : j < 6) {reads : List Nat}
    (hreads : ∀ i ∈ reads, i < 6) :
    Undisturbed c (pciReadDevice c bus slot func)
        (hw.probe64 (pciReadDevice c bus slot func) j { space := c, barReads := reads }).2 ↔
      j + 1 < baseRegisters (pciReadDevice c bus slot func).headerType := by
  have hbase := baseRegisters_le (pciReadDevice c bus slot func).headerType
  have hplace : ∀ k < 7, _ ↔ k < _ := fun k hk =>
    exists_barAddress_iff bus slot func hk (Nat.le_succ_of_le hbase)
  constructor
  · intro h
    exact (hplace (j + 1) (by omega)).mp (h.writes _ List.mem_cons_self)
  · intro hlt
    refine ⟨fun i hi => ?_, fun a ha => ?_, probe64_space (by omega)⟩
    · rcases List.mem_cons.mp hi with rfl | hold
      · omega
      · exact hreads i hold
    · have hwrites : a ∈ [barAddress bus slot func (j + 1), barAddress bus slot func j,
        barAddress bus slot func (j + 1), barAddress bus slot func j] := ha
      have heq : a = barAddress bus slot func j ∨ a = barAddress bus slot func (j + 1) := by
        simp only [List.mem_cons, List.not_mem_nil, or_false] at hwrites
        tauto
      rcases heq with rfl | rfl
      · exact (hplace j (by omega)).mpr (by omega)
      · exact (hplace (j + 1) (by omega)).mpr hlt

end Read

/-- Probing leaves the function as it was exactly if the registers it takes for the first
region are base address registers of this type of header. -/
theorem probe_undisturbed_iff (hw : PciHardware) (c : ConfigSpace) (bus slot func : BitVec 8) :
    Undisturbed c (pciReadDevice c bus slot func)
        (hw.pciGetDeviceMMIORegion (pciReadDevice c bus slot func) { space := c }).2 ↔
      ∀ j, (pciReadDevice c bus slot func).probed = some j →
        (pciReadDevice c bus slot func).lastRegister j <
          baseRegisters (pciReadDevice c bus slot func).headerType := by
  cases hprobed : (pciReadDevice c bus slot func).probed with
  | none =>
      rw [region_of_none hprobed]
      refine iff_of_true ⟨fun i hi => ?_, fun a ha => (nomatch ha), rfl⟩ (fun j hj => nomatch hj)
      exact List.mem_range.mp (List.mem_reverse.mp hi)
  | some j =>
      obtain ⟨reads, hreads, heq⟩ := region_of_probed hprobed
      have hj := probed_lt hprobed
      simp only [Option.some.injEq, forall_eq']
      rw [heq, PciHardware.probeAt, MmioDevice.lastRegister, PciHardware.bar,
        bar_pciReadDevice hj, bar_pciReadDevice hj]
      split
      · exact undisturbed_probe64_iff hj hreads
      · exact undisturbed_probe32_iff hj hreads

namespace Sample

/-- A bridge without base address registers, on bus 0 with bus 1 behind it. -/
def bridge : ConfigSpace := fun address =>
  if address = 0x80000000#32 then 0x244E8086#32
  else if address = 0x8000000C#32 then 0x00010000#32
  else if address = 0x80000018#32 then 0x00010100#32
  else 0#32

end Sample

/-- The bus numbers are overwritten, all of which can be. -/
theorem bridge_disturbed :
    ¬ Undisturbed Sample.bridge (pciReadDevice Sample.bridge 0 0 0)
      (PciHardware.pciGetDeviceMMIORegion ⟨fun _ => 0xFFFFFFFF#32, 0#32⟩
        (pciReadDevice Sample.bridge 0 0 0) { space := Sample.bridge }).2 := by
  intro h
  have hwritten := h.writes 0x80000018#32 (by decide +kernel)
  revert hwritten
  decide +kernel

end Asnu
