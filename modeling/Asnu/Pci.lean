import Asnu.Lib.Search

/-!
The PCI driver: what it reads of the configuration space, its two searches, and
the listing of what is attached. A device answers a read the same way each time.
That the listing probes the base address registers of what it finds is left out
here, and so is what it prints about vendors.
-/

namespace Asnu

open Lib

/-- The answer of the data port for each value of the address port. -/
abbrev ConfigSpace := BitVec 32 → BitVec 32

section Reads

variable (c : ConfigSpace) (bus slot func offset : BitVec 8)

def configAddress : BitVec 32 :=
  (bus.setWidth 32 <<< 16) ||| (slot.setWidth 32 <<< 11) ||| (func.setWidth 32 <<< 8) |||
    (offset &&& 0xFC#8).setWidth 32 ||| 0x80000000#32

def pciConfigReadByte : BitVec 8 :=
  let tmp := c (configAddress bus slot func offset)
  ((tmp >>> ((offset &&& 3#8).toNat * 8)) &&& 0xFF#32).setWidth 8

/-- The word at `offset & ~1`. -/
def pciConfigReadWord : BitVec 16 :=
  let tmp := c (configAddress bus slot func offset)
  ((tmp >>> ((offset &&& 2#8).toNat * 8)) &&& 0xFFFF#32).setWidth 16

def pciConfigReadDword : BitVec 32 := c (configAddress bus slot func offset)

end Reads

/-- `PciDevice_t` without the fields of the memory-mapped region. -/
structure PciDevice where
  bus : BitVec 8 := 0
  slot : BitVec 8 := 0
  function : BitVec 8 := 0
  vendorId : BitVec 16 := 0
  deviceId : BitVec 16 := 0
  command : BitVec 16 := 0
  status : BitVec 16 := 0
  revisionId : BitVec 8 := 0
  progIf : BitVec 8 := 0
  subclass : BitVec 8 := 0
  classCode : BitVec 8 := 0
  classType : BitVec 32 := 0
  cacheLineSize : BitVec 8 := 0
  latencyTimer : BitVec 8 := 0
  headerTypeRaw : BitVec 8 := 0
  headerType : BitVec 32 := 0
  bist : BitVec 8 := 0
  bar : List (BitVec 32) := List.replicate 6 0
  cardbusCisPointer : BitVec 32 := 0
  subsystemVendorId : BitVec 16 := 0
  subsystemId : BitVec 16 := 0
  expansionRomBaseAddr : BitVec 32 := 0
  capabilitiesPointer : BitVec 8 := 0
  interruptLine : BitVec 8 := 0
  interruptPin : BitVec 8 := 0
  minGrant : BitVec 8 := 0
  maxLatency : BitVec 8 := 0
  deriving DecidableEq

def pciDeviceNone : PciDevice := { vendorId := 0xFFFF#16 }

def pciReadFullDevice (c : ConfigSpace) (bus slot func : BitVec 8) : PciDevice :=
  let byte := pciConfigReadByte c bus slot func
  let word := pciConfigReadWord c bus slot func
  let dword := pciConfigReadDword c bus slot func
  { bus := bus
    slot := slot
    function := func
    vendorId := word 0x00
    deviceId := word 0x02
    command := word 0x04
    status := word 0x06
    revisionId := byte 0x08
    progIf := byte 0x09
    subclass := byte 0x0A
    classCode := byte 0x0B
    classType := (byte 0x0B).setWidth 32
    cacheLineSize := byte 0x0C
    latencyTimer := byte 0x0D
    headerTypeRaw := byte 0x0E
    headerType := (byte 0x0E &&& 0x7F#8).setWidth 32
    bist := byte 0x0F
    bar := (List.range 6).map (fun i => dword (BitVec.ofNat 8 (0x10 + i * 4)))
    cardbusCisPointer := dword 0x28
    subsystemVendorId := word 0x2C
    subsystemId := word 0x2E
    expansionRomBaseAddr := dword 0x30
    capabilitiesPointer := byte 0x34
    interruptLine := byte 0x3C
    interruptPin := byte 0x3D
    minGrant := byte 0x3E
    maxLatency := byte 0x3F }

/-- The numbers that a loop of `uint8_t` from 0 to `n` runs through. -/
def counted (n : Nat) : List (BitVec 8) := (List.range n).map (BitVec.ofNat 8)

/-- The function answers with no vendor. -/
def Absent (c : ConfigSpace) (bus slot func : BitVec 8) : Prop :=
  pciConfigReadWord c bus slot func 0x00 = 0xFFFF#16

instance (c : ConfigSpace) (bus slot func : BitVec 8) : Decidable (Absent c bus slot func) :=
  inferInstanceAs (Decidable (_ = _))

section Search

variable (c : ConfigSpace) (hit : BitVec 8 → BitVec 8 → BitVec 8 → Bool)

/-- The innermost loop of both searches: absent functions are skipped, and function
0 ends the loop if it is there and no hit. -/
def findFunction (bus slot : BitVec 8) : List (BitVec 8) → Option PciDevice
  | [] => none
  | func :: funcs =>
      if Absent c bus slot func then findFunction bus slot funcs
      else if hit bus slot func then some (pciReadFullDevice c bus slot func)
      else if func = 0 then none
      else findFunction bus slot funcs

/-- The outer loops for the first `n` rounds. The bus is a `uint8_t` and below 256
in every round, so the loop ends with a hit only and then starts over at bus 0. -/
def findFrom : Nat → BitVec 8 → Option PciDevice
  | 0, _ => none
  | n + 1, bus =>
      match (counted 32).findSome? (fun slot => findFunction c hit bus slot (counted 8)) with
      | some dev => some dev
      | none => findFrom n (bus + 1)

/-- What `PciFindDeviceByID` has returned after `n` buses. -/
def pciFindDeviceByID (vendor device : BitVec 16) (n : Nat) : Option PciDevice :=
  findFrom c (fun bus slot func =>
    pciConfigReadWord c bus slot func 0x00 == vendor &&
      pciConfigReadWord c bus slot func 0x02 == device) n 0

def pciFindDeviceByClass (classCode subclass : BitVec 8) (n : Nat) : Option PciDevice :=
  findFrom c (fun bus slot func =>
    pciConfigReadByte c bus slot func 0x0B == classCode &&
      (subclass == 0xFF#8 || pciConfigReadByte c bus slot func 0x0A == subclass)) n 0

end Search

/-- The devices that the listing logs in a slot. -/
def listFunctions (c : ConfigSpace) (bus slot : BitVec 8) : List (BitVec 8) → List PciDevice
  | [] => []
  | func :: funcs =>
      if Absent c bus slot func then listFunctions c bus slot funcs
      else
        let dev := pciReadFullDevice c bus slot func
        if func = 0 ∧ dev.headerTypeRaw &&& 0x80#8 = 0 then [dev]
        else dev :: listFunctions c bus slot funcs

def pciListDevicesAttached (c : ConfigSpace) : List PciDevice :=
  (counted 8).flatMap (fun bus =>
    (counted 32).flatMap (fun slot => listFunctions c bus slot (counted 8)))

/-- The searches look at this function: it is the first of its slot, or the first is
absent. -/
def Reached (c : ConfigSpace) (dev : PciDevice) : Prop :=
  dev.function = 0 ∨ Absent c dev.bus dev.slot 0

instance (c : ConfigSpace) (dev : PciDevice) : Decidable (Reached c dev) :=
  inferInstanceAs (Decidable (_ ∨ _))

/-- The devices that the searches look at in a slot if none is a hit. -/
def examined (c : ConfigSpace) (bus slot : BitVec 8) : List (BitVec 8) → List PciDevice
  | [] => []
  | func :: funcs =>
      if Absent c bus slot func then examined c bus slot funcs
      else if func = 0 then [pciReadFullDevice c bus slot func]
      else pciReadFullDevice c bus slot func :: examined c bus slot funcs

section Slot

variable (c : ConfigSpace) (bus slot : BitVec 8)

theorem findFunction_eq {hit : BitVec 8 → BitVec 8 → BitVec 8 → Bool} {p : PciDevice → Bool}
    (hhit : ∀ bus slot func, hit bus slot func = p (pciReadFullDevice c bus slot func))
    (funcs : List (BitVec 8)) :
    findFunction c hit bus slot funcs = (examined c bus slot funcs).find? p := by
  induction funcs with
  | nil => rfl
  | cons func funcs ih =>
      rw [findFunction, examined, hhit]
      by_cases habsent : Absent c bus slot func
      · rw [if_pos habsent, if_pos habsent, ih]
      · rw [if_neg habsent, if_neg habsent]
        by_cases hp : p (pciReadFullDevice c bus slot func) = true
        · rw [if_pos hp]
          split <;> rw [List.find?_cons_of_pos hp]
        · rw [if_neg hp]
          split
          · rw [List.find?_cons_of_neg hp, List.find?_nil]
          · rw [List.find?_cons_of_neg hp, ih]

theorem mem_listFunctions {funcs : List (BitVec 8)} {dev : PciDevice}
    (h : dev ∈ listFunctions c bus slot funcs) :
    ∃ func ∈ funcs, dev = pciReadFullDevice c bus slot func := by
  induction funcs with
  | nil => simp [listFunctions] at h
  | cons func funcs ih =>
      rw [listFunctions] at h
      split at h
      · obtain ⟨f, hf, hdev⟩ := ih h
        exact ⟨f, List.mem_cons_of_mem _ hf, hdev⟩
      · dsimp only at h
        split at h
        · exact ⟨func, List.mem_cons_self, List.mem_singleton.mp h⟩
        · rcases List.mem_cons.mp h with hdev | hrest
          · exact ⟨func, List.mem_cons_self, hdev⟩
          · obtain ⟨f, hf, hdev⟩ := ih hrest
            exact ⟨f, List.mem_cons_of_mem _ hf, hdev⟩

/-- Behind function 0 both loops look at every function. -/
theorem examined_of_no_zero {funcs : List (BitVec 8)} (hfuncs : 0 ∉ funcs) :
    examined c bus slot funcs = listFunctions c bus slot funcs := by
  induction funcs with
  | nil => rfl
  | cons func funcs ih =>
      rw [List.mem_cons, not_or] at hfuncs
      obtain ⟨hfunc, hrest⟩ := hfuncs
      rw [examined, listFunctions, ih hrest]
      by_cases habsent : Absent c bus slot func
      · rw [if_pos habsent, if_pos habsent]
      · rw [if_neg habsent, if_neg habsent, if_neg (Ne.symm hfunc)]
        dsimp only
        rw [if_neg (fun hall => hfunc hall.1.symm)]

/-- Of what the listing logs in a slot, the searches look at function 0, or at
everything if function 0 is absent. -/
theorem examined_eq_filter {funcs : List (BitVec 8)} (hfuncs : 0 ∉ funcs) :
    examined c bus slot (0 :: funcs) =
      (listFunctions c bus slot (0 :: funcs)).filter (Reached c) := by
  have htail := examined_of_no_zero c bus slot hfuncs
  rw [examined, listFunctions]
  by_cases habsent : Absent c bus slot 0
  · rw [if_pos habsent, if_pos habsent, htail]
    refine (List.filter_eq_self.mpr (fun dev hdev => ?_)).symm
    obtain ⟨func, _, rfl⟩ := mem_listFunctions c bus slot hdev
    exact decide_eq_true (Or.inr habsent)
  · have hfirst : decide (Reached c (pciReadFullDevice c bus slot 0)) = true :=
      decide_eq_true (Or.inl rfl)
    have hothers : (listFunctions c bus slot funcs).filter (Reached c) = [] := by
      refine List.filter_eq_nil_iff.mpr (fun dev hdev => ?_)
      obtain ⟨func, hfunc, rfl⟩ := mem_listFunctions c bus slot hdev
      have hne : func ≠ 0 := fun heq => hfuncs (heq ▸ hfunc)
      intro hreached
      rcases of_decide_eq_true hreached with hzero | hgone
      · exact hne hzero
      · exact habsent hgone
    rw [if_neg habsent, if_neg habsent, if_pos rfl]
    dsimp only
    split
    · rw [List.filter_cons, if_pos hfirst, List.filter_nil]
    · rw [List.filter_cons, if_pos hfirst, hothers]

end Slot

/-- The devices that the searches look at on a bus. -/
def examinedOn (c : ConfigSpace) (bus : BitVec 8) : List PciDevice :=
  (counted 32).flatMap (fun slot => examined c bus slot (counted 8))

/-- The buses of the first `n` rounds. -/
def busesFrom : Nat → BitVec 8 → List (BitVec 8)
  | 0, _ => []
  | n + 1, bus => bus :: busesFrom n (bus + 1)

section Agreement

variable {c : ConfigSpace} {hit : BitVec 8 → BitVec 8 → BitVec 8 → Bool} {p : PciDevice → Bool}
  (hhit : ∀ bus slot func, hit bus slot func = p (pciReadFullDevice c bus slot func))
include hhit

theorem findFrom_eq (n : Nat) (bus : BitVec 8) :
    findFrom c hit n bus = ((busesFrom n bus).flatMap (examinedOn c)).find? p := by
  induction n generalizing bus with
  | zero => rfl
  | succ n ih =>
      have hbus : (counted 32).findSome? (fun slot => findFunction c hit bus slot (counted 8)) =
          (examinedOn c bus).find? p := by
        rw [examinedOn, List.find?_flatMap]
        simp only [findFunction_eq c bus _ hhit]
      rw [findFrom, busesFrom, List.flatMap_cons, List.find?_append, hbus, ih]
      cases (examinedOn c bus).find? p <;> rfl

omit hhit in
theorem examinedOn_eq_filter (bus : BitVec 8) :
    examinedOn c bus =
      ((counted 32).flatMap (fun slot => listFunctions c bus slot (counted 8))).filter
        (Reached c) := by
  have hfuncs : counted 8 = 0 :: (counted 8).tail := rfl
  rw [examinedOn, List.filter_flatMap, hfuncs]
  simp only [examined_eq_filter c bus _ (show 0 ∉ (counted 8).tail by decide)]

/-- On the buses that the listing knows the searches look at part of what it logs. -/
theorem findFrom_listed :
    findFrom c hit 8 0 = ((pciListDevicesAttached c).filter (Reached c)).find? p := by
  have hbuses : busesFrom 8 0 = counted 8 := by decide
  rw [findFrom_eq hhit, pciListDevicesAttached, List.filter_flatMap, hbuses,
    funext (examinedOn_eq_filter (c := c))]

/-- What a search returns is a hit that the searches look at. -/
theorem findFrom_sound {n : Nat} {bus : BitVec 8} {dev : PciDevice}
    (h : findFrom c hit n bus = some dev) :
    p dev = true ∧ Reached c dev ∧
      dev = pciReadFullDevice c dev.bus dev.slot dev.function := by
  rw [findFrom_eq hhit] at h
  obtain ⟨b, _, hdev⟩ := List.mem_flatMap.mp (List.mem_of_find?_eq_some h)
  rw [examinedOn_eq_filter] at hdev
  obtain ⟨hlisted, hreached⟩ := List.mem_filter.mp hdev
  obtain ⟨slot, _, hslot⟩ := List.mem_flatMap.mp hlisted
  obtain ⟨func, _, rfl⟩ := mem_listFunctions c b slot hslot
  exact ⟨List.find?_some h, of_decide_eq_true hreached, rfl⟩

/-- The first hit that is logged is what the search returns, exactly if it looks at it. -/
theorem findFrom_first_iff {dev : PciDevice}
    (hfirst : (pciListDevicesAttached c).find? p = some dev) :
    (∃ n, findFrom c hit n 0 = some dev) ↔ Reached c dev := by
  constructor
  · rintro ⟨n, hfound⟩
    exact (findFrom_sound hhit hfound).2.1
  · intro hreached
    refine ⟨8, ?_⟩
    rw [findFrom_listed hhit]
    exact find?_filter_of_find? hfirst (decide_eq_true hreached)

end Agreement

/-- The ids that `PciFindDeviceByID` is asked for. -/
def PciDevice.hasIds (vendor device : BitVec 16) (dev : PciDevice) : Bool :=
  dev.vendorId == vendor && dev.deviceId == device

/-- The class that `PciFindDeviceByClass` is asked for. -/
def PciDevice.hasClass (classCode subclass : BitVec 8) (dev : PciDevice) : Bool :=
  dev.classCode == classCode && (subclass == 0xFF#8 || dev.subclass == subclass)

/-- The searches return what the listing logs first, exactly when that is function 0 or
function 0 of its slot is absent. Whatever they return has what was asked for at the
place it says. -/
theorem pci_search_agrees_iff (c : ConfigSpace) :
    (∀ vendor device, (∀ dev,
        (pciListDevicesAttached c).find? (PciDevice.hasIds vendor device) = some dev →
          ((∃ n, pciFindDeviceByID c vendor device n = some dev) ↔
            dev.function = 0 ∨ Absent c dev.bus dev.slot 0)) ∧
      ∀ n dev, pciFindDeviceByID c vendor device n = some dev →
        pciConfigReadWord c dev.bus dev.slot dev.function 0x00 = vendor ∧
          pciConfigReadWord c dev.bus dev.slot dev.function 0x02 = device) ∧
    (∀ classCode subclass, (∀ dev,
        (pciListDevicesAttached c).find? (PciDevice.hasClass classCode subclass) = some dev →
          ((∃ n, pciFindDeviceByClass c classCode subclass n = some dev) ↔
            dev.function = 0 ∨ Absent c dev.bus dev.slot 0)) ∧
      ∀ n dev, pciFindDeviceByClass c classCode subclass n = some dev →
        pciConfigReadByte c dev.bus dev.slot dev.function 0x0B = classCode ∧
          (subclass = 0xFF#8 ∨
            pciConfigReadByte c dev.bus dev.slot dev.function 0x0A = subclass)) := by
  refine ⟨fun vendor device => ⟨fun dev hfirst => ?_, fun n dev hfound => ?_⟩,
    fun classCode subclass => ⟨fun dev hfirst => ?_, fun n dev hfound => ?_⟩⟩
  · exact findFrom_first_iff (fun _ _ _ => rfl) hfirst
  · obtain ⟨hids, _, hread⟩ :=
      findFrom_sound (p := PciDevice.hasIds vendor device) (fun _ _ _ => rfl) hfound
    rw [hread] at hids
    simpa [PciDevice.hasIds, pciReadFullDevice] using hids
  · exact findFrom_first_iff (fun _ _ _ => rfl) hfirst
  · obtain ⟨hclass, _, hread⟩ :=
      findFrom_sound (p := PciDevice.hasClass classCode subclass) (fun _ _ _ => rfl) hfound
    rw [hread] at hclass
    simpa [PciDevice.hasClass, pciReadFullDevice] using hclass

namespace Sample

/-- One device with two functions. -/
def twoFunctions : ConfigSpace := fun address =>
  if address = 0x80000000#32 then 0x71108086#32
  else if address = 0x8000000C#32 then 0x00800000#32
  else if address = 0x80000100#32 then 0x71118086#32
  else 0xFFFFFFFF#32

end Sample

open Sample in
/-- The second function is the first with its ids that is listed, and the search never
returns it: it looks at the first function and goes on to the next slot. -/
theorem second_function_not_found :
    ∃ dev, (pciListDevicesAttached twoFunctions).find? (PciDevice.hasIds 0x8086#16 0x7111#16) =
        some dev ∧ dev.function = 1 ∧
      ∀ n, pciFindDeviceByID twoFunctions 0x8086#16 0x7111#16 n ≠ some dev := by
  have hfirst : (pciListDevicesAttached twoFunctions).find?
      (PciDevice.hasIds 0x8086#16 0x7111#16) = some (pciReadFullDevice twoFunctions 0 0 1) := by
    decide +kernel
  have hiff : (∃ n, pciFindDeviceByID twoFunctions 0x8086#16 0x7111#16 n =
      some (pciReadFullDevice twoFunctions 0 0 1)) ↔
      Reached twoFunctions (pciReadFullDevice twoFunctions 0 0 1) :=
    findFrom_first_iff (fun _ _ _ => rfl) hfirst
  refine ⟨_, hfirst, rfl, fun n hfound => ?_⟩
  exact absurd (hiff.mp ⟨n, hfound⟩) (by decide +kernel)

end Asnu
