import Asnu.Lib.Counter
import Asnu.Pci

/-!
The searches of the PCI driver with the loops as they are written. The outer counter
is a `uint8_t` that is compared with 256, so a search that finds nothing goes round
all buses again and again.
-/

namespace Asnu

open Lib

/-- A search, with the buses that it has gone into, newest first. -/
abbrev Probing := Code (List (BitVec 8))

def probe (bus : BitVec 8) : Probing Unit := Code.access (fun buses => ((), bus :: buses))

section Loops

variable (c : ConfigSpace) (hit : BitVec 8 → BitVec 8 → BitVec 8 → Bool) (turns : Nat)

/-- The body of the innermost loop. -/
def functionTurn (bus slot func : BitVec 8) : Turn PciDevice :=
  if Absent c bus slot func then .next
  else if hit bus slot func then .ret (pciReadFullDevice c bus slot func)
  else if func = 0 then .leave
  else .next

def functionLoop (bus slot : BitVec 8) : Probing (Option PciDevice) :=
  Code.countUp 8 (fun func => pure (functionTurn c hit bus slot func)) turns 0#8

def slotLoop (bus : BitVec 8) : Probing (Option PciDevice) :=
  Code.countUp 32 (fun slot => do
    let found ← functionLoop c hit turns bus slot
    pure (.ofOption found)) turns 0#8

def busTurn (bus : BitVec 8) : Probing (Turn PciDevice) := do
  probe bus
  let found ← slotLoop c hit turns bus
  pure (.ofOption found)

def pciSearch : Probing PciDevice := do
  let found ← Code.countUp 256 (busTurn c hit turns) turns 0#8
  pure (found.getD pciDeviceNone)

end Loops

def idsAt (c : ConfigSpace) (vendor device : BitVec 16) (bus slot func : BitVec 8) : Bool :=
  pciConfigReadWord c bus slot func 0x00 == vendor &&
    pciConfigReadWord c bus slot func 0x02 == device

def classAt (c : ConfigSpace) (classCode subclass : BitVec 8) (bus slot func : BitVec 8) : Bool :=
  pciConfigReadByte c bus slot func 0x0B == classCode &&
    (subclass == 0xFF#8 || pciConfigReadByte c bus slot func 0x0A == subclass)

/-- `PciFindDeviceByID`, as far as `turns` rounds of each loop go. -/
def pciFindDeviceByIDCode (c : ConfigSpace) (vendor device : BitVec 16) (turns : Nat) :
    Probing PciDevice :=
  pciSearch c (idsAt c vendor device) turns

def pciFindDeviceByClassCode (c : ConfigSpace) (classCode subclass : BitVec 8) (turns : Nat) :
    Probing PciDevice :=
  pciSearch c (classAt c classCode subclass) turns

section Rounds

variable {c : ConfigSpace} {hit : BitVec 8 → BitVec 8 → BitVec 8 → Bool} {turns : Nat}

theorem outcome_functionTurn (bus slot : BitVec 8) (funcs : List (BitVec 8)) :
    Turn.outcome (functionTurn c hit bus slot) funcs = findFunction c hit bus slot funcs := by
  induction funcs with
  | nil => rfl
  | cons func funcs ih =>
      rw [Turn.outcome, findFunction, functionTurn, ← ih]
      by_cases habsent : Absent c bus slot func
      · rw [if_pos habsent, if_pos habsent]
      · rw [if_neg habsent, if_neg habsent]
        by_cases hhit : hit bus slot func = true
        · rw [if_pos hhit, if_pos hhit]
        · rw [if_neg hhit, if_neg hhit]
          by_cases hfirst : func = 0
          · rw [if_pos hfirst, if_pos hfirst]
          · rw [if_neg hfirst, if_neg hfirst]

/-- The inner loops end after what `findFrom` takes for one round. -/
theorem slotLoop_returns (hturns : 32 < turns) (bus : BitVec 8) (probed : List (BitVec 8)) :
    Code.Returns (slotLoop c hit turns bus) probed (fun r t =>
      r = (counted 32).findSome? (fun slot => findFunction c hit bus slot (counted 8)) ∧
        t = probed) := by
  rw [← Turn.outcome_ofOption]
  refine Code.countUp_all _ (by decide) (fun slot => ?_) hturns
  have hfunctions : Code.Returns (functionLoop c hit turns bus slot) probed
      (fun r t => r = findFunction c hit bus slot (counted 8) ∧ t = probed) := by
    rw [← outcome_functionTurn]
    exact Code.countUp_all _ (by decide) (fun _ => Code.returns_pure.mpr ⟨rfl, rfl⟩) (by omega)
  refine hfunctions.bind ?_
  rintro _ _ ⟨rfl, rfl⟩
  exact Code.returns_pure.mpr ⟨rfl, rfl⟩

/-- A round of the outer loop. -/
theorem busTurn_eq (hturns : 32 < turns) (bus : BitVec 8) (probed : List (BitVec 8)) :
    busTurn c hit turns bus probed = some
      (.ofOption ((counted 32).findSome? (fun slot => findFunction c hit bus slot (counted 8))),
        bus :: probed) := by
  have hround : Code.Returns (busTurn c hit turns bus) probed (fun r t =>
      r = .ofOption ((counted 32).findSome? (fun slot => findFunction c hit bus slot (counted 8))) ∧
        t = bus :: probed) := by
    refine Code.returns_bind.mpr (Code.returns_access.mpr ((slotLoop_returns hturns bus _).bind ?_))
    rintro _ _ ⟨rfl, rfl⟩
    exact Code.returns_pure.mpr ⟨rfl, rfl⟩
  obtain ⟨_, _, heq, rfl, rfl⟩ := hround
  exact heq

/-- The outer loop returns what `findFrom` finds, and gives up if it finds nothing. -/
theorem busLoop_eq (hturns : 32 < turns) (n : Nat) (bus : BitVec 8) (probed : List (BitVec 8)) :
    (Code.countUp 256 (busTurn c hit turns) n bus probed).map Prod.fst =
      (findFrom c hit n bus).map some := by
  induction n generalizing bus probed with
  | zero => rfl
  | succ n ih =>
      rw [Code.countUp_endless (by decide), Code.bind_apply, busTurn_eq hturns, findFrom]
      cases (counted 32).findSome? (fun slot => findFunction c hit bus slot (counted 8)) with
      | none => exact ih (bus + 1#8) (bus :: probed)
      | some dev => rfl

/-- The whole search, as far as `turns` rounds go. -/
theorem pciSearch_eq (hturns : 32 < turns) (probed : List (BitVec 8)) :
    (pciSearch c hit turns probed).map Prod.fst = findFrom c hit turns 0#8 := by
  have hresult : (pciSearch c hit turns probed).map Prod.fst =
      ((Code.countUp 256 (busTurn c hit turns) turns 0#8 probed).map Prod.fst).map
        (fun found => found.getD pciDeviceNone) := by
    rw [pciSearch, Code.bind_apply]
    cases Code.countUp 256 (busTurn c hit turns) turns 0#8 probed with
    | none => rfl
    | some r => rfl
  rw [hresult, busLoop_eq hturns]
  cases findFrom c hit turns 0#8 with
  | none => rfl
  | some dev => rfl

end Rounds

/-! ### When they end -/

/-- The search returns; if no function matches, with `PCI_DEVICE_NONE` and without having gone
into a bus twice. -/
def SearchEnds (c : ConfigSpace) (hit : BitVec 8 → BitVec 8 → BitVec 8 → Bool)
    (search : Nat → Probing PciDevice) : Prop :=
  Code.Terminates search [] (fun dev probed =>
    (∀ bus, ∀ slot ∈ counted 32, ∀ func ∈ counted 8,
      ¬ (¬ Absent c bus slot func ∧ hit bus slot func = true)) →
    dev = pciDeviceNone ∧ probed.Nodup)

/-- A function is there and matches, and the search looks at it. -/
def Findable (c : ConfigSpace) (hit : BitVec 8 → BitVec 8 → BitVec 8 → Bool) : Prop :=
  ∃ bus, ∃ slot ∈ counted 32, ∃ func ∈ counted 8,
    (¬ Absent c bus slot func ∧ hit bus slot func = true) ∧ (func = 0 ∨ Absent c bus slot 0)

theorem mem_listFunctions_iff {c : ConfigSpace} {bus slot : BitVec 8} {funcs : List (BitVec 8)}
    (hfuncs : 0 ∉ funcs) {dev : PciDevice} :
    dev ∈ listFunctions c bus slot funcs ↔
      ∃ func ∈ funcs, ¬ Absent c bus slot func ∧ dev = pciReadFullDevice c bus slot func := by
  rw [← examined_of_no_zero c bus slot hfuncs]
  induction funcs with
  | nil => simp [examined]
  | cons func funcs ih =>
      obtain ⟨hfunc, hrest⟩ := not_or.mp (mt List.mem_cons.mpr hfuncs)
      rw [examined, if_neg (Ne.symm hfunc), List.exists_mem_cons_iff, ← ih hrest]
      split
      · next habsent => simp [habsent]
      · next hthere => simp [hthere]

theorem mem_examined_iff {c : ConfigSpace} {bus slot : BitVec 8} {dev : PciDevice} :
    dev ∈ examined c bus slot (counted 8) ↔ ∃ func ∈ counted 8, ¬ Absent c bus slot func ∧
      (func = 0 ∨ Absent c bus slot 0) ∧ dev = pciReadFullDevice c bus slot func := by
  have hfuncs : counted 8 = 0 :: (counted 8).tail := rfl
  have hothers : 0 ∉ (counted 8).tail := by decide
  rw [hfuncs, List.exists_mem_cons_iff, examined]
  by_cases habsent : Absent c bus slot 0
  · have hfirst : ¬ (¬ Absent c bus slot 0 ∧ (0 = (0 : BitVec 8) ∨ Absent c bus slot 0) ∧
        dev = pciReadFullDevice c bus slot 0) := fun h => h.1 habsent
    rw [if_pos habsent, examined_of_no_zero c bus slot hothers, mem_listFunctions_iff hothers,
      or_iff_right hfirst]
    simp only [habsent, or_true, true_and]
  · rw [if_neg habsent, if_pos rfl]
    have hnone : ¬ ∃ func ∈ (counted 8).tail, ¬ Absent c bus slot func ∧
        (func = 0 ∨ Absent c bus slot 0) ∧ dev = pciReadFullDevice c bus slot func := by
      rintro ⟨func, hfunc, _, hzero | hgone, _⟩
      · exact hothers (hzero ▸ hfunc)
      · exact habsent hgone
    rw [or_iff_left hnone, List.mem_singleton]
    exact ⟨fun hdev => ⟨habsent, Or.inl rfl, hdev⟩, fun h => h.2.2⟩

theorem add_mem_busesFrom {n k : Nat} (hk : k < n) (bus : BitVec 8) :
    bus + BitVec.ofNat 8 k ∈ busesFrom n bus := by
  induction n generalizing k bus with
  | zero => exact absurd hk (Nat.not_lt_zero _)
  | succ n ih =>
      rw [busesFrom, List.mem_cons]
      cases k with
      | zero => exact Or.inl (BitVec.add_zero _)
      | succ k =>
          refine Or.inr ?_
          have hnext := ih (Nat.lt_of_succ_lt_succ hk) (bus + 1)
          have hstep : bus + 1 + BitVec.ofNat 8 k = bus + BitVec.ofNat 8 (k + 1) := by
            rw [BitVec.add_assoc, Nat.add_comm k 1, BitVec.ofNat_add]
            rfl
          rwa [hstep] at hnext

/-- After 256 rounds every bus has been looked at. -/
theorem mem_busesFrom {n : Nat} (hn : 256 ≤ n) (bus : BitVec 8) : bus ∈ busesFrom n 0#8 := by
  have hlt : bus.toNat < n := Nat.lt_of_lt_of_le bus.isLt hn
  have hmem := add_mem_busesFrom hlt 0#8
  rwa [BitVec.zero_add, BitVec.ofNat_toNat, BitVec.setWidth_eq] at hmem

section Ends

variable {c : ConfigSpace} {hit : BitVec 8 → BitVec 8 → BitVec 8 → Bool} {p : PciDevice → Bool}
  (hhit : ∀ bus slot func, hit bus slot func = p (pciReadFullDevice c bus slot func))
include hhit

theorem findable_of_findFrom {n : Nat} {dev : PciDevice} (h : findFrom c hit n 0#8 = some dev) :
    Findable c hit := by
  rw [findFrom_eq hhit] at h
  have hp := List.find?_some h
  obtain ⟨bus, _, hdev⟩ := List.mem_flatMap.mp (List.mem_of_find?_eq_some h)
  obtain ⟨slot, hslot, hdev⟩ := List.mem_flatMap.mp hdev
  obtain ⟨func, hfunc, hthere, hreached, rfl⟩ := mem_examined_iff.mp hdev
  exact ⟨bus, slot, hslot, func, hfunc, ⟨hthere, by rwa [hhit]⟩, hreached⟩

theorem findFrom_of_findable (h : Findable c hit) {n : Nat} (hn : 256 ≤ n) :
    ∃ dev, findFrom c hit n 0#8 = some dev := by
  obtain ⟨bus, slot, hslot, func, hfunc, ⟨hthere, hmatch⟩, hreached⟩ := h
  rw [findFrom_eq hhit]
  refine Option.isSome_iff_exists.mp (List.find?_isSome.mpr ?_)
  refine ⟨pciReadFullDevice c bus slot func, ?_, by rwa [← hhit]⟩
  refine List.mem_flatMap.mpr ⟨bus, mem_busesFrom hn bus, List.mem_flatMap.mpr ⟨slot, hslot, ?_⟩⟩
  exact mem_examined_iff.mpr ⟨func, hfunc, hthere, hreached, rfl⟩

/-- A search ends exactly if there is something it finds. -/
theorem searchEnds_iff : SearchEnds c hit (pciSearch c hit) ↔ Findable c hit := by
  constructor
  · rintro ⟨bound, hbound⟩
    obtain ⟨dev, probed, heq, _⟩ := hbound (max bound 33) (Nat.le_max_left _ _)
    have hfound : (pciSearch c hit _ []).map Prod.fst = _ :=
      pciSearch_eq (Nat.le_max_right bound 33) []
    rw [heq] at hfound
    exact findable_of_findFrom hhit hfound.symm
  · intro h
    refine ⟨256, fun turns hturns => ?_⟩
    obtain ⟨dev, hdev⟩ := findFrom_of_findable hhit h hturns
    have hfound : (pciSearch c hit turns []).map Prod.fst = _ := pciSearch_eq (by omega) []
    rw [hdev] at hfound
    obtain ⟨⟨_, probed⟩, heq, _⟩ := Option.map_eq_some_iff.mp hfound
    refine ⟨_, probed, heq, fun hnone => ?_⟩
    obtain ⟨bus, slot, hslot, func, hfunc, hmatch, _⟩ := h
    exact absurd hmatch (hnone bus slot hslot func hfunc)

end Ends

/-- Both searches end exactly if a function matches that is the first of its slot or behind a
first one that is absent. -/
theorem pci_search_ends_iff (c : ConfigSpace) :
    (∀ vendor device,
      SearchEnds c (idsAt c vendor device) (pciFindDeviceByIDCode c vendor device) ↔
        Findable c (idsAt c vendor device)) ∧
    ∀ classCode subclass,
      SearchEnds c (classAt c classCode subclass) (pciFindDeviceByClassCode c classCode subclass) ↔
        Findable c (classAt c classCode subclass) :=
  ⟨fun vendor device =>
      searchEnds_iff (p := PciDevice.hasIds vendor device) (fun _ _ _ => rfl),
    fun classCode subclass =>
      searchEnds_iff (p := PciDevice.hasClass classCode subclass) (fun _ _ _ => rfl)⟩

/-- With nothing attached a search goes on for ever. -/
theorem empty_bus_searched_for_ever :
    ¬ SearchEnds (fun _ => 0xFFFFFFFF#32) (idsAt (fun _ => 0xFFFFFFFF#32) 0x8086#16 0x7111#16)
      (pciFindDeviceByIDCode (fun _ => 0xFFFFFFFF#32) 0x8086#16 0x7111#16) := by
  intro hends
  obtain ⟨_, _, _, _, _, ⟨hthere, _⟩, _⟩ :=
    (searchEnds_iff (p := PciDevice.hasIds 0x8086#16 0x7111#16) (fun _ _ _ => rfl)).mp hends
  have hword : ((0xFFFFFFFF#32 >>> ((0x00#8 &&& 2#8).toNat * 8)) &&& 0xFFFF#32).setWidth 16 =
      0xFFFF#16 := by decide
  exact hthere hword

end Asnu
