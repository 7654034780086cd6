import Asnu.CString
import Asnu.Lib.Bitmap
import Asnu.Lib.Search

/-!
The physical memory manager of `pmm.c`: a bitmap with one bit for each 4 KiB
frame of the managed region, searched from bit 0 by both `kalloc` and
`palloc`. The bitmap lives in the same byte memory as the frames it describes.
The log lines of `pmm_init` are left out.
-/

namespace Asnu

open Lib

structure BitmapFile where
  base : BitVec 64
  length : BitVec 64
  type : BitVec 32

structure PmmFile where
  base : BitVec 64
  length : BitVec 64
  type : BitVec 32
  flags : BitVec 32
  reserved : BitVec 32
  bitmapBase : BitVec 64
  bitmapLength : BitVec 64
  bitmapFile : BitmapFile

/-- The memory and the record `pmm_file` points to. -/
structure Pmm where
  mem : Memory
  file : PmmFile

def pmmInit (m : Memory) (largestBase largestLength : BitVec 64)
    (secondLargestBase secondLargestLength : BitVec 64) : Pmm :=
  let bitmapSize := (largestLength / 4096#64 + 7#64) / 8#64
  let bitmapFile : BitmapFile := {
    base := secondLargestBase
    length := bitmapSize -- first `second_largest_length`, then overwritten
    type := 0#32 }
  let file : PmmFile := {
    base := largestBase
    length := largestLength
    type := 0#32
    flags := 0#32
    reserved := 0#32
    bitmapBase := secondLargestBase
    bitmapLength := bitmapSize
    bitmapFile := bitmapFile }
  let m := memset m file.bitmapBase 0#32 bitmapSize
  let m := memset m secondLargestBase 0#32 secondLargestLength
  let m := memset m file.bitmapBase 0#32 file.bitmapLength
  { mem := m, file := file }

namespace Pmm

/-- The bound of both search loops, `pmm_file->bitmap_length * 8`. -/
def bitCount (s : Pmm) : Nat := (s.file.bitmapLength * 8#64).toNat

def bit (s : Pmm) (i : Nat) : Bool := Bitmap.bit s.mem s.file.bitmapBase i

/-- The pointer handed out for bit `i`, `pmm_file->base + i * 4096`. -/
def frame (s : Pmm) (i : Nat) : Ptr := s.file.base + BitVec.ofNat 64 i * 4096#64

/-- The search loop: the first `i` below the bound whose masked byte is 0. -/
def firstFree (s : Pmm) : Option Nat :=
  first (fun i => s.mem (Bitmap.slot s.file.bitmapBase i) &&& Bitmap.mask i == 0#8)
    s.bitCount

/-- The allocator once the memory has become `mem`. -/
def withMem (s : Pmm) (mem : Memory) : Pmm := { s with mem := mem }

/-- `bm[byte_index] |= (uint8_t)(1u << bit_index)`. -/
def mark (s : Pmm) (i : Nat) : Pmm :=
  { s with mem := Bitmap.set s.mem s.file.bitmapBase i }

end Pmm

def bitmapClearBit (s : Pmm) (index : BitVec 64) : Pmm :=
  if index ≥ s.file.bitmapLength * 8#64 then s
  else { s with mem := Bitmap.clear s.mem s.file.bitmapBase index.toNat }

def kalloc (s : Pmm) (size : BitVec 64) : Ptr × Pmm :=
  if size = 0#64 then (NULL, s)
  else
    -- `pages_needed` is computed here and read nowhere
    let _pagesNeeded := (size + 4095#64) / 4096#64
    match s.firstFree with
    | some i => (s.frame i, s.mark i)
    | none => (NULL, s)

def palloc (s : Pmm) : Ptr × Pmm :=
  let uint64Max := BitVec.allOnes 64
  let (index, s) := match s.firstFree with
    | some i => (BitVec.ofNat 64 i, s.mark i)
    | none => (uint64Max, s)
  if index = uint64Max then (NULL, s)
  else (s.file.base + index * 4096#64, s)

def kfree (s : Pmm) (ptr : Ptr) : Pmm :=
  if ptr = NULL then s
  else
    let phys := ptr
    if phys < s.file.base ∨ phys ≥ s.file.base + s.file.length then s
    else
      let s := bitmapClearBit s ((phys - s.file.base) / 4096#64)
      { s with mem := memset s.mem ptr 0#32 4096#64 }

namespace Pmm

theorem bitCount_lt (s : Pmm) : s.bitCount < 2 ^ 64 - 1 := by
  unfold bitCount
  bv_omega

theorem firstFree_eq_some {s : Pmm} {k : Nat} :
    s.firstFree = some k ↔
      k < s.bitCount ∧ s.bit k = false ∧ ∀ j < k, s.bit j = true := by
  simp only [firstFree, Bitmap.test_eq_not_bit, first_eq_some_iff,
    Bool.not_eq_true', Bool.not_eq_false', bit]

theorem firstFree_eq_none {s : Pmm} :
    s.firstFree = none ↔ ∀ j < s.bitCount, s.bit j = true := by
  simp only [firstFree, Bitmap.test_eq_not_bit, first_eq_none_iff,
    Bool.not_eq_false', bit]

@[simp] theorem withMem_mem (s : Pmm) (mem : Memory) : (s.withMem mem).mem = mem := rfl

@[simp] theorem withMem_file (s : Pmm) (mem : Memory) : (s.withMem mem).file = s.file := rfl

theorem eq_withMem {s t : Pmm} {mem : Memory} (hmem : t.mem = mem) (hfile : t.file = s.file) :
    t = s.withMem mem := by
  rw [← hmem, withMem, ← hfile]

@[simp] theorem mark_file (s : Pmm) (i : Nat) : (s.mark i).file = s.file := rfl

theorem bit_mark (s : Pmm) {i j : Nat} (hi : i < 2 ^ 64) (hj : j < 2 ^ 64) :
    (s.mark i).bit j = if j = i then true else s.bit j :=
  Bitmap.bit_set s.mem s.file.bitmapBase hi hj

end Pmm

/-- A request of at least one byte takes the first free frame, whatever its
size. -/
theorem kalloc_eq (s : Pmm) {size : BitVec 64} (hsize : size ≠ 0#64) :
    kalloc s size = match s.firstFree with
      | some i => (s.frame i, s.mark i)
      | none => (NULL, s) := by
  rw [kalloc, if_neg hsize]

/-- No index found by the loop is the `UINT64_MAX` that marks failure. -/
theorem palloc_eq (s : Pmm) :
    palloc s = match s.firstFree with
      | some i => (s.frame i, s.mark i)
      | none => (NULL, s) := by
  unfold palloc
  cases hfree : s.firstFree with
  | none => simp
  | some i =>
      have hi := (Pmm.firstFree_eq_some.mp hfree).1
      have hcount := s.bitCount_lt
      have hne : BitVec.ofNat 64 i ≠ BitVec.allOnes 64 := by
        intro h
        have hnat := congrArg BitVec.toNat h
        simp only [BitVec.toNat_ofNat, BitVec.toNat_allOnes] at hnat
        omega
      simp only [if_neg hne, Pmm.frame, Pmm.mark_file]

theorem palloc_of_firstFree {p : Pmm} {k : Nat} (h : p.firstFree = some k) :
    palloc p = (p.frame k, p.mark k) := by
  rw [palloc_eq, h]

theorem kalloc_eq_palloc (s : Pmm) {size : BitVec 64} (hsize : size ≠ 0#64) :
    kalloc s size = palloc s := by
  rw [kalloc_eq s hsize, palloc_eq]

/-- What a `kfree` that does something does. -/
def release (s : Pmm) (ptr : Ptr) : Pmm :=
  { bitmapClearBit s ((ptr - s.file.base) / 4096#64) with
    mem := (bitmapClearBit s ((ptr - s.file.base) / 4096#64)).mem.fill ptr 4096 0#8 }

theorem kfree_cases (s : Pmm) (ptr : Ptr) :
    kfree s ptr = s ∨
      (ptr ≠ NULL ∧ s.file.base ≤ ptr ∧ ptr < s.file.base + s.file.length ∧
        kfree s ptr = release s ptr) := by
  unfold kfree
  split
  · exact Or.inl rfl
  · next hnull =>
      dsimp only
      split
      · exact Or.inl rfl
      · next hrange =>
          rw [not_or] at hrange
          refine Or.inr ⟨hnull, BitVec.not_lt.mp hrange.1,
            BitVec.not_le.mp hrange.2, ?_⟩
          simp [release, memset_eq_fill]

theorem kfree_eq_release {s : Pmm} {ptr : Ptr} (hnull : ptr ≠ NULL)
    (hlow : s.file.base ≤ ptr) (hhigh : ptr < s.file.base + s.file.length) :
    kfree s ptr = release s ptr := by
  have hrange : ¬ (ptr < s.file.base ∨ ptr ≥ s.file.base + s.file.length) := by
    rw [not_or]
    exact ⟨BitVec.not_lt.mpr hlow, BitVec.not_le.mpr hhigh⟩
  simp only [kfree, if_neg hnull, if_neg hrange, release, memset_eq_fill]
  rfl

theorem bitmapClearBit_file (s : Pmm) (index : BitVec 64) :
    (bitmapClearBit s index).file = s.file := by
  unfold bitmapClearBit
  split <;> rfl

@[simp] theorem release_file (s : Pmm) (ptr : Ptr) :
    (release s ptr).file = s.file := bitmapClearBit_file s _

@[simp] theorem kfree_file (s : Pmm) (ptr : Ptr) :
    (kfree s ptr).file = s.file := by
  rcases kfree_cases s ptr with h | ⟨_, _, _, h⟩
  · rw [h]
  · rw [h, release_file]

@[simp] theorem kalloc_file (s : Pmm) (size : BitVec 64) :
    (kalloc s size).2.file = s.file := by
  unfold kalloc
  split
  · rfl
  · dsimp only
    split <;> rfl

@[simp] theorem palloc_file (s : Pmm) : (palloc s).2.file = s.file := by
  rw [palloc_eq]
  split <;> rfl

end Asnu
