import Asnu.Pmm.Blocks
import Asnu.Vmm.Walk

/-!
How `kmain` sets up the allocator: one pass over the bootloader's memory map
that remembers the largest usable entry so far and the one it took the place
of, and the call of `pmm_init` with both, moved into the direct map. The log lines
are left out.
-/

namespace Asnu

open Lib

inductive MemmapType where
  | usable
  | reserved
  | acpiReclaimable
  | acpiNvs
  | badMemory
  | bootloaderReclaimable
  | kernelAndModules
  | framebuffer
  deriving DecidableEq, Repr

structure MemmapEntry where
  base : BitVec 64
  length : BitVec 64
  type : MemmapType
  deriving DecidableEq, Repr

/-- The variables of the selection loop. An index of -1 is `none`. -/
structure Selection where
  largestEntry : Option Nat := none
  secondLargestEntry : Option Nat := none
  baseLargestEntry : BitVec 64 := NULL
  baseSecondLargestEntry : BitVec 64 := NULL
  totalMemory : BitVec 64 := 0#64
  totalUsableMemory : BitVec 64 := 0#64
  totalReservedMemory : BitVec 64 := 0#64
  totalPmmMemory : BitVec 64 := 0#64
  deriving DecidableEq

/-- `entries[index]->length`; `beyond` is what is read at index -1. -/
def lengthAt (entries : List MemmapEntry) (beyond : BitVec 64) (index : Option Nat) :
    BitVec 64 :=
  ((index.bind (fun i => entries[i]?)).map MemmapEntry.length).getD beyond

namespace Selection

/-- The body of the loop. -/
def step (entries : List MemmapEntry) (sel : Selection) (x : MemmapEntry × Nat) :
    Selection :=
  let (entry, i) := x
  let sel :=
    if sel.largestEntry = none ∨
        entry.length > lengthAt entries 0#64 sel.largestEntry then
      if entry.type = .usable then
        { sel with
          secondLargestEntry := sel.largestEntry
          largestEntry := some i
          totalPmmMemory := entry.length
          baseSecondLargestEntry := sel.baseLargestEntry
          baseLargestEntry := entry.base }
      else sel
    else sel
  let sel := { sel with totalMemory := sel.totalMemory + entry.length }
  if entry.type = .usable then
    { sel with totalUsableMemory := sel.totalUsableMemory + entry.length }
  else sel

end Selection

def selectEntries (entries : List MemmapEntry) : Selection :=
  entries.zipIdx.foldl (Selection.step entries) {}

/-- `kmain` up to the call of `pmm_init`; `offset` is what the bootloader
reports for the direct map. -/
def kmainPmm (m : Memory) (entries : List MemmapEntry) (offset beyond : BitVec 64) : Pmm :=
  let sel := selectEntries entries
  pmmInit m (sel.baseLargestEntry + offset) (lengthAt entries beyond sel.largestEntry)
    (sel.baseSecondLargestEntry + offset) (lengthAt entries beyond sel.secondLargestEntry)

namespace Selection

/-- The indices name usable entries, the bases are theirs, and the second entry
is not the first. -/
structure Sound (entries : List MemmapEntry) (sel : Selection) : Prop where
  largest : ∀ i, sel.largestEntry = some i → ∃ e, entries[i]? = some e ∧
    e.type = .usable ∧ sel.baseLargestEntry = e.base
  second : ∀ j, sel.secondLargestEntry = some j → ∃ e, entries[j]? = some e ∧
    e.type = .usable ∧ sel.baseSecondLargestEntry = e.base
  apart : ∀ i j, sel.largestEntry = some i → sel.secondLargestEntry = some j → i ≠ j

theorem Sound.step {entries : List MemmapEntry} {sel : Selection} (h : sel.Sound entries)
    {entry : MemmapEntry} {i : Nat} (hentry : entries[i]? = some entry) :
    (sel.step entries (entry, i)).Sound entries := by
  unfold Selection.step
  by_cases hlarger : sel.largestEntry = none ∨
      entry.length > lengthAt entries 0#64 sel.largestEntry
  · by_cases husable : entry.type = .usable
    · simp only [if_pos hlarger, if_pos husable]
      refine ⟨?_, fun j hj => h.largest j hj, ?_⟩
      · rintro k hk
        obtain rfl := Option.some.inj hk
        exact ⟨entry, hentry, husable, rfl⟩
      · rintro k j hk hj rfl
        obtain rfl := Option.some.inj hk
        have hold : sel.largestEntry = some i := hj
        rcases hlarger with hnone | hlonger
        · exact Option.some_ne_none i (hold.symm.trans hnone)
        · -- the entry is not longer than itself
          have hlength : lengthAt entries 0#64 sel.largestEntry = entry.length := by
            simp [hold, lengthAt, hentry]
          rw [hlength] at hlonger
          exact BitVec.lt_irrefl _ hlonger
    · simp only [if_pos hlarger, if_neg husable]
      exact ⟨h.largest, h.second, h.apart⟩
  · simp only [if_neg hlarger]
    split <;> exact ⟨h.largest, h.second, h.apart⟩

/-- An index once set is never unset, and a usable entry sets it. -/
theorem step_largest {entries : List MemmapEntry} {sel : Selection}
    {x : MemmapEntry × Nat} (h : sel.largestEntry ≠ none ∨ x.1.type = .usable) :
    (sel.step entries x).largestEntry ≠ none := by
  unfold Selection.step
  cases hsel : sel.largestEntry with
  | none =>
      have husable : x.1.type = .usable := h.resolve_left (fun hne => hne hsel)
      simp [husable]
  | some i =>
      dsimp only
      split_ifs <;> simp [hsel]

end Selection

/-- What holds before the loop, and is kept by its body for the next entry, holds after
it. -/
theorem selectEntries_invariant {entries : List MemmapEntry} (Inv : Nat → Selection → Prop)
    (hstart : Inv 0 {})
    (hkeep : ∀ n sel entry, entries[n]? = some entry → Inv n sel →
      Inv (n + 1) (sel.step entries (entry, n))) :
    Inv entries.length (selectEntries entries) := by
  have hrest : ∀ (xs : List MemmapEntry) (n : Nat) (sel : Selection), entries.drop n = xs →
      Inv n sel → Inv (n + xs.length) ((xs.zipIdx n).foldl (Selection.step entries) sel) := by
    intro xs
    induction xs with
    | nil => exact fun _ _ _ h => h
    | cons x xs ih =>
        intro n sel hdrop h
        have hx : entries[n]? = some x := by
          rw [← List.head?_drop, hdrop, List.head?_cons]
        have htail : entries.drop (n + 1) = xs := by
          rw [← List.tail_drop, hdrop, List.tail_cons]
        rw [List.zipIdx_cons, List.foldl_cons, List.length_cons, ← Nat.add_assoc,
          Nat.add_right_comm]
        exact ih (n + 1) _ htail (hkeep n sel x hx h)
  have hall := hrest entries 0 {} rfl hstart
  rwa [Nat.zero_add] at hall

theorem selectEntries_largest {entries : List MemmapEntry}
    (husable : ∃ e ∈ entries, e.type = .usable) :
    (selectEntries entries).largestEntry ≠ none := by
  obtain ⟨e, he, husable⟩ := husable
  obtain ⟨i, hi⟩ := List.mem_iff_getElem?.mp he
  have hset := @selectEntries_invariant entries
    (fun n sel => i < n → sel.largestEntry ≠ none) (fun h => absurd h (Nat.not_lt_zero i)) ?_
  · exact hset (List.getElem?_eq_some_iff.mp hi).1
  · intro n sel entry hentry h hlt
    rcases Nat.lt_succ_iff_lt_or_eq.mp hlt with hold | rfl
    · exact Selection.step_largest (Or.inl (h hold))
    · obtain rfl := Option.some.inj (hentry.symm.trans hi)
      exact Selection.step_largest (Or.inr husable)

theorem selectEntries_sound (entries : List MemmapEntry) :
    (selectEntries entries).Sound entries :=
  selectEntries_invariant (fun _ sel => sel.Sound entries) ⟨by simp, by simp, by simp⟩
    (fun _ _ _ hentry h => h.step hentry)

/-- `x` is one of the bytes of the entry, as the direct map shows them. -/
def MemmapEntry.Spans (e : MemmapEntry) (offset : BitVec 64) (x : Ptr) : Prop :=
  InRange (e.base + offset) e.length.toNat x

theorem MemmapEntry.spans_iff (e : MemmapEntry) (offset : BitVec 64) (x : Ptr) :
    e.Spans offset x ↔ InRange e.base e.length.toNat (x - offset) := by
  have hsub : x - (e.base + offset) = x - offset - e.base := by bv_omega
  rw [Spans, InRange, InRange, hsub]

/-- No two usable entries of the map have a byte in common. -/
def NonOverlapping (entries : List MemmapEntry) : Prop :=
  ∀ (i j : Nat) (e e' : MemmapEntry), i ≠ j → entries[i]? = some e →
    entries[j]? = some e' → e.type = .usable → e'.type = .usable →
      ∀ x, InRange e.base e.length.toNat x → ¬ InRange e'.base e'.length.toNat x

theorem inRange_subset_iff (a : Ptr) {m n : Nat} (hm : m < 2 ^ 64) :
    (∀ x, InRange a m x → InRange a n x) ↔ m ≤ n := by
  constructor
  · intro h
    by_contra hlt
    have hin := h _ (inRange_add a (d := n) (by omega) (by omega))
    rw [InRange, offset_toNat a (by omega)] at hin
    exact Nat.lt_irrefl n hin
  · intro h x hx
    exact Nat.lt_of_lt_of_le hx h

/-- `pmm_init` writes the bitmap and the region it is put into, nothing else. -/
theorem pmmInit_out (m : Memory) (base length bitmapBase spare : BitVec 64) {x : Ptr}
    (hspare : ¬ InRange bitmapBase spare.toNat x)
    (hbitmap : ¬ InRange bitmapBase ((length / 4096#64 + 7#64) / 8#64).toNat x) :
    (pmmInit m base length bitmapBase spare).mem x = m x := by
  simp only [pmmInit, memset_eq_fill]
  rw [Memory.fill_out _ _ hbitmap, Memory.fill_out _ _ hspare, Memory.fill_out _ _ hbitmap]

/-- What the call of `pmm_init` is given when the loop has found two entries. -/
theorem kmainPmm_eq (m : Memory) {entries : List MemmapEntry} (offset beyond : BitVec 64)
    {i j : Nat} {e e' : MemmapEntry} (hi : (selectEntries entries).largestEntry = some i)
    (hj : (selectEntries entries).secondLargestEntry = some j)
    (he : entries[i]? = some e) (he' : entries[j]? = some e') :
    kmainPmm m entries offset beyond =
      pmmInit m (e.base + offset) e.length (e'.base + offset) e'.length := by
  obtain ⟨d, hd, _, hbase⟩ := (selectEntries_sound entries).largest i hi
  obtain ⟨d', hd', _, hbase'⟩ := (selectEntries_sound entries).second j hj
  obtain rfl := Option.some.inj (hd.symm.trans he)
  obtain rfl := Option.some.inj (hd'.symm.trans he')
  simp [kmainPmm, lengthAt, hi, hj, he, he', hbase, hbase']

/-- The two entries that the loop has found have no byte in common. -/
theorem selected_apart {entries : List MemmapEntry} (hmap : NonOverlapping entries)
    (offset : BitVec 64) {i j : Nat} {e e' : MemmapEntry}
    (hi : (selectEntries entries).largestEntry = some i)
    (hj : (selectEntries entries).secondLargestEntry = some j)
    (he : entries[i]? = some e) (he' : entries[j]? = some e') {x : Ptr}
    (hx : e.Spans offset x) : ¬ e'.Spans offset x := by
  intro hx'
  obtain ⟨d, hd, husable, _⟩ := (selectEntries_sound entries).largest i hi
  obtain ⟨d', hd', husable', _⟩ := (selectEntries_sound entries).second j hj
  obtain rfl := Option.some.inj (hd.symm.trans he)
  obtain rfl := Option.some.inj (hd'.symm.trans he')
  have hij := (selectEntries_sound entries).apart i j hi hj
  exact hmap i j d d' hij hd hd' husable husable' _ ((d.spans_iff offset x).mp hx)
    ((d'.spans_iff offset x).mp hx')

/-- The size of the bitmap, in bytes. -/
theorem bitmapSize_toNat (length : BitVec 64) :
    ((length / 4096#64 + 7#64) / 8#64).toNat = (length.toNat / 4096 + 7) / 8 := by
  have hlen := length.isLt
  simp only [BitVec.toNat_udiv, BitVec.toNat_add, BitVec.toNat_ofNat, Nat.reducePow,
    Nat.reduceMod]
  omega

/-- The bitmap lies in the second entry, outside the managed region, and
`pmm_init` writes in the two entries only, exactly when the second entry is long
enough for it. -/
theorem bitmap_room_iff (entries : List MemmapEntry) (hmap : NonOverlapping entries)
    (offset beyond : BitVec 64) (i j : Nat) (e e' : MemmapEntry)
    (hi : (selectEntries entries).largestEntry = some i)
    (hj : (selectEntries entries).secondLargestEntry = some j)
    (he : entries[i]? = some e) (he' : entries[j]? = some e') :
    (∀ m x, InRange (kmainPmm m entries offset beyond).file.bitmapBase
        (kmainPmm m entries offset beyond).file.bitmapLength.toNat x →
          e'.Spans offset x ∧
          ¬ InRange (kmainPmm m entries offset beyond).file.base
            (kmainPmm m entries offset beyond).file.length.toNat x) ∧
      (∀ m x, ¬ e.Spans offset x → ¬ e'.Spans offset x →
        (kmainPmm m entries offset beyond).mem x = m x) ↔
    (e.length.toNat / 4096 + 7) / 8 ≤ e'.length.toNat := by
  have hsize := bitmapSize_toNat e.length
  have hlt : (e.length.toNat / 4096 + 7) / 8 < 2 ^ 64 := hsize ▸ BitVec.isLt _
  have hpmm := fun m => kmainPmm_eq m offset beyond hi hj he he'
  have hbase : ∀ m, (kmainPmm m entries offset beyond).file.base = e.base + offset :=
    fun m => by rw [hpmm m]; rfl
  have hlength : ∀ m, (kmainPmm m entries offset beyond).file.length = e.length :=
    fun m => by rw [hpmm m]; rfl
  have hbitmap : ∀ m, (kmainPmm m entries offset beyond).file.bitmapBase =
      e'.base + offset := fun m => by rw [hpmm m]; rfl
  have hbytes : ∀ m, (kmainPmm m entries offset beyond).file.bitmapLength.toNat =
      (e.length.toNat / 4096 + 7) / 8 := fun m => by
    rw [hpmm m]
    exact hsize
  simp only [hbase, hlength, hbitmap, hbytes]
  rw [← inRange_subset_iff (e'.base + offset) hlt]
  constructor
  · rintro ⟨hinside, _⟩ x hx
    exact (hinside (fun _ => 0#8) x hx).1
  · intro hinside
    refine ⟨fun _ x hx => ⟨hinside x hx, fun hlargest => ?_⟩, fun m x _ hout => ?_⟩
    · exact selected_apart hmap offset hi hj he he' hlargest (hinside x hx)
    · rw [hpmm m]
      refine pmmInit_out m _ _ _ _ hout (fun hx => hout (hinside x ?_))
      rwa [hsize] at hx

namespace Sample

/-- Memory below 1 MiB, and 32 GiB from 4 GiB on. -/
def bigMap : List MemmapEntry :=
  [⟨0x1000#64, 0x9E000#64, .usable⟩, ⟨0xF0000#64, 0x10000#64, .reserved⟩,
    ⟨0x100000000#64, 0x800000000#64, .usable⟩]

/-- The same with 1 GiB instead. -/
def smallMap : List MemmapEntry :=
  [⟨0x1000#64, 0x9E000#64, .usable⟩, ⟨0xF0000#64, 0x10000#64, .reserved⟩,
    ⟨0x100000000#64, 0x40000000#64, .usable⟩]

/-- A map with two usable entries, which lie apart. -/
theorem nonOverlapping_map {base length base' length' : BitVec 64} {r : MemmapEntry}
    (hr : r.type ≠ .usable)
    (hapart : ∀ x, InRange base length.toNat x → ¬ InRange base' length'.toNat x) :
    NonOverlapping [⟨base, length, .usable⟩, r, ⟨base', length', .usable⟩] := by
  rintro (_ | _ | _ | i) (_ | _ | _ | j) e e' hij he he' husable husable' x hx hx' <;>
    simp only [List.getElem?_cons_zero, List.getElem?_cons_succ, List.getElem?_nil,
      Option.some.injEq, reduceCtorEq] at he he' <;> subst he he'
  all_goals first
    | exact hij rfl
    | exact hr husable
    | exact hr husable'
    | exact hapart x hx hx'
    | exact hapart x hx' hx

end Sample

theorem bitmap_room_iff_smallMap :
    (∀ m x, InRange (kmainPmm m Sample.smallMap 0xFFFF800000000000#64 0#64).file.bitmapBase
        (kmainPmm m Sample.smallMap 0xFFFF800000000000#64 0#64).file.bitmapLength.toNat x →
          MemmapEntry.Spans ⟨0x1000#64, 0x9E000#64, .usable⟩ 0xFFFF800000000000#64 x ∧
          ¬ InRange (kmainPmm m Sample.smallMap 0xFFFF800000000000#64 0#64).file.base
            (kmainPmm m Sample.smallMap 0xFFFF800000000000#64 0#64).file.length.toNat x) ∧
      (∀ m x, ¬ MemmapEntry.Spans ⟨0x100000000#64, 0x40000000#64, .usable⟩
          0xFFFF800000000000#64 x →
        ¬ MemmapEntry.Spans ⟨0x1000#64, 0x9E000#64, .usable⟩ 0xFFFF800000000000#64 x →
        (kmainPmm m Sample.smallMap 0xFFFF800000000000#64 0#64).mem x = m x) :=
  (bitmap_room_iff Sample.smallMap
    (Sample.nonOverlapping_map (by decide) (by unfold InRange; bv_omega))
    0xFFFF800000000000#64 0#64 2 0 _ _ (by decide) (by decide) rfl rfl).mpr (by decide)

/-- A region of 32 GiB needs 1 MiB of bitmap, which is put into 632 KiB. -/
theorem bitmap_leaves_entry :
    ¬ ∀ (entries : List MemmapEntry), NonOverlapping entries →
      ∀ (offset beyond : BitVec 64) (i j : Nat) (e e' : MemmapEntry),
      (selectEntries entries).largestEntry = some i →
      (selectEntries entries).secondLargestEntry = some j →
      entries[i]? = some e → entries[j]? = some e' →
      ∀ m x, InRange (kmainPmm m entries offset beyond).file.bitmapBase
        (kmainPmm m entries offset beyond).file.bitmapLength.toNat x →
          e'.Spans offset x := by
  intro hclaim
  have hmap : NonOverlapping Sample.bigMap :=
    Sample.nonOverlapping_map (by decide) (by unfold InRange; bv_omega)
  have hspans := hclaim Sample.bigMap hmap 0xFFFF800000000000#64 0#64 2 0 _ _ (by decide)
    (by decide) rfl rfl (fun _ => 0#8) 0xFFFF8000000A0000#64 (by decide)
  exact absurd hspans (by unfold MemmapEntry.Spans InRange; decide)

/-- What `palloc` returns is a frame of the largest entry, seen through the
bootloader's direct map. -/
theorem palloc_kmainPmm (m mem : Memory) {entries : List MemmapEntry}
    (offset beyond : BitVec 64) (husable : ∃ e ∈ entries, e.type = .usable)
    (hnull : (palloc ((kmainPmm m entries offset beyond).withMem mem)).1 ≠ NULL) :
    ∃ i k e, (selectEntries entries).largestEntry = some i ∧ entries[i]? = some e ∧
      k < (kmainPmm m entries offset beyond).bitCount ∧
      (palloc ((kmainPmm m entries offset beyond).withMem mem)).1 =
        e.base + BitVec.ofNat 64 k * 4096#64 + offset := by
  obtain ⟨i, hi⟩ := Option.ne_none_iff_exists'.mp (selectEntries_largest husable)
  obtain ⟨e, he, _, hbase⟩ := (selectEntries_sound entries).largest i hi
  have hregion : ((kmainPmm m entries offset beyond).withMem mem).file.base =
      e.base + offset := congrArg (· + offset) hbase
  rw [palloc_eq] at hnull ⊢
  cases hfree : ((kmainPmm m entries offset beyond).withMem mem).firstFree with
  | none =>
      rw [hfree] at hnull
      exact absurd rfl hnull
  | some k =>
      refine ⟨i, k, e, hi, he, (Pmm.firstFree_eq_some.mp hfree).1, ?_⟩
      simp only [Pmm.frame, hregion]
      rw [BitVec.add_assoc, BitVec.add_comm offset, ← BitVec.add_assoc]

/-- The conversions agree with the bootloader's direct map exactly at one
offset. -/
theorem conversions_iff (phys offset : BitVec 64) :
    (va2pa (phys + offset) = phys ∧ va2paU64 (phys + offset) = phys ∧
      pa2vaU64 phys = phys + offset) ↔ offset = 0xFFFF800000000000#64 := by
  constructor
  · rintro ⟨_, _, hback⟩
    exact (BitVec.add_right_inj phys).mp hback.symm
  · rintro rfl
    refine ⟨?_, ?_, rfl⟩
    · rw [va2pa, BitVec.add_sub_cancel]
    · rw [va2paU64, BitVec.add_sub_cancel]

/-- Whatever the memory holds by then, the frame behind a pointer that `palloc`
returns is what `VA2PA` takes it for, and `PA2VAu64` leads back, exactly when the
reported offset is the one in the conversions. -/
theorem direct_map_offset_iff (m mem : Memory) (entries : List MemmapEntry)
    (offset beyond : BitVec 64) (husable : ∃ e ∈ entries, e.type = .usable)
    (hnull : (palloc ((kmainPmm m entries offset beyond).withMem mem)).1 ≠ NULL) :
    let p := (palloc ((kmainPmm m entries offset beyond).withMem mem)).1
    ∃ i k e, (selectEntries entries).largestEntry = some i ∧ entries[i]? = some e ∧
      k < (kmainPmm m entries offset beyond).bitCount ∧
      p = e.base + BitVec.ofNat 64 k * 4096#64 + offset ∧
      (va2pa p = e.base + BitVec.ofNat 64 k * 4096#64 ∧
          va2paU64 p = e.base + BitVec.ofNat 64 k * 4096#64 ∧
          pa2vaU64 (e.base + BitVec.ofNat 64 k * 4096#64) = p ↔
        offset = 0xFFFF800000000000#64) := by
  obtain ⟨i, k, e, hi, he, hk, hp⟩ := palloc_kmainPmm m mem offset beyond husable hnull
  refine ⟨i, k, e, hi, he, hk, hp, ?_⟩
  rw [hp]
  exact conversions_iff _ offset

namespace Sample

theorem palloc_smallMap (offset : BitVec 64) :
    (palloc ((kmainPmm (fun _ => 0#8) smallMap offset 0#64).withMem (fun _ => 0#8))).1 =
      0x100000000#64 + offset := by
  have hfree : ((kmainPmm (fun _ => 0#8) smallMap offset 0#64).withMem
      (fun _ => 0#8)).firstFree = some 0 := by
    have hcount : 0 < ((kmainPmm (fun _ => 0#8) smallMap offset 0#64).withMem
        (fun _ => 0#8)).bitCount := by
      change 0 < ((lengthAt smallMap 0#64 (selectEntries smallMap).largestEntry / 4096#64 +
        7#64) / 8#64 * 8#64).toNat
      decide
    have hclear : ((kmainPmm (fun _ => 0#8) smallMap offset 0#64).withMem
        (fun _ => 0#8)).bit 0 = false := by
      simp [Pmm.bit, Pmm.withMem, Bitmap.bit]
    exact Pmm.firstFree_eq_some.mpr
      ⟨hcount, hclear, fun j hj => absurd hj (Nat.not_lt_zero j)⟩
  rw [palloc_eq, hfree]
  exact BitVec.add_zero _

end Sample

theorem direct_map_offset_iff_smallMap :
    let p := (palloc ((kmainPmm (fun _ => 0#8) Sample.smallMap 0xFFFF800000000000#64
      0#64).withMem (fun _ => 0#8))).1
    ∃ i k e, (selectEntries Sample.smallMap).largestEntry = some i ∧
      Sample.smallMap[i]? = some e ∧
      k < (kmainPmm (fun _ => 0#8) Sample.smallMap 0xFFFF800000000000#64 0#64).bitCount ∧
      p = e.base + BitVec.ofNat 64 k * 4096#64 + 0xFFFF800000000000#64 ∧
      (va2pa p = e.base + BitVec.ofNat 64 k * 4096#64 ∧
          va2paU64 p = e.base + BitVec.ofNat 64 k * 4096#64 ∧
          pa2vaU64 (e.base + BitVec.ofNat 64 k * 4096#64) = p ↔
        0xFFFF800000000000#64 = 0xFFFF800000000000#64) :=
  direct_map_offset_iff _ _ Sample.smallMap 0xFFFF800000000000#64 0#64
    ⟨⟨0x1000#64, 0x9E000#64, .usable⟩, by decide, rfl⟩
    (by rw [Sample.palloc_smallMap]; decide)

/-- With another offset than the one in the conversions `VA2PA` of a frame that
`palloc` returns is not its physical address. -/
theorem conversions_miss_offset :
    ¬ ∀ (m mem : Memory) (entries : List MemmapEntry) (offset beyond : BitVec 64),
      offset ≠ 0#64 → (∃ e ∈ entries, e.type = .usable) →
      (palloc ((kmainPmm m entries offset beyond).withMem mem)).1 ≠ NULL →
        va2pa (palloc ((kmainPmm m entries offset beyond).withMem mem)).1 =
          (palloc ((kmainPmm m entries offset beyond).withMem mem)).1 - offset := by
  intro hclaim
  have hphys := hclaim (fun _ => 0#8) (fun _ => 0#8) Sample.smallMap 0xFFFF888000000000#64
    0#64 (by decide) ⟨⟨0x1000#64, 0x9E000#64, .usable⟩, by decide, rfl⟩
    (by rw [Sample.palloc_smallMap]; decide)
  rw [Sample.palloc_smallMap] at hphys
  exact absurd hphys (by decide)

end Asnu
