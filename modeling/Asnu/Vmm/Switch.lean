import Asnu.Vmm.Init
import Asnu.Vmm.PageMap

/-!
What `vmm_init` makes of any value of CR3. The pointer it copies from is CR3
moved into the direct map, with the cache-control bits still in it, so with one
of them set the copy starts inside the PML4 and ends behind it.
-/

namespace Asnu

open Lib

/-- The value of CR3 for a root, with the bits PWT and PCD. -/
def cr3Of (root : Frame) (pwt pcd : Bool) : BitVec 64 :=
  root.address ||| (if pwt then 0x8#64 else 0#64) ||| (if pcd then 0x10#64 else 0#64)

/-- By how many entries those bits move the copy. -/
def skew (pwt pcd : Bool) : Nat := (if pwt then 1 else 0) + (if pcd then 2 else 0)

theorem skew_le (pwt pcd : Bool) : skew pwt pcd ≤ 3 := by
  cases pwt <;> cases pcd <;> decide

/-- The pointer that `vmm_init` copies from. -/
theorem pa2va_cr3Of (root : Frame) (pwt pcd : Bool) :
    pa2va (cr3Of root pwt pcd) = tablePtr root + BitVec.ofNat 64 (8 * skew pwt pcd) := by
  have hlow : ∀ low : BitVec 64, low.toNat < 4096 →
      pa2va (root.address ||| low) = tablePtr root + low := by
    intro low hlt
    have hor := address_or_toNat root hlt
    have haddr := root.address_toNat
    rw [pa2va, tablePtr, pa2vaU64]
    bv_omega
  have hcr3 : cr3Of root pwt pcd =
      root.address ||| BitVec.ofNat 64 (8 * skew pwt pcd) := by
    rw [cr3Of, BitVec.or_assoc]
    cases pwt <;> cases pcd <;> rfl
  rw [hcr3]
  refine hlow _ ?_
  cases pwt <;> cases pcd <;> decide

theorem tablePtr_add_toNat (f : Frame) (d : Nat) :
    (tablePtr f + BitVec.ofNat 64 d).toNat =
      (f.toNat * 4096 + d + 0xFFFF800000000000) % 2 ^ 64 := by
  rw [BitVec.toNat_add, tablePtr_toNat, BitVec.toNat_ofNat, ← Nat.add_mod,
    Nat.add_right_comm]

/-- Where bytes behind two frames can be the same. -/
theorem tablePtr_add_inj {f g : Frame} {d e : Nat} (hd : d < 8192) (he : e < 8192)
    (h : tablePtr f + BitVec.ofNat 64 d = tablePtr g + BitVec.ofNat 64 e) :
    f.toNat * 4096 + d = g.toNat * 4096 + e := by
  have hf := f.isLt
  have hg := g.isLt
  have hnat := congrArg BitVec.toNat h
  rw [tablePtr_add_toNat, tablePtr_add_toNat] at hnat
  omega

/-- A byte close behind `r` lies in `f` only when `f` is the frame behind `r`. -/
theorem next_frame {f r : Frame} {d e : Nat} (hd : d < 4096) (he : e < 24)
    (h : tablePtr r + 4096#64 + BitVec.ofNat 64 e = tablePtr f + BitVec.ofNat 64 d) :
    tablePtr f = tablePtr r + 4096#64 := by
  have hnear : tablePtr r + BitVec.ofNat 64 (4096 + e) = tablePtr f + BitVec.ofNat 64 d := by
    rw [← h, BitVec.add_assoc, BitVec.ofNat_add]
  have hsame := tablePtr_add_inj (by omega) (by omega) hnear
  have hfr : f.toNat = r.toNat + 1 := by omega
  have htf := tablePtr_toNat f
  have htr := tablePtr_add_toNat r 4096
  rw [hfr, Nat.succ_mul, ← htr] at htf
  exact BitVec.eq_of_toNat_eq htf

theorem entryPtr_add (f : Frame) (i : Index) (d : Nat) :
    entryPtr f i + BitVec.ofNat 64 d = tablePtr f + BitVec.ofNat 64 (8 * i.toNat + d) := by
  have hentry : i.setWidth 64 * 8#64 = BitVec.ofNat 64 (8 * i.toNat) := by
    rw [Nat.mul_comm, BitVec.ofNat_mul, BitVec.ofNat_toNat]
  rw [entryPtr, hentry, BitVec.add_assoc, ← BitVec.ofNat_add]

section Copy

variable {f r : Frame} {k : Nat}

/-- The copy runs in two parts: up to the end of `r`, and behind it. -/
theorem memcpy_parts (m : Memory) (hk : k ≤ 3) (dest src : Ptr) :
    memcpy m dest src 4096#64 =
      memcpyLoop dest src (8 * k) (4096 - 8 * k) (memcpyLoop dest src (4096 - 8 * k) 0 m) := by
  have hlen : (4096#64).toNat = 4096 - 8 * k + 8 * k := by
    have hfull : (4096#64).toNat = 4096 := rfl
    omega
  rw [memcpy, hlen, memcpyLoop_add, Nat.zero_add]

variable (m : Memory) (hne : f ≠ r) (hk : k ≤ 3)
include hne hk

theorem first_part (x : Ptr) :
    memcpyLoop (tablePtr f) (tablePtr r + BitVec.ofNat 64 (8 * k)) (4096 - 8 * k) 0 m x =
      if (x - tablePtr f).toNat < 4096 - 8 * k then
        m (tablePtr r + BitVec.ofNat 64 (8 * k) + (x - tablePtr f)) else m x := by
  rw [memcpyLoop_apply _ _ _ 0 m (by omega)]
  · simp only [Nat.zero_le, true_and, Nat.zero_add]
  · intro j l _ hjl hl heq
    have hsrc : tablePtr r + BitVec.ofNat 64 (8 * k) + BitVec.ofNat 64 l =
        tablePtr r + BitVec.ofNat 64 (8 * k + l) := by
      rw [BitVec.add_assoc, BitVec.ofNat_add]
    have hf := inRange_add (tablePtr f) (d := j) (n := 4096) (by omega) (by decide)
    have hr := inRange_add (tablePtr r) (d := 8 * k + l) (n := 4096) (by omega) (by decide)
    rw [heq, hsrc] at hf
    exact tables_apart hne hf hr

omit hne in
theorem second_part (x : Ptr) :
    memcpyLoop (tablePtr f) (tablePtr r + BitVec.ofNat 64 (8 * k)) (8 * k) (4096 - 8 * k) m x =
      if 4096 - 8 * k ≤ (x - tablePtr f).toNat ∧ (x - tablePtr f).toNat < 4096 then
        m (tablePtr r + BitVec.ofNat 64 (8 * k) + (x - tablePtr f)) else m x := by
  have hend : 4096 - 8 * k + 8 * k = 4096 := by omega
  rw [memcpyLoop_apply _ _ _ _ m (by omega), hend]
  intro j l hj hjl hl heq
  -- what is read lies in the first bytes of the next frame, what is written in the last
  rw [BitVec.add_assoc, ← BitVec.ofNat_add] at heq
  have hsame := tablePtr_add_inj (by omega) (by omega) heq
  omega

/-- Away from its end the new table holds what `r` holds `8 * k` bytes further on. -/
theorem copied_inside {d : Nat} (hd : d < 4096 - 8 * k) :
    memcpy m (tablePtr f) (tablePtr r + BitVec.ofNat 64 (8 * k)) 4096#64
        (tablePtr f + BitVec.ofNat 64 d) = m (tablePtr r + BitVec.ofNat 64 (8 * k + d)) := by
  have hnat := offset_toNat (tablePtr f) (d := d) (by omega)
  rw [memcpy_parts m hk, second_part _ hk, hnat, if_neg (by omega),
    first_part m hne hk, hnat, if_pos hd, offset_sub, BitVec.add_assoc, BitVec.ofNat_add]

/-- At its end it holds the bytes behind `r`, or, when that is the new table itself,
what it holds already. -/
theorem copied_behind {e : Nat} (he : e < 8 * k) :
    memcpy m (tablePtr f) (tablePtr r + BitVec.ofNat 64 (8 * k)) 4096#64
        (tablePtr f + BitVec.ofNat 64 (4096 - 8 * k + e)) =
      if tablePtr f = tablePtr r + 4096#64 then m (tablePtr r + BitVec.ofNat 64 (8 * k + e))
      else m (tablePtr r + 4096#64 + BitVec.ofNat 64 e) := by
  have hnat := offset_toNat (tablePtr f) (d := 4096 - 8 * k + e) (by omega)
  have hread : tablePtr r + BitVec.ofNat 64 (8 * k) + BitVec.ofNat 64 (4096 - 8 * k + e) =
      tablePtr r + 4096#64 + BitVec.ofNat 64 e := by
    have hsum : 8 * k + (4096 - 8 * k + e) = 4096 + e := by omega
    rw [BitVec.add_assoc, ← BitVec.ofNat_add, hsum, BitVec.ofNat_add, BitVec.add_assoc]
  rw [memcpy_parts m hk, second_part _ hk, hnat, if_pos (by omega), offset_sub, hread]
  split
  · next hnext =>
      rw [← hnext, first_part m hne hk, offset_toNat _ (by omega), if_pos (by omega),
        offset_sub, BitVec.add_assoc, BitVec.ofNat_add]
  · next hnext =>
      rw [first_part m hne hk, if_neg]
      intro hin
      generalize hd : (tablePtr r + 4096#64 + BitVec.ofNat 64 e - tablePtr f).toNat = d at hin
      have hbyte := (eq_offset_iff (tablePtr f) _ (by omega)).mpr hd
      exact hnext (next_frame (by omega) (by omega) hbyte)

/-- The same for entries. -/
theorem rd_copied_inside {i j : Index} (hij : j.toNat = i.toNat + k) :
    rd (memcpy m (tablePtr f) (tablePtr r + BitVec.ofNat 64 (8 * k)) 4096#64) f i =
      rd m r j := by
  have hj := j.isLt
  refine congrArg (BitVec.ofNat 64) (Memory.loadBytes_congr (fun d hd => ?_))
  have hoff : 8 * j.toNat + d = 8 * k + (8 * i.toNat + d) := by omega
  rw [entryPtr_add, entryPtr_add, copied_inside m hne hk (by omega), hoff]

theorem rd_copied_behind {i j : Index} (hij : j.toNat + 512 = i.toNat + k) :
    rd (memcpy m (tablePtr f) (tablePtr r + BitVec.ofNat 64 (8 * k)) 4096#64) f i =
      if tablePtr f = tablePtr r + 4096#64 then
        m.load64 (tablePtr r + BitVec.ofNat 64 (8 * k + 8 * j.toNat))
      else m.load64 (tablePtr r + 4096#64 + BitVec.ofNat 64 (8 * j.toNat)) := by
  have hi := i.isLt
  have hbyte : ∀ d < 8, memcpy m (tablePtr f) (tablePtr r + BitVec.ofNat 64 (8 * k)) 4096#64
      (entryPtr f i + BitVec.ofNat 64 d) =
        if tablePtr f = tablePtr r + 4096#64 then
          m (tablePtr r + BitVec.ofNat 64 (8 * k + (8 * j.toNat + d)))
        else m (tablePtr r + 4096#64 + BitVec.ofNat 64 (8 * j.toNat + d)) := by
    intro d hd
    have hoff : 8 * i.toNat + d = 4096 - 8 * k + (8 * j.toNat + d) := by omega
    rw [entryPtr_add, hoff, copied_behind m hne hk (by omega)]
  split
  · next hnext =>
      refine congrArg (BitVec.ofNat 64) (Memory.loadBytes_congr (fun d hd => ?_))
      rw [hbyte d hd, if_pos hnext, BitVec.add_assoc, ← BitVec.ofNat_add, Nat.add_assoc]
  · next hnext =>
      refine congrArg (BitVec.ofNat 64) (Memory.loadBytes_congr (fun d hd => ?_))
      rw [hbyte d hd, if_neg hnext, BitVec.add_assoc (tablePtr r + 4096#64), ← BitVec.ofNat_add]

end Copy

namespace Vmm

/-- CR3 is the address of a table with the entries of the old PML4, and no
translation is different. -/
structure Switches (s s' : Vmm) : Prop where
  aligned : s'.cr3 = s'.root.address
  entries : ∀ i, rd s'.pmm.mem s'.root i = rd s.pmm.mem s.root i
  translate : ∀ page, s'.translate page = s.translate page

/-- Entry `j` of what `vmm_init` reads behind the PML4 when it starts `k` entries too
far on. When it copies into the frame behind the PML4 it reads its own copy there. -/
def behind (s : Vmm) (f : Frame) (k : Nat) (j : Index) : Entry :=
  if tablePtr f = tablePtr s.root + 4096#64 then
    s.palloc.2.pmm.mem.load64 (tablePtr s.root + BitVec.ofNat 64 (8 * k + 8 * j.toNat))
  else s.palloc.2.pmm.mem.load64 (tablePtr s.root + 4096#64 + BitVec.ofNat 64 (8 * j.toNat))

/-- Every entry of the PML4 is the one `k` places further on. -/
def Repeats (s : Vmm) (f : Frame) (k : Nat) : Prop :=
  (∀ i j : Index, j.toNat = i.toNat + k → rd s.pmm.mem s.root j = rd s.pmm.mem s.root i) ∧
    ∀ i j : Index, j.toNat + 512 = i.toNat + k → s.behind f k j = rd s.pmm.mem s.root i

theorem repeats_zero (s : Vmm) (f : Frame) : s.Repeats f 0 := by
  refine ⟨fun i j hij => ?_, fun i j hij => ?_⟩
  · rw [BitVec.eq_of_toNat_eq hij]
  · exact absurd i.isLt (by omega)

section Boot

variable {s : Vmm} {f : Frame} (h : s.Grants f)
include h

/-- The tables below the root stay, so only its entries have to be compared. -/
theorem Grants.switches_iff : s.Switches (vmmInit s) ↔
    ∀ i, rd (vmmInit s).pmm.mem f i = rd s.pmm.mem s.root i := by
  have hroot := vmmInit_root h.ptr
  constructor
  · intro hswitch i
    have hentry := hswitch.entries i
    rwa [hroot] at hentry
  · intro hentries
    refine ⟨?_, by rw [hroot]; exact hentries, fun page => ?_⟩
    · have hcr3 : (vmmInit s).cr3 = va2pa s.palloc.1 := rfl
      rw [hcr3, hroot, h.ptr, va2pa, tablePtr, pa2vaU64, BitVec.add_sub_cancel]
    · exact congrArg (Translation.ofEntries page) (h.entries_vmmInit hentries page)

variable {pwt pcd : Bool} (hcr3 : s.cr3 = cr3Of s.root pwt pcd)
include hcr3

theorem Grants.mem_vmmInit :
    (vmmInit s).pmm.mem = Asnu.memcpy s.palloc.2.pmm.mem (tablePtr f)
      (tablePtr s.root + BitVec.ofNat 64 (8 * skew pwt pcd)) 4096#64 := by
  have hsrc := pa2va_cr3Of s.root pwt pcd
  rw [← h.ptr, ← hsrc, ← hcr3, vmmInit_eq, loadCr3_pmm, memcpy, withMem_mem]

theorem Grants.copied_iff : (∀ i, rd (vmmInit s).pmm.mem f i = rd s.pmm.mem s.root i) ↔
    s.Repeats f (skew pwt pcd) := by
  have hskew := skew_le pwt pcd
  have hinside : ∀ i j : Index, j.toNat = i.toNat + skew pwt pcd →
      rd (vmmInit s).pmm.mem f i = rd s.pmm.mem s.root j := by
    intro i j hij
    rw [h.mem_vmmInit hcr3, rd_copied_inside _ h.ne_root hskew hij, h.rd_palloc ⟨[], rfl⟩]
  have hbehind : ∀ i j : Index, j.toNat + 512 = i.toNat + skew pwt pcd →
      rd (vmmInit s).pmm.mem f i = s.behind f (skew pwt pcd) j := by
    intro i j hij
    rw [h.mem_vmmInit hcr3, rd_copied_behind _ h.ne_root hskew hij, behind]
  constructor
  · intro hsame
    exact ⟨fun i j hij => (hinside i j hij).symm.trans (hsame i),
      fun i j hij => (hbehind i j hij).symm.trans (hsame i)⟩
  · rintro ⟨hrepeat, hend⟩ i
    have hi := i.isLt
    by_cases hlt : i.toNat + skew pwt pcd < 512
    · have hj : (BitVec.ofNat 9 (i.toNat + skew pwt pcd)).toNat = i.toNat + skew pwt pcd := by
        rw [BitVec.toNat_ofNat, Nat.mod_eq_of_lt hlt]
      rw [hinside i _ hj, hrepeat i _ hj]
    · have hj : (BitVec.ofNat 9 (i.toNat + skew pwt pcd - 512)).toNat + 512 =
          i.toNat + skew pwt pcd := by
        rw [BitVec.toNat_ofNat, Nat.mod_eq_of_lt (by omega)]
        omega
      rw [hbehind i _ hj, hend i _ hj]

end Boot

end Vmm

/-- The frame is no table of the tree, and the allocator keeps its bitmap in none. -/
def Vmm.Apart (s : Vmm) (f : Frame) : Prop :=
  ¬ s.IsTable f ∧ s.RecordsApart

/-- When `palloc` answers with a frame apart from the tree, `vmm_init` switches to a copy of
the PML4 exactly when CR3 has neither bit set, or when the PML4 looks the same from where the
copy starts. -/
theorem vmm_init_switches_iff (s : Vmm) (f : Frame) (pwt pcd : Bool)
    (hcr3 : s.cr3 = cr3Of s.root pwt pcd) (hpointer : (palloc s.pmm).1 = tablePtr f)
    (hsuccess : (palloc s.pmm).1 ≠ NULL) :
    s.Apart f → (s.Switches (vmmInit s) ↔
      (pwt = false ∧ pcd = false) ∨ s.Repeats f (skew pwt pcd)) := by
  rintro ⟨hfresh, hrecords⟩
  have hgrants : s.Grants f := ⟨hpointer, hsuccess, hfresh, hrecords⟩
  rw [hgrants.switches_iff, hgrants.copied_iff hcr3]
  constructor
  · exact Or.inr
  · rintro (⟨rfl, rfl⟩ | hrepeats)
    · exact s.repeats_zero f
    · exact hrepeats

theorem vmm_init_switches_iff_plain : Sample.vmm.Switches (vmmInit Sample.vmm) :=
  (vmm_init_switches_iff Sample.vmm 8 false false (by decide) Sample.grants_vmm.pointer
    Sample.grants_vmm.success ⟨Sample.grants_vmm.fresh, Sample.grants_vmm.records⟩).mpr
    (Or.inl ⟨rfl, rfl⟩)

namespace Sample

/-- The same CPU with write-through caching of the PML4. -/
def writeThrough : Vmm := { vmm with cr3 := 0x1008#64 }

theorem root_writeThrough : writeThrough.root = vmm.root := by decide

theorem isTable_writeThrough (f : Frame) : writeThrough.IsTable f ↔ vmm.IsTable f := by
  have hnode : ∀ q, writeThrough.node q = vmm.node q := by
    intro q
    rw [Vmm.node, root_writeThrough]
    rfl
  simp only [Vmm.IsTable, hnode]

theorem grants_writeThrough : writeThrough.Grants 8 where
  pointer := grants_vmm.pointer
  success := grants_vmm.success
  fresh := fun h => grants_vmm.fresh ((isTable_writeThrough 8).mp h)
  records := fun g hg => grants_vmm.records g ((isTable_writeThrough g).mp hg)

theorem rd_root_vmm (i : Index) : rd vmm.pmm.mem 1 i = rd tables 1 i := by
  rw [vmm, Vmm.rd_storeLeaf, Radix.setEntry, if_neg (by simp)]
  rfl

end Sample

/-- With write-through set the new PML4 starts with the second entry of the old one. -/
theorem vmm_init_shifts_entries :
    ¬ ∀ (s : Vmm) (f : Frame) (pwt pcd : Bool), s.cr3 = cr3Of s.root pwt pcd →
      (palloc s.pmm).1 = tablePtr f → (palloc s.pmm).1 ≠ NULL → s.Switches (vmmInit s) := by
  intro hclaim
  have hcr3 : Sample.writeThrough.cr3 = cr3Of Sample.writeThrough.root true false := by decide
  have hgrants := Sample.grants_writeThrough
  have hswitch := hclaim Sample.writeThrough 8 true false hcr3 hgrants.pointer hgrants.success
  have hrepeat := ((hgrants.copied_iff hcr3).mp (hgrants.switches_iff.mp hswitch)).1 0 1 rfl
  have hroot : Sample.writeThrough.root = 1 := by decide
  have hmem : Sample.writeThrough.pmm.mem = Sample.vmm.pmm.mem := rfl
  rw [hroot, hmem, Sample.rd_root_vmm, Sample.rd_root_vmm] at hrepeat
  exact absurd hrepeat (by decide +kernel)

end Asnu
