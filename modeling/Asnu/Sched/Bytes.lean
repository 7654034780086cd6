import Asnu.Sched.Record

/-!
What the calls of `scheduler.c` do to the bytes of the records. Records that are
different frames and hold no byte of the bitmap stay what they are, whatever is
stored to another one, as long as the word that `create_proc` writes to a stack is
neither in a record nor in the bitmap.
-/

namespace Asnu

open Lib

theorem Pmm.firstFree_of_bits {s t : Pmm} (hfile : t.file = s.file)
    (hbits : ∀ j < s.bitCount, t.bit j = s.bit j) : t.firstFree = s.firstFree := by
  have hcount : t.bitCount = s.bitCount := by rw [bitCount, bitCount, hfile]
  unfold firstFree
  rw [hcount]
  refine first_congr (fun j hj => ?_)
  rw [Bitmap.test_eq_not_bit, Bitmap.test_eq_not_bit]
  exact congrArg not (hbits j hj)

/-- The byte of a bit is not one of these. -/
theorem Pmm.Spares.mark_out {s : Pmm} {p x : Ptr} {n : Nat} (h : s.Spares p n) {i : Nat}
    (hi : i < s.bitCount) (hx : InRange p n x) : (s.mark i).mem x = s.mem x := by
  refine Bitmap.set_out _ ?_
  rintro rfl
  obtain ⟨k, hk, hslot⟩ := slot_eq_byte s hi
  rw [hslot] at hx
  exact h k hk hx

/-- Two records at different frames have no byte in common. -/
theorem Pmm.records_apart {s : Pmm} (h : s.Sized) {i j : Nat} (hi : i < s.bitCount)
    (hj : j < s.bitCount) (hij : i ≠ j) {x : Ptr} (hx : procLayout.Has (s.frame i) x) :
    ¬ procLayout.Has (s.frame j) x := by
  have hcount := h.bitCount_le
  have hsize : procLayout.size ≤ 4096 := by decide
  have hpage : InRange (s.frame i) 4096 x := lt_of_lt_of_le hx hsize
  exact fun hx' => s.frame_inRange_apart (by omega) (by omega) hij hpage (lt_of_lt_of_le hx' hsize)

/-- The records at `live` are different frames that are taken, and hold no byte of the
bitmap. -/
structure Pmm.Houses (s : Pmm) (live : List Ptr) : Prop where
  sized : s.Sized
  owned : ∀ p ∈ live, p ≠ NULL ∧ ∃ i < s.bitCount, p = s.frame i ∧ s.bit i = true
  distinct : live.Nodup
  spared : ∀ p ∈ live, s.Spares p procLayout.size

/-- The record that `create_proc` gets and the word it writes to the stack hold no byte of
the bitmap, and the word is in no record. -/
structure Pmm.Separate (s : Pmm) (live : List Ptr) (a : ProcArgs) : Prop where
  record : s.Spares (kalloc s sizeofProcedure).1 procLayout.size
  word : s.Spares a.stackTop 8
  apart : ∀ q ∈ (kalloc s sizeofProcedure).1 :: live,
    ∀ x, InRange a.stackTop 8 x → ¬ procLayout.Has q x

/-- The word at the top of the stack, byte by byte. -/
def ProcArgs.stackIn (a : ProcArgs) (q : Ptr) : Prop :=
  ∃ d < 8, procLayout.Has q (a.stackTop + BitVec.ofNat 64 d)

instance ProcArgs.decidableStackIn (a : ProcArgs) (q : Ptr) : Decidable (a.stackIn q) :=
  inferInstanceAs (Decidable (∃ d < 8, _))

theorem not_stackIn_iff {a : ProcArgs} {q : Ptr} :
    ¬ a.stackIn q ↔ ∀ x, InRange a.stackTop 8 x → ¬ procLayout.Has q x := by
  rw [forall_inRange_iff (by decide), ProcArgs.stackIn]
  simp only [not_exists, not_and]

-- over the list, not over all addresses
instance Pmm.decidableSeparate (s : Pmm) (live : List Ptr) (a : ProcArgs) :
    Decidable (s.Separate live a) :=
  decidable_of_iff
    (s.Spares (kalloc s sizeofProcedure).1 procLayout.size ∧ s.Spares a.stackTop 8 ∧
      ((kalloc s sizeofProcedure).1 :: live).all (fun q => ¬ a.stackIn q) = true)
    ⟨fun h => ⟨h.1, h.2.1, fun q hq => not_stackIn_iff.mp (by
        simpa using List.all_eq_true.mp h.2.2 q hq)⟩,
      fun h => ⟨h.record, h.word, List.all_eq_true.mpr (fun q hq => by
        simpa using not_stackIn_iff.mpr (h.apart q hq))⟩⟩

namespace SchedMem

/-- The state after `p` is appended to the list and made ready. -/
def appended (s : SchedMem) (p : Ptr) : SchedMem :=
  { s.setState p .procReady with procList := s.procList ++ [p] }

/-- The state after the first process `p` is appended and made current. -/
def started (s : SchedMem) (p : Ptr) : SchedMem :=
  { (s.setState p .procReady).setState p .procRunning with
    procList := s.procList ++ [p]
    currentProc := p }

/-- A registration is refused, makes the process ready, or, when nobody is
current, makes it current. -/
theorem registerProc_cases (s : SchedMem) (p : Ptr) :
    (maxProcs ≤ s.procCount ∧ s.registerProc p = s) ∨
    (s.procCount < maxProcs ∧ s.currentProc = NULL ∧ s.registerProc p = s.started p) ∨
    (s.procCount < maxProcs ∧ s.currentProc ≠ NULL ∧ s.registerProc p = s.appended p) := by
  unfold registerProc
  by_cases hfull : s.procCount ≥ maxProcs
  · exact Or.inl ⟨hfull, if_pos hfull⟩
  · rw [if_neg hfull]
    have hlt : s.procCount < maxProcs := Nat.lt_of_not_le hfull
    by_cases hcur : s.currentProc = NULL
    · exact Or.inr (Or.inl ⟨hlt, hcur, if_pos hcur⟩)
    · exact Or.inr (Or.inr ⟨hlt, hcur, if_neg hcur⟩)

/-- The current process is left, if there is one. -/
def left (s : SchedMem) (cpu : Cpu) : SchedMem :=
  if s.currentProc = NULL then s
  else (s.store s.currentProc (savedRegs cpu)).setState s.currentProc .procReady

/-- `next` is taken up. -/
def takenUp (s : SchedMem) (next : Ptr) : SchedMem :=
  { s.setState next .procRunning with currentProc := next }

theorem contextSwitch_cases (s : SchedMem) (cpu : Cpu) :
    (s.contextSwitch cpu = (s, none) ∧ ∀ p, ¬ s.Dispatches p) ∨
    ∃ next, s.Dispatches next ∧ s.contextSwitch cpu =
      ((s.left cpu).takenUp next, some (loadedRegs (((s.left cpu).takenUp next).record next))) := by
  unfold contextSwitch
  by_cases hnull : s.findNextProc = NULL
  · rw [if_pos hnull]
    exact Or.inl ⟨rfl, fun p h => h.2.1 (h.1.symm.trans hnull)⟩
  · by_cases hsame : s.currentProc = s.findNextProc
    · rw [if_neg hnull, if_pos hsame]
      exact Or.inl ⟨rfl, fun p h => h.2.2 (hsame.trans h.1)⟩
    · refine Or.inr ⟨s.findNextProc, ⟨rfl, hnull, hsame⟩, ?_⟩
      rw [if_neg hnull, if_neg hsame]
      rfl

/-- The state after `create_proc` has got the frame `i`. -/
def spawned (s : SchedMem) (i : Nat) (a : ProcArgs) : SchedMem :=
  { s with
    pmm := (s.pmm.mark i).withMem (initRecord (s.pmm.mark i).mem (s.pmm.frame i) s.nextPid a)
    nextPid := s.nextPid + 1#32 }

/-- `create_proc` fails and leaves the memory alone but for a bit, or fills the first free
frame. -/
theorem createProc_cases (s : SchedMem) (a : ProcArgs) :
    (s.pmm.firstFree = none ∧ s.createProc a = (NULL, s)) ∨
    (∃ i, s.pmm.firstFree = some i ∧ s.pmm.frame i = NULL ∧
      s.createProc a = (NULL, { s with pmm := s.pmm.mark i })) ∨
    ∃ i, s.pmm.firstFree = some i ∧ s.pmm.frame i ≠ NULL ∧
      s.createProc a = (s.pmm.frame i, s.spawned i a) := by
  have hkalloc := @kalloc_eq s.pmm sizeofProcedure (by decide)
  cases hfree : s.pmm.firstFree with
  | none =>
      rw [hfree] at hkalloc
      exact Or.inl ⟨rfl, by simp [createProc, hkalloc]⟩
  | some i =>
      rw [hfree] at hkalloc
      refine Or.inr ?_
      by_cases hnull : s.pmm.frame i = NULL
      · exact Or.inl ⟨i, rfl, hnull, by simp [createProc, hkalloc, hnull]⟩
      · exact Or.inr ⟨i, rfl, hnull, by simp [createProc, hkalloc, hnull, spawned]⟩

/-- Nothing but the new record and the word on the stack is stored to. -/
theorem spawned_out (s : SchedMem) (i : Nat) (a : ProcArgs) {x : Ptr}
    (hx : ¬ procLayout.Has (s.pmm.frame i) x) (hword : ¬ InRange a.stackTop 8 x) :
    (s.spawned i a).pmm.mem x = (s.pmm.mark i).mem x :=
  initRecord_out _ _ _ _ hx hword

end SchedMem

namespace Pmm.Separate

variable {s : SchedMem} {live : List Ptr} {a : ProcArgs} (h : s.pmm.Separate live a) {i : Nat}
  (hfree : s.pmm.firstFree = some i)
include h hfree

theorem record_frame : s.pmm.Spares (s.pmm.frame i) procLayout.size := by
  have hrecord := h.record
  rwa [kalloc_eq s.pmm (by decide), hfree] at hrecord

theorem apart_frame {q : Ptr} (hq : q ∈ s.pmm.frame i :: live) {x : Ptr}
    (hx : InRange a.stackTop 8 x) : ¬ procLayout.Has q x := by
  have hapart := h.apart q
  rw [kalloc_eq s.pmm (by decide), hfree] at hapart
  exact hapart hq x hx

theorem bit_spawned {j : Nat} (hj : j < s.pmm.bitCount) :
    (s.spawned i a).pmm.bit j = (s.pmm.mark i).bit j := by
  refine Pmm.bit_of_bytes_eq (s := s.pmm.mark i) (t := (s.spawned i a).pmm) rfl (fun k hk => ?_) hj
  exact s.spawned_out i a (h.record_frame hfree k hk) (h.word k hk)

/-- The new record shows what `create_proc` is to prepare. -/
theorem record_spawned :
    (s.spawned i a).record (s.pmm.frame i) = (initProc s.nextPid a).field :=
  get_initRecord _ _ _ _ (fun _ hx => h.apart_frame hfree List.mem_cons_self hx)

end Pmm.Separate

namespace Pmm.Houses

variable {s : SchedMem} {live : List Ptr} (h : s.pmm.Houses live)
include h

theorem apart {p q : Ptr} (hp : p ∈ live) (hq : q ∈ live) (hpq : p ≠ q) {x : Ptr}
    (hx : procLayout.Has p x) : ¬ procLayout.Has q x := by
  obtain ⟨_, i, hi, rfl, _⟩ := h.owned p hp
  obtain ⟨_, j, hj, rfl, _⟩ := h.owned q hq
  exact Pmm.records_apart h.sized hi hj (fun hij => hpq (hij ▸ rfl)) hx

/-- Houses stand as long as the bits of their frames do. -/
theorem of_bits {t : Pmm} {rest : List Ptr} (hfile : t.file = s.pmm.file)
    (hsub : ∀ p ∈ rest, p ∈ live) (hrest : rest.Nodup)
    (hbits : ∀ i < s.pmm.bitCount, s.pmm.frame i ∈ rest → s.pmm.bit i = true →
      t.bit i = true) :
    t.Houses rest where
  sized := h.sized.of_file_eq hfile
  owned := by
    intro p hp
    obtain ⟨hnull, i, hi, rfl, hset⟩ := h.owned p (hsub p hp)
    have hcount : t.bitCount = s.pmm.bitCount := by rw [Pmm.bitCount, Pmm.bitCount, hfile]
    exact ⟨hnull, i, hcount ▸ hi, (Pmm.frame_of_file_eq hfile i).symm, hbits i hi hp hset⟩
  distinct := hrest
  spared := fun p hp => (h.spared p (hsub p hp)).of_file_eq hfile

/-! A store to a record that is one of them. -/

theorem bit_store {p : Ptr} (hp : p ∈ live) (stores : List (ProcField × Nat)) {j : Nat}
    (hj : j < s.pmm.bitCount) : (s.store p stores).pmm.bit j = s.pmm.bit j :=
  (h.spared p hp).bit_eq (t := (s.store p stores).pmm) rfl
    (fun _ hx => Layout.putAll_out _ stores hx) hj

theorem store {p : Ptr} (hp : p ∈ live) (stores : List (ProcField × Nat)) :
    (s.store p stores).pmm.Houses live :=
  h.of_bits rfl (fun _ hq => hq) h.distinct
    (fun _ hi _ hset => (h.bit_store hp stores hi).trans hset)

theorem record_store_ne {p q : Ptr} (hp : p ∈ live) (hq : q ∈ live) (hqp : q ≠ p)
    (stores : List (ProcField × Nat)) : (s.store p stores).record q = s.record q :=
  Layout.get_putAll_apart _ stores (fun _ hx => h.apart hq hp hqp hx)

/-! A bit that is set for a frame. -/

section Taken

variable {i : Nat} (hfree : s.pmm.firstFree = some i)
include hfree

theorem notMem : s.pmm.frame i ∉ live := by
  intro hmem
  have hcount := h.sized.bitCount_le
  obtain ⟨hi, hclear, _⟩ := Pmm.firstFree_eq_some.mp hfree
  obtain ⟨_, j, hj, hij, hset⟩ := h.owned _ hmem
  rw [s.pmm.frame_inj (by omega) (by omega) hij] at hclear
  rw [hclear] at hset
  exact Bool.noConfusion hset

theorem bit_mark_of_set {j : Nat} (hj : j < s.pmm.bitCount) (hset : s.pmm.bit j = true) :
    (s.pmm.mark i).bit j = true := by
  rw [h.sized.bit_mark (Pmm.firstFree_eq_some.mp hfree).1 hj, hset, ite_self]

theorem mark : (s.pmm.mark i).Houses live :=
  h.of_bits rfl (fun _ hq => hq) h.distinct
    (fun _ hj _ hset => h.bit_mark_of_set hfree hj hset)

theorem record_mark {p : Ptr} (hp : p ∈ live) :
    ({ s with pmm := s.pmm.mark i } : SchedMem).record p = s.record p :=
  Layout.get_congr (fun _ hx =>
    (h.spared p hp).mark_out (Pmm.firstFree_eq_some.mp hfree).1 hx)

variable {a : ProcArgs} (hsep : s.pmm.Separate live a)
include hsep

theorem spawned (hnull : s.pmm.frame i ≠ NULL) :
    (s.spawned i a).pmm.Houses (s.pmm.frame i :: live) where
  sized := h.sized.of_file_eq rfl
  owned := by
    have hi := (Pmm.firstFree_eq_some.mp hfree).1
    intro p hp
    rcases List.mem_cons.mp hp with rfl | hp
    · refine ⟨hnull, i, hi, rfl, ?_⟩
      rw [hsep.bit_spawned hfree hi, h.sized.bit_mark hi hi, if_pos rfl]
    · obtain ⟨hne, j, hj, hptr, hset⟩ := h.owned p hp
      refine ⟨hne, j, hj, hptr, ?_⟩
      rw [hsep.bit_spawned hfree hj]
      exact h.bit_mark_of_set hfree hj hset
  distinct := List.nodup_cons.mpr ⟨h.notMem hfree, h.distinct⟩
  spared := by
    intro p hp
    rcases List.mem_cons.mp hp with rfl | hp
    · exact hsep.record_frame hfree
    · exact h.spared p hp

/-- The others show what they have shown. -/
theorem record_spawned_of_mem {q : Ptr} (hq : q ∈ live) :
    (s.spawned i a).record q = s.record q := by
  have hi := (Pmm.firstFree_eq_some.mp hfree).1
  have hne : q ≠ s.pmm.frame i := fun heq => h.notMem hfree (heq ▸ hq)
  refine Layout.get_congr (fun x hx => ?_)
  have hword : ¬ InRange a.stackTop 8 x := fun hin =>
    hsep.apart_frame hfree (List.mem_cons_of_mem _ hq) hin hx
  have hother : ¬ procLayout.Has (s.pmm.frame i) x := by
    obtain ⟨_, j, hj, rfl, _⟩ := h.owned q hq
    exact Pmm.records_apart h.sized hj hi (fun hij => hne (congrArg s.pmm.frame hij)) hx
  rw [s.spawned_out i a hother hword]
  exact (h.spared q hq).mark_out hi hx

end Taken

/-! A frame given back. -/

section Freed

variable {p : Ptr} (hp : p ∈ live) (hmiss : s.pmm.Spares p 4096)
include hp hmiss

theorem kfree (rest : List Ptr) (hrest : rest.Nodup) (hsub : ∀ q ∈ rest, q ∈ live ∧ q ≠ p) :
    (Asnu.kfree s.pmm p).Houses rest := by
  have hcount := h.sized.bitCount_le
  obtain ⟨_, i, hi, rfl, _⟩ := h.owned p hp
  refine h.of_bits (kfree_file _ _) (fun q hq => (hsub q hq).1) hrest ?_
  intro j hj hmem hset
  have hji : j ≠ i := fun heq => (hsub _ hmem).2 (heq ▸ rfl)
  exact (h.sized.bit_kfree hi hj hji hmiss).trans hset

theorem record_kfree {q : Ptr} (hq : q ∈ live) (hqp : q ≠ p) :
    ({ s with pmm := Asnu.kfree s.pmm p } : SchedMem).record q = s.record q := by
  have hcount := h.sized.bitCount_le
  refine Layout.get_congr (fun x hx => kfree_out s.pmm ?_ ?_)
  · obtain ⟨_, i, hi, rfl, _⟩ := h.owned p hp
    obtain ⟨_, j, hj, rfl, _⟩ := h.owned q hq
    have hsize : procLayout.size ≤ 4096 := by decide
    exact s.pmm.frame_inRange_apart (by omega) (by omega)
      (fun hij => hqp (congrArg s.pmm.frame hij)) (lt_of_lt_of_le hx hsize)
  · rintro j hj rfl
    obtain ⟨k, hk, hslot⟩ := slot_eq_byte s.pmm hj
    rw [hslot] at hx
    exact h.spared q hq k hk hx

end Freed

end Pmm.Houses

/-- The variables of the scheduler before `scheduler_init`. -/
def Sample.untouched : SchedMem where
  pmm := pmmInit (fun _ => 0#8) 0#64 0#64 0#64 0#64
  procList := []
  currentProc := NULL
  nextPid := 0#32

end Asnu
