import Asnu.Pmm.OneFrame

/-!
What the next owner of a frame finds in it. `kfree` zeroes the page that it
returns and owners write only to what they hold, so a frame that is free holds
zeros, or what was there before the allocator started.
-/

namespace Asnu

open Lib

/-- The ledger, and the pointers that have been freed so far. -/
structure Usage where
  ledger : Ledger
  freed : List Ptr

/-- A call, or a byte that the owner of a block stores. -/
inductive UsageEvent where
  | call (c : Call)
  | write (x : Ptr) (v : BitVec 8)

/-- The pointer that a call returns. -/
def Call.answer (s : Pmm) : Call → Ptr
  | .kalloc size => (Asnu.kalloc s size).1
  | .palloc => (Asnu.palloc s).1
  | .kfree _ => NULL

def Call.frees : Call → List Ptr
  | .kfree ptr => [ptr]
  | .kalloc _ | .palloc => []

namespace Usage

abbrev pmm (u : Usage) : Pmm := u.ledger.pmm

def start (s : Pmm) : Usage := { ledger := Ledger.start s, freed := [] }

def exec (u : Usage) : UsageEvent → Usage
  | .call c => { ledger := u.ledger.exec c, freed := c.frees ++ u.freed }
  | .write x v =>
      { u with ledger := { u.ledger with pmm := u.pmm.withMem (u.pmm.mem.poke x v) } }

/-- At most a page is asked for, only live blocks are freed, and only bytes of
live blocks are written. -/
def Allowed (u : Usage) : UsageEvent → Prop
  | .call (.kalloc size) => size ≠ 0#64 ∧ size.toNat ≤ 4096
  | .call .palloc => True
  | .call (.kfree ptr) => ∃ b ∈ u.ledger.live, b.ptr = ptr
  | .write x _ => ∃ b ∈ u.ledger.live, InRange b.ptr 4096 x

def Step (u : Usage) (e : UsageEvent) (u' : Usage) : Prop := u.Allowed e ∧ u' = u.exec e

/-- What a frame that is free holds: zeros once it has been freed, before that what
it held at the start. -/
def Scrubbed (m : Memory) (u : Usage) (i : Nat) : Prop :=
  u.pmm.bit i = false → ∀ x, InRange (u.pmm.frame i) 4096 x →
    u.pmm.mem x = if u.freed.contains (u.pmm.frame i) then 0#8 else m x

/-- Live blocks are marked and apart, the bitmap is in no frame, and all frames that
are free are scrubbed. -/
structure Kept (m : Memory) (u : Usage) : Prop where
  held : u.ledger.Held
  misses : ∀ i < u.pmm.bitCount, u.pmm.MissesBitmap (u.pmm.frame i)
  scrubbed : ∀ i < u.pmm.bitCount, u.Scrubbed m i

theorem kept_start {s : Pmm} (hsized : s.Sized)
    (hmiss : ∀ i < s.bitCount, s.MissesBitmap (s.frame i)) : (start s).Kept s.mem where
  held := Ledger.held_start hsized
  misses := hmiss
  scrubbed := by
    intro i _ _ x _
    rw [if_neg (by simp [start])]
    rfl

/-- A call that returns a frame has found it free, and marks it. -/
theorem answer_frame {u : Usage} {c : Call} (hnull : c.answer u.pmm ≠ NULL) :
    ∃ i, u.pmm.firstFree = some i ∧ c.answer u.pmm = u.pmm.frame i ∧
      (u.exec (.call c)).pmm = u.pmm.mark i := by
  have hfound : (palloc u.pmm).1 ≠ NULL → ∃ i, u.pmm.firstFree = some i ∧
      (palloc u.pmm).1 = u.pmm.frame i ∧ (palloc u.pmm).2 = u.pmm.mark i := by
    intro hne
    rw [palloc_eq] at hne ⊢
    cases hfree : u.pmm.firstFree with
    | none =>
        rw [hfree] at hne
        exact absurd rfl hne
    | some i => exact ⟨i, rfl, rfl, rfl⟩
  cases c with
  | kalloc size =>
      have hsize : size ≠ 0#64 := by
        rintro rfl
        exact hnull (by simp [Call.answer, kalloc])
      have hne : (kalloc u.pmm size).1 ≠ NULL := hnull
      change ∃ i, u.pmm.firstFree = some i ∧ (kalloc u.pmm size).1 = u.pmm.frame i ∧
        (kalloc u.pmm size).2 = u.pmm.mark i
      rw [kalloc_eq_palloc u.pmm hsize] at hne ⊢
      exact hfound hne
  | palloc => exact hfound hnull
  | kfree ptr => exact absurd rfl hnull

namespace Kept

variable {m : Memory} {u : Usage} (h : u.Kept m)
include h

/-- A call or a store that may change some bytes, but of the free frames only those
that it zeroes and frees. -/
theorem of_bytes {u' : Usage} (hheld : u'.ledger.Held) (hfile : u'.pmm.file = u.pmm.file)
    (hkept : ∀ i < u.pmm.bitCount, u'.pmm.bit i = false →
      (u.pmm.bit i = false ∧ (u.pmm.frame i ∈ u'.freed ↔ u.pmm.frame i ∈ u.freed) ∧
        ∀ x, InRange (u.pmm.frame i) 4096 x → u'.pmm.mem x = u.pmm.mem x) ∨
      (u.pmm.frame i ∈ u'.freed ∧
        ∀ x, InRange (u.pmm.frame i) 4096 x → u'.pmm.mem x = 0#8)) : u'.Kept m where
  held := hheld
  misses := by
    intro i hi
    rw [Ledger.bitCount_of_file_eq hfile] at hi
    rw [Pmm.frame_of_file_eq hfile]
    exact (h.misses i hi).of_file_eq hfile
  scrubbed := by
    intro i hi hbit x hx
    rw [Ledger.bitCount_of_file_eq hfile] at hi
    rw [Pmm.frame_of_file_eq hfile] at hx ⊢
    rcases hkept i hi hbit with ⟨hold, hfreed, hsame⟩ | ⟨hfreed, hzero⟩
    · rw [hsame x hx, h.scrubbed i hi hold x hx]
      simp only [List.contains_iff_mem, hfreed]
    · rw [hzero x hx, if_pos (List.contains_iff_mem.mpr hfreed)]

/-- The frame of a live block. -/
theorem frame_of_live {b : Block} (hb : b ∈ u.ledger.live) :
    ∃ i < u.pmm.bitCount, b.ptr = u.pmm.frame i ∧ u.pmm.bit i = true ∧
      u.pmm.MissesBitmap b.ptr := by
  obtain ⟨i, hi, hptr, hbit⟩ := h.held.owned b hb
  exact ⟨i, hi, hptr, hbit, hptr ▸ h.misses i hi⟩

theorem bit_write {x : Ptr} {v : BitVec 8} (hlive : ∃ b ∈ u.ledger.live, InRange b.ptr 4096 x)
    {j : Nat} (hj : j < u.pmm.bitCount) : (u.exec (.write x v)).pmm.bit j = u.pmm.bit j := by
  obtain ⟨b, hb, hin⟩ := hlive
  obtain ⟨i, hi, hptr, hbit, hmiss⟩ := h.frame_of_live hb
  apply Bitmap.bit_congr
  exact Memory.poke_ne _ _ (hmiss.ne_slot hin hj).symm

/-- A store to a byte of a live block reaches neither the bitmap nor a free frame. -/
theorem write {x : Ptr} {v : BitVec 8}
    (hlive : ∃ b ∈ u.ledger.live, InRange b.ptr 4096 x) : (u.exec (.write x v)).Kept m := by
  have hcount : u.pmm.bitCount ≤ 2 ^ 52 := h.held.sized.bitCount_le
  have hbits : ∀ j < u.pmm.bitCount, (u.exec (.write x v)).pmm.bit j = u.pmm.bit j :=
    fun j hj => h.bit_write hlive hj
  obtain ⟨b, hb, hin⟩ := hlive
  obtain ⟨i, hi, hptr, hbit, _⟩ := h.frame_of_live hb
  refine h.of_bytes (h.held.of_bits rfl hbits (List.Perm.refl _)) rfl (fun j hj hclear => ?_)
  rw [hbits j hj] at hclear
  have hji : j ≠ i := by
    rintro rfl
    rw [hclear] at hbit
    exact Bool.noConfusion hbit
  refine Or.inl ⟨hclear, Iff.rfl, fun y hy => Memory.poke_ne _ _ ?_⟩
  rintro rfl
  rw [hptr] at hin
  exact u.pmm.frame_inRange_apart (by omega) (by omega) hji hy hin

/-- An allocation marks the frame it takes and writes nothing else. -/
theorem alloc {c : Call} (hc : ∀ ptr, c ≠ .kfree ptr) : (u.exec (.call c)).Kept m := by
  have hfreed : (u.exec (.call c)).freed = u.freed := by
    cases c with
    | kalloc size => rfl
    | palloc => rfl
    | kfree ptr => exact absurd rfl (hc ptr)
  rcases u.ledger.exec_alloc hc with hsame | ⟨i, size, hfree, hexec⟩
  · have heq : u.exec (.call c) = u := by
      rw [exec, hsame]
      exact congrArg (Usage.mk u.ledger) hfreed
    rw [heq]
    exact h
  · obtain ⟨hi, _, _⟩ := Pmm.firstFree_eq_some.mp hfree
    have hmark : (u.exec (.call c)).pmm = u.pmm.mark i := congrArg Ledger.pmm hexec
    have hheld : (u.exec (.call c)).ledger.Held := by
      rw [exec, hexec]
      exact h.held.grant size hfree
    refine h.of_bytes hheld (by rw [hmark, Pmm.mark_file]) (fun j hj hclear => ?_)
    rw [hmark, h.held.sized.bit_mark hi hj] at hclear
    rw [hfreed, hmark]
    refine Or.inl ⟨?_, Iff.rfl, fun x hx => Bitmap.set_out _ ((h.misses j hj).ne_slot hx hi)⟩
    by_cases hji : j = i
    · rw [if_pos hji] at hclear
      exact Bool.noConfusion hclear
    · rwa [if_neg hji] at hclear

/-- `kfree` of a live block leaves the other frames alone. -/
theorem kfree_other {b : Block} (hb : b ∈ u.ledger.live) {j : Nat} (hj : j < u.pmm.bitCount)
    (hne : u.pmm.frame j ≠ b.ptr) {x : Ptr} (hx : InRange (u.pmm.frame j) 4096 x) :
    (Asnu.kfree u.pmm b.ptr).mem x = u.pmm.mem x := by
  obtain ⟨i, hi, hptr, _⟩ := h.frame_of_live hb
  have hcount : u.pmm.bitCount ≤ 2 ^ 52 := h.held.sized.bitCount_le
  have hji : j ≠ i := by
    rintro rfl
    exact hne hptr.symm
  refine kfree_out _ (fun hin => ?_) (fun k hk => (h.misses j hj).ne_slot hx hk)
  rw [hptr] at hin
  exact u.pmm.frame_inRange_apart (by omega) (by omega) hji hx hin

/-- Freeing a live block zeroes its frame if it clears its bit. -/
theorem kfree {ptr : Ptr} (hlive : ∃ b ∈ u.ledger.live, b.ptr = ptr) :
    (u.exec (.call (.kfree ptr))).Kept m := by
  obtain ⟨b, hb, rfl⟩ := hlive
  obtain ⟨i, hi, hptr, hbit, hmiss⟩ := h.frame_of_live hb
  have hcount : u.pmm.bitCount ≤ 2 ^ 52 := h.held.sized.bitCount_le
  have hfile : (Asnu.kfree u.pmm b.ptr).file = u.pmm.file := kfree_file _ _
  refine h.of_bytes (h.held.kfree ⟨b, hb, rfl⟩ hmiss) hfile (fun j hj hclear => ?_)
  have hclear : (Asnu.kfree u.pmm b.ptr).bit j = false := hclear
  by_cases hji : j = i
  · subst hji
    refine Or.inr ⟨List.mem_cons.mpr (Or.inl hptr.symm), fun x hx => ?_⟩
    have hzero : (Asnu.kfree u.pmm b.ptr).mem x = 0#8 := by
      rcases kfree_cases u.pmm b.ptr with hsame | ⟨_, _, _, hrelease⟩
      · rw [hsame, hbit] at hclear
        exact Bool.noConfusion hclear
      · rw [hrelease]
        exact Pmm.release_page _ (hptr ▸ hx)
    exact hzero
  · have hne : u.pmm.frame j ≠ b.ptr := fun heq =>
      hji (u.pmm.frame_inj (by omega) (by omega) (heq.trans hptr))
    rw [hptr] at hmiss hclear
    refine Or.inl ⟨(h.held.sized.bit_kfree hi hj hji hmiss).symm.trans hclear, ?_,
      fun x hx => h.kfree_other hb hj hne hx⟩
    exact ⟨fun hmem => (List.mem_cons.mp hmem).resolve_left hne, List.mem_cons_of_mem _⟩

/-- What the owner of a frame finds in it. -/
theorem content {c : Call} (hnull : c.answer u.pmm ≠ NULL) {x : Ptr}
    (hx : InRange (c.answer u.pmm) 4096 x) :
    (u.exec (.call c)).pmm.mem x =
      if u.freed.contains (c.answer u.pmm) then 0#8 else m x := by
  obtain ⟨i, hfree, hptr, hmark⟩ := answer_frame hnull
  obtain ⟨hi, hclear, _⟩ := Pmm.firstFree_eq_some.mp hfree
  have hbyte : (u.exec (.call c)).pmm.mem x = u.pmm.mem x := by
    rw [hmark]
    rw [hptr] at hx
    exact Bitmap.set_out _ ((h.misses i hi).ne_slot hx hi)
  rw [hptr] at hx ⊢
  rw [hbyte, h.scrubbed i hi hclear x hx]

theorem step {e : UsageEvent} {u' : Usage} (hstep : u.Step e u') : u'.Kept m := by
  obtain ⟨hallowed, rfl⟩ := hstep
  cases e with
  | write x v => exact h.write hallowed
  | call c =>
      cases c with
      | kalloc size => exact h.alloc (by simp)
      | palloc => exact h.alloc (by simp)
      | kfree ptr => exact h.kfree hallowed

end Kept

/-! ### Two runs with the same calls -/

/-- The same but for what owners have stored. -/
structure Alike (u v : Usage) : Prop where
  file : v.pmm.file = u.pmm.file
  bit : ∀ j < u.pmm.bitCount, v.pmm.bit j = u.pmm.bit j
  live : v.ledger.live = u.ledger.live
  freed : v.freed = u.freed

theorem Alike.refl (u : Usage) : Alike u u := ⟨rfl, fun _ _ => rfl, rfl, rfl⟩

theorem Alike.symm {u v : Usage} (h : Alike u v) : Alike v u where
  file := h.file.symm
  bit := by
    intro j hj
    rw [Ledger.bitCount_of_file_eq h.file] at hj
    exact (h.bit j hj).symm
  live := h.live.symm
  freed := h.freed.symm

theorem Alike.trans {u v w : Usage} (h : Alike u v) (h' : Alike v w) : Alike u w where
  file := h'.file.trans h.file
  bit := by
    intro j hj
    have hj' : j < v.pmm.bitCount := by
      rw [Ledger.bitCount_of_file_eq h.file]
      exact hj
    exact (h'.bit j hj').trans (h.bit j hj)
  live := h'.live.trans h.live
  freed := h'.freed.trans h.freed

namespace Alike

variable {m : Memory} {u v : Usage} (h : Alike u v)
include h

/-- The search looks at the bits only. -/
theorem firstFree : v.pmm.firstFree = u.pmm.firstFree := by
  have hcount := Ledger.bitCount_of_file_eq h.file
  cases hfree : u.pmm.firstFree with
  | none =>
      have hall := Pmm.firstFree_eq_none.mp hfree
      refine Pmm.firstFree_eq_none.mpr (fun j hj => ?_)
      rw [hcount] at hj
      exact (h.bit j hj).trans (hall j hj)
  | some k =>
      obtain ⟨hk, hclear, hbefore⟩ := Pmm.firstFree_eq_some.mp hfree
      refine Pmm.firstFree_eq_some.mpr ⟨hcount ▸ hk, (h.bit k hk).trans hclear, fun j hj => ?_⟩
      exact (h.bit j (hj.trans hk)).trans (hbefore j hj)

theorem answer (c : Call) : c.answer v.pmm = c.answer u.pmm := by
  have hpalloc : (palloc v.pmm).1 = (palloc u.pmm).1 := by
    rw [palloc_eq, palloc_eq, h.firstFree]
    cases u.pmm.firstFree with
    | none => rfl
    | some i => exact Pmm.frame_of_file_eq h.file i
  cases c with
  | kalloc size =>
      by_cases hzero : size = 0#64
      · simp [Call.answer, kalloc, hzero]
      · rw [Call.answer, Call.answer, kalloc_eq_palloc _ hzero, kalloc_eq_palloc _ hzero]
        exact hpalloc
  | palloc => exact hpalloc
  | kfree ptr => rfl

section Calls

variable (hu : u.Kept m) (hv : v.Kept m)
include hu hv

/-- Both searches find the same frame, and both mark it. -/
theorem grant {allocate : Pmm → Ptr × Pmm}
    (hallocate : ∀ s, allocate s = match s.firstFree with
      | some i => (s.frame i, s.mark i)
      | none => (NULL, s)) (size : Nat) (freed : List Ptr) :
    Alike ⟨u.ledger.grant (allocate u.pmm) size, freed⟩
      ⟨v.ledger.grant (allocate v.pmm) size, freed⟩ := by
  have hcount := Ledger.bitCount_of_file_eq h.file
  have hsame := h.firstFree
  rw [hallocate, hallocate, hsame]
  cases hfree : u.pmm.firstFree with
  | none => exact ⟨h.file, h.bit, by simp only [Ledger.grant, h.live], rfl⟩
  | some i =>
      obtain ⟨hi, _, _⟩ := Pmm.firstFree_eq_some.mp hfree
      have hframe : v.pmm.frame i = u.pmm.frame i := Pmm.frame_of_file_eq h.file i
      refine ⟨h.file, fun j hj => ?_, by simp only [Ledger.grant, hframe, h.live], rfl⟩
      have hj : j < u.pmm.bitCount := hj
      have hmark := hu.held.sized.bit_mark hi hj
      have hmark' := hv.held.sized.bit_mark (i := i) (j := j) (hcount ▸ hi) (hcount ▸ hj)
      rw [← h.bit j hj] at hmark
      exact hmark'.trans hmark.symm

omit hv in
theorem bit_kfree {ptr : Ptr} (hlive : ∃ b ∈ u.ledger.live, b.ptr = ptr) {j : Nat}
    (hj : j < u.pmm.bitCount) :
    (Asnu.kfree v.pmm ptr).bit j = (Asnu.kfree u.pmm ptr).bit j := by
  have hcount := Ledger.bitCount_of_file_eq h.file
  have hignores : v.pmm.Ignores ptr ↔ u.pmm.Ignores ptr := by
    rw [Pmm.Ignores, Pmm.Ignores, h.file]
  by_cases hskip : u.pmm.Ignores ptr
  · rw [Pmm.kfree_of_ignores hskip, Pmm.kfree_of_ignores (hignores.mpr hskip), h.bit j hj]
  · obtain ⟨b, hb, rfl⟩ := hlive
    obtain ⟨_, _, _, _, hmiss⟩ := hu.frame_of_live hb
    have hlt := u.pmm.bitCount_lt
    have hout : ¬ InRange b.ptr 4096 (Bitmap.slot u.pmm.file.bitmapBase j) :=
      fun hin => hmiss.ne_slot hin hj rfl
    rw [Pmm.kfree_of_not_ignores hskip, Pmm.kfree_of_not_ignores (mt hignores.mp hskip),
      bit_release _ _ (by omega) hout, bit_release _ _ (by omega) (by rw [h.file]; exact hout),
      h.file, hcount, h.bit j hj]

theorem call {c : Call} (hallowed : u.Allowed (.call c)) :
    Alike (u.exec (.call c)) (v.exec (.call c)) := by
  have hfreed : c.frees ++ v.freed = c.frees ++ u.freed := by rw [h.freed]
  rw [exec, exec, hfreed]
  cases c with
  | kalloc size => exact h.grant hu hv (fun s => kalloc_eq s hallowed.1) size.toNat _
  | palloc => exact h.grant hu hv palloc_eq 4096 _
  | kfree ptr =>
      refine ⟨?_, fun j hj => ?_, by simp only [Ledger.exec, h.live], rfl⟩
      · exact (kfree_file _ _).trans (h.file.trans (kfree_file _ _).symm)
      · rw [pmm, Ledger.exec, Ledger.bitCount_of_file_eq (kfree_file _ _)] at hj
        exact h.bit_kfree hu hallowed hj

end Calls

end Alike

/-- The calls of a run. -/
def calls (es : List UsageEvent) : List Call :=
  es.filterMap (fun e => match e with
    | .call c => some c
    | .write _ _ => none)

/-- The events with the stores left out. -/
def quiet (u : Usage) : UsageEvent → Usage
  | .call c => u.exec (.call c)
  | .write _ _ => u

theorem foldl_quiet (es : List UsageEvent) (u : Usage) :
    es.foldl quiet u = (calls es).foldl (fun u c => u.exec (.call c)) u := by
  induction es generalizing u with
  | nil => rfl
  | cons e es ih =>
      cases e with
      | call c => exact ih (u.exec (.call c))
      | write x v => exact ih u

/-- A run goes where its calls alone go. -/
theorem alike_of_run {m : Memory} {u t : Usage} {es : List UsageEvent} (h : u.Kept m)
    (hrun : Run Step u es t) :
    Alike t ((calls es).foldl (fun u c => u.exec (.call c)) u) := by
  rw [← foldl_quiet]
  refine (hrun.simulates (fun u v => u.Kept m ∧ v.Kept m ∧ Alike u v) ?_
    ⟨h, h, Alike.refl u⟩).2.2
  rintro u e u' v ⟨hu, hv, halike⟩ hstep
  obtain ⟨hallowed, rfl⟩ := hstep
  cases e with
  | write x b =>
      refine ⟨hu.step ⟨hallowed, rfl⟩, hv, halike.file, fun j hj => ?_, halike.live, halike.freed⟩
      exact (halike.bit j hj).trans (hu.bit_write hallowed hj).symm
  | call c =>
      have hallowed' : v.Allowed (.call c) := by
        cases c with
        | kalloc size => exact hallowed
        | palloc => exact hallowed
        | kfree ptr =>
            rw [Allowed, halike.live]
            exact hallowed
      exact ⟨hu.step ⟨hallowed, rfl⟩, hv.step ⟨hallowed', rfl⟩, halike.call hu hv hallowed⟩

end Usage

/-- In every state a run reaches: a block returned that has been freed before is zero;
with other stores but the same calls, the next allocation returns the same pointer
to the same bytes; and freeing one live block changes no byte of another. -/
theorem freed_frames_zeroed (m : Memory) (base length bitmapBase spare : BitVec 64)
    (hmiss : ∀ i < (pmmInit m base length bitmapBase spare).bitCount,
      (pmmInit m base length bitmapBase spare).MissesBitmap
        (base + BitVec.ofNat 64 i * 4096#64))
    (es : List UsageEvent) (t : Usage)
    (hrun : Run Usage.Step (Usage.start (pmmInit m base length bitmapBase spare)) es t) :
    (∀ c : Call, c.answer t.pmm ≠ NULL → c.answer t.pmm ∈ t.freed →
      ∀ x, InRange (c.answer t.pmm) 4096 x → (t.exec (.call c)).pmm.mem x = 0#8) ∧
    (∀ es' t', Run Usage.Step (Usage.start (pmmInit m base length bitmapBase spare)) es' t' →
      Usage.calls es' = Usage.calls es → ∀ c : Call,
        c.answer t'.pmm = c.answer t.pmm ∧ (c.answer t.pmm ≠ NULL →
          ∀ x, InRange (c.answer t.pmm) 4096 x →
            (t'.exec (.call c)).pmm.mem x = (t.exec (.call c)).pmm.mem x)) ∧
    (∀ b ∈ t.ledger.live, ∀ other ∈ t.ledger.live, other.ptr ≠ b.ptr →
      ∀ x, InRange other.ptr 4096 x → (kfree t.pmm b.ptr).mem x = t.pmm.mem x) := by
  have hsized := pmmInit_sized m base length bitmapBase spare
  have hkeep : ∀ {fs : List UsageEvent} {u : Usage},
      Run Usage.Step (Usage.start (pmmInit m base length bitmapBase spare)) fs u →
        u.Kept (pmmInit m base length bitmapBase spare).mem := fun hr =>
    hr.invariant (Usage.Kept _) (fun _ _ _ h hstep => h.step hstep)
      (Usage.kept_start hsized hmiss)
  have ht := hkeep hrun
  refine ⟨fun c hnull hfreed x hx => ?_, fun es' t' hrun' hcalls c => ?_,
    fun b hb other hother hne x hx => ?_⟩
  · rw [ht.content hnull hx, if_pos (List.contains_iff_mem.mpr hfreed)]
  · have ht' := hkeep hrun'
    have hstart := Usage.kept_start hsized hmiss
    have hquiet' := Usage.alike_of_run hstart hrun'
    rw [hcalls] at hquiet'
    have halike : t.Alike t' := (Usage.alike_of_run hstart hrun).trans hquiet'.symm
    have hanswer := halike.answer c
    refine ⟨hanswer, fun hnull x hx => ?_⟩
    rw [ht.content hnull hx, ht'.content (hanswer ▸ hnull) (hanswer ▸ hx), hanswer,
      halike.freed]
  · obtain ⟨j, hj, hptr, _⟩ := ht.frame_of_live hother
    rw [hptr] at hne hx
    exact ht.kfree_other hb hj hne hx

namespace Sample

/-- The first frame is taken and its first byte written. -/
def written : Usage :=
  ((Usage.start eightFrames).exec (.call .palloc)).exec (.write 0x100000#64 0xAA#8)

def secondHand : Usage := written.exec (.call (.kfree 0x100000#64))

theorem run_secondHand : Run Usage.Step (Usage.start eightFrames)
    [.call .palloc, .write 0x100000#64 0xAA#8, .call (.kfree 0x100000#64)] secondHand :=
  Run.cons ⟨trivial, rfl⟩ (Run.cons ⟨by unfold Usage.Allowed; decide +kernel, rfl⟩
    (Run.cons ⟨by unfold Usage.Allowed; decide +kernel, rfl⟩ (Run.nil _)))

theorem answer_secondHand : Call.palloc.answer secondHand.pmm = 0x100000#64 := by
  have hpmm : secondHand.pmm = kfree written.pmm 0x100000#64 := rfl
  have hfree : ¬ written.pmm.Ignores 0x100000#64 := by
    unfold Pmm.Ignores
    decide +kernel
  rw [hpmm, Pmm.kfree_of_not_ignores hfree, Call.answer]
  decide +kernel

end Sample

open Sample in
theorem freed_frames_zeroed_secondHand :
    (secondHand.exec (.call .palloc)).pmm.mem 0x100000#64 = 0#8 := by
  have hzeroed := (freed_frames_zeroed (fun _ => 0#8) 0x100000#64 0x8000#64 0x200000#64 16#64
    (by decide +kernel) _ _ run_secondHand).1 .palloc
  rw [answer_secondHand] at hzeroed
  exact hzeroed (by decide) (List.mem_singleton_self _) 0x100000#64 (by decide)

end Asnu
