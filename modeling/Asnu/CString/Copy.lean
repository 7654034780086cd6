import Asnu.CString.Compare
import Asnu.Lib.Deliver

/-!
The functions of `string.c` that write strings. A copy ends and is exact unless its
destination lies inside the string behind its start, where the terminator is written over
before it is read.
-/

namespace Asnu

open Lib Lib.Code

/-- Store a character. -/
def store (p : Ptr) (c : BitVec 8) : Code Reading Unit :=
  access (fun s => ((), { s with mem := s.mem.poke p c }))

/-- `while ((*ptr++ = *src++));` -/
def copyLoop : Nat → Ptr → Ptr → Code Reading Unit
  | 0, _, _ => giveUp
  | turns + 1, ptr, src => do
      let c ← peek src
      store ptr c
      if c = 0#8 then pure () else copyLoop turns (ptr + 1) (src + 1)

def strcpy (turns : Nat) (dest src : Ptr) : Code Reading Ptr := do
  copyLoop turns dest src
  pure dest

/-- The first loop of `strncpy`, which returns `i`. -/
def strncpyLoop (ptr src : Ptr) (n : BitVec 32) : Nat → BitVec 32 → Code Reading (BitVec 32)
  | 0, _ => giveUp
  | turns + 1, i =>
      if i < n then do
        let c ← peek (src + i.setWidth 64)
        if c = 0#8 then pure i
        else
          let again ← peek (src + i.setWidth 64)
          store (ptr + i.setWidth 64) again
          strncpyLoop ptr src n turns (i + 1#32)
      else pure i

/-- The second loop, which fills up with zeros. -/
def padLoop (ptr : Ptr) (n : BitVec 32) : Nat → BitVec 32 → Code Reading Unit
  | 0, _ => giveUp
  | turns + 1, i =>
      if i < n then do
        store (ptr + i.setWidth 64) 0#8
        padLoop ptr n turns (i + 1#32)
      else pure ()

def strncpy (turns : Nat) (dest src : Ptr) (n : BitVec 32) : Code Reading Ptr := do
  let i ← strncpyLoop dest src n turns 0#32
  padLoop dest n turns i
  pure dest

/-- `while (*ptr) ptr++;` -/
def endLoop : Nat → Ptr → Code Reading Ptr
  | 0, _ => giveUp
  | turns + 1, ptr => do
      let c ← peek ptr
      if c = 0#8 then pure ptr else endLoop turns (ptr + 1)

def strcat (turns : Nat) (dest src : Ptr) : Code Reading Ptr := do
  let ptr ← endLoop turns dest
  copyLoop turns ptr src
  pure dest

/-- The second loop of `strncat`, which returns `ptr`. -/
def strncatLoop (src : Ptr) (n : BitVec 32) : Nat → Ptr → BitVec 32 → Code Reading Ptr
  | 0, _, _ => giveUp
  | turns + 1, ptr, i =>
      if i < n then do
        let c ← peek (src + i.setWidth 64)
        if c = 0#8 then pure ptr
        else
          let again ← peek (src + i.setWidth 64)
          store ptr again
          strncatLoop src n turns (ptr + 1) (i + 1#32)
      else pure ptr

def strncat (turns : Nat) (dest src : Ptr) (n : BitVec 32) : Code Reading Ptr := do
  let ptr ← endLoop turns dest
  let ptr ← strncatLoop src n turns ptr 0#32
  store ptr 0#8
  pure dest

/-! ### Reading and writing -/

/-- From the memory `m` the program returns `r` and leaves `m'`, and reads only bytes with
`P`. -/
def Leaves {α : Type} (m : Memory) (P : Ptr → Prop) (q : Code Reading α) (r : α)
    (m' : Memory) : Prop :=
  ∀ s : Reading, s.mem = m →
    Returns q s (fun a t => a = r ∧ t.mem = m' ∧ ∀ x ∈ t.reads, x ∈ s.reads ∨ P x)

namespace Leaves

variable {α β : Type} {m m' m'' : Memory} {P P' : Ptr → Prop} {q : Code Reading α} {a : α}
  {f : α → Code Reading β} {b : β}

theorem pure (m : Memory) (P : Ptr → Prop) (a : α) : Leaves m P (Pure.pure a) a m :=
  fun _ hs => returns_pure.mpr ⟨rfl, hs, fun _ => Or.inl⟩

theorem of_gives (h : Gives m P q a) : Leaves m P q a m :=
  fun s hs => (h s hs).mono (fun _ _ ht => ⟨ht.1, ht.2.mem.trans hs, ht.2.reads⟩)

theorem bind (h : Leaves m P q a m') (hf : Leaves m' P (f a) b m'') :
    Leaves m P (q >>= f) b m'' := by
  intro s hs
  refine (h s hs).bind ?_
  rintro _ t ⟨rfl, hmem, hreads⟩
  refine (hf t hmem).mono (fun c u hu => ⟨hu.1, hu.2.1, fun x hx => ?_⟩)
  exact (hu.2.2 x hx).elim (hreads x) Or.inr

theorem map (h : Leaves m P q a m') (g : α → β) : Leaves m P (g <$> q) (g a) m' := by
  rw [map_eq_pure_bind]
  exact h.bind (.pure _ _ _)

theorem mono (h : Leaves m P q a m') (hP : ∀ x, P x → P' x) : Leaves m P' q a m' :=
  fun s hs => (h s hs).mono (fun _ _ ht =>
    ⟨ht.1, ht.2.1, fun x hx => (ht.2.2 x hx).imp_right (hP x)⟩)

theorem peek {p : Ptr} {c : BitVec 8} {f : BitVec 8 → Code Reading β} (hp : P p) (hc : m p = c)
    (hf : Leaves m P (f c) b m') : Leaves m P (Asnu.peek p >>= f) b m' :=
  bind (of_gives (hc ▸ Gives.of_peek hp)) hf

theorem store {p : Ptr} {c : BitVec 8} {f : Unit → Code Reading β}
    (hf : Leaves (m.poke p c) P (f ()) b m') : Leaves m P (Asnu.store p c >>= f) b m' :=
  bind (fun _ hs => returns_access.mpr ⟨rfl, by rw [hs], fun _ => Or.inl⟩) hf

theorem ite_pos {c : Prop} [Decidable c] {q' : Code Reading α} (hc : c) (h : Leaves m P q a m') :
    Leaves m P (if c then q else q') a m' := by
  rwa [if_pos hc]

theorem ite_neg {c : Prop} [Decidable c] {q' : Code Reading α} (hc : ¬ c)
    (h : Leaves m P q a m') : Leaves m P (if c then q' else q) a m' := by
  rwa [if_neg hc]

end Leaves

/-- Storing from `ptr` on does not reach what is read later than that, the next `n` bytes
behind `src`. -/
def Clear (ptr src : Ptr) (n : Nat) : Prop := ptr = src ∨ n < (ptr - src).toNat

instance (ptr src : Ptr) (n : Nat) : Decidable (Clear ptr src n) :=
  inferInstanceAs (Decidable (_ ∨ _))

section Copy

variable {m : Memory} {ptr src : Ptr} {text : List (BitVec 8)}

theorem Clear.succ {n : Nat} (h : Clear ptr src (n + 1)) : Clear (ptr + 1) (src + 1) n := by
  rcases h with rfl | hlt
  · exact Or.inl rfl
  · refine Or.inr ?_
    have hsame : ptr + 1 - (src + 1) = ptr - src := by bv_omega
    rw [hsame]
    omega

/-- The byte stored is not one of those read later. -/
theorem Clear.poke {n : Nat} (h : Clear ptr src (n + 1)) (hn : n + 1 < 2 ^ 64) {x : Ptr}
    (hx : InRange (src + 1) (n + 1) x) (c : BitVec 8) : m.poke ptr c x = m x := by
  refine Memory.poke_ne m c ?_
  rintro rfl
  unfold InRange at hx
  rcases h with rfl | hlt
  · bv_omega
  · bv_omega

theorem copyLoop_leaves (h : IsString m src text) (hclear : Clear ptr src text.length)
    {turns : Nat} (hturns : text.length < turns) :
    Leaves m (InString src text) (copyLoop turns ptr src) () (written m ptr (text ++ [0#8])) := by
  have hlength := h.length_lt
  induction text generalizing m ptr src turns with
  | nil =>
      obtain ⟨turns, rfl⟩ := exists_turn hturns
      rw [List.nil_append, ← poke_eq_written]
      exact .peek h.inString_self h.head (.store (.ite_pos rfl (.pure _ _ _)))
  | cons c cs ih =>
      obtain ⟨turns, rfl⟩ := exists_turn hturns
      have hself := h.inString_self
      rw [List.length_cons] at hclear hturns hlength
      cases h with
      | cons hp hm hc hrest =>
          have hkept : IsString (m.poke ptr c) (src + 1) cs :=
            hrest.congr (fun x hx => hclear.poke hlength hx c)
          have hloop := ih hkept hclear.succ (Nat.lt_of_succ_lt_succ hturns) hkept.length_lt
          rw [List.cons_append, ← written_cons m ptr c (by simpa using hlength)]
          exact .peek hself hm (.store (.ite_neg hc (hloop.mono (fun _ => inString_cons))))

/-- Where it stores into the string behind what it reads, it meets no zero any more. -/
theorem copyLoop_endless {i : Nat} (hi : 0 < i) (hlt : i < 2 ^ 64)
    (hbytes : ∀ k < i, m (src + BitVec.ofNat 64 k) ≠ 0#8) (turns : Nat) {s : Reading}
    (hs : s.mem = m) : copyLoop turns (src + BitVec.ofNat 64 i) src s = none := by
  induction turns generalizing m src s with
  | zero => rfl
  | succ turns ih =>
      subst hs
      have hfirst : s.mem src ≠ 0#8 := by
        have h := hbytes 0 hi
        rwa [BitVec.add_zero] at h
      have hnext : ∀ k < i, s.mem.poke (src + BitVec.ofNat 64 i) (s.mem src)
          (src + 1 + BitVec.ofNat 64 k) ≠ 0#8 := by
        intro k hk
        rw [succ_offset]
        rcases Nat.lt_or_eq_of_le (Nat.succ_le_of_lt hk) with hlater | rfl
        · rw [Memory.poke_ne _ _ (by bv_omega)]
          exact hbytes (k + 1) hlater
        · rw [Memory.poke_self]
          exact hfirst
      have hrest := ih hnext (s := { s with
        mem := s.mem.poke (src + BitVec.ofNat 64 i) (s.mem src)
        reads := src :: s.reads }) rfl
      rw [succ_offset, ← offset_succ] at hrest
      rw [copyLoop, bind_apply]
      change (Asnu.store _ _ >>= _) _ = none
      rw [bind_apply]
      change (if s.mem src = 0#8 then _ else _ : Code Reading Unit) _ = none
      rw [if_neg hfirst]
      exact hrest

/-- A copy that is not clear of the string does not end. -/
theorem copyLoop_of_not_clear (h : IsString m src text) (hnot : ¬ Clear ptr src text.length)
    (turns : Nat) {s : Reading} (hs : s.mem = m) : copyLoop turns ptr src s = none := by
  obtain ⟨hne, hle⟩ := not_or.mp hnot
  have hptr : ptr = src + BitVec.ofNat 64 (ptr - src).toNat := by bv_omega
  rw [hptr]
  refine copyLoop_endless (by bv_omega) (BitVec.isLt _) (fun k hk => ?_) turns hs
  have hlt : k < text.length := by omega
  refine (h.drop (Nat.le_of_lt hlt)).head_ne_zero (fun hnil => ?_)
  have hlength := congrArg List.length hnil
  rw [List.length_drop, List.length_nil] at hlength
  omega

theorem endLoop_gives (h : IsString m ptr text) {turns : Nat} (hturns : text.length < turns) :
    Gives m (InString ptr text) (endLoop turns ptr) (ptr + BitVec.ofNat 64 text.length) := by
  induction h generalizing turns with
  | @nil p hp hm =>
      obtain ⟨turns, rfl⟩ := exists_turn hturns
      rw [List.length_nil, BitVec.add_zero]
      exact .peek (IsString.nil hp hm).inString_self hm (.ite_pos rfl (.pure _ _ _))
  | @cons p c cs hp hm hc hrest ih =>
      obtain ⟨turns, rfl⟩ := exists_turn hturns
      have hself := (IsString.cons hp hm hc hrest).inString_self
      rw [List.length_cons, ← succ_offset]
      exact .peek hself hm (.ite_neg hc
        ((ih (Nat.lt_of_succ_lt_succ hturns)).mono (fun _ => inString_cons)))

/-- With no more turns than characters it does not get to the end. -/
theorem endLoop_short (h : IsString m ptr text) {turns : Nat} (hturns : turns ≤ text.length)
    {s : Reading} (hs : s.mem = m) : endLoop turns ptr s = none := by
  induction h generalizing turns s with
  | nil =>
      obtain rfl : turns = 0 := Nat.le_zero.mp hturns
      rfl
  | @cons p c cs hp hm hc hrest ih =>
      cases turns with
      | zero => rfl
      | succ turns =>
          rw [endLoop, bind_apply]
          change (if s.mem p = 0#8 then _ else _ : Code Reading Ptr) _ = none
          rw [hs, hm, if_neg hc]
          exact ih (Nat.le_of_succ_le_succ hturns) hs

end Copy

/-- The program comes to an end with `bytes` stored from `ptr` on and nothing else, and has read
only bytes with `P`. -/
def Stores (m : Memory) (P : Ptr → Prop) (q : Nat → Code Reading Ptr) (r : Ptr) (ptr : Ptr)
    (bytes : List (BitVec 8)) : Prop :=
  Terminates q { mem := m } (fun a t =>
    a = r ∧ t.mem = written m ptr bytes ∧ ∀ x ∈ t.reads, P x)

section Exact

variable {m : Memory} {dest src : Ptr} {cur text : List (BitVec 8)}

theorem stores_of_leaves {P : Ptr → Prop} {q : Nat → Code Reading Ptr} {r ptr : Ptr}
    {bytes : List (BitVec 8)} (bound : Nat)
    (h : ∀ turns, bound ≤ turns → Leaves m P (q turns) r (written m ptr bytes)) :
    Stores m P q r ptr bytes := by
  refine ⟨bound, fun turns hturns => (h turns hturns { mem := m } rfl).mono ?_⟩
  exact fun a t ht => ⟨ht.1, ht.2.1, fun x hx => (ht.2.2 x hx).resolve_left List.not_mem_nil⟩

theorem strcpy_leaves (h : IsString m src text) (hclear : Clear dest src text.length)
    {turns : Nat} (hturns : text.length < turns) :
    Leaves m (InString src text) (strcpy turns dest src) dest (written m dest (text ++ [0#8])) :=
  (copyLoop_leaves h hclear hturns).bind (.pure _ _ _)

theorem strcat_leaves (hdest : IsString m dest cur) (h : IsString m src text)
    (hclear : Clear (dest + BitVec.ofNat 64 cur.length) src text.length) {turns : Nat}
    (hturns : max cur.length text.length < turns) :
    Leaves m (fun x => InString dest cur x ∨ InString src text x) (strcat turns dest src) dest
      (written m (dest + BitVec.ofNat 64 cur.length) (text ++ [0#8])) := by
  have hend := endLoop_gives hdest (Nat.lt_of_le_of_lt (Nat.le_max_left _ _) hturns)
  have hcopy := copyLoop_leaves h hclear (Nat.lt_of_le_of_lt (Nat.le_max_right _ _) hturns)
  exact ((Leaves.of_gives hend).mono (fun _ => Or.inl)).bind
    ((hcopy.mono (fun _ => Or.inr)).bind (.pure _ _ _))

theorem strcpy_endless (h : IsString m src text) (hnot : ¬ Clear dest src text.length) :
    Endless (fun turns => strcpy turns dest src) { mem := m } :=
  fun turns => bind_none (copyLoop_of_not_clear h hnot turns rfl)

theorem strcat_endless (hdest : IsString m dest cur) (h : IsString m src text)
    (hnot : ¬ Clear (dest + BitVec.ofNat 64 cur.length) src text.length) :
    Endless (fun turns => strcat turns dest src) { mem := m } := by
  intro turns
  by_cases hturns : turns ≤ cur.length
  · exact bind_none (endLoop_short hdest hturns rfl)
  · obtain ⟨_, t, hfirst, rfl, hread⟩ :=
      endLoop_gives hdest (Nat.lt_of_not_le hturns) { mem := m } rfl
    simp only [strcat]
    rw [bind_apply, hfirst]
    exact bind_none (copyLoop_of_not_clear h hnot turns hread.mem)

theorem strcpy_stores_iff (h : IsString m src text) :
    Stores m (InString src text) (fun turns => strcpy turns dest src) dest dest (text ++ [0#8]) ↔
      Clear dest src text.length := by
  constructor
  · intro hstores
    by_contra hnot
    exact (strcpy_endless h hnot).not_terminates hstores
  · intro hclear
    exact stores_of_leaves (text.length + 1) (fun turns hturns => strcpy_leaves h hclear hturns)

theorem strcat_stores_iff (hdest : IsString m dest cur) (h : IsString m src text) :
    Stores m (fun x => InString dest cur x ∨ InString src text x)
        (fun turns => strcat turns dest src) dest (dest + BitVec.ofNat 64 cur.length)
        (text ++ [0#8]) ↔
      Clear (dest + BitVec.ofNat 64 cur.length) src text.length := by
  constructor
  · intro hstores
    by_contra hnot
    exact (strcat_endless hdest h hnot).not_terminates hstores
  · intro hclear
    exact stores_of_leaves (max cur.length text.length + 1)
      (fun turns hturns => strcat_leaves hdest h hclear hturns)

end Exact

/-- Both functions that copy a whole string end with an exact copy in just the same case: unless
what they store reaches into the string behind its start. Then they do not end. -/
theorem copies_exactly_iff {m : Memory} {dest src : Ptr} {text : List (BitVec 8)}
    (h : IsString m src text) :
    (Stores m (InString src text) (fun turns => strcpy turns dest src) dest dest
        (text ++ [0#8]) ↔ Clear dest src text.length) ∧
      (¬ Clear dest src text.length →
        Endless (fun turns => strcpy turns dest src) { mem := m }) ∧
      ∀ cur, IsString m dest cur →
        (Stores m (fun x => InString dest cur x ∨ InString src text x)
            (fun turns => strcat turns dest src) dest (dest + BitVec.ofNat 64 cur.length)
            (text ++ [0#8]) ↔
          Clear (dest + BitVec.ofNat 64 cur.length) src text.length) ∧
        (¬ Clear (dest + BitVec.ofNat 64 cur.length) src text.length →
          Endless (fun turns => strcat turns dest src) { mem := m }) :=
  ⟨strcpy_stores_iff h, strcpy_endless h, fun _ hdest =>
    ⟨strcat_stores_iff hdest h, strcat_endless hdest h⟩⟩

/-- The string `abc`. -/
def abcMemory : Memory := loaded [(0x1000#64, ['a', 'b', 'c'].map ascii)]

/-- Moved down by a byte it stays whole; moved up, the copy does not end. -/
theorem copies_exactly_iff_abc :
    Stores abcMemory (InString 0x1000#64 (['a', 'b', 'c'].map ascii))
        (fun turns => strcpy turns 0xfff#64 0x1000#64) 0xfff#64 0xfff#64
        (['a', 'b', 'c'].map ascii ++ [0#8]) ∧
      Endless (fun turns => strcpy turns 0x1001#64 0x1000#64) { mem := abcMemory } := by
  have hstring : IsString abcMemory 0x1000#64 (['a', 'b', 'c'].map ascii) := by decide
  exact ⟨(copies_exactly_iff hstring).1.mpr (by decide),
    (copies_exactly_iff hstring).2.1 (by decide)⟩

/-! ### Bounded copies -/

section Bounded

variable {m : Memory} {ptr src p q : Ptr} {n i : BitVec 32}

theorem charsAt_congr {m' : Memory} {k : Nat}
    (hsame : ∀ x, InFirst q k (charsAt m q k) x → m' x = m x) : charsAt m' q k = charsAt m q k := by
  induction k generalizing q with
  | zero => rfl
  | succ k ih =>
      have hfirst : m' q = m q := hsame q (inFirst_self q k _)
      rw [charsAt, hfirst, charsAt]
      split
      · rfl
      · next hne =>
          have hchars : charsAt m q (k + 1) = m q :: charsAt m (q + 1) k := by
            rw [charsAt, if_neg hne]
          rw [hchars] at hsame
          rw [ih (fun x hx => hsame x (inFirst_cons hx))]

theorem length_charsAt_le (m : Memory) (q : Ptr) (k : Nat) : (charsAt m q k).length ≤ k := by
  induction k generalizing q with
  | zero => exact Nat.le_refl 0
  | succ k ih =>
      rw [charsAt]
      split
      · exact Nat.zero_le _
      · exact Nat.succ_le_succ (ih (q + 1))

/-- With `k` characters left that may be copied. -/
theorem strncpyLoop_leaves {k : Nat} (hi : i.toNat + k = n.toNat) (hp : ptr + i.setWidth 64 = p)
    (hq : src + i.setWidth 64 = q)
    (hapart : ∀ x, InFirst q k (charsAt m q k) x → ¬ InRange p (charsAt m q k).length x)
    {turns : Nat} (hturns : k < turns) :
    Leaves m (InFirst q k (charsAt m q k)) (strncpyLoop ptr src n turns i)
      (i + BitVec.ofNat 32 (charsAt m q k).length) (written m p (charsAt m q k)) := by
  induction k generalizing m i p q turns with
  | zero =>
      obtain ⟨turns, rfl⟩ := exists_turn hturns
      have heq : i = n := by bv_omega
      unfold strncpyLoop
      rw [if_neg (by rw [heq]; exact BitVec.lt_irrefl n), charsAt, List.length_nil, BitVec.add_zero]
      exact .pure _ _ _
  | succ k ih =>
      obtain ⟨turns, rfl⟩ := exists_turn hturns
      have hlt : i < n := by bv_omega
      have hself : InFirst q (k + 1) (charsAt m q (k + 1)) q := inFirst_self q k _
      unfold strncpyLoop
      rw [if_pos hlt, hp, hq]
      by_cases hzero : m q = 0#8
      · rw [charsAt, if_pos hzero] at hself ⊢
        rw [List.length_nil, BitVec.add_zero]
        exact .peek hself hzero (.ite_pos rfl (.pure _ _ _))
      · have hchars : charsAt m q (k + 1) = m q :: charsAt m (q + 1) k := by
          rw [charsAt, if_neg hzero]
        have hlength := length_charsAt_le m (q + 1) k
        rw [hchars] at hself hapart ⊢
        rw [List.length_cons] at hapart
        -- the bytes still to be read are not the one stored
        have hkept : charsAt (m.poke p (m q)) (q + 1) k = charsAt m (q + 1) k := by
          refine charsAt_congr (fun x hx => Memory.poke_ne m _ ?_)
          rintro rfl
          exact hapart x (inFirst_cons hx) (inRange_self x (Nat.succ_pos _))
        have hnext : (i + 1#32).setWidth 64 = i.setWidth 64 + 1 := by bv_omega
        have hloop := ih (m := m.poke p (m q)) (i := i + 1#32) (p := p + 1) (q := q + 1)
          (by bv_omega) (by rw [hnext, ← BitVec.add_assoc, hp])
          (by rw [hnext, ← BitVec.add_assoc, hq])
          (by
            rw [hkept]
            exact fun x hx hin => hapart x (inFirst_cons hx) (inRange_succ hin))
          (Nat.lt_of_succ_lt_succ hturns)
        have hcount : i + 1#32 + BitVec.ofNat 32 (charsAt m (q + 1) k).length =
            i + BitVec.ofNat 32 ((charsAt m (q + 1) k).length + 1) := by
          rw [BitVec.add_assoc, ← BitVec.ofNat_add, Nat.add_comm 1]
        rw [hkept, hcount] at hloop
        rw [List.length_cons, ← written_cons m p (m q) (by omega)]
        exact .peek hself rfl (.ite_neg hzero (.peek hself rfl (.store
          (hloop.mono (fun _ => inFirst_cons)))))

/-- The loop of `strncat` is that of `strncpy` with its pointer counted on. -/
theorem strncatLoop_eq (turns : Nat) :
    strncatLoop src n turns (ptr + i.setWidth 64) i =
      (fun j => ptr + j.setWidth 64) <$> strncpyLoop ptr src n turns i := by
  induction turns generalizing i with
  | zero => rfl
  | succ turns ih =>
      unfold strncatLoop strncpyLoop
      by_cases hlt : i < n
      · have hnext : ptr + i.setWidth 64 + 1 = ptr + (i + 1#32).setWidth 64 := by bv_omega
        rw [if_pos hlt, if_pos hlt, hnext, ih, map_bind]
        refine bind_congr (fun c => ?_)
        by_cases hc : c = 0#8
        · rw [if_pos hc, if_pos hc, map_pure]
        · simp only [if_neg hc, map_bind]
      · rw [if_neg hlt, if_neg hlt]
        rfl

theorem padLoop_leaves {k : Nat} (hi : i.toNat + k = n.toNat) (hp : ptr + i.setWidth 64 = p)
    {turns : Nat} (hturns : k < turns) (P : Ptr → Prop) :
    Leaves m P (padLoop ptr n turns i) () (written m p (List.replicate k 0#8)) := by
  induction k generalizing m i p turns with
  | zero =>
      obtain ⟨turns, rfl⟩ := exists_turn hturns
      have heq : i = n := by bv_omega
      unfold padLoop
      rw [if_neg (by rw [heq]; exact BitVec.lt_irrefl n)]
      exact .pure _ _ _
  | succ k ih =>
      obtain ⟨turns, rfl⟩ := exists_turn hturns
      have hlt : i < n := by bv_omega
      have hnext : (i + 1#32).setWidth 64 = i.setWidth 64 + 1 := by bv_omega
      unfold padLoop
      rw [if_pos hlt, hp, List.replicate_succ, ← written_cons m p 0#8 (by simp; omega)]
      have hstep : ptr + (i + 1#32).setWidth 64 = p + 1#64 := by
        rw [hnext, ← hp]
        exact (BitVec.add_assoc _ _ _).symm
      exact .store (ih (by bv_omega) hstep (Nat.lt_of_succ_lt_succ hturns))

variable {dest : Ptr} {cur text : List (BitVec 8)}

/-- The place `k` characters on, counted in 32 bits. -/
theorem place_eq (p : Ptr) {k : Nat} (hk : k < 2 ^ 32) :
    p + (BitVec.ofNat 32 k).setWidth 64 = p + BitVec.ofNat 64 k := by
  congr 1
  apply BitVec.eq_of_toNat_eq
  rw [BitVec.toNat_setWidth, BitVec.toNat_ofNat, BitVec.toNat_ofNat]
  omega

/-- Of a string the loop copies its first characters. -/
theorem strncpyLoop_string (h : IsString m src text)
    (hapart : ∀ x, InString src text x → ¬ InRange dest (min n.toNat text.length) x)
    {turns : Nat} (hturns : n.toNat < turns) :
    Leaves m (InString src text) (strncpyLoop dest src n turns 0#32)
      (BitVec.ofNat 32 (min n.toNat text.length)) (written m dest (text.take n.toNat)) := by
  have hchars : charsAt m src n.toNat = text.take n.toNat := charsAt_eq_take h n.toNat
  have hlength : (text.take n.toNat).length = min n.toNat text.length := List.length_take
  have hzero : ∀ a : Ptr, a + (0#32).setWidth 64 = a := fun a => BitVec.add_zero a
  have hreads : ∀ x, InFirst src n.toNat (text.take n.toNat) x → InString src text x :=
    fun x hx => Nat.lt_of_lt_of_le (inFirst_take hx) (Nat.min_le_left _ _)
  have hloop := strncpyLoop_leaves (m := m) (n := n) (i := 0#32) (k := n.toNat)
    (by rw [BitVec.toNat_ofNat, Nat.zero_mod, Nat.zero_add]) (hzero dest) (hzero src)
    (by
      rw [hchars, hlength]
      exact fun x hx => hapart x (hreads x hx))
    hturns
  rw [hchars, hlength, BitVec.zero_add] at hloop
  exact hloop.mono hreads

/-- `strncpy` stores the characters and fills up with zeros to `n` bytes. -/
theorem strncpy_leaves (h : IsString m src text)
    (hapart : ∀ x, InString src text x → ¬ InRange dest n.toNat x) {turns : Nat}
    (hturns : n.toNat < turns) :
    Leaves m (InString src text) (strncpy turns dest src n) dest
      (written m dest (text.take n.toNat ++ List.replicate (n.toNat - text.length) 0#8)) := by
  have hn := n.isLt
  have hlength : (text.take n.toNat).length = min n.toNat text.length := List.length_take
  have hfirst : ∀ x, InString src text x → ¬ InRange dest (min n.toNat text.length) x :=
    fun x hx hin => hapart x hx (Nat.lt_of_lt_of_le hin (Nat.min_le_left _ _))
  have hloop := strncpyLoop_string h hfirst hturns
  have hplace := place_eq dest (k := (text.take n.toNat).length) (by omega)
  rw [hlength] at hplace
  have hpad := @padLoop_leaves (written m dest (text.take n.toNat)) dest _ n
    (BitVec.ofNat 32 (min n.toNat text.length)) (n.toNat - text.length)
    (by rw [BitVec.toNat_ofNat]; omega) hplace turns (by omega) (InString src text)
  rw [← hlength, written_append _ _ (by rw [List.length_replicate]; omega), hlength] at hpad
  exact hloop.bind (hpad.bind (.pure _ _ _))

/-- `strncat` stores the characters behind the string, and a terminator. -/
theorem strncat_leaves (hdest : IsString m dest cur) (h : IsString m src text)
    (hapart : ∀ x, InString src text x →
      ¬ InRange (dest + BitVec.ofNat 64 cur.length) (min n.toNat text.length) x)
    {turns : Nat} (hturns : max cur.length n.toNat < turns) :
    Leaves m (fun x => InString dest cur x ∨ InString src text x) (strncat turns dest src n) dest
      (written m (dest + BitVec.ofNat 64 cur.length) (text.take n.toNat ++ [0#8])) := by
  have hn := n.isLt
  have hlength : (text.take n.toNat).length = min n.toNat text.length := List.length_take
  generalize hptr : dest + BitVec.ofNat 64 cur.length = ptr at *
  have hend := endLoop_gives hdest (Nat.lt_of_le_of_lt (Nat.le_max_left _ _) hturns)
  rw [hptr] at hend
  have hloop := (strncpyLoop_string h hapart
    (Nat.lt_of_le_of_lt (Nat.le_max_right _ _) hturns)).map (fun j => ptr + j.setWidth 64)
  have hzero : ptr + (0#32).setWidth 64 = ptr := BitVec.add_zero ptr
  rw [← strncatLoop_eq, hzero, place_eq ptr (by omega), ← hlength] at hloop
  refine ((Leaves.of_gives hend).mono (fun _ => Or.inl)).bind
    ((hloop.mono (fun _ => Or.inr)).bind (.store ?_))
  rw [poke_eq_written, written_append _ _ (by rw [List.length_singleton]; omega)]
  exact .pure _ _ _

end Bounded

end Asnu
