import Asnu.CString.Find
import Asnu.Lib.ThreeWay

/-!
`strcmp`, `strncmp` and `memcmp`. A `char` has a sign, so the loops compare the characters
for equality only; what is returned is the difference of two `unsigned char`.
-/

namespace Asnu

open Lib Lib.Code

/-- `(unsigned char)*s1 - (unsigned char)*s2`, an `int`. -/
def byteDifference (s1 s2 : Ptr) : Code Reading (BitVec 32) := do
  let a ← peek s1
  let b ← peek s2
  pure (a.setWidth 32 - b.setWidth 32)

def strcmp : Nat → Ptr → Ptr → Code Reading (BitVec 32)
  | 0, _, _ => giveUp
  | turns + 1, s1, s2 => do
      let c ← peek s1
      if c = 0#8 then byteDifference s1 s2
      else
        let a ← peek s1
        let b ← peek s2
        if a = b then strcmp turns (s1 + 1) (s2 + 1) else byteDifference s1 s2

/-- What `strncmp` does behind its loop. -/
def strncmpEnd (s1 s2 : Ptr) (n i : BitVec 32) : Code Reading (BitVec 32) :=
  if i = n then pure 0#32 else byteDifference (s1 + i.setWidth 64) (s2 + i.setWidth 64)

/-- The loop of `strncmp` from `i` on, and what is behind it. -/
def strncmpLoop (s1 s2 : Ptr) (n : BitVec 32) : Nat → BitVec 32 → Code Reading (BitVec 32)
  | 0, _ => giveUp
  | turns + 1, i =>
      if i < n then do
        let c ← peek (s1 + i.setWidth 64)
        if c = 0#8 then strncmpEnd s1 s2 n i
        else
          let a ← peek (s1 + i.setWidth 64)
          let b ← peek (s2 + i.setWidth 64)
          if a = b then strncmpLoop s1 s2 n turns (i + 1#32) else strncmpEnd s1 s2 n i
      else strncmpEnd s1 s2 n i

def strncmp (turns : Nat) (s1 s2 : Ptr) (n : BitVec 32) : Code Reading (BitVec 32) :=
  strncmpLoop s1 s2 n turns 0#32

/-- Iterations `i, i + 1, ...` of the loop of `memcmp`, `n` of them. -/
def memcmpLoop (p1 p2 : Ptr) : Nat → Nat → Code Reading (BitVec 32)
  | 0, _ => pure 0#32
  | n + 1, i => do
      let a ← peek (p1 + BitVec.ofNat 64 i)
      let b ← peek (p2 + BitVec.ofNat 64 i)
      if a ≠ b then
        let a ← peek (p1 + BitVec.ofNat 64 i)
        let b ← peek (p2 + BitVec.ofNat 64 i)
        pure (if a < b then -1#32 else 1#32)
      else memcmpLoop p1 p2 n (i + 1)

def memcmp (s1 s2 : Ptr) (n : BitVec 64) : Code Reading (BitVec 32) :=
  memcmpLoop s1 s2 n.toNat 0

/-! ### What is compared -/

/-- The first `n` bytes from `p` on. -/
def bytesAt (m : Memory) (p : Ptr) : Nat → List (BitVec 8)
  | 0 => []
  | n + 1 => m p :: bytesAt m (p + 1) n

/-- The characters from `p` on, `n` of them unless a zero comes before. -/
def charsAt (m : Memory) (p : Ptr) : Nat → List (BitVec 8)
  | 0 => []
  | n + 1 => if m p = 0#8 then [] else m p :: charsAt m (p + 1) n

/-- The bytes of a string, its terminator among them, but no more than `n`. -/
def InFirst (p : Ptr) (n : Nat) (text : List (BitVec 8)) (x : Ptr) : Prop :=
  InRange p (min (text.length + 1) n) x

def InEitherFirst (p q : Ptr) (n : Nat) (a b : List (BitVec 8)) (x : Ptr) : Prop :=
  InFirst p n a x ∨ InFirst q n b x

def InEitherRange (p q : Ptr) (n : Nat) (x : Ptr) : Prop := InRange p n x ∨ InRange q n x

/-- The function returns a number whose sign says how `a` stands to `b`, reads no byte
without `P`, and writes none. -/
def Compares {α : Type} [Ord α] (m : Memory) (P : Ptr → Prop)
    (f : Nat → Code Reading (BitVec 32)) (z : BitVec 32) (a b : α) : Prop :=
  Answers z.toInt a b ∧
    Terminates f { mem := m } (fun r t => r = z ∧ t.mem = m ∧ ∀ x ∈ t.reads, P x)

/-! ### Bytes -/

theorem compare_zero {c : BitVec 8} (hc : c ≠ 0#8) : compare 0#8 c = .lt := by
  rw [compare_toNat, Int.compare_eq_lt]
  bv_omega

/-- An `int` has room for the difference of two bytes, so no sign is lost. -/
theorem answers_difference (x y : BitVec 8) :
    Answers (x.setWidth 32 - y.setWidth 32 : BitVec 32).toInt x y := by
  have hx := x.isLt
  have hy := y.isLt
  have hdiff : (x.setWidth 32 - y.setWidth 32 : BitVec 32).toInt = (x.toNat : Int) - y.toNat := by
    rw [BitVec.toInt_eq_toNat_cond, BitVec.toNat_sub, BitVec.toNat_setWidth,
      BitVec.toNat_setWidth]
    split <;> omega
  rw [hdiff, Answers, compare_toNat]
  exact Answers.sub _ _

theorem answers_sign {x y : BitVec 8} (hne : x ≠ y) :
    Answers (if x < y then -1#32 else 1#32).toInt x y := by
  rw [Answers, compare_toNat]
  split
  · next hlt => exact (Int.compare_eq_lt.mpr (Int.ofNat_lt.mpr hlt)).symm
  · next hnot =>
      have hgt : y.toNat < x.toNat := by bv_omega
      exact (Int.compare_eq_gt.mpr (Int.ofNat_lt.mpr hgt)).symm

section Compare

variable {m : Memory} {P : Ptr → Prop} {p q : Ptr} {a b : List (BitVec 8)}

/-- Behind the loops: the characters where they stopped decide. -/
theorem byteDifference_gives (hp : P p) (hq : P q) (hahead : m p = a.headD 0#8)
    (hbhead : m q = b.headD 0#8) (ha : ∀ c ∈ a, c ≠ 0#8) (hb : ∀ c ∈ b, c ≠ 0#8)
    (hstop : m p = 0#8 ∨ m p ≠ m q) :
    ∃ x : BitVec 32, Answers x.toInt a b ∧ Gives m P (byteDifference p q) x := by
  refine ⟨(m p).setWidth 32 - (m q).setWidth 32, ?_, .peek hp rfl (.peek hq rfl (.pure _ _ _))⟩
  rw [hahead, hbhead] at hstop ⊢
  exact .of_heads (fun c hc => compare_zero (ha c hc)) (fun c hc => compare_zero (hb c hc)) hstop
    (answers_difference _ _)

/-! ### `strcmp` -/

section Turn

variable {go stop : Code Reading (BitVec 32)} {x : BitVec 32}

/-- The condition that `strcmp` and `strncmp` have in common, where it ends the loop. -/
theorem gives_stop (hp : P p) (hq : P q) (hstop : m p = 0#8 ∨ m p ≠ m q)
    (h : Gives m P stop x) :
    Gives m P (do
      let c ← peek p
      if c = 0#8 then stop
      else
        let a ← peek p
        let b ← peek q
        if a = b then go else stop) x := by
  refine .peek hp rfl ?_
  by_cases hzero : m p = 0#8
  · exact .ite_pos hzero h
  · refine .ite_neg hzero (.peek hp rfl (.peek hq rfl ?_))
    exact .ite_neg (hstop.resolve_left hzero) h

/-- The same condition where the loop goes on. -/
theorem gives_go (hp : P p) (hq : P q) (hne : m p ≠ 0#8) (hsame : m p = m q)
    (h : Gives m P go x) :
    Gives m P (do
      let c ← peek p
      if c = 0#8 then stop
      else
        let a ← peek p
        let b ← peek q
        if a = b then go else stop) x :=
  .peek hp rfl (.ite_neg hne (.peek hp rfl (.peek hq rfl (.ite_pos hsame h))))

end Turn

theorem strcmp_stop (ha : IsString m p a) (hb : IsString m q b)
    (hstop : m p = 0#8 ∨ m p ≠ m q) :
    ∃ x : BitVec 32, Answers x.toInt a b ∧
      ∀ turns, a.length < turns → Gives m (InEither p q a b) (strcmp turns p q) x := by
  have hp : InEither p q a b p := Or.inl ha.inString_self
  have hq : InEither p q a b q := Or.inr hb.inString_self
  obtain ⟨x, hanswers, hgives⟩ :=
    byteDifference_gives hp hq ha.head hb.head ha.ne_zero hb.ne_zero hstop
  refine ⟨x, hanswers, fun turns hturns => ?_⟩
  obtain ⟨turns, rfl⟩ := exists_turn hturns
  exact gives_stop hp hq hstop hgives

/-- One character after the other is the same in both strings, up to the first that is not
or is the end of both. -/
theorem strcmp_gives (ha : IsString m p a) (hb : IsString m q b) :
    ∃ x : BitVec 32, Answers x.toInt a b ∧
      ∀ turns, a.length < turns → Gives m (InEither p q a b) (strcmp turns p q) x := by
  induction ha generalizing q b with
  | nil hp hm => exact strcmp_stop (.nil hp hm) hb (Or.inl hm)
  | @cons p c as hp hm hc hrest ih =>
      have ha : IsString m p (c :: as) := .cons hp hm hc hrest
      cases hb with
      | nil hq hzero => exact strcmp_stop ha (.nil hq hzero) (Or.inr (by rwa [hm, hzero]))
      | @cons _ d bs hq hd hd0 hbrest =>
          by_cases heq : c = d
          · subst heq
            obtain ⟨x, hanswers, hgives⟩ := ih hbrest
            refine ⟨x, hanswers.cons c, fun turns hturns => ?_⟩
            obtain ⟨turns, rfl⟩ := exists_turn hturns
            have hhere : InEither p q (c :: as) (c :: bs) p := Or.inl ha.inString_self
            have hthere : InEither p q (c :: as) (c :: bs) q :=
              Or.inr (IsString.cons hq hd hd0 hbrest).inString_self
            refine gives_go hhere hthere (by rwa [hm]) (hm.trans hd.symm) ?_
            exact (hgives turns (Nat.lt_of_succ_lt_succ hturns)).mono (fun _ => inEither_tails)
          · exact strcmp_stop ha (.cons hq hd hd0 hbrest) (Or.inr (by rwa [hm, hd]))

/-! ### `strncmp` -/

theorem charsAt_ne_zero (m : Memory) (p : Ptr) (n : Nat) : ∀ c ∈ charsAt m p n, c ≠ 0#8 := by
  induction n generalizing p with
  | zero => exact fun _ hc => absurd hc List.not_mem_nil
  | succ n ih =>
      rw [charsAt]
      split
      · exact fun _ hc => absurd hc List.not_mem_nil
      · next hne => exact List.forall_mem_cons.mpr ⟨hne, ih (p + 1)⟩

theorem charsAt_head (m : Memory) (p : Ptr) (n : Nat) :
    m p = (charsAt m p (n + 1)).headD 0#8 := by
  rw [charsAt]
  split
  · next hzero => exact hzero
  · rfl

theorem charsAt_eq_take (h : IsString m p a) (n : Nat) : charsAt m p n = a.take n := by
  induction h generalizing n with
  | nil hp hm =>
      cases n with
      | zero => rfl
      | succ n => rw [charsAt, if_pos hm, List.take_nil]
  | cons hp hm hc hrest ih =>
      cases n with
      | zero => rfl
      | succ n => rw [charsAt, hm, if_neg hc, ih, List.take_succ_cons]

theorem inRange_self (p : Ptr) {n : Nat} (hn : 0 < n) : InRange p n p := by
  rwa [InRange, BitVec.sub_self]

theorem inRange_succ {n : Nat} {x : Ptr} (hx : InRange (p + 1) n x) : InRange p (n + 1) x :=
  inRange_offset (d := 1) hx (by omega)

theorem inFirst_self (p : Ptr) (n : Nat) (text : List (BitVec 8)) :
    InFirst p (n + 1) text p :=
  inRange_self p (Nat.lt_min.mpr ⟨Nat.succ_pos _, Nat.succ_pos _⟩)

theorem inFirst_cons {n : Nat} {c : BitVec 8} {x : Ptr} (hx : InFirst (p + 1) n a x) :
    InFirst p (n + 1) (c :: a) x :=
  inRange_offset (d := 1) hx (by rw [List.length_cons]; omega)

theorem inFirst_take {n : Nat} {x : Ptr} (hx : InFirst p n (a.take n) x) : InFirst p n a x := by
  refine Nat.lt_of_lt_of_le hx ?_
  rw [List.length_take]
  omega

section Loop

variable {s1 s2 : Ptr} {n i : BitVec 32}

theorem strncmpLoop_stop {k : Nat} (hi : i.toNat + (k + 1) = n.toNat)
    (hp : s1 + i.setWidth 64 = p) (hq : s2 + i.setWidth 64 = q)
    (hstop : m p = 0#8 ∨ m p ≠ m q) (hPp : P p) (hPq : P q) :
    ∃ x : BitVec 32, Answers x.toInt (charsAt m p (k + 1)) (charsAt m q (k + 1)) ∧
      ∀ turns, 0 < turns → Gives m P (strncmpLoop s1 s2 n turns i) x := by
  have hlt : i < n := by bv_omega
  have hne : i ≠ n := by bv_omega
  obtain ⟨x, hanswers, hgives⟩ :=
    byteDifference_gives hPp hPq (charsAt_head m p k) (charsAt_head m q k)
      (charsAt_ne_zero m p _) (charsAt_ne_zero m q _) hstop
  have hend : Gives m P (strncmpEnd s1 s2 n i) x := by
    unfold strncmpEnd
    rw [hp, hq]
    exact .ite_neg hne hgives
  refine ⟨x, hanswers, fun turns hturns => ?_⟩
  obtain ⟨turns, rfl⟩ := exists_turn hturns
  unfold strncmpLoop
  rw [hp, hq]
  exact .ite_pos hlt (gives_stop hPp hPq hstop hend)

/-- With `k` characters left to be compared. -/
theorem strncmpLoop_gives (k : Nat) (hi : i.toNat + k = n.toNat)
    (hp : s1 + i.setWidth 64 = p) (hq : s2 + i.setWidth 64 = q) :
    ∃ x : BitVec 32, Answers x.toInt (charsAt m p k) (charsAt m q k) ∧
      ∀ turns, k < turns →
        Gives m (InEitherFirst p q k (charsAt m p k) (charsAt m q k))
          (strncmpLoop s1 s2 n turns i) x := by
  induction k generalizing i p q with
  | zero =>
      have heq : i = n := by bv_omega
      refine ⟨0#32, .refl _, fun turns hturns => ?_⟩
      obtain ⟨turns, rfl⟩ := exists_turn hturns
      refine .ite_neg ?_ (.ite_pos heq (.pure _ _ _))
      rw [heq]
      exact BitVec.lt_irrefl n
  | succ k ih =>
      have hhere : InEitherFirst p q (k + 1) (charsAt m p (k + 1)) (charsAt m q (k + 1)) p :=
        Or.inl (inFirst_self p k _)
      have hthere : InEitherFirst p q (k + 1) (charsAt m p (k + 1)) (charsAt m q (k + 1)) q :=
        Or.inr (inFirst_self q k _)
      by_cases hstop : m p = 0#8 ∨ m p ≠ m q
      · obtain ⟨x, hanswers, hgives⟩ := strncmpLoop_stop hi hp hq hstop hhere hthere
        exact ⟨x, hanswers, fun turns hturns => hgives turns (Nat.zero_lt_of_lt hturns)⟩
      · have hlt : i < n := by bv_omega
        obtain ⟨hne, heq⟩ := not_or.mp hstop
        have hsame : m p = m q := not_not.mp heq
        have hachars : charsAt m p (k + 1) = m p :: charsAt m (p + 1) k := by
          rw [charsAt, if_neg hne]
        have hbchars : charsAt m q (k + 1) = m p :: charsAt m (q + 1) k := by
          rw [charsAt, ← hsame, if_neg hne]
        -- the next place of either string, as the index has not reached its limit
        have hnext : (i + 1#32).setWidth 64 = i.setWidth 64 + 1 := by bv_omega
        obtain ⟨x, hanswers, hgives⟩ := ih (i := i + 1#32) (p := p + 1) (q := q + 1)
          (by bv_omega) (by rw [hnext, ← BitVec.add_assoc, hp])
          (by rw [hnext, ← BitVec.add_assoc, hq])
        rw [hachars, hbchars] at hhere hthere ⊢
        refine ⟨x, hanswers.cons _, fun turns hturns => ?_⟩
        obtain ⟨turns, rfl⟩ := exists_turn hturns
        unfold strncmpLoop
        rw [hp, hq]
        refine .ite_pos hlt (gives_go hhere hthere hne hsame ?_)
        refine (hgives turns (Nat.lt_of_succ_lt_succ hturns)).mono (fun _ hx => ?_)
        exact hx.imp inFirst_cons inFirst_cons

end Loop

/-! ### `memcmp` -/

theorem memcmpLoop_gives (p1 p2 : Ptr) (k i : Nat) (hp : p1 + BitVec.ofNat 64 i = p)
    (hq : p2 + BitVec.ofNat 64 i = q) :
    ∃ x : BitVec 32, Answers x.toInt (bytesAt m p k) (bytesAt m q k) ∧
      Gives m (InEitherRange p q k) (memcmpLoop p1 p2 k i) x := by
  induction k generalizing i p q with
  | zero => exact ⟨0#32, .refl _, .pure _ _ _⟩
  | succ k ih =>
      have hhere : InEitherRange p q (k + 1) p := Or.inl (inRange_self p (Nat.succ_pos k))
      have hthere : InEitherRange p q (k + 1) q := Or.inr (inRange_self q (Nat.succ_pos k))
      unfold memcmpLoop bytesAt
      rw [hp, hq]
      by_cases hne : m p ≠ m q
      · refine ⟨_, .of_ne hne (answers_sign hne), .peek hhere rfl (.peek hthere rfl ?_)⟩
        exact .ite_pos hne (.peek hhere rfl (.peek hthere rfl (.pure _ _ _)))
      · have hsame : m p = m q := not_not.mp hne
        obtain ⟨x, hanswers, hgives⟩ := ih (i + 1) (p := p + 1) (q := q + 1)
          (by rw [← offset_succ, hp]) (by rw [← offset_succ, hq])
        rw [hsame]
        refine ⟨x, hanswers.cons _, .peek hhere rfl (.peek hthere rfl (.ite_neg hne ?_))⟩
        exact hgives.mono (fun _ hx => hx.imp inRange_succ inRange_succ)

/-! ### One order -/

theorem Compares.intro {α : Type} [Ord α] {a b : α} {f : Nat → Code Reading (BitVec 32)}
    {z : BitVec 32} {bound : Nat} (hanswers : Answers z.toInt a b)
    (hgives : ∀ turns, bound < turns → Gives m P (f turns) z) : Compares m P f z a b :=
  ⟨hanswers, bound + 1, fun turns hturns => (hgives turns hturns).from_start⟩

theorem strcmp_compares (ha : IsString m p a) (hb : IsString m q b) :
    ∃ z, Compares m (InEither p q a b) (fun turns => strcmp turns p q) z a b := by
  obtain ⟨z, hanswers, hgives⟩ := strcmp_gives ha hb
  exact ⟨z, .intro hanswers hgives⟩

theorem strncmp_compares (ha : IsString m p a) (hb : IsString m q b) (n : BitVec 32) :
    ∃ z, Compares m (InEitherFirst p q n.toNat a b) (fun turns => strncmp turns p q n) z
      (a.take n.toNat) (b.take n.toNat) := by
  have hstart : ∀ s : Ptr, s + (0#32).setWidth 64 = s := BitVec.add_zero
  obtain ⟨z, hanswers, hgives⟩ :=
    strncmpLoop_gives (m := m) n.toNat (i := 0#32) (Nat.zero_add _) (hstart p) (hstart q)
  rw [charsAt_eq_take ha, charsAt_eq_take hb] at hanswers hgives
  refine ⟨z, .intro hanswers (fun turns hturns => (hgives turns hturns).mono ?_)⟩
  exact fun x hx => hx.imp inFirst_take inFirst_take

theorem memcmp_compares (m : Memory) (s1 s2 : Ptr) (n : BitVec 64) :
    ∃ z, Compares m (InEitherRange s1 s2 n.toNat) (fun _ => memcmp s1 s2 n) z
      (bytesAt m s1 n.toNat) (bytesAt m s2 n.toNat) := by
  obtain ⟨z, hanswers, hgives⟩ :=
    memcmpLoop_gives (m := m) s1 s2 n.toNat 0 (BitVec.add_zero s1) (BitVec.add_zero s2)
  exact ⟨z, .intro hanswers (fun turns (_ : 0 < turns) => hgives)⟩

/-- What the functions say about the strings at `p`, `q` and `r`, and about any bytes. -/
structure OneOrder (m : Memory) (p q r : Ptr) (a b c : List (BitVec 8)) : Prop where
  /-- The laws of an order, for the numbers that `strcmp` returns. -/
  whole : ∃ ab ba bc ac : BitVec 32,
    Compares m (InEither p q a b) (fun turns => strcmp turns p q) ab a b ∧
    Compares m (InEither q p b a) (fun turns => strcmp turns q p) ba b a ∧
    Compares m (InEither q r b c) (fun turns => strcmp turns q r) bc b c ∧
    Compares m (InEither p r a c) (fun turns => strcmp turns p r) ac a c ∧
    compare ba.toInt 0 = (compare ab.toInt 0).swap ∧
    (ab.toInt ≤ 0 → bc.toInt ≤ 0 → ac.toInt ≤ 0) ∧
    (ab = 0#32 ↔ a = b)
  /-- `strncmp`, and `strcmp` where the cut strings stand. -/
  cut : ∀ n : BitVec 32, ∃ z : BitVec 32,
    Compares m (InEitherFirst p q n.toNat a b) (fun turns => strncmp turns p q n) z
      (a.take n.toNat) (b.take n.toNat) ∧
    ∀ m' p' q', IsString m' p' (a.take n.toNat) → IsString m' q' (b.take n.toNat) →
      ∃ z' : BitVec 32,
        Compares m' (InEither p' q' (a.take n.toNat) (b.take n.toNat))
          (fun turns => strcmp turns p' q') z' (a.take n.toNat) (b.take n.toNat) ∧
        compare z.toInt 0 = compare z'.toInt 0
  /-- `memcmp`, zeros or not. -/
  raw : ∀ (s1 s2 : Ptr) (n : BitVec 64), ∃ z : BitVec 32,
    Compares m (InEitherRange s1 s2 n.toNat) (fun _ => memcmp s1 s2 n) z
      (bytesAt m s1 n.toNat) (bytesAt m s2 n.toNat)

/-- All three answer by the lexicographic order of unsigned bytes. -/
theorem comparisons_one_order {r : Ptr} {c : List (BitVec 8)} (ha : IsString m p a)
    (hb : IsString m q b) (hc : IsString m r c) : OneOrder m p q r a b c where
  whole := by
    obtain ⟨ab, hab⟩ := strcmp_compares ha hb
    obtain ⟨ba, hba⟩ := strcmp_compares hb ha
    obtain ⟨bc, hbc⟩ := strcmp_compares hb hc
    obtain ⟨ac, hac⟩ := strcmp_compares ha hc
    refine ⟨ab, ba, bc, ac, hab, hba, hbc, hac, hab.1.swap hba.1,
      hab.1.nonpos_trans hbc.1 hac.1, ?_⟩
    rw [← hab.1.eq_zero_iff]
    exact BitVec.toInt_inj.symm
  cut := by
    intro n
    obtain ⟨z, hz⟩ := strncmp_compares ha hb n
    refine ⟨z, hz, fun m' p' q' ha' hb' => ?_⟩
    obtain ⟨z', hz'⟩ := strcmp_compares ha' hb'
    exact ⟨z', hz', hz.1.sign_eq hz'.1⟩
  raw := memcmp_compares m

end Compare

/-! ### Characters above 127 -/

/-- Each string is below the next, though `0xe9` is negative as a `char`. -/
def accentMemory : Memory :=
  loaded [(0x1000#64, [0x61#8]), (0x2000#64, [0x61#8, 0x7a#8]), (0x3000#64, [0x61#8, 0xe9#8])]

theorem comparisons_one_order_accent :
    OneOrder accentMemory 0x1000#64 0x2000#64 0x3000#64 [0x61#8] [0x61#8, 0x7a#8]
      [0x61#8, 0xe9#8] :=
  comparisons_one_order (by decide) (by decide) (by decide)

end Asnu
