import Mathlib.Tactic

/-!
A flat byte memory with 64-bit addresses. Ranges are counted from their first
address modulo `2 ^ 64`, so a range may run over the top of the address space.
Words are little-endian.
-/

namespace Asnu.Lib

abbrev Memory := BitVec 64 → BitVec 8

/-- `x` is one of the `n` bytes that start at `a`. -/
def InRange (a : BitVec 64) (n : Nat) (x : BitVec 64) : Prop := (x - a).toNat < n

instance (a : BitVec 64) (n : Nat) (x : BitVec 64) : Decidable (InRange a n x) :=
  inferInstanceAs (Decidable ((x - a).toNat < n))

theorem offset_sub (a d : BitVec 64) : a + d - a = d := by
  rw [BitVec.add_comm, BitVec.add_sub_cancel]

theorem offset_toNat (a : BitVec 64) {d : Nat} (hd : d < 2 ^ 64) :
    (a + BitVec.ofNat 64 d - a).toNat = d := by
  rw [offset_sub, BitVec.toNat_ofNat, Nat.mod_eq_of_lt hd]

theorem inRange_add (a : BitVec 64) {n d : Nat} (hd : d < n) (hn : n ≤ 2 ^ 64) :
    InRange a n (a + BitVec.ofNat 64 d) := by
  rw [InRange, offset_toNat a (by omega)]
  exact hd

/-- A range inside another. -/
theorem inRange_offset {a x : BitVec 64} {d m n : Nat} (h : InRange (a + BitVec.ofNat 64 d) m x)
    (hn : d + m ≤ n) : InRange a n x := by
  unfold InRange at *
  bv_omega

theorem succ_offset (a : BitVec 64) (d : Nat) :
    a + 1 + BitVec.ofNat 64 d = a + BitVec.ofNat 64 (d + 1) := by
  have hone : BitVec.ofNat 64 d + 1 = 1 + BitVec.ofNat 64 d := BitVec.add_comm _ _
  rw [BitVec.ofNat_add, BitVec.add_assoc]
  exact congrArg (a + ·) hone.symm

/-- Two ranges of at most `n` bytes whose starts are `n` apart in both
directions have no byte in common. -/
theorem not_inRange_of_apart {a b x : BitVec 64} {m n : Nat}
    (hab : m ≤ (b - a).toNat) (hba : n ≤ (a - b).toNat)
    (hx : InRange a m x) : ¬ InRange b n x := by
  unfold InRange at *
  bv_omega

namespace Memory

/-- Write one byte. -/
def poke (m : Memory) (a : BitVec 64) (b : BitVec 8) : Memory :=
  fun x => if x = a then b else m x

@[simp] theorem poke_self (m : Memory) (a : BitVec 64) (b : BitVec 8) :
    m.poke a b a = b := by
  simp [poke]

theorem poke_ne (m : Memory) {a x : BitVec 64} (b : BitVec 8) (h : x ≠ a) :
    m.poke a b x = m x := by
  simp [poke, h]

/-- The memory with `n` bytes from `a` on all equal to `c`. -/
def fill (m : Memory) (a : BitVec 64) (n : Nat) (c : BitVec 8) : Memory :=
  fun x => if InRange a n x then c else m x

theorem fill_in (m : Memory) {a x : BitVec 64} {n : Nat} (c : BitVec 8)
    (h : InRange a n x) : m.fill a n c x = c := by
  simp [fill, h]

theorem fill_out (m : Memory) {a x : BitVec 64} {n : Nat} (c : BitVec 8)
    (h : ¬ InRange a n x) : m.fill a n c x = m x := by
  simp [fill, h]

/-- The memory with the `n` bytes from `dst` on replaced by those from `src`
on, all read before any is written. -/
def copy (m : Memory) (dst src : BitVec 64) (n : Nat) : Memory :=
  fun x => if InRange dst n x then m (src + (x - dst)) else m x

/-- The `n` bytes from `a` on as a little-endian number. -/
def loadBytes (m : Memory) (a : BitVec 64) : Nat → Nat
  | 0 => 0
  | n + 1 => (m a).toNat + 256 * loadBytes m (a + 1) n

/-- The memory with the `n` bytes from `a` on set to those of `v`, little-endian. -/
def storeBytes (m : Memory) (a : BitVec 64) (n v : Nat) : Memory :=
  fun x => if InRange a n x then BitVec.ofNat 8 (v / 256 ^ (x - a).toNat) else m x

def load64 (m : Memory) (a : BitVec 64) : BitVec 64 :=
  BitVec.ofNat 64 (m.loadBytes a 8)

def store64 (m : Memory) (a v : BitVec 64) : Memory :=
  fun x => if InRange a 8 x then
    BitVec.ofNat 8 (v.toNat / 256 ^ (x - a).toNat) else m x

theorem store64_out (m : Memory) {a x : BitVec 64} (v : BitVec 64)
    (h : ¬ InRange a 8 x) : m.store64 a v x = m x := by
  simp [store64, h]

theorem loadBytes_congr {m m' : Memory} {a b : BitVec 64} {n : Nat}
    (h : ∀ d < n, m (a + BitVec.ofNat 64 d) = m' (b + BitVec.ofNat 64 d)) :
    m.loadBytes a n = m'.loadBytes b n := by
  induction n generalizing a b with
  | zero => rfl
  | succ n ih =>
      have hhead : m a = m' b := by simpa using h 0 (by omega)
      have htail : m.loadBytes (a + 1) n = m'.loadBytes (b + 1) n := by
        apply ih
        intro d hd
        rw [succ_offset, succ_offset]
        exact h (d + 1) (by omega)
      simp only [loadBytes, hhead, htail]

/-- Bytes that are the base-256 digits of `v` read back as `v`. -/
theorem loadBytes_digits {m : Memory} {a : BitVec 64} {n v : Nat}
    (h : ∀ d < n, (m (a + BitVec.ofNat 64 d)).toNat = v / 256 ^ d % 256) :
    m.loadBytes a n = v % 256 ^ n := by
  induction n generalizing a v with
  | zero => simp [loadBytes, Nat.mod_one]
  | succ n ih =>
      have hhead : (m a).toNat = v % 256 := by simpa using h 0 (by omega)
      have htail : m.loadBytes (a + 1) n = v / 256 % 256 ^ n := by
        apply ih
        intro d hd
        rw [succ_offset, h (d + 1) (by omega), Nat.div_div_eq_div_mul, Nat.pow_succ,
          Nat.mul_comm]
      rw [loadBytes, hhead, htail, Nat.pow_succ, Nat.mul_comm (256 ^ n),
        Nat.mod_mul]

/-- A number depends on its own bytes only. -/
theorem loadBytes_of_range {m m' : Memory} {a : BitVec 64} {n : Nat} (hn : n ≤ 2 ^ 64)
    (h : ∀ x, InRange a n x → m x = m' x) : m.loadBytes a n = m'.loadBytes a n :=
  loadBytes_congr (fun _ hd => h _ (inRange_add a hd hn))

theorem storeBytes_out (m : Memory) {a x : BitVec 64} {n : Nat} (v : Nat)
    (h : ¬ InRange a n x) : m.storeBytes a n v x = m x := by
  simp [storeBytes, h]

theorem loadBytes_storeBytes (m : Memory) (a : BitVec 64) {n : Nat} (v : Nat)
    (hn : n ≤ 2 ^ 64) : (m.storeBytes a n v).loadBytes a n = v % 256 ^ n := by
  apply loadBytes_digits
  intro d hd
  rw [storeBytes, if_pos (inRange_add a hd hn), offset_toNat a (by omega), BitVec.toNat_ofNat]

theorem loadBytes_of_zero {m : Memory} {a : BitVec 64} {n : Nat} (hn : n ≤ 2 ^ 64)
    (h : ∀ x, InRange a n x → m x = 0#8) : m.loadBytes a n = 0 := by
  have hdigits : m.loadBytes a n = 0 % 256 ^ n := by
    apply loadBytes_digits
    intro d hd
    simp [h _ (inRange_add a hd hn)]
  rw [hdigits, Nat.zero_mod]

theorem load64_congr {m m' : Memory} {a : BitVec 64}
    (h : ∀ x, InRange a 8 x → m x = m' x) : m.load64 a = m'.load64 a :=
  congrArg (BitVec.ofNat 64) (loadBytes_of_range (by decide) h)

theorem load64_store64 (m : Memory) (a v : BitVec 64) :
    (m.store64 a v).load64 a = v := by
  have hdigits : (m.store64 a v).loadBytes a 8 = v.toNat % 256 ^ 8 :=
    m.loadBytes_storeBytes a v.toNat (by decide)
  apply BitVec.eq_of_toNat_eq
  rw [load64, hdigits, BitVec.toNat_ofNat]
  have hv := v.isLt
  omega

theorem load64_store64_apart (m : Memory) {a b : BitVec 64} (v : BitVec 64)
    (hab : 8 ≤ (b - a).toNat) (hba : 8 ≤ (a - b).toNat) :
    (m.store64 a v).load64 b = m.load64 b := by
  apply load64_congr
  intro x hx
  exact store64_out m v (not_inRange_of_apart hba hab hx)

theorem load64_of_zero {m : Memory} {a : BitVec 64}
    (h : ∀ x, InRange a 8 x → m x = 0#8) : m.load64 a = 0#64 := by
  rw [load64, loadBytes_of_zero (by decide) h]

end Memory

end Asnu.Lib
