import Mathlib.Order.Compare

/-!
Three-way comparisons: a number is below, at or above zero as one value is below, at or
above the other. The laws of the order are then laws of the numbers. The order of lists is
the lexicographic one, in which a proper prefix is smaller.
-/

namespace Asnu.Lib

/-- The sign of `z` says how `a` stands to `b`. -/
def Answers {α : Type*} [Ord α] (z : Int) (a b : α) : Prop := compare z 0 = compare a b

namespace Answers

section Laws

variable {α : Type*} [Ord α] {a b c : α} {x y z : Int}

/-- Two answers to one question have one sign. -/
theorem sign_eq (h : Answers x a b) (h' : Answers y a b) : compare x 0 = compare y 0 :=
  h.trans h'.symm

theorem nonpos_iff (h : Answers z a b) : z ≤ 0 ↔ (compare a b).isLE := by
  rw [← h, Int.isLE_compare]

theorem refl [Std.ReflOrd α] (a : α) : Answers 0 a a := by
  rw [Answers, Std.ReflOrd.compare_self, Std.ReflOrd.compare_self]

theorem swap [Std.OrientedOrd α] (h : Answers x a b) (h' : Answers y b a) :
    compare y 0 = (compare x 0).swap := by
  rw [h, h']
  exact Std.OrientedOrd.eq_swap

theorem nonpos_trans [Std.TransOrd α] (h : Answers x a b) (h' : Answers y b c)
    (h'' : Answers z a c) (hx : x ≤ 0) (hy : y ≤ 0) : z ≤ 0 := by
  rw [h.nonpos_iff] at hx
  rw [h'.nonpos_iff] at hy
  rw [h''.nonpos_iff]
  exact Std.TransOrd.isLE_trans hx hy

theorem eq_zero_iff [Std.LawfulEqOrd α] (h : Answers z a b) :
    z = 0 ↔ a = b := by
  rw [← Std.LawfulEqOrd.compare_eq_iff_eq (a := a) (b := b), ← h]
  exact Std.LawfulEqOrd.compare_eq_iff_eq.symm

/-- The difference of two numbers. -/
theorem sub (x y : Int) : Answers (x - y) x y := by
  rw [Answers]
  cases hcompare : compare x y with
  | lt =>
      rw [Int.compare_eq_lt] at hcompare ⊢
      omega
  | eq =>
      rw [Int.compare_eq_eq] at hcompare ⊢
      omega
  | gt =>
      rw [Int.compare_eq_gt] at hcompare ⊢
      omega

end Laws

section Lists

variable {α : Type*} [Ord α] {a b : α} {as bs : List α} {z : Int}

/-- What comes first is the same and does not count. -/
theorem cons [Std.ReflOrd α] (a : α) (h : Answers z as bs) : Answers z (a :: as) (a :: bs) := by
  rw [Answers, h, List.compare_cons_cons, Std.ReflOrd.compare_self, Ordering.eq_then]

/-- The first difference decides. -/
theorem of_ne [Std.LawfulEqOrd α] (hne : a ≠ b) (h : Answers z a b) :
    Answers z (a :: as) (b :: bs) := by
  have hdecided : compare a b ≠ .eq := fun heq => hne (Std.LawfulEqOrd.eq_of_compare heq)
  rw [Answers, h, List.compare_cons_cons]
  cases hcompare : compare a b with
  | lt => rfl
  | gt => rfl
  | eq => exact absurd hcompare hdecided

/-- Lists that end with a value below all that is in them are compared by their first values
unless these are equal and not the end. -/
theorem of_heads [Std.OrientedOrd α] [Std.LawfulEqOrd α] {bot : α}
    (has : ∀ c ∈ as, compare bot c = .lt) (hbs : ∀ c ∈ bs, compare bot c = .lt)
    (hstop : as.headD bot = bot ∨ as.headD bot ≠ bs.headD bot)
    (h : Answers z (as.headD bot) (bs.headD bot)) : Answers z as bs := by
  cases as with
  | nil =>
      cases bs with
      | nil => exact h.trans Std.ReflOrd.compare_self
      | cons b bs => exact h.trans (hbs b List.mem_cons_self)
  | cons a as =>
      have ha := has a List.mem_cons_self
      cases bs with
      | nil =>
          have habove : compare a bot = .gt := by
            rw [Std.OrientedOrd.eq_swap, ha, Ordering.swap_lt]
          exact h.trans habove
      | cons b bs =>
          refine of_ne (hstop.resolve_left (fun hend => ?_)) h
          have hbot : a = bot := hend
          rw [hbot, Std.ReflOrd.compare_self] at ha
          cases ha

end Lists

end Answers

/-- Bit vectors without a sign are compared as numbers. -/
theorem compare_toNat {w : Nat} (x y : BitVec w) :
    compare x y = compare (x.toNat : Int) y.toNat := by
  change compareOfLessAndEq x y = compareOfLessAndEq (x.toNat : Int) y.toNat
  simp only [compareOfLessAndEq, BitVec.lt_def, Int.ofNat_lt, BitVec.toNat_inj, Int.natCast_inj]

end Asnu.Lib
