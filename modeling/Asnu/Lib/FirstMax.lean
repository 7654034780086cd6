import Mathlib.Tactic

/-!
The first place that holds the greatest value, among the first places of a
partial sequence, as a single pass over the sequence finds it: place by place,
remembering the last one that was greater than all before it.
-/

namespace Asnu.Lib

variable {α : Type*} [LinearOrder α]

/-- The answer of the pass over the places below `n`: none of them holds a
value, or `i` is the first that holds the greatest. -/
def FirstMax (key : Nat → Option α) (n : Nat) : Option Nat → Prop
  | none => ∀ k < n, key k = none
  | some i => i < n ∧ ∃ v, key i = some v ∧
      (∀ k < n, ∀ w, key k = some w → w ≤ v) ∧ ∀ k < i, ∀ w, key k = some w → w < v

namespace FirstMax

variable {key : Nat → Option α} {n : Nat}

theorem zero : FirstMax key 0 none := fun k hk => absurd hk (Nat.not_lt_zero k)

/-- A place without a value changes nothing. -/
theorem skip {o : Option Nat} (h : FirstMax key n o) (hn : key n = none) :
    FirstMax key (n + 1) o := by
  cases o with
  | none =>
      intro k hk
      rcases Nat.lt_succ_iff_lt_or_eq.mp hk with hlt | rfl
      · exact h k hlt
      · exact hn
  | some i =>
      obtain ⟨hi, v, hv, hmax, hfirst⟩ := h
      refine ⟨Nat.lt_succ_of_lt hi, v, hv, fun k hk w hw => ?_, hfirst⟩
      rcases Nat.lt_succ_iff_lt_or_eq.mp hk with hlt | rfl
      · exact hmax k hlt w hw
      · exact absurd (hw.symm.trans hn) (Option.some_ne_none w)

/-- Nor does one whose value is not greater than the greatest so far. -/
theorem keep {i : Nat} {v w : α} (h : FirstMax key n (some i)) (hi : key i = some v)
    (hn : key n = some w) (hle : w ≤ v) : FirstMax key (n + 1) (some i) := by
  obtain ⟨hlt, v', hv', hmax, hfirst⟩ := h
  obtain rfl := Option.some.inj (hv'.symm.trans hi)
  refine ⟨Nat.lt_succ_of_lt hlt, v', hv', fun k hk u hu => ?_, hfirst⟩
  rcases Nat.lt_succ_iff_lt_or_eq.mp hk with hkn | rfl
  · exact hmax k hkn u hu
  · obtain rfl := Option.some.inj (hu.symm.trans hn)
    exact hle

/-- One whose value is greater becomes the answer. -/
theorem record {o : Option Nat} {w : α} (h : FirstMax key n o) (hn : key n = some w)
    (hmore : ∀ i v, o = some i → key i = some v → v < w) :
    FirstMax key (n + 1) (some n) := by
  have hbelow : ∀ k < n, ∀ u, key k = some u → u < w := by
    intro k hk u hu
    cases o with
    | none => exact absurd (hu.symm.trans (h k hk)) (Option.some_ne_none u)
    | some i =>
        obtain ⟨_, v, hv, hmax, _⟩ := h
        exact lt_of_le_of_lt (hmax k hk u hu) (hmore i v rfl hv)
  refine ⟨Nat.lt_succ_self n, w, hn, fun k hk u hu => ?_, hbelow⟩
  rcases Nat.lt_succ_iff_lt_or_eq.mp hk with hlt | rfl
  · exact le_of_lt (hbelow k hlt u hu)
  · exact le_of_eq (Option.some.inj (hu.symm.trans hn))

theorem unique {i j : Nat} (hi : FirstMax key n (some i)) (hj : FirstMax key n (some j)) :
    i = j := by
  obtain ⟨hin, v, hv, hmaxi, hfirsti⟩ := hi
  obtain ⟨hjn, w, hw, hmaxj, hfirstj⟩ := hj
  rcases Nat.lt_trichotomy i j with hlt | heq | hgt
  · exact absurd (hmaxi j hjn w hw) (not_le_of_gt (hfirstj i hlt v hv))
  · exact heq
  · exact absurd (hmaxj i hin v hv) (not_le_of_gt (hfirsti j hgt w hw))

/-- The greatest value before a place is the greatest outside it exactly when some
value before it is at least as great as every value after it. -/
theorem others_le_iff {i j : Nat} {v : α} (hj : FirstMax key i (some j))
    (hv : key j = some v) :
    (∀ k < n, k ≠ i → ∀ w, key k = some w → w ≤ v) ↔
      ∃ k < i, ∃ u, key k = some u ∧
        ∀ l < n, i < l → ∀ w, key l = some w → w ≤ u := by
  obtain ⟨hji, v', hv', hmax, _⟩ := hj
  obtain rfl := Option.some.inj (hv'.symm.trans hv)
  constructor
  · intro hothers
    exact ⟨j, hji, v', hv', fun l hl hil => hothers l hl (Nat.ne_of_gt hil)⟩
  · rintro ⟨k, hk, u, hu, hafter⟩ l hl hne w hw
    rcases Nat.lt_or_gt_of_ne hne with hlt | hgt
    · exact hmax l hlt w hw
    · exact le_trans (hafter l hl hgt w hw) (hmax k hk u hu)

end FirstMax

end Asnu.Lib
