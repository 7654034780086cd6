import Mathlib.Data.List.GetD
import Mathlib.Data.List.Rotate

/-!
Bounded searches. `first p n` is the loop that tries `0, 1, ..., n - 1` and
leaves at the first hit. A search that starts inside a list and wraps around
is the ordinary left-to-right search of the rotated list.
-/

namespace Asnu.Lib

/-- The loop over `i, i + 1, ...`, at most `n` of them, with an early exit. -/
def firstFrom (p : Nat → Bool) : Nat → Nat → Option Nat
  | 0, _ => none
  | n + 1, i => if p i then some i else firstFrom p n (i + 1)

def first (p : Nat → Bool) (n : Nat) : Option Nat := firstFrom p n 0

theorem firstFrom_eq_some {p : Nat → Bool} {n i k : Nat}
    (h : firstFrom p n i = some k) :
    i ≤ k ∧ k < i + n ∧ p k = true ∧ ∀ j, i ≤ j → j < k → p j = false := by
  induction n generalizing i with
  | zero => simp [firstFrom] at h
  | succ n ih =>
      simp only [firstFrom] at h
      split at h
      · next hi =>
          obtain rfl : i = k := by simpa using h
          exact ⟨Nat.le_refl _, by omega, hi, fun j _ _ => by omega⟩
      · next hi =>
          obtain ⟨hle, hlt, hk, hmin⟩ := ih h
          refine ⟨by omega, by omega, hk, ?_⟩
          intro j hj hjk
          rcases Nat.eq_or_lt_of_le hj with rfl | hij
          · simpa using hi
          · exact hmin j hij hjk

theorem firstFrom_eq_none {p : Nat → Bool} {n i : Nat}
    (h : firstFrom p n i = none) :
    ∀ j, i ≤ j → j < i + n → p j = false := by
  induction n generalizing i with
  | zero => intro j _ _; omega
  | succ n ih =>
      simp only [firstFrom] at h
      split at h
      · simp at h
      · next hi =>
          intro j hj hjn
          rcases Nat.eq_or_lt_of_le hj with rfl | hij
          · simpa using hi
          · exact ih h j hij (by omega)

/-- The search returns the least index below the bound that passes. -/
theorem first_eq_some_iff {p : Nat → Bool} {n k : Nat} :
    first p n = some k ↔ k < n ∧ p k = true ∧ ∀ j < k, p j = false := by
  constructor
  · intro h
    obtain ⟨_, hlt, hk, hmin⟩ := firstFrom_eq_some h
    exact ⟨by omega, hk, fun j hj => hmin j (Nat.zero_le j) hj⟩
  · rintro ⟨hlt, hk, hmin⟩
    cases hfirst : first p n with
    | none =>
        have hfail := firstFrom_eq_none hfirst k (Nat.zero_le k) (by omega)
        simp [hk] at hfail
    | some found =>
        obtain ⟨_, hfound, hpass, hleast⟩ := firstFrom_eq_some hfirst
        rcases Nat.lt_trichotomy found k with hlow | rfl | hhigh
        · simp [hmin found hlow] at hpass
        · rfl
        · simp [hleast k (Nat.zero_le k) hhigh] at hk

theorem first_eq_none_iff {p : Nat → Bool} {n : Nat} :
    first p n = none ↔ ∀ j < n, p j = false := by
  constructor
  · intro h j hj
    exact firstFrom_eq_none h j (Nat.zero_le j) (by omega)
  · intro h
    cases hfirst : first p n with
    | none => rfl
    | some found =>
        obtain ⟨hlt, hpass, _⟩ := first_eq_some_iff.mp hfirst
        simp [h found hlt] at hpass

theorem first_congr {p q : Nat → Bool} {n : Nat}
    (h : ∀ j < n, p j = q j) : first p n = first q n := by
  cases hq : first q n with
  | none =>
      rw [first_eq_none_iff] at hq ⊢
      exact fun j hj => (h j hj).trans (hq j hj)
  | some k =>
      rw [first_eq_some_iff] at hq ⊢
      obtain ⟨hlt, hk, hmin⟩ := hq
      exact ⟨hlt, (h k hlt).trans hk,
        fun j hj => (h j (by omega)).trans (hmin j hj)⟩

section Lists

variable {α : Type*}

/-- Searching the positions of a list is searching the list. -/
theorem first_getD_eq_find? (q : α → Bool) (xs : List α) (d : α) :
    (first (fun i => q (xs.getD i d)) xs.length).map (fun i => xs.getD i d) =
      xs.find? q := by
  cases hfind : xs.find? q with
  | none =>
      rw [List.find?_eq_none] at hfind
      rw [Option.map_eq_none_iff, first_eq_none_iff]
      intro j hj
      have hmem := hfind (xs.getD j d) (by
        rw [List.getD_eq_getElem xs d hj]
        exact List.getElem_mem hj)
      simpa using hmem
  | some x =>
      rw [List.find?_eq_some_iff_getElem] at hfind
      obtain ⟨hx, k, hk, rfl, hmin⟩ := hfind
      have hfirst : first (fun i => q (xs.getD i d)) xs.length = some k := by
        rw [first_eq_some_iff]
        refine ⟨hk, by rw [List.getD_eq_getElem xs d hk]; exact hx, ?_⟩
        intro j hj
        rw [List.getD_eq_getElem xs d (by omega)]
        simpa using hmin j hj
      rw [hfirst, Option.map_some, List.getD_eq_getElem xs d hk]

/-- A search that starts at `start` and wraps around at the end of the list
is the search of the rotated list. -/
theorem first_cyclic_eq_find? (q : α → Bool) (xs : List α) (d : α)
    (start : Nat) :
    (first (fun i => q (xs.getD ((start + i) % xs.length) d)) xs.length).map
        (fun i => xs.getD ((start + i) % xs.length) d) =
      (xs.rotate start).find? q := by
  have hget : ∀ i < xs.length,
      (xs.rotate start).getD i d = xs.getD ((start + i) % xs.length) d := by
    intro i hi
    have hmod : (start + i) % xs.length < xs.length := Nat.mod_lt _ (by omega)
    rw [List.getD_eq_getElem _ d (by simpa using hi), List.getElem_rotate,
      List.getD_eq_getElem _ d hmod]
    simp only [Nat.add_comm]
  rw [← first_getD_eq_find? q (xs.rotate start) d, List.length_rotate]
  rw [first_congr (q := fun i => q ((xs.rotate start).getD i d))
    (fun i hi => by rw [hget i hi])]
  cases hfirst : first (fun i => q ((xs.rotate start).getD i d)) xs.length with
  | none => rfl
  | some k =>
      have hk := (first_eq_some_iff.mp hfirst).1
      simp only [Option.map_some, hget k hk]

end Lists

/-- What is found in a list is found in any part of it that keeps it. -/
theorem find?_filter_of_find? {α : Type*} {p q : α → Bool} {l : List α} {a : α}
    (h : l.find? p = some a) (hq : q a = true) : (l.filter q).find? p = some a := by
  induction l with
  | nil => simp at h
  | cons b l ih =>
      by_cases hb : p b = true
      · rw [List.find?_cons_of_pos hb] at h
        obtain rfl := Option.some.inj h
        rw [List.filter_cons_of_pos hq, List.find?_cons_of_pos hb]
      · rw [List.find?_cons_of_neg hb] at h
        rw [List.filter_cons]
        split
        · rw [List.find?_cons_of_neg hb, ih h]
        · exact ih h

end Asnu.Lib
