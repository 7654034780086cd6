import Mathlib.Data.List.GetD
import Mathlib.Data.List.Nodup
import Mathlib.Data.Nat.ModEq

/-!
Going round a list by searching it. From a member `c` of a list, look for the
next element that passes a test, wrapping around, and come back to `c` if
there is none. The elements visited are the ring of `c` and the elements that
pass, and one search is one place further in the ring.
-/

namespace Asnu.Lib

variable {α : Type*} [DecidableEq α]

/-- The members that pass `e`, together with `c`, in the order of the list. -/
def ring (e : α → Bool) (c : α) (xs : List α) : List α :=
  xs.filter (fun p => p == c || e p)

theorem mem_ring {e : α → Bool} {c p : α} {xs : List α} :
    p ∈ ring e c xs ↔ p ∈ xs ∧ (p = c ∨ e p = true) := by
  simp [ring]

theorem ring_split {e : α → Bool} {c : α} {xs ys : List α} (hxs : c ∉ xs)
    (hys : c ∉ ys) :
    ring e c (xs ++ c :: ys) = xs.filter e ++ c :: ys.filter e := by
  have hskip : ∀ zs : List α, c ∉ zs →
      zs.filter (fun p => p == c || e p) = zs.filter e := by
    intro zs hzs
    apply List.filter_congr
    intro p hp
    have hne : p ≠ c := fun heq => hzs (heq ▸ hp)
    simp [hne]
  rw [ring, List.filter_append, List.filter_cons_of_pos (by simp), hskip xs hxs,
    hskip ys hys]

theorem idxOf_ring_split {e : α → Bool} {c : α} {xs ys : List α}
    (hxs : c ∉ xs) :
    (xs.filter e ++ c :: ys.filter e).idxOf c = (xs.filter e).length := by
  have hnot : c ∉ xs.filter e := fun hc => hxs (List.mem_filter.mp hc).1
  rw [List.idxOf_append_of_notMem hnot, List.idxOf_cons_self, Nat.add_zero]

/-- Searching from just after `c` to just before it gives the successor of `c`
in its ring, or `c` itself when it is alone. -/
theorem find?_eq_ring_succ {e : α → Bool} {c : α} {xs ys : List α} (d : α)
    (hxs : c ∉ xs) (hys : c ∉ ys) (hc : e c = false) :
    ((ys ++ (xs ++ [c])).find? e).getD c =
      (ring e c (xs ++ c :: ys)).getD
        (((ring e c (xs ++ c :: ys)).idxOf c + 1) %
          (ring e c (xs ++ c :: ys)).length) d := by
  have hhead : (ys ++ (xs ++ [c])).find? e = (ys.filter e ++ xs.filter e).head? := by
    rw [← List.head?_filter, List.filter_append, List.filter_append]
    simp [hc]
  rw [hhead, ring_split hxs hys, idxOf_ring_split hxs]
  generalize xs.filter e = before
  cases hafter : ys.filter e with
  | cons y rest =>
      have hlt : before.length + 1 < (before ++ c :: y :: rest).length := by simp
      rw [Nat.mod_eq_of_lt hlt]
      simp
  | nil =>
      have hlen : (before ++ [c]).length = before.length + 1 := by simp
      rw [hlen, Nat.mod_self]
      cases before <;> simp

theorem nodup_ring {e : α → Bool} {c : α} {xs : List α} (h : xs.Nodup) :
    (ring e c xs).Nodup := h.filter _

theorem idxOf_getD {xs : List α} (h : xs.Nodup) {i : Nat} (d : α)
    (hi : i < xs.length) : xs.idxOf (xs.getD i d) = i := by
  rw [List.getD_eq_getElem _ _ hi]
  exact h.idxOf_getElem i hi

/-- Walking a cycle of length `m` from `a`, each place comes up exactly once
in `m` steps. -/
theorem existsUnique_add_mod (a : Nat) {q m : Nat} (hq : q < m) :
    ∃! i, i < m ∧ (a + i) % m = q := by
  have hm : 0 < m := by omega
  have hlt : a % m < m := Nat.mod_lt a hm
  have hsum : a + (q + (m - a % m)) = q + m * (a / m + 1) := by
    have hdiv := Nat.div_add_mod a m
    rw [Nat.mul_add, Nat.mul_one]
    omega
  have hplace : (a + (q + (m - a % m)) % m) % m = q := by
    rw [Nat.add_mod_mod, hsum, Nat.add_mul_mod_self_left, Nat.mod_eq_of_lt hq]
  refine ⟨(q + (m - a % m)) % m, ⟨Nat.mod_lt _ hm, hplace⟩, ?_⟩
  rintro j ⟨hj, hjq⟩
  have hmod : a + j ≡ a + (q + (m - a % m)) % m [MOD m] := hjq.trans hplace.symm
  exact (Nat.ModEq.add_left_cancel' a hmod).eq_of_lt_of_lt hj (Nat.mod_lt _ hm)

end Asnu.Lib
