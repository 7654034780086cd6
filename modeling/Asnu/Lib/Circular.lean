import Mathlib.Data.List.Basic

/-!
A queue in a circular array of `n` cells. It is read at `t` and written at `h`,
and is empty when the two are equal, so one cell is always unused.
-/

namespace Asnu.Lib.Circular

variable {α : Type*}

/-- The place after `i`. -/
def next (n i : Nat) : Nat := (i + 1) % n

/-- The number of cells in use. -/
def size (n h t : Nat) : Nat := (h + (n - t)) % n

/-- The `k` cells from `t` on. -/
def window (n : Nat) (cell : Nat → α) (t k : Nat) : List α :=
  (List.range k).map (fun d => cell ((t + d) % n))

/-- The queue, oldest element first. -/
def contents (n : Nat) (cell : Nat → α) (h t : Nat) : List α :=
  window n cell t (size n h t)

section Places

variable {n h t : Nat}

theorem next_lt (hn : 0 < n) (i : Nat) : next n i < n := Nat.mod_lt _ hn

theorem next_eq (ht : t < n) : next n t = if t + 1 = n then 0 else t + 1 := by
  unfold next
  split
  · next hlast => rw [hlast, Nat.mod_self]
  · next hlast => exact Nat.mod_eq_of_lt (by omega)

theorem size_eq (hh : h < n) (ht : t < n) :
    size n h t = if t ≤ h then h - t else h + n - t := by
  unfold size
  split
  · next hle =>
      have hsum : h + (n - t) = h - t + n := by omega
      rw [hsum, Nat.add_mod_right, Nat.mod_eq_of_lt (by omega)]
  · next hlt =>
      have hsum : h + (n - t) = h + n - t := by omega
      rw [hsum, Nat.mod_eq_of_lt (by omega)]

theorem size_self (ht : t < n) : size n t t = 0 := by
  rw [size_eq ht ht, if_pos (Nat.le_refl t), Nat.sub_self]

theorem size_lt (hh : h < n) : size n h t < n :=
  Nat.mod_lt _ (by omega)

theorem size_eq_zero_iff (hh : h < n) (ht : t < n) : size n h t = 0 ↔ h = t := by
  rw [size_eq hh ht]
  split <;> omega

/-- The array is full when the place after `h` is `t`. -/
theorem next_eq_iff (hh : h < n) (ht : t < n) (hn : 1 < n) :
    next n h = t ↔ size n h t = n - 1 := by
  rw [next_eq hh, size_eq hh ht]
  split <;> split <;> omega

theorem size_next_left (hh : h < n) (ht : t < n) (hroom : next n h ≠ t) :
    size n (next n h) t = size n h t + 1 := by
  have hnext := next_lt (n := n) (by omega) h
  rw [size_eq hnext ht, size_eq hh ht]
  rw [next_eq hh] at hroom ⊢
  split_ifs at hroom ⊢ <;> omega

theorem size_next_right (hh : h < n) (ht : t < n) (hne : h ≠ t) :
    size n h (next n t) + 1 = size n h t := by
  have hnext := next_lt (n := n) (by omega) t
  rw [size_eq hh hnext, size_eq hh ht, next_eq ht]
  split_ifs <;> omega

/-- The end of the window is where the next element goes. -/
theorem add_size (hh : h < n) (ht : t < n) : (t + size n h t) % n = h := by
  rw [size_eq hh ht]
  split
  · next hle =>
      rw [Nat.add_sub_cancel' hle, Nat.mod_eq_of_lt hh]
  · next hlt =>
      have hsum : t + (h + n - t) = h + n := by omega
      rw [hsum, Nat.add_mod_right, Nat.mod_eq_of_lt hh]

/-- No cell in use is the one at `h`. -/
theorem add_ne_of_lt_size {d : Nat} (hh : h < n) (ht : t < n) (hd : d < size n h t) :
    (t + d) % n ≠ h := by
  have hsize : size n h t < n := size_lt hh
  rw [size_eq hh ht] at hd hsize
  intro heq
  by_cases hlt : t + d < n
  · rw [Nat.mod_eq_of_lt hlt] at heq
    split at hd <;> omega
  · have hsum : (t + d) % n = t + d - n := by
      rw [Nat.mod_eq_sub_mod (by omega), Nat.mod_eq_of_lt (by omega)]
    split at hd <;> omega

end Places

section Window

variable {n : Nat}

@[simp] theorem length_window (cell : Nat → α) (t k : Nat) :
    (window n cell t k).length = k := by
  simp [window]

@[simp] theorem length_contents (cell : Nat → α) (h t : Nat) :
    (contents n cell h t).length = size n h t := length_window cell t _

theorem window_succ (cell : Nat → α) (t k : Nat) :
    window n cell t (k + 1) = window n cell t k ++ [cell ((t + k) % n)] := by
  simp [window, List.range_succ]

theorem window_cons (cell : Nat → α) {t : Nat} (ht : t < n) (k : Nat) :
    window n cell t (k + 1) = cell t :: window n cell (next n t) k := by
  have hcells : ∀ d, cell ((t + (d + 1)) % n) = cell ((next n t + d) % n) := by
    intro d
    rw [next, Nat.mod_add_mod, Nat.add_assoc t 1 d, Nat.add_comm 1 d]
  simp only [window, List.range_succ_eq_map, List.map_cons, List.map_map,
    Nat.add_zero, Nat.mod_eq_of_lt ht]
  congr 1
  exact List.map_congr_left (fun d _ => hcells d)

theorem window_congr {cell cell' : Nat → α} {t k : Nat}
    (heq : ∀ d < k, cell' ((t + d) % n) = cell ((t + d) % n)) :
    window n cell' t k = window n cell t k :=
  List.map_congr_left (fun d hd => heq d (List.mem_range.mp hd))

variable {h t : Nat} (cell : Nat → α)

theorem contents_self (ht : t < n) : contents n cell t t = [] := by
  rw [contents, size_self ht]
  rfl

/-- Writing at `h` and moving it on appends, when there is room. -/
theorem contents_push (hh : h < n) (ht : t < n) (hroom : next n h ≠ t) (c : α) :
    contents n (fun i => if i = h then c else cell i) (next n h) t =
      contents n cell h t ++ [c] := by
  rw [contents, size_next_left hh ht hroom, window_succ, add_size hh ht, if_pos rfl,
    contents, window_congr]
  intro d hd
  exact if_neg (add_ne_of_lt_size hh ht hd)

/-- Moving `t` on removes the oldest element, which is the one at `t`. -/
theorem contents_pop (hh : h < n) (ht : t < n) (hne : h ≠ t) :
    contents n cell h t = cell t :: contents n cell h (next n t) := by
  rw [contents, ← size_next_right hh ht hne, window_cons cell ht]
  rfl

end Window

end Asnu.Lib.Circular
