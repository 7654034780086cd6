import Asnu.CString

/-!
`memmove`: the loop of `memcpy` when the source is behind the destination, and a
loop from the last byte down when it is before it.
-/

namespace Asnu

open Lib

/-- The second loop of `memmove`, with `i` bytes left. -/
def memmoveDown (dest src : Ptr) : Nat → Memory → Memory
  | 0, m => m
  | i + 1, m => memmoveDown dest src i
      (m.poke (dest + BitVec.ofNat 64 i) (m (src + BitVec.ofNat 64 i)))

def memmove (m : Memory) (dest src : Ptr) (n : BitVec 64) : Memory :=
  if src > dest then memcpyLoop dest src n.toNat 0 m
  else if src < dest then memmoveDown dest src n.toNat m
  else m

/-- What is read must not have been written in a turn before, which is one further up. -/
theorem memmoveDown_apply (dest src : Ptr) (n : Nat) (m : Memory) (hn : n ≤ 2 ^ 64)
    (hapart : ∀ j k, j < k → k < n → dest + BitVec.ofNat 64 k ≠ src + BitVec.ofNat 64 j)
    (x : Ptr) :
    memmoveDown dest src n m x =
      if (x - dest).toNat < n then m (src + (x - dest)) else m x := by
  induction n generalizing m with
  | zero => rw [memmoveDown, if_neg (Nat.not_lt_zero _)]
  | succ n ih =>
      rw [memmoveDown, ih _ (by omega) (fun j k hjk hk => hapart j k hjk (by omega))]
      have hx := eq_offset_iff dest x (i := n) (by omega)
      by_cases hlow : (x - dest).toNat < n
      · rw [if_pos hlow, if_pos (by omega)]
        apply Memory.poke_ne
        have hoff : x - dest = BitVec.ofNat 64 (x - dest).toNat := by
          rw [BitVec.ofNat_toNat, BitVec.setWidth_eq]
        rw [hoff]
        exact (hapart _ n hlow (Nat.lt_succ_self n)).symm
      · rw [if_neg hlow]
        by_cases hlast : (x - dest).toNat = n
        · have hoff : x - dest = BitVec.ofNat 64 n := by
            rw [hx.mpr hlast, offset_sub]
          rw [if_pos (by omega), hoff, hx.mpr hlast, Memory.poke_self]
        · rw [if_neg (by omega)]
          exact Memory.poke_ne m _ (fun heq => hlast (hx.mp heq))

theorem add_toNat_of_le {p : Ptr} {n k : Nat} (hp : p.toNat + n ≤ 2 ^ 64) (hk : k < n) :
    (p + BitVec.ofNat 64 k).toNat = p.toNat + k := by
  rw [BitVec.toNat_add, BitVec.toNat_ofNat]
  omega

section Move

variable {dest src : Ptr} {n : BitVec 64} (hdest : dest.toNat + n.toNat ≤ 2 ^ 64)
  (hsrc : src.toNat + n.toNat ≤ 2 ^ 64)
include hdest hsrc

/-- In either direction the bytes still to be read have not been written. -/
theorem memmove_eq_copy (m : Memory) : memmove m dest src n = m.copy dest src n.toNat := by
  have hn := n.isLt
  have hwritten : ∀ k, k < n.toNat → (dest + BitVec.ofNat 64 k).toNat = dest.toNat + k :=
    fun k hk => add_toNat_of_le hdest hk
  have hread : ∀ k, k < n.toNat → (src + BitVec.ofNat 64 k).toNat = src.toNat + k :=
    fun k hk => add_toNat_of_le hsrc hk
  funext x
  unfold memmove
  split
  · next hbehind =>
      have hlt : dest.toNat < src.toNat := hbehind
      rw [memcpyLoop_apply dest src _ 0 m (by omega)]
      · simp only [Nat.zero_le, true_and, Nat.zero_add]
        rfl
      · intro j k _ hjk hk heq
        have hnat := congrArg BitVec.toNat heq
        rw [hwritten j (by omega), hread k (by omega)] at hnat
        omega
  · next hnot =>
      split
      · next hbefore =>
          have hlt : src.toNat < dest.toNat := hbefore
          rw [memmoveDown_apply dest src _ m (by omega)]
          · rfl
          · intro j k hjk hk heq
            have hnat := congrArg BitVec.toNat heq
            rw [hwritten k hk, hread j (by omega)] at hnat
            omega
      · next hnot' =>
          have hsame : src = dest := by
            apply BitVec.eq_of_toNat_eq
            have hle : src.toNat ≤ dest.toNat := Nat.le_of_not_lt hnot
            have hge : dest.toNat ≤ src.toNat := Nat.le_of_not_lt hnot'
            omega
          subst hsame
          rw [Memory.copy]
          split
          · rw [BitVec.add_comm, BitVec.sub_add_cancel]
          · rfl

/-- Whether the ranges overlap or not, the destination ends up with what the source held,
and nothing else changes. -/
theorem memmove_snapshot (m : Memory) :
    (∀ i < n.toNat, memmove m dest src n (dest + BitVec.ofNat 64 i) =
      m (src + BitVec.ofNat 64 i)) ∧
      ∀ x, ¬ InRange dest n.toNat x → memmove m dest src n x = m x := by
  have hn := n.isLt
  rw [memmove_eq_copy hdest hsrc]
  refine ⟨fun i hi => ?_, fun x hx => ?_⟩
  · rw [Memory.copy, if_pos (inRange_add dest hi (by omega)), offset_sub]
  · rw [Memory.copy, if_neg hx]

end Move

/-- Three bytes one place up. -/
theorem memmove_snapshot_up :
    (∀ i < (3#64).toNat,
      memmove (fun x => x.setWidth 8) 0x1001#64 0x1000#64 3#64 (0x1001#64 + BitVec.ofNat 64 i) =
        (0x1000#64 + BitVec.ofNat 64 i).setWidth 8) ∧
      ∀ x, ¬ InRange 0x1001#64 (3#64).toNat x →
        memmove (fun x => x.setWidth 8) 0x1001#64 0x1000#64 3#64 x = x.setWidth 8 :=
  memmove_snapshot (by decide) (by decide) (fun x => x.setWidth 8)

end Asnu
