import Asnu.Lib.Total
import Mathlib.Algebra.Group.Nat.Defs

/-!
Loops that count up. The counter has `w` bits and is compared with a limit that may be
beyond them: such a loop is left by its body only.
-/

namespace Asnu.Lib

/-- How the body of a loop goes on: with the next turn, behind the loop, or out of the
function with a result. -/
inductive Turn (α : Type) where
  | next
  | leave
  | ret (a : α)

namespace Turn

variable {ι α : Type}

/-- Out of the function if there is a result. -/
def ofOption : Option α → Turn α
  | some a => ret a
  | none => next

/-- What a loop over a list comes to. -/
def outcome (f : ι → Turn α) : List ι → Option α
  | [] => none
  | i :: is =>
      match f i with
      | next => outcome f is
      | leave => none
      | ret a => some a

theorem outcome_ofOption (g : ι → Option α) (is : List ι) :
    outcome (fun i => ofOption (g i)) is = is.findSome? g := by
  induction is with
  | nil => rfl
  | cons i is ih =>
      rw [outcome, List.findSome?_cons]
      cases g i with
      | none => exact ih
      | some a => rfl

end Turn

namespace Code

variable {σ α : Type} {w : Nat}

/-- `for (uint<w>_t i = start; i < limit; i++)`. -/
def countUp (limit : Nat) (body : BitVec w → Code σ (Turn α)) :
    Nat → BitVec w → Code σ (Option α)
  | 0, _ => giveUp
  | turns + 1, i =>
      if i.toNat < limit then do
        let turn ← body i
        match turn with
        | .next => countUp limit body turns (i + 1#w)
        | .leave => pure none
        | .ret a => pure (some a)
      else pure none

variable {limit : Nat} {body : BitVec w → Code σ (Turn α)} {f : BitVec w → Turn α} {s : σ}

/-- A limit that the counter can reach ends the loop. -/
theorem countUp_returns (hlimit : limit < 2 ^ w)
    (hbody : ∀ i, Returns (body i) s (fun r t => r = f i ∧ t = s)) (n : Nat) {turns k : Nat}
    (hk : k + n = limit) (hturns : n < turns) :
    Returns (countUp limit body turns (BitVec.ofNat w k)) s
      (fun r t => r = Turn.outcome f ((List.range' k n).map (BitVec.ofNat w)) ∧ t = s) := by
  have hcount : (BitVec.ofNat w k).toNat = k := by
    rw [BitVec.toNat_ofNat]
    exact Nat.mod_eq_of_lt (by omega)
  induction n generalizing turns k with
  | zero =>
      cases turns with
      | zero => exact absurd hturns (Nat.not_lt_zero _)
      | succ turns =>
          rw [countUp, hcount, if_neg (by omega), returns_pure]
          exact ⟨rfl, rfl⟩
  | succ n ih =>
      cases turns with
      | zero => exact absurd hturns (Nat.not_lt_zero _)
      | succ turns =>
          rw [countUp, hcount, if_pos (by omega)]
          refine (hbody _).bind ?_
          rintro _ _ ⟨rfl, rfl⟩
          rw [List.range'_succ, List.map_cons, Turn.outcome]
          cases hf : f (BitVec.ofNat w k) with
          | next =>
              have hnext : BitVec.ofNat w k + 1#w = BitVec.ofNat w (k + 1) := by
                rw [BitVec.ofNat_add]
              have hsucc : (BitVec.ofNat w (k + 1)).toNat = k + 1 := by
                rw [BitVec.toNat_ofNat]
                exact Nat.mod_eq_of_lt (by omega)
              have hrest := ih (k := k + 1) (by omega) (Nat.lt_of_succ_lt_succ hturns) hsucc
              rwa [← hnext] at hrest
          | leave => exact returns_pure.mpr ⟨rfl, rfl⟩
          | ret a => exact returns_pure.mpr ⟨rfl, rfl⟩

theorem countUp_all (f : BitVec w → Turn α) (hlimit : limit < 2 ^ w)
    (hbody : ∀ i, Returns (body i) s (fun r t => r = f i ∧ t = s)) {turns : Nat}
    (hturns : limit < turns) :
    Returns (countUp limit body turns 0#w) s
      (fun r t => r = Turn.outcome f ((List.range limit).map (BitVec.ofNat w)) ∧ t = s) := by
  rw [List.range_eq_range']
  exact countUp_returns hlimit hbody limit (Nat.zero_add limit) hturns

/-- A limit beyond the counter does not. -/
theorem countUp_endless (hlimit : 2 ^ w ≤ limit) (turns : Nat) (i : BitVec w) :
    countUp limit body (turns + 1) i = (do
      let turn ← body i
      match turn with
      | .next => countUp limit body turns (i + 1#w)
      | .leave => pure none
      | .ret a => pure (some a)) := by
  rw [countUp, if_pos (Nat.lt_of_lt_of_le i.isLt hlimit)]

end Code

end Asnu.Lib
