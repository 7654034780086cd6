import Asnu.Lib.Memory

/-!
Stacks of 64-bit words in a `Memory`. A stack grows down from its top, and the
word pushed last is the one at the stack pointer.
-/

namespace Asnu.Lib

/-- The words from `p` on are those of the list. -/
def Holds (m : Memory) (p : BitVec 64) : List (BitVec 64) → Prop
  | [] => True
  | w :: ws => m.load64 p = w ∧ Holds m (p + 8#64) ws

theorem Holds.congr {m m' : Memory} {p : BitVec 64} {ws : List (BitVec 64)}
    (h : Holds m p ws) (hfit : 8 * ws.length < 2 ^ 64)
    (hbytes : ∀ x, InRange p (8 * ws.length) x → m' x = m x) : Holds m' p ws := by
  induction ws generalizing p with
  | nil => trivial
  | cons w ws ih =>
      obtain ⟨hw, hws⟩ := h
      rw [List.length_cons] at hfit hbytes
      refine ⟨?_, ih hws (by omega) (fun x hx => hbytes x ?_)⟩
      · rw [← hw]
        exact Memory.load64_congr (fun x hx => hbytes x (lt_of_lt_of_le hx (by omega)))
      · unfold InRange at *
        bv_omega

/-- The stack that starts at `top` has come down to `p`. -/
structure StackAt (m : Memory) (top p : BitVec 64) (ws : List (BitVec 64)) : Prop where
  pointer : p = top - BitVec.ofNat 64 (8 * ws.length)
  fits : 8 * ws.length < 2 ^ 64
  holds : Holds m p ws

namespace StackAt

variable {m m' : Memory} {top p w : BitVec 64} {ws : List (BitVec 64)}

theorem start (m : Memory) (top : BitVec 64) : StackAt m top top [] :=
  ⟨(BitVec.sub_zero top).symm, by decide, trivial⟩

theorem push (h : StackAt m top p ws) (hfit : 8 * (ws.length + 1) < 2 ^ 64) (w : BitVec 64) :
    StackAt (m.store64 (p - 8#64) w) top (p - 8#64) (w :: ws) := by
  obtain ⟨rfl, hfits, hholds⟩ := h
  have hback : top - BitVec.ofNat 64 (8 * ws.length) - 8#64 + 8#64 =
      top - BitVec.ofNat 64 (8 * ws.length) := BitVec.sub_add_cancel _ _
  refine ⟨?_, hfit, Memory.load64_store64 _ _ _, ?_⟩
  · rw [List.length_cons]
    bv_omega
  · rw [hback]
    refine hholds.congr hfits (fun x hx => Memory.store64_out _ _ (fun hin => ?_))
    unfold InRange at *
    bv_omega

theorem pop (h : StackAt m top p (w :: ws)) :
    m.load64 p = w ∧ StackAt m top (p + 8#64) ws := by
  obtain ⟨hpointer, hfits, hw, hws⟩ := h
  rw [List.length_cons] at hpointer hfits
  exact ⟨hw, by bv_omega, by omega, hws⟩

/-- Who writes nothing between the stack pointer and the top keeps the words. -/
theorem kept (h : StackAt m top p ws)
    (hbytes : ∀ x, InRange p (top - p).toNat x → m' x = m x) : StackAt m' top p ws := by
  have hsize : (top - p).toNat = 8 * ws.length := by
    have hfits := h.fits
    rw [h.pointer]
    bv_omega
  exact ⟨h.pointer, h.fits, h.holds.congr h.fits (fun x hx => hbytes x (hsize ▸ hx))⟩

end StackAt

end Asnu.Lib
