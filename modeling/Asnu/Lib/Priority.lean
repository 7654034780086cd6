import Mathlib.Logic.Function.Basic
import Asnu.Lib.Search

/-!
Lines that are served in the order of their numbers: a request is held back while a line of
the same or a smaller number is in service, and the end of a service is the end of that with
the smallest number.
-/

namespace Asnu.Lib

structure Service where
  requested : Nat → Bool
  inService : Nat → Bool

namespace Service

variable (n : Nat) (admits : Nat → Bool) (s : Service)

/-- No request and no service. -/
def idle : Service := ⟨fun _ => false, fun _ => false⟩

def request (s : Service) (l : Nat) : Service :=
  { s with requested := Function.update s.requested l true }

/-- The line to be served next, of those that are admitted. -/
def pending : Option Nat :=
  (first (fun l => s.inService l || (s.requested l && admits l)) n).filter
    (fun l => !s.inService l)

/-- The service of a line begins. -/
def take (l : Nat) : Service where
  requested := Function.update s.requested l false
  inService := Function.update s.inService l true

/-- The service of the line with the smallest number ends. -/
def finish : Service :=
  match first s.inService n with
  | some l => { s with inService := Function.update s.inService l false }
  | none => s

variable {n admits s} {l : Nat}

theorem pending_eq_some_iff :
    s.pending n admits = some l ↔
      l < n ∧ s.requested l = true ∧ admits l = true ∧
        (∀ j ≤ l, s.inService j = false) ∧
        ∀ j < l, ¬ (s.requested j = true ∧ admits j = true) := by
  rw [pending, Option.filter_eq_some_iff, first_eq_some_iff]
  constructor
  · rintro ⟨⟨hl, hfirst, hbefore⟩, hfree⟩
    have hnone : s.inService l = false := by simpa using hfree
    rw [hnone, Bool.false_or, Bool.and_eq_true] at hfirst
    refine ⟨hl, hfirst.1, hfirst.2, fun j hj => ?_, fun j hj h => ?_⟩
    · rcases Nat.lt_or_eq_of_le hj with hlt | rfl
      · exact (Bool.or_eq_false_iff.mp (hbefore j hlt)).1
      · exact hnone
    · have hboth := (Bool.or_eq_false_iff.mp (hbefore j hj)).2
      rw [h.1, h.2] at hboth
      cases hboth
  · rintro ⟨hl, hrequested, hadmits, hfree, hbefore⟩
    refine ⟨⟨hl, by simp [hrequested, hadmits], fun j hj => ?_⟩, by simp [hfree l (le_refl l)]⟩
    rw [hfree j (Nat.le_of_lt hj), Bool.false_or, ← Bool.not_eq_true, Bool.and_eq_true]
    exact hbefore j hj

/-- The end of a service that could just begin leaves the lines in service as they were. -/
theorem finish_take (hl : l < n) (hfree : ∀ j ≤ l, s.inService j = false) :
    ((s.take l).finish n).inService = s.inService := by
  have hfirst : first (s.take l).inService n = some l := by
    refine first_eq_some_iff.mpr ⟨hl, Function.update_self l _ _, fun j hj => ?_⟩
    exact (Function.update_of_ne (Nat.ne_of_lt hj) _ _).trans (hfree j (Nat.le_of_lt hj))
  rw [finish, hfirst]
  change Function.update (Function.update s.inService l true) l false = s.inService
  rw [Function.update_idem, ← hfree l (le_refl l), Function.update_eq_self]

/-- The end of a service changes nothing exactly if there is none. -/
theorem finish_inService_iff :
    (s.finish n).inService = s.inService ↔ ∀ l < n, s.inService l = false := by
  unfold finish
  cases hfirst : first s.inService n with
  | none => exact iff_of_true rfl (first_eq_none_iff.mp hfirst)
  | some l =>
      obtain ⟨hl, hserved, -⟩ := first_eq_some_iff.mp hfirst
      refine iff_of_false (fun h => ?_) (fun h => ?_)
      · have hcell := congrFun h l
        rw [hserved] at hcell
        exact Bool.false_ne_true ((Function.update_self l false s.inService).symm.trans hcell)
      · rw [h l hl] at hserved
        exact Bool.false_ne_true hserved

/-- Nothing is in service that was not before. -/
theorem finish_inService_le (h : (s.finish n).inService l = true) : s.inService l = true := by
  unfold finish at h
  cases hfirst : first s.inService n with
  | none => rwa [hfirst] at h
  | some k =>
      rw [hfirst] at h
      by_cases hk : l = k
      · subst hk
        exact absurd ((Function.update_self l false s.inService).symm.trans h) Bool.false_ne_true
      · exact (Function.update_of_ne hk _ _).symm.trans h

@[simp] theorem finish_requested : (s.finish n).requested = s.requested := by
  unfold finish
  split
  · rfl
  · rfl

end Service

end Asnu.Lib
