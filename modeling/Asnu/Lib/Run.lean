import Mathlib.Data.List.Basic

/-!
Finite runs of a labelled step relation and the rules the development uses on
them: an invariant kept by one step holds along a run, and a deterministic
abstract machine follows a run when one step can be followed.
-/

namespace Asnu.Lib

variable {σ ι τ : Type*}

/-- `Run step s labels t` holds when the labelled steps lead from `s` to `t`
in the order of the list. -/
inductive Run (step : σ → ι → σ → Prop) : σ → List ι → σ → Prop where
  | nil (s : σ) : Run step s [] s
  | cons {s t u : σ} {label : ι} {labels : List ι}
      (hstep : step s label t) (hrest : Run step t labels u) :
      Run step s (label :: labels) u

/-- A predicate that every step keeps is kept by every run. -/
theorem Run.invariant {step : σ → ι → σ → Prop} (Inv : σ → Prop)
    (hkeep : ∀ s label t, Inv s → step s label t → Inv t)
    {s t : σ} {labels : List ι} (hrun : Run step s labels t) (hs : Inv s) :
    Inv t := by
  induction hrun with
  | nil _ => exact hs
  | cons hstep _ ih => exact ih (hkeep _ _ _ hs hstep)

theorem Run.append {step : σ → ι → σ → Prop} {s t u : σ}
    {first second : List ι} (hfirst : Run step s first t)
    (hsecond : Run step t second u) : Run step s (first ++ second) u := by
  induction hfirst with
  | nil _ => exact hsecond
  | cons hstep _ ih => exact Run.cons hstep (ih hsecond)

/-- Every label is allowed in the state that the labels before it lead to. -/
def Along (ok : σ → ι → Prop) (next : σ → ι → σ) : σ → List ι → Prop
  | _, [] => True
  | s, label :: labels => ok s label ∧ Along ok next (next s label) labels

instance Along.decidable (ok : σ → ι → Prop) (next : σ → ι → σ)
    [∀ s label, Decidable (ok s label)] : (s : σ) → (labels : List ι) →
      Decidable (Along ok next s labels)
  | _, [] => inferInstanceAs (Decidable True)
  | s, label :: labels =>
      have := Along.decidable ok next (next s label) labels
      inferInstanceAs (Decidable (_ ∧ _))

/-- A deterministic machine runs through labels that are all allowed. -/
theorem Run.of_along {ok : σ → ι → Prop} {next : σ → ι → σ} {s : σ} {labels : List ι}
    (h : Along ok next s labels) :
    Run (fun s label t => ok s label ∧ t = next s label) s labels (labels.foldl next s) := by
  induction labels generalizing s with
  | nil => exact Run.nil s
  | cons label labels ih => exact Run.cons ⟨h.1, rfl⟩ (ih h.2)

/-- Steps may be exchanged for weaker ones. -/
theorem Run.mono {step step' : σ → ι → σ → Prop}
    (himp : ∀ s label t, step s label t → step' s label t)
    {s t : σ} {labels : List ι} (hrun : Run step s labels t) :
    Run step' s labels t := by
  induction hrun with
  | nil s => exact Run.nil s
  | cons hstep _ ih => exact Run.cons (himp _ _ _ hstep) ih

/-- Of two ways to judge a step that agree while an invariant holds, with the first one
keeping it, both accept the same runs. -/
theorem Run.congr_along {step good ok : σ → ι → σ → Prop} (Inv : σ → Prop)
    (hiff : ∀ s label t, Inv s → step s label t → (good s label t ↔ ok s label t))
    (hkeep : ∀ s label t, Inv s → step s label t → good s label t → Inv t)
    {s t : σ} {labels : List ι} (hs : Inv s) :
    Run (fun s label t => step s label t ∧ good s label t) s labels t ↔
      Run (fun s label t => step s label t ∧ ok s label t) s labels t := by
  constructor
  · intro hrun
    induction hrun with
    | nil s => exact Run.nil s
    | cons hstep _ ih =>
        have hok := (hiff _ _ _ hs hstep.1).mp hstep.2
        exact Run.cons ⟨hstep.1, hok⟩ (ih (hkeep _ _ _ hs hstep.1 hstep.2))
  · intro hrun
    induction hrun with
    | nil s => exact Run.nil s
    | cons hstep _ ih =>
        have hgood := (hiff _ _ _ hs hstep.1).mpr hstep.2
        exact Run.cons ⟨hstep.1, hgood⟩ (ih (hkeep _ _ _ hs hstep.1 hgood))

/-- A relation to an abstract machine that every step keeps is kept by every
run, the abstract machine having taken the same labels. -/
theorem Run.simulates {step : σ → ι → σ → Prop} {next : τ → ι → τ}
    (Rel : σ → τ → Prop)
    (hkeep : ∀ s label t a, Rel s a → step s label t → Rel t (next a label))
    {s t : σ} {labels : List ι} (hrun : Run step s labels t) {a : τ}
    (hs : Rel s a) : Rel t (labels.foldl next a) := by
  induction hrun generalizing a with
  | nil _ => exact hs
  | cons hstep _ ih => exact ih (hkeep _ _ _ _ hs hstep)

/-- The same when the abstract machine has a choice: a run of it with the same
labels ends in a related state. -/
theorem Run.refines {step : σ → ι → σ → Prop} {step' : τ → ι → τ → Prop}
    (Rel : σ → τ → Prop)
    (hkeep : ∀ s label t a, Rel s a → step s label t → ∃ b, step' a label b ∧ Rel t b)
    {s t : σ} {labels : List ι} (hrun : Run step s labels t) {a : τ}
    (hs : Rel s a) : ∃ b, Run step' a labels b ∧ Rel t b := by
  induction hrun generalizing a with
  | nil _ => exact ⟨a, Run.nil a, hs⟩
  | cons hstep _ ih =>
      obtain ⟨b, hab, hb⟩ := hkeep _ _ _ _ hs hstep
      obtain ⟨c, hbc, hc⟩ := ih hb
      exact ⟨c, Run.cons hab hbc, hc⟩

end Asnu.Lib
