import Mathlib.Logic.Basic

/-!
Programs that may go on for ever. A loop gets a number of turns it may take, and
gives up when they are used up; a program returns when enough turns let it. The
rules are those of total correctness, and of partial correctness where it is not
known that the program returns.
-/

namespace Asnu.Lib

/-- With more turns than something, a loop has one. -/
theorem exists_turn {n turns : Nat} (h : n < turns) : ∃ left, turns = left + 1 :=
  Nat.exists_eq_succ_of_ne_zero (Nat.ne_of_gt (Nat.zero_lt_of_lt h))

/-- A program over a state; `none` where a loop has given up. -/
abbrev Code (σ α : Type) := StateT σ Option α

namespace Code

variable {σ α β : Type}

/-- One access to the state. -/
def access (f : σ → α × σ) : Code σ α := fun s => some (f s)

def giveUp : Code σ α := fun _ => none

/-- The program returns from `s`, with `Q`. -/
def Returns (p : Code σ α) (s : σ) (Q : α → σ → Prop) : Prop :=
  ∃ a t, p s = some (a, t) ∧ Q a t

/-- Where the program returns from `s`, it does with `Q`. -/
def Ensures (p : Code σ α) (s : σ) (Q : α → σ → Prop) : Prop :=
  ∀ a t, p s = some (a, t) → Q a t

/-- With enough turns the program returns, with `Q`. -/
def Terminates (p : Nat → Code σ α) (s : σ) (Q : α → σ → Prop) : Prop :=
  ∃ bound, ∀ turns, bound ≤ turns → Returns (p turns) s Q

/-- No number of turns is enough. -/
def Endless (p : Nat → Code σ α) (s : σ) : Prop := ∀ turns, p turns s = none

/-- A program over a part of the state. -/
def focus {τ : Type} (get : σ → τ) (set : σ → τ → σ) (p : Code τ α) : Code σ α :=
  fun s => (p (get s)).map (fun r => (r.1, set s r.2))

variable {p : Code σ α} {f : α → Code σ β} {s : σ} {Q Q' : α → σ → Prop} {R : β → σ → Prop}

theorem bind_apply (p : Code σ α) (f : α → Code σ β) (s : σ) :
    (p >>= f) s = (p s).bind (fun r => f r.1 r.2) := rfl

@[simp] theorem returns_pure {a : α} : Returns (pure a) s Q ↔ Q a s := by
  constructor
  · rintro ⟨_, _, ⟨⟩, h⟩
    exact h
  · exact fun h => ⟨a, s, rfl, h⟩

@[simp] theorem returns_access {g : σ → α × σ} :
    Returns (access g) s Q ↔ Q (g s).1 (g s).2 := by
  constructor
  · rintro ⟨_, _, heq, h⟩
    rw [Option.some.inj (show some (g s) = _ from heq)]
    exact h
  · exact fun h => ⟨_, _, rfl, h⟩

@[simp] theorem returns_bind :
    Returns (p >>= f) s R ↔ Returns p s (fun a t => Returns (f a) t R) := by
  constructor
  · rintro ⟨b, u, heq, hR⟩
    rw [bind_apply] at heq
    obtain ⟨⟨a, t⟩, hp, hf⟩ := Option.bind_eq_some_iff.mp heq
    exact ⟨a, t, hp, b, u, hf, hR⟩
  · rintro ⟨a, t, hp, b, u, hf, hR⟩
    exact ⟨b, u, by rw [bind_apply, hp, Option.bind_some, hf], hR⟩

@[simp] theorem returns_focus {τ : Type} {get : σ → τ} {set : σ → τ → σ} {q : Code τ α} :
    Returns (focus get set q) s Q ↔ Returns q (get s) (fun a t => Q a (set s t)) := by
  constructor
  · rintro ⟨_, _, heq, hQ⟩
    obtain ⟨⟨_, t⟩, hq, ⟨⟩⟩ := Option.map_eq_some_iff.mp heq
    exact ⟨_, t, hq, hQ⟩
  · rintro ⟨a, t, hq, hQ⟩
    exact ⟨a, _, Option.map_eq_some_iff.mpr ⟨(a, t), hq, rfl⟩, hQ⟩

theorem Returns.mono (h : Returns p s Q) (hQ : ∀ a t, Q a t → Q' a t) : Returns p s Q' := by
  obtain ⟨a, t, heq, hres⟩ := h
  exact ⟨a, t, heq, hQ a t hres⟩

theorem Terminates.mono {q : Nat → Code σ α} (h : Terminates q s Q)
    (hQ : ∀ a t, Q a t → Q' a t) : Terminates q s Q' := by
  obtain ⟨bound, hbound⟩ := h
  exact ⟨bound, fun turns hturns => (hbound turns hturns).mono hQ⟩

/-- The rule for two programs one after the other. -/
theorem Returns.bind (hp : Returns p s Q) (hf : ∀ a t, Q a t → Returns (f a) t R) :
    Returns (p >>= f) s R :=
  returns_bind.mpr (hp.mono hf)

/-- What follows a program that does not return does not help it. -/
theorem bind_none (h : p s = none) : (p >>= f) s = none := by
  rw [bind_apply, h, Option.bind_none]

theorem Endless.not_terminates {q : Nat → Code σ α} (h : Endless q s) : ¬ Terminates q s Q := by
  rintro ⟨bound, hbound⟩
  obtain ⟨a, t, heq, -⟩ := hbound bound (Nat.le_refl _)
  rw [h bound] at heq
  cases heq

theorem Returns.ite {b : Prop} [Decidable b] {q : Code σ α} (hp : b → Returns p s Q)
    (hq : ¬ b → Returns q s Q) : Returns (if b then p else q) s Q := by
  split
  · next hb => exact hp hb
  · next hb => exact hq hb

/-- A program returns in one way only. -/
theorem Returns.ensures (h : Returns p s Q) : Ensures p s Q := by
  obtain ⟨a, t, heq, hQ⟩ := h
  intro b u heq'
  rw [heq] at heq'
  cases Option.some.inj heq'
  exact hQ

/-- Two programs that go on in the same way. -/
theorem Returns.congr {q : Code σ α} {t : σ} (heq : p s = q t) (h : Returns q t Q) :
    Returns p s Q := by
  obtain ⟨a, u, hq, hQ⟩ := h
  exact ⟨a, u, heq.trans hq, hQ⟩

theorem Ensures.congr {q : Code σ α} {t : σ} (heq : p s = q t) (h : Ensures q t Q) :
    Ensures p s Q :=
  fun a u hp => h a u (heq.symm.trans hp)

theorem Ensures.mono (h : Ensures p s Q) (hQ : ∀ a t, Q a t → Q' a t) : Ensures p s Q' :=
  fun a t heq => hQ a t (h a t heq)

theorem Ensures.bind (hp : Ensures p s Q) (hf : ∀ a t, Q a t → Ensures (f a) t R) :
    Ensures (p >>= f) s R := by
  intro b u heq
  rw [bind_apply] at heq
  obtain ⟨⟨a, t⟩, hfirst, hrest⟩ := Option.bind_eq_some_iff.mp heq
  exact hf a t (hp a t hfirst) b u hrest

/-- The program leads only to states related to the one it started from. -/
def Stays (R : σ → σ → Prop) (p : Code σ α) : Prop := ∀ s, Ensures p s (fun _ t => R s t)

namespace Stays

variable {R : σ → σ → Prop}

theorem pure (hrefl : ∀ s, R s s) (a : α) : Stays R (Pure.pure a) := by
  rintro s b t heq
  cases heq
  exact hrefl s

theorem access {g : σ → α × σ} (h : ∀ s, R s (g s).2) : Stays R (Code.access g) := by
  intro s a t heq
  have hresult : g s = (a, t) := Option.some.inj heq
  have hstep := h s
  rwa [hresult] at hstep

theorem giveUp : Stays R (Code.giveUp : Code σ α) := by
  rintro s a t ⟨⟩

theorem ite {b : Prop} [Decidable b] {q : Code σ α} (hp : Stays R p) (hq : Stays R q) :
    Stays R (if b then p else q) := by
  split
  · exact hp
  · exact hq

theorem bind (htrans : ∀ s t u, R s t → R t u → R s u) (hp : Stays R p)
    (hf : ∀ a, Stays R (f a)) : Stays R (p >>= f) := by
  intro s
  refine (hp s).bind (fun a t hst b u heq => ?_)
  exact htrans s t u hst (hf a t b u heq)

end Stays

end Code

end Asnu.Lib
