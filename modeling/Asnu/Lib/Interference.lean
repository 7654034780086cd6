import Mathlib.Logic.Basic

/-!
Programs that are interrupted between their accesses to a shared state. Before
every access the environment acts on the state; what it may do there depends
on the label of the access. The rules below are those of a program logic for
pre- and postconditions.
-/

namespace Asnu.Lib

/-- A program as the accesses it makes. What follows an access depends on the
state that the access finds. -/
inductive Prog (σ ℓ α : Type) where
  | ret (a : α)
  | access (label : ℓ) (act : σ → σ) (next : σ → Prog σ ℓ α)

namespace Prog

variable {σ ℓ ε α β : Type}

def bind : Prog σ ℓ α → (α → Prog σ ℓ β) → Prog σ ℓ β
  | ret a, f => f a
  | access label act next, f => access label act (fun s => (next s).bind f)

instance : Monad (Prog σ ℓ) where
  pure := ret
  bind := bind

def read (label : ℓ) (f : σ → α) : Prog σ ℓ α :=
  access label (fun s => s) (fun s => ret (f s))

def write (label : ℓ) (act : σ → σ) : Prog σ ℓ Unit :=
  access label act (fun _ => ret ())

/-- The result and the last state of an uninterrupted run. -/
def alone : Prog σ ℓ α → σ → α × σ
  | ret a, s => (a, s)
  | access _ act next, s => (next s).alone (act s)

@[simp] theorem alone_pure (a : α) (s : σ) : (pure a : Prog σ ℓ α).alone s = (a, s) := rfl

@[simp] theorem alone_read (label : ℓ) (f : σ → α) (s : σ) :
    (read label f).alone s = (f s, s) := rfl

@[simp] theorem alone_write (label : ℓ) (act : σ → σ) (s : σ) :
    (write label act).alone s = ((), act s) := rfl

@[simp] theorem alone_bind (p : Prog σ ℓ α) (f : α → Prog σ ℓ β) (s : σ) :
    (p >>= f).alone s = (f (p.alone s).1).alone (p.alone s).2 := by
  change (p.bind f).alone s = _
  induction p generalizing s with
  | ret a => rfl
  | access label act next ih => exact ih s (act s)

/-- The labels of the accesses of an uninterrupted run, in order. -/
def trace : Prog σ ℓ α → σ → List ℓ
  | ret _, _ => []
  | access label act next, s => label :: (next s).trace (act s)

@[simp] theorem trace_pure (a : α) (s : σ) : (pure a : Prog σ ℓ α).trace s = [] := rfl

@[simp] theorem trace_read (label : ℓ) (f : σ → α) (s : σ) :
    (read label f).trace s = [label] := rfl

@[simp] theorem trace_write (label : ℓ) (act : σ → σ) (s : σ) :
    (write label act).trace s = [label] := rfl

@[simp] theorem trace_bind (p : Prog σ ℓ α) (f : α → Prog σ ℓ β) (s : σ) :
    (p >>= f).trace s = p.trace s ++ (f (p.alone s).1).trace (p.alone s).2 := by
  change (p.bind f).trace s = _
  induction p generalizing s with
  | ret a => rfl
  | access label act next ih => exact congrArg (label :: ·) (ih s (act s))

/-- No access changes `f`. -/
def Keeps {τ : Type} (f : σ → τ) : Prog σ ℓ α → Prop
  | ret _ => True
  | access _ act next => ∀ s, f (act s) = f s ∧ (next s).Keeps f

namespace Keeps

variable {τ : Type} {f : σ → τ}

theorem ret (a : α) : (pure a : Prog σ ℓ α).Keeps f := trivial

theorem read (label : ℓ) (g : σ → α) : (Prog.read label g).Keeps f :=
  fun _ => ⟨rfl, trivial⟩

theorem write (label : ℓ) {act : σ → σ} (h : ∀ s, f (act s) = f s) :
    (Prog.write label act).Keeps f :=
  fun s => ⟨h s, trivial⟩

theorem bind {p : Prog σ ℓ α} {g : α → Prog σ ℓ β} (hp : p.Keeps f)
    (hg : ∀ a, (g a).Keeps f) : (p >>= g).Keeps f := by
  change (p.bind g).Keeps f
  induction p with
  | ret a => exact hg a
  | access label act next ih => exact fun s => ⟨(hp s).1, ih s (hp s).2⟩

theorem alone {p : Prog σ ℓ α} (hp : p.Keeps f) (s : σ) : f (p.alone s).2 = f s := by
  induction p generalizing s with
  | ret a => rfl
  | access label act next ih => exact (ih s (hp s).2 (act s)).trans (hp s).1

end Keeps

section Interrupted

variable (env : ε → σ → σ)

/-- A run in which the environment acts before every access. The result comes
with what is left of the environment's actions. -/
def exec : Prog σ ℓ α → (Nat → ε) → σ → α × σ × (Nat → ε)
  | ret a, es, s => (a, s, es)
  | access _ act next, es, s =>
      (next (env (es 0) s)).exec (fun n => es (n + 1)) (act (env (es 0) s))

theorem exec_bind (p : Prog σ ℓ α) (f : α → Prog σ ℓ β) (es : Nat → ε) (s : σ) :
    (p.bind f).exec env es s =
      (f (p.exec env es s).1).exec env (p.exec env es s).2.2 (p.exec env es s).2.1 := by
  induction p generalizing es s with
  | ret a => rfl
  | access label act next ih =>
      exact ih (env (es 0) s) (fun n => es (n + 1)) (act (env (es 0) s))

variable (ok : ℓ → ε → σ → Prop)

/-- Every action of the environment is one that the access after it allows. -/
def Meets : Prog σ ℓ α → (Nat → ε) → σ → Prop
  | ret _, _, _ => True
  | access label act next, es, s =>
      ok label (es 0) s ∧
        (next (env (es 0) s)).Meets (fun n => es (n + 1)) (act (env (es 0) s))

instance Meets.decidable [∀ label e s, Decidable (ok label e s)] :
    (p : Prog σ ℓ α) → (es : Nat → ε) → (s : σ) → Decidable (p.Meets env ok es s)
  | ret _, _, _ => inferInstanceAs (Decidable True)
  | access _ act next, es, s =>
      have := Meets.decidable (next (env (es 0) s)) (fun n => es (n + 1)) (act (env (es 0) s))
      inferInstanceAs (Decidable (_ ∧ _))

theorem meets_bind (p : Prog σ ℓ α) (f : α → Prog σ ℓ β) (es : Nat → ε) (s : σ) :
    (p.bind f).Meets env ok es s ↔ p.Meets env ok es s ∧
      (f (p.exec env es s).1).Meets env ok (p.exec env es s).2.2 (p.exec env es s).2.1 := by
  induction p generalizing es s with
  | ret a => exact ⟨fun h => ⟨trivial, h⟩, fun h => h.2⟩
  | access label act next ih =>
      have htail := ih (env (es 0) s) (fun n => es (n + 1)) (act (env (es 0) s))
      exact ⟨fun h => ⟨⟨h.1, (htail.mp h.2).1⟩, (htail.mp h.2).2⟩,
        fun h => ⟨h.1.1, htail.mpr ⟨h.1.2, h.2⟩⟩⟩

/-- From a state with `P` the program ends in one with `Q`, whatever the
environment does that is allowed. -/
def Triple (P : σ → Prop) (p : Prog σ ℓ α) (Q : α → σ → Prop) : Prop :=
  ∀ es s, P s → p.Meets env ok es s → Q (p.exec env es s).1 (p.exec env es s).2.1

variable {env ok} {P P' : σ → Prop} {p : Prog σ ℓ α} {Q Q' : α → σ → Prop}

namespace Triple

theorem ret {a : α} (h : ∀ s, P s → Q a s) : Triple env ok P (pure a) Q :=
  fun _ s hs _ => h s hs

theorem read {label : ℓ} {f : σ → α}
    (h : ∀ e s, P s → ok label e s → Q (f (env e s)) (env e s)) :
    Triple env ok P (Prog.read label f) Q :=
  fun es s hs hmeets => h (es 0) s hs hmeets.1

theorem write {label : ℓ} {act : σ → σ} {Q : Unit → σ → Prop}
    (h : ∀ e s, P s → ok label e s → Q () (act (env e s))) :
    Triple env ok P (Prog.write label act) Q :=
  fun es s hs hmeets => h (es 0) s hs hmeets.1

theorem bind {f : α → Prog σ ℓ β} {R : β → σ → Prop} (hp : Triple env ok P p Q)
    (hf : ∀ a, Triple env ok (Q a) (f a) R) : Triple env ok P (p >>= f) R := by
  intro es s hs hmeets
  obtain ⟨hmp, hmf⟩ := (meets_bind env ok p f es s).mp hmeets
  change R ((p.bind f).exec env es s).1 ((p.bind f).exec env es s).2.1
  rw [exec_bind]
  exact hf _ _ _ (hp es s hs hmp) hmf

theorem pre (h : Triple env ok P p Q) (hP : ∀ s, P' s → P s) : Triple env ok P' p Q :=
  fun es s hs hmeets => h es s (hP s hs) hmeets

theorem post (h : Triple env ok P p Q) (hQ : ∀ a s, Q a s → Q' a s) :
    Triple env ok P p Q' :=
  fun es s hs hmeets => hQ _ _ (h es s hs hmeets)

/-- A part of the precondition that does not depend on the state. -/
theorem of_pre {b : Prop} (h : b → Triple env ok P p Q) :
    Triple env ok (fun s => b ∧ P s) p Q :=
  fun es s hs hmeets => h hs.1 es s hs.2 hmeets

end Triple

end Interrupted

/-! ### Without interruptions -/

def idle (_ : Unit) (s : σ) : σ := s

theorem exec_idle (p : Prog σ ℓ α) (es : Nat → Unit) (s : σ) :
    ((p.exec idle es s).1, (p.exec idle es s).2.1) = p.alone s := by
  induction p generalizing es s with
  | ret a => rfl
  | access label act next ih => exact ih s (fun n => es (n + 1)) (act s)

theorem meets_idle (p : Prog σ ℓ α) (es : Nat → Unit) (s : σ) :
    p.Meets idle (fun _ _ _ => True) es s := by
  induction p generalizing es s with
  | ret a => trivial
  | access label act next ih => exact ⟨trivial, ih s (fun n => es (n + 1)) (act s)⟩

/-- A triple for the environment that does nothing is one for the run alone. -/
theorem Triple.alone {P : σ → Prop} {p : Prog σ ℓ α} {Q : α → σ → Prop}
    (h : Triple idle (fun _ _ _ => True) P p Q) {s : σ} (hs : P s) :
    Q (p.alone s).1 (p.alone s).2 := by
  have hrun := h (fun _ => ()) s hs (meets_idle p _ s)
  rw [← exec_idle p (fun _ => ()) s]
  exact hrun

end Prog

end Asnu.Lib
