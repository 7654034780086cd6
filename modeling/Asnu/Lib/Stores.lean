import Asnu.Lib.Interference
import Asnu.Lib.Memory
import Mathlib.Data.List.ReduceOption

/-!
Programs whose accesses name what they store to. The log of a run is kept by the run
itself, and a program that names bytes and is honest changes no byte outside of its log.
-/

namespace Asnu.Lib

/-- `size` bytes from `start` on. -/
structure Span where
  start : BitVec 64
  size : Nat
  deriving DecidableEq

def Span.Has (w : Span) (x : BitVec 64) : Prop := InRange w.start w.size x

instance (w : Span) (x : BitVec 64) : Decidable (w.Has x) :=
  inferInstanceAs (Decidable (InRange _ _ _))

/-- Programs with accesses that read, and accesses that store and say where. -/
abbrev Logging (σ ω α : Type) := Prog σ (Option ω) α

/-- The same with the spans of a memory. -/
abbrev Storing (σ α : Type) := Logging σ Span α

namespace Logging

variable {σ ω α β : Type}

def look (f : σ → α) : Logging σ ω α := Prog.read none f

/-- A store through `w`. -/
def log (w : ω) (act : σ → σ) : Logging σ ω Unit := Prog.write (some w) act

/-- A change of the state that is not a store. -/
def note (act : σ → σ) : Logging σ ω Unit := Prog.write none act

/-- What an uninterrupted run stores to, in order. -/
def stores (p : Logging σ ω α) (s : σ) : List ω := (p.trace s).reduceOption

@[simp] theorem alone_look (f : σ → α) (s : σ) : (look f : Logging σ ω α).alone s = (f s, s) := rfl

@[simp] theorem alone_log (w : ω) (act : σ → σ) (s : σ) : (log w act).alone s = ((), act s) := rfl

@[simp] theorem alone_note (act : σ → σ) (s : σ) :
    (note act : Logging σ ω Unit).alone s = ((), act s) := rfl

/-- What is read is known to the rest of the program. -/
@[simp] theorem alone_look_bind (f : σ → α) (g : α → Logging σ ω β) (s : σ) :
    (look f >>= g).alone s = (g (f s)).alone s := rfl

@[simp] theorem stores_pure (a : α) (s : σ) : stores (pure a : Logging σ ω α) s = [] := rfl

@[simp] theorem stores_look (f : σ → α) (s : σ) : stores (look f : Logging σ ω α) s = [] := rfl

@[simp] theorem stores_log (w : ω) (act : σ → σ) (s : σ) : stores (log w act) s = [w] := rfl

@[simp] theorem stores_note (act : σ → σ) (s : σ) :
    stores (note act : Logging σ ω Unit) s = [] := rfl

@[simp] theorem stores_bind (p : Logging σ ω α) (f : α → Logging σ ω β) (s : σ) :
    stores (p >>= f) s = stores p s ++ stores (f (p.alone s).1) (p.alone s).2 := by
  rw [stores, Prog.trace_bind, List.reduceOption_append]
  rfl

@[simp] theorem stores_look_bind (f : σ → α) (g : α → Logging σ ω β) (s : σ) :
    stores (look f >>= g) s = stores (g (f s)) s := rfl

end Logging

namespace Storing

variable {σ α β : Type}

def store (start : BitVec 64) (size : Nat) (act : σ → σ) : Storing σ Unit :=
  Logging.log ⟨start, size⟩ act

@[simp] theorem alone_store (start : BitVec 64) (size : Nat) (act : σ → σ) (s : σ) :
    (store start size act).alone s = ((), act s) := rfl

@[simp] theorem stores_store (start : BitVec 64) (size : Nat) (act : σ → σ) (s : σ) :
    (store start size act).stores s = [⟨start, size⟩] := rfl

variable (mem : σ → Memory)

/-- What an access does to the bytes outside of its span is nothing. -/
def Honest : Storing σ α → Prop
  | .ret _ => True
  | .access label act next =>
      ∀ s, (∀ x, (∀ w ∈ label, ¬ w.Has x) → mem (act s) x = mem s x) ∧ Honest (next s)

variable {mem}

namespace Honest

theorem pure (a : α) : Honest mem (Pure.pure a : Storing σ α) := trivial

theorem look (f : σ → α) : Honest mem (Logging.look f) :=
  fun _ => ⟨fun _ _ => rfl, trivial⟩

theorem store {start : BitVec 64} {size : Nat} {act : σ → σ}
    (h : ∀ s x, ¬ InRange start size x → mem (act s) x = mem s x) :
    Honest mem (Storing.store start size act) :=
  fun s => ⟨fun x hx => h s x (hx _ rfl), trivial⟩

theorem note {act : σ → σ} (h : ∀ s, mem (act s) = mem s) : Honest mem (Logging.note act) :=
  fun s => ⟨fun x _ => congrFun (h s) x, trivial⟩

theorem bind {p : Storing σ α} {f : α → Storing σ β} (hp : Honest mem p)
    (hf : ∀ a, Honest mem (f a)) : Honest mem (p >>= f) := by
  change Honest mem (p.bind f)
  induction p with
  | ret a => exact hf a
  | access label act next ih => exact fun s => ⟨(hp s).1, ih s (hp s).2⟩

theorem ite {c : Prop} [Decidable c] {p q : Storing σ α} (hp : c → Honest mem p)
    (hq : ¬ c → Honest mem q) : Honest mem (if c then p else q) := by
  by_cases hc : c
  · rw [if_pos hc]
    exact hp hc
  · rw [if_neg hc]
    exact hq hc

/-- A byte that no store of the run goes to is the same afterwards. -/
theorem alone_out {p : Storing σ α} (hp : Honest mem p) {s : σ} {x : BitVec 64}
    (hx : ∀ w ∈ Logging.stores p s, ¬ w.Has x) : mem (p.alone s).2 x = mem s x := by
  induction p generalizing s with
  | ret a => rfl
  | access label act next ih =>
      obtain ⟨hact, hnext⟩ := hp s
      have hlabel : ∀ w ∈ label, ¬ w.Has x := by
        rintro w rfl
        exact hx w (List.mem_cons_self ..)
      have hrest : ∀ w ∈ Logging.stores (next s) (act s), ¬ w.Has x := by
        intro w hw
        refine hx w ?_
        cases label with
        | none => exact hw
        | some v => exact List.mem_cons_of_mem _ hw
      exact (ih s hnext hrest).trans (hact x hlabel)

/-- A byte that is different afterwards is one of those stored to. -/
theorem has_of_changed {p : Storing σ α} (hp : Honest mem p) {s : σ} {x : BitVec 64}
    (hx : mem (p.alone s).2 x ≠ mem s x) : ∃ w ∈ Logging.stores p s, w.Has x := by
  by_contra hnone
  exact hx (hp.alone_out (fun w hw hin => hnone ⟨w, hw, hin⟩))

end Honest

end Storing

end Asnu.Lib
