import Asnu.Lib.Memory
import Mathlib.Logic.Function.Basic

/-!
Packed records in a byte memory. The fields of a record follow each other without
gaps, so no two of them have a byte in common, and a store to one of them is an
update of what the record shows and of nothing else.
-/

namespace Asnu.Lib

/-- The bytes of a range are found by their offsets. -/
theorem forall_inRange_iff {a : BitVec 64} {n : Nat} (hn : n ≤ 2 ^ 64) {P : BitVec 64 → Prop} :
    (∀ x, InRange a n x → P x) ↔ ∀ d < n, P (a + BitVec.ofNat 64 d) := by
  constructor
  · exact fun h d hd => h _ (inRange_add a hd hn)
  · intro h x hx
    have hoffset := h (x - a).toNat hx
    rwa [BitVec.ofNat_toNat, BitVec.setWidth_eq, BitVec.add_comm, BitVec.sub_add_cancel] at hoffset

/-- The fields of a packed structure in the order of its declaration, with their
sizes in bytes. -/
structure Layout (φ : Type) [DecidableEq φ] where
  fields : List φ
  width : φ → Nat
  complete : ∀ f, f ∈ fields
  fits : (fields.map width).sum ≤ 2 ^ 64

namespace Layout

variable {φ : Type} [DecidableEq φ]

/-- The bytes in front of `f`, with the fields in this order. -/
def offsetIn (width : φ → Nat) (f : φ) : List φ → Nat
  | [] => 0
  | g :: gs => if g = f then 0 else width g + offsetIn width f gs

theorem offsetIn_add_le (width : φ → Nat) {f : φ} {fields : List φ} (hf : f ∈ fields) :
    offsetIn width f fields + width f ≤ (fields.map width).sum := by
  induction fields with
  | nil => exact absurd hf List.not_mem_nil
  | cons g gs ih =>
      rw [offsetIn, List.map_cons, List.sum_cons]
      by_cases hgf : g = f
      · rw [if_pos hgf, hgf]
        omega
      · have hle := ih ((List.mem_cons.mp hf).resolve_left (fun h => hgf h.symm))
        rw [if_neg hgf]
        omega

/-- Of two fields one ends before the other begins. -/
theorem offsetIn_apart (width : φ → Nat) {f g : φ} {fields : List φ} (hf : f ∈ fields)
    (hg : g ∈ fields) (hne : f ≠ g) :
    offsetIn width f fields + width f ≤ offsetIn width g fields ∨
      offsetIn width g fields + width g ≤ offsetIn width f fields := by
  induction fields with
  | nil => exact absurd hf List.not_mem_nil
  | cons e es ih =>
      simp only [offsetIn]
      by_cases hef : e = f
      · have heg : e ≠ g := fun h => hne (hef.symm.trans h)
        rw [if_pos hef, if_neg heg, hef]
        exact Or.inl (by omega)
      · by_cases heg : e = g
        · rw [if_neg hef, if_pos heg, heg]
          exact Or.inr (by omega)
        · rw [if_neg hef, if_neg heg]
          rcases ih ((List.mem_cons.mp hf).resolve_left (fun h => hef h.symm))
            ((List.mem_cons.mp hg).resolve_left (fun h => heg h.symm)) with h | h
          · exact Or.inl (by omega)
          · exact Or.inr (by omega)

variable (L : Layout φ)

def size : Nat := (L.fields.map L.width).sum

def offset (f : φ) : Nat := offsetIn L.width f L.fields

theorem size_le : L.size ≤ 2 ^ 64 := L.fits

theorem offset_add_le (f : φ) : L.offset f + L.width f ≤ L.size :=
  offsetIn_add_le L.width (L.complete f)

theorem offset_apart {f g : φ} (hne : f ≠ g) :
    L.offset f + L.width f ≤ L.offset g ∨ L.offset g + L.width g ≤ L.offset f :=
  offsetIn_apart L.width (L.complete f) (L.complete g) hne

/-- The address of the field `f` of the record at `p`. -/
def place (p : BitVec 64) (f : φ) : BitVec 64 := p + BitVec.ofNat 64 (L.offset f)

def get (m : Memory) (p : BitVec 64) (f : φ) : Nat := m.loadBytes (L.place p f) (L.width f)

def put (m : Memory) (p : BitVec 64) (f : φ) (v : Nat) : Memory :=
  m.storeBytes (L.place p f) (L.width f) v

/-- Several stores, the first one of the list first. -/
def putAll (m : Memory) (p : BitVec 64) (stores : List (φ × Nat)) : Memory :=
  stores.foldl (fun m e => L.put m p e.1 e.2) m

/-- `x` is a byte of the record at `p`. -/
def Has (p x : BitVec 64) : Prop := InRange p L.size x

instance (p x : BitVec 64) : Decidable (L.Has p x) := inferInstanceAs (Decidable (InRange _ _ _))

variable {L}

theorem width_le (f : φ) : L.width f ≤ 2 ^ 64 := by
  have hin := L.offset_add_le f
  have hsize := L.size_le
  omega

/-- The bytes of a field are bytes of the record. -/
theorem has_of_place {p x : BitVec 64} {f : φ} (hx : InRange (L.place p f) (L.width f) x) :
    L.Has p x := inRange_offset hx (L.offset_add_le f)

theorem place_apart {p x : BitVec 64} {f g : φ} (hne : f ≠ g)
    (hx : InRange (L.place p g) (L.width g) x) : ¬ InRange (L.place p f) (L.width f) x := by
  have hf := L.offset_add_le f
  have hg := L.offset_add_le g
  have hsize := L.size_le
  have hfg := L.offset_apart hne
  unfold InRange place at *
  generalize L.offset f = a at *
  generalize L.offset g = b at *
  bv_omega

theorem put_out (m : Memory) {p x : BitVec 64} (f : φ) (v : Nat) (hx : ¬ L.Has p x) :
    L.put m p f v x = m x :=
  Memory.storeBytes_out m v (fun h => hx (has_of_place h))

theorem putAll_out (m : Memory) {p x : BitVec 64} (stores : List (φ × Nat))
    (hx : ¬ L.Has p x) : L.putAll m p stores x = m x := by
  induction stores generalizing m with
  | nil => rfl
  | cons e es ih => exact (ih _).trans (put_out m e.1 e.2 hx)

/-- What a record shows depends on its own bytes only. -/
theorem get_congr {m m' : Memory} {p : BitVec 64} (h : ∀ x, L.Has p x → m x = m' x) :
    L.get m p = L.get m' p := by
  funext f
  exact Memory.loadBytes_of_range (width_le f) (fun x hx => h x (has_of_place hx))

/-- A store to a field updates what the record shows. -/
theorem get_put (m : Memory) (p : BitVec 64) (f : φ) (v : Nat) :
    L.get (L.put m p f v) p = Function.update (L.get m p) f (v % 256 ^ L.width f) := by
  funext g
  by_cases hgf : g = f
  · rw [hgf, Function.update_self]
    exact Memory.loadBytes_storeBytes m (L.place p f) v (width_le f)
  · rw [Function.update_of_ne hgf]
    exact Memory.loadBytes_of_range (width_le g)
      (fun x hx => Memory.storeBytes_out m v (place_apart (Ne.symm hgf) hx))

theorem get_putAll (m : Memory) (p : BitVec 64) (stores : List (φ × Nat)) :
    L.get (L.putAll m p stores) p =
      stores.foldl (fun shown e => Function.update shown e.1 (e.2 % 256 ^ L.width e.1))
        (L.get m p) := by
  induction stores generalizing m with
  | nil => rfl
  | cons e es ih =>
      rw [putAll, List.foldl_cons, List.foldl_cons, ← get_put]
      exact ih _

/-- Stores to one record leave a record that has no byte in common with it alone. -/
theorem get_putAll_apart (m : Memory) {p q : BitVec 64} (stores : List (φ × Nat))
    (hpq : ∀ x, L.Has q x → ¬ L.Has p x) : L.get (L.putAll m p stores) q = L.get m q :=
  get_congr (fun x hx => putAll_out m stores (hpq x hx))

theorem get_of_zero {m : Memory} {p : BitVec 64} (h : ∀ x, L.Has p x → m x = 0#8) :
    L.get m p = fun _ => 0 := by
  funext f
  exact Memory.loadBytes_of_zero (width_le f) (fun x hx => h x (has_of_place hx))

end Layout

end Asnu.Lib
