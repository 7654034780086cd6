import Mathlib.Data.List.GetD
import Asnu.Lib.Memory

/-!
Texts handed over character by character, each with its number, to a sink. What the sink
does is a function of the device behind it; here are the rules for any sink, and the two
that do something with what they get: one stores it in a buffer that may be too short, one
takes what passes.
-/

namespace Asnu.Lib

/-- What becomes of the device when a character comes with its number. -/
abbrev Sink (α δ : Type) (w : Nat) := α → BitVec w → δ → δ

variable {α δ : Type} {w : Nat}

/-- A text with numbers from `i` on. -/
def deliver (out : Sink α δ w) : BitVec w → List α → δ → δ
  | _, [], d => d
  | i, c :: text, d => deliver out (i + 1#w) text (out c i d)

section Deliver

variable (out : Sink α δ w) (i : BitVec w)

theorem deliver_append (text rest : List α) (d : δ) :
    deliver out i (text ++ rest) d =
      deliver out (i + BitVec.ofNat w text.length) rest (deliver out i text d) := by
  induction text generalizing i d with
  | nil => rw [List.nil_append, List.length_nil, BitVec.add_zero, deliver]
  | cons c text ih =>
      have hnext : i + 1#w + BitVec.ofNat w text.length =
          i + BitVec.ofNat w (text.length + 1) := by
        rw [BitVec.add_assoc, ← BitVec.ofNat_add, Nat.add_comm 1]
      rw [List.cons_append, deliver, deliver, ih, hnext, List.length_cons]

/-- A part of the device that has a sink of its own. -/
theorem deliver_hom {β : Type} {f : δ → β} {out' : Sink α β w}
    (h : ∀ c i d, f (out c i d) = out' c i (f d)) (text : List α) (d : δ) :
    f (deliver out i text d) = deliver out' i text (f d) := by
  induction text generalizing i d with
  | nil => rfl
  | cons c text ih => rw [deliver, deliver, ih, h]

/-- What no character changes, a text does not change. -/
theorem deliver_keeps {β : Type} {f : δ → β} (h : ∀ c i d, f (out c i d) = f d)
    (text : List α) (d : δ) : f (deliver out i text d) = f d := by
  induction text generalizing i d with
  | nil => rfl
  | cons c text ih => rw [deliver, ih, h]

end Deliver

/-- A sink that leaves out what does not pass. -/
def filtered (pass : α → Bool) (take : δ → α → δ) : Sink α δ w :=
  fun c _ d => if pass c then take d c else d

theorem deliver_filtered (pass : α → Bool) (take : δ → α → δ) (i : BitVec w) (text : List α)
    (d : δ) : deliver (filtered pass take) i text d = (text.filter pass).foldl take d := by
  induction text generalizing i d with
  | nil => rfl
  | cons c text ih =>
      rw [deliver, ih, List.filter_cons, filtered]
      split
      · rfl
      · rfl

/-- A buffer of `size` places that drops what it has no room for. -/
def bounded (a : BitVec 64) (size : BitVec 64) : Sink (BitVec 8) Memory 64 :=
  fun c i m => if i < size then m.poke (a + i) c else m

section Bounded

variable {a size : BitVec 64} {text : List (BitVec 8)} {i : Nat}

/-- The first characters are in the buffer, as many as there is room for. -/
theorem deliver_bounded (hlen : i + text.length ≤ 2 ^ 64) (m : Memory) (x : BitVec 64) :
    deliver (bounded a size) (BitVec.ofNat 64 i) text m x =
      if i ≤ (x - a).toNat ∧ (x - a).toNat < min (i + text.length) size.toNat then
        text.getD ((x - a).toNat - i) 0#8 else m x := by
  induction text generalizing i m with
  | nil =>
      rw [deliver, if_neg (by rw [List.length_nil]; omega)]
  | cons c text ih =>
      rw [List.length_cons] at hlen ⊢
      have hnext : BitVec.ofNat 64 i + 1#64 = BitVec.ofNat 64 (i + 1) :=
        (BitVec.ofNat_add i 1).symm
      have hroom : BitVec.ofNat 64 i < size ↔ i < size.toNat := by
        rw [BitVec.lt_def, BitVec.toNat_ofNat, Nat.mod_eq_of_lt (by omega)]
      have hplace : x = a + BitVec.ofNat 64 i ↔ (x - a).toNat = i := by
        constructor
        · rintro rfl
          exact offset_toNat a (by omega)
        · intro hx
          bv_omega
      rw [deliver, hnext, ih (by omega), bounded]
      by_cases hx : (x - a).toNat = i
      · -- the place of the first character, which no later one is stored to
        rw [if_neg (by omega)]
        by_cases hi : i < size.toNat
        · have hfirst : (x - a).toNat - i = 0 := by omega
          rw [if_pos (hroom.mpr hi), if_pos (by omega), hplace.mpr hx, Memory.poke_self,
            ← hplace.mpr hx, hfirst, List.getD_cons_zero]
        · rw [if_neg (fun h => hi (hroom.mp h)), if_neg (by omega)]
      · have hkeep : (if BitVec.ofNat 64 i < size then m.poke (a + BitVec.ofNat 64 i) c
            else m) x = m x := by
          split
          · exact Memory.poke_ne m c (fun heq => hx (hplace.mp heq))
          · rfl
        rw [hkeep]
        have hrange : (i + 1 ≤ (x - a).toNat ∧
            (x - a).toNat < min (i + 1 + text.length) size.toNat) ↔
            (i ≤ (x - a).toNat ∧ (x - a).toNat < min (i + (text.length + 1)) size.toNat) := by
          omega
        simp only [hrange]
        split
        · have hplace' : (x - a).toNat - i = ((x - a).toNat - (i + 1)) + 1 := by omega
          rw [hplace', List.getD_cons_succ]
        · rfl

/-- The memory with these bytes from `a` on. -/
def written (m : Memory) (a : BitVec 64) (bytes : List (BitVec 8)) : Memory :=
  fun x => if InRange a bytes.length x then bytes.getD (x - a).toNat 0#8 else m x

theorem written_in {m : Memory} {bytes : List (BitVec 8)} {x : BitVec 64}
    (h : (x - a).toNat < bytes.length) :
    written m a bytes x = bytes.getD (x - a).toNat 0#8 := if_pos h

theorem written_out {m : Memory} {bytes : List (BitVec 8)} {x : BitVec 64}
    (h : bytes.length ≤ (x - a).toNat) : written m a bytes x = m x :=
  if_neg (Nat.not_lt.mpr h)

/-- Bytes behind others. -/
theorem written_append (m : Memory) (a : BitVec 64) {bytes more : List (BitVec 8)}
    (hlen : bytes.length + more.length ≤ 2 ^ 64) :
    written (written m a bytes) (a + BitVec.ofNat 64 bytes.length) more =
      written m a (bytes ++ more) := by
  funext x
  by_cases hfirst : (x - a).toNat < bytes.length
  · rw [written_out (by bv_omega), written_in hfirst,
      written_in (by rw [List.length_append]; omega), List.getD_append _ _ _ _ hfirst]
  · by_cases hmore : (x - a).toNat < bytes.length + more.length
    · have hplace : (x - (a + BitVec.ofNat 64 bytes.length)).toNat =
          (x - a).toNat - bytes.length := by bv_omega
      rw [written_in (by omega), written_in (by rw [List.length_append]; omega), hplace,
        List.getD_append_right _ _ _ _ (Nat.le_of_not_lt hfirst)]
    · rw [written_out (by bv_omega), written_out (by omega),
        written_out (by rw [List.length_append]; omega)]

theorem poke_eq_written (m : Memory) (a : BitVec 64) (c : BitVec 8) :
    m.poke a c = written m a [c] := by
  funext x
  by_cases hx : x = a
  · rw [hx, Memory.poke_self, written_in (by simp), BitVec.sub_self]
    rfl
  · rw [Memory.poke_ne _ _ hx, written_out (by rw [List.length_singleton]; bv_omega)]

/-- A byte in front of others. -/
theorem written_cons (m : Memory) (a : BitVec 64) (c : BitVec 8) {bytes : List (BitVec 8)}
    (hlen : bytes.length < 2 ^ 64) :
    written (m.poke a c) (a + 1#64) bytes = written m a (c :: bytes) := by
  rw [poke_eq_written]
  exact written_append m a (by rw [List.length_singleton]; omega)

/-- What fits a buffer of `count` bytes, with a terminator. -/
def fitted (count : Nat) (text : List (BitVec 8)) : List (BitVec 8) :=
  if count = 0 then [] else text.take (count - 1) ++ [0#8]

/-- A text and a terminator, which goes to the last place if the text does not fit. -/
theorem deliver_fitted (hlen : text.length < 2 ^ 64) (m : Memory) :
    bounded a size 0#8
        (if BitVec.ofNat 64 text.length < size then BitVec.ofNat 64 text.length else size - 1#64)
        (deliver (bounded a size) 0#64 text m) =
      written m a (fitted size.toNat text) := by
  have hwhole : BitVec.ofNat 64 text.length < size ↔ text.length < size.toNat := by
    rw [BitVec.lt_def, BitVec.toNat_ofNat, Nat.mod_eq_of_lt hlen]
  have hsize := size.isLt
  funext x
  have htext := @deliver_bounded a size text 0 (by omega) m x
  rw [Nat.zero_add] at htext
  unfold fitted
  by_cases hzero : size.toNat = 0
  · -- no place for the terminator
    have hnone : ∀ i : BitVec 64, ¬ i < size := by
      intro i hi
      have hlt := BitVec.lt_def.mp hi
      omega
    rw [bounded, if_neg (hnone _), if_pos hzero, written_out (Nat.zero_le _), htext,
      if_neg (by omega)]
  · generalize hplace : (if BitVec.ofNat 64 text.length < size then BitVec.ofNat 64 text.length
      else size - 1#64) = place
    have hnat : place.toNat = min text.length (size.toNat - 1) := by
      rw [← hplace]
      split
      · next h =>
          have hlt := hwhole.mp h
          rw [BitVec.toNat_ofNat]
          omega
      · next h =>
          have hge := (not_congr hwhole).mp h
          bv_omega
    have hin : place < size := by
      rw [BitVec.lt_def, hnat]
      omega
    have hx : x = a + place ↔ (x - a).toNat = place.toNat := by
      constructor
      · rintro rfl
        rw [offset_sub]
      · intro h
        bv_omega
    have htake : (text.take (size.toNat - 1)).length = place.toNat := by
      rw [List.length_take, hnat, Nat.min_comm]
    have hlength : (text.take (size.toNat - 1) ++ [0#8]).length = place.toNat + 1 := by
      rw [List.length_append, htake, List.length_singleton]
    rw [bounded, if_pos hin, if_neg hzero]
    by_cases hlast : (x - a).toNat = place.toNat
    · rw [hx.mpr hlast, Memory.poke_self, ← hx.mpr hlast, written_in (by omega),
        List.getD_append_right _ _ _ _ (by omega), htake, hlast, Nat.sub_self,
        List.getD_cons_zero]
    · rw [Memory.poke_ne _ _ (fun h => hlast (hx.mp h)), htext]
      by_cases hbefore : (x - a).toNat < place.toNat
      · rw [if_pos (by omega), written_in (by omega), List.getD_append _ _ _ _ (by omega),
          List.getD_eq_getElem?_getD, List.getD_eq_getElem?_getD,
          List.getElem?_take_of_lt (by omega), Nat.sub_zero]
      · rw [if_neg (by omega), written_out (by omega)]

end Bounded

end Asnu.Lib
