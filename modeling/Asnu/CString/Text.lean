import Asnu.CString
import Asnu.Lib.Total

/-!
Strings in memory, and the functions of `string.c` that walk along them. What they read
is on record.
-/

namespace Asnu

open Lib Lib.Code

structure Reading where
  mem : Memory
  /-- The addresses read, newest first. -/
  reads : List Ptr := []

def peek (p : Ptr) : Code Reading (BitVec 8) :=
  access (fun s => (s.mem p, { s with reads := p :: s.reads }))

/-- The loop of `strlen`, with `len` characters counted. -/
def strlenLoop (str : Ptr) : Nat → BitVec 32 → Code Reading (BitVec 32)
  | 0, _ => giveUp
  | turns + 1, len => do
      let c ← peek (str + len.setWidth 64)
      if c = 0#8 then pure len else strlenLoop str turns (len + 1#32)

def strlen (turns : Nat) (str : Ptr) : Code Reading (BitVec 32) := strlenLoop str turns 0#32

/-- The condition and the comparison read the character each. -/
def strchr : Nat → Ptr → BitVec 32 → Code Reading Ptr
  | 0, _, _ => giveUp
  | turns + 1, str, c => do
      let here ← peek str
      if here = 0#8 then pure NULL
      else
        let again ← peek str
        if again = c.setWidth 8 then pure str else strchr turns (str + 1) c

/-! ### Strings -/

/-- The characters `text` stand at `p`, with a zero behind them. No address on the way is
that of the null pointer, so the string does not run over the top of the address space. -/
inductive IsString (m : Memory) : Ptr → List (BitVec 8) → Prop
  | nil {p : Ptr} : p ≠ NULL → m p = 0#8 → IsString m p []
  | cons {p : Ptr} {c : BitVec 8} {cs : List (BitVec 8)} :
      p ≠ NULL → m p = c → c ≠ 0#8 → IsString m (p + 1) cs → IsString m p (c :: cs)

instance decidableIsString (m : Memory) :
    (p : Ptr) → (text : List (BitVec 8)) → Decidable (IsString m p text)
  | p, [] => decidable_of_iff (p ≠ NULL ∧ m p = 0#8)
      ⟨fun h => .nil h.1 h.2, fun | .nil hp hm => ⟨hp, hm⟩⟩
  | p, c :: cs =>
      haveI := decidableIsString m (p + 1) cs
      decidable_of_iff (p ≠ NULL ∧ m p = c ∧ c ≠ 0#8 ∧ IsString m (p + 1) cs)
        ⟨fun h => .cons h.1 h.2.1 h.2.2.1 h.2.2.2, fun | .cons hp hm hc h => ⟨hp, hm, hc, h⟩⟩

/-- The given bytes at the given places, and zeros elsewhere. -/
def loaded : List (Ptr × List (BitVec 8)) → Memory
  | [], _ => 0#8
  | (p, bytes) :: rest, x =>
      if InRange p bytes.length x then bytes.getD (x - p).toNat 0#8 else loaded rest x

/-- The bytes of a string, its terminator among them. -/
def InString (p : Ptr) (text : List (BitVec 8)) (x : Ptr) : Prop :=
  InRange p (text.length + 1) x

/-- The place `i` characters behind `p`, and the null pointer if there is none. -/
def pointer (p : Ptr) : Option Nat → Ptr
  | none => NULL
  | some i => p + BitVec.ofNat 64 i

section Pointer

variable {p : Ptr}

@[simp] theorem pointer_none : pointer p none = NULL := rfl

@[simp] theorem pointer_some (i : Nat) : pointer p (some i) = p + BitVec.ofNat 64 i := rfl

theorem pointer_zero (p : Ptr) : pointer p (some 0) = p := BitVec.add_zero p

theorem pointer_succ (o : Option Nat) : pointer (p + 1) o = pointer p (o.map (· + 1)) := by
  cases o with
  | none => rfl
  | some i => exact succ_offset p i

theorem offset_offset (p : Ptr) (i j : Nat) :
    p + BitVec.ofNat 64 i + BitVec.ofNat 64 j = p + BitVec.ofNat 64 (i + j) := by
  rw [BitVec.add_assoc, ← BitVec.ofNat_add]

theorem offset_succ (p : Ptr) (i : Nat) :
    p + BitVec.ofNat 64 i + 1 = p + BitVec.ofNat 64 (i + 1) := offset_offset p i 1

end Pointer

namespace IsString

variable {m : Memory} {p : Ptr} {text : List (BitVec 8)}

theorem ne_null (h : IsString m p text) : p ≠ NULL := by
  cases h with
  | nil hp _ => exact hp
  | cons hp _ _ _ => exact hp

/-- The string from a place in it on. -/
theorem drop (h : IsString m p text) {i : Nat} (hi : i ≤ text.length) :
    IsString m (p + BitVec.ofNat 64 i) (text.drop i) := by
  induction h generalizing i with
  | nil hp hm =>
      obtain rfl : i = 0 := by simpa using hi
      rw [BitVec.add_zero]
      exact .nil hp hm
  | cons hp hm hc hrest ih =>
      cases i with
      | zero =>
          rw [BitVec.add_zero]
          exact .cons hp hm hc hrest
      | succ i =>
          rw [← succ_offset]
          exact ih (Nat.le_of_succ_le_succ hi)

theorem right (pre : List (BitVec 8)) (h : IsString m p (pre ++ text)) :
    IsString m (p + BitVec.ofNat 64 pre.length) text := by
  have hdrop := h.drop (i := pre.length) (by rw [List.length_append]; omega)
  rwa [List.drop_left] at hdrop

theorem pointer_ne_null (h : IsString m p text) {i : Nat} (hi : i ≤ text.length) :
    p + BitVec.ofNat 64 i ≠ NULL :=
  (h.drop hi).ne_null

/-- The string ends before the top of the address space. -/
theorem lt_top (h : IsString m p text) : p.toNat + text.length < 2 ^ 64 := by
  induction h with
  | nil => exact BitVec.isLt _
  | cons hp _ _ hrest ih =>
      have hnext := hrest.ne_null
      unfold NULL at hnext
      rw [List.length_cons]
      bv_omega

theorem length_lt (h : IsString m p text) : text.length < 2 ^ 64 := by
  have htop := h.lt_top
  omega

theorem inString (h : IsString m p text) {i : Nat} (hi : i ≤ text.length) :
    InString p text (p + BitVec.ofNat 64 i) :=
  inRange_add p (by omega) h.length_lt

theorem inString_self (h : IsString m p text) : InString p text p := by
  have hfirst := h.inString (Nat.zero_le _)
  rwa [BitVec.add_zero] at hfirst

theorem head_ne_zero (h : IsString m p text) (htext : text ≠ []) : m p ≠ 0#8 := by
  cases h with
  | nil => exact absurd rfl htext
  | cons _ hm hc _ => exact hm ▸ hc

theorem head (h : IsString m p text) : m p = text.headD 0#8 := by
  cases h with
  | nil _ hm => exact hm
  | cons _ hm _ _ => exact hm

theorem ne_zero (h : IsString m p text) : ∀ c ∈ text, c ≠ 0#8 := by
  induction h with
  | nil => exact fun _ hc => absurd hc List.not_mem_nil
  | cons _ _ hne _ ih => exact List.forall_mem_cons.mpr ⟨hne, ih⟩

/-- The string at the same place of another memory that has its bytes. -/
theorem congr {m' : Memory} (h : IsString m p text)
    (hsame : ∀ x, InString p text x → m' x = m x) : IsString m' p text := by
  induction h with
  | nil hp hm => exact .nil hp ((hsame _ (inString_self (.nil hp hm))).trans hm)
  | cons hp hm hc hrest ih =>
      refine .cons hp ((hsame _ (inString_self (.cons hp hm hc hrest))).trans hm) hc
        (ih (fun x hx => hsame x ?_))
      exact inRange_offset (d := 1) hx (by rw [List.length_cons]; omega)

/-- The first characters at another place, with a zero behind them, are a string. -/
theorem copied {m' : Memory} {q : Ptr} {n : Nat} (h : IsString m p text) (hn : n ≤ text.length)
    (hq : ∀ k ≤ n, q + BitVec.ofNat 64 k ≠ NULL)
    (hcopy : ∀ k < n, m' (q + BitVec.ofNat 64 k) = m (p + BitVec.ofNat 64 k))
    (hend : m' (q + BitVec.ofNat 64 n) = 0#8) : IsString m' q (text.take n) := by
  induction h generalizing q n with
  | nil hp _ =>
      obtain rfl : n = 0 := by simpa using hn
      have hfirst := hq 0 (Nat.le_refl _)
      rw [BitVec.add_zero] at hend hfirst
      exact .nil hfirst hend
  | @cons p c cs hp hm hc _ ih =>
      have hfirst := hq 0 (Nat.zero_le _)
      cases n with
      | zero =>
          rw [BitVec.add_zero] at hend hfirst
          exact .nil hfirst hend
      | succ n =>
          have hbyte := hcopy 0 (Nat.succ_pos n)
          rw [BitVec.add_zero] at hfirst hbyte
          rw [BitVec.add_zero] at hbyte
          refine .cons hfirst (hbyte.trans hm) hc (ih (Nat.le_of_succ_le_succ hn) ?_ ?_ ?_)
          · intro k hk
            rw [succ_offset]
            exact hq (k + 1) (Nat.succ_le_succ hk)
          · intro k hk
            rw [succ_offset, succ_offset]
            exact hcopy (k + 1) (Nat.succ_lt_succ hk)
          · rw [succ_offset]
            exact hend

end IsString

/-! ### Reading -/

/-- Nothing but bytes with `P` is read, and nothing is written. -/
structure Reads (P : Ptr → Prop) (s t : Reading) : Prop where
  mem : t.mem = s.mem
  reads : ∀ x ∈ t.reads, x ∈ s.reads ∨ P x

theorem Reads.trans {P : Ptr → Prop} {s t u : Reading} (h : Reads P s t) (h' : Reads P t u) :
    Reads P s u where
  mem := h'.mem.trans h.mem
  reads := fun x hx => (h'.reads x hx).elim (h.reads x) Or.inr

/-- With the memory `m` the program returns `r`, and reads only bytes with `P`. -/
def Gives {α : Type} (m : Memory) (P : Ptr → Prop) (q : Code Reading α) (r : α) : Prop :=
  ∀ s : Reading, s.mem = m → Returns q s (fun a t => a = r ∧ Reads P s t)

namespace Gives

variable {α β : Type} {m : Memory} {P P' : Ptr → Prop} {q : Code Reading α} {a : α}
  {f : α → Code Reading β} {b : β}

theorem pure (m : Memory) (P : Ptr → Prop) (a : α) : Gives m P (Pure.pure a) a :=
  fun _ _ => returns_pure.mpr ⟨rfl, rfl, fun _ => Or.inl⟩

theorem bind (h : Gives m P q a) (hf : Gives m P (f a) b) : Gives m P (q >>= f) b := by
  intro s hs
  refine (h s hs).bind ?_
  rintro _ t ⟨rfl, hread⟩
  refine (hf t (hread.mem.trans hs)).mono (fun c u hu => ⟨hu.1, hread.trans hu.2⟩)

theorem mono (h : Gives m P q a) (hP : ∀ x, P x → P' x) : Gives m P' q a :=
  fun s hs => (h s hs).mono (fun _ _ ht =>
    ⟨ht.1, ht.2.mem, fun x hx => (ht.2.reads x hx).imp_right (hP x)⟩)

theorem of_peek {p : Ptr} (hp : P p) : Gives m P (Asnu.peek p) (m p) := by
  refine fun s hs => returns_access.mpr ⟨congrFun hs p, rfl, fun x hx => ?_⟩
  rcases List.mem_cons.mp hx with rfl | hx
  · exact Or.inr hp
  · exact Or.inl hx

/-- The rule for the reading of a character. -/
theorem peek {p : Ptr} {c : BitVec 8} {f : BitVec 8 → Code Reading β} (hp : P p) (hc : m p = c)
    (hf : Gives m P (f c) b) : Gives m P (Asnu.peek p >>= f) b :=
  bind (hc ▸ of_peek hp) hf

theorem ite_pos {c : Prop} [Decidable c] {q' : Code Reading α} (hc : c) (h : Gives m P q a) :
    Gives m P (if c then q else q') a := by
  rwa [if_pos hc]

theorem ite_neg {c : Prop} [Decidable c] {q' : Code Reading α} (hc : ¬ c) (h : Gives m P q a) :
    Gives m P (if c then q' else q) a := by
  rwa [if_neg hc]

/-- Started with nothing read, the program has read only bytes with `P`. -/
theorem from_start (h : Gives m P q a) :
    Returns q { mem := m } (fun b t => b = a ∧ t.mem = m ∧ ∀ x ∈ t.reads, P x) := by
  refine (h { mem := m } rfl).mono (fun b t ht => ⟨ht.1, ht.2.mem, fun x hx => ?_⟩)
  exact (ht.2.reads x hx).resolve_left List.not_mem_nil

/-- The rule for a program that only reads, in one with a larger state. -/
theorem focus_bind {σ : Type} {get : σ → Reading} {set : σ → Reading → σ} {f : α → Code σ β}
    {s : σ} {Q : β → σ → Prop} (h : Gives m P q a) (hm : (get s).mem = m)
    (hf : ∀ t, Reads P (get s) t → Returns (f a) (set s t) Q) :
    Returns (focus get set q >>= f) s Q := by
  rw [returns_bind, returns_focus]
  refine (h (get s) hm).mono ?_
  rintro _ t ⟨rfl, hread⟩
  exact hf t hread

end Gives

theorem inString_cons {p x : Ptr} {c : BitVec 8} {cs : List (BitVec 8)}
    (hx : InString (p + 1) cs x) : InString p (c :: cs) x :=
  inRange_offset (d := 1) hx (by rw [List.length_cons]; omega)

section Walk

variable {m : Memory} {p : Ptr} {text : List (BitVec 8)}

/-- A character that goes through an `int` comes back. -/
theorem setWidth_signExtend (c : BitVec 8) : (c.signExtend 32).setWidth 8 = c := by
  revert c
  decide

/-- `strchr` finds the first place of the character. -/
theorem strchr_gives (h : IsString m p text) (c : BitVec 32) {turns : Nat}
    (hturns : text.length < turns) :
    Gives m (InString p text) (strchr turns p c) (pointer p (text.idxOf? (c.setWidth 8))) := by
  induction h generalizing turns with
  | @nil p hp hm =>
      obtain ⟨turns, rfl⟩ := exists_turn hturns
      exact .peek (IsString.nil hp hm).inString_self hm (.ite_pos rfl (.pure _ _ _))
  | @cons p b cs hp hm hb hrest ih =>
      obtain ⟨turns, rfl⟩ := exists_turn hturns
      have hself := (IsString.cons hp hm hb hrest).inString_self
      refine .peek hself hm (.ite_neg hb (.peek hself hm ?_))
      rw [List.idxOf?_cons]
      by_cases hc : b = c.setWidth 8
      · rw [if_pos (beq_iff_eq.mpr hc), pointer_zero]
        exact .ite_pos hc (.pure _ _ _)
      · rw [if_neg (fun heq => hc (eq_of_beq heq)), ← pointer_succ]
        exact .ite_neg hc ((ih (Nat.lt_of_succ_lt_succ hturns)).mono (fun _ => inString_cons))

/-- `strlen` counts the characters as long as 32 bits are enough. -/
theorem strlen_gives (h : IsString m p text) (hlen : text.length < 2 ^ 32) {turns : Nat}
    (hturns : text.length < turns) :
    Gives m (InString p text) (strlen turns p) (BitVec.ofNat 32 text.length) := by
  have hloop : ∀ i, i ≤ text.length → ∀ turns, text.length - i < turns →
      Gives m (InString p text) (strlenLoop p turns (BitVec.ofNat 32 i))
        (BitVec.ofNat 32 text.length) := by
    intro i hi turns
    induction turns generalizing i with
    | zero => exact fun hlt => absurd hlt (Nat.not_lt_zero _)
    | succ turns ih =>
        intro hlt
        have haddr : (BitVec.ofNat 32 i).setWidth 64 = BitVec.ofNat 64 i := by
          apply BitVec.eq_of_toNat_eq
          rw [BitVec.toNat_setWidth, BitVec.toNat_ofNat, BitVec.toNat_ofNat]
          omega
        have hnext : BitVec.ofNat 32 i + 1#32 = BitVec.ofNat 32 (i + 1) :=
          (BitVec.ofNat_add i 1).symm
        unfold strlenLoop
        rw [haddr, hnext]
        have hsuffix := h.drop hi
        have hin := h.inString hi
        cases hdrop : text.drop i with
        | nil =>
            rw [hdrop] at hsuffix
            have hend : i = text.length := by
              have hle := List.drop_eq_nil_iff.mp hdrop
              omega
            cases hsuffix with
            | nil _ hzero =>
                refine .peek hin hzero (.ite_pos rfl ?_)
                rw [hend]
                exact .pure _ _ _
        | cons c cs =>
            rw [hdrop] at hsuffix
            have hlt' : i < text.length := by
              by_contra hge
              rw [List.drop_eq_nil_of_le (Nat.le_of_not_lt hge)] at hdrop
              cases hdrop
            cases hsuffix with
            | cons _ hchar hne _ =>
                exact .peek hin hchar (.ite_neg hne (ih (i + 1) hlt' (by omega)))
  exact hloop 0 (Nat.zero_le _) turns (by omega)

end Walk

end Asnu
