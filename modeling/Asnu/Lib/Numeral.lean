import Asnu.Lib.Total
import Mathlib.Data.List.GetD
import Mathlib.Data.Nat.Digits.Lemmas

/-!
Numbers written digit by digit into a buffer. A loop stores the digits, the last
one first, another turns them round, and a third sends what it finds up to a
terminator. The rules follow the list that the buffer begins with, and the places
that have been stored to and loaded from.
-/

namespace Asnu.Lib

variable {α ν : Type}

/-! ### Cells -/

def setCell (cells : Nat → α) (i : Nat) (c : α) : Nat → α :=
  fun k => if k = i then c else cells k

/-- The cells begin with `l`; `d` is never used. -/
def Begins (d : α) (l : List α) (cells : Nat → α) : Prop :=
  ∀ k < l.length, cells k = l.getD k d

/-- `l` is turned round in the first `j` places and the last `j`. -/
def Turned (d : α) (l : List α) (j : Nat) (cells : Nat → α) : Prop :=
  ∀ k < l.length, cells k =
    if k < j ∨ l.length - j ≤ k then l.getD (l.length - 1 - k) d else l.getD k d

section Cells

variable {d : α} {l tail : List α} {j : Nat} {cells : Nat → α}

theorem Begins.nil (d : α) (cells : Nat → α) : Begins d [] cells :=
  fun k hk => absurd hk (Nat.not_lt_zero k)

theorem Begins.append (h : Begins d l cells) (c : α) :
    Begins d (l ++ [c]) (setCell cells l.length c) := by
  intro k hk
  rw [List.length_append, List.length_singleton] at hk
  simp only [setCell]
  by_cases hlast : k = l.length
  · rw [if_pos hlast, hlast, List.getD_append_right _ _ _ _ (Nat.le_refl _), Nat.sub_self]
    rfl
  · rw [if_neg hlast, h k (by omega), List.getD_append _ _ _ _ (by omega)]

theorem Begins.left (h : Begins d (l ++ tail) cells) : Begins d l cells := by
  intro k hk
  rw [h k (by rw [List.length_append]; omega), List.getD_append _ _ _ _ hk]

theorem Begins.right (h : Begins d (l ++ tail) cells) :
    Begins d tail (fun k => cells (l.length + k)) := by
  intro k hk
  change cells (l.length + k) = _
  rw [h (l.length + k) (by rw [List.length_append]; omega),
    List.getD_append_right _ _ _ _ (Nat.le_add_right _ _), Nat.add_sub_cancel_left]

theorem Begins.glue (h : Begins d l cells)
    (htail : Begins d tail (fun k => cells (l.length + k))) : Begins d (l ++ tail) cells := by
  intro k hk
  rw [List.length_append] at hk
  by_cases hleft : k < l.length
  · rw [h k hleft, List.getD_append _ _ _ _ hleft]
  · have hright : cells (l.length + (k - l.length)) = _ := htail (k - l.length) (by omega)
    rw [Nat.add_sub_cancel' (Nat.le_of_not_lt hleft)] at hright
    rw [hright, List.getD_append_right _ _ _ _ (Nat.le_of_not_lt hleft)]

theorem Begins.turned (h : Begins d l cells) : Turned d l 0 cells := by
  intro k hk
  rw [if_neg (by omega), h k hk]

/-- In the middle nothing is left to be exchanged. -/
theorem Turned.begins_reverse (h : Turned d l (l.length / 2) cells) :
    Begins d l.reverse cells := by
  intro k hk
  rw [List.length_reverse] at hk
  rw [h k hk, List.getD_reverse k hk]
  split
  · rfl
  · next hmid =>
      have hself : l.length - 1 - k = k := by omega
      rw [hself]

theorem Turned.swap (h : Turned d l j cells) (hj : 2 * (j + 1) ≤ l.length) :
    Turned d l (j + 1) (setCell (setCell cells j (cells (l.length - j - 1)))
      (l.length - j - 1) (cells j)) := by
  have hfirst := h j (by omega)
  have hlast := h (l.length - j - 1) (by omega)
  rw [if_neg (by omega)] at hfirst hlast
  intro k hk
  simp only [setCell]
  by_cases hkl : k = l.length - j - 1
  · have hback : l.length - 1 - k = j := by omega
    rw [if_pos hkl, if_pos (by omega), hback, hfirst]
  · by_cases hkj : k = j
    · have hback : l.length - 1 - k = l.length - j - 1 := by omega
      rw [if_neg hkl, if_pos hkj, if_pos (by omega), hback, hlast]
    · rw [if_neg hkl, if_neg hkj, h k hk]
      have hsame : (k < j ∨ l.length - j ≤ k) ↔ (k < j + 1 ∨ l.length - (j + 1) ≤ k) := by
        omega
      simp only [hsame]

end Cells

/-! ### Programs on a buffer -/

structure Buffer (α : Type) where
  cells : Nat → α
  /-- The places stored to, newest first. -/
  stores : List Nat := []
  /-- The places loaded from. -/
  loads : List Nat := []
  sent : List α := []

/-- How a loop takes a number apart. -/
structure DigitLoop (ν α : Type) where
  more : ν → Bool
  digit : ν → α
  next : ν → ν

namespace Buffer

def put (b : Buffer α) (i : Nat) (c : α) : Buffer α :=
  { b with cells := setCell b.cells i c, stores := i :: b.stores }

def load (i : Nat) : Code (Buffer α) α :=
  Code.access (fun b => (b.cells i, { b with loads := i :: b.loads }))

def store (i : Nat) (c : α) : Code (Buffer α) Unit := Code.access (fun b => ((), b.put i c))

def send (c : α) : Code (Buffer α) Unit :=
  Code.access (fun b => ((), { b with sent := b.sent ++ [c] }))

/-- `while (more(v)) { buf[i++] = digit(v); v = next(v); }` -/
def digits (d : DigitLoop ν α) : Nat → ν → Nat → Code (Buffer α) Nat
  | 0, _, _ => Code.giveUp
  | turns + 1, v, i =>
      if d.more v then do
        store i (d.digit v)
        digits d turns (d.next v) (i + 1)
      else pure i

/-- `c` in `n` more places. -/
def pad (c : α) : Nat → Nat → Code (Buffer α) Nat
  | 0, i => pure i
  | n + 1, i => do
      store i c
      pad c n (i + 1)

def swap (j k : Nat) : Code (Buffer α) Unit := do
  let t ← load j
  let u ← load k
  store j u
  store k t

/-- `n` more swaps in the first `i` places, from `j` on. -/
def reverse (i : Nat) : Nat → Nat → Code (Buffer α) Unit
  | 0, _ => pure ()
  | n + 1, j => do
      swap j (i - j - 1)
      reverse i n (j + 1)

/-- The text from place `j` on, up to `stop`. -/
def emit [DecidableEq α] (stop : α) : Nat → Nat → Code (Buffer α) Unit
  | 0, _ => Code.giveUp
  | turns + 1, j => do
      let test ← load j
      if test = stop then pure ()
      else do
        let c ← load j
        send c
        emit stop turns (j + 1)

end Buffer

/-- The digits of `v` as the loop gives them, after which it stops. -/
inductive DigitLoop.Yields (d : DigitLoop ν α) : ν → List α → Prop where
  | stop {v : ν} (h : d.more v = false) : Yields d v []
  | more {v : ν} {l : List α} (h : d.more v = true) (hrest : Yields d (d.next v) l) :
      Yields d v (d.digit v :: l)

/-- A loop that divides by `base`, with `toNat` the numbers. -/
theorem DigitLoop.yields_digits (d : DigitLoop ν α) {base : Nat} (hbase : 1 < base)
    (toNat : ν → Nat) (char : Nat → α) (hmore : ∀ v, d.more v = true ↔ 0 < toNat v)
    (hdigit : ∀ v, 0 < toNat v → d.digit v = char (toNat v % base))
    (hnext : ∀ v, 0 < toNat v → toNat (d.next v) = toNat v / base) (v : ν) :
    d.Yields v ((Nat.digits base (toNat v)).map char) := by
  generalize hn : toNat v = n
  induction n using Nat.strong_induction_on generalizing v with
  | _ n ih =>
      rcases Nat.eq_zero_or_pos n with rfl | hpos
      · rw [Nat.digits_zero, List.map_nil]
        refine .stop (Bool.eq_false_iff.mpr (fun hm => ?_))
        exact absurd ((hmore v).mp hm) (by omega)
      · subst hn
        rw [Nat.digits_def' hbase hpos, List.map_cons, ← hdigit v hpos]
        refine .more ((hmore v).mpr hpos) ?_
        exact ih _ (Nat.div_lt_self hpos hbase) _ (hnext v hpos)

namespace Buffer

/-- The buffer begins with `l`, the places of which are all that has been stored to, and
nothing has been sent. -/
structure Holds (d : α) (l : List α) (b : Buffer α) : Prop where
  cells : Begins d l b.cells
  stores : ∀ i, i ∈ b.stores ↔ i < l.length
  loads : ∀ i ∈ b.loads, i < l.length
  sent : b.sent = []

/-- The text `l` has been sent from the buffer, which holds it with a terminator behind. -/
structure Sends (l : List α) (b : Buffer α) : Prop where
  sent : b.sent = l
  stores : ∀ i, i ∈ b.stores ↔ i ≤ l.length
  loads : ∀ i ∈ b.loads, i ≤ l.length

/-- A buffer of `size` places is enough. -/
def Within (size : Nat) (b : Buffer α) : Prop :=
  (∀ i ∈ b.stores, i < size) ∧ ∀ i ∈ b.loads, i < size

variable {d : α} {l tail : List α} {b : Buffer α}

theorem Sends.within {size : Nat} (h : Sends l b) (hsize : l.length < size) : b.Within size :=
  ⟨fun i hi => Nat.lt_of_le_of_lt ((h.stores i).mp hi) hsize,
    fun i hi => Nat.lt_of_le_of_lt (h.loads i hi) hsize⟩

theorem holds_nil (cells : Nat → α) : Holds d [] { cells := cells } where
  cells := Begins.nil d cells
  stores := fun i => by simp
  loads := fun i hi => nomatch hi
  sent := rfl

theorem Holds.put (h : Holds d l b) (c : α) : Holds d (l ++ [c]) (b.put l.length c) where
  cells := h.cells.append c
  stores := by
    intro i
    change i ∈ l.length :: b.stores ↔ _
    rw [List.mem_cons, h.stores, List.length_append, List.length_singleton]
    omega
  loads := by
    intro i hi
    rw [List.length_append, List.length_singleton]
    exact Nat.lt_succ_of_lt (h.loads i hi)
  sent := h.sent

theorem Holds.store (h : Holds d l b) (c : α) :
    Code.Returns (store l.length c) b (fun _ t => Holds d (l ++ [c]) t) :=
  Code.returns_access.mpr (h.put c)

theorem Holds.digits {loop : DigitLoop ν α} {v : ν} {ds : List α} (hds : loop.Yields v ds)
    {turns : Nat} (hturns : ds.length < turns) (h : Holds d l b) :
    Code.Returns (digits loop turns v l.length) b
      (fun i t => i = (l ++ ds).length ∧ Holds d (l ++ ds) t) := by
  induction hds generalizing turns l b with
  | stop hstop =>
      cases turns with
      | zero => exact absurd hturns (Nat.not_lt_zero _)
      | succ turns =>
          rw [Buffer.digits, if_neg (by rw [hstop]; decide), Code.returns_pure, List.append_nil]
          exact ⟨rfl, h⟩
  | more hmore _ ih =>
      cases turns with
      | zero => exact absurd hturns (Nat.not_lt_zero _)
      | succ turns =>
          rw [Buffer.digits, if_pos hmore]
          refine (h.store _).bind (fun _ t ht => ?_)
          have hrest := ih (Nat.lt_of_succ_lt_succ hturns) ht
          rwa [List.append_assoc, List.singleton_append, List.length_append,
            List.length_singleton] at hrest

theorem Holds.pad (h : Holds d l b) (c : α) (n : Nat) :
    Code.Returns (pad c n l.length) b
      (fun i t => i = (l ++ List.replicate n c).length ∧ Holds d (l ++ List.replicate n c) t) := by
  induction n generalizing l b with
  | zero =>
      rw [Buffer.pad, Code.returns_pure, List.replicate_zero, List.append_nil]
      exact ⟨rfl, h⟩
  | succ n ih =>
      refine (h.store c).bind (fun _ t ht => ?_)
      have hrest := ih ht
      rwa [List.append_assoc, List.singleton_append, ← List.replicate_succ, List.length_append,
        List.length_singleton] at hrest

/-- The buffer after places `j` and `k` have been exchanged. -/
def swapped (b : Buffer α) (j k : Nat) : Buffer α :=
  { (b.put j (b.cells k)).put k (b.cells j) with loads := k :: j :: b.loads }

theorem returns_swap {j k : Nat} {Q : Unit → Buffer α → Prop} :
    Code.Returns (swap j k) b Q ↔ Q () (b.swapped j k) := by
  simp only [swap, load, Buffer.store, Code.returns_bind, Code.returns_access]
  rfl

/-- The first places are being turned round, with `tail` behind them. -/
structure Turning (d : α) (l tail : List α) (j : Nat) (b : Buffer α) : Prop where
  cells : Turned d l j b.cells
  behind : Begins d tail (fun k => b.cells (l.length + k))
  stores : ∀ i, i ∈ b.stores ↔ i < (l ++ tail).length
  loads : ∀ i ∈ b.loads, i < (l ++ tail).length
  sent : b.sent = []

theorem Turning.swap {j : Nat} (h : Turning d l tail j b) (hj : 2 * (j + 1) ≤ l.length) :
    Turning d l tail (j + 1) (b.swapped j (l.length - j - 1)) where
  cells := h.cells.swap hj
  behind := by
    intro k hk
    have hbehind := h.behind k hk
    change setCell (setCell b.cells j _) _ _ (l.length + k) = _
    simp only [setCell]
    rwa [if_neg (by omega), if_neg (by omega)]
  stores := by
    intro i
    change i ∈ (l.length - j - 1) :: j :: b.stores ↔ _
    rw [List.mem_cons, List.mem_cons, h.stores, List.length_append]
    omega
  loads := by
    intro i hi
    rw [List.length_append]
    rcases List.mem_cons.mp hi with rfl | hi
    · omega
    · rcases List.mem_cons.mp hi with rfl | hi
      · omega
      · have hold := h.loads i hi
        rwa [List.length_append] at hold
  sent := h.sent

theorem Turning.reverse (n : Nat) {j : Nat} (hj : j + n = l.length / 2)
    (h : Turning d l tail j b) :
    Code.Returns (reverse l.length n j) b (fun _ t => Holds d (l.reverse ++ tail) t) := by
  induction n generalizing j b with
  | zero =>
      obtain rfl : j = l.length / 2 := hj
      rw [Buffer.reverse, Code.returns_pure]
      have hlength : (l.reverse ++ tail).length = (l ++ tail).length := by
        rw [List.length_append, List.length_append, List.length_reverse]
      refine ⟨h.cells.begins_reverse.glue ?_, ?_, ?_, h.sent⟩
      · rw [List.length_reverse]
        exact h.behind
      · exact fun i => by rw [h.stores, hlength]
      · exact fun i hi => hlength ▸ h.loads i hi
  | succ n ih =>
      rw [Buffer.reverse, Code.returns_bind, returns_swap]
      exact ih (by omega) (h.swap (by omega))

/-- The whole loop turns the first places round and leaves those behind. -/
theorem Holds.reverse (h : Holds d (l ++ tail) b) :
    Code.Returns (reverse l.length (l.length / 2) 0) b
      (fun _ t => Holds d (l.reverse ++ tail) t) :=
  Turning.reverse _ (Nat.zero_add _)
    ⟨h.cells.left.turned, h.cells.right, h.stores, h.loads, h.sent⟩

/-- The text up to the terminator is sent. -/
theorem emit_returns [DecidableEq α] {stop : α} (hl : ∀ c ∈ l, c ≠ stop)
    (hcells : Begins stop (l ++ [stop]) b.cells) {i turns : Nat} (hi : i ≤ l.length)
    (hturns : l.length < turns + i) :
    Code.Returns (emit stop turns i) b
      (fun _ t => t.sent = b.sent ++ l.drop i ∧ t.stores = b.stores ∧
        ∀ k ∈ t.loads, k ∈ b.loads ∨ k ≤ l.length) := by
  induction turns generalizing i b with
  | zero => omega
  | succ turns ih =>
      have hcell := hcells i (by rw [List.length_append, List.length_singleton]; omega)
      have hloads : ∀ k ∈ i :: b.loads, k ∈ b.loads ∨ k ≤ l.length := by
        intro k hk
        rcases List.mem_cons.mp hk with rfl | hold
        · exact Or.inr hi
        · exact Or.inl hold
      rw [Buffer.emit, Code.returns_bind, load, Code.returns_access]
      rcases Nat.lt_or_eq_of_le hi with hlt | rfl
      · rw [List.getD_append _ _ _ _ hlt, List.getD_eq_getElem _ _ hlt] at hcell
        have hchar : b.cells i ≠ stop := by
          rw [hcell]
          exact hl _ (List.getElem_mem hlt)
        rw [if_neg hchar]
        simp only [send, Code.returns_bind, Code.returns_access]
        refine (ih (b := { b with loads := i :: i :: b.loads, sent := b.sent ++ [b.cells i] })
          hcells hlt (by omega)).mono ?_
        rintro _ t ⟨hsent, hstores, hlater⟩
        refine ⟨?_, hstores, fun k hk => ?_⟩
        · rw [hsent, List.drop_eq_getElem_cons hlt, List.append_assoc, List.singleton_append,
            hcell]
        · rcases hlater k hk with hmem | hle
          · rcases List.mem_cons.mp hmem with rfl | hmem
            · exact Or.inr hi
            · exact hloads k hmem
          · exact Or.inr hle
      · rw [List.getD_append_right _ _ _ _ (Nat.le_refl _), Nat.sub_self] at hcell
        have hstop : b.cells l.length = stop := hcell
        rw [if_pos hstop, Code.returns_pure, List.drop_length, List.append_nil]
        exact ⟨rfl, rfl, hloads⟩

theorem Holds.emit [DecidableEq α] {stop : α} (h : Holds stop (l ++ [stop]) b)
    (hl : ∀ c ∈ l, c ≠ stop) {turns : Nat} (hturns : l.length < turns) :
    Code.Returns (emit stop turns 0) b (fun _ t => Sends l t) := by
  have hlength : ∀ i, i < (l ++ [stop]).length ↔ i ≤ l.length := by
    intro i
    rw [List.length_append, List.length_singleton, Nat.lt_succ_iff]
  refine (emit_returns hl h.cells (Nat.zero_le _) hturns).mono ?_
  rintro _ t ⟨hsent, hstores, hloads⟩
  refine ⟨?_, fun i => ?_, fun i hi => ?_⟩
  · rw [hsent, h.sent, List.nil_append, List.drop_zero]
  · rw [hstores, h.stores, hlength]
  · exact (hloads i hi).elim (fun hold => (hlength i).mp (h.loads i hold)) id

end Buffer

/-! ### Reading a number back -/

section Read

variable (value : α → Option Nat) (base : Nat)

def readBack (text : List α) : Nat :=
  text.foldl (fun n c => base * n + (value c).getD 0) 0

/-- `text` is the number `n` in digits, and no shorter text is: it begins with a zero only
if that is all. -/
structure IsNumeral (n : Nat) (text : List α) : Prop where
  digits : ∀ c ∈ text, ∃ d ∈ value c, d < base
  nonempty : text ≠ []
  shortest : (∃ c ∈ text.head?, value c = some 0) → text.length = 1
  reads : readBack value base text = n

/-- `text` is `n` in digits, with zeros in front to make up `width` characters. -/
structure IsPadded (width : Nat) (zero : α) (n : Nat) (text : List α) : Prop where
  padding : ∃ digits, IsNumeral value base n digits ∧ text = digits.leftpad width zero
  digits : ∀ c ∈ text, ∃ d ∈ value c, d < base
  reads : readBack value base text = n

/-- The numeral that the loops leave. -/
def numeral (char : Nat → α) (n : Nat) : List α :=
  if n = 0 then [char 0] else ((Nat.digits base n).map char).reverse

/-- Zeros in front do not count. -/
theorem readBack_replicate {zero : α} (hzero : value zero = some 0) (k : Nat) (text : List α) :
    readBack value base (List.replicate k zero ++ text) = readBack value base text := by
  have hzeros : readBack value base (List.replicate k zero) = 0 := by
    induction k with
    | zero => rfl
    | succ k ih =>
        unfold readBack at ih ⊢
        rw [List.replicate_succ, List.foldl_cons, hzero]
        exact ih
  unfold readBack at hzeros ⊢
  rw [List.foldl_append, hzeros]

theorem IsNumeral.leftpad {value : α → Option Nat} {base : Nat} {zero : α} {n : Nat}
    {digits : List α} (h : IsNumeral value base n digits) (hzero : value zero = some 0)
    (hbase : 0 < base) (width : Nat) :
    IsPadded value base width zero n (digits.leftpad width zero) where
  padding := ⟨digits, h, rfl⟩
  digits := by
    intro c hc
    rcases List.mem_append.mp hc with hpad | hdigit
    · obtain rfl := (List.mem_replicate.mp hpad).2
      exact ⟨0, hzero, hbase⟩
    · exact h.digits c hdigit
  reads := (readBack_replicate value base hzero _ digits).trans h.reads

variable {value base} {char : Nat → α} (hchar : ∀ d < base, value (char d) = some d)
include hchar

theorem readBack_digits {ds : List Nat} (hds : ∀ d ∈ ds, d < base) :
    readBack value base (ds.map char).reverse = Nat.ofDigits base ds := by
  induction ds with
  | nil => rfl
  | cons d ds ih =>
      have hrest := ih (fun e he => hds e (List.mem_cons_of_mem _ he))
      unfold readBack at hrest ⊢
      rw [List.map_cons, List.reverse_cons, List.foldl_append, hrest, List.foldl_cons,
        List.foldl_nil, hchar d (hds d List.mem_cons_self), Nat.ofDigits_cons, Option.getD_some,
        Nat.add_comm]

theorem isNumeral_numeral (hbase : 1 < base) (n : Nat) :
    IsNumeral value base n (numeral base char n) := by
  by_cases hzero : n = 0
  · have hfirst := hchar 0 (by omega)
    rw [numeral, if_pos hzero]
    refine ⟨fun c hc => ?_, by simp, fun _ => rfl, ?_⟩
    · obtain rfl := List.mem_singleton.mp hc
      exact ⟨0, hfirst, by omega⟩
    · simp [readBack, hfirst, hzero]
  · have hdigits : ∀ d ∈ Nat.digits base n, d < base := fun d hd => Nat.digits_lt_base hbase hd
    have hne : Nat.digits base n ≠ [] := Nat.digits_ne_nil_iff_ne_zero.mpr hzero
    rw [numeral, if_neg hzero]
    refine ⟨fun c hc => ?_, by simpa using hne, fun hhead => ?_, ?_⟩
    · obtain ⟨d, hd, rfl⟩ := List.mem_map.mp (List.mem_reverse.mp hc)
      exact ⟨d, hchar d (hdigits d hd), hdigits d hd⟩
    · -- the first character is that of the last digit, which is not 0
      obtain ⟨c, hc, hvalue⟩ := hhead
      rw [List.head?_reverse, List.getLast?_map, List.getLast?_eq_some_getLast hne] at hc
      obtain rfl := Option.some.inj hc
      rw [hchar _ (hdigits _ (List.getLast_mem hne))] at hvalue
      exact absurd (Option.some.inj hvalue) (Nat.getLast_digit_ne_zero base hzero)
    · rw [readBack_digits hchar hdigits, Nat.ofDigits_digits]

end Read

/-- It has more than `k` digits exactly if the number is at least `base ^ k`. -/
theorem numeral_length_le_iff {base : Nat} (hbase : 1 < base) (char : Nat → α) {n k : Nat}
    (hk : 0 < k) : (numeral base char n).length ≤ k ↔ n < base ^ k := by
  by_cases hzero : n = 0
  · rw [numeral, if_pos hzero, hzero]
    exact iff_of_true hk (Nat.pow_pos (by omega))
  · rw [numeral, if_neg hzero, List.length_reverse, List.length_map]
    exact Nat.digits_length_le_iff hbase n

/-- The digits in a room of `R` places, with `z` zeros above them, and of these `k` places:
they are still the number exactly if all its digits are in these places. -/
theorem ofDigits_cut_iff {base : Nat} (hbase : 1 < base) {n R z k : Nat} (hroom : k ≤ R)
    (hk : k ≤ ((Nat.digits base n).take R).length + z) :
    Nat.ofDigits base (((Nat.digits base n).take R ++ List.replicate z 0).take k) = n ↔
      (Nat.digits base n).length ≤ k := by
  have hdigits : ∀ d ∈ Nat.digits base n, d < base := fun d hd => Nat.digits_lt_base hbase hd
  constructor
  · intro hsame
    by_contra hshort
    have hlarge : base ^ k ≤ n := (Nat.lt_digits_length_iff hbase n).mp (by omega)
    have hcut : ∀ d ∈ ((Nat.digits base n).take R ++ List.replicate z 0).take k, d < base := by
      intro d hd
      rcases List.mem_append.mp (List.mem_of_mem_take hd) with hd | hd
      · exact hdigits d (List.mem_of_mem_take hd)
      · rw [(List.mem_replicate.mp hd).2]
        omega
    have hless := Nat.ofDigits_lt_base_pow_length hbase hcut
    rw [List.length_take, List.length_append, List.length_replicate, Nat.min_eq_left hk,
      hsame] at hless
    omega
  · intro hall
    rw [List.take_of_length_le (Nat.le_trans hall hroom), List.take_append,
      List.take_of_length_le hall, List.take_replicate, Nat.ofDigits_append_replicate_zero,
      Nat.ofDigits_digits]

namespace Buffer

/-- The digits of `v`; 0 has one, which the loop would not give it. -/
def number (zero : α) (isZero : ν → Bool) (d : DigitLoop ν α) (turns : Nat) (v : ν) :
    Code (Buffer α) Nat :=
  if isZero v then do
    store 0 zero
    pure 1
  else digits d turns v 0

/-- The digits, the terminator behind them, and the text sent. -/
def print [DecidableEq α] (zero stop : α) (isZero : ν → Bool) (d : DigitLoop ν α) (turns : Nat)
    (v : ν) : Code (Buffer α) Unit := do
  let i ← number zero isZero d turns v
  reverse i (i / 2) 0
  store i stop
  emit stop turns 0

section Print

variable {d : DigitLoop ν α} {isZero : ν → Bool} {base n turns : Nat} {char : Nat → α} {v : ν}

theorem number_holds (zero stop : α) {cells : Nat → α} {ds : List α} (hyields : d.Yields v ds)
    (hturns : ds.length < turns) :
    Code.Returns (number zero isZero d turns v) { cells := cells }
      (fun i t => i = (if isZero v then [zero] else ds).length ∧
        Holds stop (if isZero v then [zero] else ds) t) := by
  have hstart : Holds stop [] { cells := cells } := holds_nil cells
  unfold number
  by_cases hzero : isZero v = true
  · simp only [hzero, if_true]
    refine (hstart.store zero).bind (fun _ t ht => ?_)
    exact Code.returns_pure.mpr ⟨rfl, ht⟩
  · simp only [hzero]
    exact hstart.digits hyields hturns

theorem number_returns (stop : α) {cells : Nat → α} (hzero : isZero v = true ↔ n = 0)
    (hyields : d.Yields v ((Nat.digits base n).map char))
    (hturns : (numeral base char n).length < turns) :
    Code.Returns (number (char 0) isZero d turns v) { cells := cells }
      (fun i t => i = (numeral base char n).reverse.length ∧
        Holds stop (numeral base char n).reverse t) := by
  have hlist : (if isZero v then [char 0] else (Nat.digits base n).map char) =
      (numeral base char n).reverse := by
    unfold numeral
    simp only [hzero]
    split
    · rfl
    · rw [List.reverse_reverse]
  have hlength : ((Nat.digits base n).map char).length ≤ (numeral base char n).length := by
    unfold numeral
    split
    · next hn => simp [hn]
    · rw [List.length_reverse]
  rw [← hlist]
  exact number_holds (char 0) stop hyields (Nat.lt_of_le_of_lt hlength hturns)

/-- The numeral is sent, and the terminator is stored behind it. -/
theorem print_returns [DecidableEq α] {stop : α} (cells : Nat → α)
    (hzero : isZero v = true ↔ n = 0) (hyields : d.Yields v ((Nat.digits base n).map char))
    (hchars : ∀ c ∈ numeral base char n, c ≠ stop)
    (hturns : (numeral base char n).length < turns) :
    Code.Returns (print (char 0) stop isZero d turns v) { cells := cells }
      (fun _ t => Sends (numeral base char n) t) := by
  refine (number_returns stop hzero hyields hturns).bind ?_
  rintro _ b ⟨rfl, hb⟩
  rw [← List.append_nil (numeral base char n).reverse] at hb
  refine hb.reverse.bind (fun _ b' hb' => ?_)
  rw [List.append_nil, List.reverse_reverse] at hb'
  rw [List.length_reverse]
  exact (hb'.store stop).bind (fun _ b'' hb'' => hb''.emit hchars hturns)

end Print

end Buffer

end Asnu.Lib
