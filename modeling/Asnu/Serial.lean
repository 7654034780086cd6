import Asnu.CString
import Asnu.Lib.Interference
import Asnu.Lib.Numeral

/-!
The log of `serial.c`, one access to its static variables at a time.
`serial_i2s` keeps its text, and the number it is the text of, from call to
call, and its callers read the text where it stands. The printk line of
`serial_write_char` is left out.
-/

namespace Asnu

open Lib

/-- The static variables of `serial_i2s`. -/
structure I2s where
  temp : Nat → BitVec 8
  lastValue : BitVec 32
  initialized : Bool

def I2s.set (c : I2s) (i : Nat) (b : BitVec 8) : I2s :=
  { c with temp := fun k => if k = i then b else c.temp k }

structure Serial where
  i2s : I2s
  /-- `serial_log_id`. -/
  logId : BitVec 32
  /-- What has been sent to the port. -/
  out : List (BitVec 8)

/-- What a call counts on when it makes an access. While it fills `temp` with
`v`, and while it reads the text of `v` from place `i` on, this must not be
taken from it. -/
inductive Relies where
  | nothing
  | filling (v : BitVec 32)
  | reading (v : BitVec 32) (i : Nat)
  deriving DecidableEq

abbrev SerialCode := Prog Serial Relies

def serialWriteChar (relies : Relies) (c : BitVec 8) : SerialCode Unit :=
  Prog.write relies (fun s => { s with out := s.out ++ [c] })

namespace I2s

def load (value : BitVec 32) (i : Nat) : SerialCode (BitVec 8) :=
  Prog.read (.filling value) (fun s => s.i2s.temp i)

def store (value : BitVec 32) (i : Nat) (b : BitVec 8) : SerialCode Unit :=
  Prog.write (.filling value) (fun s => { s with i2s := s.i2s.set i b })

/-- The digits of `x`, the last one first; an `int` has at most ten. -/
def digits (value : BitVec 32) : Nat → BitVec 32 → Nat → SerialCode Nat
  | 0, _, i => pure i
  | n + 1, x, i =>
      if (0#32).slt x then do
        store value i (ascii '0' + (x.srem 10#32).setWidth 8)
        digits value n (x.sdiv 10#32) (i + 1)
      else pure i

def sign (value : BitVec 32) (i : Nat) : SerialCode Nat :=
  if value.slt 0#32 then do
    store value i (ascii '-')
    pure (i + 1)
  else pure i

/-- `n` more zeros. -/
def zeros (value : BitVec 32) : Nat → Nat → SerialCode Nat
  | 0, i => pure i
  | n + 1, i => do
      store value i (ascii '0')
      zeros value n (i + 1)

def swap (value : BitVec 32) (j k : Nat) : SerialCode Unit := do
  let t ← load value j
  let u ← load value k
  store value j u
  store value k t

/-- `n` more swaps in the first `i` places, from `j` on. -/
def reverse (value : BitVec 32) (i : Nat) : Nat → Nat → SerialCode Unit
  | 0, _ => pure ()
  | n + 1, j => do
      swap value j (i - j - 1)
      reverse value i n (j + 1)

/-- `serial_i2s` from the test for 0 on. -/
def fill (value : BitVec 32) : SerialCode Unit :=
  if value = 0#32 then do
    store value 0 (ascii '0')
    store value 1 (ascii '0')
    store value 2 (ascii '0')
    store value 3 (ascii '0')
    store value 4 0#8
  else do
    let i ← digits value 10 (if value.slt 0#32 then -value else value) 0
    let i ← sign value i
    let i ← zeros value (4 - i) i
    reverse value i (i / 2) 0
    store value i 0#8

/-- The test for a value that is in `temp` already. -/
def cached (value : BitVec 32) : SerialCode Bool := do
  let initialized ← Prog.read .nothing (fun s => s.i2s.initialized)
  if initialized then Prog.read .nothing (fun s => decide (value = s.i2s.lastValue))
  else pure false

end I2s

/-- The result is always `temp`. -/
def serialI2s (value : BitVec 32) : SerialCode Unit := do
  let hit ← I2s.cached value
  if hit then pure ()
  else do
    Prog.write .nothing (fun s => { s with i2s := { s.i2s with lastValue := value } })
    Prog.write (.filling value) (fun s => { s with i2s := { s.i2s with initialized := true } })
    I2s.fill value

/-- The loop over the text of a number, from place `i` on; `temp` has 16 bytes. -/
def walk (value : BitVec 32) : Nat → Nat → SerialCode Unit
  | 0, _ => pure ()
  | n + 1, i => do
      let test ← Prog.read (.reading value i) (fun s => s.i2s.temp i)
      if test = 0#8 then pure ()
      else do
        let c ← Prog.read (.reading value i) (fun s => s.i2s.temp i)
        serialWriteChar (.reading value (i + 1)) c
        walk value n (i + 1)

def printNumber (value : BitVec 32) : SerialCode Unit := do
  serialI2s value
  walk value 16 0

/-- What a format asks for. The conversions with a buffer of their own give
characters, `%d` and `%i` give numbers. -/
inductive Piece where
  | char (c : BitVec 8)
  | number (v : BitVec 32)

def Piece.put : Piece → SerialCode Unit
  | .char c => serialWriteChar .nothing c
  | .number v => printNumber v

def putPieces : List Piece → SerialCode Unit
  | [] => pure ()
  | p :: ps => do
      p.put
      putPieces ps

/-- A call of `serial_fwrite`, with the id it takes as the result. -/
def serialFwrite (body : List Piece) : SerialCode (BitVec 32) := do
  serialWriteChar .nothing (ascii '[')
  let id ← Prog.read .nothing (fun s => s.logId)
  Prog.write .nothing (fun s => { s with logId := id + 1#32 })
  printNumber id
  serialWriteChar .nothing (ascii ']')
  serialWriteChar .nothing (ascii ' ')
  putPieces body
  serialWriteChar .nothing (ascii '\n')
  pure id

/-! ### The text of a number -/

/-- The `int` that is left to be written in digits. The least one is its own
negation, and none are written for it. -/
def magnitude (v : BitVec 32) : Nat := (if v.slt 0#32 then -v else v).toInt.toNat

def signText (v : BitVec 32) : List (BitVec 8) :=
  if v.slt 0#32 then [ascii '-'] else []

def digitText (n : Nat) : List (BitVec 8) :=
  (Nat.digits 10 n).map (fun d => ascii '0' + BitVec.ofNat 8 d)

/-- The zeros stand before the sign. -/
def render (v : BitVec 32) : List (BitVec 8) :=
  (signText v ++ (digitText (magnitude v)).reverse).leftpad 4 (ascii '0')

example : render 7#32 = [ascii '0', ascii '0', ascii '0', ascii '7'] := by decide

example : render (-5#32) = [ascii '0', ascii '0', ascii '-', ascii '5'] := by decide

def Piece.text : Piece → List (BitVec 8)
  | .char c => [c]
  | .number v => render v

def callText (id : BitVec 32) (body : List Piece) : List (BitVec 8) :=
  [ascii '['] ++ render id ++ [ascii ']', ascii ' '] ++ body.flatMap Piece.text ++ [ascii '\n']

theorem digitText_of_pos {n : Nat} (hn : 0 < n) :
    digitText n = (ascii '0' + BitVec.ofNat 8 (n % 10)) :: digitText (n / 10) := by
  have hten : 1 < 10 := by decide
  rw [digitText, Nat.digits_def' hten hn, List.map_cons]
  rfl

theorem toInt_ten {w : Nat} (hw : 5 ≤ w) : (10#w).toInt = 10 := by
  have hpow : 2 ^ 5 ≤ 2 ^ w := Nat.pow_le_pow_right (by decide) hw
  have hnat : (10#w).toNat = 10 := by
    rw [BitVec.toNat_ofNat]
    exact Nat.mod_eq_of_lt (by omega)
  rw [BitVec.toInt_eq_toNat_of_lt (by omega), hnat]
  rfl

theorem toNat_sdiv_ten {w : Nat} (hw : 5 ≤ w) {x : BitVec w} (hx : 0 < x.toInt) :
    (x.sdiv 10#w).toInt.toNat = x.toInt.toNat / 10 := by
  have hten := toInt_ten hw
  have hne : (10#w) ≠ -1#w := by
    intro heq
    have hneg := congrArg BitVec.toInt heq
    rw [hten, BitVec.toInt_neg, BitVec.toInt_one (by omega)] at hneg
    have hpow : 2 ^ 5 ≤ 2 ^ w := Nat.pow_le_pow_right (by decide) hw
    rw [Int.bmod_eq_of_le (by omega) (by omega)] at hneg
    omega
  rw [BitVec.toInt_sdiv_of_ne_or_ne _ _ (.inr hne), hten,
    Int.tdiv_eq_ediv_of_nonneg hx.le]
  omega

theorem srem_ten {w : Nat} (hw : 5 ≤ w) {x : BitVec w} (hx : 0 < x.toInt) :
    (x.srem 10#w).setWidth 8 = BitVec.ofNat 8 (x.toInt.toNat % 10) := by
  have hrem : (x.srem 10#w).toInt = x.toInt % 10 := by
    rw [BitVec.toInt_srem, toInt_ten hw, Int.tmod_eq_emod_of_nonneg hx.le]
  have hnat : (x.srem 10#w).toNat = x.toInt.toNat % 10 := by
    have hlt := (x.srem 10#w).isLt
    rw [BitVec.toInt_eq_toNat_cond] at hrem
    split at hrem <;> omega
  apply BitVec.eq_of_toNat_eq
  rw [BitVec.toNat_setWidth, hnat, BitVec.toNat_ofNat]

/-- What the loops have in `temp` before it is turned round. -/
theorem render_eq_reverse (v : BitVec 32) :
    render v = (digitText (magnitude v) ++ signText v ++
      List.replicate (4 - (digitText (magnitude v) ++ signText v).length) (ascii '0')).reverse := by
  have hsign : (signText v).reverse = signText v := by
    unfold signText
    split <;> rfl
  simp [render, List.leftpad, hsign, Nat.add_comm]

theorem magnitude_lt (v : BitVec 32) : magnitude v < 10 ^ 10 := by
  have hlt := BitVec.toInt_lt (x := if v.slt 0#32 then -v else v)
  unfold magnitude
  omega

theorem render_length_le (v : BitVec 32) : (render v).length ≤ 11 := by
  have hdigits : (digitText (magnitude v)).length ≤ 10 := by
    rw [digitText, List.length_map]
    exact (Nat.digits_length_le_iff (by decide) _).mpr (magnitude_lt v)
  have hsign : (signText v).length ≤ 1 := by
    unfold signText
    split <;> simp
  simp only [render, List.leftpad, List.length_append, List.length_replicate,
    List.length_reverse]
  omega

theorem render_ne_zero {v : BitVec 32} {c : BitVec 8} (hc : c ∈ render v) : c ≠ 0#8 := by
  have hdigit : ∀ d < 10, ascii '0' + BitVec.ofNat 8 d ≠ 0#8 := by decide
  rw [render_eq_reverse] at hc
  simp only [digitText, signText, List.mem_reverse, List.mem_append, List.mem_map,
    List.mem_replicate] at hc
  obtain (⟨d, hd, rfl⟩ | hc) | ⟨-, rfl⟩ := hc
  · exact hdigit d (Nat.digits_lt_base (by decide) hd)
  · split at hc
    · obtain rfl := List.mem_singleton.mp hc
      decide
    · cases hc
  · decide

/-! ### What the variables say -/

namespace I2s

def Keyed (v : BitVec 32) (c : I2s) : Prop :=
  c.initialized = true ∧ c.lastValue = v

/-- From place `i` on, `temp` is the text of `v` and its terminator. -/
def Reads (v : BitVec 32) (i : Nat) (c : I2s) : Prop :=
  ∀ k, i ≤ k → k ≤ (render v).length → c.temp k = (render v).getD k 0#8

/-- The text kept is that of the number kept. -/
def Ok (c : I2s) : Prop := c.initialized = true → c.Reads c.lastValue 0

def Begins (l : List (BitVec 8)) (c : I2s) : Prop :=
  ∀ k < l.length, c.temp k = l.getD k 0#8

def Filling (v : BitVec 32) (l : List (BitVec 8)) (c : I2s) : Prop :=
  c.Keyed v ∧ c.Begins l

/-- `l` is turned round in the first `j` places and the last `j`. -/
def Turned (l : List (BitVec 8)) (j : Nat) (c : I2s) : Prop :=
  ∀ k < l.length, c.temp k =
    if k < j ∨ l.length - j ≤ k then l.getD (l.length - 1 - k) 0#8 else l.getD k 0#8

theorem Reads.mono {v : BitVec 32} {i i' : Nat} {c : I2s} (h : c.Reads v i) (hi : i ≤ i') :
    c.Reads v i' :=
  fun k hk hlen => h k (hi.trans hk) hlen

theorem Begins.nil (c : I2s) : c.Begins [] := Lib.Begins.nil 0#8 c.temp

theorem Begins.set {l : List (BitVec 8)} {c : I2s} (h : c.Begins l) (b : BitVec 8) :
    (c.set l.length b).Begins (l ++ [b]) :=
  Lib.Begins.append h b

/-- The terminator completes the text. -/
theorem Begins.terminate {v : BitVec 32} {c : I2s} (h : c.Begins (render v)) :
    (c.set (render v).length 0#8).Reads v 0 := by
  intro k _ hk
  simp only [I2s.set]
  by_cases hlast : k = (render v).length
  · simp [hlast]
  · rw [if_neg hlast, h k (by omega)]

theorem Begins.turned {l : List (BitVec 8)} {c : I2s} (h : c.Begins l) : c.Turned l 0 :=
  Lib.Begins.turned h

theorem Turned.begins_reverse {l : List (BitVec 8)} {c : I2s}
    (h : c.Turned l (l.length / 2)) : c.Begins l.reverse :=
  Lib.Turned.begins_reverse h

theorem Turned.swap {l : List (BitVec 8)} {j : Nat} {c : I2s} (h : c.Turned l j)
    (hj : 2 * (j + 1) ≤ l.length) :
    ((c.set j (c.temp (l.length - j - 1))).set (l.length - j - 1) (c.temp j)).Turned l
      (j + 1) :=
  Lib.Turned.swap h hj

end I2s

/-! ### Calls among interrupts -/

/-- An environment that, where it is allowed, leaves what the calls count on. -/
structure Harmless {ε : Type} (env : ε → Serial → Serial) (ok : Relies → ε → Serial → Prop) :
    Prop where
  out : ∀ e s, (env e s).out = s.out
  cache : ∀ e s, s.i2s.Ok → (env e s).i2s.Ok
  initialized : ∀ e s, s.i2s.initialized = true → (env e s).i2s.initialized = true
  key : ∀ v e s, ok (.filling v) e s → s.i2s.lastValue = v → (env e s).i2s.lastValue = v
  filling : ∀ v e s, ok (.filling v) e s → s.i2s.Keyed v → (env e s).i2s = s.i2s
  reading : ∀ v i e s, ok (.reading v i) e s → i ≤ (render v).length → s.i2s.Ok →
    s.i2s.Reads v i → (env e s).i2s.Reads v i

theorem Harmless.idle : Harmless Prog.idle (fun _ _ _ => True) where
  out := fun _ _ => rfl
  cache := fun _ _ h => h
  initialized := fun _ _ h => h
  key := fun _ _ _ _ h => h
  filling := fun _ _ _ _ _ => rfl
  reading := fun _ _ _ _ _ _ _ h => h

/-- `C` holds of the variables of `serial_i2s`, and `o` has been sent. -/
def Sent (C : I2s → Prop) (o : List (BitVec 8)) (s : Serial) : Prop :=
  C s.i2s ∧ s.out = o

/-- Filling has come to `l`, whose length is the result. -/
def Filled (v : BitVec 32) (l o : List (BitVec 8)) (i : Nat) (s : Serial) : Prop :=
  i = l.length ∧ Sent (I2s.Filling v l) o s

namespace Harmless

variable {ε : Type} {env : ε → Serial → Serial} {ok : Relies → ε → Serial → Prop}
  (h : Harmless env ok) {v : BitVec 32} {o : List (BitVec 8)}
include h

theorem load {i : Nat} {C : I2s → Prop} {D : BitVec 8 → I2s → Prop}
    (hC : ∀ c, C c → c.Keyed v ∧ D (c.temp i) c) :
    Prog.Triple env ok (Sent C o) (I2s.load v i) (fun b => Sent (D b) o) := by
  apply Prog.Triple.read
  rintro e s ⟨hs, hout⟩ hok
  obtain ⟨hkey, hD⟩ := hC _ hs
  have hsame := h.filling v e s hok hkey
  refine ⟨?_, (h.out e s).trans hout⟩
  rw [hsame]
  exact hD

theorem store {i : Nat} {b : BitVec 8} {C D : I2s → Prop}
    (hC : ∀ c, C c → c.Keyed v ∧ D (c.set i b)) :
    Prog.Triple env ok (Sent C o) (I2s.store v i b) (fun _ => Sent D o) := by
  apply Prog.Triple.write
  rintro e s ⟨hs, hout⟩ hok
  obtain ⟨hkey, hD⟩ := hC _ hs
  have hsame := h.filling v e s hok hkey
  refine ⟨?_, (h.out e s).trans hout⟩
  simp only [hsame]
  exact hD

theorem append (l : List (BitVec 8)) (b : BitVec 8) :
    Prog.Triple env ok (Sent (I2s.Filling v l) o) (I2s.store v l.length b)
      (fun _ => Sent (I2s.Filling v (l ++ [b])) o) :=
  h.store (fun _ hc => ⟨hc.1, hc.1, hc.2.set b⟩)

theorem digits (n : Nat) {x : BitVec 32} (hx : x.toInt.toNat < 10 ^ n) (l : List (BitVec 8)) :
    Prog.Triple env ok (Sent (I2s.Filling v l) o) (I2s.digits v n x l.length)
      (Filled v (l ++ digitText x.toInt.toNat) o) := by
  induction n generalizing x l with
  | zero =>
      have hzero : x.toInt.toNat = 0 := by omega
      apply Prog.Triple.ret
      simp [Filled, hzero, digitText]
  | succ n ih =>
      rw [I2s.digits]
      split
      · next hpos =>
          have hpos : 0 < x.toInt := by simpa [BitVec.slt] using hpos
          have hdiv := toNat_sdiv_ten (by decide) hpos
          have hnext := ih (x := x.sdiv 10#32) (by omega)
            (l ++ [ascii '0' + (x.srem 10#32).setWidth 8])
          rw [digitText_of_pos (by omega : 0 < x.toInt.toNat), ← srem_ten (by decide) hpos, ← hdiv]
          simp only [List.length_append, List.length_singleton, List.append_assoc,
            List.singleton_append] at hnext
          exact (h.append l _).bind (fun _ => hnext)
      · next hneg =>
          have hzero : x.toInt.toNat = 0 := by
            simp [BitVec.slt] at hneg
            omega
          apply Prog.Triple.ret
          simp [Filled, hzero, digitText]

theorem sign (l : List (BitVec 8)) :
    Prog.Triple env ok (Sent (I2s.Filling v l) o) (I2s.sign v l.length)
      (Filled v (l ++ signText v) o) := by
  unfold I2s.sign signText
  split
  · refine (h.append l _).bind (fun _ => ?_)
    exact Prog.Triple.ret (fun s hs => ⟨by simp, hs⟩)
  · exact Prog.Triple.ret (fun s hs => ⟨by simp, by simpa using hs⟩)

theorem zeros (n : Nat) (l : List (BitVec 8)) :
    Prog.Triple env ok (Sent (I2s.Filling v l) o) (I2s.zeros v n l.length)
      (Filled v (l ++ List.replicate n (ascii '0')) o) := by
  induction n generalizing l with
  | zero => exact Prog.Triple.ret (fun s hs => ⟨by simp, by simpa using hs⟩)
  | succ n ih =>
      have hnext := ih (l ++ [ascii '0'])
      rw [List.append_assoc, List.singleton_append, ← List.replicate_succ] at hnext
      rw [List.length_append, List.length_singleton] at hnext
      exact (h.append l _).bind (fun _ => hnext)

theorem swap {j k : Nat} {C D : I2s → Prop}
    (hC : ∀ c, C c → c.Keyed v ∧ D ((c.set j (c.temp k)).set k (c.temp j))) :
    Prog.Triple env ok (Sent C o) (I2s.swap v j k) (fun _ => Sent D o) := by
  refine (h.load (D := fun t c => c.Keyed v ∧ D ((c.set j (c.temp k)).set k t)) ?_).bind
    (fun t => (h.load (D := fun u c => c.Keyed v ∧ D ((c.set j u).set k t)) ?_).bind
      (fun u => (h.store (D := fun c => c.Keyed v ∧ D (c.set k t)) ?_).bind
        (fun _ => h.store (fun _ hc => hc))))
  · exact fun c hc => ⟨(hC c hc).1, hC c hc⟩
  · exact fun c hc => ⟨hc.1, hc⟩
  · exact fun c hc => ⟨hc.1, hc⟩

theorem reverse {l : List (BitVec 8)} (n : Nat) {j : Nat} (hj : j + n = l.length / 2) :
    Prog.Triple env ok (Sent (fun c => c.Keyed v ∧ c.Turned l j) o)
      (I2s.reverse v l.length n j) (fun _ => Sent (I2s.Filling v l.reverse) o) := by
  induction n generalizing j with
  | zero =>
      obtain rfl : j = l.length / 2 := hj
      exact Prog.Triple.ret (fun s hs => ⟨⟨hs.1.1, hs.1.2.begins_reverse⟩, hs.2⟩)
  | succ n ih =>
      have hswap : Prog.Triple env ok (Sent (fun c => c.Keyed v ∧ c.Turned l j) o)
          (I2s.swap v j (l.length - j - 1))
          (fun _ => Sent (fun c => c.Keyed v ∧ c.Turned l (j + 1)) o) :=
        h.swap (fun c hc => ⟨hc.1, hc.1, hc.2.swap (by omega)⟩)
      exact hswap.bind (fun _ => ih (by omega))

theorem reverse_all (l : List (BitVec 8)) :
    Prog.Triple env ok (Sent (I2s.Filling v l) o) (I2s.reverse v l.length (l.length / 2) 0)
      (fun _ => Sent (I2s.Filling v l.reverse) o) :=
  (h.reverse (l.length / 2) (Nat.zero_add _)).pre
    (fun _ hs => ⟨⟨hs.1.1, hs.1.2.turned⟩, hs.2⟩)

theorem terminate {l : List (BitVec 8)} (hl : l = render v) :
    Prog.Triple env ok (Sent (I2s.Filling v l) o) (I2s.store v l.length 0#8)
      (fun _ => Sent (fun c => c.Keyed v ∧ c.Reads v 0) o) := by
  subst hl
  exact h.store (fun _ hc => ⟨hc.1, hc.1, hc.2.terminate⟩)

theorem fill (v : BitVec 32) :
    Prog.Triple env ok (Sent (I2s.Keyed v) o) (I2s.fill v)
      (fun _ => Sent (fun c => c.Keyed v ∧ c.Reads v 0) o) := by
  have hstart : ∀ s, Sent (I2s.Keyed v) o s → Sent (I2s.Filling v []) o s :=
    fun s hs => ⟨⟨hs.1, I2s.Begins.nil _⟩, hs.2⟩
  rw [I2s.fill]
  split
  · next hzero =>
      have hrender : List.replicate 4 (ascii '0') = render v := by
        rw [hzero]
        decide
      refine Prog.Triple.pre ?_ hstart
      exact (h.append [] _).bind (fun _ => (h.append [ascii '0'] _).bind
        (fun _ => (h.append (List.replicate 2 (ascii '0')) _).bind
          (fun _ => (h.append (List.replicate 3 (ascii '0')) _).bind
            (fun _ => h.terminate hrender))))
  · refine Prog.Triple.pre ?_ hstart
    refine (h.digits 10 (magnitude_lt v) []).bind (fun _ => .of_pre ?_)
    rintro rfl
    refine (h.sign (digitText (magnitude v))).bind (fun _ => .of_pre ?_)
    rintro rfl
    refine (h.zeros _ (digitText (magnitude v) ++ signText v)).bind (fun _ => .of_pre ?_)
    rintro rfl
    refine (h.reverse_all _).bind (fun _ => ?_)
    have hend := h.terminate (o := o) (render_eq_reverse v).symm
    rwa [List.length_reverse] at hend

/-- With the test passed `temp` has the text. -/
theorem cached (v : BitVec 32) :
    Prog.Triple env ok (Sent I2s.Ok o) (I2s.cached v)
      (fun hit => Sent (fun c => c.Ok ∧ (hit = true → c.Keyed v)) o) := by
  refine Prog.Triple.bind (Q := fun initialized => Sent (fun c => c.Ok ∧
    (initialized = true → c.initialized = true)) o) ?_ (fun initialized => ?_)
  · apply Prog.Triple.read
    rintro e s ⟨hs, hout⟩ -
    exact ⟨⟨h.cache e s hs, fun hinit => hinit⟩, (h.out e s).trans hout⟩
  · cases initialized with
    | false => exact Prog.Triple.ret (fun s hs => ⟨⟨hs.1.1, by simp⟩, hs.2⟩)
    | true =>
        apply Prog.Triple.read
        rintro e s ⟨⟨hs, hinit⟩, hout⟩ -
        refine ⟨⟨h.cache e s hs, fun hhit => ?_⟩, (h.out e s).trans hout⟩
        exact ⟨h.initialized e s (hinit rfl), (of_decide_eq_true hhit).symm⟩

theorem serialI2s (v : BitVec 32) :
    Prog.Triple env ok (Sent I2s.Ok o) (serialI2s v)
      (fun _ => Sent (fun c => c.Ok ∧ c.Reads v 0) o) := by
  refine (h.cached v).bind (fun hit => ?_)
  cases hit with
  | true =>
      apply Prog.Triple.ret
      rintro s ⟨⟨hs, hkey⟩, hout⟩
      obtain ⟨hinit, rfl⟩ := hkey rfl
      exact ⟨⟨hs, hs hinit⟩, hout⟩
  | false =>
      refine Prog.Triple.bind (Q := fun _ => Sent (fun c => c.lastValue = v) o) ?_
        (fun _ => Prog.Triple.bind (Q := fun _ => Sent (I2s.Keyed v) o) ?_
          (fun _ => (h.fill v).post ?_))
      · apply Prog.Triple.write
        exact fun e s hs _ => ⟨rfl, (h.out e s).trans hs.2⟩
      · apply Prog.Triple.write
        exact fun e s hs hok => ⟨⟨rfl, h.key v e s hok hs.1⟩, (h.out e s).trans hs.2⟩
      · rintro _ s ⟨⟨hkey, hreads⟩, hout⟩
        refine ⟨⟨fun _ => ?_, hreads⟩, hout⟩
        rw [hkey.2]
        exact hreads

theorem readNext {i : Nat} (hi : i ≤ (render v).length) :
    Prog.Triple env ok (Sent (fun c => c.Ok ∧ c.Reads v i) o)
      (Prog.read (.reading v i) (fun s => s.i2s.temp i))
      (fun b s => b = (render v).getD i 0#8 ∧ Sent (fun c => c.Ok ∧ c.Reads v i) o s) := by
  apply Prog.Triple.read
  rintro e s ⟨⟨hs, hreads⟩, hout⟩ hok
  have hreads' := h.reading v i e s hok hi hs hreads
  exact ⟨hreads' i le_rfl hi, ⟨h.cache e s hs, hreads'⟩, (h.out e s).trans hout⟩

theorem sendNext {i : Nat} (hi : i < (render v).length) (b : BitVec 8) :
    Prog.Triple env ok (Sent (fun c => c.Ok ∧ c.Reads v i) o)
      (serialWriteChar (.reading v (i + 1)) b)
      (fun _ => Sent (fun c => c.Ok ∧ c.Reads v (i + 1)) (o ++ [b])) := by
  apply Prog.Triple.write
  rintro e s ⟨⟨hs, hreads⟩, hout⟩ hok
  have hahead := h.reading v (i + 1) e s hok hi hs (hreads.mono (Nat.le_succ i))
  exact ⟨⟨h.cache e s hs, hahead⟩, by simp only [h.out e s, hout]⟩

/-- Reading on gives the rest of the text. -/
theorem walk (n : Nat) {i : Nat} (hi : i ≤ (render v).length) (hn : (render v).length < i + n) :
    Prog.Triple env ok
      (Sent (fun c => c.Ok ∧ c.Reads v i) (o ++ (render v).take i)) (walk v n i)
      (fun _ => Sent I2s.Ok (o ++ render v)) := by
  induction n generalizing i with
  | zero => omega
  | succ n ih =>
      refine (h.readNext hi).bind (fun _ => .of_pre ?_)
      rintro rfl
      by_cases hend : i = (render v).length
      · rw [if_pos (by simp [hend])]
        apply Prog.Triple.ret
        rintro s ⟨⟨hs, -⟩, hout⟩
        rw [hend, List.take_length] at hout
        exact ⟨hs, hout⟩
      · have hlt : i < (render v).length := by omega
        have hchar : (render v).getD i 0#8 = (render v)[i] := List.getD_eq_getElem _ _ hlt
        rw [if_neg (by rw [hchar]; exact render_ne_zero (List.getElem_mem hlt))]
        refine (h.readNext hi).bind (fun _ => .of_pre ?_)
        rintro rfl
        refine (h.sendNext hlt _).bind (fun _ => ?_)
        rw [hchar, List.append_assoc, List.take_concat_get' _ _ hlt]
        exact ih hlt (by omega)

theorem printNumber (v : BitVec 32) :
    Prog.Triple env ok (Sent I2s.Ok o) (printNumber v)
      (fun _ => Sent I2s.Ok (o ++ render v)) := by
  have hlen := render_length_le v
  refine (h.serialI2s v).bind (fun _ => ?_)
  exact (h.walk 16 (Nat.zero_le _) (by omega)).pre
    (fun s hs => ⟨hs.1, by simpa using hs.2⟩)

theorem writeChar (c : BitVec 8) :
    Prog.Triple env ok (Sent I2s.Ok o) (serialWriteChar .nothing c)
      (fun _ => Sent I2s.Ok (o ++ [c])) := by
  apply Prog.Triple.write
  rintro e s ⟨hs, hout⟩ -
  exact ⟨h.cache e s hs, by simp only [h.out e s, hout]⟩

theorem put (p : Piece) :
    Prog.Triple env ok (Sent I2s.Ok o) p.put (fun _ => Sent I2s.Ok (o ++ p.text)) := by
  cases p with
  | char c => exact h.writeChar c
  | number v => exact h.printNumber v

theorem putPieces (ps : List Piece) :
    Prog.Triple env ok (Sent I2s.Ok o) (putPieces ps)
      (fun _ => Sent I2s.Ok (o ++ ps.flatMap Piece.text)) := by
  induction ps generalizing o with
  | nil => exact Prog.Triple.ret (fun s hs => by simpa using hs)
  | cons p ps ih =>
      refine (h.put p).bind (fun _ => ?_)
      rw [List.flatMap_cons, ← List.append_assoc]
      exact ih

theorem serialFwrite (body : List Piece) :
    Prog.Triple env ok (Sent I2s.Ok o) (serialFwrite body)
      (fun id => Sent I2s.Ok (o ++ callText id body)) := by
  refine (h.writeChar _).bind (fun _ => ?_)
  refine Prog.Triple.bind (Q := fun _ => Sent I2s.Ok (o ++ [ascii '['])) ?_ (fun id => ?_)
  · apply Prog.Triple.read
    exact fun e s hs _ => ⟨h.cache e s hs.1, (h.out e s).trans hs.2⟩
  refine Prog.Triple.bind (Q := fun _ => Sent I2s.Ok (o ++ [ascii '['])) ?_ (fun _ => ?_)
  · apply Prog.Triple.write
    exact fun e s hs _ => ⟨h.cache e s hs.1, (h.out e s).trans hs.2⟩
  refine (h.printNumber id).bind (fun _ => (h.writeChar _).bind (fun _ =>
    (h.writeChar _).bind (fun _ => (h.putPieces body).bind (fun _ =>
      (h.writeChar _).bind (fun _ => Prog.Triple.ret (fun s hs => ?_))))))
  simpa [callText] using hs

end Harmless

end Asnu
