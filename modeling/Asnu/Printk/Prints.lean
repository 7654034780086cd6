import Asnu.CString.Compare
import Asnu.Printk.Vsnprintf

/-!
The rules for the programs of `printk.c`, whatever the output function does with its
characters: which text is put, how many arguments are taken, what is read and what comes
back. The output function must leave alone what is read.
-/

namespace Asnu.Printk

open Lib Lib.Code

/-- The output function changes no byte with `P`. -/
def Keeps (out : Out) (P : Ptr → Prop) : Prop :=
  ∀ c i d x, P x → (out c i d).mem x = d.mem x

/-- A text was put, numbered from `idx` on, and `n` arguments taken. -/
structure Went (out : Out) (P : Ptr → Prop) (idx : BitVec 64) (text : List (BitVec 8)) (n : Nat)
    (s t : State) : Prop where
  dev : t.dev = deliver out idx text s.dev
  taken : t.taken = s.taken + n
  reads : ∀ x ∈ t.reads, x ∈ s.reads ∨ P x

/-- With the bytes with `P` as in `m` and `k` arguments taken before, the program puts the
text, takes `n` arguments and returns `r`, and reads no other byte. -/
def Prints {α : Type} (out : Out) (m : Memory) (P : Ptr → Prop) (q : Formatting α)
    (idx : BitVec 64) (k : Nat) (text : List (BitVec 8)) (n : Nat) (r : α) : Prop :=
  ∀ s : State, (∀ x, P x → s.dev.mem x = m x) → s.taken = k →
    Returns q s (fun a t => a = r ∧ Went out P idx text n s t)

/-- A part of the program that is given the number of its first character and returns that
of the next. -/
def Puts (out : Out) (m : Memory) (P : Ptr → Prop) (q : BitVec 64 → Formatting (BitVec 64))
    (k : Nat) (text : List (BitVec 8)) (n : Nat) : Prop :=
  ∀ idx, Prints out m P (q idx) idx k text n (idx + BitVec.ofNat 64 text.length)

def padding (cond : Bool) (n : Nat) : List (BitVec 8) :=
  if cond then List.replicate n (ascii ' ') else []

section Rules

variable {α β : Type} {out : Out} {m : Memory} {P P' : Ptr → Prop} {q : Formatting α}
  {f : α → Formatting β} {idx : BitVec 64} {k n n' : Nat} {text text' : List (BitVec 8)}
  {a : α} {b : β} {s t u : State}

theorem Went.refl (out : Out) (P : Ptr → Prop) (idx : BitVec 64) (s : State) :
    Went out P idx [] 0 s s :=
  ⟨rfl, rfl, fun _ => Or.inl⟩

theorem Went.trans (h : Went out P idx text n s t)
    (h' : Went out P (idx + BitVec.ofNat 64 text.length) text' n' t u) :
    Went out P idx (text ++ text') (n + n') s u where
  dev := by rw [h'.dev, h.dev, deliver_append]
  taken := by rw [h'.taken, h.taken, Nat.add_assoc]
  reads := fun x hx => (h'.reads x hx).elim (h.reads x) Or.inr

/-- What is read is still there. -/
theorem Went.sees (h : Went out P idx text n s t) (hkeeps : Keeps out P)
    (hs : ∀ x, P x → s.dev.mem x = m x) : ∀ x, P x → t.dev.mem x = m x := by
  intro x hx
  have hsame := deliver_keeps out idx (f := fun d : Device => d.mem x)
    (fun c i d => hkeeps c i d x hx) text s.dev
  rw [h.dev]
  exact hsame.trans (hs x hx)

namespace Prints

theorem pure (out : Out) (m : Memory) (P : Ptr → Prop) (idx : BitVec 64) (k : Nat) (a : α) :
    Prints out m P (Pure.pure a) idx k [] 0 a :=
  fun s _ _ => returns_pure.mpr ⟨rfl, .refl out P idx s⟩

theorem bind (hkeeps : Keeps out P) (h : Prints out m P q idx k text n a)
    (hf : Prints out m P (f a) (idx + BitVec.ofNat 64 text.length) (k + n) text' n' b) :
    Prints out m P (q >>= f) idx k (text ++ text') (n + n') b := by
  intro s hs hk
  refine (h s hs hk).bind ?_
  rintro _ t ⟨rfl, ht⟩
  refine (hf t (ht.sees hkeeps hs) (by rw [ht.taken, hk])).mono ?_
  exact fun _ u hu => ⟨hu.1, ht.trans hu.2⟩

/-- The rule for a part that puts nothing. -/
theorem silent (hkeeps : Keeps out P) (h : Prints out m P q idx k [] n a)
    (hf : Prints out m P (f a) idx (k + n) text n' b) :
    Prints out m P (q >>= f) idx k text (n + n') b := by
  have hsame : idx + BitVec.ofNat 64 ([] : List (BitVec 8)).length = idx := BitVec.add_zero idx
  exact h.bind hkeeps (by rwa [hsame])

/-- The rule for a part that puts nothing and takes nothing. -/
theorem quiet (hkeeps : Keeps out P) (h : Prints out m P q idx k [] 0 a)
    (hf : Prints out m P (f a) idx k text n b) : Prints out m P (q >>= f) idx k text n b := by
  have hsilent : Prints out m P (q >>= f) idx k text (0 + n) b := h.silent hkeeps hf
  rwa [Nat.zero_add] at hsilent

/-- The rule for a part that puts text at the end. -/
theorem last (hkeeps : Keeps out P) (h : Prints out m P q idx k text n a)
    (hf : Prints out m P (f a) (idx + BitVec.ofNat 64 text.length) (k + n) [] 0 b) :
    Prints out m P (q >>= f) idx k text n b := by
  have hbind := h.bind hkeeps hf
  rwa [List.append_nil] at hbind

theorem mono (h : Prints out m P' q idx k text n a) (hP : ∀ x, P' x → P x) :
    Prints out m P q idx k text n a := by
  intro s hs hk
  refine (h s (fun x hx => hs x (hP x hx)) hk).mono ?_
  exact fun _ t ht =>
    ⟨ht.1, ht.2.dev, ht.2.taken, fun x hx => (ht.2.reads x hx).imp_right (hP x)⟩

theorem ite_pos {c : Prop} [Decidable c] {q' : Formatting α} (hc : c)
    (h : Prints out m P q idx k text n a) :
    Prints out m P (if c then q else q') idx k text n a := by
  rwa [if_pos hc]

theorem ite_neg {c : Prop} [Decidable c] {q' : Formatting α} (hc : ¬ c)
    (h : Prints out m P q idx k text n a) :
    Prints out m P (if c then q' else q) idx k text n a := by
  rwa [if_neg hc]

/-- The rule for the reading of a character. -/
theorem look {p : Ptr} {f : BitVec 8 → Formatting β} (hp : P p)
    (hf : Prints out m P (f (m p)) idx k text n b) :
    Prints out m P (Printk.look p >>= f) idx k text n b := by
  intro s hs hk
  refine returns_bind.mpr (returns_access.mpr ?_)
  have hcell : s.dev.mem p = m p := hs p hp
  rw [hcell]
  refine (hf { s with reads := p :: s.reads } hs hk).mono ?_
  rintro _ t ⟨rfl, ht⟩
  refine ⟨rfl, ht.dev, ht.taken, fun x hx => ?_⟩
  rcases ht.reads x hx with hold | hin
  · rcases List.mem_cons.mp hold with rfl | hold
    · exact Or.inr hp
    · exact Or.inl hold
  · exact Or.inr hin

/-- The rule for the next argument. -/
theorem vaArg {args : Nat → BitVec 64} {f : BitVec 64 → Formatting β}
    (hf : Prints out m P (f (args k)) idx (k + 1) text n b) :
    Prints out m P (Printk.vaArg args >>= f) idx k text (n + 1) b := by
  rintro s hs rfl
  refine returns_bind.mpr (returns_access.mpr ?_)
  refine (hf { s with taken := s.taken + 1 } hs rfl).mono ?_
  rintro _ t ⟨rfl, ht⟩
  refine ⟨rfl, ht.dev, ?_, ht.reads⟩
  rw [ht.taken]
  change s.taken + 1 + n = s.taken + (n + 1)
  omega

theorem put (c : BitVec 8) : Prints out m P (Printk.put out c idx) idx k [c] 0 (idx + 1#64) :=
  fun _ _ _ => returns_access.mpr ⟨rfl, rfl, rfl, fun _ => Or.inl⟩

end Prints

theorem Puts.nothing (out : Out) (m : Memory) (P : Ptr → Prop) (k : Nat) :
    Puts out m P Pure.pure k [] 0 := by
  intro idx
  have hsame : idx + BitVec.ofNat 64 ([] : List (BitVec 8)).length = idx := BitVec.add_zero idx
  rw [hsame]
  exact .pure out m P idx k idx

theorem offset_append (idx : BitVec 64) (text text' : List (BitVec 8)) :
    idx + BitVec.ofNat 64 (text ++ text').length =
      idx + BitVec.ofNat 64 text.length + BitVec.ofNat 64 text'.length := by
  rw [List.length_append, BitVec.ofNat_add, BitVec.add_assoc]

/-- The rule for a second part that knows where the first began. -/
theorem Puts.bind_from (hkeeps : Keeps out P) {q : BitVec 64 → Formatting (BitVec 64)}
    {q' : BitVec 64 → BitVec 64 → Formatting (BitVec 64)} (h : Puts out m P q k text n)
    (h' : ∀ idx, Prints out m P (q' idx (idx + BitVec.ofNat 64 text.length))
      (idx + BitVec.ofNat 64 text.length) (k + n) text' n'
      (idx + BitVec.ofNat 64 text.length + BitVec.ofNat 64 text'.length)) :
    Puts out m P (fun idx => q idx >>= q' idx) k (text ++ text') (n + n') := by
  intro idx
  rw [offset_append]
  exact (h idx).bind hkeeps (h' idx)

theorem Puts.bind (hkeeps : Keeps out P) {q q' : BitVec 64 → Formatting (BitVec 64)}
    (h : Puts out m P q k text n) (h' : Puts out m P q' (k + n) text' n') :
    Puts out m P (fun idx => q idx >>= q') k (text ++ text') (n + n') :=
  h.bind_from hkeeps (fun _ => h' _)

namespace Prints

theorem putText (hkeeps : Keeps out P) (text : List (BitVec 8)) :
    Puts out m P (Printk.putText out text) k text 0 := by
  intro idx
  induction text generalizing idx with
  | nil =>
      exact Puts.nothing out m P k idx
  | cons c text ih => exact Puts.bind hkeeps (fun _ => put c) ih idx

theorem putMany (hkeeps : Keeps out P) (c : BitVec 8) (n : Nat) :
    Puts out m P (Printk.putMany out c n) k (List.replicate n c) 0 := by
  have hsame : ∀ n idx,
      Printk.putMany out c n idx = Printk.putText out (List.replicate n c) idx := by
    intro n
    induction n with
    | zero => exact fun _ => rfl
    | succ n ih =>
        intro idx
        rw [Printk.putMany, List.replicate_succ, Printk.putText]
        congr 1
        funext idx
        exact ih idx
  intro idx
  rw [hsame]
  exact putText hkeeps (List.replicate n c) idx

theorem pad (hkeeps : Keeps out P) (cond : Bool) (n : Nat) :
    Puts out m P (Printk.pad out cond n) k (padding cond n) 0 := by
  cases cond with
  | false => exact .nothing out m P k
  | true => exact putMany hkeeps _ n

end Prints

/-! ### Numbers -/

/-- What is put of a number from the end of its buffer on. -/
def revText (buf : List (BitVec 8)) (width : BitVec 32) (flags : Flags) : List (BitVec 8) :=
  padding (!flags.left && !flags.zeropad) (width.toNat - buf.length) ++
    (buf.reverse ++ padding flags.left (width.toNat - buf.length))

theorem outRev_puts (hkeeps : Keeps out P) (buf : List (BitVec 8)) (width : BitVec 32)
    (flags : Flags) (hbuf : buf.length ≤ ntoaBufferSize) :
    Puts out m P (fun idx => outRev out idx buf width flags) k (revText buf width flags) 0 := by
  intro idx
  have hrev : Puts out m P (putText out buf.reverse) k buf.reverse 0 := .putText hkeeps _
  unfold outRev revText
  cases hleft : flags.left with
  | false =>
      have hfirst : Puts out m P (pad out (!false && !flags.zeropad) (width.toNat - buf.length)) k
          (padding (!false && !flags.zeropad) (width.toNat - buf.length)) 0 := .pad hkeeps _ _
      have hlast : Puts out m P (fun i => putText out buf.reverse i >>= Pure.pure) k
          (buf.reverse ++ []) 0 := hrev.bind hkeeps (.nothing out m P k)
      exact hfirst.bind hkeeps hlast idx
  | true =>
      -- nothing was put before, so what has been put is the number
      have hcount : ∀ start : BitVec 64,
          (start + BitVec.ofNat 64 buf.reverse.length - start).toNat = buf.length := by
        intro start
        rw [List.length_reverse, offset_toNat _ (by unfold ntoaBufferSize at hbuf; omega)]
      have hlast : Puts out m P (fun idx => putText out buf.reverse idx >>=
          fun i => pad out true (width.toNat - (i - idx).toNat) i) k
          (buf.reverse ++ padding true (width.toNat - buf.length)) (0 + 0) := by
        refine hrev.bind_from hkeeps (fun start => ?_)
        rw [hcount start]
        exact (Prints.pad hkeeps true _ :
          Puts out m P (pad out true (width.toNat - buf.length)) k _ 0) _
      exact (Prints.pure out m P idx k idx).quiet hkeeps (hlast idx)

/-! ### The text of a number -/

/-- The buffer that `_ntoa_format` hands over, and the width. -/
def ntoaFilled (b : NtoaBuf) (negative : Bool) (base prec width : BitVec 32) (flags : Flags) :
    NtoaBuf × BitVec 32 :=
  let (b, width) := ntoaZeros b negative prec width flags
  (ntoaSign (ntoaHash b base prec width flags) negative flags, width)

/-- `#` does not count for 0. -/
def hashless (value : BitVec 64) (flags : Flags) : Flags :=
  if value = 0#64 then { flags with hash := false } else flags

def ntoaText (value : BitVec 64) (negative : Bool) (base : BitVec 64) (prec width : BitVec 32)
    (flags : Flags) : List (BitVec 8) :=
  let flags := hashless value flags
  let filled := ntoaFilled (ntoaStart value base flags) negative (base.setWidth 32) prec width flags
  revText filled.1.chars filled.2 flags

theorem ntoaLong_puts (hkeeps : Keeps out P) (value : BitVec 64) (negative : Bool)
    (base : BitVec 64) (prec width : BitVec 32) (flags : Flags) :
    Puts out m P (fun idx => ntoaLong out idx value negative base prec width flags) k
      (ntoaText value negative base prec width flags) 0 :=
  outRev_puts hkeeps _ _ _ (NtoaBuf.fits _)

end Rules

end Asnu.Printk
