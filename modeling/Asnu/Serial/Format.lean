import Asnu.CString
import Asnu.Serial.Numbers

/-!
`serial_fwrite` from its format on: how the format and the argument list are gone
through, and the pieces that are sent on the way.
-/

namespace Asnu

open Lib

/-- What a call finds: the bytes from `fmt` on, the argument list, which has eight bytes
for each argument, the memory its strings are in, and what is in a buffer before. -/
structure FormatCall where
  fmt : Nat → BitVec 8
  args : Nat → BitVec 64
  mem : Memory
  stale : Nat → BitVec 8

structure Scan where
  /-- `p - fmt`. -/
  p : Nat := 0
  /-- The places of the format that have been read, newest first. -/
  reads : List Nat := []
  /-- How many arguments have been taken. -/
  taken : Nat := 0
  /-- What has been sent. -/
  body : List Piece := []

abbrev Scanning := Code Scan

namespace FormatCall

variable (f : FormatCall)

/-- `*p`. -/
def read : Scanning (BitVec 8) :=
  Code.access (fun s => (f.fmt s.p, { s with reads := s.p :: s.reads }))

def vaArg : Scanning (BitVec 64) :=
  Code.access (fun s => (f.args s.taken, { s with taken := s.taken + 1 }))

/-- The characters that a conversion with a buffer of its own sends. -/
def putText (print : Printing Unit) : Scanning Unit := fun s =>
  match print { cells := f.stale } with
  | some (_, b) => some ((), { s with body := s.body ++ b.sent.map Piece.char })
  | none => none

end FormatCall

/-- `p++`. -/
def nextChar : Scanning Unit := Code.access (fun s => ((), { s with p := s.p + 1 }))

def put (piece : Piece) : Scanning Unit :=
  Code.access (fun s => ((), { s with body := s.body ++ [piece] }))

namespace FormatCall

variable (f : FormatCall)

/-- The loop of `%s`. -/
def putString : Nat → Ptr → Scanning Unit
  | 0, _ => Code.giveUp
  | turns + 1, v =>
      if f.mem v = 0#8 then pure ()
      else do
        put (.char (f.mem v))
        putString turns (v + 1#64)

/-- The case of `l`. -/
def longConversion (turns : Nat) : Scanning Unit := do
  nextChar
  let c ← f.read
  if c = ascii 'l' then do
    nextChar
    let c ← f.read
    if c = ascii 'u' then do
      let v ← f.vaArg
      f.putText (writeLlu turns v)
    else if c = ascii 'd' then do
      let v ← f.vaArg
      f.putText (writeLld turns v)
    else pure ()
  else pure ()

/-- The `switch` on the character after `%`. -/
def conversion (turns : Nat) (c : BitVec 8) : Scanning Unit :=
  if c = ascii 'd' ∨ c = ascii 'i' then do
    let v ← f.vaArg
    put (.number (v.setWidth 32))
  else if c = ascii 'u' then do
    let v ← f.vaArg
    f.putText (serialWriteUint turns (v.setWidth 32))
  else if c = ascii 'o' then do
    let v ← f.vaArg
    f.putText (serialWriteOctal turns (v.setWidth 32))
  else if c = ascii 'x' then do
    let v ← f.vaArg
    f.putText (serialWriteHex turns ((v.setWidth 32).setWidth 64) false)
  else if c = ascii 'X' then do
    let v ← f.vaArg
    f.putText (serialWriteHex turns ((v.setWidth 32).setWidth 64) true)
  else if c = ascii 'c' then do
    let v ← f.vaArg
    put (.char (v.setWidth 8))
  else if c = ascii 's' then do
    let v ← f.vaArg
    f.putString turns v
  else if c = ascii 'p' then do
    let v ← f.vaArg
    f.putText (serialWriteHex turns v false)
  else if c = ascii 'l' then f.longConversion turns
  else if c = ascii '%' then put (.char (ascii '%'))
  else do
    put (.char (ascii '%'))
    let c ← f.read
    put (.char c)

/-- The body of the loop over the format. -/
def formatChar (turns : Nat) : Scanning Unit := do
  let c ← f.read
  if c = ascii '%' then do
    nextChar
    let c ← f.read
    f.conversion turns c
  else do
    let c ← f.read
    put (.char c)

/-- The loop over the format; `turns` is also for the loops inside. -/
def formatLoop (turns : Nat) : Nat → Scanning Unit
  | 0 => Code.giveUp
  | n + 1 => do
      let c ← f.read
      if c = 0#8 then pure ()
      else do
        f.formatChar turns
        nextChar
        formatLoop turns n

/-- The call, as what is sent once the format has been gone through. -/
def serialFwrite (turns : Nat) : Scanning (SerialCode (BitVec 32)) := do
  f.formatLoop turns turns
  Code.access (fun s => (Asnu.serialFwrite s.body, s))

end FormatCall

/-! ### The directives of a format -/

/-- `%`, the letters `l`, and the character that says what to do. -/
structure Directive where
  long : Nat
  conv : BitVec 8
  deriving DecidableEq

/-- Between directives, or after `%` and some `l`. -/
inductive FormatPlace where
  | text
  | directive (long : Nat)
  deriving DecidableEq

namespace FormatPlace

/-- At most two `l` are part of the length. -/
def next : FormatPlace → BitVec 8 → FormatPlace
  | .text, c => if c = ascii '%' then .directive 0 else .text
  | .directive long, c => if c = ascii 'l' ∧ long < 2 then .directive (long + 1) else .text

/-- The directive that a character completes. -/
def completes : FormatPlace → BitVec 8 → List Directive
  | .text, _ => []
  | .directive long, c => if c = ascii 'l' ∧ long < 2 then [] else [{ long := long, conv := c }]

end FormatPlace

def directivesFrom : FormatPlace → List (BitVec 8) → List Directive
  | _, [] => []
  | place, c :: cs => place.completes c ++ directivesFrom (place.next c) cs

/-- A `d`, `i`, `u`, `o`, `x`, `X`, `c`, `s`, `p`, `llu` or `lld`. -/
def Directive.Takes (d : Directive) : Prop :=
  (d.long = 0 ∧ d.conv ∈ ['d', 'i', 'u', 'o', 'x', 'X', 'c', 's', 'p'].map ascii) ∨
    (d.long = 2 ∧ d.conv ∈ ['u', 'd'].map ascii)

instance (d : Directive) : Decidable d.Takes := inferInstanceAs (Decidable (_ ∨ _))

/-- The conversions of a format, in order. -/
def conversions (s : List (BitVec 8)) : List Directive :=
  (directivesFrom .text s).filter (fun d => d.Takes)

/-- The string does not end inside a directive. -/
def Whole (s : List (BitVec 8)) : Prop := s.foldl FormatPlace.next .text = .text

instance (s : List (BitVec 8)) : Decidable (Whole s) := inferInstanceAs (Decidable (_ = _))

/-- `fmt` is the string `s`, and the arguments of its `%s` are strings as well. -/
structure FormatCall.Matches (f : FormatCall) (s : List (BitVec 8)) : Prop where
  chars : ∀ c ∈ s, c ≠ 0#8
  cells : Begins 0#8 (s ++ [0#8]) f.fmt
  strings : ∀ k, (conversions s)[k]? = some { long := 0, conv := ascii 's' } →
    ∃ n, f.mem (f.args k + BitVec.ofNat 64 n) = 0#8

/-- The call returns, has read the format up to the terminator at most, and has taken an
argument for each conversion and no other. -/
def FormatCall.Inside (f : FormatCall) (s : List (BitVec 8)) : Prop :=
  Code.Terminates f.serialFwrite {} (fun _ t =>
    (∀ i ∈ t.reads, i ≤ s.length) ∧ t.taken = (conversions s).length)

/-! ### One directive after another -/

/-- A format as characters and directives, the last of which may be cut off. -/
inductive FormatParse : List (BitVec 8) → Prop where
  | nil : FormatParse []
  | char {c : BitVec 8} {s : List (BitVec 8)} (hc : c ≠ ascii '%') (hrest : FormatParse s) :
      FormatParse (c :: s)
  | directive {long : Nat} {c : BitVec 8} {s : List (BitVec 8)} (hlong : long ≤ 2)
      (hc : long < 2 → c ≠ ascii 'l') (hrest : FormatParse s) :
      FormatParse (ascii '%' :: (List.replicate long (ascii 'l') ++ c :: s))
  | cut {long : Nat} (hlong : long ≤ 2) :
      FormatParse (ascii '%' :: List.replicate long (ascii 'l'))

theorem formatParse (s : List (BitVec 8)) : FormatParse s := by
  generalize hn : s.length = n
  induction n using Nat.strong_induction_on generalizing s with
  | _ n ih =>
      have hshorter : ∀ t : List (BitVec 8), t.length < s.length → FormatParse t :=
        fun t ht => ih t.length (hn ▸ ht) t rfl
      match s with
      | [] => exact .nil
      | c :: s =>
          by_cases hpercent : c = ascii '%'
          · subst hpercent
            match s with
            | [] => exact .cut (Nat.zero_le 2)
            | a :: s =>
                by_cases ha : a = ascii 'l'
                · subst ha
                  match s with
                  | [] => exact .cut (show 1 ≤ 2 by decide)
                  | b :: s =>
                      by_cases hb : b = ascii 'l'
                      · subst hb
                        match s with
                        | [] => exact .cut (Nat.le_refl 2)
                        | c :: s =>
                            exact .directive (Nat.le_refl 2) (fun h => absurd h (by decide))
                              (hshorter s (by simp only [List.length_cons]; omega))
                      · exact .directive (show 1 ≤ 2 by decide) (fun _ => hb)
                          (hshorter s (by simp only [List.length_cons]; omega))
                · exact .directive (Nat.zero_le 2) (fun _ => ha)
                    (hshorter s (by simp only [List.length_cons]; omega))
          · exact .char hpercent (hshorter s (Nat.lt_succ_self _))

section Automaton

variable {c : BitVec 8} {s : List (BitVec 8)} {long : Nat}

theorem next_percent : FormatPlace.next .text (ascii '%') = .directive 0 := by decide

theorem next_char (hc : c ≠ ascii '%') : FormatPlace.next .text c = .text := if_neg hc

theorem next_conv (hc : long < 2 → c ≠ ascii 'l') :
    FormatPlace.next (.directive long) c = .text :=
  if_neg (fun h => hc h.2 h.1)

/-- Up to two `l` are counted. -/
theorem next_long (k : Nat) (hlong : long + k ≤ 2) :
    (List.replicate k (ascii 'l')).foldl FormatPlace.next (.directive long) =
      .directive (long + k) := by
  induction k generalizing long with
  | zero => rfl
  | succ k ih =>
      have hnext : FormatPlace.next (.directive long) (ascii 'l') = .directive (long + 1) :=
        if_pos ⟨rfl, by omega⟩
      rw [List.replicate_succ, List.foldl_cons, hnext, ih (by omega)]
      congr 1
      omega

theorem directives_long (k : Nat) (hlong : long + k ≤ 2) :
    directivesFrom (.directive long) (List.replicate k (ascii 'l') ++ s) =
      directivesFrom (.directive (long + k)) s := by
  induction k generalizing long with
  | zero => rfl
  | succ k ih =>
      have hl : ascii 'l' = ascii 'l' ∧ long < 2 := ⟨rfl, by omega⟩
      have hnext : FormatPlace.next (.directive long) (ascii 'l') = .directive (long + 1) :=
        if_pos hl
      have hnone : FormatPlace.completes (.directive long) (ascii 'l') = [] := if_pos hl
      rw [List.replicate_succ, List.cons_append, directivesFrom, hnext, hnone, List.nil_append,
        ih (by omega)]
      congr 2
      omega

theorem whole_char_iff (hc : c ≠ ascii '%') : Whole (c :: s) ↔ Whole s := by
  rw [Whole, List.foldl_cons, next_char hc, Whole]

theorem whole_directive_iff (hlong : long ≤ 2) (hc : long < 2 → c ≠ ascii 'l') :
    Whole (ascii '%' :: (List.replicate long (ascii 'l') ++ c :: s)) ↔ Whole s := by
  rw [Whole, List.foldl_cons, next_percent, List.foldl_append, next_long _ (by omega),
    Nat.zero_add, List.foldl_cons, next_conv hc, Whole]

theorem not_whole_cut (hlong : long ≤ 2) :
    ¬ Whole (ascii '%' :: List.replicate long (ascii 'l')) := by
  rw [Whole, List.foldl_cons, next_percent, next_long _ (by omega)]
  exact FormatPlace.noConfusion

theorem conversions_char (hc : c ≠ ascii '%') : conversions (c :: s) = conversions s := by
  rw [conversions, directivesFrom, next_char hc]
  rfl

theorem conversions_directive (hlong : long ≤ 2) (hc : long < 2 → c ≠ ascii 'l') :
    conversions (ascii '%' :: (List.replicate long (ascii 'l') ++ c :: s)) =
      (if Directive.Takes { long := long, conv := c } then [{ long := long, conv := c }] else []) ++
        conversions s := by
  have hcomplete : FormatPlace.completes (.directive long) c = [{ long := long, conv := c }] :=
    if_neg (fun h => hc h.2 h.1)
  have hnone : FormatPlace.completes .text (ascii '%') = [] := rfl
  rw [conversions, directivesFrom, next_percent, hnone, List.nil_append,
    directives_long _ (by omega), Nat.zero_add, directivesFrom, next_conv hc, hcomplete,
    List.filter_append, List.filter_cons, List.filter_nil, conversions]
  simp only [decide_eq_true_eq]

end Automaton

/-! ### What the code does with a directive -/

/-- From `s` to `t` the format has been gone through for some steps, and nothing behind
has been read. -/
structure Scan.Advanced (s : Scan) (steps args : Nat) (t : Scan) : Prop where
  p : t.p = s.p + steps
  reads : ∀ i ∈ t.reads, i ∈ s.reads ∨ i ≤ s.p + steps
  taken : t.taken = s.taken + args

theorem Scan.Advanced.trans {s t u : Scan} {m n i j : Nat} (h : s.Advanced m i t)
    (h' : t.Advanced n j u) : s.Advanced (m + n) (i + j) u where
  p := by rw [h'.p, h.p, Nat.add_assoc]
  reads := by
    intro k hk
    rcases h'.reads k hk with hk | hk
    · exact (h.reads k hk).imp_right (fun hle => by omega)
    · rw [h.p, Nat.add_assoc] at hk
      exact Or.inr hk
  taken := by rw [h'.taken, h.taken, Nat.add_assoc]

theorem nextChar_returns (s : Scan) :
    Code.Returns nextChar s (fun _ t => s.Advanced 1 0 t) :=
  Code.returns_access.mpr ⟨rfl, fun _ hi => Or.inl hi, rfl⟩

theorem put_returns (piece : Piece) (s : Scan) :
    Code.Returns (put piece) s (fun _ t => s.Advanced 0 0 t) :=
  Code.returns_access.mpr ⟨rfl, fun _ hi => Or.inl hi, rfl⟩

namespace FormatCall

variable (f : FormatCall)

theorem read_returns (s : Scan) :
    Code.Returns f.read s (fun c t => c = f.fmt s.p ∧ s.Advanced 0 0 t) := by
  refine Code.returns_access.mpr ⟨rfl, rfl, fun i hi => ?_, rfl⟩
  rcases List.mem_cons.mp hi with rfl | hi
  · exact Or.inr (Nat.le_refl _)
  · exact Or.inl hi

theorem vaArg_returns (s : Scan) :
    Code.Returns f.vaArg s (fun v t => v = f.args s.taken ∧ s.Advanced 0 1 t) :=
  Code.returns_access.mpr ⟨rfl, rfl, fun _ hi => Or.inl hi, rfl⟩

theorem putText_returns {print : Printing Unit} {Q : Unit → Buffer (BitVec 8) → Prop}
    (h : Code.Returns print { cells := f.stale } Q) (s : Scan) :
    Code.Returns (f.putText print) s (fun _ t => s.Advanced 0 0 t) := by
  obtain ⟨_, b, heq, _⟩ := h
  refine ⟨(), { s with body := s.body ++ b.sent.map Piece.char }, ?_, rfl, fun _ hi => Or.inl hi,
    rfl⟩
  rw [putText, heq]

/-- The loop of `%s` finds the end of the string. -/
theorem putString_returns {n turns : Nat} {v : Ptr} (hend : f.mem (v + BitVec.ofNat 64 n) = 0#8)
    (hturns : n < turns) (s : Scan) :
    Code.Returns (f.putString turns v) s (fun _ t => s.Advanced 0 0 t) := by
  induction n generalizing turns v s with
  | zero =>
      cases turns with
      | zero => exact absurd hturns (Nat.not_lt_zero _)
      | succ turns =>
          rw [BitVec.add_zero] at hend
          rw [putString, if_pos hend, Code.returns_pure]
          exact ⟨rfl, fun _ hi => Or.inl hi, rfl⟩
  | succ n ih =>
      cases turns with
      | zero => exact absurd hturns (Nat.not_lt_zero _)
      | succ turns =>
          rw [putString]
          split
          · exact Code.returns_pure.mpr ⟨rfl, fun _ hi => Or.inl hi, rfl⟩
          · refine (put_returns _ s).bind (fun _ t ht => ?_)
            rw [← succ_offset] at hend
            refine (ih hend (Nat.lt_of_succ_lt_succ hturns) t).mono (fun _ u hu => ?_)
            exact ht.trans hu

/-- A case that takes an argument. -/
theorem argument_returns {k : BitVec 64 → Scanning Unit} (s : Scan)
    (hk : ∀ t, Code.Returns (k (f.args s.taken)) t (fun _ u => t.Advanced 0 0 u)) :
    Code.Returns (f.vaArg >>= k) s (fun _ u => s.Advanced 0 1 u) := by
  refine (f.vaArg_returns s).bind ?_
  rintro _ t ⟨rfl, ht⟩
  exact (hk t).mono (fun _ u hu => ht.trans hu)

/-- Enough turns for the numbers and the strings. -/
structure Enough (turns : Nat) (d : Directive) (v : BitVec 64) : Prop where
  numbers : 33 ≤ turns
  string : d = { long := 0, conv := ascii 's' } →
    ∃ n < turns, f.mem (v + BitVec.ofNat 64 n) = 0#8

/-- 1 if the directive takes an argument. -/
def argsOf (d : Directive) : Nat := if d.Takes then 1 else 0

variable {f} {s : Scan} {turns : Nat} {c : BitVec 8}

theorem conversion_returns (hc : c ≠ ascii 'l')
    (h : f.Enough turns { long := 0, conv := c } (f.args s.taken)) :
    Code.Returns (f.conversion turns c) s
      (fun _ t => s.Advanced 0 (argsOf { long := 0, conv := c }) t) := by
  have hnumbers := h.numbers
  have hhex : ∀ (v : BitVec 64) (uppercase : Bool) (t : Scan),
      Code.Returns (f.putText (serialWriteHex turns v uppercase)) t
        (fun _ u => t.Advanced 0 0 u) := by
    intro v uppercase t
    have hturns : 17 ≤ turns := by omega
    exact f.putText_returns (serialWriteHex_returns f.stale v uppercase hturns) t
  unfold conversion
  refine .ite (fun hint => ?_) (fun hint => .ite (fun huint => ?_) (fun huint =>
    .ite (fun hoctal => ?_) (fun hoctal => .ite (fun hlower => ?_) (fun hlower =>
      .ite (fun hupper => ?_) (fun hupper => .ite (fun hchar => ?_) (fun hchar =>
        .ite (fun hstring => ?_) (fun hstring => .ite (fun hpointer => ?_) (fun hpointer =>
          .ite (fun hlong => absurd hlong hc) (fun _ =>
            .ite (fun hpercent => ?_) (fun hpercent => ?_))))))))))
  · have htakes : argsOf { long := 0, conv := c } = 1 := by
      rcases hint with rfl | rfl
      · decide
      · decide
    rw [htakes]
    exact f.argument_returns s (fun t => put_returns _ t)
  · subst huint
    exact f.argument_returns s
      (fun t => f.putText_returns (serialWriteUint_returns f.stale _ hnumbers) t)
  · subst hoctal
    exact f.argument_returns s
      (fun t => f.putText_returns (serialWriteOctal_returns f.stale _ hnumbers) t)
  · subst hlower
    exact f.argument_returns s (hhex _ _)
  · subst hupper
    exact f.argument_returns s (hhex _ _)
  · subst hchar
    exact f.argument_returns s (fun t => put_returns _ t)
  · subst hstring
    obtain ⟨n, hn, hend⟩ := h.string rfl
    exact f.argument_returns s (fun t => f.putString_returns hend hn t)
  · subst hpointer
    exact f.argument_returns s (hhex _ _)
  · subst hpercent
    exact put_returns _ s
  · -- nothing that is known; the two characters are sent as they are
    have hnone : argsOf { long := 0, conv := c } = 0 := by
      refine if_neg ?_
      rw [not_or] at hint
      simp [Directive.Takes, hint, huint, hoctal, hlower, hupper, hchar, hstring, hpointer]
    rw [hnone]
    refine (put_returns _ s).bind (fun _ t ht => (f.read_returns t).bind ?_)
    rintro _ u ⟨rfl, hu⟩
    exact (put_returns _ u).mono (fun _ v hv => ht.trans (hu.trans hv))

/-- One `l` and a character, which are skipped. -/
theorem longConversion_one (hc : f.fmt (s.p + 1) ≠ ascii 'l') :
    Code.Returns (f.longConversion turns) s (fun _ t => s.Advanced 1 0 t) := by
  refine (nextChar_returns s).bind (fun _ t ht => (f.read_returns t).bind ?_)
  rintro _ u ⟨rfl, hu⟩
  rw [ht.p, if_neg hc]
  exact Code.returns_pure.mpr (ht.trans hu)

/-- Two `l` and the character behind them. -/
theorem longConversion_two (hl : f.fmt (s.p + 1) = ascii 'l') (hnumbers : 33 ≤ turns) :
    Code.Returns (f.longConversion turns) s
      (fun _ t => s.Advanced 2 (argsOf { long := 2, conv := f.fmt (s.p + 2) }) t) := by
  refine (nextChar_returns s).bind (fun _ t ht => (f.read_returns t).bind ?_)
  rintro _ u ⟨rfl, hu⟩
  rw [ht.p, if_pos hl]
  refine (nextChar_returns u).bind (fun _ w hw => (f.read_returns w).bind ?_)
  rintro _ x ⟨rfl, hx⟩
  have hsofar := ht.trans (hu.trans (hw.trans hx))
  have hplace : w.p = s.p + 2 := by rw [hw.p, hu.p, ht.p]
  rw [hplace]
  generalize f.fmt (s.p + 2) = c
  refine .ite (fun huint => ?_) (fun huint => .ite (fun hint => ?_) (fun hint => ?_))
  · subst huint
    refine (f.argument_returns x ?_).mono (fun _ y hy => hsofar.trans hy)
    exact fun y => f.putText_returns (writeLlu_returns f.stale _ hnumbers) y
  · subst hint
    refine (f.argument_returns x ?_).mono (fun _ y hy => hsofar.trans hy)
    exact fun y => f.putText_returns (writeLld_returns f.stale _ hnumbers) y
  · have hnone : argsOf { long := 2, conv := c } = 0 := by
      refine if_neg ?_
      simp [Directive.Takes, huint, hint]
    rw [hnone]
    exact Code.returns_pure.mpr hsofar

theorem conversion_long : f.conversion turns (ascii 'l') = f.longConversion turns := by
  unfold conversion
  rw [if_neg (by decide), if_neg (by decide), if_neg (by decide), if_neg (by decide),
    if_neg (by decide), if_neg (by decide), if_neg (by decide), if_neg (by decide), if_pos rfl]

theorem formatChar_char (hc : f.fmt s.p ≠ ascii '%') :
    Code.Returns (f.formatChar turns) s (fun _ t => s.Advanced 0 0 t) := by
  refine (f.read_returns s).bind ?_
  rintro _ t ⟨rfl, ht⟩
  rw [if_neg hc]
  refine (f.read_returns t).bind ?_
  rintro _ u ⟨rfl, hu⟩
  exact (put_returns _ u).mono (fun _ v hv => ht.trans (hu.trans hv))

theorem formatChar_directive {long : Nat} (hlong : long ≤ 2)
    (hc : long < 2 → f.fmt (s.p + 1 + long) ≠ ascii 'l') (hpercent : f.fmt s.p = ascii '%')
    (hl : ∀ j < long, f.fmt (s.p + 1 + j) = ascii 'l')
    (h : f.Enough turns { long := long, conv := f.fmt (s.p + 1 + long) } (f.args s.taken)) :
    Code.Returns (f.formatChar turns) s (fun _ t =>
      s.Advanced (1 + long) (argsOf { long := long, conv := f.fmt (s.p + 1 + long) }) t) := by
  refine (f.read_returns s).bind ?_
  rintro _ t ⟨rfl, ht⟩
  rw [if_pos hpercent]
  refine (nextChar_returns t).bind (fun _ u hu => (f.read_returns u).bind ?_)
  rintro _ v ⟨rfl, hv⟩
  have hsofar : s.Advanced 1 0 v := ht.trans (hu.trans hv)
  have hplace : u.p = s.p + 1 := hv.p.symm.trans hsofar.p
  rw [hplace]
  match long with
  | 0 =>
      rw [Nat.add_zero] at hc h ⊢
      have hargs : v.taken = s.taken := hsofar.taken
      rw [← hargs] at h
      refine (conversion_returns (hc (by decide)) h).mono (fun _ w hw => ?_)
      rw [← Nat.zero_add (argsOf _)]
      exact hsofar.trans hw
  | 1 =>
      have hfirst : f.fmt (s.p + 1) = ascii 'l' := hl 0 (by decide)
      have hnone : argsOf { long := 1, conv := f.fmt (s.p + 1 + 1) } = 0 := by
        simp [argsOf, Directive.Takes]
      rw [hfirst, conversion_long, hnone]
      have hskip : f.fmt (v.p + 1) ≠ ascii 'l' := by
        rw [hsofar.p]
        exact hc (by decide)
      exact (longConversion_one hskip).mono (fun _ w hw => hsofar.trans hw)
  | 2 =>
      have hfirst : f.fmt (s.p + 1) = ascii 'l' := hl 0 (by decide)
      have hsecond : f.fmt (v.p + 1) = ascii 'l' := by
        rw [hsofar.p]
        exact hl 1 (by decide)
      have hthird : f.fmt (v.p + 2) = f.fmt (s.p + 1 + 2) := by rw [hsofar.p]
      rw [hfirst, conversion_long]
      refine (longConversion_two hsecond h.numbers).mono (fun _ w hw => ?_)
      rw [hthird] at hw
      rw [← Nat.zero_add (argsOf _)]
      exact hsofar.trans hw

/-- The string `l` stands at place `p` of the format. -/
def At (f : FormatCall) (p : Nat) (l : List (BitVec 8)) : Prop :=
  Begins 0#8 (l ++ [0#8]) (fun j => f.fmt (p + j))

section At

variable {p long : Nat} {l : List (BitVec 8)}

theorem At.end (h : f.At p []) : f.fmt p = 0#8 := h 0 (Nat.zero_lt_one)

theorem At.head (h : f.At p (c :: l)) : f.fmt p = c := h 0 (Nat.zero_lt_succ _)

theorem At.tail (h : f.At p (c :: l)) : f.At (p + 1) l := by
  intro j hj
  have hnext := h (j + 1) (Nat.succ_lt_succ hj)
  change f.fmt (p + 1 + j) = _
  rw [Nat.add_assoc, Nat.add_comm 1 j]
  exact hnext

theorem At.longs (h : f.At p (List.replicate long (ascii 'l') ++ l)) :
    (∀ j < long, f.fmt (p + j) = ascii 'l') ∧ f.At (p + long) l := by
  induction long generalizing p with
  | zero => exact ⟨fun j hj => absurd hj (Nat.not_lt_zero _), h⟩
  | succ long ih =>
      rw [List.replicate_succ, List.cons_append] at h
      obtain ⟨hl, hrest⟩ := ih h.tail
      refine ⟨fun j hj => ?_, ?_⟩
      · cases j with
        | zero => exact h.head
        | succ j =>
            rw [Nat.add_comm j 1, ← Nat.add_assoc]
            exact hl j (Nat.lt_of_succ_lt_succ hj)
      · rw [Nat.add_comm long 1, ← Nat.add_assoc]
        exact hrest

/-- A directive, the last character of which may be the terminator. -/
theorem At.directive {turns : Nat} {s : Scan} (hlong : long ≤ 2) (hc : long < 2 → c ≠ ascii 'l')
    (hpercent : f.fmt s.p = ascii '%') (hl : ∀ j < long, f.fmt (s.p + 1 + j) = ascii 'l')
    (hconv : f.fmt (s.p + 1 + long) = c)
    (h : f.Enough turns { long := long, conv := c } (f.args s.taken)) :
    Code.Returns (f.formatChar turns) s (fun _ t =>
      s.Advanced (1 + long) (argsOf { long := long, conv := c }) t) := by
  subst hconv
  exact formatChar_directive hlong hc hpercent hl h

end At

/-! ### The loop -/

/-- A turn of the loop that finds a character or a directive. -/
theorem formatLoop_turn {n steps args : Nat} (hc : f.fmt s.p ≠ 0#8)
    (hchar : ∀ t, s.Advanced 0 0 t →
      Code.Returns (f.formatChar turns) t (fun _ u => t.Advanced steps args u)) :
    ∃ v, s.Advanced (steps + 1) args v ∧
      f.formatLoop turns (n + 1) s = f.formatLoop turns n v := by
  obtain ⟨_, t, hread, rfl, ht⟩ := f.read_returns s
  obtain ⟨_, u, hbody, hu⟩ := hchar t ht
  obtain ⟨_, v, hnext, hv⟩ := nextChar_returns u
  have hadvanced := ht.trans (hu.trans hv)
  rw [Nat.zero_add, Nat.zero_add] at hadvanced
  refine ⟨v, hadvanced, ?_⟩
  rw [formatLoop, Code.bind_apply, hread, Option.bind_some]
  dsimp only
  rw [if_neg hc, Code.bind_apply, hbody, Option.bind_some, Code.bind_apply, hnext,
    Option.bind_some]

theorem Enough.of_not_takes {d : Directive} (hnumbers : 33 ≤ turns) (hnone : ¬ d.Takes)
    (v : BitVec 64) : f.Enough turns d v := by
  refine ⟨hnumbers, fun hstring => absurd ?_ hnone⟩
  rw [hstring]
  decide

theorem not_takes_zero (long : Nat) : ¬ Directive.Takes { long := long, conv := 0#8 } := by
  have hshort : 0#8 ∉ ['d', 'i', 'u', 'o', 'x', 'X', 'c', 's', 'p'].map ascii := by decide
  have hlong : 0#8 ∉ ['u', 'd'].map ascii := by decide
  exact fun h => h.elim (fun h => hshort h.2) (fun h => hlong h.2)

/-- The conversions of `l` have the arguments they need, the first of which is `taken`. -/
def Supplied (f : FormatCall) (turns taken : Nat) (l : List (BitVec 8)) : Prop :=
  ∀ k d, (conversions l)[k]? = some d → f.Enough turns d (f.args (taken + k))

section Supplied

variable {l : List (BitVec 8)} {long taken : Nat} (hlong : long ≤ 2)
  (hc : long < 2 → c ≠ ascii 'l')
include hlong hc

theorem length_conversions_directive :
    (conversions (ascii '%' :: (List.replicate long (ascii 'l') ++ c :: l))).length =
      argsOf { long := long, conv := c } + (conversions l).length := by
  rw [conversions_directive hlong hc, List.length_append, argsOf]
  split
  · rfl
  · rfl

theorem Supplied.first (hnumbers : 33 ≤ turns)
    (h : f.Supplied turns taken (ascii '%' :: (List.replicate long (ascii 'l') ++ c :: l))) :
    f.Enough turns { long := long, conv := c } (f.args taken) := by
  by_cases htakes : Directive.Takes { long := long, conv := c }
  · refine h 0 _ ?_
    rw [conversions_directive hlong hc, if_pos htakes]
    rfl
  · exact .of_not_takes hnumbers htakes _

theorem Supplied.rest
    (h : f.Supplied turns taken (ascii '%' :: (List.replicate long (ascii 'l') ++ c :: l))) :
    f.Supplied turns (taken + argsOf { long := long, conv := c }) l := by
  intro k d hk
  rw [Nat.add_assoc]
  refine h _ d ?_
  rw [conversions_directive hlong hc, argsOf]
  split
  · rw [Nat.add_comm 1 k]
    exact hk
  · rw [Nat.zero_add]
    exact hk

end Supplied

/-- A turn at a character. -/
theorem At.turn_char {l : List (BitVec 8)} {n : Nat} (hat : f.At s.p (c :: l)) (hc : c ≠ ascii '%')
    (hne : c ≠ 0#8) (hargs : f.Supplied turns s.taken (c :: l)) :
    ∃ v, s.Advanced 1 0 v ∧ f.At v.p l ∧ f.Supplied turns v.taken l ∧
      f.formatLoop turns (n + 1) s = f.formatLoop turns n v := by
  have hchar : ∀ t, s.Advanced 0 0 t →
      Code.Returns (f.formatChar turns) t (fun _ u => t.Advanced 0 0 u) := by
    intro t ht
    have hp : t.p = s.p := ht.p
    refine formatChar_char ?_
    rw [hp, hat.head]
    exact hc
  obtain ⟨v, hv, heq⟩ := formatLoop_turn (n := n) (by rw [hat.head]; exact hne) hchar
  refine ⟨v, hv, ?_, ?_, heq⟩
  · rw [hv.p]
    exact hat.tail
  · have htaken : v.taken = s.taken := hv.taken
    intro k d hk
    rw [htaken]
    exact hargs k d (by rwa [conversions_char hc])

/-- A turn at a directive, the last character of which may be the terminator. -/
theorem At.turn_conv {n long : Nat} (hlong : long ≤ 2) (hc : long < 2 → c ≠ ascii 'l')
    (hpercent : f.fmt s.p = ascii '%') (hl : ∀ j < long, f.fmt (s.p + 1 + j) = ascii 'l')
    (hconv : f.fmt (s.p + 1 + long) = c)
    (henough : f.Enough turns { long := long, conv := c } (f.args s.taken)) :
    ∃ v, s.Advanced (1 + long + 1) (argsOf { long := long, conv := c }) v ∧
      f.formatLoop turns (n + 1) s = f.formatLoop turns n v := by
  refine formatLoop_turn (by rw [hpercent]; decide) (fun t ht => ?_)
  have hp : t.p = s.p := ht.p
  have htaken : t.taken = s.taken := ht.taken
  rw [← hp] at hpercent hl hconv
  rw [← htaken] at henough
  exact At.directive hlong hc hpercent hl hconv henough

/-- A turn at a directive. -/
theorem At.turn_directive {l : List (BitVec 8)} {n long : Nat} (hlong : long ≤ 2)
    (hc : long < 2 → c ≠ ascii 'l')
    (hat : f.At s.p (ascii '%' :: (List.replicate long (ascii 'l') ++ c :: l)))
    (hnumbers : 33 ≤ turns)
    (hargs : f.Supplied turns s.taken
      (ascii '%' :: (List.replicate long (ascii 'l') ++ c :: l))) :
    ∃ v, s.Advanced (1 + long + 1) (argsOf { long := long, conv := c }) v ∧ f.At v.p l ∧
      f.Supplied turns v.taken l ∧ f.formatLoop turns (n + 1) s = f.formatLoop turns n v := by
  obtain ⟨hl, hlast⟩ := hat.tail.longs
  obtain ⟨v, hv, heq⟩ := At.turn_conv (n := n) hlong hc hat.head hl hlast.head
    (Supplied.first hlong hc hnumbers hargs)
  refine ⟨v, hv, ?_, ?_, heq⟩
  · rw [hv.p, ← Nat.add_assoc, ← Nat.add_assoc]
    exact hlast.tail
  · rw [hv.taken]
    exact Supplied.rest hlong hc hargs

theorem length_directive (long : Nat) (c : BitVec 8) (l : List (BitVec 8)) :
    (ascii '%' :: (List.replicate long (ascii 'l') ++ c :: l)).length =
      1 + long + 1 + l.length := by
  simp only [List.length_cons, List.length_append, List.length_replicate]
  omega

/-- A whole format is gone through up to its end. -/
theorem At.formatLoop_returns {l : List (BitVec 8)} {n : Nat} (hparse : FormatParse l)
    (hat : f.At s.p l) (hchars : ∀ c ∈ l, c ≠ 0#8) (hwhole : Whole l) (hnumbers : 33 ≤ turns)
    (hargs : f.Supplied turns s.taken l) (hn : l.length < n) :
    Code.Returns (f.formatLoop turns n) s
      (fun _ t => s.Advanced l.length (conversions l).length t) := by
  induction hparse generalizing s n with
  | nil =>
      cases n with
      | zero => exact absurd hn (Nat.not_lt_zero _)
      | succ n =>
          refine (f.read_returns s).bind ?_
          rintro _ t ⟨rfl, ht⟩
          rw [if_pos hat.end, Code.returns_pure]
          exact ht
  | @char c l hc _ ih =>
      cases n with
      | zero => exact absurd hn (Nat.not_lt_zero _)
      | succ n =>
          obtain ⟨v, hv, hrest, hsupplied, heq⟩ :=
            hat.turn_char hc (hchars c List.mem_cons_self) hargs
          have hloop := ih hrest (fun d hd => hchars d (List.mem_cons_of_mem _ hd))
            ((whole_char_iff hc).mp hwhole) hsupplied (Nat.lt_of_succ_lt_succ hn)
          refine (hloop.congr heq).mono (fun _ t ht => ?_)
          rw [conversions_char hc, List.length_cons, Nat.add_comm l.length,
            ← Nat.zero_add (conversions l).length]
          exact hv.trans ht
  | @directive long c l hlong hc _ ih =>
      cases n with
      | zero => exact absurd hn (Nat.not_lt_zero _)
      | succ n =>
          obtain ⟨v, hv, hrest, hsupplied, heq⟩ := hat.turn_directive hlong hc hnumbers hargs
          rw [length_directive] at hn ⊢
          have hshorter : l.length < n := by omega
          have hloop := ih hrest (fun d hd => hchars d (by simp [hd]))
            ((whole_directive_iff hlong hc).mp hwhole) hsupplied hshorter
          refine (hloop.congr heq).mono (fun _ t ht => ?_)
          rw [length_conversions_directive hlong hc]
          exact hv.trans ht
  | cut hlong => exact absurd hwhole (not_whole_cut hlong)

end FormatCall

/-! ### A format that is cut off -/

/-- What has been read stays on record. -/
def Records {α : Type} (p : Scanning α) : Prop :=
  Code.Stays (fun s t : Scan => s.reads ⊆ t.reads) p

namespace Records

variable {α β : Type} {p : Scanning α}

theorem pure (a : α) : Records (Pure.pure a) :=
  Code.Stays.pure (fun s => List.Subset.refl s.reads) a

theorem bind {k : α → Scanning β} (hp : Records p) (hk : ∀ a, Records (k a)) :
    Records (p >>= k) :=
  Code.Stays.bind (fun _ _ _ h h' => List.Subset.trans h h') hp hk

theorem ite {b : Prop} [Decidable b] {q : Scanning α} (hp : Records p) (hq : Records q) :
    Records (if b then p else q) :=
  Code.Stays.ite hp hq

theorem nextChar : Records nextChar := Code.Stays.access (fun _ => List.Subset.refl _)

theorem put (piece : Piece) : Records (put piece) :=
  Code.Stays.access (fun _ => List.Subset.refl _)

variable (f : FormatCall) (turns : Nat)

theorem read : Records f.read := Code.Stays.access (fun _ => List.subset_cons_self _ _)

theorem vaArg : Records f.vaArg := Code.Stays.access (fun _ => List.Subset.refl _)

theorem putText (print : Printing Unit) : Records (f.putText print) := by
  intro s a t heq
  unfold FormatCall.putText at heq
  split at heq
  · cases heq
    exact List.Subset.refl _
  · cases heq

theorem putString (v : Ptr) : Records (f.putString turns v) := by
  induction turns generalizing v with
  | zero => exact Code.Stays.giveUp
  | succ turns ih =>
      exact .ite (.pure _) ((put _).bind (fun _ => ih _))

theorem longConversion : Records (f.longConversion turns) := by
  refine nextChar.bind (fun _ => (read f).bind (fun c => .ite ?_ (.pure _)))
  refine nextChar.bind (fun _ => (read f).bind (fun c => ?_))
  exact .ite ((vaArg f).bind (fun _ => putText f _))
    (.ite ((vaArg f).bind (fun _ => putText f _)) (.pure _))

theorem conversion (c : BitVec 8) : Records (f.conversion turns c) := by
  have hnumber : ∀ k : BitVec 64 → Printing Unit,
      Records (f.vaArg >>= fun v => f.putText (k v)) :=
    fun k => (vaArg f).bind (fun v => putText f (k v))
  have hpiece : ∀ k : BitVec 64 → Piece, Records (f.vaArg >>= fun v => Asnu.put (k v)) :=
    fun k => (vaArg f).bind (fun v => put (k v))
  refine .ite (hpiece _) (.ite (hnumber _) (.ite (hnumber _) (.ite (hnumber _)
    (.ite (hnumber _) (.ite (hpiece _) (.ite ?_ (.ite (hnumber _) ?_)))))))
  · exact (vaArg f).bind (fun v => putString f turns v)
  · refine .ite (longConversion f turns) (.ite (put _) ?_)
    exact (put _).bind (fun _ => (read f).bind (fun c => put _))

theorem formatChar : Records (f.formatChar turns) := by
  refine (read f).bind (fun c => .ite ?_ ((read f).bind (fun c => put _)))
  exact nextChar.bind (fun _ => (read f).bind (fun c => conversion f turns c))

theorem formatLoop (n : Nat) : Records (f.formatLoop turns n) := by
  induction n with
  | zero => exact Code.Stays.giveUp
  | succ n ih =>
      refine (read f).bind (fun c => .ite (.pure _) ?_)
      exact (formatChar f turns).bind (fun _ => nextChar.bind (fun _ => ih))

end Records

namespace FormatCall

variable {f : FormatCall} {s : Scan} {turns : Nat}

/-- The loop begins with a read, and what it reads next does not matter. -/
theorem formatLoop_reads (n : Nat) :
    Code.Ensures (f.formatLoop turns n) s (fun _ t => s.p ∈ t.reads) := by
  cases n with
  | zero => exact fun _ _ heq => nomatch heq
  | succ n =>
      have hread : Code.Ensures f.read s (fun _ t => s.p ∈ t.reads) :=
        (Code.returns_access.mpr List.mem_cons_self : Code.Returns f.read s _).ensures
      refine hread.bind (fun c t ht => ?_)
      have hrest : Records (if c = 0#8 then Pure.pure () else do
          f.formatChar turns
          nextChar
          f.formatLoop turns n) :=
        .ite (.pure _) ((Records.formatChar f turns).bind
          (fun _ => Records.nextChar.bind (fun _ => Records.formatLoop f turns n)))
      exact (hrest t).mono (fun _ u hu => hu ht)

/-- Behind a directive that is cut off, the loop reads on. -/
theorem At.formatLoop_overruns {l : List (BitVec 8)} {n : Nat} (hparse : FormatParse l)
    (hat : f.At s.p l) (hchars : ∀ c ∈ l, c ≠ 0#8) (hcut : ¬ Whole l) (hnumbers : 33 ≤ turns)
    (hargs : f.Supplied turns s.taken l) :
    Code.Ensures (f.formatLoop turns n) s (fun _ t => s.p + l.length + 1 ∈ t.reads) := by
  induction hparse generalizing s n with
  | nil => exact absurd rfl hcut
  | @char c l hc _ ih =>
      cases n with
      | zero => exact fun _ _ heq => nomatch heq
      | succ n =>
          obtain ⟨v, hv, hrest, hsupplied, heq⟩ :=
            hat.turn_char hc (hchars c List.mem_cons_self) hargs
          have hloop := ih (n := n) hrest (fun d hd => hchars d (List.mem_cons_of_mem _ hd))
            ((not_congr (whole_char_iff hc)).mp hcut) hsupplied
          refine (hloop.congr heq).mono (fun _ t ht => ?_)
          rwa [hv.p, Nat.add_assoc s.p, Nat.add_comm 1] at ht
  | @directive long c l hlong hc _ ih =>
      cases n with
      | zero => exact fun _ _ heq => nomatch heq
      | succ n =>
          obtain ⟨v, hv, hrest, hsupplied, heq⟩ := hat.turn_directive hlong hc hnumbers hargs
          have hloop := ih (n := n) hrest (fun d hd => hchars d (by simp [hd]))
            ((not_congr (whole_directive_iff hlong hc)).mp hcut) hsupplied
          refine (hloop.congr heq).mono (fun _ t ht => ?_)
          rw [length_directive]
          rwa [hv.p, Nat.add_assoc s.p] at ht
  | @cut long hlong =>
      cases n with
      | zero => exact fun _ _ heq => nomatch heq
      | succ n =>
          have htail := hat.tail
          rw [← List.append_nil (List.replicate long (ascii 'l'))] at htail
          obtain ⟨hl, hend⟩ := htail.longs
          obtain ⟨v, hv, heq⟩ := At.turn_conv (n := n) hlong (fun _ => by decide) hat.head hl
            hend.end (.of_not_takes hnumbers (not_takes_zero long) _)
          refine ((formatLoop_reads n).congr heq).mono (fun _ t ht => ?_)
          rw [hv.p] at ht
          have hplace : s.p + (ascii '%' :: List.replicate long (ascii 'l')).length + 1 =
              s.p + (1 + long + 1) := by
            rw [List.length_cons, List.length_replicate]
            omega
          rwa [hplace]

/-- The string of an argument ends after less than `2 ^ 64` bytes. -/
theorem Matches.supplied {l : List (BitVec 8)} (h : f.Matches l) (hturns : 2 ^ 64 + 33 ≤ turns) :
    f.Supplied turns 0 l := by
  intro k d hk
  refine ⟨by omega, fun hstring => ?_⟩
  subst hstring
  obtain ⟨n, hend⟩ := h.strings k hk
  have hwrap : BitVec.ofNat 64 (n % 2 ^ 64) = BitVec.ofNat 64 n := by
    apply BitVec.eq_of_toNat_eq
    simp
  refine ⟨n % 2 ^ 64, ?_, by rwa [hwrap, Nat.zero_add]⟩
  have hlt := Nat.mod_lt n (Nat.two_pow_pos 64)
  omega

theorem Matches.at {l : List (BitVec 8)} (h : f.Matches l) : f.At 0 l := by
  intro j hj
  change f.fmt (0 + j) = _
  rw [Nat.zero_add]
  exact h.cells j hj

theorem Matches.inside_of_whole {l : List (BitVec 8)} (h : f.Matches l) (hwhole : Whole l) :
    f.Inside l := by
  refine ⟨2 ^ 64 + 33 + l.length, fun turns hturns => ?_⟩
  have henough : 2 ^ 64 + 33 ≤ turns := by omega
  have hnumbers : 33 ≤ turns := by omega
  have hlong : l.length < turns := by omega
  have hloop := At.formatLoop_returns (s := {}) (formatParse l) h.at h.chars hwhole hnumbers
    (h.supplied henough) hlong
  refine hloop.bind (fun _ t ht => Code.returns_access.mpr ?_)
  refine ⟨fun i hi => ?_, ht.taken.trans (Nat.zero_add _)⟩
  rcases ht.reads i hi with hold | hle
  · cases hold
  · exact Nat.le_trans hle (Nat.le_of_eq (Nat.zero_add _))

/-- The character behind the terminator is read. -/
theorem Matches.not_inside_of_cut {l : List (BitVec 8)} (h : f.Matches l) (hcut : ¬ Whole l) :
    ¬ f.Inside l := by
  rintro ⟨bound, hbound⟩
  obtain ⟨turns, hturns, henough⟩ : ∃ turns, bound ≤ turns ∧ 2 ^ 64 + 33 ≤ turns :=
    ⟨max bound (2 ^ 64 + 33), Nat.le_max_left _ _, Nat.le_max_right _ _⟩
  have hnumbers : 33 ≤ turns := by omega
  have hloop := At.formatLoop_overruns (s := {}) (n := turns) (formatParse l) h.at h.chars hcut
    hnumbers (h.supplied henough)
  have hcall : Code.Ensures (f.serialFwrite turns) {} (fun _ t => 0 + l.length + 1 ∈ t.reads) :=
    hloop.bind (fun _ t ht => (Code.returns_access.mpr ht).ensures)
  obtain ⟨_, t, heq, hreads, _⟩ := hbound turns hturns
  have hle := hreads _ (hcall _ t heq)
  omega

end FormatCall

/-- A call stays inside its format and takes what its conversions ask for exactly if the
format does not end inside a directive. -/
theorem serial_fwrite_inside_iff (f : FormatCall) (s : List (BitVec 8)) (h : f.Matches s) :
    f.Inside s ↔ Whole s := by
  constructor
  · intro hinside
    by_contra hcut
    exact h.not_inside_of_cut hcut hinside
  · exact h.inside_of_whole

namespace Sample

/-- A format in memory that is zero behind it, and arguments that are 0. -/
def callWith (s : List (BitVec 8)) : FormatCall :=
  { fmt := fun k => s.getD k 0#8
    args := fun _ => 0#64
    mem := fun _ => 0#8
    stale := fun _ => 0#8 }

theorem callWith_matches {s : List (BitVec 8)} (h : ∀ c ∈ s, c ≠ 0#8) : (callWith s).Matches s where
  chars := h
  cells := by
    intro k hk
    change s.getD k 0#8 = _
    rw [List.length_append, List.length_singleton] at hk
    rcases Nat.lt_or_eq_of_le (Nat.lt_succ_iff.mp hk) with hlt | rfl
    · rw [List.getD_append _ _ _ _ hlt]
    · rw [List.getD_eq_default _ _ (Nat.le_refl _),
        List.getD_append_right _ _ _ _ (Nat.le_refl _), Nat.sub_self]
      rfl
  strings := fun _ _ => ⟨0, rfl⟩

end Sample

/-- A string, a number and a percent sign. -/
theorem serial_fwrite_inside_iff_known :
    (Sample.callWith (['%', 's', '%', 'l', 'l', 'u', '%', '%'].map ascii)).Inside
      (['%', 's', '%', 'l', 'l', 'u', '%', '%'].map ascii) :=
  (serial_fwrite_inside_iff _ _ (Sample.callWith_matches (by decide))).mpr (by decide)

/-- A percent sign at the end. -/
theorem percent_overruns :
    ¬ (Sample.callWith (['1', '0', '0', '%'].map ascii)).Inside
      (['1', '0', '0', '%'].map ascii) :=
  (Sample.callWith_matches (by decide)).not_inside_of_cut (by decide)

end Asnu
