import Asnu.CString.Compare
import Asnu.Serial.Format
import Asnu.Serial.Interrupted

/-!
What the port receives. A call of `serial_fwrite` sends its id and the text that its format
denotes, on a line of its own, and a run of calls sends line after line.
-/

namespace Asnu

open Lib

def chars (text : List (BitVec 8)) : List Piece := text.map Piece.char

/-- The `long` letters and the last character of a directive decide what is sent; nothing is for
a single `l`. -/
def FormatCall.pieces (f : FormatCall) (d : Directive) (v : BitVec 64) : List Piece :=
  match d.long with
  | 0 =>
      if d.conv = ascii 'd' ∨ d.conv = ascii 'i' then [.number (v.setWidth 32)]
      else if d.conv = ascii 'u' then
        chars ((numeral 10 decimalDigit (v.setWidth 32).toNat).leftpad 4 (ascii '0'))
      else if d.conv = ascii 'o' then chars (numeral 8 decimalDigit (v.setWidth 32).toNat)
      else if d.conv = ascii 'x' then chars (numeral 16 (hexDigit false) (v.setWidth 32).toNat)
      else if d.conv = ascii 'X' then chars (numeral 16 (hexDigit true) (v.setWidth 32).toNat)
      else if d.conv = ascii 'c' then [.char (v.setWidth 8)]
      else if d.conv = ascii 's' then chars (charsAt f.mem v (2 ^ 64))
      else if d.conv = ascii 'p' then chars (numeral 16 (hexDigit false) v.toNat)
      else if d.conv = ascii '%' then chars [ascii '%']
      else chars [ascii '%', d.conv]
  | 2 =>
      if d.conv = ascii 'u' then chars (numeral 10 decimalDigit v.toNat)
      else if d.conv = ascii 'd' then chars (lldText v)
      else []
  | _ => []

/-- The pieces of a format from a place in it on, `k` arguments having been taken. -/
def FormatCall.piecesFrom (f : FormatCall) : FormatPlace → Nat → List (BitVec 8) → List Piece
  | _, _, [] => []
  | .text, k, c :: cs =>
      if c = ascii '%' then f.piecesFrom (.directive 0) k cs
      else .char c :: f.piecesFrom .text k cs
  | .directive long, k, c :: cs =>
      if c = ascii 'l' ∧ long < 2 then f.piecesFrom (.directive (long + 1)) k cs
      else f.pieces { long := long, conv := c } (f.args k) ++
        f.piecesFrom .text (k + FormatCall.argsOf { long := long, conv := c }) cs

section Pieces

variable {f : FormatCall} {c : BitVec 8} {l : List (BitVec 8)} {k : Nat}

theorem piecesFrom_char (hc : c ≠ ascii '%') :
    f.piecesFrom .text k (c :: l) = .char c :: f.piecesFrom .text k l := by
  rw [FormatCall.piecesFrom, if_neg hc]

theorem piecesFrom_longs {long : Nat} (j : Nat) (hlong : long + j ≤ 2) :
    f.piecesFrom (.directive long) k (List.replicate j (ascii 'l') ++ l) =
      f.piecesFrom (.directive (long + j)) k l := by
  induction j generalizing long with
  | zero => rfl
  | succ j ih =>
      rw [List.replicate_succ, List.cons_append, FormatCall.piecesFrom,
        if_pos ⟨rfl, by omega⟩, ih (by omega), Nat.add_assoc, Nat.add_comm 1]

theorem piecesFrom_directive {long : Nat} (hlong : long ≤ 2) (hc : long < 2 → c ≠ ascii 'l') :
    f.piecesFrom .text k (ascii '%' :: (List.replicate long (ascii 'l') ++ c :: l)) =
      f.pieces { long := long, conv := c } (f.args k) ++
        f.piecesFrom .text (k + FormatCall.argsOf { long := long, conv := c }) l := by
  have hlast : ¬ (c = ascii 'l' ∧ long < 2) := fun h => hc h.2 h.1
  rw [FormatCall.piecesFrom, if_pos rfl, piecesFrom_longs long (by omega), Nat.zero_add,
    FormatCall.piecesFrom, if_neg hlast]

end Pieces

theorem charsAt_of_end {m : Memory} {p : Ptr} {n N : Nat} (hend : m (p + BitVec.ofNat 64 n) = 0#8)
    (hN : n < N) : charsAt m p N = charsAt m p n := by
  induction n generalizing p N with
  | zero =>
      obtain ⟨N, rfl⟩ := exists_turn hN
      rw [BitVec.add_zero] at hend
      simp only [charsAt, if_pos hend]
  | succ n ih =>
      obtain ⟨N, rfl⟩ := exists_turn hN
      rw [← succ_offset] at hend
      rw [charsAt, charsAt, ih hend (Nat.lt_of_succ_lt_succ hN)]

/-! ### What the code sends for a directive -/

/-- From `s` to `t` the format has been gone through for some steps, and the pieces have been
sent. -/
structure Scan.Sent (s : Scan) (steps args : Nat) (ps : List Piece) (t : Scan) : Prop
    extends s.Advanced steps args t where
  body : t.body = s.body ++ ps

theorem Scan.Sent.trans {s t u : Scan} {m n i j : Nat} {ps qs : List Piece}
    (h : s.Sent m i ps t) (h' : t.Sent n j qs u) : s.Sent (m + n) (i + j) (ps ++ qs) u where
  toAdvanced := h.toAdvanced.trans h'.toAdvanced
  body := by rw [h'.body, h.body, List.append_assoc]

theorem nextChar_sent (s : Scan) : Code.Returns nextChar s (fun _ t => s.Sent 1 0 [] t) :=
  Code.returns_access.mpr ⟨⟨rfl, fun _ hi => Or.inl hi, rfl⟩, (List.append_nil _).symm⟩

theorem put_sent (piece : Piece) (s : Scan) :
    Code.Returns (put piece) s (fun _ t => s.Sent 0 0 [piece] t) :=
  Code.returns_access.mpr ⟨⟨rfl, fun _ hi => Or.inl hi, rfl⟩, rfl⟩

/-- A case of the code and what it sends. -/
theorem sent_ite {b : Prop} [Decidable b] {p q : Scanning Unit} {ps qs : List Piece} {s x : Scan}
    {steps args : Nat} (hp : b → Code.Returns p x (fun _ t => s.Sent steps args ps t))
    (hq : ¬ b → Code.Returns q x (fun _ t => s.Sent steps args qs t)) :
    Code.Returns (if b then p else q) x
      (fun _ t => s.Sent steps args (if b then ps else qs) t) := by
  split
  · next hb => exact hp hb
  · next hb => exact hq hb

namespace FormatCall

variable (f : FormatCall)

theorem read_sent (s : Scan) :
    Code.Returns f.read s (fun c t => c = f.fmt s.p ∧ s.Sent 0 0 [] t) := by
  refine Code.returns_access.mpr ⟨rfl, ⟨rfl, fun i hi => ?_, rfl⟩, (List.append_nil _).symm⟩
  exact (List.mem_cons.mp hi).symm.imp_right Nat.le_of_eq

theorem putText_sent {print : Printing Unit} {text : List (BitVec 8)}
    (h : Code.Returns print { cells := f.stale } (fun _ b => b.Sends text)) (s : Scan) :
    Code.Returns (f.putText print) s (fun _ t => s.Sent 0 0 (chars text) t) := by
  obtain ⟨_, b, heq, hb⟩ := h
  refine ⟨(), { s with body := s.body ++ b.sent.map Piece.char }, ?_,
    ⟨rfl, fun _ hi => Or.inl hi, rfl⟩, ?_⟩
  · rw [putText, heq]
  · rw [chars, hb.sent]

/-- The loop of `%s` sends the string up to its end. -/
theorem putString_sent {n turns : Nat} {v : Ptr} (hend : f.mem (v + BitVec.ofNat 64 n) = 0#8)
    (hturns : n < turns) (s : Scan) :
    Code.Returns (f.putString turns v) s
      (fun _ t => s.Sent 0 0 (chars (charsAt f.mem v n)) t) := by
  have hdone : s.Sent 0 0 [] s := ⟨⟨rfl, fun _ hi => Or.inl hi, rfl⟩, (List.append_nil _).symm⟩
  induction n generalizing turns v s with
  | zero =>
      obtain ⟨turns, rfl⟩ := exists_turn hturns
      rw [BitVec.add_zero] at hend
      rw [putString, if_pos hend, Code.returns_pure]
      exact hdone
  | succ n ih =>
      obtain ⟨turns, rfl⟩ := exists_turn hturns
      rw [putString, charsAt]
      split
      · exact Code.returns_pure.mpr hdone
      · rw [← succ_offset] at hend
        refine (put_sent _ s).bind (fun _ t ht => ?_)
        refine (ih hend (Nat.lt_of_succ_lt_succ hturns) t
          ⟨⟨rfl, fun _ hi => Or.inl hi, rfl⟩, (List.append_nil _).symm⟩).mono (fun _ u hu => ?_)
        exact ht.trans hu

/-- A case that takes an argument. -/
theorem argument_sent {k : BitVec 64 → Scanning Unit} {ps : List Piece} (s : Scan)
    (hk : ∀ t, Code.Returns (k (f.args s.taken)) t (fun _ u => t.Sent 0 0 ps u)) :
    Code.Returns (f.vaArg >>= k) s (fun _ u => s.Sent 0 1 ps u) := by
  have hvalue : Code.Returns f.vaArg s (fun v t => v = f.args s.taken ∧ s.Sent 0 1 [] t) :=
    Code.returns_access.mpr ⟨rfl, ⟨rfl, fun _ hi => Or.inl hi, rfl⟩, (List.append_nil _).symm⟩
  refine hvalue.bind ?_
  rintro _ t ⟨rfl, ht⟩
  exact (hk t).mono (fun _ u hu => ht.trans hu)

variable {f} {s : Scan} {turns : Nat} {c : BitVec 8}

/-- The character is where the format is, as an unknown one is read there again. -/
theorem conversion_sent (hc : c ≠ ascii 'l') (hplace : f.fmt s.p = c)
    (h : f.Enough turns { long := 0, conv := c } (f.args s.taken)) :
    Code.Returns (f.conversion turns c) s (fun _ t =>
      s.Sent 0 (argsOf { long := 0, conv := c }) (f.pieces { long := 0, conv := c }
        (f.args s.taken)) t) := by
  have hnumbers := h.numbers
  have hhex : ∀ (v : BitVec 64) (uppercase : Bool) (t : Scan),
      Code.Returns (f.putText (serialWriteHex turns v uppercase)) t
        (fun _ u => t.Sent 0 0 (chars (numeral 16 (hexDigit uppercase) v.toNat)) u) := by
    intro v uppercase t
    have hturns : 17 ≤ turns := by omega
    exact f.putText_sent (serialWriteHex_returns f.stale v uppercase hturns) t
  unfold conversion pieces
  refine sent_ite (fun hint => ?_) (fun hint => sent_ite (fun huint => ?_) (fun huint =>
    sent_ite (fun hoctal => ?_) (fun hoctal => sent_ite (fun hlower => ?_) (fun hlower =>
      sent_ite (fun hupper => ?_) (fun hupper => sent_ite (fun hchar => ?_) (fun hchar =>
        sent_ite (fun hstring => ?_) (fun hstring => sent_ite (fun hpointer => ?_)
          (fun hpointer => ?_))))))))
  · have htakes : argsOf { long := 0, conv := c } = 1 := by
      rcases hint with rfl | rfl
      · decide
      · decide
    rw [htakes]
    exact f.argument_sent s (fun t => put_sent _ t)
  · subst huint
    exact f.argument_sent s
      (fun t => f.putText_sent (serialWriteUint_returns f.stale _ hnumbers) t)
  · subst hoctal
    exact f.argument_sent s
      (fun t => f.putText_sent (serialWriteOctal_returns f.stale _ hnumbers) t)
  · subst hlower
    exact f.argument_sent s (hhex _ _)
  · subst hupper
    exact f.argument_sent s (hhex _ _)
  · subst hchar
    exact f.argument_sent s (fun t => put_sent _ t)
  · subst hstring
    obtain ⟨n, hn, hend⟩ := h.string rfl
    have hwrap : BitVec.ofNat 64 (n % 2 ^ 64) = BitVec.ofNat 64 n := by
      apply BitVec.eq_of_toNat_eq
      simp
    have hlt := Nat.mod_lt n (Nat.two_pow_pos 64)
    have hle := Nat.mod_le n (2 ^ 64)
    rw [← hwrap] at hend
    rw [charsAt_of_end hend hlt]
    exact f.argument_sent s (fun t => f.putString_sent hend (by omega) t)
  · subst hpointer
    exact f.argument_sent s (hhex _ _)
  · rw [if_neg hc]
    refine sent_ite (fun hpercent => ?_) (fun hpercent => ?_)
    · subst hpercent
      exact put_sent _ s
    · -- nothing that is known; the two characters are sent as they are
      have hnone : argsOf { long := 0, conv := c } = 0 := by
        refine if_neg ?_
        rw [not_or] at hint
        simp [Directive.Takes, hint, huint, hoctal, hlower, hupper, hchar, hstring, hpointer]
      rw [hnone]
      refine (put_sent _ s).bind (fun _ t ht => (f.read_sent t).bind ?_)
      rintro _ u ⟨rfl, hu⟩
      refine (put_sent _ u).mono (fun _ v hv => ?_)
      rw [ht.p, Nat.add_zero, hplace] at hv
      exact ht.trans (hu.trans hv)

/-- One `l` and a character, which are skipped. -/
theorem longConversion_one_sent (hc : f.fmt (s.p + 1) ≠ ascii 'l') :
    Code.Returns (f.longConversion turns) s (fun _ t => s.Sent 1 0 [] t) := by
  refine (nextChar_sent s).bind (fun _ t ht => (f.read_sent t).bind ?_)
  rintro _ u ⟨rfl, hu⟩
  rw [ht.p, if_neg hc]
  exact Code.returns_pure.mpr (ht.trans hu)

/-- Two `l` and the character behind them. -/
theorem longConversion_two_sent (hl : f.fmt (s.p + 1) = ascii 'l') (hc : f.fmt (s.p + 2) = c)
    (hnumbers : 33 ≤ turns) :
    Code.Returns (f.longConversion turns) s (fun _ t =>
      s.Sent 2 (argsOf { long := 2, conv := c }) (f.pieces { long := 2, conv := c }
        (f.args s.taken)) t) := by
  refine (nextChar_sent s).bind (fun _ t ht => (f.read_sent t).bind ?_)
  rintro _ u ⟨rfl, hu⟩
  rw [ht.p, if_pos hl]
  refine (nextChar_sent u).bind (fun _ w hw => (f.read_sent w).bind ?_)
  rintro _ x ⟨rfl, hx⟩
  have hsofar : s.Sent 2 0 [] x := ht.trans (hu.trans (hw.trans hx))
  have hplace : w.p = s.p + 2 := hx.p.symm.trans hsofar.p
  have htaken : x.taken = s.taken := hsofar.taken
  rw [hplace, hc, ← htaken]
  have hrest : ∀ {args ps} (q : Scanning Unit),
      Code.Returns q x (fun _ y => x.Sent 0 args ps y) →
        Code.Returns q x (fun _ y => s.Sent 2 args ps y) := by
    intro args ps q hq
    rw [← Nat.zero_add args]
    exact hq.mono (fun _ y hy => hsofar.trans hy)
  have hpieces : f.pieces { long := 2, conv := c } (f.args x.taken) =
      if c = ascii 'u' then chars (numeral 10 decimalDigit (f.args x.taken).toNat)
      else if c = ascii 'd' then chars (lldText (f.args x.taken)) else [] := rfl
  rw [hpieces]
  refine sent_ite (fun huint => ?_) (fun huint => sent_ite (fun hint => ?_) (fun hint => ?_))
  · subst huint
    exact hrest _ (f.argument_sent x
      (fun y => f.putText_sent (writeLlu_returns f.stale _ hnumbers) y))
  · subst hint
    exact hrest _ (f.argument_sent x
      (fun y => f.putText_sent (writeLld_returns f.stale _ hnumbers) y))
  · have hnone : argsOf { long := 2, conv := c } = 0 := by
      refine if_neg ?_
      simp [Directive.Takes, huint, hint]
    rw [hnone]
    exact Code.returns_pure.mpr hsofar

theorem formatChar_char_sent (hc : f.fmt s.p ≠ ascii '%') :
    Code.Returns (f.formatChar turns) s (fun _ t => s.Sent 0 0 [.char (f.fmt s.p)] t) := by
  refine (f.read_sent s).bind ?_
  rintro _ t ⟨rfl, ht⟩
  rw [if_neg hc]
  refine (f.read_sent t).bind ?_
  rintro _ u ⟨rfl, hu⟩
  rw [ht.p, Nat.add_zero]
  exact (put_sent _ u).mono (fun _ v hv => ht.trans (hu.trans hv))

theorem formatChar_directive_sent {long : Nat} (hlong : long ≤ 2)
    (hc : long < 2 → c ≠ ascii 'l') (hpercent : f.fmt s.p = ascii '%')
    (hl : ∀ j < long, f.fmt (s.p + 1 + j) = ascii 'l') (hconv : f.fmt (s.p + 1 + long) = c)
    (h : f.Enough turns { long := long, conv := c } (f.args s.taken)) :
    Code.Returns (f.formatChar turns) s (fun _ t =>
      s.Sent (1 + long) (argsOf { long := long, conv := c })
        (f.pieces { long := long, conv := c } (f.args s.taken)) t) := by
  refine (f.read_sent s).bind ?_
  rintro _ t ⟨rfl, ht⟩
  rw [if_pos hpercent]
  refine (nextChar_sent t).bind (fun _ u hu => (f.read_sent u).bind ?_)
  rintro _ v ⟨rfl, hv⟩
  have hsofar : s.Sent 1 0 [] v := ht.trans (hu.trans hv)
  have hplace : u.p = s.p + 1 := hv.p.symm.trans hsofar.p
  have htaken : v.taken = s.taken := hsofar.taken
  rw [hplace, ← htaken]
  rw [← htaken] at h
  have hrest : ∀ {steps args ps} (q : Scanning Unit),
      Code.Returns q v (fun _ y => v.Sent steps args ps y) →
        Code.Returns q v (fun _ y => s.Sent (1 + steps) args ps y) := by
    intro steps args ps q hq
    rw [← Nat.zero_add args]
    exact hq.mono (fun _ y hy => hsofar.trans hy)
  match long with
  | 0 =>
      rw [Nat.add_zero] at hconv
      rw [hconv]
      exact hrest _ (conversion_sent (hc (by decide)) (by rw [hsofar.p, hconv]) h)
  | 1 =>
      have hnone : argsOf { long := 1, conv := c } = 0 := by
        simp [argsOf, Directive.Takes]
      have hskip : f.fmt (v.p + 1) ≠ ascii 'l' := by
        rw [hsofar.p, hconv]
        exact hc (by decide)
      have hfirst : f.fmt (s.p + 1) = ascii 'l' := hl 0 (by decide)
      rw [hfirst, conversion_long, hnone]
      exact hrest _ (longConversion_one_sent hskip)
  | 2 =>
      have hfirst : f.fmt (s.p + 1) = ascii 'l' := hl 0 (by decide)
      have hsecond : f.fmt (v.p + 1) = ascii 'l' := by
        rw [hsofar.p]
        exact hl 1 (by decide)
      rw [hfirst, conversion_long]
      exact hrest _ (longConversion_two_sent hsecond (by rw [hsofar.p, ← hconv]) h.numbers)

/-- A turn of the loop that finds a character or a directive. -/
theorem formatLoop_turn_sent {n steps args : Nat} {ps : List Piece} (hc : f.fmt s.p ≠ 0#8)
    (hchar : ∀ t, s.Sent 0 0 [] t →
      Code.Returns (f.formatChar turns) t (fun _ u => t.Sent steps args ps u)) :
    ∃ v, s.Sent (steps + 1) args ps v ∧ f.formatLoop turns (n + 1) s = f.formatLoop turns n v := by
  obtain ⟨_, t, hread, rfl, ht⟩ := f.read_sent s
  obtain ⟨_, u, hbody, hu⟩ := hchar t ht
  obtain ⟨_, v, hnext, hv⟩ := nextChar_sent u
  have hsent := ht.trans (hu.trans hv)
  rw [Nat.zero_add, Nat.zero_add, List.nil_append, List.append_nil] at hsent
  refine ⟨v, hsent, ?_⟩
  rw [formatLoop, Code.bind_apply, hread, Option.bind_some]
  dsimp only
  rw [if_neg hc, Code.bind_apply, hbody, Option.bind_some, Code.bind_apply, hnext,
    Option.bind_some]

/-- A whole format sends its pieces. -/
theorem At.formatLoop_sent {l : List (BitVec 8)} {n : Nat} (hparse : FormatParse l)
    (hat : f.At s.p l) (hchars : ∀ c ∈ l, c ≠ 0#8) (hwhole : Whole l) (hnumbers : 33 ≤ turns)
    (hargs : f.Supplied turns s.taken l) (hn : l.length < n) :
    Code.Returns (f.formatLoop turns n) s
      (fun _ t => t.body = s.body ++ f.piecesFrom .text s.taken l) := by
  induction hparse generalizing s n with
  | nil =>
      obtain ⟨n, rfl⟩ := exists_turn hn
      refine (f.read_sent s).bind ?_
      rintro _ t ⟨rfl, ht⟩
      rw [if_pos hat.end, Code.returns_pure]
      exact ht.body
  | @char c l hc _ ih =>
      obtain ⟨n, rfl⟩ := exists_turn hn
      have hhead : f.fmt s.p = c := hat.head
      have hturn : ∀ t, s.Sent 0 0 [] t →
          Code.Returns (f.formatChar turns) t (fun _ u => t.Sent 0 0 [.char c] u) := by
        intro t ht
        have hp : t.p = s.p := ht.p
        rw [← hhead, ← hp]
        exact formatChar_char_sent (by rw [hp, hhead]; exact hc)
      have hne : f.fmt s.p ≠ 0#8 := by
        rw [hhead]
        exact hchars c List.mem_cons_self
      obtain ⟨v, hv, heq⟩ := formatLoop_turn_sent (n := n) hne hturn
      have htaken : v.taken = s.taken := hv.taken
      have hloop := ih (s := v) (n := n) (by rw [hv.p]; exact hat.tail)
        (fun d hd => hchars d (List.mem_cons_of_mem _ hd)) ((whole_char_iff hc).mp hwhole)
        (fun k d hk => by
          rw [htaken]
          exact hargs k d (by rwa [conversions_char hc]))
        (Nat.lt_of_succ_lt_succ hn)
      refine (hloop.congr heq).mono (fun _ t ht => ?_)
      rw [ht, hv.body, htaken, piecesFrom_char hc, List.append_assoc, List.singleton_append]
  | @directive long c l hlong hc _ ih =>
      obtain ⟨n, rfl⟩ := exists_turn hn
      obtain ⟨hl, hlast⟩ := hat.tail.longs
      have henough := Supplied.first hlong hc hnumbers hargs
      have hturn : ∀ t, s.Sent 0 0 [] t → Code.Returns (f.formatChar turns) t (fun _ u =>
          t.Sent (1 + long) (argsOf { long := long, conv := c })
            (f.pieces { long := long, conv := c } (f.args s.taken)) u) := by
        intro t ht
        have hp : t.p = s.p := ht.p
        have htaken : t.taken = s.taken := ht.taken
        rw [← htaken] at henough ⊢
        exact formatChar_directive_sent hlong hc (by rw [hp]; exact hat.head)
          (by rw [hp]; exact hl) (by rw [hp]; exact hlast.head) henough
      obtain ⟨v, hv, heq⟩ := formatLoop_turn_sent (n := n) (by rw [hat.head]; decide) hturn
      rw [length_directive] at hn
      have hloop := ih (s := v) (n := n)
        (by
          rw [hv.p, ← Nat.add_assoc, ← Nat.add_assoc]
          exact hlast.tail)
        (fun d hd => hchars d (by simp [hd])) ((whole_directive_iff hlong hc).mp hwhole)
        (by
          rw [hv.taken]
          exact Supplied.rest hlong hc hargs)
        (by omega)
      refine (hloop.congr heq).mono (fun _ t ht => ?_)
      rw [ht, hv.body, hv.taken, piecesFrom_directive hlong hc, List.append_assoc]
  | cut hlong => exact absurd hwhole (not_whole_cut hlong)

end FormatCall

/-! ### Call after call -/

/-- A call on the state of the port, with no interrupt. -/
def FormatCall.log (f : FormatCall) (turns : Nat) : Code Serial Unit :=
  fun s => (f.serialFwrite turns {}).map (fun r => ((), (r.1.alone s).2))

def logCalls (turns : Nat) : List FormatCall → Code Serial Unit
  | [] => pure ()
  | f :: fs => do
      f.log turns
      logCalls turns fs

/-- The format and its arguments are as the call expects them. A pointer of sixteen digits runs
over the buffer it is written to. -/
structure FormatCall.Sound (f : FormatCall) (s : List (BitVec 8)) : Prop
    extends f.Matches s where
  whole : Whole s
  pointers : ∀ k, (conversions s)[k]? = some { long := 0, conv := ascii 'p' } →
    (f.args k).toNat < 2 ^ 60

/-- The lines of calls, the first of which takes the number `id`. -/
def transcript : BitVec 32 → List (FormatCall × List (BitVec 8)) → List (BitVec 8)
  | _, [] => []
  | id, (f, s) :: calls => callText id (f.piecesFrom .text 0 s) ++ transcript (id + 1#32) calls

theorem serialFwrite_sends (body : List Piece) {s : Serial} (hok : s.i2s.Ok) :
    ((serialFwrite body).alone s).2.i2s.Ok ∧
      ((serialFwrite body).alone s).2.out = s.out ++ callText s.logId body := by
  obtain ⟨hcache, hsent⟩ := (Harmless.idle.serialFwrite body).alone
    (show Sent I2s.Ok s.out s from ⟨hok, rfl⟩)
  have hid : ((serialFwrite body).alone s).1 = s.logId := by rw [serialFwrite_alone]
  rw [hid] at hsent
  exact ⟨hcache, hsent⟩

/-- What a call of a whole format does to the port. -/
theorem FormatCall.log_returns {f : FormatCall} {l : List (BitVec 8)} (h : f.Matches l)
    (hwhole : Whole l) {turns : Nat} (hturns : 2 ^ 64 + 33 + l.length ≤ turns) {s : Serial}
    (hok : s.i2s.Ok) :
    Code.Returns (f.log turns) s (fun _ t => t.i2s.Ok ∧ t.logId = s.logId + 1#32 ∧
      t.out = s.out ++ callText s.logId (f.piecesFrom .text 0 l)) := by
  have hnumbers : 33 ≤ turns := by omega
  have hstrings : 2 ^ 64 + 33 ≤ turns := by omega
  have hlong : l.length < turns := by omega
  obtain ⟨_, t, hloop, hbody⟩ := At.formatLoop_sent (s := {}) (formatParse l) h.at h.chars hwhole
    hnumbers (h.supplied hstrings) hlong
  have hpieces : t.body = f.piecesFrom .text 0 l := hbody
  obtain ⟨hcache, hout⟩ := serialFwrite_sends (f.piecesFrom .text 0 l) hok
  refine ⟨(), _, ?_, hcache, logId_serialFwrite _ s, hout⟩
  rw [FormatCall.log, FormatCall.serialFwrite, Code.bind_apply, hloop, ← hpieces]
  rfl

theorem exists_bound_logCalls (calls : List (FormatCall × List (BitVec 8))) :
    ∃ bound, ∀ c ∈ calls, c.2.length ≤ bound := by
  induction calls with
  | nil => exact ⟨0, fun _ hc => absurd hc List.not_mem_nil⟩
  | cons c calls ih =>
      obtain ⟨bound, hbound⟩ := ih
      refine ⟨max c.2.length bound, List.forall_mem_cons.mpr ⟨Nat.le_max_left _ _, ?_⟩⟩
      exact fun d hd => Nat.le_trans (hbound d hd) (Nat.le_max_right _ _)

theorem logCalls_returns {calls : List (FormatCall × List (BitVec 8))} {turns : Nat}
    (h : ∀ c ∈ calls, c.1.Sound c.2 ∧ 2 ^ 64 + 33 + c.2.length ≤ turns) {s : Serial}
    (hok : s.i2s.Ok) :
    Code.Returns (logCalls turns (calls.map Prod.fst)) s (fun _ t =>
      t.i2s.Ok ∧ t.logId = s.logId + BitVec.ofNat 32 calls.length ∧
        t.out = s.out ++ transcript s.logId calls) := by
  induction calls generalizing s with
  | nil =>
      refine Code.returns_pure.mpr ⟨hok, ?_, ?_⟩
      · exact (BitVec.add_zero _).symm
      · exact (List.append_nil _).symm
  | cons c calls ih =>
      obtain ⟨hsound, hturns⟩ := h c List.mem_cons_self
      refine (FormatCall.log_returns hsound.toMatches hsound.whole hturns hok).bind ?_
      rintro _ t ⟨hcache, hid, hout⟩
      refine (ih (fun d hd => h d (List.mem_cons_of_mem c hd)) hcache).mono ?_
      rintro _ u ⟨hcache', hid', hout'⟩
      refine ⟨hcache', ?_, ?_⟩
      · rw [hid', hid, BitVec.add_assoc, ← BitVec.ofNat_add, List.length_cons, Nat.add_comm 1]
      · rw [hout', hout, hid, transcript, List.append_assoc]

/-- A run of calls of whole formats ends with each call's line sent, one after the other, under
ids that count up; and no pointer has run over its buffer. -/
theorem log_transcript {calls : List (FormatCall × List (BitVec 8))}
    (h : ∀ c ∈ calls, c.1.Sound c.2) {s : Serial} (hok : s.i2s.Ok) :
    Code.Terminates (fun turns => logCalls turns (calls.map Prod.fst)) s (fun _ t =>
        t.i2s.Ok ∧ t.logId = s.logId + BitVec.ofNat 32 calls.length ∧
          t.out = s.out ++ transcript s.logId calls) ∧
      ∀ c ∈ calls, ∀ k, (conversions c.2)[k]? = some { long := 0, conv := ascii 'p' } →
        HexExact c.1.stale (c.1.args k) false := by
  constructor
  · obtain ⟨bound, hbound⟩ := exists_bound_logCalls calls
    refine ⟨2 ^ 64 + 33 + bound, fun turns hturns => logCalls_returns (fun c hc => ?_) hok⟩
    have hlength := hbound c hc
    exact ⟨h c hc, by omega⟩
  · intro c hc k hk
    have hvalue := (h c hc).pointers k hk
    refine ⟨17, fun turns hturns => ?_⟩
    have hlength : (numeral 16 (hexDigit false) (c.1.args k).toNat).length ≤ 15 :=
      (numeral_length_le_iff (by decide) _ (by decide)).mpr (by omega)
    refine (serialWriteHex_returns c.1.stale (c.1.args k) false hturns).mono (fun _ b hb => ?_)
    refine ⟨fun i hi => ?_, ?_⟩
    · have hle := (hb.stores i).mp hi
      omega
    · rw [hb.sent]
      exact isNumeral_numeral (hexValue_hexDigit false) (by decide) _

namespace Sample

/-- `Frame %p, %ld%% %s`, where nothing comes of `%ld`, and a format of one conversion. -/
def twoLines : List (FormatCall × List (BitVec 8)) :=
  [({ callWith (['%', 'p', ' ', '%', 'l', 'd', '%', '%', ' ', '%', 's'].map ascii) with
        args := fun k => if k = 0 then 0x1000#64 else 0x2000#64
        mem := loaded [(0x2000#64, ['o', 'k'].map ascii)] },
      ['%', 'p', ' ', '%', 'l', 'd', '%', '%', ' ', '%', 's'].map ascii),
    ({ callWith (['%', 'd'].map ascii) with args := fun _ => 0xFFFFFFFFFFFFFFFB#64 },
      ['%', 'd'].map ascii)]

theorem twoLines_sound : ∀ c ∈ twoLines, c.1.Sound c.2 := by
  refine List.forall_mem_cons.mpr ⟨⟨⟨by decide, (callWith_matches (by decide)).cells, ?_⟩,
    by decide, ?_⟩, List.forall_mem_singleton.mpr ⟨⟨by decide,
      (callWith_matches (by decide)).cells, fun _ _ => ⟨0, rfl⟩⟩, by decide, ?_⟩⟩
  · intro k _
    by_cases hk : k = 0
    · exact ⟨0, by simp only [hk]; decide⟩
    · exact ⟨2, by simp only [if_neg hk]; decide⟩
  · intro k _
    change (if k = 0 then 0x1000#64 else 0x2000#64).toNat < 2 ^ 60
    split
    · decide
    · decide
  · intro k hk
    have hconversions : conversions (['%', 'd'].map ascii) =
        [{ long := 0, conv := ascii 'd' }] := by decide
    rw [hconversions] at hk
    cases k with
    | zero => exact absurd hk (by decide)
    | succ k => cases hk

end Sample

theorem log_transcript_twoLines :
    Code.Terminates (fun turns => logCalls turns (Sample.twoLines.map Prod.fst)) Serial.start
      (fun _ t => t.out = ("[0000] 1000 % ok\n[0001] 00-5\n".toList).map ascii) := by
  have htext : transcript 0#32 Sample.twoLines =
      ("[0000] 1000 % ok\n[0001] 00-5\n".toList).map ascii := by decide +kernel
  refine (log_transcript Sample.twoLines_sound Serial.start_ok).1.mono (fun _ t ht => ?_)
  rw [ht.2.2, ← htext]
  rfl

end Asnu
