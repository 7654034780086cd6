import Asnu.CString.Find

/-!
`strtok`: each call skips what is in its delimiter string, ends what comes next with a
zero, and keeps the place behind it for the call after.
-/

namespace Asnu

open Lib Lib.Code

structure Strtok extends Reading where
  /-- The static variable of `strtok`. -/
  next : Ptr

namespace Strtok

def reading {α : Type} (q : Code Reading α) : Code Strtok α :=
  focus Strtok.toReading (fun s r => { s with toReading := r }) q

def setNext (p : Ptr) : Code Strtok Unit := access (fun s => ((), { s with next := p }))

def putChar (p : Ptr) (c : BitVec 8) : Code Strtok Unit :=
  access (fun s => ((), { s with mem := s.mem.poke p c }))

/-- The first two lines: the place to go on at, or the given string. -/
def begin (str : Ptr) : Code Strtok Ptr :=
  access (fun s =>
    let next := if str = NULL then s.next else str
    (next, { s with next := next }))

end Strtok

open Strtok

/-- Either loop of `strtok`: on over the characters that are in the delimiter string, or over
those that are not. -/
def scanWhile (turns : Nat) (delim : Ptr) (wanted : Bool) : Nat → Ptr → Code Reading Ptr
  | 0, _ => giveUp
  | k + 1, p => do
      let here ← peek p
      if here = 0#8 then pure p
      else
        let c ← peek p
        let found ← strchr turns delim (c.signExtend 32)
        if (found != NULL) = wanted then scanWhile turns delim wanted k (p + 1) else pure p

def strtok (turns : Nat) (str delim : Ptr) : Code Strtok Ptr := do
  let next ← begin str
  if next = NULL then pure NULL
  else
    let start ← reading (scanWhile turns delim true turns next)
    let c ← reading (peek start)
    if c = 0#8 then
      setNext NULL
      pure NULL
    else
      let fin ← reading (scanWhile turns delim false turns start)
      let c ← reading (peek fin)
      if c = 0#8 then
        setNext NULL
        pure start
      else
        putChar fin 0#8
        setNext (fin + 1)
        pure start

/-- A call with `str`, and after it calls with the null pointer, one for each delimiter
string. -/
def strtokCalls (turns : Nat) (str : Ptr) : List Ptr → Code Strtok (List Ptr)
  | [] => pure []
  | delim :: delims => do
      let token ← strtok turns str delim
      let tokens ← strtokCalls turns NULL delims
      pure (token :: tokens)

/-! ### One call -/

/-- The characters that belong to a token. -/
def kept (delims : List (BitVec 8)) (c : BitVec 8) : Bool := !delims.contains c

/-- The zero that is put behind a token. At the end of the text there is one already. -/
def mark (s : Ptr) (m : Memory) : Option (Nat × Nat) → Memory
  | none => m
  | some r => m.poke (s + BitVec.ofNat 64 r.2) 0#8

/-- The string is still there from place `i` on. -/
structure Left (m : Memory) (s : Ptr) (text : List (BitVec 8)) (i : Nat) : Prop where
  le : i ≤ text.length
  isString : IsString m (s + BitVec.ofNat 64 i) (text.drop i)

section Scan

variable {m : Memory} {s p delim : Ptr} {text rest delims : List (BitVec 8)} {i a : Nat}

/-- `strchr` is true of the characters that are in the string. -/
theorem found_eq (hdelim : IsString m delim delims) (c : BitVec 8) :
    (pointer delim (delims.idxOf? c) != NULL) = delims.contains c := by
  cases hidx : delims.idxOf? c with
  | none =>
      have hnot := List.idxOf?_eq_none_iff.mp hidx
      rw [pointer_none, bne_self_eq_false, eq_comm, ← Bool.not_eq_true, List.contains_iff_mem]
      exact hnot
  | some i =>
      obtain ⟨hi, hget, _⟩ := List.idxOf?_eq_some_iff.mp hidx
      have hmem : delims.contains c = true := List.contains_iff_mem.mpr (hget ▸ List.getElem_mem hi)
      rw [hmem, bne_iff_ne]
      exact hdelim.pointer_ne_null (Nat.le_of_lt hi)

theorem scanWhile_gives (hrest : IsString m p rest) (hdelim : IsString m delim delims)
    (wanted : Bool) {turns k : Nat} (hturns : delims.length < turns) (hk : rest.length < k) :
    Gives m (InEither p delim rest delims) (scanWhile turns delim wanted k p)
      (p + BitVec.ofNat 64 (rest.findIdx (fun c => !(delims.contains c == wanted)))) := by
  induction hrest generalizing k with
  | @nil p hp hm =>
      obtain ⟨k, rfl⟩ := exists_turn hk
      rw [List.findIdx_nil, BitVec.add_zero]
      exact .peek (Or.inl (IsString.nil hp hm).inString_self) hm (.ite_pos rfl (.pure _ _ _))
  | @cons p c cs hp hm hc hrest ih =>
      obtain ⟨k, rfl⟩ := exists_turn hk
      have hhere : InEither p delim (c :: cs) delims p :=
        Or.inl (IsString.cons hp hm hc hrest).inString_self
      have hfound := strchr_gives hdelim (c.signExtend 32) hturns
      rw [setWidth_signExtend] at hfound
      refine .peek hhere hm (.ite_neg hc (.peek hhere hm ?_))
      refine (hfound.mono (fun _ => Or.inr)).bind ?_
      rw [found_eq hdelim, List.findIdx_cons]
      by_cases hin : delims.contains c = wanted
      · rw [beq_iff_eq.mpr hin, Bool.not_true, cond_false, ← succ_offset]
        refine .ite_pos hin ((ih (Nat.lt_of_succ_lt_succ hk)).mono (fun _ hx => ?_))
        exact hx.imp_left inString_cons
      · rw [beq_eq_false_iff_ne.mpr hin, Bool.not_false, cond_true, BitVec.add_zero]
        exact .ite_neg hin (.pure _ _ _)

theorem Left.zero (h : IsString m s text) : Left m s text 0 := by
  refine ⟨Nat.zero_le _, ?_⟩
  rw [BitVec.add_zero, List.drop_zero]
  exact h

theorem Left.later (h : Left m s text i) (hia : i ≤ a) (ha : a ≤ text.length) :
    Left m s text a := by
  obtain ⟨n, rfl⟩ := Nat.exists_eq_add_of_le hia
  have hdrop := h.isString.drop (i := n) (by rw [List.length_drop]; omega)
  rw [offset_offset, List.drop_drop] at hdrop
  exact ⟨ha, hdrop⟩

/-- The string ends at its terminator only. -/
theorem Left.zero_iff (h : Left m s text i) :
    m (s + BitVec.ofNat 64 i) = 0#8 ↔ text.length ≤ i := by
  rw [← List.drop_eq_nil_iff]
  obtain ⟨_, hstring⟩ := h
  cases hdrop : text.drop i with
  | nil =>
      rw [hdrop] at hstring
      cases hstring with
      | nil _ hzero => exact iff_of_true hzero rfl
  | cons c cs =>
      rw [hdrop] at hstring
      cases hstring with
      | cons _ hchar hne _ => exact iff_of_false (hchar ▸ hne) (List.cons_ne_nil _ _)

theorem Left.inString {x : Ptr} (h : Left m s text i)
    (hx : InString (s + BitVec.ofNat 64 i) (text.drop i) x) : InString s text x := by
  refine inRange_offset hx ?_
  have hle := h.le
  rw [List.length_drop]
  omega

theorem Left.scan (h : Left m s text i) (hdelim : IsString m delim delims) (wanted : Bool)
    {turns : Nat} (htext : text.length < turns) (hturns : delims.length < turns) :
    Gives m (InEither s delim text delims)
      (scanWhile turns delim wanted turns (s + BitVec.ofNat 64 i))
      (s + BitVec.ofNat 64 (scanTo (fun c => delims.contains c == wanted) text i)) := by
  have hscan := scanWhile_gives h.isString hdelim wanted hturns (k := turns)
    (by rw [List.length_drop]; omega)
  rw [offset_offset] at hscan
  exact hscan.mono (fun _ hx => hx.imp_left h.inString)

theorem skipped_eq (delims : List (BitVec 8)) :
    (fun c => delims.contains c == true) = (fun c => !kept delims c) := by
  funext c
  rw [kept, Bool.not_not, beq_true]

theorem kept_eq (delims : List (BitVec 8)) :
    (fun c => delims.contains c == false) = kept delims := by
  funext c
  rw [kept, beq_false]

end Scan

/-- What a call does: the next token is ended and returned, and the place behind it kept. -/
structure Cuts (s delim : Ptr) (text delims : List (BitVec 8)) (place : Option Nat)
    (st : Strtok) (r : Ptr) (t : Strtok) : Prop where
  token : r = pointer s ((cut text (kept delims) place).1.map Prod.fst)
  next : t.next = pointer s (cut text (kept delims) place).2
  mem : t.mem = mark s st.mem (cut text (kept delims) place).1
  reads : ∀ x ∈ t.reads, x ∈ st.reads ∨ InEither s delim text delims x

section Call

variable {s str delim : Ptr} {text delims : List (BitVec 8)} {place : Option Nat} {turns : Nat}

/-- Where there is a zero already, the mark changes nothing. -/
theorem mark_of_zero {m : Memory} (a : Nat) {b : Nat} (hzero : m (s + BitVec.ofNat 64 b) = 0#8) :
    mark s m (some (a, b)) = m := by
  funext x
  rw [mark, Memory.poke]
  split
  · next hx => rw [hx, hzero]
  · rfl

/-- The rule for the parts of a call that only read. -/
theorem returns_reading {α β : Type} {m : Memory} {P : Ptr → Prop} {q : Code Reading α} {a : α}
    {f : α → Code Strtok β} {st : Strtok} {Q : β → Strtok → Prop} (hq : Gives m P q a)
    (hm : st.mem = m)
    (hf : ∀ t : Strtok, Reads P st.toReading t.toReading → t.mem = m → Returns (f a) t Q) :
    Returns (reading q >>= f) st Q :=
  hq.focus_bind hm (fun t hread => hf { st with toReading := t } hread (hread.mem.trans hm))

theorem Left.peek {m : Memory} {i : Nat} (h : Left m s text i) (delim : Ptr)
    (delims : List (BitVec 8)) :
    Gives m (InEither s delim text delims) (peek (s + BitVec.ofNat 64 i))
      (m (s + BitVec.ofNat 64 i)) :=
  .of_peek (Or.inl (h.inString h.isString.inString_self))

/-- One call, wherever the delimiter string stands. -/
theorem strtok_returns {st : Strtok}
    (hstart : (if str = NULL then st.next else str) = pointer s place)
    (hleft : ∀ i ∈ place, Left st.mem s text i) (hdelim : IsString st.mem delim delims)
    (htext : text.length < turns) (hturns : delims.length < turns) :
    Returns (strtok turns str delim) st (Cuts s delim text delims place st) := by
  refine returns_bind.mpr (returns_access.mpr ?_)
  simp only [hstart]
  cases place with
  | none => exact returns_pure.mpr ⟨rfl, rfl, rfl, fun x hx => Or.inl hx⟩
  | some i =>
      have hi := hleft i rfl
      have hscan := hi.scan hdelim true htext hturns
      rw [skipped_eq] at hscan
      rw [pointer_some, if_neg hi.isString.ne_null]
      refine returns_reading hscan rfl (fun t₁ hread₁ hm₁ => ?_)
      have ha := scanTo_le (p := fun c => !kept delims c) hi.le
      have hstartLeft := hi.later (le_scanTo (fun c => !kept delims c) text i) ha
      refine returns_reading (hstartLeft.peek delim delims) hm₁ (fun t₂ hread₂ hm₂ => ?_)
      have hread := hread₁.trans hread₂
      rcases cut_cases (kept delims) text i with ⟨hcut, hnone⟩ | ⟨a, b, rfl, rfl, hlt, hcut⟩
      · rw [if_pos (hstartLeft.zero_iff.mpr hnone)]
        refine returns_bind.mpr (returns_access.mpr (returns_pure.mpr ?_))
        refine ⟨by rw [hcut]; rfl, by rw [hcut]; rfl, ?_, hread.reads⟩
        rw [hcut]
        exact hm₂
      · rw [if_neg (fun hz => Nat.not_le_of_lt hlt (hstartLeft.zero_iff.mp hz))]
        have hscan' := hstartLeft.scan hdelim false htext hturns
        rw [kept_eq] at hscan'
        refine returns_reading hscan' hm₂ (fun t₃ hread₃ hm₃ => ?_)
        have hendLeft := hstartLeft.later (le_scanTo (kept delims) text _) (scanTo_le ha)
        refine returns_reading (hendLeft.peek delim delims) hm₃ (fun t₄ hread₄ hm₄ => ?_)
        have hread := (hread.trans hread₃).trans hread₄
        by_cases hend : scanTo (kept delims) text (scanTo (fun c => !kept delims c) text i) <
            text.length
        · rw [if_pos hend] at hcut
          rw [if_neg (fun hz => Nat.not_le_of_lt hend (hendLeft.zero_iff.mp hz))]
          refine returns_bind.mpr (returns_access.mpr ?_)
          refine returns_bind.mpr (returns_access.mpr (returns_pure.mpr ?_))
          refine ⟨by rw [hcut]; rfl, ?_, ?_, hread.reads⟩
          · rw [hcut]
            exact offset_offset s _ 1
          · rw [hcut]
            exact congrArg (fun m => Memory.poke m _ 0#8) hm₄
        · rw [if_neg hend] at hcut
          have hzero := hendLeft.zero_iff.mpr (Nat.le_of_not_lt hend)
          rw [if_pos hzero]
          refine returns_bind.mpr (returns_access.mpr (returns_pure.mpr ?_))
          refine ⟨by rw [hcut]; rfl, by rw [hcut]; rfl, ?_, hread.reads⟩
          rw [hcut, mark_of_zero _ hzero]
          exact hm₄

end Call

/-! ### All calls -/

/-- The memory after the calls that found these parts. -/
def marks (s : Ptr) (m : Memory) (parts : List (Option (Nat × Nat))) : Memory :=
  parts.foldl (mark s) m

/-- At the time of its call each delimiter string has these characters. -/
def Delimited (s : Ptr) (text : List (BitVec 8)) :
    Memory → Option Nat → List (Ptr × List (BitVec 8)) → Prop
  | _, _, [] => True
  | m, place, d :: ds =>
      IsString m d.1 d.2 ∧
        Delimited s text (mark s m (cut text (kept d.2) place).1) (cut text (kept d.2) place).2 ds

/-- The parts that the calls cut off. -/
def tokens (text : List (BitVec 8)) (place : Option Nat) (calls : List (Ptr × List (BitVec 8))) :
    List (Option (Nat × Nat)) :=
  cuts text place (calls.map (fun d => kept d.2))

section Calls

variable {m : Memory} {s str : Ptr} {text : List (BitVec 8)} {place : Option Nat}
  {parts : List (Option (Nat × Nat))} {calls : List (Ptr × List (BitVec 8))} {turns : Nat}

/-- Behind the mark the string is still there. -/
theorem left_cut (p : BitVec 8 → Bool) (hleft : ∀ i ∈ place, Left m s text i) :
    ∀ i ∈ (cut text p place).2, Left (mark s m (cut text p place).1) s text i := by
  cases place with
  | none => exact fun i hi => nomatch hi
  | some i =>
      rcases cut_cases p text i with ⟨hcut, _⟩ | ⟨a, b, ha, hb, hlt, hcut⟩
      · rw [hcut]
        exact fun j hj => nomatch hj
      · rw [hcut]
        intro j hj
        dsimp only at hj
        split at hj
        · next hend =>
            obtain rfl : b + 1 = j := Option.some.inj hj
            have hpart := isPart_of_cut ha hb hlt
            have hstart := hpart.start
            have hab := hpart.lt
            have hnext := (hleft i rfl).later (a := b + 1) (by omega) hend
            have hlength := ((hleft i rfl).later (a := b) (by omega) (by omega)).isString.length_lt
            rw [List.length_drop] at hlength
            refine ⟨hend, hnext.isString.congr (fun x hx => Memory.poke_ne m _ ?_)⟩
            rintro rfl
            unfold InString InRange at hx
            rw [List.length_drop] at hx
            bv_omega
        · exact nomatch hj

theorem strtokCalls_returns (st : Strtok)
    (hstart : (if str = NULL then st.next else str) = pointer s place)
    (hleft : ∀ i ∈ place, Left st.mem s text i) (hdelims : Delimited s text st.mem place calls)
    (htext : text.length < turns) (hturns : ∀ d ∈ calls, d.2.length < turns) :
    Returns (strtokCalls turns str (calls.map Prod.fst)) st (fun rs t =>
      rs = (tokens text place calls).map (fun r => pointer s (r.map Prod.fst)) ∧
        t.mem = marks s st.mem (tokens text place calls) ∧
        ∀ x ∈ t.reads, x ∈ st.reads ∨ InString s text x ∨ ∃ d ∈ calls, InString d.1 d.2 x) := by
  induction calls generalizing str place st with
  | nil => exact returns_pure.mpr ⟨rfl, rfl, fun x hx => Or.inl hx⟩
  | cons d ds ih =>
      obtain ⟨hdelim, hrest⟩ := hdelims
      refine returns_bind.mpr ((strtok_returns hstart hleft hdelim htext
        (hturns d List.mem_cons_self)).mono (fun r t ht => ?_))
      have hnext : (if NULL = NULL then t.next else NULL) = _ := (if_pos rfl).trans ht.next
      refine returns_bind.mpr ((ih t hnext ?_ ?_ ?_).mono ?_)
      · rw [ht.mem]
        exact left_cut _ hleft
      · rw [ht.mem]
        exact hrest
      · exact fun e he => hturns e (List.mem_cons_of_mem d he)
      · rintro rs u ⟨rfl, hmem, hreads⟩
        refine returns_pure.mpr ⟨?_, ?_, fun x hx => ?_⟩
        · rw [ht.token]
          rfl
        · rw [hmem, ht.mem]
          rfl
        · rcases hreads x hx with hx | hx | ⟨e, he, hx⟩
          · rcases ht.reads x hx with hx | hx | hx
            · exact Or.inl hx
            · exact Or.inr (Or.inl hx)
            · exact Or.inr (Or.inr ⟨d, List.mem_cons_self, hx⟩)
          · exact Or.inr (Or.inl hx)
          · exact Or.inr (Or.inr ⟨e, List.mem_cons_of_mem d he, hx⟩)

theorem mark_ne {o : Option (Nat × Nat)} {x : Ptr}
    (hx : ∀ r ∈ o, x ≠ s + BitVec.ofNat 64 r.2) : mark s m o x = m x := by
  cases o with
  | none => rfl
  | some r => exact Memory.poke_ne m _ (hx r rfl)

theorem marks_of_zero {x : Ptr} (hx : m x = 0#8) : marks s m parts x = 0#8 := by
  induction parts generalizing m with
  | nil => exact hx
  | cons q qs ih =>
      rw [marks, List.foldl_cons]
      refine ih ?_
      cases q with
      | none => exact hx
      | some r =>
          rw [mark, Memory.poke]
          split
          · rfl
          · exact hx

theorem marks_ne {x : Ptr} (hx : ∀ r, some r ∈ parts → x ≠ s + BitVec.ofNat 64 r.2) :
    marks s m parts x = m x := by
  induction parts generalizing m with
  | nil => rfl
  | cons q qs ih =>
      rw [marks, List.foldl_cons]
      refine (ih (fun r hr => hx r (List.mem_cons_of_mem q hr))).trans (mark_ne ?_)
      rintro r rfl
      exact hx r List.mem_cons_self

theorem marks_end {r : Nat × Nat} (hr : some r ∈ parts) :
    marks s m parts (s + BitVec.ofNat 64 r.2) = 0#8 := by
  induction parts generalizing m with
  | nil => exact absurd hr List.not_mem_nil
  | cons q qs ih =>
      rw [marks, List.foldl_cons]
      rcases List.mem_cons.mp hr with rfl | hr
      · exact marks_of_zero (Memory.poke_self m _ _)
      · exact ih hr

theorem delimited_of_apart (hlength : text.length < 2 ^ 64)
    (hdelims : ∀ d ∈ calls, IsString m d.1 d.2 ∧ ∀ x, InString d.1 d.2 x → ¬ InString s text x) :
    Delimited s text m place calls := by
  induction calls generalizing m place with
  | nil => trivial
  | cons d ds ih =>
      refine ⟨(hdelims d List.mem_cons_self).1, ih (fun e he => ?_)⟩
      obtain ⟨hstring, hapart⟩ := hdelims e (List.mem_cons_of_mem d he)
      refine ⟨hstring.congr (fun x hx => mark_ne (fun r hr => ?_)), hapart⟩
      rintro rfl
      have hle := cut_le hr
      exact hapart _ hx (inRange_add s (by omega) (by omega))

theorem offset_ne {i j : Nat} (hi : i < 2 ^ 64) (hj : j < 2 ^ 64) (hij : i ≠ j) :
    s + BitVec.ofNat 64 i ≠ s + BitVec.ofNat 64 j := by
  bv_omega

/-- In the end each token is a string of its own. -/
theorem isString_token (hs : IsString m s text)
    (hsorted : parts.reduceOption.Pairwise (fun r r' => r.2 < r'.1))
    (hparts : ∀ r ∈ parts.reduceOption, IsPart text 0 r) {r : Nat × Nat} (hr : some r ∈ parts) :
    IsString (marks s m parts) (s + BitVec.ofNat 64 r.1) ((text.drop r.1).take (r.2 - r.1)) := by
  have hpart := hparts r (List.reduceOption_mem_iff.mpr hr)
  have hlt := hpart.lt
  have hle := hpart.le
  have hlength := hs.length_lt
  have hapart := ends_apart hsorted (fun r' hr' => (hparts r' hr').lt)
  have hleft := (Left.zero hs).later (Nat.zero_le r.1) (by omega)
  refine hleft.isString.copied (by rw [List.length_drop]; omega) (fun k hk => ?_)
    (fun k hk => ?_) ?_
  · exact hleft.isString.pointer_ne_null (by rw [List.length_drop]; omega)
  · rw [offset_offset]
    refine marks_ne (fun r' hr' => ?_)
    have hmem := List.reduceOption_mem_iff.mpr hr'
    have hle' := (hparts r' hmem).le
    have hends := hapart (List.reduceOption_mem_iff.mpr hr) hmem
    exact offset_ne (by omega) (by omega) (by omega)
  · rw [offset_offset, Nat.add_sub_cancel' (Nat.le_of_lt hlt)]
    exact marks_end hr

end Calls

/-- What the calls return and leave behind: a pointer to each part, with a zero behind it, and
nothing else changed. -/
structure Splits (m : Memory) (s : Ptr) (text : List (BitVec 8))
    (calls : List (Ptr × List (BitVec 8))) (parts : List (Option (Nat × Nat)))
    (rs : List Ptr) (t : Strtok) : Prop where
  tokens : rs = parts.map (fun r => pointer s (r.map Prod.fst))
  ended : ∀ r, some r ∈ parts →
    IsString t.mem (s + BitVec.ofNat 64 r.1) ((text.drop r.1).take (r.2 - r.1))
  rest : ∀ x, (∀ r, some r ∈ parts → x ≠ s + BitVec.ofNat 64 r.2) → t.mem x = m x
  reads : ∀ x ∈ t.reads, InString s text x ∨ ∃ d ∈ calls, InString d.1 d.2 x

section Splits

variable {m : Memory} {s : Ptr} {text : List (BitVec 8)}

theorem exists_bound (calls : List (Ptr × List (BitVec 8))) :
    ∃ bound, ∀ d ∈ calls, d.2.length < bound := by
  induction calls with
  | nil => exact ⟨0, fun d hd => nomatch hd⟩
  | cons d ds ih =>
      obtain ⟨bound, hbound⟩ := ih
      refine ⟨max bound (d.2.length + 1), fun e he => ?_⟩
      rcases List.mem_cons.mp he with rfl | he
      · omega
      · have hlt := hbound e he
        omega

theorem strtokCalls_splits (hs : IsString m s text) (next : Ptr)
    {calls : List (Ptr × List (BitVec 8))} (hcalls : Delimited s text m (some 0) calls) :
    Terminates (fun turns => strtokCalls turns s (calls.map Prod.fst)) { mem := m, next := next }
      (Splits m s text calls (tokens text (some 0) calls)) := by
  obtain ⟨bound, hbound⟩ := exists_bound calls
  refine ⟨max bound (text.length + 1), fun turns hturns => ?_⟩
  have hstart : (if s = NULL then next else s) = pointer s (some 0) := by
    rw [if_neg hs.ne_null, pointer_zero]
  have hleft : ∀ i ∈ some 0, Left m s text i := by
    rintro _ ⟨⟩
    exact .zero hs
  have hturns' : ∀ d ∈ calls, d.2.length < turns := fun d hd => by
    have hlt := hbound d hd
    omega
  refine (strtokCalls_returns { mem := m, next := next } hstart hleft hcalls
    (by omega) hturns').mono ?_
  rintro rs t ⟨hrs, hmem, hreads⟩
  obtain ⟨hsorted, hparts⟩ := cuts_sorted text (calls.map (fun d => kept d.2)) 0
  refine ⟨hrs, fun r hr => ?_, fun x hx => ?_, fun x hx => ?_⟩
  · rw [hmem]
    exact isString_token hs hsorted hparts hr
  · rw [hmem]
    exact marks_ne hx
  · exact (hreads x hx).resolve_left List.not_mem_nil

/-- With any delimiter strings, each call returns the next run of characters that are not in
its own; with one and the same, the calls return the maximal runs of the text in order, and
then null pointers. -/
theorem strtok_splits (hs : IsString m s text) (next : Ptr) :
    (∀ calls, Delimited s text m (some 0) calls →
      Terminates (fun turns => strtokCalls turns s (calls.map Prod.fst)) { mem := m, next := next }
        (Splits m s text calls (tokens text (some 0) calls))) ∧
    ∀ (delim : Ptr) (delims : List (BitVec 8)), ∃ runs : List (Nat × Nat),
      runs.Pairwise (fun r r' => r.2 < r'.1) ∧
      (∀ a b, (a, b) ∈ runs ↔ IsRun (fun c => !delims.contains c) text a b) ∧
      ∀ n, Delimited s text m (some 0) (List.replicate n (delim, delims)) →
        Terminates (fun turns => strtokCalls turns s (List.replicate n delim))
          { mem := m, next := next }
          (Splits m s text (List.replicate n (delim, delims))
            ((List.range n).map (fun k => runs[k]?))) := by
  refine ⟨fun calls hcalls => strtokCalls_splits hs next hcalls, fun delim delims => ?_⟩
  obtain ⟨runs, hsorted, hruns, hcuts⟩ := exists_runs (kept delims) text
  refine ⟨runs, hsorted, hruns, fun n hn => ?_⟩
  have hsplits := strtokCalls_splits hs next hn
  rw [tokens, List.map_replicate, List.map_replicate, hcuts] at hsplits
  exact hsplits

end Splits

/-! ### Two tokens -/

/-- `a,b` and `,`. -/
def commaMemory : Memory :=
  loaded [(0x1000#64, ['a', ',', 'b'].map ascii), (0x2000#64, [ascii ','])]

theorem comma_delimited (n : Nat) :
    Delimited 0x1000#64 (['a', ',', 'b'].map ascii) commaMemory (some 0)
      (List.replicate n (0x2000#64, [ascii ','])) := by
  refine delimited_of_apart (by decide) (fun d hd => ?_)
  obtain rfl := List.eq_of_mem_replicate hd
  exact ⟨by decide, fun x hx => not_inRange_of_apart (by decide) (by decide) hx⟩

theorem strtok_splits_comma :
    ∃ runs : List (Nat × Nat), runs.Pairwise (fun r r' => r.2 < r'.1) ∧
      (∀ a b, (a, b) ∈ runs ↔
        IsRun (fun c => !([ascii ','] : List (BitVec 8)).contains c)
          (['a', ',', 'b'].map ascii) a b) ∧
      Terminates (fun turns => strtokCalls turns 0x1000#64 (List.replicate 5 0x2000#64))
        { mem := commaMemory, next := NULL }
        (Splits commaMemory 0x1000#64 (['a', ',', 'b'].map ascii)
          (List.replicate 5 (0x2000#64, [ascii ',']))
          ((List.range 5).map (fun k => runs[k]?))) := by
  obtain ⟨runs, hsorted, hruns, hcalls⟩ :=
    (strtok_splits (show IsString commaMemory 0x1000#64 (['a', ',', 'b'].map ascii) by decide)
      NULL).2 0x2000#64 [ascii ',']
  exact ⟨runs, hsorted, hruns, hcalls 5 (comma_delimited 5)⟩

end Asnu
