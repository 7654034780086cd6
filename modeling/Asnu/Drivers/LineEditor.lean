import Asnu.Drivers.Gets
import Mathlib.Data.List.GetD

/-!
`kbd_gets` as a line editor. The loops are those of before, given the characters
that `kbd_getc` returns; the line they leave is the one an editor has after the
same characters.
-/

namespace Asnu

open Lib

namespace Line

/-- The input loop, with the characters it leaves to later calls. It waits when there
are no more. -/
def input (l : Line) : List (BitVec 8) → Option (Line × List (BitVec 8))
  | [] =>
      if l.read < l.maxlen - 1 then none
      else some ({ l with phase := .counting 0 }, [])
  | c :: cs =>
      if l.read < l.maxlen - 1 then
        match (l.take c).phase with
        | .reading => (l.take c).input cs
        | .counting _ | .returned => some (l.take c, cs)
      else some ({ l with phase := .counting 0 }, c :: cs)

/-- At most `n` turns of the loop that counts. -/
def finish : Nat → Line → Option Line
  | 0, _ => none
  | n + 1, l =>
      match l.phase with
      | .counting tmprd => (l.count tmprd).finish n
      | .returned => some l
      | .reading => none

end Line

/-- A call that finds `cs` typed; the counting loop is cut off after `fuel` turns. -/
def kbdGets (fuel : Nat) (maxlen : Int) (out : Int → BitVec 8) (cs : List (BitVec 8)) :
    Option (Line × List (BitVec 8)) := do
  let (l, rest) ← (Line.start maxlen out).input cs
  let l ← l.finish fuel
  pure (l, rest)

/-! ### The editor -/

/-- A backspace removes the last character, any other is appended. -/
def editChar (line : List (BitVec 8)) (c : BitVec 8) : List (BitVec 8) :=
  if c = backspace then line.dropLast else line ++ [c]

def edited (typed : List (BitVec 8)) : List (BitVec 8) := typed.foldl editChar []

def EndsLine (c : BitVec 8) : Prop := c = newline ∨ c = 0#8

instance (c : BitVec 8) : Decidable (EndsLine c) := inferInstanceAs (Decidable (_ ∨ _))

/-- The last character ends the line, or the line is full. -/
def Complete (limit : Nat) (typed : List (BitVec 8)) : Prop :=
  (∃ c ∈ typed.getLast?, EndsLine c) ∨ (edited typed).length = limit

instance (limit : Nat) (typed : List (BitVec 8)) : Decidable (Complete limit typed) :=
  inferInstanceAs (Decidable (_ ∨ _))

/-- The line once it is complete; the character that ends it is not part of it. -/
def lineOf (typed : List (BitVec 8)) : List (BitVec 8) :=
  if ∃ c ∈ typed.getLast?, EndsLine c then edited typed.dropLast else edited typed

/-- The first `n` characters complete the line, and no fewer. -/
def Consumes (limit : Nat) (cs : List (BitVec 8)) (n : Nat) : Prop :=
  Complete limit (cs.take n) ∧ ∀ m < n, ¬ Complete limit (cs.take m)

/-- Until the line is complete there is no backspace while it is empty. -/
def Editable (limit : Nat) (cs : List (BitVec 8)) : Prop :=
  ∀ m, (∀ k ≤ m, ¬ Complete limit (cs.take k)) → cs[m]? = some backspace →
    edited (cs.take m) ≠ []

theorem edited_append (typed : List (BitVec 8)) (c : BitVec 8) :
    edited (typed ++ [c]) = editChar (edited typed) c := List.foldl_append ..

/-- One more character has been typed. -/
theorem append_take_cons (typed cs : List (BitVec 8)) (c : BitVec 8) (m : Nat) :
    typed ++ (c :: cs).take (m + 1) = (typed ++ [c]) ++ cs.take m := by
  rw [List.take_succ_cons, List.append_assoc, List.singleton_append]

theorem complete_append_iff (limit : Nat) (typed : List (BitVec 8)) (c : BitVec 8) :
    Complete limit (typed ++ [c]) ↔
      EndsLine c ∨ (editChar (edited typed) c).length = limit := by
  rw [Complete, edited_append]
  simp

theorem lineOf_append (typed : List (BitVec 8)) (c : BitVec 8) :
    lineOf (typed ++ [c]) = if EndsLine c then edited typed else editChar (edited typed) c := by
  simp [lineOf, edited_append]

namespace Line

/-- The buffer holds `line` and zeros. -/
structure Holds (limit : Nat) (line : List (BitVec 8)) (l : Line) : Prop where
  maxlen : l.maxlen = limit + 1
  read : l.read = line.length
  length : line.length ≤ limit
  out : ∀ i : Nat, i ≤ limit → l.out i = line.getD i 0#8
  chars : ∀ c ∈ line, c ≠ 0#8

theorem holds_start (limit : Nat) (out : Int → BitVec 8) :
    (start (limit + 1) out).Holds limit [] where
  maxlen := rfl
  read := rfl
  length := Nat.zero_le _
  out := by
    intro i hi
    exact if_pos ⟨by omega, by omega⟩
  chars := List.forall_mem_nil _

variable {limit : Nat} {line : List (BitVec 8)} {l : Line} {c : BitVec 8}

theorem take_ends (hend : EndsLine c) : l.take c = { l with phase := .counting 0 } :=
  if_pos (show c = newline ∨ c = 0#8 from hend)

theorem take_char (hend : ¬ EndsLine c) (hback : c ≠ backspace) :
    l.take c = { l.write l.read c with read := l.read + 1 } :=
  (if_neg (show ¬ (c = newline ∨ c = 0#8) from hend)).trans (if_neg hback)

theorem take_backspace :
    l.take backspace = Line.write { l with read := l.read - 1 } (l.read - 1) 0#8 :=
  (if_neg (by decide)).trans (if_pos rfl)

theorem Holds.rubOut (h : l.Holds limit line) (hne : line ≠ []) :
    (l.take backspace).Holds limit line.dropLast := by
  have hpos : 0 < line.length := List.length_pos_iff.mpr hne
  have hread := h.read
  rw [take_backspace]
  refine ⟨h.maxlen, ?_, ?_, ?_, ?_⟩
  · change l.read - 1 = _
    rw [List.length_dropLast, hread]
    omega
  · rw [List.length_dropLast]
    exact Nat.le_trans (Nat.sub_le _ _) h.length
  · intro i hi
    simp only [Line.write]
    by_cases hlast : i = line.length - 1
    · rw [if_pos (by omega), List.getD_eq_default _ _ (by rw [List.length_dropLast]; omega)]
    · rw [if_neg (by omega), h.out i hi, List.dropLast_eq_take, List.getD_eq_getElem?_getD,
        List.getD_eq_getElem?_getD, List.getElem?_take]
      split
      · rfl
      · rw [List.getElem?_eq_none (by omega)]
  · exact fun c hc => h.chars c ((List.dropLast_sublist line).mem hc)

theorem Holds.append (h : l.Holds limit line) (hroom : line.length < limit)
    (hend : ¬ EndsLine c) (hback : c ≠ backspace) :
    (l.take c).Holds limit (line ++ [c]) := by
  have hread := h.read
  rw [take_char hend hback]
  refine ⟨h.maxlen, ?_, ?_, ?_, ?_⟩
  · change l.read + 1 = _
    rw [List.length_append, List.length_singleton, hread]
    rfl
  · rw [List.length_append, List.length_singleton]
    exact hroom
  · intro i hi
    simp only [Line.write]
    by_cases hlast : i = line.length
    · rw [if_pos (by omega), hlast, List.getD_eq_getElem?_getD, List.getElem?_concat_length,
        Option.getD_some]
    · rw [if_neg (by omega), h.out i hi]
      rcases Nat.lt_or_gt_of_ne hlast with hlt | hgt
      · rw [List.getD_append _ _ _ _ hlt]
      · rw [List.getD_eq_default _ _ (Nat.le_of_lt hgt),
          List.getD_eq_default _ _ (by rw [List.length_append, List.length_singleton]; omega)]
  · refine List.forall_mem_append.mpr ⟨h.chars, List.forall_mem_singleton.mpr ?_⟩
    exact fun hzero => hend (Or.inr hzero)

/-- A character that does not end the line has the effect it has on the editor. -/
theorem Holds.edit (h : l.Holds limit line) (hroom : line.length < limit)
    (hend : ¬ EndsLine c) (hback : c = backspace → line ≠ []) :
    (l.take c).Holds limit (editChar line c) := by
  unfold editChar
  split
  · next hc =>
      subst hc
      exact h.rubOut (hback rfl)
  · next hc => exact h.append hroom hend hc

theorem Holds.phase (h : l.Holds limit line) (phase : Phase) :
    Holds limit line { l with phase := phase } :=
  ⟨h.maxlen, h.read, h.length, h.out, h.chars⟩

theorem take_phase (hend : ¬ EndsLine c) : (l.take c).phase = l.phase := by
  by_cases hback : c = backspace
  · rw [hback, take_backspace]
    rfl
  · rw [take_char hend hback]
    rfl

theorem Holds.reads_on_iff (h : l.Holds limit line) :
    l.read < l.maxlen - 1 ↔ line.length < limit := by
  rw [h.read, h.maxlen]
  omega

/-- Before the line is complete it is not full. -/
theorem Holds.room {typed : List (BitVec 8)} (h : l.Holds limit (edited typed))
    (hnot : ¬ Complete limit typed) : (edited typed).length < limit :=
  Nat.lt_of_le_of_ne h.length (fun heq => hnot (Or.inr heq))

section Input

variable {typed cs : List (BitVec 8)}

/-- Before the first of `cs` the line was not complete; the loop takes that one. -/
theorem input_cons (hread : l.read < l.maxlen - 1) :
    l.input (c :: cs) = match (l.take c).phase with
      | .reading => (l.take c).input cs
      | .counting _ | .returned => some (l.take c, cs) :=
  if_pos hread

theorem input_full (hread : ¬ l.read < l.maxlen - 1) :
    l.input cs = some ({ l with phase := .counting 0 }, cs) := by
  cases cs with
  | nil => exact if_neg hread
  | cons c cs => exact if_neg hread

/-- The loop stops when the line is complete, and leaves it in the buffer. -/
theorem Holds.input_complete (h : l.Holds limit (edited typed)) (hreading : l.phase = .reading)
    (hopen : ¬ ∃ c ∈ typed.getLast?, EndsLine c) {n : Nat}
    (hcomplete : Complete limit (typed ++ cs.take n))
    (hnot : ∀ m < n, ¬ Complete limit (typed ++ cs.take m))
    (hedit : ∀ m < n, cs[m]? = some backspace → edited (typed ++ cs.take m) ≠ []) :
    ∃ l', l.input cs = some (l', cs.drop n) ∧ l'.phase = .counting 0 ∧
      l'.Holds limit (lineOf (typed ++ cs.take n)) := by
  induction n generalizing l typed cs with
  | zero =>
      rw [List.take_zero, List.append_nil] at hcomplete ⊢
      have hfull : ¬ l.read < l.maxlen - 1 := by
        rw [h.reads_on_iff, hcomplete.resolve_left hopen]
        exact Nat.lt_irrefl _
      rw [input_full hfull, lineOf, if_neg hopen]
      exact ⟨_, rfl, rfl, h.phase _⟩
  | succ n ih =>
      have hroom := hnot 0 (Nat.succ_pos n)
      rw [List.take_zero, List.append_nil] at hroom
      have hread := h.reads_on_iff.mpr (h.room hroom)
      cases cs with
      | nil => exact absurd hcomplete (by simpa using hroom)
      | cons c cs =>
          rw [input_cons hread, append_take_cons]
          by_cases hend : EndsLine c
          · -- the first character already completes the line
            have hzero : n = 0 := by
              by_contra hpos
              refine hnot 1 (by omega) ?_
              rw [append_take_cons, List.take_zero, List.append_nil, complete_append_iff]
              exact Or.inl hend
            subst hzero
            rw [take_ends hend, List.take_zero, List.append_nil, lineOf_append, if_pos hend]
            exact ⟨_, rfl, rfl, h.phase _⟩
          · have hback : c = backspace → edited typed ≠ [] := by
              rintro rfl
              have hempty := hedit 0 (Nat.succ_pos n) rfl
              rwa [List.take_zero, List.append_nil] at hempty
            have hnext := h.edit (h.room hroom) hend hback
            have hphase := (take_phase hend).trans hreading
            rw [hphase, List.drop_succ_cons]
            rw [← edited_append] at hnext
            refine ih hnext hphase (by simpa using hend) ?_ ?_ ?_
            · rw [← append_take_cons]
              exact hcomplete
            · intro m hm
              rw [← append_take_cons]
              exact hnot (m + 1) (Nat.succ_lt_succ hm)
            · intro m hm hget
              rw [← append_take_cons]
              exact hedit (m + 1) (Nat.succ_lt_succ hm) hget

/-- While the line is not complete the loop waits for more. -/
theorem Holds.input_waits (h : l.Holds limit (edited typed)) (hreading : l.phase = .reading)
    (hnot : ∀ m, ¬ Complete limit (typed ++ cs.take m))
    (hedit : ∀ m, cs[m]? = some backspace → edited (typed ++ cs.take m) ≠ []) :
    l.input cs = none := by
  have hroom := hnot 0
  rw [List.take_zero, List.append_nil] at hroom
  have hread := h.reads_on_iff.mpr (h.room hroom)
  induction cs generalizing l typed with
  | nil => exact if_pos hread
  | cons c cs ih =>
      have hnext : ∀ m, ¬ Complete limit ((typed ++ [c]) ++ cs.take m) := by
        intro m
        rw [← append_take_cons]
        exact hnot (m + 1)
      have hopen := hnext 0
      rw [List.take_zero, List.append_nil] at hopen
      have hend : ¬ EndsLine c := fun hend => hopen ((complete_append_iff _ _ _).mpr (Or.inl hend))
      have hback : c = backspace → edited typed ≠ [] := by
        rintro rfl
        have hempty := hedit 0 rfl
        rwa [List.take_zero, List.append_nil] at hempty
      have hedited := h.edit (h.room hroom) hend hback
      have hphase := (take_phase hend).trans hreading
      rw [← edited_append] at hedited
      rw [input_cons hread, hphase]
      refine ih hedited hphase hnext (fun m hm => ?_) hopen
        (hedited.reads_on_iff.mpr (hedited.room hopen))
      rw [← append_take_cons]
      exact hedit (m + 1) hm

end Input

/-- A turn of the counting loop that finds a character. -/
theorem Holds.count_char (h : l.Holds limit line) {i : Nat} (hi : i < line.length) :
    l.count i = { l with phase := .counting (i + 1 : Nat) } := by
  have hchar : l.out i ≠ 0#8 := by
    rw [h.out i (Nat.le_trans (Nat.le_of_lt hi) h.length), List.getD_eq_getElem _ _ hi]
    exact h.chars _ (List.getElem_mem hi)
  exact if_pos hchar

/-- The last turn finds the length that the input loop has kept. -/
theorem Holds.count_end (h : l.Holds limit line) :
    l.count line.length = { l with phase := .returned } := by
  have hzero : l.out line.length = 0#8 := by
    rw [h.out _ h.length, List.getD_eq_default _ _ (Nat.le_refl _)]
  rw [Line.count, if_neg (by simpa using hzero)]
  simp only [h.read, ne_eq, not_true_eq_false, if_false]

/-- The counting loop counts the line. -/
theorem Holds.finish (h : l.Holds limit line) {i fuel : Nat} (hi : i ≤ line.length)
    (hphase : l.phase = .counting i) (hfuel : line.length + 2 ≤ fuel + i) :
    ∃ l', l.finish fuel = some l' ∧ l'.Holds limit line := by
  induction fuel generalizing l i with
  | zero => omega
  | succ fuel ih =>
      simp only [Line.finish, hphase]
      rcases Nat.lt_or_eq_of_le hi with hlt | rfl
      · rw [h.count_char hlt]
        exact ih (h.phase _) hlt rfl (by omega)
      · rw [h.count_end]
        cases fuel with
        | zero => omega
        | succ fuel => exact ⟨_, rfl, h.phase _⟩

end Line

/-- With characters of which no backspace comes to an empty line, a call takes those that
complete the line and no more; then it returns its length, with the line and zeros in the
buffer. -/
theorem gets_edits_line (maxlen : Int) (hmaxlen : 1 ≤ maxlen) (out : Int → BitVec 8)
    (cs : List (BitVec 8)) (hedit : Editable (maxlen - 1).toNat cs) :
    (∀ n, Consumes (maxlen - 1).toNat cs n → ∀ fuel, maxlen.toNat < fuel →
      ∃ l, kbdGets fuel maxlen out cs = some (l, cs.drop n) ∧
        l.read = (lineOf (cs.take n)).length ∧
        ∀ i : Nat, i < maxlen → l.out i = (lineOf (cs.take n)).getD i 0#8) ∧
      ((∀ n, ¬ Complete (maxlen - 1).toNat (cs.take n)) →
        ∀ fuel, kbdGets fuel maxlen out cs = none) := by
  obtain ⟨limit, rfl⟩ : ∃ limit : Nat, maxlen = limit + 1 := ⟨(maxlen - 1).toNat, by omega⟩
  have hlimit : ((limit + 1 : Int) - 1).toNat = limit := by omega
  rw [hlimit] at hedit ⊢
  have hstart := Line.holds_start limit out
  constructor
  · rintro n ⟨hcomplete, hnot⟩ fuel hfuel
    obtain ⟨l, hinput, hphase, hleft⟩ := @Line.Holds.input_complete limit _ [] cs hstart rfl
      (by simp) n hcomplete hnot (fun m hm => hedit m (fun k hk => hnot k (by omega)))
    have hfit : (lineOf (cs.take n)).length ≤ limit := hleft.length
    have henough : (lineOf (cs.take n)).length + 2 ≤ fuel + 0 := by omega
    obtain ⟨l', hfinish, hend⟩ := hleft.finish (Nat.zero_le _) hphase henough
    refine ⟨l', by simp [kbdGets, hinput, hfinish], hend.read, fun i hi => hend.out i (by omega)⟩
  · intro hnot fuel
    have hwaits := @Line.Holds.input_waits limit _ [] cs hstart rfl hnot
      (fun m => hedit m (fun k _ => hnot k))
    simp [kbdGets, hwaits]

/-- `ab`, a backspace and a newline typed at a line of three characters. -/
theorem gets_edits_line_short :
    Editable 3 [97#8, 98#8, backspace, newline, 99#8] ∧
      Consumes 3 [97#8, 98#8, backspace, newline, 99#8] 4 ∧
      ∃ l, kbdGets 5 4 (fun _ => 255#8) [97#8, 98#8, backspace, newline, 99#8] =
          some (l, [99#8]) ∧ l.read = 1 ∧
        ∀ i : Nat, i < (4 : Int) → l.out i = [97#8].getD i 0#8 := by
  have hedit : Editable 3 [97#8, 98#8, backspace, newline, 99#8] := by
    intro m _ hback
    match m with
    | 0 | 1 | 3 | 4 => exact absurd hback (by decide)
    | 2 => decide
    | m + 5 => exact absurd hback (by simp)
  have hconsumes : Consumes 3 [97#8, 98#8, backspace, newline, 99#8] 4 := by
    refine ⟨by decide, fun m hm => ?_⟩
    match m with
    | 0 | 1 | 2 | 3 => decide
  exact ⟨hedit, hconsumes,
    (gets_edits_line 4 (by decide) (fun _ => 255#8) _ hedit).1 4 hconsumes 5 (by decide)⟩

end Asnu
