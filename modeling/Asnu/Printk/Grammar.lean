import Mathlib.Data.List.TakeWhile
import Asnu.Printk.Snprintf

/-!
Every string is a format: characters and directives one after the other, and perhaps, at its
end, a directive that is cut off before its specifier.
-/

namespace Asnu.Printk

open Lib Lib.Code

/-! ### The fields of a directive -/

def parseCount (text : List (BitVec 8)) : Count × List (BitVec 8) :=
  if isDigit (first text) then (.digits (text.takeWhile isDigit), text.dropWhile isDigit)
  else if first text = ascii '*' then (.star, text.tail)
  else (.none, text)

def parsePrecision (text : List (BitVec 8)) : Option Count × List (BitVec 8) :=
  if first text = ascii '.' then (some (parseCount text.tail).1, (parseCount text.tail).2)
  else (Option.none, text)

def parseLength (text : List (BitVec 8)) : Length × List (BitVec 8) :=
  if first text = ascii 'l' then
    if first text.tail = ascii 'l' then (.ll, text.tail.tail) else (.l, text.tail)
  else if first text = ascii 'h' then
    if first text.tail = ascii 'h' then (.hh, text.tail.tail) else (.h, text.tail)
  else if first text = ascii 't' then (.t, text.tail)
  else if first text = ascii 'j' then (.j, text.tail)
  else if first text = ascii 'z' then (.z, text.tail)
  else (.none, text)

/-- The fields at the beginning of a text, and what stands behind them. -/
def parseFields (text : List (BitVec 8)) : Fields × List (BitVec 8) :=
  let (width, behindWidth) := parseCount (text.dropWhile isFlag)
  let (precision, behindPrecision) := parsePrecision behindWidth
  let (length, rest) := parseLength behindPrecision
  ({ flags := text.takeWhile isFlag, width := width, precision := precision, length := length },
    rest)

section Fields

variable {text : List (BitVec 8)} {c : BitVec 8}

theorem cons_tail (h : first text = c) (hc : c ≠ 0#8) : c :: text.tail = text := by
  cases text with
  | nil => exact absurd h.symm hc
  | cons d text => rw [← h]; rfl

theorem first_dropWhile {p : BitVec 8 → Bool} (hp : p 0#8 = false) (text : List (BitVec 8)) :
    p (first (text.dropWhile p)) = false := by
  induction text with
  | nil => exact hp
  | cons c text ih =>
      rw [List.dropWhile_cons]
      split
      · exact ih
      · next hc => exact Bool.not_eq_true _ ▸ hc

theorem parseCount_text (text : List (BitVec 8)) :
    (parseCount text).1.text ++ (parseCount text).2 = text := by
  unfold parseCount
  split
  · exact List.takeWhile_append_dropWhile
  split
  · next hstar => exact cons_tail hstar (by decide)
  · rfl

theorem parseCount_ends (text : List (BitVec 8)) :
    (parseCount text).1.Ends (first (parseCount text).2) := by
  unfold parseCount
  split
  · next hdigit =>
      refine ⟨?_, fun c hc => List.mem_takeWhile_imp hc, first_dropWhile (by decide) text⟩
      cases text with
      | nil => exact absurd hdigit (by decide)
      | cons c text =>
          have hc : isDigit c = true := hdigit
          rw [List.takeWhile_cons, if_pos hc]
          exact List.cons_ne_nil _ _
  split
  · trivial
  · next hdigit hstar => exact ⟨Bool.not_eq_true _ ▸ hdigit, hstar⟩

theorem parsePrecision_text (text : List (BitVec 8)) :
    ({ precision := (parsePrecision text).1 } : Fields).precisionText ++ (parsePrecision text).2 =
      text := by
  unfold parsePrecision
  split
  · next hpoint =>
      refine (congrArg (ascii '.' :: ·) (parseCount_text text.tail)).trans ?_
      exact cons_tail hpoint (by decide)
  · rfl

theorem parsePrecision_none (h : (parsePrecision text).1 = Option.none) :
    first (parsePrecision text).2 ≠ ascii '.' := by
  unfold parsePrecision at h ⊢
  by_cases hpoint : first text = ascii '.'
  · rw [if_pos hpoint] at h
    cases h
  · rwa [if_neg hpoint]

theorem parsePrecision_ends {count : Count} (h : count ∈ (parsePrecision text).1) :
    count.Ends (first (parsePrecision text).2) := by
  unfold parsePrecision at h ⊢
  by_cases hpoint : first text = ascii '.'
  · rw [if_pos hpoint] at h ⊢
    obtain rfl := Option.some.inj h
    exact parseCount_ends _
  · rw [if_neg hpoint] at h
    cases h

theorem parseLength_text (text : List (BitVec 8)) :
    (parseLength text).1.text ++ (parseLength text).2 = text := by
  unfold parseLength
  split
  · next hl =>
      have htail := cons_tail hl (by decide)
      split
      · next hll => exact (congrArg (ascii 'l' :: ·) (cons_tail hll (by decide))).trans htail
      · exact htail
  split
  · next hh =>
      have htail := cons_tail hh (by decide)
      split
      · next hhh => exact (congrArg (ascii 'h' :: ·) (cons_tail hhh (by decide))).trans htail
      · exact htail
  split
  · next ht => exact cons_tail ht (by decide)
  split
  · next hj => exact cons_tail hj (by decide)
  split
  · next hz => exact cons_tail hz (by decide)
  · rfl

theorem parseLength_ends (text : List (BitVec 8)) :
    (parseLength text).1.Ends (first (parseLength text).2) := by
  unfold parseLength
  split
  · split
    · trivial
    · next hl => exact hl
  split
  · split
    · trivial
    · next hh => exact hh
  split
  · trivial
  split
  · trivial
  split
  · trivial
  · next hl hh ht hj hz =>
      simp only [Length.Ends, List.map_cons, List.map_nil, List.mem_cons, List.not_mem_nil,
        or_false, not_or]
      exact ⟨hl, hh, ht, hj, hz⟩

/-- What stands behind each field, from the last one to the first. -/
theorem parseFields_split (text : List (BitVec 8)) :
    (parseFields text).1.lengthOn (parseFields text).2 =
        (parsePrecision (parseCount (text.dropWhile isFlag)).2).2 ∧
      (parseFields text).1.precisionOn (parseFields text).2 =
        (parseCount (text.dropWhile isFlag)).2 ∧
      (parseFields text).1.widthOn (parseFields text).2 = text.dropWhile isFlag ∧
      (parseFields text).1.textOn (parseFields text).2 = text := by
  have hlength : (parseFields text).1.lengthOn (parseFields text).2 =
      (parsePrecision (parseCount (text.dropWhile isFlag)).2).2 := parseLength_text _
  have hprecision : (parseFields text).1.precisionOn (parseFields text).2 =
      (parseCount (text.dropWhile isFlag)).2 := by
    rw [Fields.precisionOn, hlength]
    exact parsePrecision_text _
  have hwidth : (parseFields text).1.widthOn (parseFields text).2 = text.dropWhile isFlag := by
    rw [Fields.widthOn, hprecision]
    exact parseCount_text _
  refine ⟨hlength, hprecision, hwidth, ?_⟩
  rw [Fields.textOn, hwidth]
  exact List.takeWhile_append_dropWhile

theorem parseFields_text (text : List (BitVec 8)) :
    (parseFields text).1.textOn (parseFields text).2 = text := (parseFields_split text).2.2.2

theorem parseFields_ends (text : List (BitVec 8)) :
    (parseFields text).1.Ends (parseFields text).2 := by
  obtain ⟨hlength, hprecision, hwidth, -⟩ := parseFields_split text
  refine ⟨fun c hc => List.mem_takeWhile_imp hc, ?_, ?_, ?_, ?_, parseLength_ends _⟩
  · rw [hwidth]
    exact first_dropWhile (by decide) text
  · rw [hprecision]
    exact parseCount_ends _
  · intro hnone
    rw [hlength]
    exact parsePrecision_none hnone
  · intro count hcount
    rw [hlength]
    exact parsePrecision_ends hcount

end Fields

/-! ### The items of a format -/

/-- The items of a format, and the fields of the directive that is cut off, if there is one. -/
def parseItems : Nat → List (BitVec 8) → List Item × Option Fields
  | 0, _ => ([], none)
  | _ + 1, [] => ([], none)
  | n + 1, c :: text =>
      if c = ascii '%' then
        match parseFields text with
        | (d, []) => ([], some d)
        | (d, conv :: rest) =>
            let (items, cut) := parseItems n rest
            (.directive d conv :: items, cut)
      else
        let (items, cut) := parseItems n text
        (.char c :: items, cut)

/-- What is left of a directive that is cut off. -/
def cutText : Option Fields → List (BitVec 8)
  | none => []
  | some d => ascii '%' :: d.textOn []

theorem parseItems_spec (n : Nat) (text : List (BitVec 8)) (hn : text.length ≤ n)
    (htext : ∀ c ∈ text, c ≠ 0#8) :
    formatText (parseItems n text).1 ++ cutText (parseItems n text).2 = text ∧
      (∀ item ∈ (parseItems n text).1, item.Ok) ∧
      ∀ d ∈ (parseItems n text).2, d.Ends [] := by
  induction n generalizing text with
  | zero =>
      obtain rfl : text = [] := List.eq_nil_of_length_eq_zero (Nat.le_zero.mp hn)
      exact ⟨rfl, fun _ h => absurd h List.not_mem_nil, fun _ h => by cases h⟩
  | succ n ih =>
      cases text with
      | nil => exact ⟨rfl, fun _ h => absurd h List.not_mem_nil, fun _ h => by cases h⟩
      | cons c text =>
          have hc : c ≠ 0#8 := htext c List.mem_cons_self
          rw [List.length_cons] at hn
          by_cases hpercent : c = ascii '%'
          · have hfields := parseFields_text text
            have hends := parseFields_ends text
            rw [parseItems, if_pos hpercent]
            generalize parseFields text = fields at hfields hends ⊢
            obtain ⟨d, rest⟩ := fields
            cases rest with
            | nil =>
                refine ⟨?_, fun _ h => absurd h List.not_mem_nil, ?_⟩
                · rw [hpercent, ← hfields]
                  rfl
                · rintro _ ⟨⟩
                  exact hends
            | cons conv rest =>
                have hsplit : d.textOn [] ++ conv :: rest = text :=
                  (d.textOn_append [] (conv :: rest)).trans hfields
                have hlen : text.length = (d.textOn []).length + (rest.length + 1) := by
                  rw [← hsplit, List.length_append, List.length_cons]
                have hmem : ∀ e ∈ conv :: rest, e ≠ 0#8 := by
                  intro e he
                  refine htext e (List.mem_cons_of_mem _ ?_)
                  rw [← hsplit]
                  exact List.mem_append_right _ he
                have hrest := ih rest (by omega) (fun e he => hmem e (List.mem_cons_of_mem _ he))
                refine ⟨?_, ?_, hrest.2.2⟩
                · change formatText (.directive d conv :: (parseItems n rest).1) ++ _ = _
                  rw [formatText_directive, List.cons_append, Fields.textOn_append,
                    List.cons_append, hrest.1, hpercent]
                  exact congrArg _ hfields
                · intro item hitem
                  rcases List.mem_cons.mp hitem with rfl | hitem
                  · exact ⟨hmem conv List.mem_cons_self, Fields.ends_cons.mp hends⟩
                  · exact hrest.2.1 item hitem
          · have hrest := ih text (by omega) (fun d hd => htext d (List.mem_cons_of_mem _ hd))
            rw [parseItems, if_neg hpercent]
            refine ⟨congrArg (c :: ·) hrest.1, ?_, hrest.2.2⟩
            intro item hitem
            rcases List.mem_cons.mp hitem with rfl | hitem
            · exact ⟨hc, hpercent⟩
            · exact hrest.2.1 item hitem

end Asnu.Printk
