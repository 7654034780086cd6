import Asnu.Printk.Conversions

/-!
The formats that `_vsnprintf` takes: characters and directives, each directive with its
flags, a width, a precision, a length and a specifier, and what such a format stands for.
-/

namespace Asnu.Printk

open Lib Lib.Code

/-! ### Directives -/

/-- A width or a precision: left out, in the format, or from the argument list. -/
inductive Count where
  | none
  | digits (ds : List (BitVec 8))
  | star
  deriving DecidableEq

inductive Length where
  | none
  | l
  | ll
  | h
  | hh
  | t
  | j
  | z
  deriving DecidableEq

/-- What stands between `%` and the specifier. -/
structure Fields where
  flags : List (BitVec 8) := []
  width : Count := .none
  /-- What stands behind the point, if there is one. -/
  precision : Option Count := Option.none
  length : Length := .none
  deriving DecidableEq

inductive Item where
  | char (c : BitVec 8)
  | directive (fields : Fields) (conv : BitVec 8)
  deriving DecidableEq

def isFlag (c : BitVec 8) : Bool := (setFlag {} c).isSome

def Count.text : Count → List (BitVec 8)
  | .none => []
  | .digits ds => ds
  | .star => [ascii '*']

def Length.text : Length → List (BitVec 8)
  | .none => []
  | .l => [ascii 'l']
  | .ll => [ascii 'l', ascii 'l']
  | .h => [ascii 'h']
  | .hh => [ascii 'h', ascii 'h']
  | .t => [ascii 't']
  | .j => [ascii 'j']
  | .z => [ascii 'z']

namespace Fields

def precisionText (d : Fields) : List (BitVec 8) :=
  match d.precision with
  | Option.none => []
  | some count => ascii '.' :: count.text

/-- The text from the length on. -/
def lengthOn (d : Fields) (rest : List (BitVec 8)) : List (BitVec 8) := d.length.text ++ rest

def precisionOn (d : Fields) (rest : List (BitVec 8)) : List (BitVec 8) :=
  d.precisionText ++ d.lengthOn rest

def widthOn (d : Fields) (rest : List (BitVec 8)) : List (BitVec 8) :=
  d.width.text ++ d.precisionOn rest

def textOn (d : Fields) (rest : List (BitVec 8)) : List (BitVec 8) := d.flags ++ d.widthOn rest

end Fields

/-- The field ends where it ends, with this character behind it. -/
def Count.Ends (next : BitVec 8) : Count → Prop
  | .none => isDigit next = false ∧ next ≠ ascii '*'
  | .digits ds => ds ≠ [] ∧ (∀ c ∈ ds, isDigit c = true) ∧ isDigit next = false
  | .star => True

instance (next : BitVec 8) : (count : Count) → Decidable (count.Ends next)
  | .none => inferInstanceAs (Decidable (_ ∧ _))
  | .digits ds => inferInstanceAs (Decidable (ds ≠ [] ∧ _ ∧ _))
  | .star => inferInstanceAs (Decidable True)

def Length.Ends (next : BitVec 8) : Length → Prop
  | .none => next ∉ ['l', 'h', 't', 'j', 'z'].map ascii
  | .l => next ≠ ascii 'l'
  | .h => next ≠ ascii 'h'
  | _ => True

instance (next : BitVec 8) : (length : Length) → Decidable (length.Ends next)
  | .none => inferInstanceAs (Decidable (_ ∉ _))
  | .l => inferInstanceAs (Decidable (_ ≠ _))
  | .h => inferInstanceAs (Decidable (_ ≠ _))
  | .ll | .hh | .t | .j | .z => inferInstanceAs (Decidable True)

/-- The first character, which behind the end is the terminator. -/
def first (text : List (BitVec 8)) : BitVec 8 := text.headD 0#8

/-- With `rest` behind them the fields are what they are taken for. -/
structure Fields.Ends (d : Fields) (rest : List (BitVec 8)) : Prop where
  flags : ∀ c ∈ d.flags, isFlag c = true
  flagsEnd : isFlag (first (d.widthOn rest)) = false
  width : d.width.Ends (first (d.precisionOn rest))
  point : d.precision = Option.none → first (d.lengthOn rest) ≠ ascii '.'
  precision : ∀ count ∈ d.precision, count.Ends (first (d.lengthOn rest))
  length : d.length.Ends (first rest)

instance (d : Fields) (rest : List (BitVec 8)) : Decidable (d.Ends rest) :=
  decidable_of_iff
    (d.flags.all isFlag = true ∧ isFlag (first (d.widthOn rest)) = false ∧
      d.width.Ends (first (d.precisionOn rest)) ∧
      (d.precision = Option.none → first (d.lengthOn rest) ≠ ascii '.') ∧
      (∀ count ∈ d.precision, count.Ends (first (d.lengthOn rest))) ∧
      d.length.Ends (first rest))
    ⟨fun ⟨flags, flagsEnd, width, point, precision, length⟩ =>
        ⟨List.all_eq_true.mp flags, flagsEnd, width, point, precision, length⟩,
      fun h => ⟨List.all_eq_true.mpr h.flags, h.flagsEnd, h.width, h.point, h.precision, h.length⟩⟩

namespace Item

def text : Item → List (BitVec 8)
  | .char c => [c]
  | .directive d conv => ascii '%' :: d.textOn [conv]

/-- A character that is no percent sign, or a directive that ends with its specifier. -/
def Ok : Item → Prop
  | .char c => c ≠ 0#8 ∧ c ≠ ascii '%'
  | .directive d conv => conv ≠ 0#8 ∧ d.Ends [conv]

instance : (item : Item) → Decidable item.Ok
  | .char c => inferInstanceAs (Decidable (c ≠ 0#8 ∧ c ≠ ascii '%'))
  | .directive d conv => inferInstanceAs (Decidable (conv ≠ 0#8 ∧ d.Ends [conv]))

end Item

/-! ### What they stand for -/

def applyFlag (flags : Flags) (c : BitVec 8) : Flags := (setFlag flags c).getD flags

/-- Decimal digits as a number of 32 bits, behind the number `i`. -/
def digitsValue (i : BitVec 32) (ds : List (BitVec 8)) : BitVec 32 :=
  ds.foldl (fun i c => i * 10#32 + (c - ascii '0').setWidth 32) i

namespace Count

/-- How many arguments it takes. -/
def args : Count → Nat
  | .star => 1
  | _ => 0

def width (flags : Flags) (arg : BitVec 64) : Count → Flags × BitVec 32
  | .none => (flags, 0#32)
  | .digits ds => (flags, digitsValue 0#32 ds)
  | .star => starWidth flags arg

def precision (arg : BitVec 64) : Count → BitVec 32
  | .none => 0#32
  | .digits ds => digitsValue 0#32 ds
  | .star => starPrecision arg

end Count

def Length.apply (flags : Flags) : Length → Flags
  | .none => flags
  | .l | .t | .j | .z => { flags with long := true }
  | .ll => { flags with long := true, longLong := true }
  | .h => { flags with short := true }
  | .hh => { flags with short := true, char := true }

/-- The fields of a directive as the specifier finds them. -/
structure Setting where
  flags : Flags
  width : BitVec 32
  precision : BitVec 32

namespace Fields

def precisionArgs (d : Fields) : Nat :=
  match d.precision with
  | Option.none => 0
  | some count => count.args

def args (d : Fields) : Nat := d.width.args + d.precisionArgs

/-- The precision of a directive, with the flag that says whether there is one. -/
def precisionSetting (d : Fields) (flags : Flags) (arg : BitVec 64) : Flags × BitVec 32 :=
  match d.precision with
  | Option.none => (flags, 0#32)
  | some count => ({ flags with precision := true }, count.precision arg)

def setting (d : Fields) (args : Nat → BitVec 64) (k : Nat) : Setting :=
  let (flags, width) := d.width.width (d.flags.foldl applyFlag {}) (args k)
  let (flags, precision) := d.precisionSetting flags (args (k + d.width.args))
  { flags := d.length.apply flags, width := width, precision := precision }

/-- What is put for a directive that finds `k` arguments taken. -/
def render (m : Memory) (args : Nat → BitVec 64) (k : Nat) (d : Fields) (conv : BitVec 8) :
    List (BitVec 8) :=
  let s := d.setting args k
  specifierText m s.flags s.width s.precision conv (args (k + d.args))

end Fields

namespace Item

def args : Item → Nat
  | .char _ => 0
  | .directive d conv => d.args + takes conv

def render (m : Memory) (args : Nat → BitVec 64) (k : Nat) : Item → List (BitVec 8)
  | .char c => [c]
  | .directive d conv => d.render m args k conv

end Item

def formatText (items : List Item) : List (BitVec 8) := items.flatMap Item.text

/-- How many arguments a format takes. -/
def argsOf : List Item → Nat
  | [] => 0
  | item :: items => item.args + argsOf items

/-- What a format puts, from argument `k` on. -/
def render (m : Memory) (args : Nat → BitVec 64) : Nat → List Item → List (BitVec 8)
  | _, [] => []
  | k, item :: items => item.render m args k ++ render m args (k + item.args) items

/-! ### Going through a directive -/

/-- The rest of the format stands at `p`, and may be read. -/
structure Legible (m : Memory) (P : Ptr → Prop) (p : Ptr) (text : List (BitVec 8)) : Prop where
  string : IsString m p text
  reads : ∀ x, InString p text x → P x

section Legible

variable {m : Memory} {P : Ptr → Prop} {p : Ptr} {c : BitVec 8} {text pre : List (BitVec 8)}

theorem Legible.here (h : Legible m P p text) : P p := h.reads p (inString_start p text)

theorem Legible.head (h : Legible m P p text) : m p = first text := h.string.head

theorem Legible.tail (h : Legible m P p (c :: text)) : Legible m P (p + 1) text where
  string := by
    cases h.string with
    | cons _ _ _ hrest => exact hrest
  reads := fun x hx => h.reads x (inString_cons hx)

theorem Legible.right (h : Legible m P p (pre ++ text)) :
    Legible m P (p + BitVec.ofNat 64 pre.length) text where
  string := h.string.right pre
  reads := fun x hx => h.reads x (inRange_offset hx (by rw [List.length_append]; omega))

theorem setFlag_isSome (flags : Flags) (c : BitVec 8) : (setFlag flags c).isSome = isFlag c := by
  unfold isFlag setFlag
  split
  · rfl
  split
  · rfl
  split
  · rfl
  split
  · rfl
  split
  · rfl
  · rfl

variable {out : Out} {args : Nat → BitVec 64} {k turns : Nat} {idx : BitVec 64}
  {rest : List (BitVec 8)}

theorem flagsLoop_prints {fs : List (BitVec 8)} (hfs : ∀ c ∈ fs, isFlag c = true)
    (hend : isFlag (first rest) = false) (h : Legible m P p (fs ++ rest))
    (hturns : fs.length < turns) (flags : Flags) :
    Prints out m P (flagsLoop turns flags p) idx k [] 0
      (fs.foldl applyFlag flags, p + BitVec.ofNat 64 fs.length) := by
  induction fs generalizing p turns flags with
  | nil =>
      obtain ⟨turns, rfl⟩ := exists_turn hturns
      have hnone : setFlag flags (m p) = none := by
        rw [h.head, ← Option.not_isSome_iff_eq_none, setFlag_isSome]
        simpa using hend
      refine .look h.here ?_
      rw [hnone, List.length_nil, BitVec.add_zero]
      exact .pure _ _ _ _ _ _
  | cons c fs ih =>
      obtain ⟨turns, rfl⟩ := exists_turn hturns
      have hc : m p = c := h.head
      obtain ⟨flags', hsome⟩ : ∃ flags', setFlag flags c = some flags' := by
        rw [← Option.isSome_iff_exists, setFlag_isSome]
        exact hfs c List.mem_cons_self
      have happly : applyFlag flags c = flags' := by rw [applyFlag, hsome, Option.getD_some]
      refine .look h.here ?_
      rw [hc, hsome, List.foldl_cons, happly, List.length_cons, ← succ_offset]
      exact ih (fun d hd => hfs d (List.mem_cons_of_mem _ hd)) h.tail
        (Nat.lt_of_succ_lt_succ hturns) flags'

theorem atoi_prints {ds : List (BitVec 8)} (hds : ∀ c ∈ ds, isDigit c = true)
    (hend : isDigit (first rest) = false) (h : Legible m P p (ds ++ rest))
    (hturns : ds.length < turns) (i : BitVec 32) :
    Prints out m P (atoi turns i p) idx k [] 0
      (digitsValue i ds, p + BitVec.ofNat 64 ds.length) := by
  induction ds generalizing p turns i with
  | nil =>
      obtain ⟨turns, rfl⟩ := exists_turn hturns
      have hstop : ¬ isDigit (m p) = true := by
        rw [h.head]
        simpa using hend
      refine .look h.here (.ite_neg hstop ?_)
      rw [List.length_nil, BitVec.add_zero]
      exact .pure _ _ _ _ _ _
  | cons c ds ih =>
      obtain ⟨turns, rfl⟩ := exists_turn hturns
      have hc : m p = c := h.head
      refine .look h.here ?_
      rw [hc, List.length_cons, ← succ_offset]
      refine .ite_pos (hds c List.mem_cons_self) ?_
      exact ih (fun d hd => hds d (List.mem_cons_of_mem _ hd)) h.tail
        (Nat.lt_of_succ_lt_succ hturns) _

theorem first_append_of_ne (hpre : pre ≠ []) (rest : List (BitVec 8)) :
    first (pre ++ rest) = first pre := by
  cases pre with
  | nil => exact absurd rfl hpre
  | cons c pre => rfl

theorem first_mem (hpre : pre ≠ []) : first pre ∈ pre := by
  cases pre with
  | nil => exact absurd rfl hpre
  | cons c pre => exact List.mem_cons_self

theorem widthField_prints (hkeeps : Keeps out P) {count : Count} (hends : count.Ends (first rest))
    (h : Legible m P p (count.text ++ rest)) (hturns : count.text.length < turns)
    (flags : Flags) :
    Prints out m P (widthField turns args flags p) idx k [] count.args
      ((count.width flags (args k)).1, (count.width flags (args k)).2,
        p + BitVec.ofNat 64 count.text.length) := by
  cases count with
  | none =>
      have hc : m p = first rest := h.head
      refine .look h.here ?_
      rw [hc]
      refine .ite_neg (by simpa using hends.1) (.ite_neg hends.2 ?_)
      rw [Count.text, List.length_nil, BitVec.add_zero]
      exact .pure _ _ _ _ _ _
  | digits ds =>
      obtain ⟨hne, hds, hend⟩ := hends
      have hc : m p = first ds := h.head.trans (first_append_of_ne hne rest)
      refine .look h.here ?_
      rw [hc]
      refine .ite_pos (hds _ (first_mem hne)) ?_
      exact (atoi_prints hds hend h hturns 0#32).quiet hkeeps (.pure _ _ _ _ _ _)
  | star =>
      have hc : m p = ascii '*' := h.head
      refine .look h.here ?_
      rw [hc]
      exact .ite_neg (by decide) (.ite_pos rfl (.vaArg (.pure _ _ _ _ _ _)))

/-- The number behind the point. -/
theorem precisionCount_prints (hkeeps : Keeps out P) {count : Count}
    (hends : count.Ends (first rest)) (h : Legible m P p (count.text ++ rest))
    (hturns : count.text.length < turns) (flags : Flags) :
    Prints out m P (do
      let c ← look p
      if isDigit c then do
        let (precision, format) ← atoi turns 0#32 p
        pure (flags, precision, format)
      else if c = ascii '*' then do
        let prec ← vaArg args
        pure (flags, starPrecision prec, p + 1)
      else pure (flags, 0#32, p)) idx k [] count.args
      (flags, count.precision (args k), p + BitVec.ofNat 64 count.text.length) := by
  cases count with
  | none =>
      have hc : m p = first rest := h.head
      refine .look h.here ?_
      rw [hc]
      refine .ite_neg (by simpa using hends.1) (.ite_neg hends.2 ?_)
      rw [Count.text, List.length_nil, BitVec.add_zero]
      exact .pure _ _ _ _ _ _
  | digits ds =>
      obtain ⟨hne, hds, hend⟩ := hends
      have hc : m p = first ds := h.head.trans (first_append_of_ne hne rest)
      refine .look h.here ?_
      rw [hc]
      refine .ite_pos (hds _ (first_mem hne)) ?_
      exact (atoi_prints hds hend h hturns 0#32).quiet hkeeps (.pure _ _ _ _ _ _)
  | star =>
      have hc : m p = ascii '*' := h.head
      refine .look h.here ?_
      rw [hc]
      exact .ite_neg (by decide) (.ite_pos rfl (.vaArg (.pure _ _ _ _ _ _)))

theorem precisionField_prints (hkeeps : Keeps out P) {d : Fields} (hends : d.Ends rest)
    (h : Legible m P p (d.precisionOn rest)) (hturns : d.precisionText.length < turns)
    (flags : Flags) :
    Prints out m P (precisionField turns args flags p) idx k [] d.precisionArgs
      ((d.precisionSetting flags (args k)).1, (d.precisionSetting flags (args k)).2,
        p + BitVec.ofNat 64 d.precisionText.length) := by
  have hpoint := hends.point
  have hcount := hends.precision
  unfold Fields.precisionOn Fields.precisionText at h
  unfold Fields.precisionText at hturns ⊢
  unfold Fields.precisionArgs Fields.precisionSetting
  cases hprec : d.precision with
  | none =>
      rw [hprec] at h
      have hc : m p = first (d.lengthOn rest) := h.head
      refine .look h.here ?_
      rw [hc, List.length_nil, BitVec.add_zero]
      exact .ite_neg (hpoint hprec) (.pure _ _ _ _ _ _)
  | some count =>
      rw [hprec] at h hturns
      have hc : m p = ascii '.' := h.head
      refine .look h.here ?_
      rw [hc, List.length_cons, ← succ_offset]
      refine .ite_pos rfl ?_
      exact precisionCount_prints hkeeps (hcount count hprec) h.tail
        (Nat.lt_of_succ_lt hturns) { flags with precision := true }

theorem lengthField_prints {length : Length} (hends : length.Ends (first rest))
    (h : Legible m P p (length.text ++ rest)) (flags : Flags) :
    Prints out m P (lengthField flags p) idx k [] 0
      (length.apply flags, p + BitVec.ofNat 64 length.text.length) := by
  have hone : ∀ q : Ptr, q + BitVec.ofNat 64 1 = q + 1 := fun _ => rfl
  have htwo : ∀ q : Ptr, q + BitVec.ofNat 64 2 = q + 1 + 1 := by
    intro q
    bv_omega
  cases length with
  | none =>
      have hc : m p = first rest := h.head
      simp only [Length.Ends, List.map_cons, List.map_nil, List.mem_cons, List.not_mem_nil,
        or_false, not_or] at hends
      obtain ⟨hl, hh, ht, hj, hz⟩ := hends
      refine .look h.here ?_
      rw [hc]
      refine .ite_neg hl (.ite_neg hh (.ite_neg (by simp [ht, hj, hz]) ?_))
      rw [Length.text, List.length_nil, BitVec.add_zero]
      exact .pure _ _ _ _ _ _
  | l =>
      have hc : m p = ascii 'l' := h.head
      have hd : m (p + 1) = first rest := h.tail.head
      refine .look h.here ?_
      rw [hc]
      refine .ite_pos rfl (.look h.tail.here ?_)
      rw [hd]
      exact .ite_neg hends (.pure _ _ _ _ _ _)
  | ll =>
      have hc : m p = ascii 'l' := h.head
      have hd : m (p + 1) = ascii 'l' := h.tail.head
      refine .look h.here ?_
      rw [hc]
      refine .ite_pos rfl (.look h.tail.here ?_)
      rw [hd, Length.text, List.length_cons, List.length_singleton, htwo]
      exact .ite_pos rfl (.pure _ _ _ _ _ _)
  | h =>
      have hc : m p = ascii 'h' := h.head
      have hd : m (p + 1) = first rest := h.tail.head
      refine .look h.here ?_
      rw [hc]
      refine .ite_neg (by decide) (.ite_pos rfl (.look h.tail.here ?_))
      rw [hd]
      exact .ite_neg hends (.pure _ _ _ _ _ _)
  | hh =>
      have hc : m p = ascii 'h' := h.head
      have hd : m (p + 1) = ascii 'h' := h.tail.head
      refine .look h.here ?_
      rw [hc]
      refine .ite_neg (by decide) (.ite_pos rfl (.look h.tail.here ?_))
      rw [hd, Length.text, List.length_cons, List.length_singleton, htwo]
      exact .ite_pos rfl (.pure _ _ _ _ _ _)
  | t =>
      have hc : m p = ascii 't' := h.head
      refine .look h.here ?_
      rw [hc]
      exact .ite_neg (by decide) (.ite_neg (by decide)
        (.ite_pos (by decide) (.pure _ _ _ _ _ _)))
  | j =>
      have hc : m p = ascii 'j' := h.head
      refine .look h.here ?_
      rw [hc]
      exact .ite_neg (by decide) (.ite_neg (by decide)
        (.ite_pos (by decide) (.pure _ _ _ _ _ _)))
  | z =>
      have hc : m p = ascii 'z' := h.head
      refine .look h.here ?_
      rw [hc]
      exact .ite_neg (by decide) (.ite_neg (by decide)
        (.ite_pos (by decide) (.pure _ _ _ _ _ _)))

theorem Length.apply_precision (flags : Flags) (length : Length) :
    (length.apply flags).precision = flags.precision := by
  cases length <;> rfl

/-- Without a point the precision is 0. -/
theorem Fields.setting_no_precision (d : Fields) (args : Nat → BitVec 64) (k : Nat)
    (h : (d.setting args k).flags.precision = false) : (d.setting args k).precision = 0#32 := by
  unfold Fields.setting Fields.precisionSetting at h ⊢
  cases hprec : d.precision with
  | none => rfl
  | some count =>
      simp only [hprec, Length.apply_precision] at h
      cases h

theorem Fields.length_textOn (d : Fields) :
    (d.textOn []).length = d.flags.length +
      (d.width.text.length + (d.precisionText.length + d.length.text.length)) := by
  simp only [Fields.textOn, Fields.widthOn, Fields.precisionOn, Fields.lengthOn,
    List.length_append, List.length_nil, Nat.add_zero]

/-- The specifier is what stands behind the fields, be it the terminator. -/
theorem directive_prints (hkeeps : Keeps out P) {d : Fields} (hends : d.Ends rest)
    (h : Legible m P p (d.textOn rest)) (hturns : (d.textOn []).length < turns)
    (henough : 2 ^ 32 ≤ turns) (hstring : first rest = ascii 's' →
      Countable m P (d.setting args k).precision (args (k + d.args))) :
    Prints out m P (directive out turns args p idx) idx k
      (d.render m args k (first rest)) (d.args + takes (first rest))
      (p + BitVec.ofNat 64 ((d.textOn []).length + 1),
        idx + BitVec.ofNat 64 (d.render m args k (first rest)).length) := by
  rw [Fields.length_textOn] at hturns ⊢
  have hwidth : Legible m P _ (d.widthOn rest) := h.right
  have hprecision : Legible m P _ (d.precisionOn rest) := hwidth.right
  have hlength : Legible m P _ (d.lengthOn rest) := hprecision.right
  have hconv : Legible m P _ rest := hlength.right
  have hplace : ∀ i j k l : Nat, p + BitVec.ofNat 64 i + BitVec.ofNat 64 j + BitVec.ofNat 64 k +
      BitVec.ofNat 64 l + 1 = p + BitVec.ofNat 64 (i + (j + (k + l)) + 1) := by
    intro i j k l
    simp only [offset_offset, offset_succ, Nat.add_assoc]
  rw [← hplace, Fields.args, Nat.add_assoc]
  refine (flagsLoop_prints hends.flags hends.flagsEnd h (by omega) {}).quiet hkeeps ?_
  refine (widthField_prints hkeeps hends.width hwidth (by omega) _).silent hkeeps ?_
  refine (precisionField_prints hkeeps hends hprecision (by omega) _).silent hkeeps ?_
  refine (lengthField_prints hends.length hlength _).quiet hkeeps ?_
  refine .look hconv.here ?_
  rw [hconv.head, Nat.add_assoc k]
  have hspec : Puts out m P (specifier out turns args (d.setting args k).flags
      (d.setting args k).width (d.setting args k).precision (first rest)) (k + d.args)
      (d.render m args k (first rest)) (takes (first rest)) :=
    specifier_puts hkeeps (d.setting_no_precision args k) (first rest) henough hstring
  exact (hspec idx).last hkeeps (.pure _ _ _ _ _ _)

end Legible

end Asnu.Printk
