import Mathlib.Data.List.Basic
import Mathlib.Data.List.ReduceOption

/-!
Parts of a list: where another list occurs first, maximal runs, and a list cut up from its
front. Each cut takes the next run of the elements it is asked for, and the one after it
goes on behind the element that ended it.
-/

namespace Asnu.Lib

variable {α : Type}

/-! ### Occurrences -/

/-- `i` is the first place where `pat` occurs. -/
structure IsFirst (pat text : List α) (i : Nat) : Prop where
  here : pat <+: text.drop i
  not_before : ∀ j < i, ¬ pat <+: text.drop j

section Occurrence

variable {pat text : List α} {i j : Nat}

theorem IsFirst.zero (h : pat <+: text) : IsFirst pat text 0 :=
  ⟨h, fun _ hj => absurd hj (Nat.not_lt_zero _)⟩

theorem IsFirst.cons {c : α} (hnot : ¬ pat <+: c :: text) (h : IsFirst pat text i) :
    IsFirst pat (c :: text) (i + 1) := by
  refine ⟨h.here, fun j hj => ?_⟩
  cases j with
  | zero => exact hnot
  | succ j => exact h.not_before j (Nat.lt_of_succ_lt_succ hj)

theorem IsFirst.unique (h : IsFirst pat text i) (h' : IsFirst pat text j) : i = j := by
  rcases Nat.lt_trichotomy i j with hlt | heq | hgt
  · exact absurd h.here (h'.not_before i hlt)
  · exact heq
  · exact absurd h'.here (h.not_before j hgt)

theorem IsFirst.infix (h : IsFirst pat text i) : pat <:+: text :=
  h.here.isInfix.trans (List.drop_suffix i text).isInfix

theorem IsFirst.le (h : IsFirst pat text i) : i ≤ text.length := by
  by_contra hlt
  apply h.not_before text.length (Nat.lt_of_not_le hlt)
  rw [List.drop_length, ← List.drop_eq_nil_of_le (Nat.le_of_lt (Nat.lt_of_not_le hlt))]
  exact h.here

end Occurrence

/-! ### Runs -/

/-- The elements from place `a` up to place `b` have `p`, and the run cannot be extended. -/
structure IsRun (p : α → Bool) (text : List α) (a b : Nat) : Prop where
  lt : a < b
  le : b ≤ text.length
  inside : ∀ k c, a ≤ k → k < b → text[k]? = some c → p c = true
  before : ∀ k c, k + 1 = a → text[k]? = some c → p c = false
  behind : ∀ c, text[b]? = some c → p c = false

/-- The first place from `i` on that does not have `p`, or the end. -/
def scanTo (p : α → Bool) (text : List α) (i : Nat) : Nat :=
  i + (text.drop i).findIdx (fun c => !p c)

section Scan

variable {p : α → Bool} {text : List α} {i : Nat} {c : α}

theorem drop_eq_cons (h : text[i]? = some c) : text.drop i = c :: text.drop (i + 1) := by
  obtain ⟨hi, rfl⟩ := List.getElem?_eq_some_iff.mp h
  exact List.drop_eq_getElem_cons hi

theorem le_scanTo (p : α → Bool) (text : List α) (i : Nat) : i ≤ scanTo p text i :=
  Nat.le_add_right _ _

theorem scanTo_le (hi : i ≤ text.length) : scanTo p text i ≤ text.length := by
  have hle : (text.drop i).findIdx (fun c => !p c) ≤ (text.drop i).length :=
    List.findIdx_le_length
  rw [List.length_drop] at hle
  unfold scanTo
  omega

theorem scanTo_step (h : text[i]? = some c) (hc : p c = true) :
    scanTo p text i = scanTo p text (i + 1) := by
  simp only [scanTo, drop_eq_cons h, List.findIdx_cons, hc, Bool.not_true, cond_false]
  omega

theorem scanTo_inside {k : Nat} (hik : i ≤ k) (hk : k < scanTo p text i) (h : text[k]? = some c) :
    p c = true := by
  obtain ⟨n, rfl⟩ := Nat.exists_eq_add_of_le hik
  have hn : n < (text.drop i).findIdx (fun c => !p c) := by
    unfold scanTo at hk
    omega
  have hnot := List.not_of_lt_findIdx hn
  rw [← List.getElem?_drop] at h
  obtain ⟨_, hget⟩ := List.getElem?_eq_some_iff.mp h
  simpa [hget] using hnot

theorem scanTo_behind (h : text[scanTo p text i]? = some c) : p c = false := by
  rw [scanTo, ← List.getElem?_drop] at h
  obtain ⟨hlt, hget⟩ := List.getElem?_eq_some_iff.mp h
  have hfound := List.findIdx_getElem (w := hlt)
  simpa [hget] using hfound

end Scan

/-! ### Cutting -/

/-- The next run of elements with `p` from a place on, and the place behind the element that
ends it, if one does. Without a place, or without a run, there is none any more. -/
def cut (text : List α) (p : α → Bool) : Option Nat → Option (Nat × Nat) × Option Nat
  | none => (none, none)
  | some i =>
      let a := scanTo (fun c => !p c) text i
      let b := scanTo p text a
      if a < text.length then (some (a, b), if b < text.length then some (b + 1) else none)
      else (none, none)

/-- A cut for each of the given kinds of elements. -/
def cuts (text : List α) : Option Nat → List (α → Bool) → List (Option (Nat × Nat))
  | _, [] => []
  | place, p :: ps => (cut text p place).1 :: cuts text (cut text p place).2 ps

/-- A part of a text that is not empty, from a place on. -/
structure IsPart (text : List α) (i : Nat) (r : Nat × Nat) : Prop where
  start : i ≤ r.1
  lt : r.1 < r.2
  le : r.2 ≤ text.length

/-- No run with `p` goes on across the place. -/
def Fresh (p : α → Bool) (text : List α) (i : Nat) : Prop :=
  ∀ k c, k + 1 = i → text[k]? = some c → p c = false

section Cut

variable {p : α → Bool} {text : List α} {i a b : Nat}

/-- Everything about one cut. -/
theorem cut_cases (p : α → Bool) (text : List α) (i : Nat) :
    (cut text p (some i) = (none, none) ∧ text.length ≤ scanTo (fun c => !p c) text i) ∨
    ∃ a b, a = scanTo (fun c => !p c) text i ∧ b = scanTo p text a ∧ a < text.length ∧
      cut text p (some i) = (some (a, b), if b < text.length then some (b + 1) else none) := by
  by_cases hlt : scanTo (fun c => !p c) text i < text.length
  · exact Or.inr ⟨_, _, rfl, rfl, hlt, if_pos hlt⟩
  · exact Or.inl ⟨if_neg hlt, Nat.le_of_not_lt hlt⟩

theorem isPart_of_cut (ha : a = scanTo (fun c => !p c) text i) (hb : b = scanTo p text a)
    (hlt : a < text.length) : IsPart text i (a, b) := by
  obtain ⟨c, hc⟩ : ∃ c, text[a]? = some c := ⟨text[a], List.getElem?_eq_getElem hlt⟩
  have hstart : p c = true := by
    have hbehind := scanTo_behind (p := fun c => !p c) (i := i) (ha ▸ hc)
    simpa using hbehind
  refine ⟨?_, ?_, ?_⟩
  · rw [ha]
    exact le_scanTo _ text i
  · have hnext := le_scanTo p text (a + 1)
    rw [← scanTo_step hc hstart, ← hb] at hnext
    exact hnext
  · rw [hb]
    exact scanTo_le (Nat.le_of_lt hlt)

theorem cut_le {place : Option Nat} {r : Nat × Nat} (hr : r ∈ (cut text p place).1) :
    r.2 ≤ text.length := by
  cases place with
  | none => exact nomatch hr
  | some i =>
      rcases cut_cases p text i with ⟨hcut, _⟩ | ⟨a, b, ha, hb, hlt, hcut⟩
      · rw [hcut] at hr
        exact nomatch hr
      · rw [hcut] at hr
        obtain rfl : (a, b) = r := Option.some.inj hr
        exact (isPart_of_cut ha hb hlt).le

/-- What is cut off is a run. -/
theorem isRun_cut (hfresh : Fresh p text i) (ha : a = scanTo (fun c => !p c) text i)
    (hb : b = scanTo p text a) (hlt : a < text.length) : IsRun p text a b := by
  have hpart := isPart_of_cut ha hb hlt
  refine ⟨hpart.lt, hpart.le, fun k d hk hkb hd => ?_, fun k d hk hd => ?_, fun d hd => ?_⟩
  · exact scanTo_inside hk (hb ▸ hkb) hd
  · have hle := le_scanTo (fun c => !p c) text i
    rcases Nat.lt_or_ge k i with hki | hik
    · exact hfresh k d (by omega) hd
    · have hskipped := scanTo_inside (p := fun c => !p c) hik (by omega) hd
      simpa using hskipped
  · exact scanTo_behind (hb ▸ hd)

theorem IsRun.getElem? (h : IsRun p text a b) {k : Nat} (hk : k < b) :
    ∃ c, text[k]? = some c := by
  have hlt := Nat.lt_of_lt_of_le hk h.le
  exact ⟨text[k], List.getElem?_eq_getElem hlt⟩

/-- Runs that begin together end together. -/
theorem IsRun.end_le {b' : Nat} (h : IsRun p text a b) (h' : IsRun p text a b') : b' ≤ b := by
  by_contra hlt
  obtain ⟨c, hc⟩ := h'.getElem? (Nat.lt_of_not_le hlt)
  have hin := h'.inside b c (Nat.le_of_lt h.lt) (Nat.lt_of_not_le hlt) hc
  rw [h.behind c hc] at hin
  cases hin

/-- A run from the place on is the one cut off or lies behind its end. -/
theorem isRun_ge {a' b' : Nat} (ha : a = scanTo (fun c => !p c) text i)
    (hrun : IsRun p text a b) (hrun' : IsRun p text a' b') (hi : i ≤ a') :
    (a' = a ∧ b' = b) ∨ b + 1 ≤ a' := by
  rcases Nat.lt_trichotomy a' a with hlt | rfl | hgt
  · obtain ⟨c, hc⟩ := hrun'.getElem? hrun'.lt
    have hin := hrun'.inside a' c (Nat.le_refl _) hrun'.lt hc
    have hskipped := scanTo_inside (p := fun c => !p c) hi (ha ▸ hlt) hc
    rw [hin] at hskipped
    cases hskipped
  · exact Or.inl ⟨rfl, Nat.le_antisymm (hrun.end_le hrun') (hrun'.end_le hrun)⟩
  · right
    by_contra hle
    have hpos : a' - 1 + 1 = a' := by omega
    obtain ⟨c, hc⟩ := hrun.getElem? (show a' - 1 < b by omega)
    have hin := hrun.inside (a' - 1) c (by omega) (by omega) hc
    rw [hrun'.before (a' - 1) c hpos hc] at hin
    cases hin

/-- Nothing is cut off only if there is no run left. -/
theorem not_isRun_of_scanTo {a' b' : Nat} (hnone : text.length ≤ scanTo (fun c => !p c) text i)
    (hi : i ≤ a') : ¬ IsRun p text a' b' := by
  intro hrun
  obtain ⟨c, hc⟩ := hrun.getElem? hrun.lt
  have hin := hrun.inside a' c (Nat.le_refl _) hrun.lt hc
  have hlt : a' < scanTo (fun c => !p c) text i :=
    Nat.lt_of_lt_of_le (Nat.lt_of_lt_of_le hrun.lt hrun.le) hnone
  have hskipped := scanTo_inside (p := fun c => !p c) hi hlt hc
  rw [hin] at hskipped
  cases hskipped

end Cut

section Cuts

variable {p : α → Bool} {text : List α}

@[simp] theorem cuts_none (ps : List (α → Bool)) :
    cuts text none ps = List.replicate ps.length none := by
  induction ps with
  | nil => rfl
  | cons p ps ih =>
      rw [cuts, List.length_cons, List.replicate_succ]
      exact congrArg (none :: ·) ih

theorem map_getElem?_cons {β : Type} (r : β) (l : List β) (n : Nat) :
    (List.range (n + 1)).map (fun k => (r :: l)[k]?) =
      some r :: (List.range n).map (fun k => l[k]?) := by
  rw [List.range_succ_eq_map, List.map_cons, List.map_map]
  rfl

theorem map_getElem?_nil {β : Type} (n : Nat) :
    (List.range n).map (fun k => ([] : List β)[k]?) = List.replicate n none := by
  simp [List.map_const']

theorem cuts_of_cut_none {i : Nat} (h : cut text p (some i) = (none, none)) (m : Nat) :
    cuts text (some i) (List.replicate m p) = List.replicate m none := by
  cases m with
  | zero => rfl
  | succ m =>
      rw [List.replicate_succ, cuts, h, cuts_none, List.length_replicate, List.replicate_succ]

/-- `runs` are the runs with `p` from a place on, in order, and what the cuts for them give. -/
structure RunsFrom (p : α → Bool) (text : List α) (place : Option Nat)
    (runs : List (Nat × Nat)) : Prop where
  sorted : runs.Pairwise (fun r r' => r.2 < r'.1)
  mem : ∀ a b, (a, b) ∈ runs ↔ IsRun p text a b ∧ ∃ i ∈ place, i ≤ a
  cuts : ∀ m, cuts text place (List.replicate m p) = (List.range m).map (fun k => runs[k]?)

theorem runsFrom_none (p : α → Bool) (text : List α) : RunsFrom p text none [] where
  sorted := .nil
  mem := fun a b => by simp
  cuts := fun m => by rw [cuts_none, List.length_replicate, map_getElem?_nil]

theorem runsFrom_nil {i : Nat} (hnone : text.length ≤ scanTo (fun c => !p c) text i) :
    RunsFrom p text (some i) [] where
  sorted := .nil
  mem := by
    refine fun a b => iff_of_false List.not_mem_nil ?_
    rintro ⟨hrun, _, ⟨⟩, hle⟩
    exact not_isRun_of_scanTo hnone hle hrun
  cuts := fun m => by
    rw [cuts_of_cut_none (if_neg (Nat.not_lt.mpr hnone)), map_getElem?_nil]

theorem RunsFrom.cons {i a b : Nat} {rest : List (Nat × Nat)} (hrun : IsRun p text a b)
    (ha : a = scanTo (fun c => !p c) text i)
    (hcut : cut text p (some i) = (some (a, b), if b < text.length then some (b + 1) else none))
    (hrest : RunsFrom p text (if b < text.length then some (b + 1) else none) rest) :
    RunsFrom p text (some i) ((a, b) :: rest) := by
  have hia : i ≤ a := ha ▸ le_scanTo _ text i
  have hbehind : ∀ a' b', IsRun p text a' b' →
      ((∃ j ∈ (if b < text.length then some (b + 1) else none), j ≤ a') ↔ b + 1 ≤ a') := by
    intro a' b' hrun'
    have hlt' := hrun'.lt
    have hle' := hrun'.le
    split
    · simp
    · simp only [Option.not_mem_none, false_and, exists_false, false_iff]
      omega
  refine ⟨List.pairwise_cons.mpr ⟨fun r hr => ?_, hrest.sorted⟩, fun a' b' => ?_, fun m => ?_⟩
  · obtain ⟨hrun', hplace⟩ := (hrest.mem r.1 r.2).mp hr
    exact (hbehind _ _ hrun').mp hplace
  · rw [List.mem_cons, Prod.mk.injEq, hrest.mem]
    constructor
    · rintro (⟨rfl, rfl⟩ | ⟨hrun', hplace⟩)
      · exact ⟨hrun, i, rfl, hia⟩
      · have hle := (hbehind _ _ hrun').mp hplace
        have hlt := hrun.lt
        exact ⟨hrun', i, rfl, by omega⟩
    · rintro ⟨hrun', _, ⟨⟩, hle⟩
      refine (isRun_ge ha hrun hrun' hle).imp_right (fun hlater => ⟨hrun', ?_⟩)
      exact (hbehind _ _ hrun').mpr hlater
  · cases m with
    | zero => rfl
    | succ m => rw [List.replicate_succ, Lib.cuts, hcut, hrest.cuts, map_getElem?_cons]

/-- Cut with the same elements each time, a text falls into its runs from the place on. -/
theorem exists_runsFrom (n : Nat) {i : Nat} (hi : text.length < i + n) (hfresh : Fresh p text i) :
    ∃ runs, RunsFrom p text (some i) runs := by
  induction n generalizing i with
  | zero =>
      have hle := le_scanTo (fun c => !p c) text i
      exact ⟨[], runsFrom_nil (by omega)⟩
  | succ n ih =>
      rcases cut_cases p text i with ⟨_, hnone⟩ | ⟨a, b, ha, hb, hlt, hcut⟩
      · exact ⟨[], runsFrom_nil hnone⟩
      · have hrun := isRun_cut hfresh ha hb hlt
        have hia : i ≤ a := ha ▸ le_scanTo _ text i
        obtain ⟨rest, hrest⟩ : ∃ rest,
            RunsFrom p text (if b < text.length then some (b + 1) else none) rest := by
          split
          · have hab := hrun.lt
            refine ih (by omega) (fun k c hk hc => ?_)
            obtain rfl : k = b := Nat.succ.inj hk
            exact hrun.behind c hc
          · exact ⟨[], runsFrom_none p text⟩
        exact ⟨_, hrest.cons hrun ha hcut⟩

/-- The runs of a text are what its cuts give, and no more. -/
theorem exists_runs (p : α → Bool) (text : List α) :
    ∃ runs : List (Nat × Nat), runs.Pairwise (fun r r' => r.2 < r'.1) ∧
      (∀ a b, (a, b) ∈ runs ↔ IsRun p text a b) ∧
      ∀ m, cuts text (some 0) (List.replicate m p) = (List.range m).map (fun k => runs[k]?) := by
  have hfresh : Fresh p text 0 := fun _ _ hk => absurd hk (Nat.succ_ne_zero _)
  obtain ⟨runs, hruns⟩ := exists_runsFrom (text.length + 1) (by omega) hfresh
  refine ⟨runs, hruns.sorted, fun a b => ?_, hruns.cuts⟩
  rw [hruns.mem, and_iff_left ⟨0, rfl, Nat.zero_le a⟩]

end Cuts

/-- Whatever each cut is for, its part lies behind the place, and behind the parts before. -/
theorem cuts_sorted (text : List α) (ps : List (α → Bool)) (i : Nat) :
    (cuts text (some i) ps).reduceOption.Pairwise (fun r r' => r.2 < r'.1) ∧
      ∀ r ∈ (cuts text (some i) ps).reduceOption, IsPart text i r := by
  induction ps generalizing i with
  | nil => exact ⟨.nil, fun r hr => nomatch hr⟩
  | cons p ps ih =>
      rw [cuts]
      rcases cut_cases p text i with ⟨hcut, _⟩ | ⟨a, b, ha, hb, hlt, hcut⟩
      · rw [hcut, cuts_none, List.reduceOption_cons_of_none, List.reduceOption_replicate_none]
        exact ⟨.nil, fun r hr => nomatch hr⟩
      · have hpart := isPart_of_cut ha hb hlt
        have hia := hpart.start
        have hab := hpart.lt
        rw [hcut, List.reduceOption_cons_of_some]
        by_cases hend : b < text.length
        · obtain ⟨hsorted, hparts⟩ := ih (b + 1)
          rw [if_pos hend]
          refine ⟨List.pairwise_cons.mpr ⟨fun r hr => (hparts r hr).start, hsorted⟩,
            fun r hr => ?_⟩
          rcases List.mem_cons.mp hr with rfl | hr
          · exact hpart
          · have hlater := hparts r hr
            have hstart := hlater.start
            exact ⟨by omega, hlater.lt, hlater.le⟩
        · rw [if_neg hend, cuts_none, List.reduceOption_replicate_none]
          refine ⟨List.pairwise_singleton _ _, fun r hr => ?_⟩
          exact List.mem_singleton.mp hr ▸ hpart

/-- Of two parts of a sorted list the one ends before the other begins, or not before its end. -/
theorem ends_apart {parts : List (Nat × Nat)} (hsorted : parts.Pairwise (fun r r' => r.2 < r'.1))
    (hlt : ∀ r ∈ parts, r.1 < r.2) :
    ∀ ⦃r⦄, r ∈ parts → ∀ ⦃r'⦄, r' ∈ parts → r'.2 < r.1 ∨ r.2 ≤ r'.2 := by
  refine List.Pairwise.forall_of_forall_of_flip (fun r _ => Or.inr (Nat.le_refl _)) ?_
    (hsorted.imp Or.inl)
  refine hsorted.imp_of_mem (fun {r r'} _ hr' hend => ?_)
  have hlater := hlt r' hr'
  exact Or.inr (by omega)

end Asnu.Lib
