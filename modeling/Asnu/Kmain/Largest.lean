import Asnu.Kmain.RunnerUp

/-!
What the variables of the selection loop of `kmain` say at its end: which entry is
the largest, which one it took the place of, and the totals.
-/

namespace Asnu

open Lib

/-- The length of all these entries together. -/
def totalLength (entries : List MemmapEntry) : Nat :=
  (entries.map (fun e => e.length.toNat)).sum

def usableEntries (entries : List MemmapEntry) : List MemmapEntry :=
  entries.filter (fun e => e.type = .usable)

theorem totalLength_append (xs ys : List MemmapEntry) :
    totalLength (xs ++ ys) = totalLength xs + totalLength ys := by
  rw [totalLength, List.map_append, List.sum_append]
  rfl

theorem totalLength_singleton (e : MemmapEntry) : totalLength [e] = e.length.toNat := by
  simp [totalLength]

theorem usableEntries_append (xs ys : List MemmapEntry) :
    usableEntries (xs ++ ys) = usableEntries xs ++ usableEntries ys := List.filter_append ..

theorem usableEntries_singleton (e : MemmapEntry) :
    usableEntries [e] = if e.type = .usable then [e] else [] := by
  simp [usableEntries, List.filter_cons]

/-- One more length, modulo 2^64. -/
theorem add_length_toNat {total : BitVec 64} {n : Nat} (h : total.toNat = n % 2 ^ 64)
    (e : MemmapEntry) : (total + e.length).toNat = (n + totalLength [e]) % 2 ^ 64 := by
  rw [BitVec.toNat_add, h, totalLength_singleton, Nat.mod_add_mod]

namespace Selection

/-- The totals after `n` entries, and the copy of the largest length. -/
structure InStep (entries : List MemmapEntry) (n : Nat) (sel : Selection) : Prop where
  pmm : ∀ i, sel.largestEntry = some i →
    ∃ e, entries[i]? = some e ∧ sel.totalPmmMemory = e.length
  total : sel.totalMemory.toNat = totalLength (entries.take n) % 2 ^ 64
  usable : sel.totalUsableMemory.toNat =
    totalLength (usableEntries (entries.take n)) % 2 ^ 64

theorem inStep_start (entries : List MemmapEntry) : InStep entries 0 {} where
  pmm := by simp
  total := rfl
  usable := rfl

section Step

variable {entries : List MemmapEntry} {sel : Selection} {entry : MemmapEntry} {n : Nat}

theorem step_totalMemory :
    (sel.step entries (entry, n)).totalMemory = sel.totalMemory + entry.length := by
  unfold step
  dsimp only
  split_ifs <;> rfl

theorem step_totalUsableMemory :
    (sel.step entries (entry, n)).totalUsableMemory =
      if entry.type = .usable then sel.totalUsableMemory + entry.length
      else sel.totalUsableMemory := by
  unfold step
  dsimp only
  split_ifs <;> rfl

/-- `LargestEntry` and `TotalPmmMemory` change together. -/
theorem step_totalPmmMemory :
    ((sel.step entries (entry, n)).largestEntry = some n ∧
        (sel.step entries (entry, n)).totalPmmMemory = entry.length) ∨
      ((sel.step entries (entry, n)).largestEntry = sel.largestEntry ∧
        (sel.step entries (entry, n)).totalPmmMemory = sel.totalPmmMemory) := by
  unfold step
  dsimp only
  split_ifs <;> simp only [and_self, or_true, true_or]

theorem InStep.step (h : sel.InStep entries n) (hentry : entries[n]? = some entry) :
    (sel.step entries (entry, n)).InStep entries (n + 1) where
  pmm := by
    intro i hi
    rcases @step_totalPmmMemory entries sel entry n with
      ⟨hindex, hlength⟩ | ⟨hindex, hlength⟩
    · obtain rfl := Option.some.inj (hindex.symm.trans hi)
      exact ⟨entry, hentry, hlength⟩
    · rw [hlength]
      exact h.pmm i (hindex.symm.trans hi)
  total := by
    rw [step_totalMemory, List.take_add_one, hentry, Option.toList_some, totalLength_append]
    exact add_length_toNat h.total entry
  usable := by
    rw [step_totalUsableMemory, List.take_add_one, hentry, Option.toList_some,
      usableEntries_append, totalLength_append, usableEntries_singleton]
    split
    · exact add_length_toNat h.usable entry
    · exact h.usable

end Step

end Selection

theorem selectEntries_inStep (entries : List MemmapEntry) :
    (selectEntries entries).InStep entries entries.length :=
  selectEntries_invariant (fun n sel => sel.InStep entries n) (Selection.inStep_start entries)
    (fun _ _ _ hentry h => h.step hentry)

/-- The entry in second place is usable, stands before the one in first place, and is
shorter. -/
def Overtaken (entries : List MemmapEntry) (sel : Selection) (i : Nat) (e : MemmapEntry) : Prop :=
  ∀ j, sel.secondLargestEntry = some j → ∃ d, entries[j]? = some d ∧ d.type = .usable ∧
    j < i ∧ d.length < e.length ∧ sel.baseSecondLargestEntry = d.base

theorem overtaken_selectEntries {entries : List MemmapEntry} {i : Nat} {e : MemmapEntry}
    (hi : (selectEntries entries).largestEntry = some i) (hlongest : Longest entries i)
    (he : entries[i]? = some e) : Overtaken entries (selectEntries entries) i e := by
  intro j hj
  have h := selectEntries_records entries
  obtain ⟨d, hd, husable, hbase⟩ := h.sound.second j hj
  obtain ⟨e', he', _, hmax⟩ := hlongest
  obtain rfl := Option.some.inj (he'.symm.trans he)
  have hji : j < i := by
    have hsecond := h.second i hi
    rw [hj] at hsecond
    exact hsecond.1
  exact ⟨d, hd, husable, hji, (hmax j d hd husable).2 hji, hbase⟩

/-- After the loop the variables agree with each other and with the map. -/
theorem largest_region (entries : List MemmapEntry) (husable : ∃ e ∈ entries, e.type = .usable) :
    let sel := selectEntries entries
    ∃ i e, sel.largestEntry = some i ∧ Longest entries i ∧ entries[i]? = some e ∧
      sel.baseLargestEntry = e.base ∧ sel.totalPmmMemory = e.length ∧
      Overtaken entries sel i e ∧
      sel.totalUsableMemory.toNat = totalLength (usableEntries entries) % 2 ^ 64 ∧
      sel.totalMemory.toNat = totalLength entries % 2 ^ 64 := by
  obtain ⟨i, hi⟩ := Option.ne_none_iff_exists'.mp (selectEntries_largest husable)
  obtain ⟨e, he, _, hbase⟩ := (selectEntries_sound entries).largest i hi
  have hlongest : Longest entries i := by
    have hlargest := (selectEntries_records entries).largest
    rw [hi] at hlargest
    exact longest_iff.mpr hlargest
  have h := selectEntries_inStep entries
  obtain ⟨e', he', hpmm⟩ := h.pmm i hi
  obtain rfl := Option.some.inj (he'.symm.trans he)
  have htotal := h.total
  have husableTotal := h.usable
  rw [List.take_length] at htotal husableTotal
  exact ⟨i, e', hi, hlongest, he, hbase, hpmm, overtaken_selectEntries hi hlongest he,
    husableTotal, htotal⟩

theorem largest_region_bigMap :
    let sel := selectEntries Sample.bigMap
    ∃ i e, sel.largestEntry = some i ∧ Longest Sample.bigMap i ∧ Sample.bigMap[i]? = some e ∧
      sel.baseLargestEntry = e.base ∧ sel.totalPmmMemory = e.length ∧
      Overtaken Sample.bigMap sel i e ∧
      sel.totalUsableMemory.toNat = totalLength (usableEntries Sample.bigMap) % 2 ^ 64 ∧
      sel.totalMemory.toNat = totalLength Sample.bigMap % 2 ^ 64 :=
  largest_region Sample.bigMap ⟨⟨0x1000#64, 0x9E000#64, .usable⟩, by decide, rfl⟩

end Asnu
