import Asnu.Kmain
import Asnu.Lib.FirstMax

/-!
Which second entry the selection loop of `kmain` ends with. The loop moves an
entry to second place when a longer one takes its place and at no other time,
so an entry that comes after the largest is never considered.
-/

namespace Asnu

open Lib

/-- The length of a usable entry. -/
def usableLength (entries : List MemmapEntry) (k : Nat) : Option Nat :=
  (entries[k]?.filter (fun e => e.type = .usable)).map (fun e => e.length.toNat)

theorem usableLength_eq_some {entries : List MemmapEntry} {k n : Nat} :
    usableLength entries k = some n ↔
      ∃ e, entries[k]? = some e ∧ e.type = .usable ∧ e.length.toNat = n := by
  simp [usableLength, Option.map_eq_some_iff, Option.filter_eq_some_iff, and_assoc]

theorem usableLength_of_usable {entries : List MemmapEntry} {k : Nat} {e : MemmapEntry}
    (he : entries[k]? = some e) (husable : e.type = .usable) :
    usableLength entries k = some e.length.toNat :=
  usableLength_eq_some.mpr ⟨e, he, husable, rfl⟩

theorem usableLength_of_not {entries : List MemmapEntry} {k : Nat} {e : MemmapEntry}
    (he : entries[k]? = some e) (husable : e.type ≠ .usable) :
    usableLength entries k = none := by
  simp [usableLength, he, husable]

namespace Selection

section Step

variable {entries : List MemmapEntry} {sel : Selection} {entry : MemmapEntry} {n : Nat}

theorem step_taken (husable : entry.type = .usable)
    (hlonger : sel.largestEntry = none ∨ entry.length > lengthAt entries 0#64 sel.largestEntry) :
    (sel.step entries (entry, n)).largestEntry = some n ∧
      (sel.step entries (entry, n)).secondLargestEntry = sel.largestEntry := by
  simp only [step, if_pos hlonger, if_pos husable, and_self]

theorem step_passed (hpassed : entry.type ≠ .usable ∨
      ¬ (sel.largestEntry = none ∨ entry.length > lengthAt entries 0#64 sel.largestEntry)) :
    (sel.step entries (entry, n)).largestEntry = sel.largestEntry ∧
      (sel.step entries (entry, n)).secondLargestEntry = sel.secondLargestEntry := by
  unfold step
  rcases hpassed with htype | hshort
  · simp only [if_neg htype, ite_self, and_self]
  · simp only [if_neg hshort]
    split <;> exact ⟨rfl, rfl⟩

end Step

/-- After `n` entries the first index is that of the longest usable one, and the
second is the one it had before that. -/
structure Records (entries : List MemmapEntry) (n : Nat) (sel : Selection) : Prop where
  sound : sel.Sound entries
  largest : FirstMax (usableLength entries) n sel.largestEntry
  second : ∀ i, sel.largestEntry = some i →
    FirstMax (usableLength entries) i sel.secondLargestEntry

theorem Records.zero {entries : List MemmapEntry} : Records entries 0 {} where
  sound := ⟨by simp, by simp, by simp⟩
  largest := FirstMax.zero
  second := by simp

theorem lengthAt_toNat {entries : List MemmapEntry} {beyond : BitVec 64} {i n : Nat}
    (h : usableLength entries i = some n) :
    (lengthAt entries beyond (some i)).toNat = n := by
  obtain ⟨e, he, _, rfl⟩ := usableLength_eq_some.mp h
  simp [lengthAt, he]

/-- The largest index after the next entry, whether it is taken or not. -/
theorem Records.largest_step {entries : List MemmapEntry} {n : Nat} {sel : Selection}
    (h : Records entries n sel) {entry : MemmapEntry} (hentry : entries[n]? = some entry) :
    FirstMax (usableLength entries) (n + 1) (sel.step entries (entry, n)).largestEntry := by
  have hlargest := h.largest
  by_cases husable : entry.type = .usable
  · have hkey := usableLength_of_usable hentry husable
    cases hsel : sel.largestEntry with
    | none =>
        rw [hsel] at hlargest
        rw [(step_taken husable (Or.inl hsel)).1]
        exact hlargest.record hkey (by simp)
    | some i =>
        rw [hsel] at hlargest
        obtain ⟨_, v, hv, _⟩ := id hlargest
        have hlength : (lengthAt entries 0#64 sel.largestEntry).toNat = v := by
          rw [hsel]
          exact lengthAt_toNat hv
        by_cases hlonger : entry.length > lengthAt entries 0#64 sel.largestEntry
        · rw [(step_taken husable (Or.inr hlonger)).1]
          refine hlargest.record hkey (fun j w hj hw => ?_)
          obtain rfl := Option.some.inj hj
          obtain rfl := Option.some.inj (hv.symm.trans hw)
          exact hlength ▸ BitVec.lt_def.mp hlonger
        · have hpassed : ¬ (sel.largestEntry = none ∨
              entry.length > lengthAt entries 0#64 sel.largestEntry) := by
            rintro (hnone | hgt)
            · exact Option.some_ne_none i (hsel.symm.trans hnone)
            · exact hlonger hgt
          rw [(step_passed (Or.inr hpassed)).1, hsel]
          exact hlargest.keep hv hkey (hlength ▸ BitVec.le_def.mp (BitVec.not_lt.mp hlonger))
  · rw [(step_passed (Or.inl husable)).1]
    exact hlargest.skip (usableLength_of_not hentry husable)

theorem Records.step {entries : List MemmapEntry} {n : Nat} {sel : Selection}
    (h : Records entries n sel) {entry : MemmapEntry} (hentry : entries[n]? = some entry) :
    Records entries (n + 1) (sel.step entries (entry, n)) := by
  refine ⟨h.sound.step hentry, h.largest_step hentry, ?_⟩
  intro i hi
  by_cases htaken : entry.type = .usable ∧ (sel.largestEntry = none ∨
      entry.length > lengthAt entries 0#64 sel.largestEntry)
  · -- a longer entry puts the largest before it into second place
    obtain ⟨hlargest, hsecond⟩ := step_taken (n := n) htaken.1 htaken.2
    obtain rfl := Option.some.inj (hlargest.symm.trans hi)
    rw [hsecond]
    exact h.largest
  · obtain ⟨hlargest, hsecond⟩ := step_passed (n := n) (not_and_or.mp htaken)
    rw [hsecond]
    exact h.second i (hlargest.symm.trans hi)

end Selection

/-- At the end of the loop this holds of the whole map. -/
theorem selectEntries_records (entries : List MemmapEntry) :
    (selectEntries entries).Records entries entries.length :=
  selectEntries_invariant (fun n sel => sel.Records entries n) Selection.Records.zero
    (fun _ _ _ hentry h => h.step hentry)

/-- The entry in second place is usable, not the one in first place, and at least
as long as every other usable one. -/
def RunnerUp (entries : List MemmapEntry) (sel : Selection) : Prop :=
  ∃ i j e, sel.largestEntry = some i ∧ sel.secondLargestEntry = some j ∧ j ≠ i ∧
    entries[j]? = some e ∧ e.type = .usable ∧ sel.baseSecondLargestEntry = e.base ∧
    ∀ k d, k ≠ i → entries[k]? = some d → d.type = .usable → d.length ≤ e.length

/-- The first of the longest usable entries is `i`. -/
def Longest (entries : List MemmapEntry) (i : Nat) : Prop :=
  ∃ e, entries[i]? = some e ∧ e.type = .usable ∧ ∀ k d, entries[k]? = some d →
    d.type = .usable → d.length ≤ e.length ∧ (k < i → d.length < e.length)

/-- A usable entry before the longest one is at least as long as every usable entry
after it. -/
def RivalBefore (entries : List MemmapEntry) : Prop :=
  ∃ i j d, Longest entries i ∧ j < i ∧ entries[j]? = some d ∧ d.type = .usable ∧
    ∀ k e, i < k → entries[k]? = some e → e.type = .usable → e.length ≤ d.length

theorem usableLength_lt {entries : List MemmapEntry} {k n : Nat}
    (h : usableLength entries k = some n) : k < entries.length := by
  obtain ⟨e, he, _⟩ := usableLength_eq_some.mp h
  exact (List.getElem?_eq_some_iff.mp he).1

theorem longest_iff {entries : List MemmapEntry} {i : Nat} :
    Longest entries i ↔ FirstMax (usableLength entries) entries.length (some i) := by
  constructor
  · rintro ⟨e, he, husable, hmax⟩
    have hkey := usableLength_of_usable he husable
    refine ⟨usableLength_lt hkey, e.length.toNat, hkey, fun k _ n hn => ?_, fun k hk n hn => ?_⟩
    · obtain ⟨d, hd, hdusable, rfl⟩ := usableLength_eq_some.mp hn
      exact (hmax k d hd hdusable).1
    · obtain ⟨d, hd, hdusable, rfl⟩ := usableLength_eq_some.mp hn
      exact (hmax k d hd hdusable).2 hk
  · rintro ⟨_, n, hn, hmax, hfirst⟩
    obtain ⟨e, he, husable, rfl⟩ := usableLength_eq_some.mp hn
    refine ⟨e, he, husable, fun k d hd hdusable => ?_⟩
    have hkey := usableLength_of_usable hd hdusable
    exact ⟨hmax k (usableLength_lt hkey) _ hkey, fun hk => hfirst k hk _ hkey⟩

/-- Which usable lengths stand after `i`, in terms of the entries. -/
theorem after_iff {entries : List MemmapEntry} {i n : Nat} :
    (∀ l < entries.length, i < l → ∀ w, usableLength entries l = some w → w ≤ n) ↔
      ∀ k e, i < k → entries[k]? = some e → e.type = .usable → e.length.toNat ≤ n := by
  constructor
  · intro h k e hk he husable
    have hkey := usableLength_of_usable he husable
    exact h k (usableLength_lt hkey) hk _ hkey
  · intro h l _ hl w hw
    obtain ⟨e, he, husable, rfl⟩ := usableLength_eq_some.mp hw
    exact h l e hl he husable

/-- The loop finds the runner-up exactly when it stands before the longest entry,
or is no longer than an entry that does. -/
theorem runner_up_iff (entries : List MemmapEntry) :
    RunnerUp entries (selectEntries entries) ↔ RivalBefore entries := by
  have h := selectEntries_records entries
  constructor
  · rintro ⟨i, j, e, hi, hj, _, he, husable, _, hothers⟩
    have hlargest := h.largest
    have hsecond := h.second i hi
    rw [hi] at hlargest
    rw [hj] at hsecond
    exact ⟨i, j, e, longest_iff.mpr hlargest, hsecond.1, he, husable,
      fun k d hk => hothers k d (Nat.ne_of_gt hk)⟩
  · rintro ⟨i, j, d, hlongest, hji, hd, hdusable, hafter⟩
    have hfirst := longest_iff.mp hlongest
    have hlargest := h.largest
    cases hi : (selectEntries entries).largestEntry with
    | none =>
        rw [hi] at hlargest
        obtain ⟨hlt, v, hv, _⟩ := hfirst
        exact absurd (hv.symm.trans (hlargest i hlt)) (Option.some_ne_none v)
    | some i' =>
        rw [hi] at hlargest
        obtain rfl := hlargest.unique hfirst
        have hkey := usableLength_of_usable hd hdusable
        cases hj : (selectEntries entries).secondLargestEntry with
        | none =>
            have hnone := h.second i' hi
            rw [hj] at hnone
            exact absurd (hkey.symm.trans (hnone j hji)) (Option.some_ne_none _)
        | some j' =>
            have hsecond := h.second i' hi
            rw [hj] at hsecond
            obtain ⟨e, he, husable, hbase⟩ := h.sound.second j' hj
            have hothers := (hsecond.others_le_iff (n := entries.length)
              (usableLength_of_usable he husable)).mpr
              ⟨j, hji, _, hkey, after_iff.mpr hafter⟩
            refine ⟨i', j', e, hi, hj, Nat.ne_of_lt hsecond.1, he, husable, hbase, ?_⟩
            intro k f hk hf hfusable
            have hfkey := usableLength_of_usable hf hfusable
            exact hothers k (usableLength_lt hfkey) hk _ hfkey

/-- Of two usable entries the longer one stands first, and no second one is found. -/
theorem runner_up_missed :
    ¬ ∀ (entries : List MemmapEntry), (∃ (i j : Nat) (e d : MemmapEntry), i ≠ j ∧
        entries[i]? = some e ∧ entries[j]? = some d ∧ e.type = .usable ∧ d.type = .usable) →
      RunnerUp entries (selectEntries entries) := by
  intro hclaim
  obtain ⟨_, j, _, _, hj, _⟩ := hclaim
    [⟨0x100000#64, 0x40000000#64, .usable⟩, ⟨0x1000#64, 0x9E000#64, .usable⟩]
    ⟨0, 1, _, _, by decide, rfl, rfl, rfl, rfl⟩
  exact Option.some_ne_none j (hj.symm.trans (by decide))

end Asnu
