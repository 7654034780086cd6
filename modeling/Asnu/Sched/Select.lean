import Asnu.Sched.Scheduler

/-!
The choice `find_next_proc` makes: the first eligible process of `proc_list`
rotated to the place where the search starts. With the current process in the
list that place is the one after its first occurrence, so the current process
itself comes last.
-/

namespace Asnu

open Lib

namespace Sched

/-- The test of the search. -/
def ready (s : Sched) (p : Ptr) : Bool := eligible (s.procs p)

theorem findNextProc_eq (s : Sched) :
    findNextProc s =
      ((s.procList.rotate s.searchStart).find? s.ready).getD NULL := by
  unfold findNextProc
  split
  · next hzero =>
      have hnil : s.procList = [] := List.length_eq_zero_iff.mp hzero
      simp [hnil]
  · rw [← first_cyclic_eq_find? s.ready s.procList NULL s.searchStart]
    change _ = ((first (fun i => s.ready (s.proc ((s.searchStart + i) % s.procCount)))
      s.procCount).map (fun i => s.proc ((s.searchStart + i) % s.procCount))).getD NULL
    simp only [ready]
    cases first (fun i => eligible (s.procs (s.proc ((s.searchStart + i) % s.procCount))))
      s.procCount <;> rfl

/-- The search starts right after the first occurrence of the current
process. -/
theorem rotate_searchStart {s : Sched} {xs ys : List Ptr} {cur : Ptr}
    (hlist : s.procList = xs ++ cur :: ys) (hfirst : cur ∉ xs)
    (hcur : s.currentProc = cur) (hnull : cur ≠ NULL) :
    s.procList.rotate s.searchStart = ys ++ (xs ++ [cur]) := by
  have hlen : xs.length < s.procCount := by
    simp [procCount, hlist]
  have hfound : first (fun i => s.proc i == s.currentProc) s.procCount =
      some xs.length := by
    rw [first_eq_some_iff]
    refine ⟨hlen, by simp [proc, hlist, hcur], ?_⟩
    intro j hj
    have hget : s.proc j = xs[j] := by
      rw [proc, hlist, List.getD_append _ _ _ _ hj, List.getD_eq_getElem _ _ hj]
    rw [beq_eq_false_iff_ne, hget, hcur]
    intro heq
    exact hfirst (heq ▸ List.getElem_mem hj)
  have hstart : s.searchStart = (xs.length + 1) % s.procList.length := by
    rw [searchStart, if_neg (hcur ▸ hnull), hfound]
    rfl
  have hsplit : s.procList = (xs ++ [cur]) ++ ys := by
    rw [hlist, List.append_assoc, List.singleton_append]
  have hlength : xs.length + 1 = (xs ++ [cur]).length := by simp
  rw [hstart, List.rotate_mod, hsplit, hlength, List.rotate_append_length_eq]

theorem findNextProc_split {s : Sched} {xs ys : List Ptr} {cur : Ptr}
    (hlist : s.procList = xs ++ cur :: ys) (hfirst : cur ∉ xs)
    (hcur : s.currentProc = cur) (hnull : cur ≠ NULL) :
    findNextProc s = ((ys ++ (xs ++ [cur])).find? s.ready).getD NULL := by
  rw [findNextProc_eq, rotate_searchStart hlist hfirst hcur hnull]

/-- What is found is a registered process that is eligible. -/
theorem findNextProc_mem {s : Sched} {p : Ptr} (h : findNextProc s = p)
    (hp : p ≠ NULL) : p ∈ s.procList ∧ s.ready p = true := by
  rw [findNextProc_eq] at h
  cases hfind : (s.procList.rotate s.searchStart).find? s.ready with
  | none =>
      rw [hfind] at h
      exact absurd h.symm hp
  | some q =>
      rw [hfind] at h
      obtain rfl : q = p := h
      exact ⟨List.mem_rotate.mp (List.mem_of_find?_eq_some hfind),
        List.find?_some hfind⟩

/-- Without NULL entries the search fails only when nobody is eligible. -/
theorem findNextProc_eq_null_iff {s : Sched} (hnull : NULL ∉ s.procList) :
    findNextProc s = NULL ↔ ∀ p ∈ s.procList, s.ready p = false := by
  rw [findNextProc_eq]
  cases hfind : (s.procList.rotate s.searchStart).find? s.ready with
  | none =>
      rw [List.find?_eq_none] at hfind
      simp only [Option.getD_none, true_iff]
      intro p hp
      simpa using hfind p (List.mem_rotate.mpr hp)
  | some q =>
      have hmem := List.mem_rotate.mp (List.mem_of_find?_eq_some hfind)
      have hready := List.find?_some hfind
      simp only [Option.getD_some]
      constructor
      · intro hq
        exact absurd (hq ▸ hmem) hnull
      · intro hall
        rw [hall q hmem] at hready
        exact Bool.noConfusion hready

theorem Dispatches.mem {s : Sched} {p : Ptr} (h : s.Dispatches p) :
    p ∈ s.procList ∧ s.ready p = true := findNextProc_mem h.1 h.2.1

/-- When the current process is not eligible, a switch takes place exactly if
some registered process is. -/
theorem exists_dispatches_iff {s : Sched} (hnull : NULL ∉ s.procList)
    (hcur : s.ready s.currentProc = false) :
    (∃ p, s.Dispatches p) ↔ ∃ p ∈ s.procList, s.ready p = true := by
  constructor
  · rintro ⟨p, hp⟩
    exact ⟨p, hp.mem⟩
  · rintro ⟨p, hp, hready⟩
    have hfound : findNextProc s ≠ NULL := by
      intro h
      rw [findNextProc_eq_null_iff hnull] at h
      rw [h p hp] at hready
      exact Bool.noConfusion hready
    refine ⟨findNextProc s, rfl, hfound, ?_⟩
    intro heq
    rw [heq, (findNextProc_mem rfl hfound).2] at hcur
    exact Bool.noConfusion hcur

/-- The state after one call of `context_switch`. -/
def after (s : Sched) (cpu : Cpu) : Sched := (contextSwitch s cpu).sched

theorem after_eq_self {s : Sched} {cpu : Cpu}
    (h : contextSwitch s cpu = .ret s) : s.after cpu = s := by
  rw [after, h, Exit.sched]

theorem after_of_dispatches {s : Sched} {p : Ptr} (h : s.Dispatches p)
    (cpu : Cpu) :
    s.after cpu =
      { s with
        procs := s.switched s.currentProc p cpu
        currentProc := p } := by
  rcases contextSwitch_cases s cpu with ⟨_, hnone⟩ | ⟨next, hnext, hjump⟩
  · exact absurd h (hnone p)
  · obtain rfl : next = p := hnext.1.symm.trans h.1
    rw [after, hjump, Exit.sched]

@[simp] theorem after_procList (s : Sched) (cpu : Cpu) :
    (s.after cpu).procList = s.procList := by
  rcases contextSwitch_cases s cpu with ⟨h, _⟩ | ⟨next, _, h⟩ <;>
    rw [after, h] <;> rfl

/-- A switch touches the record of the process it leaves and of the process
it takes up only. -/
theorem after_procs_ne {s : Sched} {q : Ptr} (cpu : Cpu)
    (hcur : q ≠ s.currentProc) (hnext : ¬ s.Dispatches q) :
    (s.after cpu).procs q = s.procs q := by
  rcases contextSwitch_cases s cpu with ⟨h, _⟩ | ⟨next, hdispatch, h⟩
  · rw [after_eq_self h]
  · have hne : q ≠ next := fun heq => hnext (heq ▸ hdispatch)
    rw [after, h]
    simp [Exit.sched, switched, hne, hcur]

end Sched

end Asnu
