import Mathlib.Data.List.Perm.Subperm
import Mathlib.Data.List.Rotate
import Mathlib.Data.List.TakeWhile

/-!
Taking turns round a circle. The members of a list stand in a circle; the turn
passes from its holder to the first one behind it that passes a test, and newcomers
join at the end of the list. A member that passes every test until its turn comes
sees nobody have two turns before its own.
-/

namespace Asnu.Lib

variable {α : Type*} [DecidableEq α]

/-- The members in the order in which they are met from behind `c` on, `c` coming last. -/
def circle (c : α) (xs : List α) : List α := xs.rotate (xs.idxOf c + 1)

section Circle

variable {c p q x : α} {xs us vs : List α}

theorem mem_circle : q ∈ circle c xs ↔ q ∈ xs := List.mem_rotate

theorem circle_split (hc : c ∉ us) : circle c (us ++ c :: vs) = vs ++ (us ++ [c]) := by
  have hidx : (us ++ c :: vs).idxOf c = us.length := by
    rw [List.idxOf_append_of_notMem hc, List.idxOf_cons_self, Nat.add_zero]
  have hlength : us.length + 1 = (us ++ [c]).length := by simp
  have hlist : us ++ c :: vs = (us ++ [c]) ++ vs := by simp
  rw [circle, hidx, hlength, hlist, List.rotate_append_length_eq]

theorem nodup_circle : (circle c xs).Nodup ↔ xs.Nodup := List.nodup_rotate

theorem circle_last (hc : c ∈ xs) : ∃ ys, circle c xs = ys ++ [c] := by
  obtain ⟨us, vs, rfl, hus⟩ := List.eq_append_cons_of_mem hc
  exact ⟨vs ++ us, by rw [circle_split hus, List.append_assoc]⟩

/-- The place of a member, from where it stands after a turn of the list. -/
theorem idxOf_of_rotate {k : Nat} (hxs : xs.Nodup) (h : xs.rotate k = us ++ q :: vs) :
    xs.idxOf q = (us.length + k) % xs.length := by
  have hlength : xs.length = us.length + (vs.length + 1) := by
    rw [← List.length_rotate xs k, h, List.length_append, List.length_cons]
  have hat : (xs.rotate k)[us.length]? = xs[(us.length + k) % xs.length]? :=
    List.getElem?_rotate (by omega)
  rw [h, List.getElem?_append_right (Nat.le_refl _), Nat.sub_self, List.getElem?_cons_zero] at hat
  obtain ⟨hlt, hq⟩ := List.getElem?_eq_some_iff.mp hat.symm
  rw [← hq, hxs.idxOf_getElem]

/-- From a member further on the circle goes on and comes back to it. -/
theorem circle_move (hxs : xs.Nodup) (h : circle c xs = us ++ q :: vs) :
    circle q xs = vs ++ (us ++ [q]) := by
  have hlength : us.length + 1 = (us ++ [q]).length := by simp
  have hlist : us ++ q :: vs = (us ++ [q]) ++ vs := by simp
  have hplace : (xs.idxOf q + 1) % xs.length =
      (xs.idxOf c + 1 + (us.length + 1)) % xs.length := by
    rw [idxOf_of_rotate hxs h, Nat.mod_add_mod]
    congr 1
    omega
  rw [circle, ← List.rotate_mod, hplace, List.rotate_mod, ← List.rotate_rotate]
  change (circle c xs).rotate (us.length + 1) = _
  rw [h, hlength, hlist, List.rotate_append_length_eq]

/-- A newcomer stands somewhere between the others. -/
theorem circle_append (hc : c ∈ xs) (x : α) :
    ∃ us vs, circle c xs = us ++ vs ∧ circle c (xs ++ [x]) = us ++ x :: vs := by
  obtain ⟨us, vs, rfl, hus⟩ := List.eq_append_cons_of_mem hc
  refine ⟨vs, us ++ [c], circle_split hus, ?_⟩
  rw [List.append_assoc, List.cons_append, circle_split hus, List.append_assoc,
    List.singleton_append]

end Circle

/-- The members met from behind `c` on before `p`. -/
def upcoming (c p : α) (xs : List α) : List α := (circle c xs).takeWhile (fun x => x != p)

section Upcoming

variable {c p q x : α} {xs us vs : List α}

theorem upcoming_eq (hp : p ∉ us) (h : circle c xs = us ++ p :: vs) : upcoming c p xs = us := by
  have hpass : ∀ x ∈ us, (x != p) = true := by
    intro x hx
    rw [bne_iff_ne]
    rintro rfl
    exact hp hx
  rw [upcoming, h, List.takeWhile_append_of_pos hpass]
  simp

theorem mem_of_mem_upcoming (h : q ∈ upcoming c p xs) : q ∈ xs ∧ q ≠ p := by
  have hpass := @List.mem_takeWhile_imp _ (fun x => x != p) _ _ h
  exact ⟨mem_circle.mp (List.takeWhile_subset _ h), bne_iff_ne.mp hpass⟩

theorem current_notMem_upcoming (hxs : xs.Nodup) (hc : c ∈ xs) (hp : p ∈ xs) :
    c ∉ upcoming c p xs := by
  obtain ⟨us, vs, rfl, hus⟩ := List.eq_append_cons_of_mem hc
  have hother : c ∉ vs ++ us := by
    rw [List.nodup_middle, List.nodup_cons, List.mem_append] at hxs
    rw [List.mem_append]
    exact fun hmem => hxs.1 hmem.symm
  rcases eq_or_ne c p with rfl | hne
  · exact fun hmem => (mem_of_mem_upcoming hmem).2 rfl
  · have hmem : p ∈ vs ++ us := by
      rw [List.mem_append, List.mem_cons] at hp
      rw [List.mem_append]
      rcases hp with hp | rfl | hp
      · exact Or.inr hp
      · exact absurd rfl hne
      · exact Or.inl hp
    obtain ⟨before, after, hsplit, hbefore⟩ := List.eq_append_cons_of_mem hmem
    have hcircle : circle c (us ++ c :: vs) = before ++ p :: (after ++ [c]) := by
      rw [circle_split hus, ← List.append_assoc, hsplit, List.append_assoc, List.cons_append]
    rw [upcoming_eq hbefore hcircle]
    exact fun hc => hother (hsplit ▸ List.mem_append_left _ hc)

/-- A newcomer is the only one who can come in between. -/
theorem mem_upcoming_append (hc : c ∈ xs) (hp : p ∈ xs) (hx : x ≠ p)
    (h : q ∈ upcoming c p (xs ++ [x])) : q = x ∨ q ∈ upcoming c p xs := by
  obtain ⟨us, vs, hold, hnew⟩ := circle_append hc x
  have hmem : p ∈ us ++ vs := hold ▸ mem_circle.mpr hp
  by_cases hus : p ∈ us
  · obtain ⟨before, after, rfl, hbefore⟩ := List.eq_append_cons_of_mem hus
    rw [List.append_assoc, List.cons_append] at hold hnew
    rw [upcoming_eq hbefore hnew] at h
    exact Or.inr (upcoming_eq hbefore hold ▸ h)
  · obtain ⟨before, after, rfl, hbefore⟩ :=
      List.eq_append_cons_of_mem ((List.mem_append.mp hmem).resolve_left hus)
    rw [← List.append_assoc] at hold
    rw [← List.cons_append, ← List.append_assoc] at hnew
    rw [upcoming_eq (by simp [hus, hbefore, hx.symm]) hnew] at h
    rw [upcoming_eq (by simp [hus, hbefore]) hold]
    simp only [List.mem_append, List.mem_cons] at h ⊢
    tauto

/-- The turn passes to `p` or to one of those before it, and those up to the holder of the turn
are not met any more. -/
theorem upcoming_find {e : α → Bool} (hxs : xs.Nodup) (hc : c ∈ xs) (hp : p ∈ xs)
    (hep : p = c ∨ e p = true) (hfind : (circle c xs).find? e = some q) (hq : q ≠ p) :
    ∃ us, upcoming c p xs = us ++ q :: upcoming q p xs := by
  obtain ⟨-, us, vs, hsplit, hfail⟩ := List.find?_eq_some_iff_append.mp hfind
  have hus : p ∉ us := by
    intro hmem
    rcases hep with rfl | hep
    · obtain ⟨ys, hlast⟩ := circle_last hc
      have hnodup : (us ++ q :: vs).Nodup := hsplit ▸ nodup_circle.mpr hxs
      have hend : p ∈ q :: vs := by
        have heq := congrArg List.getLast? (hsplit.symm.trans hlast)
        rw [List.getLast?_append_cons, List.getLast?_concat] at heq
        exact List.mem_of_getLast? heq
      exact (List.nodup_append.mp hnodup).2.2 p hmem p hend rfl
    · have hnot := hfail p hmem
      rw [hep] at hnot
      exact Bool.noConfusion hnot
  have hvs : p ∈ vs := by
    have hmem : p ∈ us ++ q :: vs := hsplit ▸ mem_circle.mpr hp
    rcases List.mem_append.mp hmem with hmem | hmem
    · exact absurd hmem hus
    · exact (List.mem_cons.mp hmem).resolve_left (Ne.symm hq)
  obtain ⟨before, after, rfl, hbefore⟩ := List.eq_append_cons_of_mem hvs
  have hmove := circle_move hxs hsplit
  refine ⟨us, ?_⟩
  rw [List.append_assoc, List.cons_append] at hmove
  rw [← List.cons_append, ← List.append_assoc] at hsplit
  have hpast : p ∉ us ++ q :: before := by
    simp [hus, hbefore, Ne.symm hq]
  rw [upcoming_eq hbefore hmove, upcoming_eq hpast hsplit]

end Upcoming

/-- Since some moment the members `seen` have had the turn, once each, the last one being `c`,
and none of them is met again before `p`. -/
structure OnceEach (p c : α) (xs seen : List α) : Prop where
  once : seen.Nodup
  listed : ∀ q ∈ seen, q ∈ xs
  past : ∀ q ∈ seen, q ∉ upcoming c p xs

namespace OnceEach

variable {p c q x : α} {xs seen : List α}

theorem start (hxs : xs.Nodup) (hc : c ∈ xs) (hp : p ∈ xs) : OnceEach p c xs [c] where
  once := List.nodup_singleton c
  listed := by simpa using hc
  past := by simpa using current_notMem_upcoming hxs hc hp

theorem pass {e : α → Bool} (h : OnceEach p c xs seen) (hxs : xs.Nodup) (hc : c ∈ xs)
    (hp : p ∈ xs) (hep : p = c ∨ e p = true) (hfind : (circle c xs).find? e = some q)
    (hq : q ≠ p) : OnceEach p q xs (q :: seen) := by
  obtain ⟨us, hup⟩ := upcoming_find hxs hc hp hep hfind hq
  have hmem : q ∈ xs := mem_circle.mp (List.mem_of_find?_eq_some hfind)
  have hnew : q ∉ seen := fun hseen => h.past q hseen (by simp [hup])
  refine ⟨List.nodup_cons.mpr ⟨hnew, h.once⟩, ?_, ?_⟩
  · intro r hr
    rcases List.mem_cons.mp hr with rfl | hr
    · exact hmem
    · exact h.listed r hr
  · intro r hr
    rcases List.mem_cons.mp hr with rfl | hr
    · exact current_notMem_upcoming hxs hmem hp
    · exact fun hnow => h.past r hr (hup ▸ List.mem_append_right _ (List.mem_cons_of_mem _ hnow))

theorem join (h : OnceEach p c xs seen) (hc : c ∈ xs) (hp : p ∈ xs) (hx : x ∉ xs) :
    OnceEach p c (xs ++ [x]) seen where
  once := h.once
  listed := fun q hq => List.mem_append_left _ (h.listed q hq)
  past := by
    intro q hq hmem
    have hxp : x ≠ p := fun heq => hx (heq ▸ hp)
    rcases mem_upcoming_append hc hp hxp hmem with rfl | hold
    · exact hx (h.listed q hq)
    · exact h.past q hq hold

theorem length_le (h : OnceEach p c xs seen) : seen.length ≤ xs.length :=
  (List.subperm_of_subset h.once h.listed).length_le

end OnceEach

end Asnu.Lib
