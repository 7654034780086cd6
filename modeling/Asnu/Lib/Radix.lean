import Mathlib.Tactic

/-!
Multi-level tables in a store: a table is named by `F`, holds an entry for
every index, and an entry may lead to a table one level further down. When no
table is reached by two entries, a store into one entry is seen by the paths
through that entry and by no others.
-/

namespace Asnu.Lib.Radix

variable {F I E : Type*}

/-- The entries read along a path of indices, from a table at depth `d` on. -/
def walk (next : Nat → E → Option F) (rd : F → I → E) : Nat → F → List I → List E
  | _, _, [] => []
  | d, f, i :: is => rd f i :: match next d (rd f i) with
      | some g => walk next rd (d + 1) g is
      | none => []

/-- The table at the end of a path. -/
def node (next : Nat → E → Option F) (rd : F → I → E) : Nat → F → List I → Option F
  | _, f, [] => some f
  | d, f, i :: is => match next d (rd f i) with
      | some g => node next rd (d + 1) g is
      | none => none

/-- No table is the target of two entries, and the root is the target of none. -/
structure Unshared (next : Nat → E → Option F) (rd : F → I → E) (root : F) : Prop where
  single : ∀ p q t u i j f, node next rd 0 root p = some t →
    node next rd 0 root q = some u → next p.length (rd t i) = some f →
    next q.length (rd u j) = some f → t = u ∧ i = j
  root_free : ∀ p t i, node next rd 0 root p = some t →
    next p.length (rd t i) ≠ some root

theorem snoc_not_shorter (p : List I) (i : I) : ¬ p ++ [i] <+: p := by
  intro h
  have hlen := h.length_le
  simp at hlen

section Paths

variable (next : Nat → E → Option F) (rd : F → I → E)

theorem node_append (d : Nat) (f : F) (p q : List I) :
    node next rd d f (p ++ q) =
      (node next rd d f p).bind (fun t => node next rd (d + p.length) t q) := by
  induction p generalizing d f with
  | nil => rfl
  | cons i is ih =>
      simp only [List.cons_append, node]
      cases next d (rd f i) with
      | none => rfl
      | some g =>
          simp only [ih, List.length_cons, Nat.add_assoc, Nat.add_comm 1]

theorem walk_append (d : Nat) (f : F) (p q : List I) {t : F}
    (ht : node next rd d f p = some t) :
    walk next rd d f (p ++ q) =
      walk next rd d f p ++ walk next rd (d + p.length) t q := by
  induction p generalizing d f with
  | nil =>
      obtain rfl : f = t := Option.some.inj ht
      rfl
  | cons i is ih =>
      simp only [node] at ht
      simp only [List.cons_append, walk]
      cases hg : next d (rd f i) with
      | none => simp [hg] at ht
      | some g =>
          rw [hg] at ht
          simp only [ih (d + 1) g ht, List.length_cons, Nat.add_assoc, Nat.add_comm 1]

/-- The entry read at the end of a path that leads to a table. -/
theorem walk_getElem? (d : Nat) (f : F) (p r : List I) (i : I) {t : F}
    (ht : node next rd d f p = some t) :
    (walk next rd d f (p ++ i :: r))[p.length]? = some (rd t i) := by
  induction p generalizing d f with
  | nil =>
      obtain rfl : f = t := Option.some.inj ht
      rfl
  | cons j is ih =>
      simp only [node] at ht
      cases hg : next d (rd f j) with
      | none => simp [hg] at ht
      | some g =>
          rw [hg] at ht
          simpa [walk, hg] using ih (d + 1) g ht

theorem length_walk (d : Nat) (f : F) (p : List I) {t : F}
    (ht : node next rd d f p = some t) : (walk next rd d f p).length = p.length := by
  induction p generalizing d f with
  | nil => rfl
  | cons i is ih =>
      simp only [node] at ht
      cases hg : next d (rd f i) with
      | none => simp [hg] at ht
      | some g =>
          rw [hg] at ht
          simp [walk, hg, ih (d + 1) g ht]

theorem walk_getElem?_inv {d : Nat} {f : F} {q : List I} {k : Nat} {e : E}
    (h : (walk next rd d f q)[k]? = some e) :
    ∃ p t i r, q = p ++ i :: r ∧ p.length = k ∧ node next rd d f p = some t ∧
      rd t i = e := by
  induction q generalizing d f k with
  | nil => simp [walk] at h
  | cons i is ih =>
      cases k with
      | zero =>
          refine ⟨[], f, i, is, rfl, rfl, rfl, ?_⟩
          simpa [walk] using h
      | succ k =>
          cases hg : next d (rd f i) with
          | none => simp [walk, hg] at h
          | some g =>
              simp only [walk, hg, List.getElem?_cons_succ] at h
              obtain ⟨p, t, j, r, rfl, hlen, ht, he⟩ := ih h
              exact ⟨i :: p, t, j, r, rfl, by simp [hlen], by simpa [node, hg] using ht, he⟩

theorem node_snoc (root : F) (p : List I) (i : I) {t : F}
    (ht : node next rd 0 root p = some t) :
    node next rd 0 root (p ++ [i]) = next p.length (rd t i) := by
  rw [node_append, ht]
  simp only [Option.bind_some, node, Nat.zero_add]
  cases next p.length (rd t i) <;> rfl

/-- A table that is not the root is reached by some entry. -/
theorem node_snoc_inv (root : F) (p : List I) (i : I) {f : F}
    (hf : node next rd 0 root (p ++ [i]) = some f) :
    ∃ t, node next rd 0 root p = some t ∧ next p.length (rd t i) = some f := by
  cases ht : node next rd 0 root p with
  | none => simp [node_append, ht] at hf
  | some t => exact ⟨t, rfl, (node_snoc next rd root p i ht).symm.trans hf⟩

end Paths

section Agree

variable {next : Nat → E → Option F} {rd rd' : F → I → E}

/-- A path reads only the tables on its way. -/
theorem node_congr {d : Nat} {f : F} {q : List I}
    (h : ∀ p t i, node next rd d f p = some t → p ++ [i] <+: q → rd' t i = rd t i) :
    node next rd' d f q = node next rd d f q := by
  induction q generalizing d f with
  | nil => rfl
  | cons i is ih =>
      have hhead : rd' f i = rd f i := h [] f i rfl (by simp)
      simp only [node, hhead]
      cases hg : next d (rd f i) with
      | none => rfl
      | some g =>
          refine ih (fun p t j ht hp => h (i :: p) t j ?_ ?_)
          · simp only [node, hg, ht]
          · rw [List.cons_append]
            exact (List.prefix_cons_inj i).mpr hp

theorem walk_congr {d : Nat} {f : F} {q : List I}
    (h : ∀ p t i, node next rd d f p = some t → p ++ [i] <+: q → rd' t i = rd t i) :
    walk next rd' d f q = walk next rd d f q := by
  induction q generalizing d f with
  | nil => rfl
  | cons i is ih =>
      have hhead : rd' f i = rd f i := h [] f i rfl (by simp)
      simp only [walk, hhead]
      cases hg : next d (rd f i) with
      | none => rfl
      | some g =>
          congr 1
          refine ih (fun p t j ht hp => h (i :: p) t j ?_ ?_)
          · simp only [node, hg, ht]
          · rw [List.cons_append]
            exact (List.prefix_cons_inj i).mpr hp

variable {root f : F}

/-- A copy of the root leads where the root does. -/
theorem node_copy (hroot : ∀ i, rd' f i = rd root i)
    (hrest : ∀ q t i, node next rd 0 root q = some t → rd' t i = rd t i) (i : I)
    (is : List I) : node next rd' 0 f (i :: is) = node next rd 0 root (i :: is) := by
  simp only [node, hroot i]
  cases hg : next 0 (rd root i) with
  | none => rfl
  | some g =>
      refine node_congr (fun p t j ht _ => hrest (i :: p) t j ?_)
      simp only [node, hg]
      exact ht

theorem walk_copy (hroot : ∀ i, rd' f i = rd root i)
    (hrest : ∀ q t i, node next rd 0 root q = some t → rd' t i = rd t i) (i : I)
    (is : List I) : walk next rd' 0 f (i :: is) = walk next rd 0 root (i :: is) := by
  simp only [walk, hroot i]
  cases hg : next 0 (rd root i) with
  | none => rfl
  | some g =>
      congr 1
      refine walk_congr (fun p t j ht _ => hrest (i :: p) t j ?_)
      simp only [node, hg]
      exact ht

end Agree

namespace Unshared

variable {next : Nat → E → Option F} {rd rd' : F → I → E} {root : F}

/-- A table is reached by one path only. -/
theorem node_inj (h : Unshared next rd root) {p q : List I} {f : F}
    (hp : node next rd 0 root p = some f) (hq : node next rd 0 root q = some f) :
    p = q := by
  induction p using List.reverseRecOn generalizing q f with
  | nil =>
      obtain rfl : root = f := Option.some.inj hp
      rcases List.eq_nil_or_concat' q with rfl | ⟨q, j, rfl⟩
      · rfl
      · obtain ⟨u, hu, hnext⟩ := node_snoc_inv next rd _ q j hq
        exact absurd hnext (h.root_free q u j hu)
  | append_singleton p i ih =>
      obtain ⟨t, ht, hti⟩ := node_snoc_inv next rd _ p i hp
      rcases List.eq_nil_or_concat' q with rfl | ⟨q, j, rfl⟩
      · obtain rfl : root = f := Option.some.inj hq
        exact absurd hti (h.root_free p t i ht)
      · obtain ⟨u, hu, huj⟩ := node_snoc_inv next rd _ q j hq
        obtain ⟨rfl, rfl⟩ := h.single p q t u i j f ht hu hti huj
        rw [ih ht hu]

theorem of_node_inj
    (h : ∀ p q f, node next rd 0 root p = some f → node next rd 0 root q = some f →
      p = q) : Unshared next rd root where
  single := by
    intro p q t u i j f ht hu hti huj
    have hpq := h (p ++ [i]) (q ++ [j]) f
      ((node_snoc next rd root p i ht).trans hti)
      ((node_snoc next rd root q j hu).trans huj)
    obtain ⟨rfl, hij⟩ := List.append_inj' hpq rfl
    exact ⟨Option.some.inj (ht.symm.trans hu), List.singleton_inj.mp hij⟩
  root_free := by
    intro p t i ht hti
    have hnil := h (p ++ [i]) [] root ((node_snoc next rd root p i ht).trans hti) rfl
    simp at hnil

theorem of_node_eq (h : Unshared next rd root)
    (heq : ∀ q, node next rd' 0 root q = node next rd 0 root q) :
    Unshared next rd' root :=
  of_node_inj (fun p q _ hp hq =>
    h.node_inj ((heq p).symm.trans hp) ((heq q).symm.trans hq))

/-- A copy of the root in a table outside the tree is the root of a tree. -/
theorem copy (h : Unshared next rd root) {f : F} (hroot : ∀ i, rd' f i = rd root i)
    (hrest : ∀ q t i, node next rd 0 root q = some t → rd' t i = rd t i)
    (hfresh : ∀ q, node next rd 0 root q ≠ some f) : Unshared next rd' f := by
  refine of_node_inj (fun p q g hp hq => ?_)
  cases p with
  | nil =>
      obtain rfl := Option.some.inj hp
      cases q with
      | nil => rfl
      | cons i q => exact absurd ((node_copy hroot hrest i q).symm.trans hq) (hfresh _)
  | cons i p =>
      rw [node_copy hroot hrest] at hp
      cases q with
      | nil =>
          obtain rfl := Option.some.inj hq
          exact absurd hp (hfresh _)
      | cons j q =>
          rw [node_copy hroot hrest] at hq
          exact h.node_inj hp hq

end Unshared

section Blank

variable [DecidableEq F]

/-- All entries of one table replaced by `e`. -/
def blank (rd : F → I → E) (g : F) (e : E) : F → I → E :=
  fun f j => if f = g then e else rd f j

variable {next : Nat → E → Option F} {rd : F → I → E} {root : F}

/-- A table outside the tree may be blanked. -/
theorem node_blank {g : F} {e : E} (hfresh : ∀ q, node next rd 0 root q ≠ some g)
    (q : List I) :
    node next (blank rd g e) 0 root q = node next rd 0 root q := by
  apply node_congr
  intro p t i ht _
  exact if_neg (fun heq : t = g => hfresh p (heq ▸ ht))

theorem walk_blank {g : F} {e : E} (hfresh : ∀ q, node next rd 0 root q ≠ some g)
    (q : List I) :
    walk next (blank rd g e) 0 root q = walk next rd 0 root q := by
  apply walk_congr
  intro p t i ht _
  exact if_neg (fun heq : t = g => hfresh p (heq ▸ ht))

end Blank

section Stores

variable [DecidableEq F] [DecidableEq I]

/-- One entry replaced. -/
def setEntry (rd : F → I → E) (t : F) (i : I) (e : E) : F → I → E :=
  fun f j => if f = t ∧ j = i then e else rd f j

variable {next : Nat → E → Option F} {rd : F → I → E} {root : F}

/-- Paths that do not take the entry do not see a store into it. -/
theorem node_setEntry (h : Unshared next rd root) {p q : List I} {t : F} {i : I}
    (e : E) (ht : node next rd 0 root p = some t) (hq : ¬ p ++ [i] <+: q) :
    node next (setEntry rd t i e) 0 root q = node next rd 0 root q := by
  apply node_congr
  intro p' t' j ht' hpath
  refine if_neg ?_
  rintro ⟨rfl, rfl⟩
  exact hq (h.node_inj ht' ht ▸ hpath)

theorem walk_setEntry (h : Unshared next rd root) {p q : List I} {t : F} {i : I}
    (e : E) (ht : node next rd 0 root p = some t) (hq : ¬ p ++ [i] <+: q) :
    walk next (setEntry rd t i e) 0 root q = walk next rd 0 root q := by
  apply walk_congr
  intro p' t' j ht' hpath
  refine if_neg ?_
  rintro ⟨rfl, rfl⟩
  exact hq (h.node_inj ht' ht ▸ hpath)

/-- A path through the entry reads the new one, and goes on from there. -/
theorem walk_setEntry_through (h : Unshared next rd root) {p r : List I} {t : F}
    {i : I} (e : E) (ht : node next rd 0 root p = some t) :
    walk next (setEntry rd t i e) 0 root (p ++ i :: r) =
      walk next rd 0 root p ++ e :: match next p.length e with
        | some g => walk next (setEntry rd t i e) (p.length + 1) g r
        | none => [] := by
  have ht' := (node_setEntry h e ht (snoc_not_shorter p i)).trans ht
  rw [walk_append next _ 0 root p (i :: r) ht',
    walk_setEntry h e ht (snoc_not_shorter p i)]
  simp [walk, setEntry]

/-- A store that does not change where the entry leads changes no table. -/
theorem node_setEntry_of_next_eq (h : Unshared next rd root) {p : List I} {t : F}
    {i : I} {e : E} (ht : node next rd 0 root p = some t)
    (hnext : next p.length e = next p.length (rd t i)) (hstop : next p.length e = none)
    (q : List I) :
    node next (setEntry rd t i e) 0 root q = node next rd 0 root q := by
  by_cases hq : p ++ [i] <+: q
  · obtain ⟨r, rfl⟩ := hq
    have ht' := (node_setEntry h e ht (snoc_not_shorter p i)).trans ht
    have hself : setEntry rd t i e t i = e := if_pos ⟨rfl, rfl⟩
    rw [List.append_assoc, List.singleton_append, node_append, node_append, ht, ht']
    simp only [Option.bind_some, node, Nat.zero_add, hself, ← hnext, hstop]
  · exact node_setEntry h e ht hq

end Stores

/-! ### A new table under an entry -/

section Link

variable {next : Nat → E → Option F} {rd : F → I → E} {root t g : F} {p : List I}
  {i : I} {e e0 : E}

def link [DecidableEq F] [DecidableEq I] (rd : F → I → E) (t : F) (i : I) (g : F)
    (e e0 : E) : F → I → E :=
  setEntry (blank rd g e0) t i e

/-- `g` is blanked with `e0` and `e`, which leads to it, is stored in an entry
that led nowhere. -/
structure Links (next : Nat → E → Option F) (rd : F → I → E) (root : F)
    (p : List I) (t : F) (i : I) (g : F) (e e0 : E) : Prop where
  unshared : Unshared next rd root
  parent : node next rd 0 root p = some t
  fresh : ∀ q, node next rd 0 root q ≠ some g
  absent : next p.length (rd t i) = none
  leads : next p.length e = some g
  empty : ∀ d, next d e0 = none

namespace Links

variable (h : Links next rd root p t i g e e0)
include h

theorem parent_ne : t ≠ g := fun heq => h.fresh p (heq ▸ h.parent)

variable [DecidableEq F]

theorem blank_unshared : Unshared next (blank rd g e0) root :=
  h.unshared.of_node_eq (node_blank h.fresh)

theorem blank_parent : node next (blank rd g e0) 0 root p = some t :=
  (node_blank h.fresh p).trans h.parent

variable [DecidableEq I]

theorem link_new (j : I) : link rd t i g e e0 g j = e0 := by
  simp [link, setEntry, blank, h.parent_ne.symm]

/-- The tables after linking are those before, at the same paths, and `g`. -/
theorem node_link (q : List I) (f : F) :
    node next (link rd t i g e e0) 0 root q = some f ↔
      node next rd 0 root q = some f ∨ (q = p ++ [i] ∧ f = g) := by
  by_cases hq : p ++ [i] <+: q
  · obtain ⟨r, rfl⟩ := hq
    have hself : link rd t i g e e0 t i = e := if_pos ⟨rfl, rfl⟩
    have hparent : node next (link rd t i g e e0) 0 root p = some t :=
      (node_setEntry h.blank_unshared e h.blank_parent (snoc_not_shorter p i)).trans
        h.blank_parent
    have hold : node next rd 0 root (p ++ [i] ++ r) = none := by
      rw [node_append, node_snoc next rd root p i h.parent, h.absent]
      rfl
    rw [hold, node_append, node_snoc next _ root p i hparent, hself, h.leads]
    cases r with
    | nil => simp [node, eq_comm]
    | cons j r => simp [node, h.link_new, h.empty]
  · have hne : q ≠ p ++ [i] := fun heq => hq (heq ▸ List.prefix_rfl)
    rw [link, node_setEntry h.blank_unshared e h.blank_parent hq, node_blank h.fresh]
    simp [hne]

/-- A list of all tables grows by the new one. -/
theorem node_mem_cons {l : List (List I × F)}
    (hl : ∀ q f, node next rd 0 root q = some f → (q, f) ∈ l) (q : List I) (f : F)
    (hq : node next (link rd t i g e e0) 0 root q = some f) :
    (q, f) ∈ (p ++ [i], g) :: l := by
  rcases (h.node_link q f).mp hq with hold | ⟨rfl, rfl⟩
  · exact List.mem_cons_of_mem _ (hl q f hold)
  · exact List.mem_cons_self

theorem link_unshared : Unshared next (link rd t i g e e0) root := by
  refine Unshared.of_node_inj (fun q r f hq hr => ?_)
  rcases (h.node_link q f).mp hq with oldq | ⟨rfl, rfl⟩
  · rcases (h.node_link r f).mp hr with oldr | ⟨_, rfl⟩
    · exact h.unshared.node_inj oldq oldr
    · exact absurd oldq (h.fresh q)
  · rcases (h.node_link r f).mp hr with oldr | ⟨rfl, _⟩
    · exact absurd oldr (h.fresh r)
    · rfl

/-- The next table may be linked under the new one. -/
theorem under {l : List (List I × F)}
    (hl : ∀ q f, node next rd 0 root q = some f → (q, f) ∈ l) (j : I) {g' : F} {e' : E}
    (hfresh : ∀ x ∈ (p ++ [i], g) :: l, x.2 ≠ g')
    (hleads : next (p ++ [i]).length e' = some g') :
    Links next (link rd t i g e e0) root (p ++ [i]) g j g' e' e0 where
  unshared := h.link_unshared
  parent := (h.node_link _ g).mpr (Or.inr ⟨rfl, rfl⟩)
  fresh := fun q hq => hfresh _ (h.node_mem_cons hl q g' hq) rfl
  absent := by rw [h.link_new, h.empty]
  leads := hleads
  empty := h.empty

/-- Away from the entry paths read what they read before. -/
theorem walk_link {q : List I} (hq : ¬ p ++ [i] <+: q) :
    walk next (link rd t i g e e0) 0 root q = walk next rd 0 root q := by
  rw [link, walk_setEntry h.blank_unshared e h.blank_parent hq, walk_blank h.fresh]

/-- Through the entry they used to end there, and now end in the new table. -/
theorem walk_link_through (j : I) (r : List I) :
    walk next rd 0 root (p ++ i :: j :: r) = walk next rd 0 root p ++ [rd t i] ∧
      walk next (link rd t i g e e0) 0 root (p ++ i :: j :: r) =
        walk next rd 0 root p ++ [e, e0] := by
  constructor
  · rw [walk_append next rd 0 root p _ h.parent]
    simp [walk, h.absent]
  · have hthrough := walk_setEntry_through h.blank_unshared (i := i) (r := j :: r) e
      h.blank_parent
    rw [walk_blank h.fresh] at hthrough
    rw [link, hthrough, h.leads]
    have hnew : setEntry (blank rd g e0) t i e g j = e0 := h.link_new j
    simp [walk, hnew, h.empty]

end Links

end Link

/-! ### The paths that lead to tables -/

section Nodes

variable {next : Nat → E → Option F} {rd rd' : F → I → E} {root : F} {P : Finset (List I)}

/-- `P` holds the paths that lead to a table, and no others. -/
def Nodes (next : Nat → E → Option F) (rd : F → I → E) (root : F) (P : Finset (List I)) : Prop :=
  ∀ q, q ∈ P ↔ ∃ f, node next rd 0 root q = some f

theorem Nodes.congr (h : Nodes next rd root P)
    (heq : ∀ q, node next rd' 0 root q = node next rd 0 root q) : Nodes next rd' root P := by
  intro q
  rw [heq]
  exact h q

theorem Nodes.mem (h : Nodes next rd root P) {q : List I} {f : F}
    (hq : node next rd 0 root q = some f) : q ∈ P := (h q).mpr ⟨f, hq⟩

variable [DecidableEq F] [DecidableEq I] {t g : F} {p : List I} {i : I} {e e0 : E}

/-- A new table adds its path. -/
theorem Nodes.link (h : Nodes next rd root P) (hlinks : Links next rd root p t i g e e0) :
    Nodes next (Radix.link rd t i g e e0) root (insert (p ++ [i]) P) := by
  intro q
  rw [Finset.mem_insert, h q]
  constructor
  · rintro (rfl | ⟨f, hf⟩)
    · exact ⟨g, (hlinks.node_link _ g).mpr (Or.inr ⟨rfl, rfl⟩)⟩
    · exact ⟨f, (hlinks.node_link q f).mpr (Or.inl hf)⟩
  · rintro ⟨f, hf⟩
    rcases (hlinks.node_link q f).mp hf with hold | ⟨hq, _⟩
    · exact Or.inr ⟨f, hold⟩
    · exact Or.inl hq

omit [DecidableEq F] in
/-- The path of the new table led nowhere before. -/
theorem Nodes.card_link (h : Nodes next rd root P) (hlinks : Links next rd root p t i g e e0) :
    (insert (p ++ [i]) P).card = P.card + 1 := by
  refine Finset.card_insert_of_notMem (fun hmem => ?_)
  obtain ⟨f, hf⟩ := (h _).mp hmem
  rw [node_snoc next rd root p i hlinks.parent, hlinks.absent] at hf
  cases hf

end Nodes

end Asnu.Lib.Radix
