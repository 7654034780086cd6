import Asnu.CString.Text
import Asnu.Lib.Runs

/-!
`strstr`: at each place of the haystack the needle is compared until they differ or one
of them ends.
-/

namespace Asnu

open Lib Lib.Code

/-- The inner loop of `strstr`, with the `n` it ends at. -/
def matchLoop : Nat → Ptr → Ptr → Code Reading Ptr
  | 0, _, _ => giveUp
  | turns + 1, h, n => do
      let a ← peek h
      if a = 0#8 then pure n
      else
        let b ← peek n
        if b = 0#8 then pure n
        else
          let a ← peek h
          let b ← peek n
          if a = b then matchLoop turns (h + 1) (n + 1) else pure n

/-- The loop over the places of the haystack. -/
def strstrLoop (turns : Nat) (needle : Ptr) : Nat → Ptr → Code Reading Ptr
  | 0, _ => giveUp
  | k + 1, haystack => do
      let c ← peek haystack
      if c = 0#8 then pure NULL
      else
        let n ← matchLoop turns haystack needle
        let d ← peek n
        if d = 0#8 then pure haystack else strstrLoop turns needle k (haystack + 1)

def strstr (turns : Nat) (haystack needle : Ptr) : Code Reading Ptr := do
  let c ← peek needle
  if c = 0#8 then pure haystack else strstrLoop turns needle turns haystack

/-- The bytes of either string. -/
def InEither (h n : Ptr) (text pat : List (BitVec 8)) (x : Ptr) : Prop :=
  InString h text x ∨ InString n pat x

section Find

variable {m : Memory} {h n : Ptr} {text pat : List (BitVec 8)}

theorem inEither_tails {c d : BitVec 8} {x : Ptr} (hx : InEither (h + 1) (n + 1) text pat x) :
    InEither h n (c :: text) (d :: pat) x :=
  hx.imp inString_cons inString_cons

/-- The loop ends at the end of the needle if the haystack begins with it. -/
theorem matchLoop_gives (htext : IsString m h text) (hpat : IsString m n pat) {turns : Nat}
    (hturns : text.length < turns) :
    ∃ k ≤ pat.length,
      Gives m (InEither h n text pat) (matchLoop turns h n) (n + BitVec.ofNat 64 k) ∧
        (m (n + BitVec.ofNat 64 k) = 0#8 ↔ pat <+: text) := by
  induction htext generalizing n pat turns with
  | @nil h hp hm =>
      obtain ⟨turns, rfl⟩ := exists_turn hturns
      refine ⟨0, Nat.zero_le _, ?_, ?_⟩
      · rw [BitVec.add_zero]
        exact .peek (Or.inl (IsString.nil hp hm).inString_self) hm (.ite_pos rfl (.pure _ _ _))
      · rw [BitVec.add_zero, List.prefix_nil]
        cases hpat with
        | nil _ hzero => exact iff_of_true hzero rfl
        | cons _ hchar hne _ => exact iff_of_false (hchar ▸ hne) (List.cons_ne_nil _ _)
  | @cons h a as hp hm ha hrest ih =>
      obtain ⟨turns, rfl⟩ := exists_turn hturns
      have hhere : InEither h n (a :: as) pat h :=
        Or.inl (IsString.cons hp hm ha hrest).inString_self
      have hthere : InEither h n (a :: as) pat n := Or.inr hpat.inString_self
      cases hpat with
      | nil hn hzero =>
          refine ⟨0, Nat.le_refl _, ?_, ?_⟩
          · rw [BitVec.add_zero]
            exact .peek hhere hm (.ite_neg ha (.peek hthere hzero (.ite_pos rfl (.pure _ _ _))))
          · rw [BitVec.add_zero]
            exact iff_of_true hzero List.nil_prefix
      | @cons _ b bs hn hchar hb hpat =>
          by_cases heq : a = b
          · subst heq
            obtain ⟨k, hk, hgives, hiff⟩ := ih hpat (Nat.lt_of_succ_lt_succ hturns)
            rw [succ_offset] at hgives hiff
            refine ⟨k + 1, Nat.succ_le_succ hk, ?_, ?_⟩
            · refine .peek hhere hm (.ite_neg ha (.peek hthere hchar (.ite_neg hb ?_)))
              refine .peek hhere hm (.peek hthere hchar (.ite_pos rfl ?_))
              exact hgives.mono (fun _ => inEither_tails)
            · rw [hiff, List.cons_prefix_cons, and_iff_right rfl]
          · refine ⟨0, Nat.zero_le _, ?_, ?_⟩
            · rw [BitVec.add_zero]
              refine .peek hhere hm (.ite_neg ha (.peek hthere hchar (.ite_neg hb ?_)))
              exact .peek hhere hm (.peek hthere hchar (.ite_neg heq (.pure _ _ _)))
            · rw [BitVec.add_zero, List.cons_prefix_cons]
              exact iff_of_false (hchar ▸ hb) (fun hboth => heq hboth.1.symm)

/-- What a search returns: the first occurrence, or the null pointer. -/
def Found (h : Ptr) (pat text : List (BitVec 8)) (r : Ptr) : Prop :=
  (∃ i, IsFirst pat text i ∧ r = h + BitVec.ofNat 64 i) ∨ (¬ pat <:+: text ∧ r = NULL)

theorem Found.self (hbegins : pat <+: text) : Found h pat text h :=
  Or.inl ⟨0, .zero hbegins, (BitVec.add_zero h).symm⟩

theorem Found.cons {c : BitVec 8} {r : Ptr} (hnot : ¬ pat <+: c :: text)
    (hfound : Found (h + 1) pat text r) : Found h pat (c :: text) r := by
  rcases hfound with ⟨i, hfirst, rfl⟩ | ⟨hnone, rfl⟩
  · exact Or.inl ⟨i + 1, hfirst.cons hnot, succ_offset h i⟩
  · refine Or.inr ⟨fun hinfix => ?_, rfl⟩
    exact (List.infix_cons_iff.mp hinfix).elim hnot hnone

theorem strstrLoop_gives (htext : IsString m h text) (hpat : IsString m n pat) (hne : pat ≠ [])
    {turns k : Nat} (hturns : text.length < turns) (hk : text.length < k) :
    ∃ r, Gives m (InEither h n text pat) (strstrLoop turns n k h) r ∧ Found h pat text r := by
  induction htext generalizing k with
  | @nil h hp hm =>
      obtain ⟨k, rfl⟩ := exists_turn hk
      refine ⟨NULL, ?_, Or.inr ⟨?_, rfl⟩⟩
      · exact .peek (Or.inl (IsString.nil hp hm).inString_self) hm (.ite_pos rfl (.pure _ _ _))
      · exact fun hinfix => hne (List.infix_nil.mp hinfix)
  | @cons h a as hp hm ha hrest ih =>
      obtain ⟨k, rfl⟩ := exists_turn hk
      have hstring := IsString.cons hp hm ha hrest
      obtain ⟨j, hj, hmatch, hiff⟩ := matchLoop_gives hstring hpat hturns
      have hstart : ∀ r, Gives m (InEither h n (a :: as) pat)
          (if m (n + BitVec.ofNat 64 j) = 0#8 then pure h else strstrLoop turns n k (h + 1)) r →
          Gives m (InEither h n (a :: as) pat) (strstrLoop turns n (k + 1) h) r := by
        intro r hr
        refine .peek (Or.inl hstring.inString_self) hm (.ite_neg ha (hmatch.bind ?_))
        exact .peek (Or.inr (hpat.inString hj)) rfl hr
      by_cases hbegins : pat <+: a :: as
      · exact ⟨h, hstart h (.ite_pos (hiff.mpr hbegins) (.pure _ _ _)), .self hbegins⟩
      · obtain ⟨r, hgives, hfound⟩ :=
          ih (Nat.lt_of_succ_lt hturns) (Nat.lt_of_succ_lt_succ hk)
        refine ⟨r, hstart r (.ite_neg (fun hz => hbegins (hiff.mp hz)) ?_), hfound.cons hbegins⟩
        exact hgives.mono (fun _ hx => hx.imp_left inString_cons)

theorem strstr_gives (htext : IsString m h text) (hpat : IsString m n pat) (turns : Nat)
    (hturns : text.length < turns) :
    ∃ r, Gives m (InEither h n text pat) (strstr turns h n) r ∧ Found h pat text r := by
  have hself : InEither h n text pat n := Or.inr hpat.inString_self
  cases hpat with
  | nil hn hzero =>
      exact ⟨h, .peek hself hzero (.ite_pos rfl (.pure _ _ _)), .self List.nil_prefix⟩
  | cons hn hchar hb hrest =>
      obtain ⟨r, hgives, hfound⟩ := strstrLoop_gives htext (.cons hn hchar hb hrest)
        (List.cons_ne_nil _ _) hturns hturns
      exact ⟨r, .peek hself hchar (.ite_neg hb hgives), hfound⟩

/-- `strstr` returns the first occurrence, the null pointer exactly if there is none, and
reads neither string past its terminator. -/
theorem strstr_first (htext : IsString m h text) (hpat : IsString m n pat) :
    Terminates (fun turns => strstr turns h n) { mem := m } (fun r t =>
      (∀ i, IsFirst pat text i → r = h + BitVec.ofNat 64 i) ∧
        (r = NULL ↔ ¬ pat <:+: text) ∧ t.mem = m ∧ ∀ x ∈ t.reads, InEither h n text pat x) := by
  refine ⟨text.length + 1, fun turns hturns => ?_⟩
  obtain ⟨r, hgives, hfound⟩ := strstr_gives htext hpat turns (by omega)
  refine hgives.from_start.mono ?_
  rintro _ t ⟨rfl, hmem, hreads⟩
  refine ⟨fun i hi => ?_, ?_, hmem, hreads⟩
  · rcases hfound with ⟨j, hfirst, rfl⟩ | ⟨hnone, _⟩
    · rw [hi.unique hfirst]
    · exact absurd hi.infix hnone
  · rcases hfound with ⟨j, hfirst, rfl⟩ | ⟨hnone, rfl⟩
    · exact iff_of_false (htext.pointer_ne_null hfirst.le) (fun hnone => hnone hfirst.infix)
    · exact iff_of_true rfl hnone

end Find

/-! ### A needle that begins again -/

/-- `aab` and `ab`. -/
def aabMemory : Memory :=
  loaded [(0x1000#64, ['a', 'a', 'b'].map ascii), (0x2000#64, ['a', 'b'].map ascii)]

theorem strstr_first_aab :
    Terminates (fun turns => strstr turns 0x1000#64 0x2000#64) { mem := aabMemory } (fun r t =>
      (∀ i, IsFirst (['a', 'b'].map ascii) (['a', 'a', 'b'].map ascii) i →
        r = 0x1000#64 + BitVec.ofNat 64 i) ∧
      (r = NULL ↔ ¬ ['a', 'b'].map ascii <:+: ['a', 'a', 'b'].map ascii) ∧ t.mem = aabMemory ∧
      ∀ x ∈ t.reads,
        InEither 0x1000#64 0x2000#64 (['a', 'a', 'b'].map ascii) (['a', 'b'].map ascii) x) :=
  strstr_first (by decide) (by decide)

/-! ### From behind -/

/-- The loop of `strrchr`. -/
def strrchrLoop (c : BitVec 32) : Nat → Ptr → Ptr → Code Reading Ptr
  | 0, _, _ => giveUp
  | turns + 1, s, last => do
      let here ← peek s
      if here = 0#8 then pure last
      else
        let again ← peek s
        strrchrLoop c turns (s + 1) (if again = c.setWidth 8 then s else last)

def strrchr (turns : Nat) (s : Ptr) (c : BitVec 32) : Code Reading Ptr :=
  strrchrLoop c turns s NULL

/-- The last place of a character. -/
def lastIdxOf? (c : BitVec 8) (text : List (BitVec 8)) : Option Nat :=
  (text.reverse.idxOf? c).map (fun i => text.length - 1 - i)

theorem lastIdxOf?_concat (c b : BitVec 8) (text : List (BitVec 8)) :
    lastIdxOf? c (text ++ [b]) = if b = c then some text.length else lastIdxOf? c text := by
  unfold lastIdxOf?
  rw [List.reverse_concat, List.idxOf?_cons, List.length_append, List.length_singleton,
    Nat.add_sub_cancel]
  by_cases hb : b = c
  · rw [if_pos (beq_iff_eq.mpr hb), if_pos hb]
    rfl
  · rw [if_neg (fun heq => hb (eq_of_beq heq)), if_neg hb, Option.map_map]
    congr 1
    funext i
    simp only [Function.comp_apply]
    omega

/-- `strrchr` finds the last place of the character. -/
theorem strrchr_gives {m : Memory} {p : Ptr} {text : List (BitVec 8)} (h : IsString m p text)
    (c : BitVec 32) {turns : Nat} (hturns : text.length < turns) :
    Gives m (InString p text) (strrchr turns p c)
      (pointer p (lastIdxOf? (c.setWidth 8) text)) := by
  have hloop : ∀ rest seen : List (BitVec 8), text = seen ++ rest → ∀ turns, rest.length < turns →
      Gives m (InString p text) (strrchrLoop c turns (p + BitVec.ofNat 64 seen.length)
        (pointer p (lastIdxOf? (c.setWidth 8) seen)))
        (pointer p (lastIdxOf? (c.setWidth 8) text)) := by
    intro rest
    induction rest with
    | nil =>
        intro seen hsplit turns hturns
        obtain ⟨turns, rfl⟩ := exists_turn hturns
        rw [List.append_nil] at hsplit
        have hend := (h.drop (Nat.le_refl _)).head
        rw [List.drop_length] at hend
        rw [← hsplit]
        exact .peek (h.inString (Nat.le_refl _)) hend (.ite_pos rfl (.pure _ _ _))
    | cons b rest ih =>
        intro seen hsplit turns hturns
        obtain ⟨turns, rfl⟩ := exists_turn hturns
        have hlength : text.length = seen.length + (rest.length + 1) := by
          rw [hsplit, List.length_append, List.length_cons]
        have hin := h.inString (i := seen.length) (by omega)
        have hplace := (hsplit ▸ h).right seen
        have hb : b ≠ 0#8 := h.ne_zero b (by rw [hsplit]; simp)
        have hnext := ih (seen ++ [b]) (by rw [hsplit, List.append_assoc]; rfl) turns
          (Nat.lt_of_succ_lt_succ hturns)
        rw [lastIdxOf?_concat, List.length_append, List.length_singleton, ← offset_succ,
          apply_ite (pointer p)] at hnext
        exact .peek hin hplace.head (.ite_neg hb (.peek hin hplace.head hnext))
  have hstart := hloop text [] rfl turns hturns
  rwa [List.length_nil, BitVec.add_zero] at hstart

end Asnu
