import Asnu.Printk.Grammar

/-!
A format that ends inside a directive: the terminator is taken for the specifier, and
`_vsnprintf` goes on behind it.
-/

namespace Asnu.Printk

open Lib Lib.Code

/-! ### What has been read stays on record -/

def Recording {α : Type} (p : Formatting α) : Prop :=
  Stays (fun s t : State => s.reads ⊆ t.reads) p

namespace Recording

variable {α β : Type} {p q : Formatting α} {k : α → Formatting β}

theorem pure (a : α) : Recording (Pure.pure a) :=
  Stays.pure (fun s => List.Subset.refl s.reads) a

theorem bind (hp : Recording p) (hk : ∀ a, Recording (k a)) : Recording (p >>= k) :=
  Stays.bind (fun _ _ _ h h' => List.Subset.trans h h') hp hk

theorem ite {b : Prop} [Decidable b] (hp : Recording p) (hq : Recording q) :
    Recording (if b then p else q) := Stays.ite hp hq

variable (out : Out) (turns : Nat) (args : Nat → BitVec 64)

theorem look (p : Ptr) : Recording (look p) := Stays.access (fun _ => List.subset_cons_self _ _)

theorem vaArg : Recording (vaArg args) := Stays.access (fun _ => List.Subset.refl _)

theorem put (c : BitVec 8) (idx : BitVec 64) : Recording (put out c idx) :=
  Stays.access (fun _ => List.Subset.refl _)

theorem putMany (c : BitVec 8) (n : Nat) (idx : BitVec 64) : Recording (putMany out c n idx) := by
  induction n generalizing idx with
  | zero => exact .pure idx
  | succ n ih => exact (put out c idx).bind ih

theorem pad (cond : Bool) (n : Nat) (idx : BitVec 64) : Recording (pad out cond n idx) :=
  .ite (putMany out _ n idx) (.pure idx)

theorem putText (text : List (BitVec 8)) (idx : BitVec 64) : Recording (putText out text idx) := by
  induction text generalizing idx with
  | nil => exact .pure idx
  | cons c text ih => exact (put out c idx).bind ih

theorem ntoaLong (idx value : BitVec 64) (negative : Bool) (base : BitVec 64)
    (prec width : BitVec 32) (flags : Flags) :
    Recording (ntoaLong out idx value negative base prec width flags) :=
  (pad out _ _ _).bind (fun _ => (putText out _ _).bind (fun _ => pad out _ _ _))

theorem flagsLoop (flags : Flags) (format : Ptr) : Recording (flagsLoop turns flags format) := by
  induction turns generalizing flags format with
  | zero => exact Stays.giveUp
  | succ turns ih =>
      refine (look format).bind (fun c => ?_)
      cases setFlag flags c with
      | some flags => exact ih flags (format + 1)
      | none => exact .pure _

theorem atoi (i : BitVec 32) (str : Ptr) : Recording (atoi turns i str) := by
  induction turns generalizing i str with
  | zero => exact Stays.giveUp
  | succ turns ih => exact (look str).bind (fun c => .ite (ih _ _) (.pure _))

theorem widthField (flags : Flags) (format : Ptr) :
    Recording (widthField turns args flags format) :=
  (look format).bind (fun _ => .ite ((atoi turns _ _).bind (fun _ => .pure _))
    (.ite ((vaArg args).bind (fun _ => .pure _)) (.pure _)))

theorem precisionField (flags : Flags) (format : Ptr) :
    Recording (precisionField turns args flags format) := by
  refine (look format).bind (fun _ => .ite ?_ (.pure _))
  exact (look _).bind (fun _ => .ite ((atoi turns _ _).bind (fun _ => .pure _))
    (.ite ((vaArg args).bind (fun _ => .pure _)) (.pure _)))

theorem lengthField (flags : Flags) (format : Ptr) : Recording (lengthField flags format) := by
  have htwo : ∀ (c : BitVec 8) (a b : Flags × Ptr), Recording (Printk.look (format + 1) >>=
      fun d => if d = c then Pure.pure a else Pure.pure b) :=
    fun c a b => (look _).bind (fun _ => .ite (.pure a) (.pure b))
  exact (look format).bind (fun _ => .ite (htwo _ _ _) (.ite (htwo _ _ _)
    (.ite (.pure _) (.pure _))))

theorem strnlenLoop (s : Ptr) (maxsize : BitVec 64) :
    Recording (strnlenLoop turns s maxsize) := by
  induction turns generalizing s maxsize with
  | zero => exact Stays.giveUp
  | succ turns ih => exact (look s).bind (fun _ => .ite (.pure _) (.ite (.pure _) (ih _ _)))

theorem stringLoop (flags : Flags) (p : Ptr) (precision : BitVec 32) (idx : BitVec 64) :
    Recording (stringLoop out flags turns p precision idx) := by
  induction turns generalizing p precision idx with
  | zero => exact Stays.giveUp
  | succ turns ih =>
      refine (look p).bind (fun _ => .ite (.pure _) (.ite (.pure _) ?_))
      exact (look p).bind (fun c => (put out c idx).bind (fun _ => ih _ _ _))

theorem specifier (flags : Flags) (width precision : BitVec 32) (c : BitVec 8)
    (idx : BitVec 64) : Recording (specifier out turns args flags width precision c idx) := by
  refine .ite ?_ (.ite ?_ (.ite ?_ (.ite ?_ (.ite (put out _ idx) (put out c idx)))))
  · exact (vaArg args).bind (fun _ => .ite (ntoaLong out _ _ _ _ _ _ _)
      (ntoaLong out _ _ _ _ _ _ _))
  · exact (pad out _ _ _).bind (fun _ => (vaArg args).bind (fun _ =>
      (put out _ _).bind (fun _ => pad out _ _ _)))
  · have hlen : ∀ p n, Recording (strnlenS turns p n) :=
      fun p n => (strnlenLoop turns p n).bind (fun _ => .pure _)
    exact (vaArg args).bind (fun _ => (hlen _ _).bind (fun _ => (pad out _ _ _).bind (fun _ =>
      (stringLoop out turns _ _ _ _).bind (fun _ => pad out _ _ _))))
  · exact (vaArg args).bind (fun _ => ntoaLong out _ _ _ _ _ _ _)

theorem directive (format : Ptr) (idx : BitVec 64) :
    Recording (directive out turns args format idx) :=
  (flagsLoop turns _ _).bind (fun _ => (widthField turns args _ _).bind (fun _ =>
    (precisionField turns args _ _).bind (fun _ => (lengthField _ _).bind (fun _ =>
      (look _).bind (fun _ => (specifier out turns args _ _ _ _ _).bind (fun _ => .pure _))))))

theorem formatLoop (n : Nat) (format : Ptr) (idx : BitVec 64) :
    Recording (formatLoop out turns args n format idx) := by
  induction n generalizing format idx with
  | zero => exact Stays.giveUp
  | succ n ih =>
      refine (look format).bind (fun _ => .ite (.pure _) (.ite ?_ ?_))
      · exact (put out _ idx).bind (fun _ => ih _ _)
      · exact (directive out turns args _ idx).bind (fun _ => ih _ _)

end Recording

/-! ### The way to a place -/

/-- With the bytes with `P` as in `m` and `k` arguments taken before, the program comes to one of
those with `Goal` and goes on as that one does; up to there it has read no other byte. -/
def Arrives {α : Type} (m : Memory) (P : Ptr → Prop) (q : Formatting α) (k : Nat)
    (Goal : Formatting α → Prop) : Prop :=
  ∀ s : State, (∀ x, P x → s.dev.mem x = m x) → s.taken = k →
    ∃ r t, Goal r ∧ (∀ x ∈ t.reads, x ∈ s.reads ∨ P x) ∧ q s = r t

namespace Arrives

variable {α β : Type} {out : Out} {m : Memory} {P : Ptr → Prop} {q : Formatting α}
  {f : α → Formatting β} {idx : BitVec 64} {k n : Nat} {text : List (BitVec 8)} {a : α}
  {p : Ptr} {Goal : Formatting β → Prop}

theorem here {q : Formatting β} (h : Goal q) : Arrives m P q k Goal :=
  fun s _ _ => ⟨q, s, h, fun _ => Or.inl, rfl⟩

/-- The rule for a part whose effect is known. -/
theorem behind (hkeeps : Keeps out P) (h : Prints out m P q idx k text n a)
    (hf : Arrives m P (f a) (k + n) Goal) : Arrives m P (q >>= f) k Goal := by
  intro s hs hk
  obtain ⟨_, t, hq, rfl, ht⟩ := h s hs hk
  obtain ⟨r, u, hgoal, hreads, hrun⟩ := hf t (ht.sees hkeeps hs) (by rw [ht.taken, hk])
  refine ⟨r, u, hgoal, fun x hx => (hreads x hx).elim (ht.reads x) Or.inr, ?_⟩
  rw [bind_apply, hq]
  exact hrun

theorem look {f : BitVec 8 → Formatting β} (hp : P p) (hf : Arrives m P (f (m p)) k Goal) :
    Arrives m P (Printk.look p >>= f) k Goal := by
  intro s hs hk
  have hcell : s.dev.mem p = m p := hs p hp
  obtain ⟨r, t, hgoal, hreads, hrun⟩ := hf { s with reads := p :: s.reads } hs hk
  refine ⟨r, t, hgoal, fun x hx => ?_, ?_⟩
  · rcases hreads x hx with hold | hin
    · rcases List.mem_cons.mp hold with rfl | hold
      · exact Or.inr hp
      · exact Or.inl hold
    · exact Or.inr hin
  · rw [← hrun, ← hcell]
    rfl

theorem ite_pos {c : Prop} [Decidable c] {q q' : Formatting β} (hc : c)
    (h : Arrives m P q k Goal) : Arrives m P (if c then q else q') k Goal := by
  rwa [if_pos hc]

theorem ite_neg {c : Prop} [Decidable c] {q q' : Formatting β} (hc : ¬ c)
    (h : Arrives m P q k Goal) : Arrives m P (if c then q' else q) k Goal := by
  rwa [if_neg hc]

end Arrives

/-! ### Behind the terminator -/

section Overrun

variable {out : Out} {m : Memory} {P : Ptr → Prop} {p : Ptr} {args : Nat → BitVec 64}
  {k n turns : Nat} {idx : BitVec 64} {items : List Item} {d : Fields}
  {Goal : Formatting (BitVec 64) → Prop}

/-- The loop over the format with a turn left for the character at this place. -/
def AtPlace (out : Out) (turns : Nat) (args : Nat → BitVec 64) (p : Ptr)
    (q : Formatting (BitVec 64)) : Prop :=
  ∃ n idx, q = formatLoop out turns args (n + 1) p idx

/-- Such a loop reads this character, and what comes then does not take it off the record. -/
theorem AtPlace.reads {q : Formatting (BitVec 64)} (h : AtPlace out turns args p q) (s : State) :
    Ensures q s (fun _ t => p ∈ t.reads) := by
  obtain ⟨n, idx, rfl⟩ := h
  have hrest : ∀ c, Recording (if c = 0#8 then Pure.pure idx
      else if c ≠ ascii '%' then put out c idx >>= formatLoop out turns args n (p + 1)
      else directive out turns args (p + 1) idx >>= fun r =>
        formatLoop out turns args n r.1 r.2) := fun c =>
    .ite (.pure _) (.ite ((Recording.put out c idx).bind (.formatLoop out turns args n (p + 1)))
      ((Recording.directive out turns args _ idx).bind (fun r =>
        .formatLoop out turns args n r.1 r.2)))
  intro b t heq
  exact hrest (s.dev.mem p) { s with reads := p :: s.reads } b t heq List.mem_cons_self

/-- The way over a character. -/
theorem Arrives.char (hkeeps : Keeps out P) {c : BitVec 8} {rest : List (BitVec 8)}
    (hc : c ≠ 0#8) (hpercent : c ≠ ascii '%') (h : Legible m P p (c :: rest))
    (hrest : ∀ idx, Arrives m P (formatLoop out turns args n (p + 1) idx) k Goal) :
    Arrives m P (formatLoop out turns args (n + 1) p idx) k Goal := by
  have hhead : m p = c := h.head
  have hput : Prints out m P (put out c idx) idx k [c] 0 _ := .put c
  refine .look h.here ?_
  rw [hhead]
  exact .ite_neg hc (.ite_pos hpercent (.behind hkeeps hput (hrest _)))

/-- The way over a directive, the last character of which may be the terminator. -/
theorem Arrives.directive (hkeeps : Keeps out P) {rest : List (BitVec 8)} (hends : d.Ends rest)
    (h : Legible m P p (ascii '%' :: d.textOn rest)) (hturns : (d.textOn []).length < turns)
    (henough : 2 ^ 32 ≤ turns)
    (hstring : first rest = ascii 's' →
      Countable m P (d.setting args k).precision (args (k + d.args)))
    (hrest : ∀ idx, Arrives m P (formatLoop out turns args n
      (p + 1 + BitVec.ofNat 64 ((d.textOn []).length + 1)) idx)
      (k + (d.args + takes (first rest))) Goal) :
    Arrives m P (formatLoop out turns args (n + 1) p idx) k Goal := by
  have hhead : m p = ascii '%' := h.head
  have hdir := @directive_prints m P _ out args k turns idx _ hkeeps _ hends h.tail hturns henough
    hstring
  refine .look h.here ?_
  rw [hhead]
  exact .ite_neg (by decide) (.ite_neg (fun hne => hne rfl) (.behind hkeeps hdir (hrest _)))

/-- A format that ends inside a directive is gone through one byte too far. -/
theorem formatLoop_arrives (hkeeps : Keeps out P) (hok : ∀ item ∈ items, item.Ok)
    (hcut : d.Ends []) (h : Legible m P p (formatText items ++ cutText (some d)))
    (hargs : Supplied m P args k items) (hn : (formatText items ++ cutText (some d)).length < n)
    (hturns : (formatText items ++ cutText (some d)).length < turns)
    (henough : 2 ^ 32 ≤ turns) :
    Arrives m P (formatLoop out turns args n p idx) k (AtPlace out turns args
      (p + BitVec.ofNat 64 ((formatText items ++ cutText (some d)).length + 1))) := by
  induction items generalizing p k n idx with
  | nil =>
      have htext : formatText [] ++ cutText (some d) = ascii '%' :: d.textOn [] := rfl
      rw [htext] at h hn hturns ⊢
      rw [List.length_cons] at hn hturns ⊢
      obtain ⟨n, rfl⟩ : ∃ left, n = left + 2 := ⟨n - 2, by omega⟩
      rw [← succ_offset p]
      exact .directive hkeeps hcut h (by omega) henough (fun hs => absurd hs (by decide))
        (fun idx => .here ⟨n, idx, rfl⟩)
  | cons item items ih =>
      obtain ⟨n, rfl⟩ := exists_turn hn
      have hitem := hok item List.mem_cons_self
      have hitems : ∀ i ∈ items, i.Ok := fun i hi => hok i (List.mem_cons_of_mem _ hi)
      cases item with
      | char c =>
          have htext : formatText (.char c :: items) ++ cutText (some d) =
              c :: (formatText items ++ cutText (some d)) := rfl
          rw [htext] at h hn hturns ⊢
          rw [List.length_cons] at hn hturns ⊢
          rw [← succ_offset p]
          exact .char hkeeps hitem.1 hitem.2 h
            (fun _ => ih hitems h.tail hargs (by omega) (by omega))
      | directive e conv =>
          have htext : formatText (.directive e conv :: items) ++ cutText (some d) =
              ascii '%' :: e.textOn (conv :: (formatText items ++ cutText (some d))) := by
            rw [formatText_directive, List.cons_append, Fields.textOn_append, List.cons_append]
          have hlen : (ascii '%' :: e.textOn (conv :: (formatText items ++
              cutText (some d)))).length = (e.textOn []).length + 1 + 1 +
                (formatText items ++ cutText (some d)).length := by
            have hsplit := congrArg List.length
              (e.textOn_append [] (conv :: (formatText items ++ cutText (some d))))
            rw [List.length_append, List.length_cons, List.nil_append] at hsplit
            rw [List.length_cons, ← hsplit]
            omega
          rw [htext] at h hn hturns ⊢
          rw [hlen] at hn hturns ⊢
          obtain ⟨hconv, hends⟩ := hitem
          obtain ⟨hstring, hsupplied⟩ := hargs
          have hplace : ∀ i j : Nat, p + 1 + BitVec.ofNat 64 (i + 1) + BitVec.ofNat 64 (j + 1) =
              p + BitVec.ofNat 64 (i + 1 + 1 + j + 1) := by
            intro i j
            rw [succ_offset, offset_offset, Nat.add_assoc (i + 1 + 1)]
          rw [← hplace]
          exact .directive hkeeps (Fields.ends_cons.mpr hends) h (by omega) henough hstring
            (fun _ => ih hitems h.tail.behind hsupplied (by omega) (by omega))

end Overrun

/-! ### Calls of `printk` -/

/-- What such a call may read: its format and, as far as they are looked at, the strings that
the directives take. -/
def Readable (m : Memory) (args : Nat → BitVec 64) (format : Ptr) (s : List (BitVec 8))
    (x : Ptr) : Prop :=
  InString format s x ∨ InStrings m args 0 (parseItems s.length s).1 x

/-- A call of `printk` with the string `s` for its format, the string arguments of which can be
counted. What it may read is apart from the terminal's own memory, and the byte behind the format
belongs to none of the strings. -/
structure Call (m : Memory) (own : Ptr → Prop) (args : Nat → BitVec 64) (format : Ptr)
    (s : List (BitVec 8)) : Prop where
  string : IsString m format s
  strings : Counted m args 0 (parseItems s.length s).1
  apart : ∀ x, Readable m args format s x → ¬ own x
  behind : ¬ InStrings m args 0 (parseItems s.length s).1 (format + BitVec.ofNat 64 (s.length + 1))

/-- The format ends outside of a directive. -/
def Whole (s : List (BitVec 8)) : Prop := (parseItems s.length s).2 = none

instance (s : List (BitVec 8)) : Decidable (Whole s) :=
  inferInstanceAs (Decidable (_ = none))

section Call

variable (flantermWrite : FlantermWrite) {m : Memory} {own : Ptr → Prop}
  {args : Nat → BitVec 64} {buffer format : Ptr} {s : List (BitVec 8)}

/-- The call comes to an end and reads nothing but its format and its strings. -/
def Inside (m : Memory) (args : Nat → BitVec 64) (buffer format : Ptr) (s : List (BitVec 8))
    (handed : List (BitVec 8)) : Prop :=
  Terminates (fun turns => printk flantermWrite turns buffer format args)
    { dev := { mem := m, handed := handed } }
    (fun _ t => ∀ x ∈ t.reads, Readable m args format s x)

/-- What is left of a call of `printk` when its loop is at this place of the format. -/
def printkFrom (turns n : Nat) (buffer : Ptr) (args : Nat → BitVec 64) (place : Ptr)
    (idx : BitVec 64) : Formatting (BitVec 32) := do
  let idx ← formatLoop (screen flantermWrite buffer) turns args n place idx
  let _ ← put (screen flantermWrite buffer) 0#8 (if idx < -1#64 then idx else -1#64 - 1#64)
  pure (idx.setWidth 32)

/-- Whether it comes to an end or not, the call gets to this place: after it has read nothing but
its format and its strings, it goes on with a turn of its loop there. -/
def GetsTo (m : Memory) (args : Nat → BitVec 64) (buffer format : Ptr) (s : List (BitVec 8))
    (handed : List (BitVec 8)) (place : Ptr) : Prop :=
  ∃ bound, ∀ turns, bound ≤ turns → ∃ n idx t, (∀ x ∈ t.reads, Readable m args format s x) ∧
    printk flantermWrite turns buffer format args { dev := { mem := m, handed := handed } } =
      printkFrom flantermWrite turns (n + 1) buffer args place idx t

/-- Where it comes to an end, the call has read this place. -/
def Reads (m : Memory) (args : Nat → BitVec 64) (buffer format : Ptr)
    (handed : List (BitVec 8)) (place : Ptr) : Prop :=
  ∃ bound, ∀ turns, bound ≤ turns →
    Ensures (printk flantermWrite turns buffer format args)
      { dev := { mem := m, handed := handed } } (fun _ t => place ∈ t.reads)

variable {flantermWrite}

theorem printkFrom_reads (turns n : Nat) (buffer place : Ptr) (idx : BitVec 64) (t : State) :
    Ensures (printkFrom flantermWrite turns (n + 1) buffer args place idx) t
      (fun _ u => place ∈ u.reads) := by
  have hplace : AtPlace (screen flantermWrite buffer) turns args place _ := ⟨n, idx, rfl⟩
  refine (hplace.reads t).bind (fun _ u hu => ?_)
  refine Ensures.mono (Q := fun _ v => u.reads ⊆ v.reads) ?_ (fun _ _ hsub => hsub hu)
  exact Recording.bind (.put _ _ _) (fun _ => .pure _) u

theorem GetsTo.reads {handed : List (BitVec 8)} {place : Ptr}
    (h : GetsTo flantermWrite m args buffer format s handed place) :
    Reads flantermWrite m args buffer format handed place := by
  obtain ⟨bound, hbound⟩ := h
  refine ⟨bound, fun turns hturns => ?_⟩
  obtain ⟨n, idx, t, -, hrun⟩ := hbound turns hturns
  exact .congr hrun (printkFrom_reads turns n buffer place idx t)

theorem Call.spec (h : Call m own args format s) :
    formatText (parseItems s.length s).1 ++ cutText (parseItems s.length s).2 = s ∧
      (∀ item ∈ (parseItems s.length s).1, item.Ok) ∧
      ∀ d ∈ (parseItems s.length s).2, d.Ends [] :=
  parseItems_spec s.length s (Nat.le_refl _) h.string.ne_zero

theorem Call.inside_of_whole (h : Call m own args format s) (hwithin : flantermWrite.Within own)
    (hwhole : Whole s) (handed : List (BitVec 8)) :
    Inside flantermWrite m args buffer format s handed := by
  obtain ⟨htext, hok, -⟩ := h.spec
  rw [hwhole, cutText, List.append_nil] at htext
  have hlegible : Legible m (Readable m args format s) format
      (formatText (parseItems s.length s).1) := by
    rw [htext]
    exact ⟨h.string, fun _ => Or.inl⟩
  refine Terminates.mono (vsnprintf_returns rfl (screen_keeps hwithin h.apart buffer) hok hlegible
    (h.strings.supplied (fun _ => Or.inr)) { mem := m, handed := handed } rfl) ?_
  exact fun _ t ht => ht.2.2.2

/-- A format that is cut off does not stop the loop at its end. -/
theorem Call.gets_behind (h : Call m own args format s) (hwithin : flantermWrite.Within own)
    (hcut : ¬ Whole s) (handed : List (BitVec 8)) :
    GetsTo flantermWrite m args buffer format s handed
      (format + BitVec.ofNat 64 (s.length + 1)) := by
  obtain ⟨d, hd⟩ := Option.ne_none_iff_exists'.mp hcut
  obtain ⟨htext, hok, hends⟩ := h.spec
  rw [hd] at htext hends
  have hlegible : Legible m (Readable m args format s) format
      (formatText (parseItems s.length s).1 ++ cutText (some d)) := by
    rw [htext]
    exact ⟨h.string, fun _ => Or.inl⟩
  refine ⟨2 ^ 32 + s.length + 1, fun turns hturns => ?_⟩
  have hloop : Arrives m _ (formatLoop (screen flantermWrite buffer) turns args turns format 0#64)
      0 _ :=
    formatLoop_arrives (screen_keeps hwithin h.apart buffer) hok (hends d rfl) hlegible
      (h.strings.supplied (fun _ => Or.inr)) (by rw [htext]; omega) (by rw [htext]; omega)
      (by omega)
  rw [htext] at hloop
  obtain ⟨_, t, ⟨n, idx, rfl⟩, hreads, hrun⟩ :=
    hloop { dev := { mem := m, handed := handed } } (fun _ _ => rfl) rfl
  refine ⟨n, idx, t, fun x hx => (hreads x hx).resolve_left List.not_mem_nil, ?_⟩
  rw [printkFrom, bind_apply, ← hrun]
  rfl

theorem Call.not_inside_of_cut (h : Call m own args format s)
    (hwithin : flantermWrite.Within own) (hcut : ¬ Whole s) (handed : List (BitVec 8)) :
    ¬ Inside flantermWrite m args buffer format s handed := by
  rintro ⟨bound, hbound⟩
  have hbehind : GetsTo flantermWrite m args buffer format s handed _ :=
    h.gets_behind hwithin hcut handed
  obtain ⟨enough, hreads⟩ := hbehind.reads
  obtain ⟨_, t, heq, hinside⟩ := hbound (max bound enough) (Nat.le_max_left _ _)
  rcases hinside _ (hreads _ (Nat.le_max_right _ _) _ t heq) with hin | hin
  · have hlength := h.string.lt_top
    have hnull := h.string.ne_null
    unfold NULL at hnull
    unfold InString at hin
    rw [InRange, offset_toNat format (by bv_omega)] at hin
    omega
  · exact h.behind hin

end Call

/-- `printk` stays inside its format exactly if the format does not end in a directive that is
cut off before its specifier, as it does with a percent sign at its end. Where it does, the loop
goes on at the byte behind the terminator, which has been read when the call comes to an end. -/
theorem printk_inside_iff {flantermWrite : FlantermWrite} {m : Memory} {own : Ptr → Prop}
    {args : Nat → BitVec 64} {format : Ptr} {s : List (BitVec 8)}
    (h : Call m own args format s) (hwithin : flantermWrite.Within own) (buffer : Ptr)
    (handed : List (BitVec 8)) :
    (Inside flantermWrite m args buffer format s handed ↔ Whole s) ∧
      (¬ Whole s →
        GetsTo flantermWrite m args buffer format s handed
          (format + BitVec.ofNat 64 (s.length + 1)) ∧
        Reads flantermWrite m args buffer format handed
          (format + BitVec.ofNat 64 (s.length + 1))) := by
  refine ⟨⟨fun hinside => ?_, fun hwhole => h.inside_of_whole hwithin hwhole handed⟩,
    fun hcut => ?_⟩
  · by_contra hcut
    exact h.not_inside_of_cut hwithin hcut handed hinside
  · have hbehind : GetsTo flantermWrite m args buffer format s handed _ :=
      h.gets_behind hwithin hcut handed
    exact ⟨hbehind, hbehind.reads⟩

namespace Sample

theorem parsed : (parseItems (formatText items).length (formatText items)).1 = items := by decide

theorem call : Call memory (InRange 0x4000#64 257) args 0x1000#64 (formatText items) where
  string := by decide
  strings := by
    rw [parsed]
    exact wellFormed.strings
  apart := by
    intro x hx
    rw [Readable, parsed] at hx
    exact (apart hx).2
  behind := by
    rw [parsed]
    intro hin
    rcases hin with ⟨-, hin⟩ | ⟨hs, -⟩ | hin
    · have hseen : (stringSeen memory 0#32 0x2000#64).length = 2 := by decide +kernel
      have hstring : InRange 0x2000#64 ((stringSeen memory 0#32 0x2000#64).length + 1) 0x1009#64 :=
        hin
      rw [hseen] at hstring
      exact absurd hstring (by decide)
    · exact absurd hs (by decide)
    · exact hin

/-- `100%`. -/
def percent : List (BitVec 8) := ['1', '0', '0', '%'].map ascii

theorem percent_call : Call (loaded [(0x1000#64, percent)]) (InRange 0x4000#64 257) args
    0x1000#64 percent where
  string := by decide
  strings := ⟨⟩
  apart := by
    rintro x (hx | hx)
    · exact not_inRange_of_apart (by decide) (by decide) hx
    · exact hx.elim
  behind := id

end Sample

theorem printk_inside_iff_known :
    Inside Sample.terminal Sample.memory Sample.args 0x3000#64 0x1000#64
        (formatText Sample.items) [] ∧
      Reads Sample.terminal (loaded [(0x1000#64, Sample.percent)]) Sample.args 0x3000#64
        0x1000#64 [] 0x1005#64 :=
  ⟨(printk_inside_iff Sample.call Sample.terminal_within 0x3000#64 []).1.mpr (by decide),
    ((printk_inside_iff Sample.percent_call Sample.terminal_within 0x3000#64 []).2
      (by decide)).2⟩

end Asnu.Printk
