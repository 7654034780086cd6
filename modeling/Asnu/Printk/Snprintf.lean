import Asnu.Printk.Format

/-!
Whole calls: what `_vsnprintf` puts for a format, and what `snprintf` and `printk` make of it.
-/

namespace Asnu.Printk

open Lib Lib.Code

/-- The strings that the directives of a format take can be looked at and counted. -/
def Supplied (m : Memory) (P : Ptr → Prop) (args : Nat → BitVec 64) : Nat → List Item → Prop
  | _, [] => True
  | k, .char _ :: items => Supplied m P args k items
  | k, .directive d conv :: items =>
      (conv = ascii 's' → Countable m P (d.setting args k).precision (args (k + d.args))) ∧
        Supplied m P args (k + (d.args + takes conv)) items

section Format

variable {out : Out} {m : Memory} {P : Ptr → Prop} {p : Ptr} {args : Nat → BitVec 64}
  {k n turns : Nat} {idx : BitVec 64} {items : List Item}

/-- Only the next character counts. -/
theorem Fields.Ends.congr {d : Fields} {rest rest' : List (BitVec 8)} (h : d.Ends rest)
    (hfirst : ∀ pre, first (pre ++ rest) = first (pre ++ rest')) : d.Ends rest' := by
  have hlength : first (d.lengthOn rest) = first (d.lengthOn rest') := hfirst _
  have hprecision : first (d.precisionOn rest) = first (d.precisionOn rest') := by
    unfold Fields.precisionOn Fields.lengthOn
    rw [← List.append_assoc, ← List.append_assoc, hfirst]
  have hwidth : first (d.widthOn rest) = first (d.widthOn rest') := by
    unfold Fields.widthOn Fields.precisionOn Fields.lengthOn
    rw [← List.append_assoc, ← List.append_assoc, ← List.append_assoc, ← List.append_assoc,
      hfirst]
  exact ⟨h.flags, hwidth ▸ h.flagsEnd, hprecision ▸ h.width, hlength ▸ h.point,
    hlength ▸ h.precision, hfirst [] ▸ h.length⟩

theorem Fields.ends_cons {d : Fields} {c : BitVec 8} {rest : List (BitVec 8)} :
    d.Ends (c :: rest) ↔ d.Ends [c] := by
  have hfirst : ∀ pre : List (BitVec 8), first (pre ++ c :: rest) = first (pre ++ [c]) := by
    intro pre
    cases pre with
    | nil => rfl
    | cons d pre => rfl
  exact ⟨fun h => h.congr hfirst, fun h => h.congr (fun pre => (hfirst pre).symm)⟩

theorem Fields.textOn_append (d : Fields) (rest more : List (BitVec 8)) :
    d.textOn rest ++ more = d.textOn (rest ++ more) := by
  simp only [Fields.textOn, Fields.widthOn, Fields.precisionOn, Fields.lengthOn,
    List.append_assoc]

theorem formatText_directive (d : Fields) (conv : BitVec 8) (items : List Item) :
    formatText (.directive d conv :: items) = ascii '%' :: d.textOn (conv :: formatText items) := by
  have htext := d.textOn_append [conv] (formatText items)
  rw [List.singleton_append] at htext
  exact congrArg (ascii '%' :: ·) htext

theorem length_directive (d : Fields) (conv : BitVec 8) :
    (Item.directive d conv).text.length = (d.textOn []).length + 2 := by
  have htext := congrArg List.length (d.textOn_append [] [conv])
  rw [List.length_append, List.length_singleton, List.nil_append] at htext
  rw [Item.text, List.length_cons, ← htext]

/-- The place behind the specifier. -/
theorem Legible.behind {d : Fields} {c : BitVec 8} {rest : List (BitVec 8)}
    (h : Legible m P p (d.textOn (c :: rest))) :
    Legible m P (p + BitVec.ofNat 64 ((d.textOn []).length + 1)) rest := by
  have hsplit : d.textOn (c :: rest) = (d.textOn [] ++ [c]) ++ rest := by
    rw [Fields.textOn_append, Fields.textOn_append]
    rfl
  rw [hsplit] at h
  have hright := h.right
  rwa [List.length_append, List.length_singleton] at hright

/-- A turn of the loop at a directive, the last character of which may be the terminator. -/
theorem formatLoop_directive (hkeeps : Keeps out P) {d : Fields} {rest : List (BitVec 8)}
    {text : List (BitVec 8)} {n' : Nat} (hends : d.Ends rest)
    (h : Legible m P p (ascii '%' :: d.textOn rest)) (hturns : (d.textOn []).length < turns)
    (henough : 2 ^ 32 ≤ turns)
    (hstring : first rest = ascii 's' →
      Countable m P (d.setting args k).precision (args (k + d.args)))
    (hloop : Puts out m P (formatLoop out turns args n
      (p + 1 + BitVec.ofNat 64 ((d.textOn []).length + 1))) (k + (d.args + takes (first rest)))
      text n') :
    Puts out m P (formatLoop out turns args (n + 1) p) k (d.render m args k (first rest) ++ text)
      (d.args + takes (first rest) + n') := by
  intro idx
  have hc : m p = ascii '%' := h.head
  refine .look h.here ?_
  rw [hc]
  refine .ite_neg (by decide) (.ite_neg (fun hne => hne rfl) ?_)
  rw [offset_append]
  exact (directive_prints hkeeps hends h.tail hturns henough hstring).bind hkeeps (hloop _)

theorem formatLoop_puts (hkeeps : Keeps out P) (hok : ∀ item ∈ items, item.Ok)
    (h : Legible m P p (formatText items)) (hargs : Supplied m P args k items)
    (hn : (formatText items).length < n) (hturns : (formatText items).length < turns)
    (henough : 2 ^ 32 ≤ turns) :
    Puts out m P (formatLoop out turns args n p) k (render m args k items) (argsOf items) := by
  induction items generalizing p k n with
  | nil =>
      obtain ⟨n, rfl⟩ := exists_turn hn
      intro idx
      have hc : m p = 0#8 := h.head
      rw [render, List.length_nil, BitVec.add_zero]
      refine .look h.here ?_
      rw [hc]
      exact .ite_pos rfl (.pure _ _ _ _ _ _)
  | cons item items ih =>
      obtain ⟨n, rfl⟩ := exists_turn hn
      have hitem := hok item List.mem_cons_self
      have hitems : ∀ i ∈ items, i.Ok := fun i hi => hok i (List.mem_cons_of_mem _ hi)
      have hlength : (formatText (item :: items)).length =
          item.text.length + (formatText items).length := List.length_append
      rw [hlength] at hn hturns
      cases item with
      | char c =>
          intro idx
          have hc : m p = c := h.head
          have hrest := ih hitems h.tail hargs (n := n) (by
            have hone : (Item.char c).text.length = 1 := rfl
            omega) (by omega)
          have hput : Puts out m P (put out c) k [c] 0 := fun _ => .put c
          refine .look h.here ?_
          rw [hc]
          exact .ite_neg hitem.1 (.ite_pos hitem.2 (hput.bind hkeeps hrest idx))
      | directive d conv =>
          obtain ⟨_, hends⟩ := hitem
          rw [formatText_directive] at h
          have hlen := length_directive d conv
          have hplace := h.tail.behind
          obtain ⟨hstring, hsupplied⟩ := hargs
          have hrest := ih hitems hplace hsupplied (n := n) (by omega) (by omega)
          rw [hlen] at hturns
          have hshort : (d.textOn []).length < turns := by omega
          have hfirst : first (conv :: formatText items) = conv := rfl
          have hall := @formatLoop_directive _ _ _ _ args k n turns hkeeps _ _ _ _
            (Fields.ends_cons.mpr hends) h hshort henough (by rwa [hfirst]) (by rwa [hfirst])
          rw [hfirst] at hall
          exact hall

/-- `_vsnprintf` with any output function that leaves alone what is read. -/
theorem vsnprintf_returns {fct : OutFct} {buffer : Ptr} {maxlen : BitVec 64}
    (hout : out = fun c idx => (if buffer = NULL then outNull else fct) c buffer idx maxlen)
    (hkeeps : Keeps out P) (hok : ∀ item ∈ items, item.Ok)
    (h : Legible m P p (formatText items)) (hargs : Supplied m P args 0 items) (d : Device)
    (hd : d.mem = m) :
    Terminates (fun turns => vsnprintf turns fct buffer maxlen p args) { dev := d } (fun r t =>
      r = BitVec.ofNat 32 (render m args 0 items).length ∧
      t.dev = out 0#8
        (if BitVec.ofNat 64 (render m args 0 items).length < maxlen then
          BitVec.ofNat 64 (render m args 0 items).length else maxlen - 1#64)
        (deliver out 0#64 (render m args 0 items) d) ∧
      t.taken = argsOf items ∧ ∀ x ∈ t.reads, P x) := by
  subst hout
  refine ⟨2 ^ 32 + (formatText items).length + 1, fun turns hturns => ?_⟩
  have hloop : Puts _ m P (formatLoop _ turns args turns p) 0 (render m args 0 items) _ :=
    formatLoop_puts hkeeps hok h hargs (by omega) (by omega) (by omega)
  refine (hloop 0#64 { dev := d } (fun x _ => congrFun hd x) rfl).bind ?_
  rintro _ t ⟨rfl, ht⟩
  refine returns_bind.mpr (returns_access.mpr (returns_pure.mpr ⟨?_, ?_, ?_, ?_⟩))
  · rw [BitVec.zero_add, BitVec.setWidth_ofNat_of_le (by decide)]
  · rw [BitVec.zero_add, ← ht.dev]
  · exact ht.taken.trans (Nat.zero_add _)
  · exact fun x hx => (ht.reads x hx).resolve_left List.not_mem_nil

end Format

/-! ### What is read -/

/-- The bytes of the strings that the directives take, as far as they are looked at. -/
def InStrings (m : Memory) (args : Nat → BitVec 64) : Nat → List Item → Ptr → Prop
  | _, [], _ => False
  | k, .char _ :: items, x => InStrings m args k items x
  | k, .directive d conv :: items, x =>
      (conv = ascii 's' ∧
        InString (args (k + d.args))
          (stringSeen m (d.setting args k).precision (args (k + d.args))) x) ∨
        InStrings m args (k + (d.args + takes conv)) items x

/-- The bytes of the format and of these strings. -/
def InCall (m : Memory) (args : Nat → BitVec 64) (format : Ptr) (items : List Item) (x : Ptr) :
    Prop :=
  InString format (formatText items) x ∨ InStrings m args 0 items x

/-- These strings end, or their precision does, before 32 bits are too few to count. -/
def Counted (m : Memory) (args : Nat → BitVec 64) : Nat → List Item → Prop
  | _, [] => True
  | k, .char _ :: items => Counted m args k items
  | k, .directive d conv :: items =>
      (conv = ascii 's' →
        (stringSeen m (d.setting args k).precision (args (k + d.args))).length < 2 ^ 32) ∧
        Counted m args (k + (d.args + takes conv)) items

section Calls

variable {m : Memory} {P : Ptr → Prop} {args : Nat → BitVec 64} {k : Nat} {items : List Item}
  {buffer format : Ptr}

theorem Counted.supplied (h : Counted m args k items)
    (hP : ∀ x, InStrings m args k items x → P x) : Supplied m P args k items := by
  induction items generalizing k with
  | nil => trivial
  | cons item items ih =>
      cases item with
      | char c => exact ih h hP
      | directive d conv =>
          obtain ⟨hlength, hrest⟩ := h
          refine ⟨fun hs => ⟨hlength hs, fun x hx => hP x (Or.inl ⟨hs, hx⟩)⟩, ?_⟩
          exact ih hrest (fun x hx => hP x (Or.inr hx))

/-- A call that is made as it should be: the format is a string of characters and directives
that all end, and the strings it takes can be counted. -/
structure WellFormed (m : Memory) (args : Nat → BitVec 64) (format : Ptr) (items : List Item) :
    Prop where
  ok : ∀ item ∈ items, item.Ok
  format : IsString m format (formatText items)
  strings : Counted m args 0 items

theorem WellFormed.legible (h : WellFormed m args format items) :
    Legible m (InCall m args format items) format (formatText items) :=
  ⟨h.format, fun _ => Or.inl⟩

theorem WellFormed.supplied (h : WellFormed m args format items) :
    Supplied m (InCall m args format items) args 0 items :=
  h.strings.supplied (fun _ => Or.inr)

end Calls

namespace Sample

/-- The format `%-6s|%+d` and the string `ab`. -/
def memory : Memory :=
  loaded [(0x1000#64, ['%', '-', '6', 's', '|', '%', '+', 'd'].map ascii),
    (0x2000#64, ['a', 'b'].map ascii)]

def items : List Item :=
  [.directive { flags := [ascii '-'], width := .digits [ascii '6'] } (ascii 's'),
    .char (ascii '|'), .directive { flags := [ascii '+'] } (ascii 'd')]

/-- The string and 42. -/
def args : Nat → BitVec 64
  | 0 => 0x2000#64
  | _ => 42#64

theorem wellFormed : WellFormed memory args 0x1000#64 items where
  ok := by decide
  format := by decide
  strings := by
    have hseen : (stringSeen memory 0#32 0x2000#64).length < 2 ^ 32 := by decide +kernel
    exact ⟨fun _ => hseen, by decide, trivial⟩

/-- What the call reads is the nine bytes of the format and the three of the string. -/
theorem inCall {x : Ptr} (h : InCall memory args 0x1000#64 items x) :
    InRange 0x1000#64 9 x ∨ InRange 0x2000#64 3 x := by
  have hseen : (stringSeen memory 0#32 0x2000#64).length = 2 := by decide +kernel
  rcases h with h | ⟨_, h⟩ | ⟨hs, _⟩ | h
  · exact Or.inl h
  · have hstring : InRange 0x2000#64 ((stringSeen memory 0#32 0x2000#64).length + 1) x := h
    rw [hseen] at hstring
    exact Or.inr hstring
  · exact absurd hs (by decide)
  · exact h.elim

theorem apart {x : Ptr} (h : InCall memory args 0x1000#64 items x) :
    ¬ InRange 0x3000#64 8 x ∧ ¬ InRange 0x4000#64 257 x := by
  rcases inCall h with hformat | hstring
  · exact ⟨not_inRange_of_apart (by decide) (by decide) hformat,
      not_inRange_of_apart (by decide) (by decide) hformat⟩
  · exact ⟨not_inRange_of_apart (by decide) (by decide) hstring,
      not_inRange_of_apart (by decide) (by decide) hstring⟩

end Sample

section Output

variable {m : Memory} {P : Ptr → Prop} {args : Nat → BitVec 64} {items : List Item}
  {buffer format : Ptr}

/-! ### The buffer -/

theorem outBuffer_mem (c : BitVec 8) (buffer : Ptr) (idx maxlen : BitVec 64) (d : Device) :
    (outBuffer c buffer idx maxlen d).mem = bounded buffer maxlen c idx d.mem := by
  unfold outBuffer bounded
  split
  · rfl
  · rfl

theorem outBuffer_keeps {count : BitVec 64}
    (hapart : ∀ x, P x → ¬ InRange buffer count.toNat x) :
    Keeps (fun c idx => outBuffer c buffer idx count) P := by
  intro c idx d x hx
  rw [outBuffer_mem, bounded]
  split
  · next hidx =>
      refine Memory.poke_ne _ _ (fun hsame => hapart x hx ?_)
      rw [InRange, hsame, offset_sub]
      exact BitVec.lt_def.mp hidx
  · rfl

/-- Whatever the room, `snprintf` stores as much of the text as there is room for and a
terminator behind it, nothing else, and returns the length of the whole text. -/
theorem snprintf_exact {count : BitVec 64} (h : WellFormed m args format items)
    (hbuffer : buffer ≠ NULL)
    (hapart : ∀ x, InCall m args format items x → ¬ InRange buffer count.toNat x)
    (hlen : (render m args 0 items).length < 2 ^ 64) :
    Terminates (fun turns => snprintf turns buffer count format args) { dev := { mem := m } }
      (fun r t => r = BitVec.ofNat 32 (render m args 0 items).length ∧
        t.dev.mem = written m buffer (fitted count.toNat (render m args 0 items)) ∧
        t.taken = argsOf items ∧ ∀ x ∈ t.reads, InCall m args format items x) := by
  have hout : (fun c idx => outBuffer c buffer idx count) =
      fun c idx => (if buffer = NULL then outNull else outBuffer) c buffer idx count := by
    rw [if_neg hbuffer]
  have hcall := vsnprintf_returns hout (outBuffer_keeps hapart) h.ok h.legible h.supplied
    { mem := m } rfl
  refine Terminates.mono hcall ?_
  rintro r t ⟨hr, hdev, htaken, hreads⟩
  refine ⟨hr, ?_, htaken, hreads⟩
  rw [hdev, outBuffer_mem, deliver_hom _ _ (f := Device.mem)
    (fun c i d => outBuffer_mem c buffer i count d)]
  exact deliver_fitted hlen m

/-- A buffer that is too short. -/
theorem snprintf_exact_short :
    Terminates (fun turns => snprintf turns 0x3000#64 8#64 0x1000#64 Sample.args)
      { dev := { mem := Sample.memory } } (fun r t => r = 10#32 ∧
        t.dev.mem = written Sample.memory 0x3000#64
          (['a', 'b', ' ', ' ', ' ', ' ', '|'].map ascii ++ [0#8]) ∧
        t.taken = 2 ∧
          ∀ x ∈ t.reads, InCall Sample.memory Sample.args 0x1000#64 Sample.items x) := by
  have hrender : render Sample.memory Sample.args 0 Sample.items =
      ['a', 'b', ' ', ' ', ' ', ' ', '|', '+', '4', '2'].map ascii := by decide +kernel
  have hexact : Terminates (fun turns => snprintf turns 0x3000#64 8#64 0x1000#64 Sample.args) _ _ :=
    snprintf_exact Sample.wellFormed (by decide) (fun _ hx => (Sample.apart hx).1)
      (by rw [hrender]; decide)
  rw [hrender] at hexact
  exact hexact

/-! ### The terminal -/

/-- The terminal writes nothing but memory of its own. -/
def FlantermWrite.Within (flantermWrite : FlantermWrite) (own : Ptr → Prop) : Prop :=
  ∀ m c x, ¬ own x → flantermWrite m c x = m x

variable {flantermWrite : FlantermWrite} {own : Ptr → Prop}

theorem hand_text (flantermWrite : FlantermWrite) (text : List (BitVec 8)) (d : Device) :
    text.foldl (Device.hand flantermWrite) d =
      { mem := text.foldl flantermWrite d.mem, handed := d.handed ++ text } := by
  induction text generalizing d with
  | nil => rw [List.append_nil]; rfl
  | cons c text ih =>
      rw [List.foldl_cons, ih, Device.hand, List.append_assoc, List.singleton_append]
      rfl

theorem FlantermWrite.Within.text (h : flantermWrite.Within own) (text : List (BitVec 8))
    (m : Memory) {x : Ptr} (hx : ¬ own x) : text.foldl flantermWrite m x = m x := by
  induction text generalizing m with
  | nil => rfl
  | cons c text ih => rw [List.foldl_cons, ih, h m c x hx]

/-- The output of `printk`. -/
def screen (flantermWrite : FlantermWrite) (buffer : Ptr) : Out :=
  fun c idx => (if buffer = NULL then outNull else outChar flantermWrite) c buffer idx (-1#64)

theorem screen_eq (hbuffer : buffer ≠ NULL) :
    screen flantermWrite buffer =
      filtered (fun c => c ≠ 0#8) (Device.hand flantermWrite) := by
  funext c idx d
  simp only [screen, if_neg hbuffer]
  unfold outChar filtered
  by_cases hc : c = 0#8
  · rw [if_pos hc, if_neg (by simp [hc])]
  · rw [if_neg hc, if_pos (by simp [hc])]

theorem screen_keeps (h : flantermWrite.Within own) (hapart : ∀ x, P x → ¬ own x)
    (buffer : Ptr) : Keeps (screen flantermWrite buffer) P := by
  intro c idx d x hx
  by_cases hbuffer : buffer = NULL
  · simp only [screen, if_pos hbuffer]
    rfl
  · rw [screen_eq hbuffer, filtered]
    split
    · exact h d.mem c x (hapart x hx)
    · rfl

/-- `printk` hands the text without its zeros to the terminal, one character after the other, and
changes nothing in memory but what the terminal makes of them. -/
theorem printk_hands_over (h : WellFormed m args format items) (hbuffer : buffer ≠ NULL)
    (hwithin : flantermWrite.Within own)
    (hapart : ∀ x, InCall m args format items x → ¬ own x) (handed : List (BitVec 8)) :
    Terminates (fun turns => printk flantermWrite turns buffer format args)
      { dev := { mem := m, handed := handed } }
      (fun r t => r = BitVec.ofNat 32 (render m args 0 items).length ∧
        t.dev.handed = handed ++ (render m args 0 items).filter (fun c => c ≠ 0#8) ∧
        t.dev.mem = ((render m args 0 items).filter (fun c => c ≠ 0#8)).foldl flantermWrite m ∧
        (∀ x, ¬ own x → t.dev.mem x = m x) ∧
        t.taken = argsOf items ∧ ∀ x ∈ t.reads, InCall m args format items x) := by
  have hout : screen flantermWrite buffer = fun c idx =>
      (if buffer = NULL then outNull else outChar flantermWrite) c buffer idx (-1#64) := rfl
  have hcall := vsnprintf_returns hout (screen_keeps hwithin hapart buffer) h.ok h.legible
    h.supplied { mem := m, handed := handed } rfl
  refine Terminates.mono hcall ?_
  rintro r t ⟨hr, hdev, htaken, hreads⟩
  rw [screen_eq hbuffer, deliver_filtered, hand_text, filtered, if_neg (by simp)] at hdev
  rw [hdev]
  exact ⟨hr, rfl, rfl, fun x hx => hwithin.text _ m hx, htaken, hreads⟩

namespace Sample

/-- A terminal with its cursor at `0x4000` and 256 places behind it. -/
def terminal : FlantermWrite := fun m c =>
  (m.poke (0x4001#64 + (m 0x4000#64).setWidth 64) c).poke 0x4000#64 (m 0x4000#64 + 1#8)

theorem terminal_within : terminal.Within (InRange 0x4000#64 257) := by
  intro m c x hx
  have hcursor : InRange 0x4000#64 257 0x4000#64 := by decide
  have hplace : InRange 0x4000#64 257 (0x4001#64 + (m 0x4000#64).setWidth 64) := by
    unfold InRange
    bv_omega
  have hnotCursor : x ≠ 0x4000#64 := fun h => hx (by rwa [h])
  have hnotPlace : x ≠ 0x4001#64 + (m 0x4000#64).setWidth 64 := fun h => hx (by rwa [h])
  rw [terminal, Memory.poke_ne _ _ hnotCursor, Memory.poke_ne _ _ hnotPlace]

end Sample

theorem printk_hands_over_known :
    Terminates (fun turns => printk Sample.terminal turns 0x3000#64 0x1000#64 Sample.args)
      { dev := { mem := Sample.memory, handed := [ascii '>'] } } (fun r t => r = 10#32 ∧
        t.dev.handed =
          ['>', 'a', 'b', ' ', ' ', ' ', ' ', '|', '+', '4', '2'].map ascii ∧
        t.dev.mem 0x4001#64 = ascii 'a' ∧ t.dev.mem 0x4000#64 = 10#8 ∧ t.taken = 2) := by
  have hrender : render Sample.memory Sample.args 0 Sample.items =
      ['a', 'b', ' ', ' ', ' ', ' ', '|', '+', '4', '2'].map ascii := by decide +kernel
  have hhands : Terminates
      (fun turns => printk Sample.terminal turns 0x3000#64 0x1000#64 Sample.args) _ _ :=
    printk_hands_over Sample.wellFormed (by decide) Sample.terminal_within
      (fun _ hx => (Sample.apart hx).2) [ascii '>']
  rw [hrender] at hhands
  refine Terminates.mono hhands ?_
  rintro r t ⟨hr, hhanded, hmem, -, htaken, -⟩
  refine ⟨hr, hhanded, ?_, ?_, htaken⟩
  · rw [hmem]
    decide +kernel
  · rw [hmem]
    decide +kernel

end Output

end Asnu.Printk
