import Asnu.KiSimple.Splash

/-!
What `DisplaySplash` prints. An info block in a later line is copied up to its end marker;
one in the first line is copied up to the end of the line, with the marker.
-/

namespace Asnu

open Lib Lib.Code Splash

/-- The characters of a line, one by one. -/
def charsOut (line : List (BitVec 8)) : List Printk :=
  line.map (fun c => { format := "%c", args := [.char c] })

def lineOut (w row : BitVec 32) (line : List (BitVec 8)) : List Printk :=
  { format := "\x1b[%d;%dH"
    args := [.int row, .int (centerX w (BitVec.ofNat 32 line.length) + 1#32)] } :: charsOut line

/-- The lines on consecutive rows from `row` on. -/
def linesOut (w row : BitVec 32) : List (List (BitVec 8)) → List Printk
  | [] => []
  | line :: lines => lineOut w row line ++ linesOut w (row + 1#32) lines

def infoOut (w row : BitVec 32) (info : List (BitVec 8)) : List Printk :=
  [{ format := "\x1b[%d;1H", args := [.int row] },
    { format := "\x1b[%d;%dH"
      args := [.int row, .int (centerX w (BitVec.ofNat 32 info.length) + 1#32)] },
    { format := "\x1b[90m%s\x1b[0m", args := [.str info] }]

theorem toInt_index {n : Nat} (hn : n < 2 ^ 31) : (BitVec.ofNat 32 n).toInt = n := by
  rw [BitVec.toInt_ofNat']
  exact Int.bmod_eq_of_le (by omega) (by omega)

/-! ### Rules -/

/-- The memory and the records. -/
structure At (m : Memory) (writes : List Ptr) (out : List Printk) (s : Splash) : Prop where
  mem : s.mem = m
  writes : s.writes = writes
  out : s.out = out

theorem returns_printk {format : String} {args : List PrintkArg} {s : Splash}
    {Q : Unit → Splash → Prop} :
    Returns (Splash.printk format args) s Q ↔
      Q () { s with out := { format := format, args := args } :: s.out } := returns_access

namespace At

variable {m : Memory} {ws : List Ptr} {out : List Printk} {s : Splash} {o : SplashObjects}
  {p : Ptr}

theorem self (s : Splash) : At s.mem s.writes s.out s := ⟨rfl, rfl, rfl⟩

theorem reading {α β : Type} {P : Ptr → Prop} {q : Code Reading α} {a : α}
    {f : α → Code Splash β} {Q : β → Splash → Prop} (h : At m ws out s) (hq : Gives m P q a)
    (hf : ∀ t, At m ws out t → Returns (f a) t Q) : Returns (Splash.reading q >>= f) s Q :=
  hq.focus_bind h.mem (fun t hread =>
    hf { s with toReading := t } ⟨hread.mem.trans h.mem, h.writes, h.out⟩)

theorem peek {β : Type} {f : BitVec 8 → Code Splash β} {Q : β → Splash → Prop}
    (h : At m ws out s) (hf : ∀ t, At m ws out t → Returns (f (m p)) t Q) :
    Returns (Splash.reading (Asnu.peek p) >>= f) s Q :=
  h.reading (P := fun _ => True) (.of_peek trivial) hf

theorem printk {β : Type} {format : String} {args : List PrintkArg} {f : Unit → Code Splash β}
    {Q : β → Splash → Prop} (h : At m ws out s)
    (hf : ∀ t, At m ws ({ format := format, args := args } :: out) t → Returns (f ()) t Q) :
    Returns (Splash.printk format args >>= f) s Q :=
  returns_bind.mpr (returns_printk.mpr (hf _ ⟨h.mem, h.writes, congrArg _ h.out⟩))

theorem printChars {line rest : List (BitVec 8)} {i : Nat} (h : At m ws out s)
    (hline : IsString m (p + BitVec.ofNat 64 i) (line ++ rest)) :
    Returns (Splash.printChars p line.length i) s
      (fun _ t => At m ws ((charsOut line).reverse ++ out) t) := by
  induction line generalizing i out s with
  | nil => exact returns_pure.mpr h
  | cons c line ih =>
      cases hline with
      | cons hp hm hc hrest =>
          rw [offset_succ] at hrest
          refine h.peek (fun t ht => ?_)
          rw [hm]
          refine ht.printk (fun u hu => (ih hu hrest).mono (fun _ v hv => ?_))
          rw [charsOut, List.map_cons, List.reverse_cons, List.append_assoc]
          exact hv

theorem printLine {line rest : List (BitVec 8)} (h : At m ws out s)
    (hline : IsString m p (line ++ rest)) (hlength : line.length < 2 ^ 31) (w row : BitVec 32) :
    Returns (Splash.printLine w row p (BitVec.ofNat 32 line.length)) s
      (fun _ t => At m ws ((lineOut w row line).reverse ++ out) t) := by
  have hcount : (BitVec.ofNat 32 line.length).toInt.toNat = line.length := by
    rw [toInt_index hlength, Int.toNat_natCast]
  refine h.printk (fun t ht => ?_)
  rw [hcount]
  refine (ht.printChars (i := 0) (by rwa [BitVec.add_zero])).mono (fun _ u hu => ?_)
  rw [lineOut, List.reverse_cons, List.append_assoc]
  exact hu

end At

/-! ### The buffer -/

/-- The buffer holds the text, and apart from it nothing has been written. -/
structure InfoHolds (o : SplashObjects) (m : Memory) (ws : List Ptr) (out : List Printk)
    (info : List (BitVec 8)) (t : Splash) : Prop where
  text : IsString t.mem o.info info
  out : t.out = out
  others : ∀ x, ¬ InRange o.info 256 x → t.mem x = m x
  within : ∀ x ∈ t.writes, x ∈ ws ∨ InRange o.info 256 x

/-- The buffer is an object of the language. -/
structure SplashObjects.Valid (o : SplashObjects) : Prop where
  ne_null : o.info ≠ NULL
  le_top : o.info.toNat + 256 ≤ 2 ^ 64

section Buffer

variable {m : Memory} {ws : List Ptr} {out : List Printk} {s : Splash} {o : SplashObjects}
  {src : Ptr} {info rest : List (BitVec 8)}

theorem SplashObjects.Valid.pointer_ne (hvalid : o.Valid) {k : Nat} (hk : k < 256) :
    o.info + BitVec.ofNat 64 k ≠ NULL := by
  obtain ⟨hne, htop⟩ := hvalid
  unfold NULL at *
  bv_omega

theorem mem_bytesFrom {p x : Ptr} {n : Nat} (hx : x ∈ bytesFrom p n) (hn : n ≤ 256) :
    InRange p 256 x := by
  obtain ⟨i, hi, rfl⟩ := List.mem_map.mp hx
  rw [List.mem_range] at hi
  exact inRange_add p (by omega) (by decide)

theorem fits_iff {n : Nat} (hn : n < 2 ^ 31) :
    (0#32).slt (BitVec.ofNat 32 n) ∧ (BitVec.ofNat 32 n).slt 256#32 ↔ 0 < n ∧ n < 256 := by
  simp only [BitVec.slt, decide_eq_true_iff, toInt_index hn, BitVec.toInt_zero]
  have hsize : (256#32).toInt = 256 := by decide
  rw [hsize]
  omega

/-- What fits is copied, with a zero behind it. -/
theorem takeInfo_returns (h : At m ws out s) (hvalid : o.Valid)
    (hsrc : IsString m src (info ++ rest)) (hpos : 0 < info.length) (hfits : info.length < 256)
    (hapart : ∀ x, InString src (info ++ rest) x → ¬ InRange o.info 256 x) :
    Returns (takeInfo o (BitVec.ofNat 32 info.length) src) s
      (fun _ t => InfoHolds o m ws out info t) := by
  have hlen : (BitVec.ofNat 32 info.length).signExtend 64 = BitVec.ofNat 64 info.length :=
    signExtend_index (by omega)
  have hnat : (BitVec.ofNat 64 info.length).toNat = info.length := by
    rw [BitVec.toNat_ofNat]
    omega
  unfold takeInfo
  rw [if_pos ((fits_iff (by omega)).mpr ⟨hpos, hfits⟩), hlen]
  refine returns_bind.mpr (returns_access.mpr (returns_access.mpr ?_))
  have hdisjoint : ∀ x, InRange o.info info.length x → ¬ InRange src info.length x := by
    intro x hx hsrcx
    refine hapart x ?_ (Nat.lt_trans hx hfits)
    rw [InString, List.length_append]
    exact Nat.lt_of_lt_of_le hsrcx (by omega)
  have hcopy := memcpy_eq_copy m o.info src (BitVec.ofNat 64 info.length) (by rwa [hnat])
  rw [hnat] at hcopy
  rw [h.mem, h.writes, h.out, hcopy, hnat]
  refine ⟨?_, rfl, fun x hx => ?_, fun x hx => ?_⟩
  · have hfirst : IsString ((m.copy o.info src info.length).poke
        (o.info + BitVec.ofNat 64 info.length) 0#8) o.info ((info ++ rest).take info.length) := by
      refine hsrc.copied (by rw [List.length_append]; omega)
        (fun k hk => hvalid.pointer_ne (by omega)) (fun k hk => ?_) (Memory.poke_self _ _ _)
      rw [Memory.poke_ne, Memory.copy, if_pos (inRange_add o.info hk (by omega)), offset_sub]
      bv_omega
    rwa [List.take_left] at hfirst
  · have hend : x ≠ o.info + BitVec.ofNat 64 info.length := by
      rintro rfl
      exact hx (inRange_add o.info hfits (by decide))
    exact (Memory.poke_ne _ _ hend).trans (if_neg (fun hin => hx (Nat.lt_trans hin hfits)))
  · rcases List.mem_cons.mp hx with rfl | hx
    · exact Or.inr (inRange_add o.info hfits (by decide))
    · rcases List.mem_append.mp hx with hx | hx
      · exact Or.inr (mem_bytesFrom hx (Nat.le_of_lt hfits))
      · exact Or.inl hx

theorem takeInfo_refuses (h : At m ws out s) {n : Nat} (hlong : 256 ≤ n) (hn : n < 2 ^ 31) :
    Returns (takeInfo o (BitVec.ofNat 32 n) src) s (fun _ t => At m ws out t) := by
  unfold takeInfo
  rw [if_neg (fun hboth => Nat.not_lt_of_le hlong ((fits_iff hn).mp hboth).2)]
  exact returns_pure.mpr h

end Buffer

/-! ### The text -/

/-- Lines with their line feeds, and what comes behind them. -/
def page (before : List (List (BitVec 8))) (block : List (BitVec 8)) : List (BitVec 8) :=
  before.flatMap (fun line => line ++ [lineFeed]) ++ block

theorem page_cons (line : List (BitVec 8)) (lines : List (List (BitVec 8)))
    (block : List (BitVec 8)) :
    page (line :: lines) block = line ++ lineFeed :: page lines block := by
  rw [page, page, List.flatMap_cons, List.append_assoc, List.append_assoc]
  rfl

/-- A text with an info block at the beginning of a line, and on that line the end marker
that comes first behind it. -/
structure InfoText where
  before : List (List (BitVec 8))
  body : List (BitVec 8)
  tail : List (BitVec 8)
  lines : ∀ line ∈ before, lineFeed ∉ line ∧ ¬ infoBegin <+: line
  body_pos : 0 < body.length
  body_le : body.length ≤ 255
  body_line : lineFeed ∉ body
  first : IsFirst infoEnd (body ++ (infoEnd ++ tail)) body.length

namespace InfoText

def block (x : InfoText) : List (BitVec 8) := infoBegin ++ (x.body ++ (infoEnd ++ x.tail))

def text (x : InfoText) : List (BitVec 8) := page x.before x.block

theorem block_length (x : InfoText) :
    x.block.length = 5 + (x.body ++ (infoEnd ++ x.tail)).length := by
  rw [block, List.length_append]
  rfl

theorem prefix_block (x : InfoText) : infoBegin.isPrefixOf x.block = true :=
  List.isPrefixOf_iff_prefix.mpr (List.prefix_append _ _)

end InfoText

/-- No line feed is in the marker, so it begins in the line if it begins the text. -/
theorem isPrefixOf_line {line rest : List (BitVec 8)} (hline : ¬ infoBegin <+: line) :
    infoBegin.isPrefixOf (line ++ lineFeed :: rest) = false := by
  rw [← Bool.not_eq_true, List.isPrefixOf_iff_prefix]
  intro hbegins
  have hfeed : line ++ [lineFeed] <+: line ++ lineFeed :: rest := by
    rw [List.prefix_append_right_inj]
    exact List.prefix_append [lineFeed] rest
  have hmark : lineFeed ∉ infoBegin := by decide
  rcases List.prefix_or_prefix_of_prefix hbegins hfeed with hshort | hlong
  · rcases List.prefix_concat_iff.mp hshort with heq | hin
    · exact hmark (heq ▸ List.mem_append_right line List.mem_cons_self)
    · exact hline hin
  · exact hmark (hlong.subset (List.mem_append_right line List.mem_cons_self))

/-! ### The loop -/

section Loop

variable {m : Memory} {ws : List Ptr} {out : List Printk} {s : Splash} {o : SplashObjects}
  {p : Ptr} {line rest text : List (BitVec 8)} {w centerY lineNum : BitVec 32} {turns k : Nat}
  {Q : Bool × BitVec 32 → Splash → Prop}

theorem lineLen_eq (p : Ptr) (n : Nat) :
    (p + BitVec.ofNat 64 n - p).setWidth 32 = BitVec.ofNat 32 n := by
  rw [offset_sub]
  bv_omega

theorem lineIsInfo_gives (h : IsString m p text) (n : BitVec 32) :
    Gives m (InString p text) (lineIsInfo p n) ((4#32).sle n && infoBegin.isPrefixOf text) := by
  unfold lineIsInfo
  split
  · next hlen =>
      rw [hlen, Bool.true_and]
      exact startsWith_gives h zero_not_mem_infoBegin
  · next hlen =>
      rw [Bool.not_eq_true _ |>.mp hlen, Bool.false_and]
      exact .pure _ _ _

theorem nextIsInfo_gives (h : IsString m p (lineFeed :: text)) :
    Gives m (InString p (lineFeed :: text)) (nextIsInfo p) (infoBegin.isPrefixOf text) := by
  have hself := h.inString_self
  cases h with
  | cons hp hm hc hrest =>
      refine .peek hself hm (.ite_pos rfl ?_)
      exact (startsWith_gives hrest zero_not_mem_infoBegin).mono (fun _ => inString_cons)

/-- A line that is not the info block gets to the second half of the body. -/
theorem splashLoop_line (h : At m ws out s) (hstring : IsString m p (line ++ lineFeed :: rest))
    (hline : lineFeed ∉ line ∧ ¬ infoBegin <+: line)
    (hlength : (line ++ lineFeed :: rest).length < 2 ^ 31)
    (hturns : (line ++ lineFeed :: rest).length < turns)
    (hf : ∀ t, At m ws out t → Returns (printedLine o w centerY turns
      (fun p n => splashLoop o w centerY turns k p n) p (p + BitVec.ofNat 64 line.length) lineNum)
      t Q) :
    Returns (splashLoop o w centerY turns (k + 1) p lineNum) s Q := by
  unfold splashLoop
  rw [if_neg hstring.ne_null]
  refine h.peek (fun t₁ h₁ => ?_)
  rw [if_neg (hstring.head_ne_zero (List.append_ne_nil_of_right_ne_nil _ (List.cons_ne_nil _ _)))]
  refine h₁.reading (endOfLine_gives hstring hlength hturns) (fun t₂ h₂ => ?_)
  rw [lineLength_append hline.1, lineLen_eq]
  refine h₂.reading (lineIsInfo_gives hstring _) (fun t₃ h₃ => ?_)
  rw [isPrefixOf_line hline.2, Bool.and_false, if_neg Bool.false_ne_true]
  exact hf t₃ h₃

theorem printedLine_on (h : At m ws out s) (hstring : IsString m p (line ++ lineFeed :: rest))
    (hlength : line.length < 2 ^ 31) (hrest : infoBegin.isPrefixOf rest = false)
    {goOn : Ptr → BitVec 32 → Code Splash (Bool × BitVec 32)}
    (hf : ∀ t, At m ws ((lineOut w (centerY + lineNum + 1#32) line).reverse ++ out) t →
      Returns (goOn (p + BitVec.ofNat 64 (line.length + 1)) (lineNum + 1#32)) t Q) :
    Returns (printedLine o w centerY turns goOn p (p + BitVec.ofNat 64 line.length) lineNum)
      s Q := by
  have hfeed := hstring.right line
  unfold printedLine
  rw [lineLen_eq]
  refine h.reading (nextIsInfo_gives hfeed) (fun t₁ h₁ => ?_)
  rw [hrest, if_neg Bool.false_ne_true]
  refine returns_bind.mpr ((h₁.printLine hstring hlength w _).mono (fun _ t₂ h₂ => ?_))
  refine h₂.peek (fun t₃ h₃ => ?_)
  cases hfeed with
  | cons _ hm _ _ =>
      rw [if_pos hm, offset_succ]
      exact hf t₃ h₃

theorem InfoHolds.of_at {info : List (BitVec 8)} {out' : List Printk} {t : Splash}
    (h : InfoHolds o m ws out info s) (ht : At s.mem s.writes out' t) :
    InfoHolds o m ws out' info t where
  text := ht.mem.symm ▸ h.text
  out := ht.out
  others := ht.mem.symm ▸ h.others
  within := ht.writes.symm ▸ h.within

/-- The line before the info block: what stands between the markers is copied. -/
theorem printedLine_next (x : InfoText) (h : At m ws out s) (hvalid : o.Valid)
    (hend : IsString m o.endMark infoEnd)
    (hstring : IsString m p (line ++ lineFeed :: x.block))
    (hlength : (line ++ lineFeed :: x.block).length < 2 ^ 31)
    (hturns : (line ++ lineFeed :: x.block).length < turns)
    (hapart : ∀ y, InString p (line ++ lineFeed :: x.block) y → ¬ InRange o.info 256 y)
    {goOn : Ptr → BitVec 32 → Code Splash (Bool × BitVec 32)} :
    Returns (printedLine o w centerY turns goOn p (p + BitVec.ofNat 64 line.length) lineNum) s
      (fun r t => r = (true, lineNum + 1#32) ∧
        InfoHolds o m ws ((lineOut w (centerY + lineNum + 1#32) line).reverse ++ out)
          x.body t) := by
  have hsum : (line ++ lineFeed :: x.block).length =
      line.length + 6 + (x.body ++ (infoEnd ++ x.tail)).length := by
    rw [List.length_append, List.length_cons, x.block_length]
    omega
  have hstart : p + BitVec.ofNat 64 line.length + 1 + 5 =
      p + BitVec.ofNat 64 (line.length + 6) := by
    rw [BitVec.add_assoc]
    exact offset_offset p line.length 6
  have hinfo : IsString m (p + BitVec.ofNat 64 (line.length + 6))
      (x.body ++ (infoEnd ++ x.tail)) := by
    have hright := (hstring.right line).right (lineFeed :: infoBegin)
    rwa [offset_offset] at hright
  obtain ⟨r, hgives, hfound⟩ := strstr_gives hinfo hend turns (by omega)
  have hstop : r = p + BitVec.ofNat 64 (line.length + 6) + BitVec.ofNat 64 x.body.length := by
    rcases hfound with ⟨i, hfirst, rfl⟩ | ⟨hnone, _⟩
    · rw [hfirst.unique x.first]
    · exact absurd x.first.infix hnone
  have hle := x.first.le
  have hbehind : p + BitVec.ofNat 64 (line.length + 6) <
      p + BitVec.ofNat 64 (line.length + 6) + BitVec.ofNat 64 x.body.length := by
    have htop := hinfo.lt_top
    have hpos := x.body_pos
    bv_omega
  unfold printedLine
  rw [lineLen_eq, hstart]
  refine h.reading (nextIsInfo_gives (hstring.right line)) (fun t₁ h₁ => ?_)
  rw [x.prefix_block, if_pos rfl]
  refine h₁.reading hgives (fun t₂ h₂ => ?_)
  rw [hstop]
  unfold takeNext
  rw [if_pos ⟨hinfo.pointer_ne_null hle, hbehind⟩, lineLen_eq]
  have htake := takeInfo_returns h₂ hvalid hinfo x.body_pos (Nat.lt_succ_of_le x.body_le)
    (fun y hy => hapart y (inRange_offset hy (by omega)))
  refine returns_bind.mpr (htake.mono (fun _ t₃ h₃ => ?_))
  have hkept : IsString t₃.mem p (line ++ lineFeed :: x.block) :=
    hstring.congr (fun y hy => h₃.others y (hapart y hy))
  have hself : At t₃.mem t₃.writes out t₃ := ⟨rfl, rfl, h₃.out⟩
  rw [List.length_append] at hlength
  refine returns_bind.mpr ((hself.printLine hkept (by omega) w _).mono (fun _ t₄ h₄ => ?_))
  exact returns_pure.mpr ⟨rfl, h₃.of_at h₄⟩

/-- Every line before the block is printed, one row below the other. -/
theorem splashLoop_returns (x : InfoText) (hvalid : o.Valid) (hend : IsString m o.endMark infoEnd)
    {lines : List (List (BitVec 8))} {line : List (BitVec 8)}
    (hlines : ∀ l ∈ line :: lines, lineFeed ∉ l ∧ ¬ infoBegin <+: l) (h : At m ws out s)
    (hstring : IsString m p (page (line :: lines) x.block))
    (hlength : (page (line :: lines) x.block).length < 2 ^ 31)
    (hturns : (page (line :: lines) x.block).length < turns) (hk : lines.length < k)
    (hapart : ∀ y, InString p (page (line :: lines) x.block) y → ¬ InRange o.info 256 y) :
    Returns (splashLoop o w centerY turns k p lineNum) s (fun r t =>
      r = (true, lineNum + BitVec.ofNat 32 (lines.length + 1)) ∧
        InfoHolds o m ws
          ((linesOut w (centerY + lineNum + 1#32) (line :: lines)).reverse ++ out) x.body t) := by
  induction lines generalizing line p lineNum k out s with
  | nil =>
      obtain ⟨k, rfl⟩ := exists_turn hk
      rw [page_cons] at hstring hlength hturns
      simp only [page_cons] at hapart
      refine splashLoop_line h hstring (hlines line List.mem_cons_self) hlength hturns
        (fun t ht => ?_)
      refine (printedLine_next x ht hvalid hend hstring hlength hturns hapart).mono ?_
      rintro _ u ⟨rfl, hu⟩
      rw [linesOut, linesOut, List.append_nil]
      exact ⟨rfl, hu⟩
  | cons next lines ih =>
      obtain ⟨k, rfl⟩ := exists_turn hk
      rw [page_cons] at hstring hlength hturns
      rw [page_cons line] at hapart
      have hsum : (line ++ lineFeed :: page (next :: lines) x.block).length =
          line.length + 1 + (page (next :: lines) x.block).length := by
        rw [List.length_append, List.length_cons]
        omega
      have hrest : IsString m (p + BitVec.ofNat 64 (line.length + 1))
          (page (next :: lines) x.block) := by
        have hright := (hstring.right line).right [lineFeed]
        rwa [offset_offset] at hright
      have hnext := hlines next (List.mem_cons_of_mem line List.mem_cons_self)
      refine splashLoop_line h hstring (hlines line List.mem_cons_self) hlength hturns
        (fun t ht => ?_)
      refine printedLine_on ht hstring (by omega) ?_ (fun u hu => ?_)
      · rw [page_cons]
        exact isPrefixOf_line hnext.2
      · refine (ih (fun l hl => hlines l (List.mem_cons_of_mem line hl)) hu hrest (by omega)
          (by omega) (Nat.lt_of_succ_lt_succ hk)
          (fun y hy => hapart y (inRange_offset hy (by omega)))).mono ?_
        rintro _ v ⟨rfl, hv⟩
        have hrow : centerY + (lineNum + 1#32) + 1#32 = centerY + lineNum + 1#32 + 1#32 := by
          rw [← BitVec.add_assoc]
        have hnum : lineNum + 1#32 + BitVec.ofNat 32 (lines.length + 1) =
            lineNum + BitVec.ofNat 32 ((next :: lines).length + 1) := by
          rw [List.length_cons]
          bv_omega
        rw [hrow, ← List.append_assoc, ← List.reverse_append] at hv
        rw [hnum]
        exact ⟨rfl, hv⟩

/-- The line of the block is at least as long as the block. -/
theorem le_lineLength_block (x : InfoText) : x.body.length + 10 ≤ lineLength x.block := by
  have hmarks : lineFeed ∉ infoBegin ∧ lineFeed ∉ infoEnd := by decide
  have hfeed : lineFeed ∉ infoBegin ++ (x.body ++ infoEnd) := by
    simp only [List.mem_append, not_or]
    exact ⟨hmarks.1, x.body_line, hmarks.2⟩
  have hblock : x.block = infoBegin ++ (x.body ++ infoEnd) ++ x.tail := by
    rw [InfoText.block, List.append_assoc, List.append_assoc]
  have hlong := le_lineLength hfeed x.tail
  rw [← hblock, List.length_append, List.length_append] at hlong
  have hlengths : infoBegin.length = 5 ∧ infoEnd.length = 5 := ⟨rfl, rfl⟩
  omega

/-- A line that begins with the marker is copied from behind it to its end. -/
theorem splashLoop_block (x : InfoText) (h : At m ws out s) (hstring : IsString m p x.block)
    (hlength : x.block.length < 2 ^ 31) (hturns : x.block.length < turns) {R : Splash → Prop}
    (htake : ∀ t, At m ws out t →
      Returns (takeInfo o (BitVec.ofNat 32 (lineLength x.block - 5)) (p + 5)) t (fun _ u => R u)) :
    Returns (splashLoop o w centerY turns (k + 1) p lineNum) s
      (fun r t => r = (true, lineNum) ∧ R t) := by
  have hlong := le_lineLength_block x
  have hend := lineLength_le x.block
  have hfour : (4#32).sle (BitVec.ofNat 32 (lineLength x.block)) = true := by
    have hlow : (4#32).toInt = 4 := by decide
    simp only [BitVec.sle, decide_eq_true_iff, toInt_index (Nat.lt_of_le_of_lt hend hlength)]
    omega
  have hlen : BitVec.ofNat 32 (lineLength x.block) - 5#32 =
      BitVec.ofNat 32 (lineLength x.block - 5) := by
    bv_omega
  have hne : x.block ≠ [] := List.ne_nil_of_length_pos (by omega)
  unfold splashLoop
  rw [if_neg hstring.ne_null]
  refine h.peek (fun t₁ h₁ => ?_)
  rw [if_neg (hstring.head_ne_zero hne)]
  refine h₁.reading (endOfLine_gives hstring hlength hturns) (fun t₂ h₂ => ?_)
  rw [lineLen_eq]
  refine h₂.reading (lineIsInfo_gives hstring _) (fun t₃ h₃ => ?_)
  rw [hfour, x.prefix_block, Bool.and_true, if_pos rfl, hlen]
  exact returns_bind.mpr ((htake t₃ h₃).mono (fun _ _ hu => returns_pure.mpr ⟨rfl, hu⟩))

/-- In the first line the end marker is copied too, or nothing is. -/
theorem splashLoop_first (x : InfoText) (w centerY lineNum : BitVec 32) (ws : List Ptr)
    (out : List Printk) {turns : Nat} (k : Nat) (hvalid : o.Valid) (hempty : m o.info = 0#8)
    (hstring : IsString m p x.block) (hlength : x.block.length < 2 ^ 31)
    (hturns : x.block.length < turns)
    (hapart : ∀ y, InString p x.block y → ¬ InRange o.info 256 y) :
    ∃ info, info ≠ x.body ∧ info.length < 256 ∧ ∀ s, At m ws out s →
      Returns (splashLoop o w centerY turns (k + 1) p lineNum) s
        (fun r t => r = (true, lineNum) ∧ InfoHolds o m ws out info t) := by
  have hlong := le_lineLength_block x
  have hend := lineLength_le x.block
  have hblock := x.block_length
  have hpos := x.body_pos
  by_cases hfits : lineLength x.block - 5 < 256
  · have hsrc : IsString m (p + 5) (x.body ++ (infoEnd ++ x.tail)) := hstring.right infoBegin
    have htaken : ((x.body ++ (infoEnd ++ x.tail)).take (lineLength x.block - 5)).length =
        lineLength x.block - 5 := by
      rw [List.length_take]
      omega
    rw [← List.take_append_drop (lineLength x.block - 5) (x.body ++ (infoEnd ++ x.tail))] at hsrc
    refine ⟨(x.body ++ (infoEnd ++ x.tail)).take (lineLength x.block - 5), ?_, by omega,
      fun s h => splashLoop_block x h hstring hlength hturns (fun t ht => ?_)⟩
    · intro heq
      have hsame := congrArg List.length heq
      omega
    · have htake := takeInfo_returns ht hvalid hsrc (by omega) (by omega) (fun y hy => ?_)
      · rwa [htaken] at htake
      · rw [List.take_append_drop] at hy
        exact hapart y (inRange_offset (d := 5) hy (by omega))
  · refine ⟨[], fun hnil => ?_, by decide,
      fun s h => splashLoop_block x h hstring hlength hturns (fun t ht => ?_)⟩
    · rw [← hnil] at hpos
      exact absurd hpos (by decide)
    · refine (takeInfo_refuses ht (Nat.le_of_not_lt hfits) (by omega)).mono (fun _ u hu => ?_)
      refine ⟨?_, hu.out, fun y _ => congrFun hu.mem y, fun y hy => Or.inl (hu.writes ▸ hy)⟩
      rw [hu.mem]
      exact .nil hvalid.ne_null hempty

end Loop

/-! ### The whole -/

/-- The text, the end marker and the buffer in memory. -/
structure Placed (m : Memory) (o : SplashObjects) (p : Ptr) (text : List (BitVec 8)) : Prop where
  valid : o.Valid
  string : IsString m p text
  endMark : IsString m o.endMark infoEnd
  text_apart : ∀ y, InString p text y → ¬ InRange o.info 256 y
  endMark_apart : ∀ y, InString o.endMark infoEnd y → ¬ InRange o.info 256 y

/-- `center_y` for a text. -/
def centerRow (h : BitVec 32) (text : List (BitVec 8)) : BitVec 32 :=
  h.sdiv 2#32 - (BitVec.ofNat 32 (text.count lineFeed) + 1#32).sdiv 2#32

def titleOut : Printk := { format := "[0;0HASNU 1.0.0-rc01" }

section Whole

variable {m : Memory} {o : SplashObjects} {p : Ptr} {text info : List (BitVec 8)}
  {w h num : BitVec 32} {out : List Printk} {turns : Nat}

theorem printInfo_returns {s : Splash} (hinfo : IsString s.mem o.info info)
    (hlength : info.length < 256) (hturns : info.length < turns) (row : BitVec 32) :
    Returns (printInfo o turns w row) s
      (fun _ t => t.out = (infoOut w row info).reverse ++ s.out ∧ t.writes = s.writes) := by
  refine (At.self s).printk (fun t₁ h₁ => ?_)
  refine h₁.reading (strlen_gives hinfo (by omega) hturns) (fun t₂ h₂ => ?_)
  refine h₂.printk (fun t₃ h₃ => ?_)
  refine h₃.reading (textAt_gives hinfo hturns) (fun t₄ h₄ => ?_)
  exact returns_printk.mpr ⟨congrArg _ h₄.out, h₄.writes⟩

/-- The call, given what its loop does. -/
theorem displaySplash_returns (hp : Placed m o p text) (hlength : text.length < 2 ^ 31)
    (hturns : text.length < turns) (hinfo : info.length < 256) (hturns' : 256 ≤ turns)
    (hloop : ∀ t, At (m.fill o.info 256 0#8) (bytesFrom o.info 256) [titleOut] t →
      Returns (splashLoop o w (centerRow h text) turns turns p 0#32) t (fun r u =>
        r = (true, num) ∧ InfoHolds o (m.fill o.info 256 0#8) (bytesFrom o.info 256) out info u)) :
    Returns (displaySplash o turns w h p) { mem := m } (fun _ t =>
      t.out = (infoOut w (centerRow h text + num + 2#32) info).reverse ++ out ∧
        ∀ a ∈ t.writes, InRange o.info 256 a) := by
  refine (At.self { mem := m }).printk (fun t₁ h₁ => ?_)
  refine h₁.reading (countLines_gives hp.string hlength hturns) (fun t₂ h₂ => ?_)
  refine returns_bind.mpr (returns_access.mpr (returns_bind.mpr ((hloop _ ?_).mono ?_)))
  · refine ⟨?_, ?_, h₂.out⟩
    · rw [h₂.mem, memset_eq_fill]
      rfl
    · rw [h₂.writes]
      exact List.append_nil _
  · rintro _ u ⟨rfl, hu⟩
    refine (printInfo_returns hu.text hinfo (by omega) _).mono (fun _ v hv => ?_)
    refine ⟨by rw [hv.1, hu.out]; rfl, fun a ha => ?_⟩
    rw [hv.2] at ha
    rcases hu.within a ha with hfill | hin
    · exact mem_bytesFrom hfill (Nat.le_refl _)
    · exact hin

/-- Clearing the buffer leaves the rest in place. -/
theorem Placed.cleared (hp : Placed m o p text) : Placed (m.fill o.info 256 0#8) o p text where
  valid := hp.valid
  string := hp.string.congr (fun y hy => m.fill_out _ (hp.text_apart y hy))
  endMark := hp.endMark.congr (fun y hy => m.fill_out _ (hp.endMark_apart y hy))
  text_apart := hp.text_apart
  endMark_apart := hp.endMark_apart

/-- More characters than an `int` counts: the call never gets past counting them. -/
theorem not_returns_long (hp : Placed m o p text) (hlong : 2 ^ 31 ≤ text.length)
    {Q : Unit → Splash → Prop} : ¬ Returns (displaySplash o turns w h p) { mem := m } Q := by
  intro hreturns
  have hcount := returns_bind.mp (returns_printk.mp (returns_bind.mp hreturns))
  rw [Splash.reading, returns_focus] at hcount
  exact countLines_gives_up (i := 0) (by rw [BitVec.add_zero]; exact hp.string) (by decide)
    (by omega) _ _ rfl hcount

end Whole

/-! ### Rows -/

theorem page_count {lines : List (List (BitVec 8))} (hlines : ∀ l ∈ lines, lineFeed ∉ l)
    (block : List (BitVec 8)) :
    (page lines block).count lineFeed = lines.length + block.count lineFeed := by
  induction lines with
  | nil => exact (Nat.zero_add _).symm
  | cons line lines ih =>
      have hline := List.count_eq_zero.mpr (hlines line List.mem_cons_self)
      have hrest := ih (fun l hl => hlines l (List.mem_cons_of_mem line hl))
      rw [page_cons, List.count_append, List.count_cons_self, hline, hrest, List.length_cons]
      omega

theorem page_length (lines : List (List (BitVec 8))) (block : List (BitVec 8)) :
    lines.length + block.length ≤ (page lines block).length := by
  induction lines with
  | nil => exact Nat.le_of_eq (Nat.zero_add _)
  | cons line lines ih =>
      rw [page_cons, List.length_append, List.length_cons, List.length_cons]
      omega

namespace InfoText

variable (x : InfoText)

theorem before_le_count : x.before.length ≤ x.text.count lineFeed := by
  rw [text, page_count (fun l hl => (x.lines l hl).1)]
  exact Nat.le_add_right _ _

/-- The markers are not line feeds. -/
theorem count_le : x.text.count lineFeed + 5 ≤ x.text.length := by
  have hlength := page_length x.before x.block
  have hblock : x.block.count lineFeed = (x.body ++ (infoEnd ++ x.tail)).count lineFeed := by
    rw [block, List.count_append]
    exact Nat.zero_add _
  have hrest := List.count_le_length (a := lineFeed) (l := x.body ++ (infoEnd ++ x.tail))
  rw [x.block_length] at hlength
  rw [text, page_count (fun l hl => (x.lines l hl).1), hblock]
  omega

end InfoText

/-- The rows stay within an `int`, whatever the height of the screen. -/
theorem centerRow_lt (h : BitVec 32) {text : List (BitVec 8)} {n : Nat}
    (hlength : text.length < 2 ^ 31) (hcount : text.count lineFeed + 5 ≤ text.length)
    (hn : n ≤ text.count lineFeed) : (centerRow h text + 1#32).toInt + n + 1 < 2 ^ 31 := by
  have htwo : (2#32).toInt = 2 := by decide
  have htotal : BitVec.ofNat 32 (text.count lineFeed) + 1#32 =
      BitVec.ofNat 32 (text.count lineFeed + 1) := (BitVec.ofNat_add _ 1).symm
  have hhalf : (h.sdiv 2#32).toInt = h.toInt.tdiv 2 := by
    rw [BitVec.toInt_sdiv_of_ne_or_ne _ _ (Or.inr (by decide)), htwo]
  have hlines : ((BitVec.ofNat 32 (text.count lineFeed + 1)).sdiv 2#32).toInt =
      ((text.count lineFeed + 1 : Nat) : Int).tdiv 2 := by
    rw [BitVec.toInt_sdiv_of_ne_or_ne _ _ (Or.inr (by decide)), htwo, toInt_index (by omega)]
  have hlow := BitVec.le_toInt h
  have hhigh := BitVec.toInt_lt (x := h)
  have hone : (1#32).toInt = 1 := by decide
  have hsign : Int.sign 2 = 1 := rfl
  have hhalfLow : -2 ^ 30 ≤ h.toInt.tdiv 2 := by
    rw [Int.tdiv_eq_ediv, hsign]
    split <;> omega
  have hhalfHigh : h.toInt.tdiv 2 < 2 ^ 30 := by
    rw [Int.tdiv_eq_ediv, hsign]
    split <;> omega
  rw [Int.tdiv_eq_ediv_of_nonneg (by omega)] at hlines
  unfold centerRow
  rw [htotal, BitVec.toInt_add, BitVec.toInt_sub, hhalf, hlines, hone,
    Int.bmod_eq_of_le (n := h.toInt.tdiv 2 - _) (by omega) (by omega),
    Int.bmod_eq_of_le (by omega) (by omega)]
  omega

/-- What the screen is to show: the title, each line before the block once and in order on
consecutive rows, and then the text between the markers. -/
def Shown (x : InfoText) (w : BitVec 32) (out : List Printk) : Prop :=
  ∃ top : BitVec 32, top.toInt + x.before.length + 1 < 2 ^ 31 ∧
    out = titleOut :: linesOut w top x.before ++
      infoOut w (top + BitVec.ofNat 32 x.before.length + 1#32) x.body

section Shown

variable {m : Memory} {o : SplashObjects} {p : Ptr} {turns : Nat} (x : InfoText)

theorem displaySplash_later (hp : Placed m o p x.text) (hlength : x.text.length < 2 ^ 31)
    (hbefore : x.before ≠ []) (hturns : x.text.length + 256 ≤ turns) (w h : BitVec 32) :
    Returns (displaySplash o turns w h p) { mem := m } (fun _ t =>
      Shown x w t.out.reverse ∧ ∀ a ∈ t.writes, InRange o.info 256 a) := by
  obtain ⟨line, lines, hcons⟩ := List.exists_cons_of_ne_nil hbefore
  have htext : x.text = page (line :: lines) x.block := by rw [InfoText.text, hcons]
  have hclear := hp.cleared
  have hlong := page_length (line :: lines) x.block
  rw [List.length_cons, ← htext] at hlong
  refine (displaySplash_returns hp hlength (by omega) (Nat.lt_succ_of_le x.body_le) (by omega)
    (fun t ht => splashLoop_returns x hp.valid hclear.endMark (hcons ▸ x.lines) ht
      (htext ▸ hclear.string) (htext ▸ hlength) (htext ▸ (by omega)) (by omega)
      (htext ▸ hclear.text_apart))).mono (fun _ t ht => ⟨?_, ht.2⟩)
  refine ⟨centerRow h x.text + 1#32,
    centerRow_lt h hlength x.count_le x.before_le_count, ?_⟩
  have hrow : centerRow h x.text + 0#32 + 1#32 = centerRow h x.text + 1#32 := by
    rw [BitVec.add_zero]
  have hinfo : centerRow h x.text + (0#32 + BitVec.ofNat 32 (lines.length + 1)) + 2#32 =
      centerRow h x.text + 1#32 + BitVec.ofNat 32 (line :: lines).length + 1#32 := by
    rw [List.length_cons]
    bv_omega
  rw [ht.1, hrow, hinfo, hcons, List.reverse_append, List.reverse_append, List.reverse_reverse,
    List.reverse_reverse]
  rfl

/-- With the block in the first line, something else is printed. -/
theorem displaySplash_first (hp : Placed m o p x.text) (hlength : x.text.length < 2 ^ 31)
    (hbefore : x.before = []) (hturns : x.text.length + 256 ≤ turns) (w h : BitVec 32) :
    Returns (displaySplash o turns w h p) { mem := m } (fun _ t => ¬ Shown x w t.out.reverse) := by
  have htext : x.text = x.block := by
    rw [InfoText.text, hbefore]
    rfl
  have hclear := hp.cleared
  obtain ⟨k, rfl⟩ : ∃ k, turns = k + 1 := ⟨turns - 1, by omega⟩
  have hturned : x.text.length < k + 1 := by omega
  have hempty : m.fill o.info 256 0#8 o.info = 0#8 := by
    refine m.fill_in 0#8 ?_
    have hself := inRange_add o.info (n := 256) (d := 0) (by decide) (by decide)
    rwa [BitVec.add_zero] at hself
  obtain ⟨info, hne, hfits, hloop⟩ := splashLoop_first x w (centerRow h x.text) 0#32
    (bytesFrom o.info 256) [titleOut] k hp.valid hempty (htext ▸ hclear.string)
    (htext ▸ hlength) (htext ▸ hturned) (htext ▸ hclear.text_apart)
  refine (displaySplash_returns hp hlength (by omega) hfits (by omega) hloop).mono ?_
  rintro _ t ⟨hout, _⟩ ⟨top, _, hshown⟩
  have hlast := congrArg List.reverse hshown
  rw [List.reverse_reverse, hout, List.reverse_append] at hlast
  have hevent := (List.cons.inj hlast).1
  have hinfo := (List.cons.inj (Printk.mk.inj hevent).2).1
  exact hne (PrintkArg.str.inj hinfo)

theorem not_shown_first (hp : Placed m o p x.text) (hlength : x.text.length < 2 ^ 31)
    (hbefore : x.before = []) (w h : BitVec 32) :
    ¬ Terminates (fun turns => displaySplash o turns w h p) { mem := m } (fun _ t =>
      Shown x w t.out.reverse ∧ ∀ a ∈ t.writes, InRange o.info 256 a) := by
  rintro ⟨bound, hbound⟩
  obtain ⟨_, t, heq, hshown, _⟩ := hbound (max bound (x.text.length + 256)) (Nat.le_max_left _ _)
  have hfirst := displaySplash_first x hp hlength hbefore
    (Nat.le_max_right bound (x.text.length + 256)) w h
  exact hfirst.ensures _ t heq hshown

/-- The block is shown exactly if it is not in the first line, of a text whose characters an
`int` can count. -/
theorem splash_shown_iff {text : Ptr} (hp : Placed m o text x.text) (w h : BitVec 32) :
    Terminates (fun turns => displaySplash o turns w h text) { mem := m } (fun _ t =>
        Shown x w t.out.reverse ∧ ∀ a ∈ t.writes, InRange o.info 256 a) ↔
      x.before ≠ [] ∧ x.text.length < 2 ^ 31 := by
  constructor
  · intro hshown
    have hlength : x.text.length < 2 ^ 31 := by
      by_contra hlong
      obtain ⟨bound, hbound⟩ := hshown
      exact not_returns_long hp (Nat.le_of_not_lt hlong) (hbound bound (Nat.le_refl _))
    exact ⟨fun hbefore => not_shown_first x hp hlength hbefore w h hshown, hlength⟩
  · rintro ⟨hbefore, hlength⟩
    exact ⟨x.text.length + 256,
      fun turns hturns => displaySplash_later x hp hlength hbefore hturns w h⟩

end Shown

/-! ### A block in the first line, and one in the second -/

/-- `$INF<hi>INF$`. -/
def firstLine : InfoText where
  before := []
  body := ['h', 'i'].map ascii
  tail := []
  lines := by decide
  body_pos := by decide
  body_le := by decide
  body_line := by decide
  first := ⟨by decide, by decide⟩

/-- The same with the line `A` before it. -/
def secondLine : InfoText := { firstLine with
  before := [[ascii 'A']]
  lines := by decide }

def splashObjects : SplashObjects where
  info := 0x3000#64
  endMark := 0x2000#64

def splashMemory (x : InfoText) : Memory :=
  loaded [(0x1000#64, x.text), (0x2000#64, infoEnd)]

theorem placed_firstLine :
    Placed (splashMemory firstLine) splashObjects 0x1000#64 firstLine.text where
  valid := ⟨by decide, by decide⟩
  string := by decide
  endMark := by decide
  text_apart := fun _ hy => not_inRange_of_apart (by decide) (by decide) hy
  endMark_apart := fun _ hy => not_inRange_of_apart (by decide) (by decide) hy

/-- What is printed is `hi>INF$`. -/
theorem first_line_not_shown :
    ¬ Terminates (fun turns => displaySplash splashObjects turns 80#32 25#32 0x1000#64)
      { mem := splashMemory firstLine } (fun _ t =>
        Shown firstLine 80#32 t.out.reverse ∧ ∀ a ∈ t.writes, InRange splashObjects.info 256 a) :=
  not_shown_first firstLine placed_firstLine (by decide) rfl 80#32 25#32

theorem splash_shown_iff_second :
    Terminates (fun turns => displaySplash splashObjects turns 80#32 25#32 0x1000#64)
        { mem := splashMemory secondLine } (fun _ t =>
          Shown secondLine 80#32 t.out.reverse ∧
            ∀ a ∈ t.writes, InRange splashObjects.info 256 a) ↔
      secondLine.before ≠ [] ∧ secondLine.text.length < 2 ^ 31 :=
  splash_shown_iff secondLine
    ⟨⟨by decide, by decide⟩, by decide, by decide,
      fun _ hy => not_inRange_of_apart (by decide) (by decide) hy,
      fun _ hy => not_inRange_of_apart (by decide) (by decide) hy⟩ 80#32 25#32

end Asnu
