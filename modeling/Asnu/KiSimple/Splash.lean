import Asnu.CString.Find

/-!
`DisplaySplash`: the lines of a text are printed in the middle of the screen, up to an
info block between `$INF<` and `>INF$`, which goes through a buffer of 256 bytes. The
memory holds the text, the buffer and the end marker; what is written to it, and what is
given to `printk`, is on record.
-/

namespace Asnu

open Lib Lib.Code

inductive PrintkArg where
  | int (value : BitVec 32)
  | char (c : BitVec 8)
  | str (text : List (BitVec 8))
  deriving DecidableEq

/-- One call of `printk`. -/
structure Printk where
  format : String
  args : List PrintkArg := []
  deriving DecidableEq

structure Splash extends Reading where
  /-- The addresses written, newest first. -/
  writes : List Ptr := []
  /-- The calls of `printk`, newest first. -/
  out : List Printk := []

/-- Where the compiler puts the array `info` and the text `">INF$"`. -/
structure SplashObjects where
  info : Ptr
  endMark : Ptr

def lineFeed : BitVec 8 := ascii '\n'

/-- `$INF<`. -/
def infoBegin : List (BitVec 8) := ['$', 'I', 'N', 'F', '<'].map ascii

/-- `>INF$`. -/
def infoEnd : List (BitVec 8) := ['>', 'I', 'N', 'F', '$'].map ascii

/-- The comparisons with the characters of `$INF<`, up to the first that fails. -/
def startsWith : List (BitVec 8) → Ptr → Code Reading Bool
  | [], _ => pure true
  | c :: cs, p => do
      let b ← peek p
      if b = c then startsWith cs (p + 1) else pure false

/-- The loop that counts, with `i` characters behind it. The number of characters has to fit
an `int`: what a sum too large for it is, is not defined. -/
def countLines (text : Ptr) : Nat → BitVec 32 → BitVec 32 → Code Reading (BitVec 32)
  | 0, _, _ => giveUp
  | turns + 1, i, lfCount => do
      let here ← peek (text + i.signExtend 64)
      if here = 0#8 then pure lfCount
      else
        let c ← peek (text + i.signExtend 64)
        if i = BitVec.intMax 32 then giveUp
        else countLines text turns (i + 1#32) (if c = lineFeed then lfCount + 1#32 else lfCount)

/-- The end of a line: its line feed, or that of the text. -/
def endOfLine (turns : Nat) (lineStart : Ptr) : Code Reading Ptr := do
  let lineEnd ← strchr turns lineStart (lineFeed.signExtend 32)
  if lineEnd = NULL then
    let len ← strlen turns lineStart
    pure (lineStart + len.setWidth 64)
  else pure lineEnd

def lineIsInfo (lineStart : Ptr) (lineLen : BitVec 32) : Code Reading Bool :=
  if (4#32).sle lineLen then startsWith infoBegin lineStart else pure false

def nextIsInfo (lineEnd : Ptr) : Code Reading Bool := do
  let c ← peek lineEnd
  if c = lineFeed then startsWith infoBegin (lineEnd + 1) else pure false

/-- The characters that `%s` prints. -/
def textAt : Nat → Ptr → Code Reading (List (BitVec 8))
  | 0, _ => giveUp
  | turns + 1, p => do
      let c ← peek p
      if c = 0#8 then pure []
      else
        let cs ← textAt turns (p + 1)
        pure (c :: cs)

namespace Splash

def reading {α : Type} (q : Code Reading α) : Code Splash α :=
  focus Splash.toReading (fun s r => { s with toReading := r }) q

def printk (format : String) (args : List PrintkArg := []) : Code Splash Unit :=
  access (fun s => ((), { s with out := { format := format, args := args } :: s.out }))

/-- The addresses of `n` bytes. -/
def bytesFrom (p : Ptr) (n : Nat) : List Ptr := (List.range n).map (fun i => p + BitVec.ofNat 64 i)

def fill (p : Ptr) (c : BitVec 32) (n : BitVec 64) : Code Splash Unit :=
  access (fun s =>
    ((), { s with mem := memset s.mem p c n, writes := bytesFrom p n.toNat ++ s.writes }))

def copy (dest src : Ptr) (n : BitVec 64) : Code Splash Unit :=
  access (fun s =>
    ((), { s with
      mem := memcpy s.mem dest src n
      reads := bytesFrom src n.toNat ++ s.reads
      writes := bytesFrom dest n.toNat ++ s.writes }))

def putChar (p : Ptr) (c : BitVec 8) : Code Splash Unit :=
  access (fun s => ((), { s with mem := s.mem.poke p c, writes := p :: s.writes }))

/-- `w / 2 - (len / 2)`, or zero if that is negative. -/
def centerX (w len : BitVec 32) : BitVec 32 :=
  let x := w.sdiv 2#32 - len.sdiv 2#32
  if x.slt 0#32 then 0#32 else x

/-- The `n` characters from place `i` on. -/
def printChars (lineStart : Ptr) : Nat → Nat → Code Splash Unit
  | 0, _ => pure ()
  | n + 1, i => do
      let c ← reading (peek (lineStart + BitVec.ofNat 64 i))
      printk "%c" [.char c]
      printChars lineStart n (i + 1)

def printLine (w row : BitVec 32) (lineStart : Ptr) (lineLen : BitVec 32) : Code Splash Unit := do
  printk "\x1b[%d;%dH" [.int row, .int (centerX w lineLen + 1#32)]
  printChars lineStart lineLen.toInt.toNat 0

/-- The copying of `infoLen` bytes, if they fit. -/
def takeInfo (o : SplashObjects) (infoLen : BitVec 32) (src : Ptr) : Code Splash Unit :=
  if (0#32).slt infoLen ∧ infoLen.slt 256#32 then do
    copy o.info src (infoLen.signExtend 64)
    putChar (o.info + infoLen.signExtend 64) 0#8
  else pure ()

/-- The copying of what stands before the end marker, if there is one. -/
def takeNext (o : SplashObjects) (infoStart infoStop : Ptr) : Code Splash Unit :=
  if infoStop ≠ NULL ∧ infoStart < infoStop then
    takeInfo o ((infoStop - infoStart).setWidth 32) infoStart
  else pure ()

/-- The body of the loop for a line that is not the info block itself. `goOn` stands for the
turns that follow. -/
def printedLine (o : SplashObjects) (w centerY : BitVec 32) (turns : Nat)
    (goOn : Ptr → BitVec 32 → Code Splash (Bool × BitVec 32)) (lineStart lineEnd : Ptr)
    (lineNum : BitVec 32) : Code Splash (Bool × BitVec 32) := do
  let lineLen := (lineEnd - lineStart).setWidth 32
  let isNext ← reading (nextIsInfo lineEnd)
  if isNext then
    let infoStart := lineEnd + 1 + 5
    let infoStop ← reading (strstr turns infoStart o.endMark)
    takeNext o infoStart infoStop
    printLine w (centerY + lineNum + 1#32) lineStart lineLen
    pure (true, lineNum + 1#32)
  else
    printLine w (centerY + lineNum + 1#32) lineStart lineLen
    let c ← reading (peek lineEnd)
    if c = lineFeed then goOn (lineEnd + 1) (lineNum + 1#32)
    else pure (false, lineNum + 1#32)

/-- The loop over the lines. It returns `info_found` and `line_num`. -/
def splashLoop (o : SplashObjects) (w centerY : BitVec 32) (turns : Nat) :
    Nat → Ptr → BitVec 32 → Code Splash (Bool × BitVec 32)
  | 0, _, _ => giveUp
  | k + 1, lineStart, lineNum => do
      if lineStart = NULL then pure (false, lineNum)
      else
        let c ← reading (peek lineStart)
        if c = 0#8 then pure (false, lineNum)
        else
          let lineEnd ← reading (endOfLine turns lineStart)
          let lineLen := (lineEnd - lineStart).setWidth 32
          let isInfo ← reading (lineIsInfo lineStart lineLen)
          if isInfo then
            takeInfo o (lineLen - 5#32) (lineStart + 5)
            pure (true, lineNum)
          else
            printedLine o w centerY turns (fun p n => splashLoop o w centerY turns k p n)
              lineStart lineEnd lineNum

/-- What comes behind the loop: the info text in the second row below the lines. -/
def printInfo (o : SplashObjects) (turns : Nat) (w row : BitVec 32) : Code Splash Unit := do
  printk "\x1b[%d;1H" [.int row]
  let infoLen ← reading (strlen turns o.info)
  printk "\x1b[%d;%dH" [.int row, .int (centerX w infoLen + 1#32)]
  let info ← reading (textAt turns o.info)
  printk "\x1b[90m%s\x1b[0m" [.str info]

def displaySplash (o : SplashObjects) (turns : Nat) (w h : BitVec 32) (text : Ptr) :
    Code Splash Unit := do
  printk "\x1b[0;0HASNU 1.0.0-rc01"
  let lfCount ← reading (countLines text turns 0#32 0#32)
  let totalLines := lfCount + 1#32
  let centerY := h.sdiv 2#32 - totalLines.sdiv 2#32
  fill o.info 0#32 256#64
  let (infoFound, lineNum) ← splashLoop o w centerY turns turns text 0#32
  if infoFound then printInfo o turns w (centerY + lineNum + 2#32)
  else pure ()

end Splash

/-! ### What only reads -/

section Reading

variable {m : Memory} {p : Ptr} {text : List (BitVec 8)}

theorem zero_not_mem_infoBegin : 0#8 ∉ infoBegin := by decide

theorem startsWith_gives (h : IsString m p text) {cs : List (BitVec 8)} (hcs : 0#8 ∉ cs) :
    Gives m (InString p text) (startsWith cs p) (cs.isPrefixOf text) := by
  induction cs generalizing p text with
  | nil => exact .pure _ _ _
  | cons c cs ih =>
      rw [List.mem_cons, not_or] at hcs
      have hself := h.inString_self
      cases h with
      | nil hp hm => exact .peek hself hm (.ite_neg hcs.1 (.pure _ _ _))
      | @cons _ b bs hp hm hb hrest =>
          rw [List.isPrefixOf]
          by_cases hc : b = c
          · rw [beq_iff_eq.mpr hc.symm, Bool.true_and]
            exact .peek hself hm (.ite_pos hc ((ih hrest hcs.2).mono (fun _ => inString_cons)))
          · rw [beq_eq_false_iff_ne.mpr (Ne.symm hc), Bool.false_and]
            exact .peek hself hm (.ite_neg hc (.pure _ _ _))

theorem textAt_gives (h : IsString m p text) {turns : Nat} (hturns : text.length < turns) :
    Gives m (InString p text) (textAt turns p) text := by
  induction h generalizing turns with
  | @nil p hp hm =>
      obtain ⟨turns, rfl⟩ := exists_turn hturns
      exact .peek (IsString.nil hp hm).inString_self hm (.ite_pos rfl (.pure _ _ _))
  | @cons p c cs hp hm hc hrest ih =>
      obtain ⟨turns, rfl⟩ := exists_turn hturns
      have hself := (IsString.cons hp hm hc hrest).inString_self
      have htail := (ih (Nat.lt_of_succ_lt_succ hturns)).mono (fun _ => inString_cons (c := c))
      exact .peek hself hm (.ite_neg hc (htail.bind (.pure _ _ _)))

/-- The end of the line that a text begins with. -/
def lineLength (text : List (BitVec 8)) : Nat := (text.idxOf? lineFeed).getD text.length

theorem lineLength_append {l rest : List (BitVec 8)} (hl : lineFeed ∉ l) :
    lineLength (l ++ lineFeed :: rest) = l.length := by
  have hfirst : (l ++ lineFeed :: rest).idxOf? lineFeed = some l.length := by
    induction l with
    | nil => rfl
    | cons c cs ih =>
        rw [List.mem_cons, not_or] at hl
        rw [List.cons_append, List.idxOf?_cons, if_neg (fun heq => hl.1 (eq_of_beq heq).symm),
          ih hl.2]
        rfl
  rw [lineLength, hfirst, Option.getD_some]

theorem lineLength_le (text : List (BitVec 8)) : lineLength text ≤ text.length := by
  unfold lineLength
  cases hidx : text.idxOf? lineFeed with
  | none => exact Nat.le_refl _
  | some i =>
      obtain ⟨hi, _⟩ := List.idxOf?_eq_some_iff.mp hidx
      exact Nat.le_of_lt hi

theorem le_lineLength {pre : List (BitVec 8)} (hpre : lineFeed ∉ pre) (rest : List (BitVec 8)) :
    pre.length ≤ lineLength (pre ++ rest) := by
  unfold lineLength
  cases hidx : (pre ++ rest).idxOf? lineFeed with
  | none =>
      rw [Option.getD_none, List.length_append]
      exact Nat.le_add_right _ _
  | some i =>
      obtain ⟨hi, hget, _⟩ := List.idxOf?_eq_some_iff.mp hidx
      by_contra hlt
      have hin : i < pre.length := Nat.lt_of_not_le hlt
      rw [List.getElem_append_left hin] at hget
      exact hpre (hget ▸ List.getElem_mem hin)

theorem endOfLine_gives (h : IsString m p text) (hlength : text.length < 2 ^ 31) {turns : Nat}
    (hturns : text.length < turns) :
    Gives m (InString p text) (endOfLine turns p) (p + BitVec.ofNat 64 (lineLength text)) := by
  have hfound := strchr_gives h (lineFeed.signExtend 32) hturns
  rw [setWidth_signExtend] at hfound
  refine hfound.bind ?_
  unfold lineLength
  cases hidx : text.idxOf? lineFeed with
  | none =>
      refine .ite_pos rfl ((strlen_gives h (by omega) hturns).bind ?_)
      have hlen : (BitVec.ofNat 32 text.length).setWidth 64 = BitVec.ofNat 64 text.length := by
        bv_omega
      rw [hlen, Option.getD_none]
      exact .pure _ _ _
  | some i =>
      obtain ⟨hi, _⟩ := List.idxOf?_eq_some_iff.mp hidx
      exact .ite_neg (h.pointer_ne_null (Nat.le_of_lt hi)) (.pure _ _ _)

/-- The index as an address. -/
theorem signExtend_index {i : Nat} (hi : i < 2 ^ 31) :
    (BitVec.ofNat 32 i).signExtend 64 = BitVec.ofNat 64 i := by
  have hmsb : (BitVec.ofNat 32 i).msb = false := by
    rw [BitVec.msb_eq_false_iff_two_mul_lt, BitVec.toNat_ofNat]
    omega
  rw [BitVec.signExtend_eq_setWidth_of_msb_false hmsb]
  bv_omega

theorem countLoop_gives {P : Ptr → Prop} {i : Nat} (h : IsString m (p + BitVec.ofNat 64 i) text)
    (hlength : i + text.length < 2 ^ 31) (hP : ∀ k ≤ text.length, P (p + BitVec.ofNat 64 (i + k)))
    (lfCount : BitVec 32) {turns : Nat} (hturns : text.length < turns) :
    Gives m P (countLines p turns (BitVec.ofNat 32 i) lfCount)
      (lfCount + BitVec.ofNat 32 (text.count lineFeed)) := by
  induction text generalizing i lfCount turns with
  | nil =>
      obtain ⟨turns, rfl⟩ := exists_turn hturns
      unfold countLines
      rw [signExtend_index (by omega)]
      cases h with
      | nil _ hzero =>
          refine .peek (hP 0 (Nat.le_refl _)) hzero (.ite_pos rfl ?_)
          rw [List.count_nil, BitVec.add_zero]
          exact .pure _ _ _
  | cons c cs ih =>
      obtain ⟨turns, rfl⟩ := exists_turn hturns
      rw [List.length_cons] at hlength
      have hfits : BitVec.ofNat 32 i ≠ BitVec.intMax 32 := by
        intro hmax
        have hnat := congrArg BitVec.toNat hmax
        rw [BitVec.toNat_ofNat, BitVec.toNat_intMax] at hnat
        omega
      have hnext : BitVec.ofNat 32 i + 1#32 = BitVec.ofNat 32 (i + 1) :=
        (BitVec.ofNat_add i 1).symm
      have hhere := hP 0 (Nat.zero_le _)
      unfold countLines
      rw [signExtend_index (by omega), hnext]
      cases h with
      | cons hp hm hc hrest =>
          rw [offset_succ] at hrest
          refine .peek hhere hm (.ite_neg hc (.peek hhere hm (.ite_neg hfits ?_)))
          have hloop := ih hrest (by omega) (fun k hk => ?_)
            (if c = lineFeed then lfCount + 1#32 else lfCount) (Nat.lt_of_succ_lt_succ hturns)
          · rw [List.count_cons]
            split at hloop
            · next hfeed =>
                have hsum : lfCount + BitVec.ofNat 32 (cs.count lineFeed + 1) =
                    lfCount + 1#32 + BitVec.ofNat 32 (cs.count lineFeed) := by
                  rw [Nat.add_comm, BitVec.ofNat_add, ← BitVec.add_assoc]
                rw [hfeed, if_pos (beq_self_eq_true _), if_pos rfl, hsum]
                exact hloop
            · next hfeed =>
                rw [if_neg hfeed, if_neg (fun heq => hfeed (eq_of_beq heq)), Nat.add_zero]
                exact hloop
          · rw [Nat.add_assoc, Nat.add_comm 1 k]
            exact hP (k + 1) (Nat.succ_le_succ hk)

theorem countLines_gives (h : IsString m p text) (hlength : text.length < 2 ^ 31) {turns : Nat}
    (hturns : text.length < turns) :
    Gives m (InString p text) (countLines p turns 0#32 0#32)
      (BitVec.ofNat 32 (text.count lineFeed)) := by
  have hloop := countLoop_gives (p := p) (i := 0) (by rwa [BitVec.add_zero]) (by omega)
    (fun k hk => (Nat.zero_add k).symm ▸ h.inString hk) 0#32 hturns
  rwa [BitVec.zero_add] at hloop

theorem not_returns_giveUp {σ α : Type} {s : σ} {Q : α → σ → Prop} :
    ¬ Returns (giveUp : Code σ α) s Q := by
  rintro ⟨_, _, ⟨⟩, _⟩

/-- More characters than an `int` counts are not counted. -/
theorem countLines_gives_up {i : Nat} (h : IsString m (p + BitVec.ofNat 64 i) text)
    (hi : i < 2 ^ 31) (hlong : 2 ^ 31 ≤ i + text.length) (lfCount : BitVec 32) (turns : Nat)
    {s : Reading} (hs : s.mem = m) {Q : BitVec 32 → Reading → Prop} :
    ¬ Returns (countLines p turns (BitVec.ofNat 32 i) lfCount) s Q := by
  induction text generalizing i lfCount turns s with
  | nil =>
      rw [List.length_nil] at hlong
      omega
  | cons c cs ih =>
      cases turns with
      | zero => exact not_returns_giveUp
      | succ turns =>
          intro hreturns
          unfold countLines at hreturns
          rw [signExtend_index hi] at hreturns
          cases h with
          | cons hp hm hc hrest =>
              have hbehind := returns_access.mp (returns_bind.mp hreturns)
              simp only [hs, hm, if_neg hc] at hbehind
              have hloop := returns_access.mp (returns_bind.mp hbehind)
              simp only [hm] at hloop
              split at hloop
              · exact not_returns_giveUp hloop
              · next hfits =>
                  have hnext : BitVec.ofNat 32 i + 1#32 = BitVec.ofNat 32 (i + 1) :=
                    (BitVec.ofNat_add i 1).symm
                  rw [offset_succ] at hrest
                  rw [hnext] at hloop
                  have hlt : i + 1 < 2 ^ 31 := by
                    rcases Nat.lt_or_ge (i + 1) (2 ^ 31) with hlt | hge
                    · exact hlt
                    · obtain rfl : i = 2 ^ 31 - 1 := by omega
                      exact absurd (by decide) hfits
                  rw [List.length_cons] at hlong
                  exact ih hrest hlt (by omega) _ turns rfl hloop

end Reading

end Asnu
