import Asnu.CString
import Asnu.Lib.Radix

/-!
The page tables as the hardware reads them: four levels of 512 entries in
frames of physical memory, which the kernel reaches through the direct map. A
frame is named by bits 51..12 of its physical address, a page by bits 47..12
of its virtual address.
-/

namespace Asnu

open Lib

def pa2va (physAddr : BitVec 64) : Ptr := physAddr + 0xFFFF800000000000#64

def va2pa (virtAddr : Ptr) : BitVec 64 := virtAddr - 0xFFFF800000000000#64

/-- `PA2VAu64` and `VA2PAu64` compute what `PA2VA` and `VA2PA` do. -/
def pa2vaU64 (physAddr : BitVec 64) : BitVec 64 := physAddr + 0xFFFF800000000000#64

def va2paU64 (virtAddr : BitVec 64) : BitVec 64 := virtAddr - 0xFFFF800000000000#64

def pagePresent : BitVec 64 := 0x1#64

def pageRw : BitVec 64 := 0x2#64

def pageUser : BitVec 64 := 0x4#64

abbrev Frame := BitVec 40

abbrev Page := BitVec 36

abbrev Index := BitVec 9

abbrev Entry := BitVec 64

/-- The physical address of a frame. -/
def Frame.address (f : Frame) : BitVec 64 := f.setWidth 64 <<< 12

/-- The direct-map pointer to a frame. -/
def tablePtr (f : Frame) : Ptr := pa2vaU64 f.address

def entryPtr (f : Frame) (i : Index) : Ptr := tablePtr f + i.setWidth 64 * 8#64

def rd (m : Memory) (f : Frame) (i : Index) : Entry := m.load64 (entryPtr f i)

/-- The page that an address lies in. -/
def pageOf (va : Ptr) : Page := va.extractLsb' 12 36

/-- The index a page has in the table at each depth. -/
def path (page : Page) : List Index :=
  [page.extractLsb' 27 9, page.extractLsb' 18 9, page.extractLsb' 9 9,
    page.extractLsb' 0 9]

namespace Entry

def present (e : Entry) : Bool := e.getLsbD 0

def writable (e : Entry) : Bool := e.getLsbD 1

def user (e : Entry) : Bool := e.getLsbD 2

/-- Bit 7 ends the walk in a page directory pointer table or a page directory:
the entry maps 1 GiB or 2 MiB. -/
def large (d : Nat) (e : Entry) : Bool := (d == 1 || d == 2) && e.getLsbD 7

def noExecute (e : Entry) : Bool := e.getLsbD 63

def frame (e : Entry) : Frame := e.extractLsb' 12 40

/-- The table that an entry of a table at depth `d` leads the hardware to. -/
def next (d : Nat) (e : Entry) : Option Frame :=
  if d < 3 ∧ e.present ∧ ¬ e.large d then some e.frame else none

end Entry

structure Translation where
  frame : Frame
  flags : BitVec 12
  writable : Bool
  user : Bool
  executable : Bool
  deriving DecidableEq

namespace Translation

/-- The frame of a page whose leaf entry ends a walk of `n` entries. -/
def leafFrame (n : Nat) (leaf : Entry) (page : Page) : Frame :=
  match n with
  | 2 => leaf.frame.extractLsb' 18 22 ++ page.extractLsb' 0 18
  | 3 => leaf.frame.extractLsb' 9 31 ++ page.extractLsb' 0 9
  | _ => leaf.frame

/-- What the hardware makes of the entries it has read. Rights need the
permission of every entry; reserved bits are not looked at. -/
def ofEntries (page : Page) (es : List Entry) : Option Translation :=
  match es.getLast? with
  | some leaf =>
      if leaf.present then
        some {
          frame := leafFrame es.length leaf page
          flags := leaf.setWidth 12
          writable := es.all Entry.writable
          user := es.all Entry.user
          executable := es.all (fun e => !e.noExecute) }
      else none
  | none => none

end Translation

/-- The entries the hardware reads for a page. -/
def entries (m : Memory) (root : Frame) (page : Page) : List Entry :=
  Radix.walk Entry.next (rd m) 0 root (path page)

def translate (m : Memory) (root : Frame) (page : Page) : Option Translation :=
  Translation.ofEntries page (entries m root page)

theorem Frame.address_toNat (f : Frame) : f.address.toNat = f.toNat * 4096 := by
  have hf := f.isLt
  rw [Frame.address, BitVec.toNat_shiftLeft, BitVec.toNat_setWidth, Nat.shiftLeft_eq]
  omega

/-- A frame address and low bits make up an entry; neither disturbs the other. -/
theorem address_or_toNat (f : Frame) {low : BitVec 64} (h : low.toNat < 4096) :
    (f.address ||| low).toNat = f.toNat * 4096 + low.toNat := by
  have hadd := Nat.two_pow_add_eq_or_of_lt (i := 12) h f.toNat
  rw [BitVec.toNat_or, f.address_toNat, Nat.mul_comm]
  exact hadd.symm

theorem frame_address_or (f : Frame) {low : BitVec 64} (h : low.toNat < 4096) :
    Entry.frame (f.address ||| low) = f := by
  have hf := f.isLt
  have hor := address_or_toNat f h
  apply BitVec.eq_of_toNat_eq
  rw [Entry.frame, BitVec.extractLsb'_toNat, hor, Nat.shiftRight_eq_div_pow]
  omega

/-- What `& ~0xFFF` leaves of an address below `2 ^ 52`. -/
theorem clear_low_bits (x : BitVec 64) (h : x.toNat < 2 ^ 52) :
    x &&& ~~~0xFFF#64 = Frame.address (x.extractLsb' 12 40) := by
  have hmask : ∀ i, (0xFFF#64).getLsbD i = decide (i < 12) :=
    Nat.testBit_two_pow_sub_one 12
  have hhigh : ∀ i, 52 ≤ i → x.getLsbD i = false := fun i hi =>
    Nat.testBit_lt_two_pow (lt_of_lt_of_le h (Nat.pow_le_pow_right (by decide) hi))
  apply BitVec.eq_of_getLsbD_eq
  intro i hi
  rw [BitVec.getLsbD_and, BitVec.getLsbD_not, hmask, Frame.address, BitVec.getLsbD_shiftLeft,
    BitVec.getLsbD_setWidth, BitVec.getLsbD_extractLsb']
  by_cases hlow : i < 12
  · simp [hlow]
  · by_cases htop : i < 52
    · have hsub : 12 + (i - 12) = i := by omega
      have h40 : i - 12 < 40 := by omega
      have h64 : i - 12 < 64 := by omega
      simp [hi, hlow, h40, h64, hsub]
    · have h40 : ¬ i - 12 < 40 := by omega
      simp [hhigh i (by omega), h40]

/-- The index the code computes by shift and mask is the one of the page. -/
theorem index_eq (va : Ptr) {k : Nat} (hk : k ≤ 27) :
    (va >>> (k + 12)) &&& 0x1FF#64 = ((pageOf va).extractLsb' k 9).setWidth 64 := by
  have hmask : ∀ i, (0x1FF#64).getLsbD i = decide (i < 9) :=
    Nat.testBit_two_pow_sub_one 9
  apply BitVec.eq_of_getLsbD_eq
  intro i hi
  rw [BitVec.getLsbD_and, BitVec.getLsbD_ushiftRight, hmask, BitVec.getLsbD_setWidth,
    BitVec.getLsbD_extractLsb', pageOf, BitVec.getLsbD_extractLsb']
  by_cases h9 : i < 9
  · have h36 : k + i < 36 := by omega
    have hsum : k + 12 + i = 12 + (k + i) := by omega
    simp [hi, h9, h36, hsum]
  · simp [h9]

theorem path_inj {a b : Page} (h : path a = path b) : a = b := by
  have ha := a.isLt
  have hb := b.isLt
  simp only [path, List.cons.injEq, and_true, ← BitVec.toNat_inj,
    BitVec.extractLsb'_toNat, Nat.shiftRight_eq_div_pow] at h
  apply BitVec.eq_of_toNat_eq
  omega

theorem tablePtr_toNat (f : Frame) :
    (tablePtr f).toNat = (f.toNat * 4096 + 0xFFFF800000000000) % 2 ^ 64 := by
  have hf := f.isLt
  rw [tablePtr, pa2vaU64, BitVec.toNat_add, Frame.address, BitVec.toNat_shiftLeft,
    BitVec.toNat_setWidth, BitVec.toNat_ofNat, Nat.shiftLeft_eq]
  omega

theorem entryPtr_toNat (f : Frame) (i : Index) :
    (entryPtr f i).toNat =
      (f.toNat * 4096 + i.toNat * 8 + 0xFFFF800000000000) % 2 ^ 64 := by
  have hf := f.isLt
  have hi := i.isLt
  rw [entryPtr, BitVec.toNat_add, tablePtr_toNat, BitVec.toNat_mul,
    BitVec.toNat_setWidth, BitVec.toNat_ofNat]
  omega

theorem inRange_table {f : Frame} {i : Index} {x : Ptr}
    (h : InRange (entryPtr f i) 8 x) : InRange (tablePtr f) 4096 x := by
  have hf := f.isLt
  have hi := i.isLt
  have hx := x.isLt
  have hentry := entryPtr_toNat f i
  have htable := tablePtr_toNat f
  unfold InRange at *
  rw [BitVec.toNat_sub] at *
  omega

theorem tables_apart {f g : Frame} (h : f ≠ g) {x : Ptr}
    (hx : InRange (tablePtr f) 4096 x) : ¬ InRange (tablePtr g) 4096 x := by
  have hfg : f.toNat ≠ g.toNat := fun heq => h (BitVec.eq_of_toNat_eq heq)
  have hf := f.isLt
  have hg := g.isLt
  have htf := tablePtr_toNat f
  have htg := tablePtr_toNat g
  unfold InRange at *
  rw [BitVec.toNat_sub] at *
  omega

theorem entries_apart {f g : Frame} {i j : Index} (h : ¬ (g = f ∧ j = i)) :
    8 ≤ (entryPtr g j - entryPtr f i).toNat := by
  have hne : ¬ (g.toNat = f.toNat ∧ j.toNat = i.toNat) := fun heq =>
    h ⟨BitVec.eq_of_toNat_eq heq.1, BitVec.eq_of_toNat_eq heq.2⟩
  have hf := f.isLt
  have hg := g.isLt
  have hi := i.isLt
  have hj := j.isLt
  have hfi := entryPtr_toNat f i
  have hgj := entryPtr_toNat g j
  rw [BitVec.toNat_sub]
  omega

/-- A store into one entry replaces that entry and no other. -/
theorem rd_store64 (m : Memory) (f : Frame) (i : Index) (e : Entry) :
    rd (m.store64 (entryPtr f i) e) = Radix.setEntry (rd m) f i e := by
  funext g j
  unfold rd Radix.setEntry
  by_cases h : g = f ∧ j = i
  · rw [if_pos h, h.1, h.2, Memory.load64_store64]
  · have h' : ¬ (f = g ∧ i = j) := fun heq => h ⟨heq.1.symm, heq.2.symm⟩
    rw [if_neg h]
    exact Memory.load64_store64_apart m e (entries_apart h) (entries_apart h')

/-- Zeroing a frame blanks the table in it and no other. -/
theorem rd_fill (m : Memory) (f : Frame) :
    rd (m.fill (tablePtr f) 4096 0#8) = Radix.blank (rd m) f 0#64 := by
  funext g j
  unfold rd Radix.blank
  by_cases h : g = f
  · rw [if_pos h, h]
    exact Memory.load64_of_zero (fun x hx => Memory.fill_in m _ (inRange_table hx))
  · rw [if_neg h]
    exact Memory.load64_congr (fun x hx =>
      Memory.fill_out m _ (tables_apart h (inRange_table hx)))

theorem rd_congr {m m' : Memory} {f : Frame}
    (h : ∀ x, InRange (tablePtr f) 4096 x → m' x = m x) (i : Index) :
    rd m' f i = rd m f i :=
  Memory.load64_congr (fun x hx => h x (inRange_table hx))

/-- Copying a frame copies the table in it. -/
theorem rd_copy (m : Memory) (f r g : Frame) (i : Index) :
    rd (m.copy (tablePtr f) (tablePtr r) 4096) g i =
      if g = f then rd m r i else rd m g i := by
  by_cases hg : g = f
  · have hbytes : ∀ d < 8,
        m.copy (tablePtr f) (tablePtr r) 4096 (entryPtr f i + BitVec.ofNat 64 d) =
          m (entryPtr r i + BitVec.ofNat 64 d) := by
      intro d hd
      have hin := inRange_table (inRange_add (entryPtr f i) hd (by decide))
      have hoff : entryPtr f i + BitVec.ofNat 64 d - tablePtr f =
          i.setWidth 64 * 8#64 + BitVec.ofNat 64 d := by
        rw [entryPtr, BitVec.add_assoc, offset_sub]
      rw [Memory.copy, if_pos hin, hoff, ← BitVec.add_assoc]
      exact congrArg m (Eq.refl _)
    rw [if_pos hg, hg]
    exact congrArg (BitVec.ofNat 64) (Memory.loadBytes_congr hbytes)
  · rw [if_neg hg]
    exact Memory.load64_congr (fun x hx => if_neg (tables_apart hg (inRange_table hx)))

end Asnu
