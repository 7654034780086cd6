import Asnu.CString.Copy
import Asnu.Lib.Run

/-!
Strings put together in a buffer. A run of calls of the functions that write strings, all on
one buffer, does to the string in it what the same calls do to a list of characters.
-/

namespace Asnu

open Lib Lib.Code

/-- A call on the buffer, with its source. -/
inductive TextCall where
  | strcpy (src : Ptr)
  | strcat (src : Ptr)
  | strncat (src : Ptr) (n : BitVec 32)
  | strncpy (src : Ptr) (n : BitVec 32)

namespace TextCall

def src : TextCall → Ptr
  | .strcpy src | .strcat src | .strncat src _ | .strncpy src _ => src

def code (turns : Nat) (dest : Ptr) : TextCall → Code Reading Ptr
  | .strcpy src => Asnu.strcpy turns dest src
  | .strcat src => Asnu.strcat turns dest src
  | .strncat src n => Asnu.strncat turns dest src n
  | .strncpy src n => Asnu.strncpy turns dest src n

/-- What a call makes of the characters `cur`, its source having the characters `text`. A
`strncpy` that stores no zero leaves what was behind its `n` characters. -/
def result (text cur : List (BitVec 8)) : TextCall → List (BitVec 8)
  | .strcpy _ => text
  | .strcat _ => cur ++ text
  | .strncat _ n => cur ++ text.take n.toNat
  | .strncpy _ n => text.take n.toNat ++ if text.length < n.toNat then [] else cur.drop n.toNat

/-- The call stores no more than `room` bytes, and a zero is left behind the characters. -/
def Fits (room : Nat) (text cur : List (BitVec 8)) : TextCall → Prop
  | .strcpy _ => text.length < room
  | .strcat _ => cur.length + text.length < room
  | .strncat _ n => cur.length + min n.toNat text.length < room
  | .strncpy _ n => n.toNat ≤ room ∧ (text.length < n.toNat ∨ n.toNat ≤ cur.length)

instance (room : Nat) (text cur : List (BitVec 8)) :
    (c : TextCall) → Decidable (c.Fits room text cur)
  | .strcpy _ => inferInstanceAs (Decidable (_ < _))
  | .strcat _ => inferInstanceAs (Decidable (_ < _))
  | .strncat _ _ => inferInstanceAs (Decidable (_ < _))
  | .strncpy _ _ => inferInstanceAs (Decidable (_ ∧ _))

end TextCall

/-- The calls one after the other, with what they return. -/
def textCalls (turns : Nat) (dest : Ptr) : List TextCall → Code Reading (List Ptr)
  | [] => pure []
  | c :: calls => do
      let r ← c.code turns dest
      let rs ← textCalls turns dest calls
      pure (r :: rs)

section Strings

variable {m m' : Memory} {p : Ptr} {text bytes : List (BitVec 8)}

theorem IsString.byte (h : IsString m p text) {i : Nat} (hi : i ≤ text.length) :
    m (p + BitVec.ofNat 64 i) = text.getD i 0#8 := by
  rw [(h.drop hi).head, List.headD_eq_head?_getD, List.head?_drop, List.getD_eq_getElem?_getD]

/-- Characters in front of a string. -/
theorem IsString.append_left (hne : ∀ c ∈ bytes, c ≠ 0#8)
    (hnull : ∀ k < bytes.length, p + BitVec.ofNat 64 k ≠ NULL)
    (hbytes : ∀ k < bytes.length, m (p + BitVec.ofNat 64 k) = bytes.getD k 0#8)
    (h : IsString m (p + BitVec.ofNat 64 bytes.length) text) : IsString m p (bytes ++ text) := by
  induction bytes generalizing p with
  | nil =>
      rw [List.length_nil, BitVec.add_zero] at h
      exact h
  | cons c bytes ih =>
      have hfirst := hnull 0 (Nat.succ_pos _)
      have hbyte := hbytes 0 (Nat.succ_pos _)
      rw [BitVec.add_zero] at hfirst hbyte
      rw [List.length_cons, ← succ_offset] at h
      refine .cons hfirst hbyte (hne c List.mem_cons_self) (ih ?_ ?_ ?_ h)
      · exact fun d hd => hne d (List.mem_cons_of_mem c hd)
      · intro k hk
        rw [succ_offset]
        exact hnull (k + 1) (Nat.succ_lt_succ hk)
      · intro k hk
        rw [succ_offset]
        exact hbytes (k + 1) (Nat.succ_lt_succ hk)

theorem written_at (m : Memory) (p : Ptr) {k : Nat} (hlen : bytes.length ≤ 2 ^ 64)
    (hk : k < bytes.length) :
    written m p bytes (p + BitVec.ofNat 64 k) = bytes.getD k 0#8 := by
  have hplace : (p + BitVec.ofNat 64 k - p).toNat = k := offset_toNat p (by omega)
  rw [written_in (by rwa [hplace]), hplace]

/-- Characters stored with a zero behind them are a string. -/
theorem isString_written {rest : List (BitVec 8)} (hne : ∀ c ∈ text, c ≠ 0#8)
    (hnull : ∀ k ≤ text.length, p + BitVec.ofNat 64 k ≠ NULL)
    (hlen : text.length + rest.length < 2 ^ 64) :
    IsString (written m p (text ++ 0#8 :: rest)) p text := by
  have hlength : (text ++ 0#8 :: rest).length = text.length + (rest.length + 1) := by simp
  rw [← List.append_nil text]
  refine .append_left hne (fun k hk => hnull k (Nat.le_of_lt hk)) (fun k hk => ?_)
    (.nil (hnull _ (Nat.le_refl _)) ?_)
  · rw [List.append_nil, written_at m p (by omega) (by omega), List.getD_append _ _ _ _ hk]
  · rw [List.append_nil, written_at m p (by omega) (by omega),
      List.getD_append_right _ _ _ _ (Nat.le_refl _), Nat.sub_self, List.getD_cons_zero]

end Strings

/-- A buffer of `room` bytes below the top of the address space. -/
structure Destination (dest : Ptr) (room : Nat) : Prop where
  ne_null : dest ≠ NULL
  top : dest.toNat + room ≤ 2 ^ 64

section Calls

variable {m : Memory} {dest src : Ptr} {room : Nat} {cur text : List (BitVec 8)}

theorem Destination.place_ne_null (h : Destination dest room) {k : Nat} (hk : k < room) :
    dest + BitVec.ofNat 64 k ≠ NULL := by
  have hnull := h.ne_null
  have htop := h.top
  unfold NULL at *
  bv_omega

theorem Destination.written_out (h : Destination dest room) (m : Memory) {a : Nat}
    {bytes : List (BitVec 8)} (hin : a + bytes.length ≤ room) {x : Ptr}
    (hx : ¬ InRange dest room x) :
    written m (dest + BitVec.ofNat 64 a) bytes x = m x := by
  have htop := h.top
  unfold InRange at hx
  refine Lib.written_out ?_
  bv_omega

theorem Destination.clear (h : Destination dest room) {k : Nat} (hk : k < room)
    (hapart : ∀ x, InString src text x → ¬ InRange dest room x) :
    Clear (dest + BitVec.ofNat 64 k) src text.length := by
  have htop := h.top
  refine Or.inr (Nat.lt_of_not_le (fun hle => ?_))
  exact hapart _ (Nat.lt_succ_of_le hle) (inRange_add dest hk (by omega))

/-- What is stored behind a string continues it. -/
theorem Destination.isString_append (h : Destination dest room) (hdest : IsString m dest cur)
    (hne : ∀ c ∈ text, c ≠ 0#8) (hroom : cur.length + text.length < room) :
    IsString (written m (dest + BitVec.ofNat 64 cur.length) (text ++ [0#8])) dest
      (cur ++ text) := by
  have htop := h.top
  refine .append_left hdest.ne_zero (fun k hk => h.place_ne_null (by omega)) (fun k hk => ?_)
    (isString_written hne (fun k hk => ?_) (by rw [List.length_nil]; omega))
  · rw [Lib.written_out ?_, hdest.byte (Nat.le_of_lt hk)]
    rw [List.length_append, List.length_singleton]
    bv_omega
  · rw [offset_offset]
    exact h.place_ne_null (by omega)

/-- What `strncpy` stores is a string, or it leaves the rest of the one before. -/
theorem Destination.isString_strncpy (h : Destination dest room) {n : BitVec 32}
    (hdest : IsString m dest cur) (hsrc : IsString m src text) (hroom : n.toNat ≤ room)
    (hcur : cur.length < room) (hzero : text.length < n.toNat ∨ n.toNat ≤ cur.length) :
    IsString (written m dest (text.take n.toNat ++
      List.replicate (n.toNat - text.length) 0#8)) dest
      ((TextCall.strncpy src n).result text cur) := by
  have htop := h.top
  rw [TextCall.result]
  by_cases hlt : text.length < n.toNat
  · obtain ⟨k, hk⟩ := Nat.exists_eq_add_of_lt hlt
    have hpad : n.toNat - text.length = k + 1 := by omega
    rw [if_pos hlt, List.append_nil, List.take_of_length_le (Nat.le_of_lt hlt), hpad,
      List.replicate_succ]
    exact isString_written hsrc.ne_zero (fun k hk => h.place_ne_null (by omega))
      (by rw [List.length_replicate]; omega)
  · have hle := hzero.resolve_left hlt
    have hlength : (text.take n.toNat).length = n.toNat := List.length_take_of_le (by omega)
    rw [if_neg hlt, Nat.sub_eq_zero_of_le (Nat.le_of_not_lt hlt), List.replicate_zero,
      List.append_nil]
    refine .append_left (fun c hc => hsrc.ne_zero c (List.mem_of_mem_take hc))
      (fun k hk => h.place_ne_null (by omega)) (fun k hk => written_at m dest (by omega) hk) ?_
    rw [hlength]
    refine (hdest.drop hle).congr (fun x hx => Lib.written_out ?_)
    unfold InString InRange at hx
    rw [List.length_drop] at hx
    bv_omega

/-- The call stores `bytes` from the place `a` of the buffer on, and a string is in it then. -/
structure Performs (m : Memory) (dest : Ptr) (room : Nat) (c : TextCall)
    (text cur : List (BitVec 8)) (a : Nat) (bytes : List (BitVec 8)) : Prop where
  leaves : ∃ bound, ∀ turns, bound ≤ turns →
    Leaves m (fun x => InRange dest room x ∨ InString c.src text x) (c.code turns dest) dest
      (written m (dest + BitVec.ofNat 64 a) bytes)
  inside : a + bytes.length ≤ room
  string : IsString (written m (dest + BitVec.ofNat 64 a) bytes) dest (c.result text cur)
  short : (c.result text cur).length < room

/-- A call that fits the buffer. -/
theorem TextCall.exists_performs (h : Destination dest room) {c : TextCall}
    (hdest : IsString m dest cur) (hcur : cur.length < room) (hsrc : IsString m c.src text)
    (hapart : ∀ x, InString c.src text x → ¬ InRange dest room x) (hfits : c.Fits room text cur) :
    ∃ a bytes, Performs m dest room c text cur a bytes := by
  have htop := h.top
  have hstart : dest + BitVec.ofNat 64 0 = dest := BitVec.add_zero dest
  have hread : ∀ x, InString dest cur x ∨ InString c.src text x →
      InRange dest room x ∨ InString c.src text x :=
    fun x hx => hx.imp_left (fun hin => Nat.lt_of_lt_of_le hin hcur)
  cases c with
  | strcpy src =>
      have hroom : text.length < room := hfits
      have hclear := h.clear (k := 0) (by omega) hapart
      refine ⟨0, text ++ [0#8], ⟨⟨text.length + 1, fun turns hturns => ?_⟩, ?_, ?_, hroom⟩⟩
      · rw [hstart] at hclear ⊢
        exact (strcpy_leaves hsrc hclear hturns).mono (fun _ => Or.inr)
      · rw [List.length_append, List.length_singleton]
        omega
      · rw [hstart]
        exact isString_written hsrc.ne_zero (fun k hk => h.place_ne_null (by omega))
          (by rw [List.length_nil]; omega)
  | strcat src =>
      have hroom : cur.length + text.length < room := hfits
      refine ⟨cur.length, text ++ [0#8], ⟨⟨max cur.length text.length + 1, fun turns hturns => ?_⟩,
        ?_, h.isString_append hdest hsrc.ne_zero hroom, ?_⟩⟩
      · exact (strcat_leaves hdest hsrc (h.clear hcur hapart) hturns).mono hread
      · rw [List.length_append, List.length_singleton]
        omega
      · rw [TextCall.result, List.length_append]
        exact hroom
  | strncat src n =>
      have hroom : cur.length + min n.toNat text.length < room := hfits
      have hlength : (text.take n.toNat).length = min n.toNat text.length := List.length_take
      have hne : ∀ c ∈ text.take n.toNat, c ≠ 0#8 :=
        fun c hc => hsrc.ne_zero c (List.mem_of_mem_take hc)
      refine ⟨cur.length, text.take n.toNat ++ [0#8],
        ⟨⟨max cur.length n.toNat + 1, fun turns hturns => ?_⟩, ?_,
          h.isString_append hdest hne (by rwa [hlength]), ?_⟩⟩
      · refine (strncat_leaves hdest hsrc (fun x hx hin => hapart x hx ?_) hturns).mono hread
        exact inRange_offset hin (Nat.le_of_lt hroom)
      · rw [List.length_append, List.length_singleton]
        omega
      · rw [TextCall.result, List.length_append, hlength]
        exact hroom
  | strncpy src n =>
      obtain ⟨hroom, hzero⟩ : n.toNat ≤ room ∧ (text.length < n.toNat ∨ n.toNat ≤ cur.length) :=
        hfits
      refine ⟨0, text.take n.toNat ++ List.replicate (n.toNat - text.length) 0#8,
        ⟨⟨n.toNat + 1, fun turns hturns => ?_⟩, ?_, ?_, ?_⟩⟩
      · rw [hstart]
        exact (strncpy_leaves hsrc (fun x hx hin => hapart x hx (Nat.lt_of_lt_of_le hin hroom))
          hturns).mono (fun _ => Or.inr)
      · rw [List.length_append, List.length_take, List.length_replicate]
        omega
      · rw [hstart]
        exact h.isString_strncpy hdest hsrc hroom hcur hzero
      · rw [TextCall.result, List.length_append, List.length_take]
        split
        · rw [List.length_nil]
          omega
        · rw [List.length_drop]
          omega

/-- The calls one after the other. -/
theorem exists_textCalls (h : Destination dest room) {texts : Ptr → List (BitVec 8)}
    {calls : List TextCall} {P : Ptr → Prop} (hdestination : ∀ x, InRange dest room x → P x)
    (hdest : IsString m dest cur) (hcur : cur.length < room)
    (hsrc : ∀ c ∈ calls, IsString m c.src (texts c.src) ∧
      ∀ x, InString c.src (texts c.src) x → ¬ InRange dest room x ∧ P x)
    (hfits : Along (fun cur c => c.Fits room (texts c.src) cur)
      (fun cur c => c.result (texts c.src) cur) cur calls) :
    ∃ m', (∃ bound, ∀ turns, bound ≤ turns →
        Leaves m P (textCalls turns dest calls) (List.replicate calls.length dest) m') ∧
      IsString m' dest (calls.foldl (fun cur c => c.result (texts c.src) cur) cur) ∧
      ∀ x, ¬ InRange dest room x → m' x = m x := by
  induction calls generalizing m cur with
  | nil => exact ⟨m, ⟨0, fun _ _ => .pure _ _ _⟩, hdest, fun _ _ => rfl⟩
  | cons c calls ih =>
      obtain ⟨hstring, hread⟩ := hsrc c List.mem_cons_self
      obtain ⟨a, bytes, hperforms⟩ :=
        TextCall.exists_performs h hdest hcur hstring (fun x hx => (hread x hx).1) hfits.1
      have hframe : ∀ x, ¬ InRange dest room x →
          written m (dest + BitVec.ofNat 64 a) bytes x = m x :=
        fun x hx => h.written_out m hperforms.inside hx
      obtain ⟨m', ⟨more, hmore⟩, hresult, hrest⟩ := ih hperforms.string hperforms.short
        (fun d hd => by
          obtain ⟨hkept, hfar⟩ := hsrc d (List.mem_cons_of_mem c hd)
          exact ⟨hkept.congr (fun x hx => hframe x (hfar x hx).1), hfar⟩)
        hfits.2
      obtain ⟨bound, hbound⟩ := hperforms.leaves
      refine ⟨m', ⟨max bound more, fun turns hturns => ?_⟩, hresult,
        fun x hx => (hrest x hx).trans (hframe x hx)⟩
      have hcall := (hbound turns (by omega)).mono
        (fun x hx => hx.elim (hdestination x) (fun hin => (hread x hin).2))
      exact hcall.bind ((hmore turns (by omega)).bind (.pure _ _ _))

end Calls

/-- Any run of calls that fit the buffer comes to an end, returns the buffer each time, leaves
the string that the same calls make of a list of characters, and writes nothing else; read are
only the buffer and the sources. -/
theorem text_calls_build {m : Memory} {dest : Ptr} {room : Nat} (h : Destination dest room)
    {cur : List (BitVec 8)} (hdest : IsString m dest cur) (hcur : cur.length < room)
    {texts : Ptr → List (BitVec 8)} {calls : List TextCall}
    (hsrc : ∀ c ∈ calls, IsString m c.src (texts c.src) ∧
      ∀ x, InString c.src (texts c.src) x → ¬ InRange dest room x)
    (hfits : Along (fun cur c => c.Fits room (texts c.src) cur)
      (fun cur c => c.result (texts c.src) cur) cur calls) :
    Terminates (fun turns => textCalls turns dest calls) { mem := m } (fun rs t =>
      rs = List.replicate calls.length dest ∧
        IsString t.mem dest (calls.foldl (fun cur c => c.result (texts c.src) cur) cur) ∧
        (∀ x, ¬ InRange dest room x → t.mem x = m x) ∧
        ∀ x ∈ t.reads, InRange dest room x ∨ ∃ c ∈ calls, InString c.src (texts c.src) x) := by
  obtain ⟨m', ⟨bound, hbound⟩, hresult, hframe⟩ :=
    exists_textCalls (P := fun x =>
        InRange dest room x ∨ ∃ c ∈ calls, InString c.src (texts c.src) x)
      h (fun x => Or.inl) hdest hcur
      (fun c hc => ⟨(hsrc c hc).1, fun x hx => ⟨(hsrc c hc).2 x hx, Or.inr ⟨c, hc, hx⟩⟩⟩) hfits
  refine ⟨bound, fun turns hturns => (hbound turns hturns { mem := m } rfl).mono ?_⟩
  rintro rs t ⟨hrs, rfl, hreads⟩
  exact ⟨hrs, hresult, hframe, fun x hx => (hreads x hx).resolve_left List.not_mem_nil⟩

/-- Two strings, and an empty buffer at `0x3000`. -/
def dirMemory : Memory :=
  loaded [(0x1000#64, ['/', 'd'].map ascii), (0x2000#64, ['/', 'f', 'i', 'l', 'e'].map ascii)]

def dirTexts (p : Ptr) : List (BitVec 8) :=
  if p = 0x1000#64 then ['/', 'd'].map ascii else ['/', 'f', 'i', 'l', 'e'].map ascii

/-- A name of at most three characters behind the first string, in eight bytes. -/
theorem text_calls_build_dir :
    Terminates (fun turns => textCalls turns 0x3000#64
        [.strcpy 0x1000#64, .strncat 0x2000#64 3#32]) { mem := dirMemory }
      (fun _ t => IsString t.mem 0x3000#64 (['/', 'd', '/', 'f', 'i'].map ascii)) := by
  have hdestination : Destination 0x3000#64 8 := ⟨by decide, by decide⟩
  have hsrc : ∀ c ∈ [TextCall.strcpy 0x1000#64, .strncat 0x2000#64 3#32],
      IsString dirMemory c.src (dirTexts c.src) ∧
        ∀ x, InString c.src (dirTexts c.src) x → ¬ InRange 0x3000#64 8 x := by
    have hapart : ∀ p : Ptr, p = 0x1000#64 ∨ p = 0x2000#64 →
        ∀ x, InString p (dirTexts p) x → ¬ InRange 0x3000#64 8 x := by
      rintro p (rfl | rfl) x hx
      · exact not_inRange_of_apart (by decide) (by decide) hx
      · exact not_inRange_of_apart (by decide) (by decide) hx
    intro c hc
    rcases List.mem_cons.mp hc with rfl | hc
    · exact ⟨by decide, hapart _ (Or.inl rfl)⟩
    · obtain rfl := List.mem_singleton.mp hc
      exact ⟨by decide, hapart _ (Or.inr rfl)⟩
  have hempty : IsString dirMemory 0x3000#64 [] := .nil (by decide) (by decide)
  exact (text_calls_build hdestination hempty (by decide) hsrc (by decide)).mono
    (fun _ _ ht => ht.2.1)

end Asnu
