import Asnu.Lib.Run
import Asnu.Serial

/-!
`serial_fwrite` with interrupts whose handler logs as well. An interrupt makes
complete calls, each with the next id. They spoil a number of the interrupted
call, or what `serial_i2s` keeps for later ones, only between the store of
`last_value` and the last read of the text.
-/

namespace Asnu

open Lib

/-- The calls that one interrupt makes. -/
abbrev Interrupt := List (List Piece)

/-- What they send is not sent by the interrupted call. -/
def interrupt (calls : Interrupt) (s : Serial) : Serial :=
  { calls.foldl (fun t body => ((serialFwrite body).alone t).2) s with out := s.out }

def numbersIn : List Piece → List (BitVec 32)
  | [] => []
  | .char _ :: ps => numbersIn ps
  | .number v :: ps => v :: numbersIn ps

/-- The numbers that calls print when the first one takes `id`. -/
def numbers : Interrupt → BitVec 32 → List (BitVec 32)
  | [], _ => []
  | body :: calls, id => id :: numbersIn body ++ numbers calls (id + 1#32)

/-- While `v` is being written to `temp` no other number may be printed. While it is
read from place `i` on, the number printed last must look like `v` from there on. -/
def Allowed : Relies → Interrupt → Serial → Prop
  | .nothing, _, _ => True
  | .filling v, calls, s => ∀ w ∈ numbers calls s.logId, w = v
  | .reading v i, calls, s => ∀ w ∈ (numbers calls s.logId).getLast?,
      (render w).length = (render v).length ∧ (render w).drop i = (render v).drop i

instance : (relies : Relies) → (calls : Interrupt) → (s : Serial) →
    Decidable (Allowed relies calls s)
  | .nothing, _, _ => inferInstanceAs (Decidable True)
  | .filling _, calls, s => List.decidableBAll _ (numbers calls s.logId)
  | .reading _ _, calls, s => Option.decidableForallMem (numbers calls s.logId).getLast?

/-! ### Calls that are not interrupted -/

theorem keeps_walk {τ : Type} {f : Serial → τ}
    (hf : ∀ (s : Serial) (o : List (BitVec 8)), f { s with out := o } = f s)
    (v : BitVec 32) (n i : Nat) : (walk v n i).Keeps f := by
  induction n generalizing i with
  | zero => exact .ret _
  | succ n ih =>
      refine (Prog.Keeps.read _ _).bind (fun test => ?_)
      split
      · exact .ret _
      · exact (Prog.Keeps.read _ _).bind (fun c =>
          (Prog.Keeps.write _ (fun s => hf s _)).bind (fun _ => ih (i + 1)))

namespace I2s

variable (v : BitVec 32)

theorem keeps_store (i : Nat) (b : BitVec 8) : (store v i b).Keeps Serial.logId :=
  .write _ (fun _ => rfl)

theorem keeps_digits (n : Nat) (x : BitVec 32) (i : Nat) :
    (digits v n x i).Keeps Serial.logId := by
  induction n generalizing x i with
  | zero => exact .ret _
  | succ n ih =>
      rw [digits]
      split
      · exact (keeps_store v i _).bind (fun _ => ih _ _)
      · exact .ret _

theorem keeps_sign (i : Nat) : (sign v i).Keeps Serial.logId := by
  unfold sign
  split
  · exact (keeps_store v i _).bind (fun _ => .ret _)
  · exact .ret _

theorem keeps_zeros (n i : Nat) : (zeros v n i).Keeps Serial.logId := by
  induction n generalizing i with
  | zero => exact .ret _
  | succ n ih => exact (keeps_store v i _).bind (fun _ => ih _)

theorem keeps_reverse (i n j : Nat) : (reverse v i n j).Keeps Serial.logId := by
  induction n generalizing j with
  | zero => exact .ret _
  | succ n ih =>
      have hswap : (swap v j (i - j - 1)).Keeps Serial.logId :=
        (Prog.Keeps.read _ _).bind (fun _ => (Prog.Keeps.read _ _).bind (fun _ =>
          (keeps_store v _ _).bind (fun _ => keeps_store v _ _)))
      exact hswap.bind (fun _ => ih (j + 1))

theorem keeps_fill : (fill v).Keeps Serial.logId := by
  unfold fill
  split
  · exact (keeps_store v _ _).bind (fun _ => (keeps_store v _ _).bind (fun _ =>
      (keeps_store v _ _).bind (fun _ => (keeps_store v _ _).bind (fun _ =>
        keeps_store v _ _))))
  · exact (keeps_digits v _ _ _).bind (fun _ => (keeps_sign v _).bind (fun _ =>
      (keeps_zeros v _ _).bind (fun _ => (keeps_reverse v _ _ _).bind (fun _ =>
        keeps_store v _ _))))

instance (c : I2s) : Decidable (c.Keyed v) := inferInstanceAs (Decidable (_ ∧ _))

theorem cached_alone (s : Serial) : (cached v).alone s = (decide (s.i2s.Keyed v), s) := by
  rw [cached, Prog.alone_bind, Prog.alone_read]
  cases hinit : s.i2s.initialized <;> simp [Keyed, hinit, eq_comm]

end I2s

section Alone

variable (v : BitVec 32) (s : Serial)

theorem serialI2s_alone_of_keyed (hkey : s.i2s.Keyed v) : (serialI2s v).alone s = ((), s) := by
  simp [serialI2s, I2s.cached_alone, hkey]

theorem serialI2s_alone_of_not_keyed (hkey : ¬ s.i2s.Keyed v) :
    (serialI2s v).alone s = (I2s.fill v).alone
      { s with i2s := { s.i2s with lastValue := v, initialized := true } } := by
  simp [serialI2s, I2s.cached_alone, hkey]

theorem logId_printNumber : ((printNumber v).alone s).2.logId = s.logId := by
  have hwalk := (keeps_walk (f := Serial.logId) (fun _ _ => rfl) v 16 0).alone
    ((serialI2s v).alone s).2
  rw [printNumber, Prog.alone_bind, hwalk]
  by_cases hkey : s.i2s.Keyed v
  · rw [serialI2s_alone_of_keyed v s hkey]
  · rw [serialI2s_alone_of_not_keyed v s hkey, (I2s.keeps_fill v).alone]

theorem i2s_printNumber :
    ((printNumber v).alone s).2.i2s = ((serialI2s v).alone s).2.i2s := by
  rw [printNumber, Prog.alone_bind, (keeps_walk (f := Serial.i2s) (fun _ _ => rfl) v 16 0).alone]

end Alone

/-- What printing `v` does to the variables of `serial_i2s`. -/
structure Prints (c : I2s) (v : BitVec 32) (c' : I2s) : Prop where
  keyed : c'.Keyed v
  hit : c.Keyed v → c' = c
  ok : c.Ok → c'.Ok

theorem prints_printNumber (v : BitVec 32) (s : Serial) :
    Prints s.i2s v ((printNumber v).alone s).2.i2s := by
  rw [i2s_printNumber]
  by_cases hkey : s.i2s.Keyed v
  · rw [serialI2s_alone_of_keyed v s hkey]
    exact ⟨hkey, fun _ => rfl, fun hok => hok⟩
  · rw [serialI2s_alone_of_not_keyed v s hkey]
    obtain ⟨⟨hkeyed, hreads⟩, -⟩ := (Harmless.idle.fill v).alone
      (show Sent (I2s.Keyed v) s.out
        { s with i2s := { s.i2s with lastValue := v, initialized := true } } from
          ⟨⟨rfl, rfl⟩, rfl⟩)
    refine ⟨hkeyed, fun h => absurd h hkey, fun _ _ => ?_⟩
    rw [hkeyed.2]
    exact hreads

namespace Prints

variable {c c' : I2s} {ns : List (BitVec 32)} {v : BitVec 32}

theorem run_ok (h : Run Prints c ns c') (hok : c.Ok) : c'.Ok :=
  h.invariant I2s.Ok (fun _ _ _ hc hstep => hstep.ok hc) hok

theorem run_initialized (h : Run Prints c ns c') (hinit : c.initialized = true) :
    c'.initialized = true :=
  h.invariant (fun c => c.initialized = true) (fun _ _ _ _ hstep => hstep.keyed.1) hinit

theorem run_last (h : Run Prints c ns c') : ∀ w ∈ ns.getLast?, c'.Keyed w := by
  induction h with
  | nil c => simp
  | @cons c d c' v ns hstep hrest ih =>
      cases ns with
      | nil =>
          cases hrest
          simpa using hstep.keyed
      | cons w ns => simpa using ih

/-- Printing the number kept changes nothing. -/
theorem run_same (h : Run Prints c ns c') (hns : ∀ w ∈ ns, w = v) (hkey : c.Keyed v) :
    c' = c := by
  induction h with
  | nil c => rfl
  | @cons c d c' w ns hstep hrest ih =>
      obtain rfl : w = v := hns w List.mem_cons_self
      obtain rfl := hstep.hit hkey
      exact ih (fun w hw => hns w (List.mem_cons_of_mem _ hw)) hkey

theorem run_lastValue (h : Run Prints c ns c') (hns : ∀ w ∈ ns, w = v)
    (hkey : c.lastValue = v) : c'.lastValue = v := by
  induction h with
  | nil c => exact hkey
  | @cons c d c' w ns hstep hrest ih =>
      obtain rfl : w = v := hns w List.mem_cons_self
      exact ih (fun w hw => hns w (List.mem_cons_of_mem _ hw)) hstep.keyed.2

end Prints

theorem logId_putPieces (ps : List Piece) (s : Serial) :
    ((putPieces ps).alone s).2.logId = s.logId := by
  induction ps generalizing s with
  | nil => rfl
  | cons p ps ih =>
      rw [putPieces, Prog.alone_bind, ih]
      cases p with
      | char c => rfl
      | number v => exact logId_printNumber v s

theorem run_putPieces (ps : List Piece) (s : Serial) :
    Run Prints s.i2s (numbersIn ps) ((putPieces ps).alone s).2.i2s := by
  induction ps generalizing s with
  | nil => exact Run.nil _
  | cons p ps ih =>
      rw [putPieces, Prog.alone_bind]
      cases p with
      | char c => exact ih ((Piece.char c).put.alone s).2
      | number v => exact Run.cons (prints_printNumber v s) (ih _)

/-- The state of an uninterrupted call when it has printed its id. -/
def Serial.logged (s : Serial) : Serial :=
  ((printNumber s.logId).alone
    { s with logId := s.logId + 1#32, out := s.out ++ [ascii '['] }).2

theorem serialFwrite_alone (body : List Piece) (s : Serial) :
    (serialFwrite body).alone s =
      (s.logId, ((serialWriteChar .nothing (ascii '\n')).alone ((putPieces body).alone
        { s.logged with out := s.logged.out ++ [ascii ']'] ++ [ascii ' '] }).2).2) := by
  simp [serialFwrite, Serial.logged, serialWriteChar]

theorem logId_serialFwrite (body : List Piece) (s : Serial) :
    ((serialFwrite body).alone s).2.logId = s.logId + 1#32 := by
  rw [serialFwrite_alone]
  change ((putPieces body).alone _).2.logId = _
  rw [logId_putPieces]
  exact logId_printNumber _ _

theorem run_serialFwrite (body : List Piece) (s : Serial) :
    Run Prints s.i2s (s.logId :: numbersIn body) ((serialFwrite body).alone s).2.i2s := by
  rw [serialFwrite_alone]
  have hid := prints_printNumber s.logId
    { s with logId := s.logId + 1#32, out := s.out ++ [ascii '['] }
  exact Run.cons hid (run_putPieces body
    { s.logged with out := s.logged.out ++ [ascii ']'] ++ [ascii ' '] })

theorem run_calls (calls : Interrupt) (s : Serial) :
    Run Prints s.i2s (numbers calls s.logId)
      (calls.foldl (fun t body => ((serialFwrite body).alone t).2) s).i2s := by
  induction calls generalizing s with
  | nil => exact Run.nil _
  | cons body calls ih =>
      have hrest := ih ((serialFwrite body).alone s).2
      rw [logId_serialFwrite] at hrest
      exact (run_serialFwrite body s).append hrest

theorem run_interrupt (calls : Interrupt) (s : Serial) :
    Run Prints s.i2s (numbers calls s.logId) (interrupt calls s).i2s :=
  run_calls calls s

/-- A text that agrees from place `i` on may take the place of the other. -/
theorem I2s.Reads.of_drop_eq {v w : BitVec 32} {i : Nat} {c : I2s} (h : c.Reads w 0)
    (hlen : (render w).length = (render v).length)
    (hdrop : (render w).drop i = (render v).drop i) : c.Reads v i := by
  intro k hi hk
  have hget : (render w)[k]? = (render v)[k]? := by
    have hdrop := congrArg (fun l => l[k - i]?) hdrop
    simpa [List.getElem?_drop, Nat.add_sub_cancel' hi] using hdrop
  rw [h k (Nat.zero_le k) (by omega), List.getD_eq_getElem?_getD, hget,
    List.getD_eq_getElem?_getD]

theorem harmless_interrupt : Harmless interrupt Allowed where
  out := fun _ _ => rfl
  cache := fun calls s hok => (Prints.run_ok (run_interrupt calls s)) hok
  initialized := fun calls s hinit => Prints.run_initialized (run_interrupt calls s) hinit
  key := fun _ calls s hallowed hkey =>
    Prints.run_lastValue (run_interrupt calls s) hallowed hkey
  filling := fun _ calls s hallowed hkey =>
    Prints.run_same (run_interrupt calls s) hallowed hkey
  reading := by
    intro v i calls s hallowed _ hok hreads
    have hrun := run_interrupt calls s
    cases hlast : (numbers calls s.logId).getLast? with
    | none =>
        rw [List.getLast?_eq_none_iff.mp hlast] at hrun
        generalize (interrupt calls s).i2s = c at hrun ⊢
        cases hrun
        exact hreads
    | some w =>
        obtain ⟨hlen, hdrop⟩ := hallowed w hlast
        obtain ⟨hinit, rfl⟩ := Prints.run_last hrun w hlast
        exact (Prints.run_ok hrun hok hinit).of_drop_eq hlen hdrop

/-! ### Interrupted calls -/

def Serial.start : Serial where
  i2s := { temp := fun _ => 0#8, lastValue := 0#32, initialized := false }
  logId := 0#32
  out := []

/-- The interrupts of a call leave what it counts on. -/
def Quiet (body : List Piece) (es : Nat → Interrupt) (s : Serial) : Prop :=
  (serialFwrite body).Meets interrupt Allowed es s

instance (body : List Piece) (es : Nat → Interrupt) (s : Serial) :
    Decidable (Quiet body es s) :=
  inferInstanceAs (Decidable (Prog.Meets _ _ _ _ _))

/-- The call sends what it would send alone with the id it takes, and the text kept
is that of the number kept. -/
def Survives (body : List Piece) (es : Nat → Interrupt) (s : Serial) : Prop :=
  let (id, s', _) := (serialFwrite body).exec interrupt es s
  s'.out = ((serialFwrite body).alone { s with logId := id }).2.out ∧ s'.i2s.Ok

/-- One quiet call after another. -/
def Logs (s : Serial) (call : List Piece × (Nat → Interrupt)) (s' : Serial) : Prop :=
  Quiet call.1 call.2 s ∧ s' = ((serialFwrite call.1).exec interrupt call.2 s).2.1

theorem Serial.start_ok : Serial.start.i2s.Ok := nofun

theorem Logs.ok {calls : List (List Piece × (Nat → Interrupt))} {s : Serial}
    (hrun : Run Logs Serial.start calls s) : s.i2s.Ok := by
  refine hrun.invariant (fun s => s.i2s.Ok) ?_ Serial.start_ok
  rintro s ⟨body, es⟩ _ hok ⟨hquiet, rfl⟩
  exact (harmless_interrupt.serialFwrite body es s ⟨hok, rfl⟩ hquiet).1

theorem Quiet.survives {body : List Piece} {es : Nat → Interrupt} {s : Serial}
    (h : Quiet body es s) (hok : s.i2s.Ok) : Survives body es s := by
  obtain ⟨hok', hout⟩ := harmless_interrupt.serialFwrite body es s ⟨hok, rfl⟩ h
  have halone : ∀ id, ((serialFwrite body).alone { s with logId := id }).2.out =
      s.out ++ callText id body := by
    intro id
    obtain ⟨-, hsent⟩ := (Harmless.idle.serialFwrite body).alone
      (show Sent I2s.Ok s.out { s with logId := id } from ⟨hok, rfl⟩)
    rw [hsent, serialFwrite_alone]
  exact ⟨hout.trans (halone _).symm, hok'⟩

/-- Quiet interrupts spoil neither the call they interrupt nor later ones. -/
theorem log_survives_quiet_interrupts {calls : List (List Piece × (Nat → Interrupt))}
    {s : Serial} (hrun : Run Logs Serial.start calls s) (body : List Piece)
    (es : Nat → Interrupt) (hquiet : Quiet body es s) : Survives body es s :=
  hquiet.survives (Logs.ok hrun)

namespace Sample

def bootLine : List Piece :=
  ['A', 'S', 'N', 'U', ' ', 'B', 'o', 'o', 't', 'e', 'd'].map (fun c => .char (ascii c))

/-- What `scheduler_tick` logs on most ticks. -/
def tickLine : List Piece :=
  ['S', 'c', 'h', 'e', 'd', 'u', 'l', 'e', 'r', ' ', 't', 'i', 'c', 'k', 'e', 'd'].map
    (fun c => .char (ascii c))

/-- One tick, before access `k`. -/
def tickAt (k n : Nat) : Interrupt := if n = k then [tickLine] else []

/-- The kernel has booted, with a tick before access `k` of its first call. -/
def afterBoot (k : Nat) : Serial :=
  ((serialFwrite bootLine).exec interrupt (tickAt k) Serial.start).2.1

theorem logs_bootLine : Logs Serial.start (bootLine, tickAt 1) (afterBoot 1) := by
  constructor
  · change Quiet bootLine (tickAt 1) Serial.start
    decide +kernel
  · rfl

end Sample

theorem log_survives_quiet_interrupts_tick :
    Survives [.number 3#32] (Sample.tickAt 45) (Sample.afterBoot 1) :=
  log_survives_quiet_interrupts (Run.cons Sample.logs_bootLine (Run.nil _)) _ _
    (by decide +kernel)

/-- A tick before the first character of the id is read makes it the id of the tick;
one after the store of `last_value` leaves the key of one number with the text of another. -/
theorem tick_spoils_call :
    ¬ (∀ body es, Survives body es Serial.start) ∧
      (Sample.afterBoot 11).out ≠ ((serialFwrite Sample.bootLine).alone Serial.start).2.out ∧
      ¬ (Sample.afterBoot 5).i2s.Ok := by
  have hkey : (Sample.afterBoot 5).i2s.initialized = true ∧
      (Sample.afterBoot 5).i2s.lastValue = 1#32 := by decide +kernel
  have hspoiled : ¬ (Sample.afterBoot 5).i2s.Ok := by
    intro hok
    have hlast := hok hkey.1 3 (Nat.zero_le 3)
    rw [hkey.2] at hlast
    revert hlast
    decide +kernel
  exact ⟨fun h => hspoiled (h Sample.bootLine (Sample.tickAt 5)).2, by decide +kernel, hspoiled⟩

end Asnu
