import Asnu.Lib.Run
import Asnu.Lib.Stores
import Asnu.Sched.Nearest

/-!
Creations of processes, as `test_sched` does them, when memory runs out. Neither
the caller nor `register_proc` looks at what the allocator has answered: a stack
may start at NULL, and NULL may be registered.
-/

namespace Asnu

open Lib

/-- The parts of a creation, switches, and what other callers do with the allocator. -/
inductive SupplyCall where
  | stack
  | createProc (a : ProcArgs)
  | registerProc (p : Ptr)
  | contextSwitch (cpu : Cpu)
  | palloc
  | kalloc (size : BitVec 64)
  | kfree (ptr : Ptr)

/-- The kernel, with the answers that creations go on with and the blocks of others. -/
structure Supply where
  pmm : Pmm
  sched : Sched
  /-- What `palloc` has returned for a stack. -/
  stackBases : List Ptr
  /-- What `create_proc` has returned. -/
  results : List Ptr
  blocks : List Ptr

/-- A store through a pointer to a `Procedure`, or to the top of a stack. -/
inductive SchedStore where
  | proc (p : Ptr)
  | stack (base : Ptr)
  deriving DecidableEq

def SchedStore.base : SchedStore → Ptr
  | .proc p => p
  | .stack base => base

namespace Supply

def start (pmm : Pmm) (s : Sched) : Supply :=
  { pmm := pmm, sched := schedulerInit s, stackBases := [], results := [], blocks := [] }

def exec (s : Supply) : SupplyCall → Supply
  | .stack => { s with pmm := (palloc s.pmm).2, stackBases := (palloc s.pmm).1 :: s.stackBases }
  | .createProc a =>
      let (p, pmm, sched) := createProc s.pmm s.sched a
      { s with pmm := pmm, sched := sched, results := p :: s.results }
  | .registerProc p => { s with sched := registerProc s.sched p }
  | .contextSwitch cpu => { s with sched := s.sched.after cpu }
  | .palloc => { s with pmm := (palloc s.pmm).2, blocks := (palloc s.pmm).1 :: s.blocks }
  | .kalloc size =>
      { s with pmm := (kalloc s.pmm size).2, blocks := (kalloc s.pmm size).1 :: s.blocks }
  | .kfree ptr => { s with pmm := kfree s.pmm ptr, blocks := s.blocks.erase ptr }

/-- A creation takes a stack of 4096 bytes from `palloc` and registers what `create_proc`
returns; others free their own blocks. -/
def Allowed (s : Supply) : SupplyCall → Prop
  | .createProc a => a.stackBase ∈ s.stackBases ∧ a.stackSize = 4096#64
  | .registerProc p => p ∈ s.results
  | .kfree ptr => ptr ∈ s.blocks
  | .stack | .contextSwitch _ | .palloc | .kalloc _ => True

def Step (s : Supply) (c : SupplyCall) (s' : Supply) : Prop := s.Allowed c ∧ s' = s.exec c

/-- Store through the pointer `p`. -/
def update (s : Supply) (p : Ptr) (f : Procedure → Procedure) : Supply :=
  { s with sched := s.sched.update p f }

def setState (s : Supply) (p : Ptr) (st : SchedulerState) : Supply :=
  { s with sched := s.sched.setState p st }

end Supply

/-! ### The calls store by store -/

/-- Programs over the kernel whose stores say which record or stack they go to. -/
abbrev SupplyCode := Logging Supply SchedStore

def kallocCode (size : BitVec 64) : SupplyCode Ptr := do
  let p ← Logging.look (fun s => (kalloc s.pmm size).1)
  Logging.note (fun s => { s with pmm := (kalloc s.pmm size).2 })
  pure p

def createProcCode (a : ProcArgs) : SupplyCode Ptr := do
  let p ← kallocCode sizeofProcedure
  if p = NULL then pure NULL
  else do
    Logging.log (.proc p) (fun s => s.update p (fun _ => {}))
    let pid ← Logging.look (fun s => s.sched.nextPid)
    Logging.note (fun s => { s with sched := { s.sched with nextPid := s.sched.nextPid + 1#32 } })
    -- the fields down to `rflags`
    Logging.log (.proc p) (fun s => s.update p (fun proc =>
      { initProc pid a with
        state := { (initProc pid a).state with
          regs := { (initProc pid a).state.regs with rsp := proc.state.regs.rsp } } }))
    let stackTop := a.stackBase + a.stackSize - 8#64
    Logging.log (.stack a.stackBase) (fun s =>
      { s with sched := { s.sched with
        stackWords := fun x => if x = stackTop then 0#64 else s.sched.stackWords x } })
    Logging.log (.proc p) (fun s => s.update p (fun proc =>
      { proc with state := { proc.state with regs := { proc.state.regs with rsp := stackTop } } }))
    pure p

def registerProcCode (p : Ptr) : SupplyCode Unit := do
  let count ← Logging.look (fun s => s.sched.procCount)
  if count ≥ maxProcs then pure ()
  else do
    Logging.note (fun s => { s with sched := { s.sched with procList := s.sched.procList ++ [p] } })
    Logging.log (.proc p) (fun s => s.setState p .procReady)
    let cur ← Logging.look (fun s => s.sched.currentProc)
    if cur = NULL then do
      Logging.note (fun s => { s with sched := { s.sched with currentProc := p } })
      Logging.log (.proc p) (fun s => s.setState p .procRunning)
    else pure ()

/-- The part of `context_switch` that saves the registers of the current process. -/
def saveCode (prev : Ptr) (cpu : Cpu) : SupplyCode Unit :=
  if prev = NULL then pure ()
  else do
    Logging.log (.proc prev) (fun s => { s with sched := s.sched.saveContext prev cpu })
    Logging.log (.proc prev) (fun s => s.setState prev .procReady)

def contextSwitchCode (cpu : Cpu) : SupplyCode Unit := do
  let next ← Logging.look (fun s => findNextProc s.sched)
  if next = NULL then pure ()
  else do
    let prev ← Logging.look (fun s => s.sched.currentProc)
    if prev = next then pure ()
    else do
      saveCode prev cpu
      Logging.log (.proc next) (fun s => s.setState next .procRunning)
      Logging.note (fun s => { s with sched := { s.sched with currentProc := next } })

namespace Supply

def code : SupplyCall → SupplyCode Unit
  | .stack => Logging.note (fun s =>
      { s with pmm := (palloc s.pmm).2, stackBases := (palloc s.pmm).1 :: s.stackBases })
  | .createProc a => do
      let p ← createProcCode a
      Logging.note (fun s => { s with results := p :: s.results })
  | .registerProc p => registerProcCode p
  | .contextSwitch cpu => contextSwitchCode cpu
  | .palloc => Logging.note (fun s =>
      { s with pmm := (palloc s.pmm).2, blocks := (palloc s.pmm).1 :: s.blocks })
  | .kalloc size => Logging.note (fun s =>
      { s with pmm := (kalloc s.pmm size).2, blocks := (kalloc s.pmm size).1 :: s.blocks })
  | .kfree ptr => Logging.note (fun s =>
      { s with pmm := kfree s.pmm ptr, blocks := s.blocks.erase ptr })

/-- What a call stores to, of records and stacks, in order. -/
def stores (s : Supply) (c : SupplyCall) : List SchedStore := (code c).stores s

/-! The programs are the calls. -/

theorem createProcCode_alone (s : Supply) (a : ProcArgs) :
    (createProcCode a).alone s = ((createProc s.pmm s.sched a).1,
      { s with
        pmm := (createProc s.pmm s.sched a).2.1
        sched := (createProc s.pmm s.sched a).2.2 }) := by
  rw [createProcCode, Prog.alone_bind]
  have hkalloc : (kallocCode sizeofProcedure).alone s =
      ((kalloc s.pmm sizeofProcedure).1, { s with pmm := (kalloc s.pmm sizeofProcedure).2 }) := rfl
  rw [hkalloc]
  rcases createProc_cases s.pmm s.sched a with ⟨hnull, heq⟩ | ⟨hne, heq⟩
  · rw [if_pos hnull, heq, Prog.alone_pure]
  · rw [if_neg hne, heq]
    refine congrArg (fun procs => ((kalloc s.pmm sizeofProcedure).1,
      ({ s with
        pmm := (kalloc s.pmm sizeofProcedure).2
        sched := { s.sched.spawned (kalloc s.pmm sizeofProcedure).1 a with procs := procs } } :
        Supply))) (funext fun q => ?_)
    by_cases hq : q = (kalloc s.pmm sizeofProcedure).1 <;>
      simp [Supply.update, Sched.update, hq, initProc]

theorem registerProcCode_alone (s : Supply) (p : Ptr) :
    (registerProcCode p).alone s = ((), s.exec (.registerProc p)) := by
  rw [registerProcCode, Logging.alone_look_bind, exec]
  rcases registerProc_cases s.sched p with ⟨hfull, heq⟩ | ⟨hlt, hcur, heq⟩ | ⟨hlt, hcur, heq⟩
  · rw [if_pos hfull, heq, Prog.alone_pure]
  · rw [if_neg (Nat.not_le_of_lt hlt), heq]
    change (if s.sched.currentProc = NULL then _ else _ : SupplyCode Unit).alone _ = _
    rw [if_pos hcur]
    rfl
  · rw [if_neg (Nat.not_le_of_lt hlt), heq]
    change (if s.sched.currentProc = NULL then _ else _ : SupplyCode Unit).alone _ = _
    rw [if_neg hcur]
    rfl

theorem contextSwitchCode_alone (s : Supply) (cpu : Cpu) :
    (contextSwitchCode cpu).alone s = ((), s.exec (.contextSwitch cpu)) := by
  rw [contextSwitchCode, Logging.alone_look_bind, exec, Sched.after, contextSwitch]
  by_cases hnull : findNextProc s.sched = NULL
  · rw [if_pos hnull, if_pos hnull, Prog.alone_pure]
    rfl
  · rw [if_neg hnull, if_neg hnull, Logging.alone_look_bind]
    by_cases hsame : s.sched.currentProc = findNextProc s.sched
    · rw [if_pos hsame, if_pos hsame, Prog.alone_pure]
      rfl
    · rw [if_neg hsame, if_neg hsame, Prog.alone_bind, saveCode]
      by_cases hprev : s.sched.currentProc = NULL
      · rw [if_pos hprev, if_pos hprev]
        rfl
      · rw [if_neg hprev, if_neg hprev]
        rfl

/-- Every call is what its program does. -/
theorem code_alone (s : Supply) (c : SupplyCall) : (code c).alone s = ((), s.exec c) := by
  cases c with
  | createProc a =>
      rw [code, Prog.alone_bind, createProcCode_alone]
      rfl
  | registerProc p => exact registerProcCode_alone s p
  | contextSwitch cpu => exact contextSwitchCode_alone s cpu
  | stack => rfl
  | palloc => rfl
  | kalloc size => rfl
  | kfree ptr => rfl

/-! What they store to. -/

theorem stores_createProc (s : Supply) (a : ProcArgs) :
    s.stores (.createProc a) =
      if (kalloc s.pmm sizeofProcedure).1 = NULL then []
      else
        [.proc (kalloc s.pmm sizeofProcedure).1, .proc (kalloc s.pmm sizeofProcedure).1,
          .stack a.stackBase, .proc (kalloc s.pmm sizeofProcedure).1] := by
  have hkalloc : (kallocCode sizeofProcedure).alone s =
      ((kalloc s.pmm sizeofProcedure).1, { s with pmm := (kalloc s.pmm sizeofProcedure).2 }) := rfl
  have hnone : (kallocCode sizeofProcedure).stores s = [] := rfl
  rw [stores, code, Logging.stores_bind, Logging.stores_note, createProcCode, Logging.stores_bind,
    hkalloc, hnone]
  by_cases hnull : (kalloc s.pmm sizeofProcedure).1 = NULL
  · rw [if_pos hnull, if_pos hnull, Logging.stores_pure]
    rfl
  · rw [if_neg hnull, if_neg hnull]
    rfl

theorem stores_registerProc (s : Supply) (p : Ptr) :
    s.stores (.registerProc p) =
      if s.sched.procCount ≥ maxProcs then []
      else .proc p :: if s.sched.currentProc = NULL then [.proc p] else [] := by
  rw [stores, code, registerProcCode, Logging.stores_look_bind]
  by_cases hfull : s.sched.procCount ≥ maxProcs
  · rw [if_pos hfull, if_pos hfull, Logging.stores_pure]
  · rw [if_neg hfull, if_neg hfull]
    change SchedStore.proc p ::
      Logging.stores (if s.sched.currentProc = NULL then _ else _ : SupplyCode Unit) _ = _
    by_cases hcur : s.sched.currentProc = NULL
    · rw [if_pos hcur, if_pos hcur]
      rfl
    · rw [if_neg hcur, if_neg hcur]
      rfl

theorem stores_contextSwitch (s : Supply) (cpu : Cpu) :
    s.stores (.contextSwitch cpu) =
      if findNextProc s.sched = NULL ∨ s.sched.currentProc = findNextProc s.sched then []
      else if s.sched.currentProc = NULL then [.proc (findNextProc s.sched)]
      else [.proc s.sched.currentProc, .proc s.sched.currentProc,
        .proc (findNextProc s.sched)] := by
  rw [stores, code, contextSwitchCode, Logging.stores_look_bind]
  by_cases hnull : findNextProc s.sched = NULL
  · rw [if_pos hnull, if_pos (Or.inl hnull), Logging.stores_pure]
  · rw [if_neg hnull, Logging.stores_look_bind]
    by_cases hsame : s.sched.currentProc = findNextProc s.sched
    · rw [if_pos hsame, if_pos (Or.inr hsame), Logging.stores_pure]
    · rw [if_neg hsame, if_neg (not_or.mpr ⟨hnull, hsame⟩), saveCode, Logging.stores_bind]
      by_cases hprev : s.sched.currentProc = NULL
      · rw [if_pos hprev, if_pos hprev]
        rfl
      · rw [if_neg hprev, if_neg hprev]
        rfl

/-- The call is one of a creation, and its memory is missing. -/
def Fails (s : Supply) : SupplyCall → Prop
  | .stack => (palloc s.pmm).1 = NULL
  | .createProc a => (createProc s.pmm s.sched a).1 = NULL
  | .registerProc p => p = NULL
  | .contextSwitch _ | .palloc | .kalloc _ | .kfree _ => False

/-- Nothing is stored or looked up through NULL, NULL is not in the list, and a creation
that fails leaves the scheduler's variables alone. -/
structure Unharmed (s : Supply) (c : SupplyCall) (s' : Supply) : Prop where
  stores : ∀ w ∈ s.stores c, w.base ≠ NULL
  lookups : ∀ cpu, c = .contextSwitch cpu →
    .procState NULL ∉ findNextProcCode.trace s.sched
  listed : NULL ∉ s'.sched.procList
  failed : s.Fails c → s'.sched.procList = s.sched.procList ∧
    s'.sched.procCount = s.sched.procCount ∧ s'.sched.currentProc = s.sched.currentProc

/-- No frame is free, or the first free one is at address 0. -/
def OutOfFrames (s : Supply) : Prop :=
  ∀ i, s.pmm.firstFree = some i → s.pmm.frame i = NULL

/-- A stack at NULL is not used while there is a frame, and NULL is not registered while
there is room. -/
def Provided (s : Supply) : SupplyCall → Prop
  | .createProc a => a.stackBase ≠ NULL ∨ s.OutOfFrames
  | .registerProc p => p ≠ NULL ∨ maxProcs ≤ s.sched.procCount
  | .stack | .contextSwitch _ | .palloc | .kalloc _ | .kfree _ => True

theorem outOfFrames_iff (s : Supply) :
    s.OutOfFrames ↔ (kalloc s.pmm sizeofProcedure).1 = NULL := by
  rw [OutOfFrames, kalloc_eq s.pmm (show sizeofProcedure ≠ 0#64 by decide)]
  cases hfree : s.pmm.firstFree with
  | none => simp
  | some i => simp

/-- A record that a call changes is among its stores. -/
theorem stores_cover_procs (s : Supply) (c : SupplyCall) {q : Ptr}
    (hq : (s.exec c).sched.procs q ≠ s.sched.procs q) : .proc q ∈ s.stores c := by
  cases c with
  | createProc a =>
      rcases createProc_cases s.pmm s.sched a with ⟨_, heq⟩ | ⟨hne, heq⟩
      · exact absurd (by simp [exec, heq]) hq
      · by_cases hqp : q = (kalloc s.pmm sizeofProcedure).1
        · simp [stores_createProc, hne, hqp]
        · exact absurd (by simp [exec, heq, Sched.spawned, Sched.update, hqp]) hq
  | registerProc p =>
      rcases registerProc_cases s.sched p with ⟨_, heq⟩ | ⟨hlt, _, heq⟩ | ⟨hlt, _, heq⟩
      · exact absurd (by simp [exec, heq]) hq
      all_goals
        by_cases hqp : q = p
        · simp [stores_registerProc, Nat.not_le_of_lt hlt, hqp]
        · exact absurd (by
            simp [exec, heq, Sched.started, Sched.appended, Sched.setState, Sched.update, hqp]) hq
  | contextSwitch cpu =>
      rcases contextSwitch_cases s.sched cpu with ⟨heq, _⟩ | ⟨next, hnext, heq⟩
      · exact absurd (by simp [exec, Sched.after_eq_self heq]) hq
      · obtain ⟨rfl, hne, hcur⟩ := hnext
        by_cases hqn : q = findNextProc s.sched
        · rw [stores_contextSwitch, if_neg (not_or.mpr ⟨hne, hcur⟩)]
          split <;> simp [hqn]
        · by_cases hqc : s.sched.currentProc ≠ NULL ∧ q = s.sched.currentProc
          · simp [stores_contextSwitch, hne, hcur, hqc.1, hqc.2]
          · exact absurd (by simp [exec, Sched.after, heq, Exit.sched, Sched.switched, hqn, hqc]) hq
  | stack => exact absurd rfl hq
  | palloc => exact absurd rfl hq
  | kalloc size => exact absurd rfl hq
  | kfree ptr => exact absurd rfl hq

/-- So is the word that a call writes to the top of a stack. -/
theorem stores_cover_stackWords (s : Supply) (c : SupplyCall) {x : Ptr}
    (hx : (s.exec c).sched.stackWords x ≠ s.sched.stackWords x) :
    ∃ a, c = .createProc a ∧ .stack a.stackBase ∈ s.stores c ∧
      x = a.stackBase + a.stackSize - 8#64 := by
  cases c with
  | createProc a =>
      rcases createProc_cases s.pmm s.sched a with ⟨_, heq⟩ | ⟨hne, heq⟩
      · exact absurd (by simp [exec, heq]) hx
      · refine ⟨a, rfl, by simp [stores_createProc, hne], ?_⟩
        by_contra hxa
        exact hx (by simp [exec, heq, Sched.spawned, hxa])
  | registerProc p =>
      rcases registerProc_cases s.sched p with ⟨_, heq⟩ | ⟨_, _, heq⟩ | ⟨_, _, heq⟩
      all_goals exact absurd (by
        simp [exec, heq, Sched.started, Sched.appended, Sched.setState, Sched.update]) hx
  | contextSwitch cpu =>
      rcases contextSwitch_cases s.sched cpu with ⟨heq, _⟩ | ⟨next, _, heq⟩
      · exact absurd (by simp [exec, Sched.after_eq_self heq]) hx
      · exact absurd (by simp [exec, Sched.after, heq, Exit.sched]) hx
  | stack => exact absurd rfl hx
  | palloc => exact absurd rfl hx
  | kalloc size => exact absurd rfl hx
  | kfree ptr => exact absurd rfl hx

section Judge

variable {s : Supply} (hlisted : NULL ∉ s.sched.procList)
include hlisted

/-- The search asks listed processes only. -/
theorem null_not_looked_up : .procState NULL ∉ findNextProcCode.trace s.sched :=
  fun hmem => hlisted (findNextProcCode_confined s.sched _ hmem)

/-- A call that stores through no NULL and leaves the list and the current process. -/
theorem unharmed_of_kept {c : SupplyCall} (hstores : ∀ w ∈ s.stores c, w.base ≠ NULL)
    (hlist : (s.exec c).sched.procList = s.sched.procList)
    (hcur : s.Fails c → (s.exec c).sched.currentProc = s.sched.currentProc) :
    s.Unharmed c (s.exec c) where
  stores := hstores
  lookups := fun _ _ => null_not_looked_up hlisted
  listed := by
    rw [hlist]
    exact hlisted
  failed := fun hfails => ⟨hlist, congrArg List.length hlist, hcur hfails⟩

theorem unharmed_createProc (a : ProcArgs) :
    s.Unharmed (.createProc a) (s.exec (.createProc a)) ↔ s.Provided (.createProc a) := by
  have hexec : ∀ p pmm t, createProc s.pmm s.sched a = (p, pmm, t) →
      (s.exec (.createProc a)).sched = t := fun p pmm t h => by simp [exec, h]
  rw [Provided, outOfFrames_iff]
  rcases createProc_cases s.pmm s.sched a with ⟨hnull, heq⟩ | ⟨hne, heq⟩
  · have hsched := hexec _ _ _ heq
    refine ⟨fun _ => Or.inr hnull, fun _ => unharmed_of_kept hlisted ?_ ?_ ?_⟩
    · simp [stores_createProc, hnull]
    · rw [hsched]
    · rw [hsched]
      exact fun _ => rfl
  · have hsched := hexec _ _ _ heq
    have hstores := s.stores_createProc a
    rw [if_neg hne] at hstores
    constructor
    · intro h
      refine Or.inl (h.stores (.stack a.stackBase) ?_)
      simp [hstores]
    · intro hbase
      refine unharmed_of_kept hlisted ?_ ?_ ?_
      · rw [hstores]
        simpa [SchedStore.base, hne] using hbase.resolve_right hne
      · rw [hsched]
        rfl
      · rw [hsched]
        exact fun _ => rfl

theorem unharmed_registerProc (p : Ptr) :
    s.Unharmed (.registerProc p) (s.exec (.registerProc p)) ↔ s.Provided (.registerProc p) := by
  by_cases hfull : maxProcs ≤ s.sched.procCount
  · have hsame : (s.exec (.registerProc p)).sched = s.sched := if_pos hfull
    refine ⟨fun _ => Or.inr hfull, fun _ => unharmed_of_kept hlisted ?_ ?_ ?_⟩
    · simp [stores_registerProc, hfull]
    · rw [hsame]
    · rw [hsame]
      exact fun _ => rfl
  · have hstores := s.stores_registerProc p
    rw [if_neg hfull] at hstores
    have hlist : (s.exec (.registerProc p)).sched.procList = s.sched.procList ++ [p] := by
      rcases registerProc_cases s.sched p with ⟨hle, _⟩ | ⟨_, _, heq⟩ | ⟨_, _, heq⟩
      · exact absurd hle hfull
      · exact congrArg Sched.procList heq
      · exact congrArg Sched.procList heq
    constructor
    · intro h
      exact Or.inl (h.stores (.proc p) (by simp [hstores]))
    · intro hp
      have hp : p ≠ NULL := hp.resolve_right hfull
      refine ⟨by split at hstores <;> simpa [hstores, SchedStore.base] using hp,
        fun _ _ => null_not_looked_up hlisted, ?_, fun hfails => absurd hfails hp⟩
      rw [hlist, List.mem_append, List.mem_singleton]
      exact fun h => h.elim hlisted (fun heq => hp heq.symm)

theorem unharmed_contextSwitch (cpu : Cpu) :
    s.Unharmed (.contextSwitch cpu) (s.exec (.contextSwitch cpu)) := by
  refine unharmed_of_kept hlisted ?_ (Sched.after_procList _ _) (fun hfails => hfails.elim)
  rw [stores_contextSwitch]
  split_ifs with hskip hprev
  · exact List.forall_mem_nil _
  · have hnext := (not_or.mp hskip).1
    simpa [SchedStore.base] using hnext
  · have hnext := (not_or.mp hskip).1
    simpa [SchedStore.base] using ⟨hprev, hnext⟩

theorem unharmed_iff (c : SupplyCall) : s.Unharmed c (s.exec c) ↔ s.Provided c := by
  cases c with
  | createProc a => exact unharmed_createProc hlisted a
  | registerProc p => exact unharmed_registerProc hlisted p
  | contextSwitch cpu => exact iff_of_true (unharmed_contextSwitch hlisted cpu) trivial
  | stack =>
      exact iff_of_true (unharmed_of_kept hlisted (List.forall_mem_nil _) rfl (fun _ => rfl))
        trivial
  | palloc =>
      exact iff_of_true (unharmed_of_kept hlisted (List.forall_mem_nil _) rfl (fun _ => rfl))
        trivial
  | kalloc size =>
      exact iff_of_true (unharmed_of_kept hlisted (List.forall_mem_nil _) rfl (fun _ => rfl))
        trivial
  | kfree ptr =>
      exact iff_of_true (unharmed_of_kept hlisted (List.forall_mem_nil _) rfl (fun _ => rfl))
        trivial

end Judge

end Supply

/-- A run keeps clear of NULL exactly if it is one in which stacks are used and processes
registered only as they have been provided. -/
theorem creations_safe_iff (pmm : Pmm) (s : Sched) (calls : List SupplyCall) (t : Supply) :
    Run (fun u c u' => u.Step c u' ∧ u.Unharmed c u') (Supply.start pmm s) calls t ↔
      Run (fun u c u' => u.Step c u' ∧ u.Provided c) (Supply.start pmm s) calls t := by
  refine Run.congr_along (fun u => NULL ∉ u.sched.procList) ?_
    (fun _ _ _ _ _ hgood => hgood.listed) (List.not_mem_nil)
  rintro u c _ hlisted ⟨_, rfl⟩
  exact Supply.unharmed_iff hlisted c

namespace Sample

/-- An allocator whose bitmap is empty. -/
def noFrames : Pmm where
  mem := fun _ => 0#8
  file := {
    base := 0x100000#64
    length := 0#64
    type := 0#32
    flags := 0#32
    reserved := 0#32
    bitmapBase := 0x200000#64
    bitmapLength := 0#64
    bitmapFile := { base := 0x200000#64, length := 0#64, type := 0#32 } }

/-- What `test_sched` passes on when `palloc` has returned NULL. -/
def nullStack : ProcArgs where
  entryPoint := 0x1000#64
  privilegeLevel := 0#8
  stackBase := NULL
  stackSize := 4096#64

end Sample

open Sample in
/-- Without a frame NULL is registered, and its state written. -/
theorem creation_registers_null :
    ∃ t, Run Supply.Step (Supply.start noFrames idleSched)
        [.stack, .createProc nullStack, .registerProc NULL] t ∧
      NULL ∈ t.sched.procList ∧
      ¬ Run (fun u c u' => u.Step c u' ∧ u.Unharmed c u') (Supply.start noFrames idleSched)
        [.stack, .createProc nullStack, .registerProc NULL] t := by
  have hstack : NULL ∈ ((Supply.start noFrames idleSched).exec .stack).stackBases := by decide
  have hresult : NULL ∈ (((Supply.start noFrames idleSched).exec .stack).exec
      (.createProc nullStack)).results := by decide
  refine ⟨_, Run.cons ⟨trivial, rfl⟩ (Run.cons ⟨⟨hstack, rfl⟩, rfl⟩
    (Run.cons ⟨hresult, rfl⟩ (Run.nil _))), by decide, ?_⟩
  rintro (_ | ⟨hfirst, _ | ⟨hsecond, _ | ⟨hthird, _⟩⟩⟩)
  obtain ⟨⟨_, rfl⟩, _⟩ := hfirst
  obtain ⟨⟨_, rfl⟩, _⟩ := hsecond
  exact hthird.2.stores (.proc NULL) (by decide) rfl

end Asnu
