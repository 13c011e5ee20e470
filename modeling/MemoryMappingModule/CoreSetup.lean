import MemoryMappingModule.SetupCode

/-! `SetupIBAT4DBAT5OnAllCores` with the registers of the cores. Each thread it starts runs the
code that it wrote to the window, on the core that the thread is bound to. In memory and in its
calls the run is that of `BorrowedWindow`; besides, every core ends up with the four registers
set, if there was memory for the threads. -/

namespace MemoryMappingModule.CoreSetup

open StepLoop PowerPc ByteMemory TranslatedMemory MappingLayout KernelWrites SystemCalls
open BorrowedWindow SetupCode Filter

open ThreadObjects (affinities eAttributeAffCore0 eAttributeAffCore1 eAttributeAffCore2)

/-- What runs the threads: how the kernel serves system calls, what a new thread finds in its
registers, and where it goes when it is done. -/
structure Runtime where
  call : (handlers : Word → Option Word) → (fetch : Word → Word) → Cpu → Option Cpu
  gpr : Gpr → Word
  exit : Word

abbrev Cores := Fin 3 → Spr → Word

structure Node where
  state : State
  handlers : Word → Option Word
  cores : Cores

section Program

variable (rt : Runtime) (mach : Machine) (frame : Frame) (passes : ℕ) (pThread pThreadStack : U32)

def fetched (m : Contents 32) : Word → Word := fun a => loadWord mach.osEffectiveToPhysical a m

def entered (spr : Spr → Word) : Cpu :=
  ⟨sc0x51CallAddress, false, rt.gpr, Function.update spr lr rt.exit⟩

/-- The registers of a core after a thread ran on it. What belongs to threads and interrupts is
not followed. -/
def threadRegisters (handlers : Word → Option Word) (m : Contents 32) (spr : Spr → Word) :
    Option (Spr → Word) :=
  let fetch := fetched mach m
  match run (routinePass (rt.call handlers fetch) fetch (entered rt spr).returnAddress) passes
    (entered rt spr) with
  | some (.ok c) => some fun r => if Passing r then spr r else c.spr r
  | _ => none

def started (aff : U32) (s : State) : State :=
  let s := perform mach (.memset pThread mach.sizeofOSThread) s
  let s := perform mach (.memset pThreadStack iStackSize) s
  let s := perform mach (.osCreateThread pThread sc0x51CallAddress (pThreadStack + iStackSize)
    iStackSize 16 aff) s
  perform mach (.onThread .osResumeThread pThread) s

def runThreadOn (node : Node) (core : U32 × Fin 3) : Option Node := do
  let s ← runThread mach passes pThread pThreadStack core.1 node.state
  let spr ← threadRegisters rt mach passes node.handlers
    (started mach pThread pThreadStack core.1 node.state).memory (node.cores core.2)
  return { node with state := s, cores := Function.update node.cores core.2 spr }

def runThreads (node : Node) : Option Node :=
  if pThread ≠ 0 ∧ pThreadStack ≠ 0 then
    affinities.foldlM (runThreadOn rt mach passes pThread pThreadStack) node
  else some node

/-- `SetupIBAT4DBAT5OnAllCores` -/
def setupOnCores (node : Node) : Option Node := do
  let s ← write mach frame passes frame.backupBuffer targetAddressExecutableMem sizeofBackupBuffer
    node.state
  let s ← writeCode mach frame passes s
  let s := perform mach (.kernelPatchSyscall 0x51 scSetupIBAT4DBAT5Address) s
  let handlers := Function.update node.handlers 0x51 (some scSetupIBAT4DBAT5Address)
  let s := perform mach (.memAlloc mach.sizeofOSThread 0x10 pThread) s
  let s := perform mach (.memAlloc iStackSize 0x20 pThreadStack) s
  let node ← runThreads rt mach passes pThread pThreadStack ⟨s, handlers, node.cores⟩
  let s := freeBuffers mach pThread pThreadStack node.state
  let s ← write mach frame passes targetAddressExecutableMem frame.backupBuffer sizeofBackupBuffer s
  return { node with state := s }

end Program

section Refinement

variable {rt : Runtime} {mach : Machine} {frame : Frame} {passes : ℕ} {pThread pThreadStack : U32}
  {node node' : Node}

theorem runThreadOn_state {core : U32 × Fin 3}
    (hrun : runThreadOn rt mach passes pThread pThreadStack node core = some node') :
    runThread mach passes pThread pThreadStack core.1 node.state = some node'.state := by
  simp only [runThreadOn, Option.bind_eq_bind, Option.bind_eq_some_iff] at hrun
  obtain ⟨s, hs, spr, _, hnode⟩ := hrun
  rw [hs, ← Option.some.inj hnode]

theorem runThreadsOn_state {cores : List (U32 × Fin 3)}
    (hrun : cores.foldlM (runThreadOn rt mach passes pThread pThreadStack) node = some node') :
    (cores.map Prod.fst).foldlM (fun s aff => runThread mach passes pThread pThreadStack aff s)
      node.state = some node'.state := by
  induction cores generalizing node with
  | nil => rw [← Option.some.inj hrun, List.map_nil, List.foldlM_nil, Option.pure_def]
  | cons core cores ih =>
    rw [List.foldlM_cons, Option.bind_eq_bind, Option.bind_eq_some_iff] at hrun
    obtain ⟨ran, hfirst, hrest⟩ := hrun
    rw [List.map_cons, List.foldlM_cons, runThreadOn_state hfirst, Option.bind_eq_bind,
      Option.bind_some]
    exact ih hrest

theorem runThreads_state
    (hrun : runThreads rt mach passes pThread pThreadStack node = some node') :
    (if pThread ≠ 0 ∧ pThreadStack ≠ 0 then
      [eAttributeAffCore2, eAttributeAffCore1, eAttributeAffCore0].foldlM
        (fun s aff => runThread mach passes pThread pThreadStack aff s) node.state
    else some node.state) = some node'.state := by
  rw [runThreads] at hrun
  split_ifs at hrun ⊢
  · exact runThreadsOn_state hrun
  · rw [Option.some.inj hrun]

/-- In memory and calls a run is one of the function without the cores. -/
theorem setupOnCores_state
    (hrun : setupOnCores rt mach frame passes pThread pThreadStack node = some node') :
    setupIBAT4DBAT5OnAllCores mach frame passes pThread pThreadStack node.state =
      some node'.state := by
  simp only [setupOnCores, Option.bind_eq_bind, Option.bind_eq_some_iff] at hrun
  obtain ⟨saved, hsave, coded, hcode, ran, hthreads, restored, hrestore, hnode⟩ := hrun
  have hstate := runThreads_state hthreads
  simp only [setupIBAT4DBAT5OnAllCores, Option.bind_eq_bind, runOnCores]
  rw [hsave, Option.bind_some, hcode, Option.bind_some, hstate, Option.map_some, Option.bind_some,
    hrestore, ← Option.some.inj hnode]

end Refinement

section Threads

variable {rt : Runtime} {mach : Machine} {pThread pThreadStack : U32} {m : Contents 32}

theorem listing_of_holds {a : U32} {words : List U32} {is : List Instruction}
    (hdecode : words.map decode = is.map some) (hholds : Holds mach a words m) :
    Listing (fetched mach m) a is := by
  have hlength : words.length = is.length := by simpa using congrArg List.length hdecode
  intro k hk
  have hword : fetched mach m (a + BitVec.ofNat 32 (4 * k)) = words[k] := by
    refine loadWord_eq fun i hi => ?_
    rw [add_ofNat_add]
    exact hholds k (hlength ▸ hk) i hi
  have hk' : k < words.length := hlength ▸ hk
  have hlisted : (words.map decode)[k]? = (is.map some)[k]? := by rw [hdecode]
  rw [List.getElem?_map, List.getElem?_map, List.getElem?_eq_getElem hk',
    List.getElem?_eq_getElem hk] at hlisted
  rw [hword]
  exact Option.some.inj hlisted

theorem scSetupIBAT4DBAT5_of_passing {spr : Spr → Word} {r : Spr} (hr : Passing r) :
    scSetupIBAT4DBAT5 spr r = spr r := by
  have hset (b : Spr) (hb : ¬ Passing b) : r ≠ b := by
    rintro rfl
    exact hb hr
  rw [scSetupIBAT4DBAT5, Function.update_of_ne (hset 571 (by decide)),
    Function.update_of_ne (hset 570 (by decide)), Function.update_of_ne (hset 561 (by decide)),
    Function.update_of_ne (hset 560 (by decide))]

theorem scSetupIBAT4DBAT5_idem (spr : Spr → Word) :
    scSetupIBAT4DBAT5 (scSetupIBAT4DBAT5 spr) = scSetupIBAT4DBAT5 spr := by
  funext r
  simp only [scSetupIBAT4DBAT5, Function.update_apply]
  split_ifs <;> rfl

/-- The kernel serves system calls, and neither it nor a thread that is done goes on in the
window. -/
structure Runtime.Serving (rt : Runtime) : Prop where
  serves : ∀ handlers fetch, Serves handlers fetch windowᶜ (rt.call handlers fetch)
  exit : rt.exit &&& 0xFFFFFFFC ∉ window

def code : List U32 := sSCSetupIBAT4DBAT5Buffer ++ sSC0x51Buffer ++ sSC0x51CallBuffer

variable {handlers : Word → Option Word} (hrt : rt.Serving)
include hrt

theorem threadRegisters_eq (hholds : Holds mach targetAddressExecutableMem code m)
    (hhandler : handlers 0x51 = some scSetupIBAT4DBAT5Address) (spr : Spr → Word) :
    ∀ᶠ passes in atTop, threadRegisters rt mach passes handlers m spr =
      some (scSetupIBAT4DBAT5 spr) := by
  have hret : (entered rt spr).returnAddress ∉ window := by
    change Function.update spr lr rt.exit lr &&& _ ∉ window
    rw [Function.update_self]
    exact hrt.exit
  have hwindow : Listing (fetched mach m) targetAddressExecutableMem windowListing :=
    listing_of_holds decode_code hholds
  obtain ⟨c, _, hkept, hrun⟩ := thread_returns hwindow hhandler (hrt.serves _ _) rfl hret
  have hregisters : (fun r => if Passing r then spr r else c.spr r) = scSetupIBAT4DBAT5 spr := by
    funext r
    split_ifs with hr
    · exact (scSetupIBAT4DBAT5_of_passing hr).symm
    · have hlr : r ≠ lr := by
        rintro rfl
        exact hr (by decide)
      rw [hkept r hr]
      exact scSetupIBAT4DBAT5_congr (Function.update_of_ne hlr _ _)
  filter_upwards [eventually_run (hrun 0)] with passes hpasses
  rw [threadRegisters, hpasses, ← hregisters]

section Kept

variable (hspared : Spared mach pThread pThreadStack (mach.osEffectiveToPhysical '' window))
  {node : Node}
include hspared

omit hrt in
theorem started_kept (hthread : pThread ≠ 0) (hstack : pThreadStack ≠ 0) (aff : U32) (s : State) :
    Kept (mach.osEffectiveToPhysical '' window) s (started mach pThread pThreadStack aff s) := by
  have hcleared := (perform_memset_kept (s := s) (hspared.thread hthread)).trans
    (perform_memset_kept (hspared.stack hstack))
  have hcreate := hcleared.trans (perform_kept hspared (c := .osCreateThread pThread
    sc0x51CallAddress (pThreadStack + iStackSize) iStackSize 16 aff)
    ⟨rfl, hthread, rfl, rfl, rfl, hstack⟩)
  exact hcreate.trans (perform_kept hspared (c := .onThread .osResumeThread pThread)
    ⟨rfl, hthread, by simp⟩)

omit hrt hspared in
theorem Holds.of_kept {s s' : State} {words : List U32} (hlength : words.length ≤ 29)
    (hholds : Holds mach targetAddressExecutableMem words s.memory)
    (hkept : Kept (mach.osEffectiveToPhysical '' window) s s') :
    Holds mach targetAddressExecutableMem words s'.memory := by
  intro j hj k hk
  rw [hkept.memory (Set.mem_image_of_mem _ (add_mem_span _ (by omega)))]
  exact hholds j hj k hk

structure Ready (mach : Machine) (node : Node) : Prop where
  holds : Holds mach targetAddressExecutableMem code node.state.memory
  handler : node.handlers 0x51 = some scSetupIBAT4DBAT5Address

theorem runThreadOn_ends (hos : mach.os.Resumes) (hthread : pThread ≠ 0) (hstack : pThreadStack ≠ 0)
    (hready : Ready mach node) (core : U32 × Fin 3) :
    ∃ node', Ready mach node' ∧
      node'.cores = Function.update node.cores core.2 (scSetupIBAT4DBAT5 (node.cores core.2)) ∧
      ∀ᶠ passes in atTop,
        runThreadOn rt mach passes pThread pThreadStack node core = some node' := by
  obtain ⟨s', hkept, hrun⟩ := runThread_ends hspared hos hthread hstack core.1 node.state
  have hstarted := Holds.of_kept (by decide) hready.holds
    (started_kept hspared hthread hstack core.1 node.state)
  refine ⟨{ node with
    state := s'
    cores := Function.update node.cores core.2 (scSetupIBAT4DBAT5 (node.cores core.2)) },
    ⟨Holds.of_kept (by decide) hready.holds hkept, hready.handler⟩, rfl, ?_⟩
  filter_upwards [hrun, threadRegisters_eq hrt hstarted hready.handler (node.cores core.2)]
    with passes hpasses hregisters
  rw [runThreadOn, hpasses, hregisters]
  rfl

theorem runThreadsOn_end (hos : mach.os.Resumes) (hthread : pThread ≠ 0) (hstack : pThreadStack ≠ 0)
    (hready : Ready mach node) (cores : List (U32 × Fin 3)) :
    ∃ node', (∀ i, node'.cores i = if i ∈ cores.map Prod.snd then scSetupIBAT4DBAT5 (node.cores i)
        else node.cores i) ∧
      ∀ᶠ passes in atTop,
        cores.foldlM (runThreadOn rt mach passes pThread pThreadStack) node = some node' := by
  induction cores generalizing node with
  | nil => exact ⟨node, fun i => by simp, Eventually.of_forall fun _ => rfl⟩
  | cons core cores ih =>
    obtain ⟨ran, hready', hcores, hfirst⟩ :=
      runThreadOn_ends hrt hspared hos hthread hstack hready core
    obtain ⟨node', hset, hrest⟩ := ih hready'
    refine ⟨node', fun i => ?_, ?_⟩
    · rw [hset i, hcores]
      by_cases hi : i = core.2
      · subst hi
        rw [Function.update_self, scSetupIBAT4DBAT5_idem, ite_self, List.map_cons,
          if_pos List.mem_cons_self]
      · rw [Function.update_of_ne hi]
        simp only [List.map_cons, List.mem_cons, hi, false_or]
    · filter_upwards [hfirst, hrest] with passes hpasses hpasses'
      rw [List.foldlM_cons, hpasses]
      exact hpasses'

theorem runThreads_end (hos : mach.os.Resumes) (hready : Ready mach node) :
    ∃ node', (∀ i, node'.cores i = if pThread ≠ 0 ∧ pThreadStack ≠ 0 then
        scSetupIBAT4DBAT5 (node.cores i) else node.cores i) ∧
      ∀ᶠ passes in atTop, runThreads rt mach passes pThread pThreadStack node = some node' := by
  by_cases hboth : pThread ≠ 0 ∧ pThreadStack ≠ 0
  · obtain ⟨node', hset, hrun⟩ :=
      runThreadsOn_end hrt hspared hos hboth.1 hboth.2 hready affinities
    have hall : ∀ i : Fin 3, i ∈ affinities.map Prod.snd := by decide
    refine ⟨node', fun i => ?_, ?_⟩
    · rw [hset i, if_pos (hall i), if_pos hboth]
    · filter_upwards [hrun] with passes hpasses
      rw [runThreads, if_pos hboth, hpasses]
  · refine ⟨node, fun i => (if_neg hboth).symm, Eventually.of_forall fun passes => ?_⟩
    rw [runThreads, if_neg hboth]

end Kept

end Threads

section Guarantees

/-- The arrays of code are in memory, apart from all that the function writes. -/
structure CodeHeld (mach : Machine) (frame : Frame) (m : Contents 32) : Prop where
  setup : Holds mach frame.sSCSetupIBAT4DBAT5Buffer sSCSetupIBAT4DBAT5Buffer m
  syscall : Holds mach frame.sSC0x51Buffer sSC0x51Buffer m
  call : Holds mach frame.sSC0x51CallBuffer sSC0x51CallBuffer m
  setupApart : Disjoint (borrowed mach frame)
    (mach.osEffectiveToPhysical '' span frame.sSCSetupIBAT4DBAT5Buffer 56)
  syscallApart : Disjoint (borrowed mach frame)
    (mach.osEffectiveToPhysical '' span frame.sSC0x51Buffer 48)
  callApart : Disjoint (borrowed mach frame)
    (mach.osEffectiveToPhysical '' span frame.sSC0x51CallBuffer 12)

variable {rt : Runtime} {mach : Machine} {frame : Frame} {pThread pThreadStack : U32}
  {m : Contents 32} {stack : Set U32}

theorem windowTouched_subset : windowTouched mach frame ⊆ borrowed mach frame :=
  Set.image_mono (Set.union_subset_union_right _ Set.subset_union_right)

theorem held_saved (hcopies : Copies mach.kernelCopyData) (h : Borrows mach frame stack)
    {a : U32} {words : List U32} {s : State} (hholds : Holds mach a words s.memory)
    (hapart : Disjoint (borrowed mach frame)
      (mach.osEffectiveToPhysical '' span a (4 * words.length))) :
    Held mach frame a words
      (wrote mach frame frame.backupBuffer targetAddressExecutableMem 29 s).memory := by
  have hsaved := wrote_differsIn hcopies h.backupWritable targetAddressExecutableMem s
  have hstack : touched mach.toKernel frame.value frame.backupBuffer 29 ⊆ borrowed mach frame :=
    Set.image_mono Set.subset_union_right
  exact ⟨hholds.of_differsIn hsaved (hapart.mono_left hstack),
    hapart.mono_left windowTouched_subset⟩

theorem setupOnCores_ends (hcopies : Copies mach.kernelCopyData)
    (h : Borrows mach frame stack) (hos : mach.os.Resumes) (hrt : rt.Serving)
    (hspared : Spared mach pThread pThreadStack (mach.osEffectiveToPhysical '' window))
    {node : Node} (hcode : CodeHeld mach frame node.state.memory) :
    ∃ node', (∀ᶠ passes in atTop,
        setupOnCores rt mach frame passes pThread pThreadStack node = some node') ∧
      ∀ i, node'.cores i = if pThread ≠ 0 ∧ pThreadStack ≠ 0 then
        scSetupIBAT4DBAT5 (node.cores i) else node.cores i := by
  have hsize : sizeofBackupBuffer.toNat = 4 * 29 := by decide
  set saved := wrote mach frame frame.backupBuffer targetAddressExecutableMem 29 node.state
  set coded := codeWritten mach frame saved
  have hholds : Holds mach targetAddressExecutableMem code coded.memory :=
    codeWritten_holds hcopies h (held_saved hcopies h hcode.setup hcode.setupApart)
      (held_saved hcopies h hcode.syscall hcode.syscallApart)
      (held_saved hcopies h hcode.call hcode.callApart)
  set patched := perform mach (.kernelPatchSyscall 0x51 scSetupIBAT4DBAT5Address) coded
  have hpatched : Kept _ coded patched := perform_kept hspared ⟨rfl, rfl⟩
  set given := perform mach (.memAlloc iStackSize 0x20 pThreadStack)
    (perform mach (.memAlloc mach.sizeofOSThread 0x10 pThread) patched)
  have hgiven : Kept _ patched given :=
    (perform_kept hspared (c := .memAlloc mach.sizeofOSThread 0x10 pThread)
      (Or.inl ⟨rfl, rfl, rfl⟩)).trans
      (perform_kept hspared (c := .memAlloc iStackSize 0x20 pThreadStack) (Or.inr ⟨rfl, rfl, rfl⟩))
  set handlers := Function.update node.handlers 0x51 (some scSetupIBAT4DBAT5Address)
  have hhandler : handlers 0x51 = some scSetupIBAT4DBAT5Address := Function.update_self ..
  have hready : Ready mach ⟨given, handlers, node.cores⟩ :=
    ⟨Holds.of_kept (by decide) hholds (hpatched.trans hgiven), hhandler⟩
  obtain ⟨ran, hset, hthreads⟩ := runThreads_end hrt hspared hos hready
  set freed := freeBuffers mach pThread pThreadStack ran.state
  refine ⟨{ ran with
    state := wrote mach frame targetAddressExecutableMem frame.backupBuffer 29 freed }, ?_, hset⟩
  filter_upwards [write_eq hsize frame.backupBuffer targetAddressExecutableMem node.state,
    writeCode_eq mach frame saved, hthreads,
    write_eq hsize targetAddressExecutableMem frame.backupBuffer freed]
    with passes hsave hcode hthread hrestore
  simp only [setupOnCores, Option.bind_eq_bind]
  rw [hsave, Option.bind_some, hcode, Option.bind_some, hthread, Option.bind_some, hrestore]
  rfl

/-- The threads run what was written to the window: in the end every core has the four registers
set, exactly if there was memory for a thread and its stack, and no other register of a core is
changed. In memory and calls the run is that of `SetupIBAT4DBAT5OnAllCores`. -/
theorem setupOnCores_registers (hcopies : Copies mach.kernelCopyData)
    (h : Borrows mach frame stack) (hos : mach.os.Resumes) (hrt : rt.Serving)
    (hspared : Spared mach pThread pThreadStack (mach.osEffectiveToPhysical '' window))
    (node : Node) (hcode : CodeHeld mach frame node.state.memory) :
    ∃ node', (∀ᶠ passes in atTop,
        setupOnCores rt mach frame passes pThread pThreadStack node = some node' ∧
        setupIBAT4DBAT5OnAllCores mach frame passes pThread pThreadStack node.state =
          some node'.state) ∧
      ∀ i, node'.cores i = if pThread ≠ 0 ∧ pThreadStack ≠ 0 then
        scSetupIBAT4DBAT5 (node.cores i) else node.cores i := by
  obtain ⟨node', hends, hset⟩ := setupOnCores_ends hcopies h hos hrt hspared hcode
  refine ⟨node', ?_, hset⟩
  filter_upwards [hends] with passes hrun
  exact ⟨hrun, setupOnCores_state hrun⟩

end Guarantees

section Sample

open Classical in
noncomputable def serveCall (handlers : Word → Option Word) (fetch : Word → Word) (c : Cpu) :
    Option Cpu :=
  (handlers (c.gpr 0 >>> 8)).bind fun entry =>
    let start : Cpu := ⟨entry, true, c.gpr, Function.update c.spr lr 0xFFF00000⟩
    if hstop : ∃ stop n, run (routinePass (fun _ => none) fetch 0xFFF00000) n start =
        some (.ok stop) then
      some ⟨c.pc + 4, c.supervisor, hstop.choose.gpr,
        Function.update hstop.choose.spr lr (c.spr lr)⟩
    else none

theorem serveCall_serves (handlers : Word → Option Word) (fetch : Word → Word) :
    Serves handlers fetch windowᶜ (serveCall handlers fetch) := by
  refine ⟨fun c entry hentry => ?_⟩
  have hkept (spr : Spr → Word) (w : Word) {r : Spr} (hr : ¬ Passing r) :
      Function.update spr lr w r = spr r := by
    refine Function.update_of_ne ?_ _ _
    rintro rfl
    exact hr (by decide)
  set start : Cpu := ⟨entry, true, c.gpr, Function.update c.spr lr 0xFFF00000⟩
  have hreturn : start.returnAddress = 0xFFF00000 := by
    change Function.update c.spr lr 0xFFF00000 lr &&& 0xFFFFFFFC = _
    rw [Function.update_self]
    rfl
  refine ⟨start, rfl, rfl, ?_, fun r hr => hkept _ _ hr, fun n stop hrun => ?_⟩
  · rw [hreturn]
    change ¬ (0xFFF00000 - targetAddressExecutableMem).toNat < 0x74
    decide
  · rw [hreturn] at hrun
    have hstop : ∃ stop n, run (routinePass (fun _ => none) fetch 0xFFF00000) n start =
        some (.ok stop) := ⟨stop, n, hrun⟩
    have hsame : hstop.choose = stop := by
      obtain ⟨k, hk⟩ := hstop.choose_spec
      have hboth := (run_mono hk (le_max_left k n)).symm.trans (run_mono hrun (le_max_right k n))
      simpa using hboth
    have hlr : Function.update stop.spr lr (c.spr lr) lr = c.spr lr := Function.update_self ..
    refine ⟨⟨c.pc + 4, c.supervisor, stop.gpr, Function.update stop.spr lr (c.spr lr)⟩, ?_, rfl,
      rfl, hlr, fun r hr => hkept _ _ hr⟩
    rw [serveCall, hentry, Option.bind_some, dif_pos hstop, hsame]

noncomputable def sampleRuntime : Runtime := ⟨serveCall, fun _ => 0, 0x01000000⟩

theorem sampleRuntime_serving : sampleRuntime.Serving where
  serves := serveCall_serves
  exit := by
    change ¬ ((0x01000000 &&& 0xFFFFFFFC : Word) - targetAddressExecutableMem).toNat < 0x74
    decide

def placeWords (a : U32) (words : List U32) (m : Contents 32) : Contents 32 := fun b =>
  match words[(b - a).toNat / 4]? with
  | some word => byteOf word ((b - a).toNat % 4)
  | none => m b

theorem placeWords_holds {a : U32} {words : List U32} (hlength : 4 * words.length ≤ 2 ^ 32)
    (m : Contents 32) :
    Holds shiftedMachine a words (placeWords (shiftedMachine.osEffectiveToPhysical a) words m) := by
  intro j hj k hk
  have hoffset : (shiftedMachine.osEffectiveToPhysical (a + BitVec.ofNat 32 (4 * j + k)) -
      shiftedMachine.osEffectiveToPhysical a).toNat = 4 * j + k := by
    change (a + BitVec.ofNat 32 (4 * j + k) + 0x20000000 - (a + 0x20000000)).toNat = _
    rw [BitVec.add_assoc, BitVec.add_comm (BitVec.ofNat 32 _), ← BitVec.add_assoc,
      BitVec.add_comm _ (BitVec.ofNat 32 _), BitVec.add_sub_cancel, BitVec.toNat_ofNat,
      Nat.mod_eq_of_lt (by omega)]
  have hword : (4 * j + k) / 4 = j := by omega
  have hbyte : (4 * j + k) % 4 = k := by omega
  rw [placeWords, hoffset, hword, hbyte, List.getElem?_eq_getElem hj]

theorem Holds.left {mach : Machine} {a : U32} {words more : List U32} {m : Contents 32}
    (hholds : Holds mach a (words ++ more) m) : Holds mach a words m := by
  intro j hj k hk
  rw [hholds j (by rw [List.length_append]; omega) k hk, List.getElem_append_left hj]

theorem Holds.right {mach : Machine} {a : U32} {words more : List U32} {m : Contents 32}
    (hholds : Holds mach a (words ++ more) m) :
    Holds mach (a + BitVec.ofNat 32 (4 * words.length)) more m := by
  intro j hj k hk
  have hbyte := hholds (words.length + j) (by rw [List.length_append]; omega) k hk
  rw [add_ofNat_add, ← Nat.add_assoc, ← Nat.mul_add, hbyte,
    List.getElem_append_right (Nat.le_add_right _ _)]
  simp only [Nat.add_sub_cancel_left]

def sampleArrays : List U32 :=
  sSCSetupIBAT4DBAT5Buffer ++ [0, 0] ++ sSC0x51Buffer ++ [0, 0, 0, 0] ++ sSC0x51CallBuffer

def sampleNode : Node :=
  ⟨⟨placeWords 0x30800000 sampleArrays sampleState.memory, [], []⟩, fun _ => none,
    fun _ _ => 0⟩

theorem sample_codeHeld : CodeHeld shiftedMachine sampleFrame sampleNode.state.memory := by
  have hholds : Holds shiftedMachine 0x10800000 sampleArrays sampleNode.state.memory :=
    placeWords_holds (by decide) sampleState.memory
  rw [sampleArrays] at hholds
  have hsyscall : (0x10800000 : U32) +
      BitVec.ofNat 32 (4 * (sSCSetupIBAT4DBAT5Buffer ++ [0, 0]).length) =
      sampleFrame.sSC0x51Buffer := by decide
  have hcall : (0x10800000 : U32) + BitVec.ofNat 32 (4 * (sSCSetupIBAT4DBAT5Buffer ++ [0, 0] ++
      sSC0x51Buffer ++ [0, 0, 0, 0]).length) = sampleFrame.sSC0x51CallBuffer := by decide
  have hapart {a : U32} {n : ℕ} (hwindow : Disjoint window (span a n))
      (hbackup : Disjoint (span sampleFrame.backupBuffer 0x74) (span a n))
      (hvalue : Disjoint (span sampleFrame.value 4) (span a n)) :
      Disjoint (borrowed shiftedMachine sampleFrame)
        (shiftedMachine.osEffectiveToPhysical '' span a n) :=
    Set.disjoint_image_of_injective shiftedMachine_injective
      (Set.disjoint_union_left.mpr ⟨hwindow, Set.disjoint_union_left.mpr ⟨hbackup, hvalue⟩⟩)
  exact {
    setup := Holds.left (Holds.left (Holds.left (Holds.left hholds)))
    syscall := hsyscall ▸ Holds.right (Holds.left (Holds.left hholds))
    call := hcall ▸ Holds.right hholds
    setupApart := hapart (disjoint_span (by decide) (by decide))
      (disjoint_span (by decide) (by decide)) (disjoint_span (by decide) (by decide))
    syscallApart := hapart (disjoint_span (by decide) (by decide))
      (disjoint_span (by decide) (by decide)) (disjoint_span (by decide) (by decide))
    callApart := hapart (disjoint_span (by decide) (by decide))
      (disjoint_span (by decide) (by decide)) (disjoint_span (by decide) (by decide)) }

theorem sample_spares_window : Spared shiftedMachine 0x11000000 0x11001000
    (shiftedMachine.osEffectiveToPhysical '' window) where
  effect h c m hc := by
    cases c with
    | osCreateThread thread entry stackTop stackSize priority attributes =>
      obtain ⟨rfl, -⟩ := hc
      refine storeWord_differsIn.kept (Set.disjoint_image_of_injective shiftedMachine_injective ?_)
      exact (disjoint_span (by decide) (by decide)).symm
    | _ => exact Set.eqOn_refl _ _
  thread _ := Set.disjoint_image_of_injective shiftedMachine_injective
    (disjoint_span (by decide) (by decide)).symm
  stack _ := Set.disjoint_image_of_injective shiftedMachine_injective
    (disjoint_span (by decide) (by decide)).symm

theorem sample_registers : ∃ node', (∀ᶠ passes in atTop,
      setupOnCores sampleRuntime shiftedMachine sampleFrame passes 0x11000000 0x11001000
        sampleNode = some node' ∧
      setupIBAT4DBAT5OnAllCores shiftedMachine sampleFrame passes 0x11000000 0x11001000
        sampleNode.state = some node'.state) ∧
    ∀ i, node'.cores i = if (0x11000000 : U32) ≠ 0 ∧ (0x11001000 : U32) ≠ 0 then
      scSetupIBAT4DBAT5 (sampleNode.cores i) else sampleNode.cores i :=
  setupOnCores_registers copyBetween_copies sample_borrows ThreadObjects.countingOS_resumes
    sampleRuntime_serving sample_spares_window sampleNode sample_codeHeld

end Sample

end MemoryMappingModule.CoreSetup
