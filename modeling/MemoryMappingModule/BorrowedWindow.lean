import MemoryMappingModule.KernelWrites
import MemoryMappingModule.ThreadObjects

/-! The window of executable memory that `SetupIBAT4DBAT5OnAllCores` borrows. It saves the
window on its stack, writes code over it, runs a thread there on every core and writes the
saved bytes back. -/

namespace MemoryMappingModule.BorrowedWindow

open StepLoop ByteMemory TranslatedMemory MappingLayout KernelWrites SystemCalls Filter

/-- What the function rests on besides the kernel: what the system answers and what its calls do
to memory. -/
structure Machine extends Kernel where
  os : OS
  effect : History → Call → Contents 32 → Contents 32
  sizeofOSThread : U32

section Setup

def sizeof (words : List U32) : U32 := BitVec.ofNat 32 (4 * words.length)

def sSCSetupIBAT4DBAT5Buffer : List U32 :=
  [0x7c0004ac, 0x7c0006ac, 0x4c00012c, 0x3d400080, 0x614a00ff, 0x7d508ba6, 0x3d203080, 0x61290012,
    0x7d318ba6, 0x7d5a8ba6, 0x7d3b8ba6, 0x7c0006ac, 0x4c00012c, 0x4e800020]

def targetAddressExecutableMem : U32 := 0x017FF000

def scSetupIBAT4DBAT5Address : U32 := targetAddressExecutableMem

def sSC0x51Buffer : List U32 :=
  [0x7c7082a6, 0x60630003, 0x7c7083a6, 0x7c7282a6, 0x60630003, 0x7c7283a6, 0x7c0006ac, 0x4c00012c,
    0x3c600000 ||| (scSetupIBAT4DBAT5Address >>> 16),
    0x60630000 ||| (scSetupIBAT4DBAT5Address &&& 0xFFFF),
    0x7c6903a6, 0x4e800420]

def sc0x51BufferAddress : U32 := scSetupIBAT4DBAT5Address + sizeof sSCSetupIBAT4DBAT5Buffer

def sc0x51CallAddress : U32 := sc0x51BufferAddress + sizeof sSC0x51Buffer

def sSC0x51CallBuffer : List U32 := [0x38005100, 0x44000002, 0x4e800020]

def sizeofBackupBuffer : U32 := 0x74

def iStackSize : U32 := 0x200

/-- Where the compiler puts what the function copies from and to. -/
structure Frame where
  backupBuffer : U32
  /-- The parameter of `KernelWriteU32`. -/
  value : U32
  sSCSetupIBAT4DBAT5Buffer : U32
  sSC0x51Buffer : U32
  sSC0x51CallBuffer : U32

structure State where
  memory : Contents 32
  history : History
  /-- Memory before and after each `KernelWrite`. -/
  writes : List (Contents 32 × Contents 32)

variable (mach : Machine) (frame : Frame) (passes : ℕ) (pThread pThreadStack : U32)

def write (addr data length : U32) (s : State) : Option State :=
  (kernelWrite mach.toKernel frame.value addr data length passes s.memory).map fun m =>
    { s with memory := m, writes := s.writes ++ [(s.memory, m)] }

/-- A call of the system; `memset` clears memory, and so does `*pThread = {}`. -/
def perform (c : Call) (s : State) : State :=
  { s with
    memory :=
      match c with
      | .memset ptr size =>
        storeBytes mach.osEffectiveToPhysical ptr (List.replicate size.toNat 0) s.memory
      | c => mach.effect s.history c s.memory
    history := s.history ++ [c] }

/-- `while (OSIsThreadSuspended(pThread)) OSResumeThread(pThread);`, one pass. -/
def resumePass (s : State) : Except Empty (State ⊕ State) :=
  let suspended := decide (0 < mach.os.suspendCount s.history pThread)
  let s := perform mach (.onThread .osIsThreadSuspended pThread) s
  if suspended then .ok (.inl (perform mach (.onThread .osResumeThread pThread) s))
  else .ok (.inr s)

/-- The body of the loop over the cores. -/
def runThread (aff : U32) (s : State) : Option State :=
  let s := perform mach (.memset pThread mach.sizeofOSThread) s
  let s := perform mach (.memset pThreadStack iStackSize) s
  let s := perform mach (.osCreateThread pThread sc0x51CallAddress (pThreadStack + iStackSize)
    iStackSize 16 aff) s
  let s := perform mach (.onThread .osResumeThread pThread) s
  match run (resumePass mach pThread) passes s with
  | some (.ok s) => some (perform mach (.onThread .osJoinThread pThread) s)
  | _ => none

def freeBuffers (s : State) : State :=
  let s :=
    if pThreadStack ≠ 0 then
      perform mach (.memFree pThreadStack) (perform mach (.memset pThreadStack iStackSize) s)
    else s
  if pThread ≠ 0 then
    perform mach (.memFree pThread) (perform mach (.memset pThread mach.sizeofOSThread) s)
  else s

/-- Allocates the buffers of the thread, runs it on every core if it got both, frees them. -/
def runOnCores (s : State) : Option State :=
  let s := perform mach (.memAlloc mach.sizeofOSThread 0x10 pThread) s
  let s := perform mach (.memAlloc iStackSize 0x20 pThreadStack) s
  let ran :=
    if pThread ≠ 0 ∧ pThreadStack ≠ 0 then
      [ThreadObjects.eAttributeAffCore2, ThreadObjects.eAttributeAffCore1,
        ThreadObjects.eAttributeAffCore0].foldlM
        (fun s aff => runThread mach passes pThread pThreadStack aff s) s
    else some s
  ran.map (freeBuffers mach pThread pThreadStack)

/-- Copies the three functions to the window. -/
def writeCode (s : State) : Option State := do
  let s ← write mach frame passes scSetupIBAT4DBAT5Address frame.sSCSetupIBAT4DBAT5Buffer
    (sizeof sSCSetupIBAT4DBAT5Buffer) s
  let s ← write mach frame passes sc0x51BufferAddress frame.sSC0x51Buffer (sizeof sSC0x51Buffer) s
  write mach frame passes sc0x51CallAddress frame.sSC0x51CallBuffer (sizeof sSC0x51CallBuffer) s

def setupIBAT4DBAT5OnAllCores (s : State) : Option State := do
  let s ← write mach frame passes frame.backupBuffer targetAddressExecutableMem sizeofBackupBuffer s
  let s ← writeCode mach frame passes s
  let s := perform mach (.kernelPatchSyscall 0x51 scSetupIBAT4DBAT5Address) s
  let s ← runOnCores mach passes pThread pThreadStack s
  write mach frame passes targetAddressExecutableMem frame.backupBuffer sizeofBackupBuffer s

end Setup

section System

variable {mach : Machine} {frame : Frame} {pThread pThreadStack : U32} {S : Set U32}
  {s s' s'' : State} {c : Call}

structure Kept (S : Set U32) (s s' : State) : Prop where
  memory : Set.EqOn s'.memory s.memory S
  writes : s'.writes = s.writes

theorem Kept.refl (S : Set U32) (s : State) : Kept S s s := ⟨Set.eqOn_refl _ _, rfl⟩

theorem Kept.trans (h : Kept S s s') (h' : Kept S s' s'') : Kept S s s'' :=
  ⟨h'.memory.trans h.memory, h'.writes.trans h.writes⟩

def Makes (mach : Machine) (pThread pThreadStack : U32) : Call → Prop
  | .memAlloc size align result =>
    size = mach.sizeofOSThread ∧ align = 0x10 ∧ result = pThread ∨
      size = iStackSize ∧ align = 0x20 ∧ result = pThreadStack
  | .memFree ptr => ptr ≠ 0 ∧ (ptr = pThread ∨ ptr = pThreadStack)
  | .memset _ _ => False
  | .osCreateThread thread entry stackTop stackSize _ _ =>
    thread = pThread ∧ thread ≠ 0 ∧ entry = sc0x51CallAddress ∧
      stackTop = pThreadStack + iStackSize ∧ stackSize = iStackSize ∧ pThreadStack ≠ 0
  | .onThread function thread =>
    thread = pThread ∧ thread ≠ 0 ∧
      function ∈ [.osResumeThread, .osIsThreadSuspended, .osJoinThread]
  | .kernelPatchSyscall index address => index = 0x51 ∧ address = scSetupIBAT4DBAT5Address

/-- Bytes that these calls leave alone, and that do not lie in the buffers. -/
structure Spared (mach : Machine) (pThread pThreadStack : U32) (S : Set U32) : Prop where
  effect : ∀ h c m, Makes mach pThread pThreadStack c → Set.EqOn (mach.effect h c m) m S
  thread : pThread ≠ 0 →
    Disjoint (mach.osEffectiveToPhysical '' span pThread mach.sizeofOSThread.toNat) S
  stack : pThreadStack ≠ 0 →
    Disjoint (mach.osEffectiveToPhysical '' span pThreadStack iStackSize.toNat) S

@[simp] theorem perform_history : (perform mach c s).history = s.history ++ [c] := rfl

theorem perform_memset_kept {ptr size : U32}
    (hapart : Disjoint (mach.osEffectiveToPhysical '' span ptr size.toNat) S) :
    Kept S s (perform mach (.memset ptr size) s) := by
  refine ⟨DiffersIn.kept ?_ hapart, rfl⟩
  have hstored : DiffersIn
      (mach.osEffectiveToPhysical '' span ptr (List.replicate size.toNat (0 : Byte)).length)
      s.memory (perform mach (.memset ptr size) s).memory := storeBytes_differsIn
  rwa [List.length_replicate] at hstored

section Calls

variable (h : Spared mach pThread pThreadStack S)
include h

theorem perform_kept (hc : Makes mach pThread pThreadStack c) : Kept S s (perform mach c s) := by
  cases c with
  | memset ptr size => exact hc.elim
  | _ => exact ⟨h.effect _ _ _ hc, rfl⟩

theorem resume_ends (hos : mach.os.Resumes) (hthread : pThread ≠ 0)
    (hcreated : Created s.history pThread) : ∃ s', Kept S s s' ∧
      ∀ᶠ passes in atTop, run (resumePass mach pThread) passes s = some (.ok s') := by
  suffices hloop : ∃ s', run (resumePass mach pThread)
      (mach.os.suspendCount s.history pThread + 1) s = some (.ok s') ∧ Kept S s s' by
    obtain ⟨s', hrun, hkept⟩ := hloop
    exact ⟨s', hkept, eventually_run hrun⟩
  refine run_of_invariant (fun u => Created u.history pThread ∧ Kept S s u)
    (fun u => mach.os.suspendCount u.history pThread) ?_ ⟨hcreated, Kept.refl S s⟩
  rintro u ⟨hcreated, hkept⟩
  set asked := perform mach (.onThread .osIsThreadSuspended pThread) u with hasked
  have hask : Kept S u asked := perform_kept h ⟨rfl, hthread, by simp⟩
  by_cases hsuspended : 0 < mach.os.suspendCount u.history pThread
  · right
    have hresume := perform_kept h (s := asked) (c := .onThread .osResumeThread pThread)
      ⟨rfl, hthread, by simp⟩
    refine ⟨_, ?_, ⟨(hcreated.append _).append _, hkept.trans (hask.trans hresume)⟩, ?_⟩
    · rw [resumePass, if_pos (decide_eq_true hsuspended)]
    · have hcount := hos.ask u.history pThread hcreated
      have hlow := hos.resume asked.history pThread (hcreated.append _)
      simp only [perform_history, hasked] at hlow ⊢
      omega
  · left
    refine ⟨asked, ?_, hkept.trans hask⟩
    rw [resumePass, if_neg (by simpa using hsuspended)]

theorem runThread_ends (hos : mach.os.Resumes) (hthread : pThread ≠ 0) (hstack : pThreadStack ≠ 0)
    (aff : U32) (s : State) : ∃ s', Kept S s s' ∧
      ∀ᶠ passes in atTop, runThread mach passes pThread pThreadStack aff s = some s' := by
  set cleared := perform mach (.memset pThreadStack iStackSize)
    (perform mach (.memset pThread mach.sizeofOSThread) s)
  have hcleared : Kept S s cleared :=
    (perform_memset_kept (h.thread hthread)).trans (perform_memset_kept (h.stack hstack))
  set create := Call.osCreateThread pThread sc0x51CallAddress (pThreadStack + iStackSize)
    iStackSize 16 aff
  have hcreate : Kept S cleared (perform mach create cleared) :=
    perform_kept h ⟨rfl, hthread, rfl, rfl, rfl, hstack⟩
  have hcreates : Created (perform mach create cleared).history pThread :=
    ⟨create, List.mem_append_right _ (List.mem_singleton_self _), rfl⟩
  have hresume := perform_kept h (s := perform mach create cleared)
    (c := .onThread .osResumeThread pThread) ⟨rfl, hthread, by simp⟩
  obtain ⟨resumed, hkept, hrun⟩ := resume_ends h hos hthread
    (s := perform mach (.onThread .osResumeThread pThread) (perform mach create cleared))
    (hcreates.append _)
  have hjoin := perform_kept h (s := resumed) (c := .onThread .osJoinThread pThread)
    ⟨rfl, hthread, by simp⟩
  refine ⟨_, hcleared.trans (hcreate.trans (hresume.trans (hkept.trans hjoin))), ?_⟩
  filter_upwards [hrun] with passes hpasses
  simp only [runThread]
  rw [hpasses]

theorem runThreads_end (hos : mach.os.Resumes) (hthread : pThread ≠ 0) (hstack : pThreadStack ≠ 0)
    (affs : List U32) (s : State) : ∃ s', Kept S s s' ∧ ∀ᶠ passes in atTop,
      affs.foldlM (fun s aff => runThread mach passes pThread pThreadStack aff s) s = some s' := by
  induction affs generalizing s with
  | nil => exact ⟨s, Kept.refl S s, Eventually.of_forall fun _ => rfl⟩
  | cons aff affs ih =>
    obtain ⟨ran, hran, hfirst⟩ := runThread_ends h hos hthread hstack aff s
    obtain ⟨s', hkept, hrest⟩ := ih ran
    refine ⟨s', hran.trans hkept, ?_⟩
    filter_upwards [hfirst, hrest] with passes hpasses hpasses'
    rw [List.foldlM_cons, hpasses]
    exact hpasses'

theorem freeBuffers_kept (s : State) : Kept S s (freeBuffers mach pThread pThreadStack s) := by
  have hfree (ptr size : U32) (s : State) (hbuffer : ptr = pThread ∨ ptr = pThreadStack)
      (hapart : ptr ≠ 0 → Disjoint (mach.osEffectiveToPhysical '' span ptr size.toNat) S) :
      Kept S s (if ptr ≠ 0 then perform mach (.memFree ptr) (perform mach (.memset ptr size) s)
        else s) := by
    split_ifs with hptr
    · exact (perform_memset_kept (hapart hptr)).trans (perform_kept h ⟨hptr, hbuffer⟩)
    · exact Kept.refl S s
  exact (hfree pThreadStack iStackSize s (.inr rfl) h.stack).trans
    (hfree pThread mach.sizeofOSThread _ (.inl rfl) h.thread)

theorem runOnCores_ends (hos : mach.os.Resumes) (s : State) : ∃ s', Kept S s s' ∧
    ∀ᶠ passes in atTop, runOnCores mach passes pThread pThreadStack s = some s' := by
  set given := perform mach (.memAlloc iStackSize 0x20 pThreadStack)
    (perform mach (.memAlloc mach.sizeofOSThread 0x10 pThread) s)
  have hgiven : Kept S s given := by
    have hthread : Makes mach pThread pThreadStack (.memAlloc mach.sizeofOSThread 0x10 pThread) :=
      Or.inl ⟨rfl, rfl, rfl⟩
    have hstack : Makes mach pThread pThreadStack (.memAlloc iStackSize 0x20 pThreadStack) :=
      Or.inr ⟨rfl, rfl, rfl⟩
    exact (perform_kept h hthread).trans (perform_kept h hstack)
  by_cases hboth : pThread ≠ 0 ∧ pThreadStack ≠ 0
  · obtain ⟨ran, hran, hthreads⟩ := runThreads_end h hos hboth.1 hboth.2
      [ThreadObjects.eAttributeAffCore2, ThreadObjects.eAttributeAffCore1,
        ThreadObjects.eAttributeAffCore0] given
    refine ⟨_, hgiven.trans (hran.trans (freeBuffers_kept h ran)), ?_⟩
    filter_upwards [hthreads] with passes hpasses
    simp only [runOnCores, if_pos hboth]
    rw [hpasses, Option.map_some]
  · refine ⟨_, hgiven.trans (freeBuffers_kept h given), Eventually.of_forall fun passes => ?_⟩
    simp only [runOnCores, if_neg hboth, Option.map_some]
    rfl

end Calls

end System

section Window

variable {mach : Machine} {frame : Frame} {addr data length : U32} {S T : Set U32}
  {s s' s'' : State}

def wrote (mach : Machine) (frame : Frame) (addr data : U32) (words : ℕ) (s : State) : State :=
  let m := writtenWords mach.toKernel frame.value addr data s.memory words
  { s with memory := m, writes := s.writes ++ [(s.memory, m)] }

theorem write_eq {words : ℕ} (hlength : length.toNat = 4 * words) (addr data : U32) (s : State) :
    ∀ᶠ passes in atTop, write mach frame passes addr data length s =
      some (wrote mach frame addr data words s) := by
  have hlt := length.isLt
  have hrounded : (length.toNat + 3) / 4 = words := by omega
  filter_upwards [kernelWrite_eq mach.toKernel frame.value addr data s.memory
    (show length.toNat + 4 ≤ 2 ^ 32 by omega)] with passes hpasses
  rw [write, hpasses, hrounded, Option.map_some, wrote]

/-- No `KernelWrite` between two states changed a byte outside of a set. -/
def WritesWithin (S : Set U32) (s s' : State) : Prop :=
  ∃ writes, s'.writes = s.writes ++ writes ∧ ∀ w ∈ writes, DiffersIn S w.1 w.2

theorem WritesWithin.mono (h : WritesWithin S s s') (hsub : S ⊆ T) : WritesWithin T s s' := by
  obtain ⟨writes, heq, hin⟩ := h
  exact ⟨writes, heq, fun w hw => (hin w hw).mono hsub⟩

theorem WritesWithin.trans (h : WritesWithin S s s') (h' : WritesWithin S s' s'') :
    WritesWithin S s s'' := by
  obtain ⟨writes, heq, hin⟩ := h
  obtain ⟨more, heq', hin'⟩ := h'
  refine ⟨writes ++ more, by rw [heq', heq, List.append_assoc], ?_⟩
  intro w hw
  rcases List.mem_append.mp hw with hw | hw
  · exact hin w hw
  · exact hin' w hw

theorem Kept.writesWithin (h : Kept S s s') (T : Set U32) : WritesWithin T s s' :=
  ⟨[], by rw [h.writes, List.append_nil], by simp⟩

section Wrote

variable (hcopies : Copies mach.kernelCopyData) {words : ℕ}
  (h : Writable mach.toKernel frame.value addr words)
include hcopies h

theorem wrote_differsIn (data : U32) (s : State) :
    DiffersIn (touched mach.toKernel frame.value addr words) s.memory
      (wrote mach frame addr data words s).memory :=
  writtenWords_differsIn hcopies h (Nat.le_refl _) s.memory

theorem wrote_writesWithin (data : U32) (s : State) :
    WritesWithin (touched mach.toKernel frame.value addr words) s
      (wrote mach frame addr data words s) := by
  refine ⟨_, rfl, ?_⟩
  intro w hw
  obtain rfl := List.mem_singleton.mp hw
  exact wrote_differsIn hcopies h data s

end Wrote

def window : Set U32 := span targetAddressExecutableMem 0x74

def windowWord (j : ℕ) : U32 := targetAddressExecutableMem + BitVec.ofNat 32 (4 * j)

def windowTouched (mach : Machine) (frame : Frame) : Set U32 :=
  touched mach.toKernel frame.value targetAddressExecutableMem 29

/-- What the function's use of the window rests on: its two objects on the stack are apart, the
stack does not overlap the window, no two bytes of both are translated to one, and the words
that are written are translated as a whole. -/
structure Borrows (mach : Machine) (frame : Frame) (stack : Set U32) : Prop where
  backupBuffer : span frame.backupBuffer 0x74 ⊆ stack
  value : span frame.value 4 ⊆ stack
  locals : Disjoint (span frame.backupBuffer 0x74) (span frame.value 4)
  window : Disjoint window stack
  injective : Set.InjOn mach.osEffectiveToPhysical (BorrowedWindow.window ∪ stack)
  windowTogether : ∀ j < 29, Together mach.osEffectiveToPhysical (windowWord j)
  backupTogether : ∀ j < 29, Together mach.osEffectiveToPhysical
    (frame.backupBuffer + BitVec.ofNat 32 (4 * j))
  valueTogether : Together mach.osEffectiveToPhysical frame.value

section Borrowed

variable {stack : Set U32} (h : Borrows mach frame stack)
include h

theorem Borrows.windowWritable : Writable mach.toKernel frame.value targetAddressExecutableMem 29 :=
  ⟨h.injective.mono (Set.union_subset_union_right _ h.value), h.window.mono_right h.value,
    h.valueTogether, h.windowTogether⟩

theorem Borrows.backupWritable : Writable mach.toKernel frame.value frame.backupBuffer 29 :=
  ⟨h.injective.mono ((Set.union_subset h.backupBuffer h.value).trans Set.subset_union_right),
    h.locals, h.valueTogether, h.backupTogether⟩

theorem Borrows.backupApart : Disjoint (windowTouched mach frame)
    (mach.osEffectiveToPhysical '' span frame.backupBuffer (4 * 29)) := by
  refine disjoint_image (h.injective.mono ?_) (Set.disjoint_union_left.mpr ⟨?_, h.locals.symm⟩)
  · exact Set.union_subset (Set.union_subset_union_right _ h.value)
      (h.backupBuffer.trans Set.subset_union_right)
  · exact h.window.mono_right h.backupBuffer

theorem Borrows.windowApart : Disjoint (touched mach.toKernel frame.value frame.backupBuffer 29)
    (mach.osEffectiveToPhysical '' span targetAddressExecutableMem (4 * 29)) := by
  have hstack := Set.union_subset h.backupBuffer h.value
  refine disjoint_image (h.injective.mono ?_) (h.window.symm.mono_left hstack)
  exact Set.union_subset (hstack.trans Set.subset_union_right) Set.subset_union_left

end Borrowed

theorem code_layout :
    scSetupIBAT4DBAT5Address = windowWord 0 ∧
      sc0x51BufferAddress = windowWord 14 ∧
      sc0x51CallAddress = windowWord 26 ∧
      sSCSetupIBAT4DBAT5Buffer.length + sSC0x51Buffer.length + sSC0x51CallBuffer.length = 29 := by
  decide

def codeWritten (mach : Machine) (frame : Frame) (s : State) : State :=
  let s := wrote mach frame (windowWord 0)
    frame.sSCSetupIBAT4DBAT5Buffer 14 s
  let s := wrote mach frame (windowWord 14)
    frame.sSC0x51Buffer 12 s
  wrote mach frame (windowWord 26) frame.sSC0x51CallBuffer 3 s

theorem writeCode_eq (mach : Machine) (frame : Frame) (s : State) :
    ∀ᶠ passes in atTop, writeCode mach frame passes s = some (codeWritten mach frame s) := by
  obtain ⟨hsetup, hsyscall, hcall, -⟩ := code_layout
  rw [codeWritten, ← hsetup, ← hsyscall, ← hcall]
  have hsizes : (sizeof sSCSetupIBAT4DBAT5Buffer).toNat = 4 * 14 ∧
      (sizeof sSC0x51Buffer).toNat = 4 * 12 ∧ (sizeof sSC0x51CallBuffer).toNat = 4 * 3 := by
    decide
  filter_upwards [write_eq hsizes.1 _ _ s, write_eq hsizes.2.1 _ _ _, write_eq hsizes.2.2 _ _ _]
    with passes hpasses₁ hpasses₂ hpasses₃
  rw [writeCode, Option.bind_eq_bind, hpasses₁, Option.bind_some, hpasses₂, Option.bind_some,
    hpasses₃]

def Holds (mach : Machine) (a : U32) (words : List U32) (m : Contents 32) : Prop :=
  ∀ j (hj : j < words.length), ∀ k < 4,
    m (mach.osEffectiveToPhysical (a + BitVec.ofNat 32 (4 * j + k))) = byteOf words[j] k

theorem Holds.of_differsIn {a : U32} {words : List U32} {m m' : Contents 32}
    (hholds : Holds mach a words m) (hdiffers : DiffersIn S m m')
    (hapart : Disjoint S (mach.osEffectiveToPhysical '' span a (4 * words.length))) :
    Holds mach a words m' := by
  intro j hj k hk
  rw [hdiffers.kept hapart (Set.mem_image_of_mem _ (add_mem_span a (by omega)))]
  exact hholds j hj k hk

theorem Holds.append {a : U32} {words more : List U32} {m : Contents 32}
    (hwords : Holds mach a words m)
    (hmore : Holds mach (a + BitVec.ofNat 32 (4 * words.length)) more m) :
    Holds mach a (words ++ more) m := by
  intro j hj k hk
  rcases Nat.lt_or_ge j words.length with hlow | hhigh
  · rw [List.getElem_append_left hlow]
    exact hwords j hlow k hk
  · obtain ⟨i, rfl⟩ := Nat.exists_eq_add_of_le hhigh
    rw [List.length_append] at hj
    have hbyte := hmore i (by omega) k hk
    rw [add_ofNat_add, ← Nat.add_assoc, ← Nat.mul_add] at hbyte
    rw [hbyte, List.getElem_append_right hhigh]
    simp

structure Held (mach : Machine) (frame : Frame) (a : U32) (words : List U32) (m : Contents 32) :
    Prop where
  holds : Holds mach a words m
  apart : Disjoint (windowTouched mach frame)
    (mach.osEffectiveToPhysical '' span a (4 * words.length))

section Restored

variable {stack : Set U32} (hcopies : Copies mach.kernelCopyData) (h : Borrows mach frame stack)
include hcopies h

theorem part_differsIn {k words : ℕ} (hk : k + words ≤ 29) (data : U32) (s : State) :
    DiffersIn (windowTouched mach frame) s.memory
      (wrote mach frame (windowWord k) data words s).memory :=
  (wrote_differsIn hcopies (h.windowWritable.part hk) data s).mono (touched_subset hk)

theorem codeWritten_differsIn (s : State) :
    DiffersIn (windowTouched mach frame) s.memory
      (codeWritten mach frame s).memory :=
  ((part_differsIn hcopies h (by decide) _ s).trans
    (part_differsIn hcopies h (by decide) _ _)).trans (part_differsIn hcopies h (by decide) _ _)

theorem codeWritten_writesWithin (s : State) :
    WritesWithin (windowTouched mach frame) s
      (codeWritten mach frame s) := by
  have hpart {k words : ℕ} (hk : k + words ≤ 29) (data : U32) (s : State) :
      WritesWithin (windowTouched mach frame) s
        (wrote mach frame (windowWord k) data words s) :=
    (wrote_writesWithin hcopies (h.windowWritable.part hk) data s).mono (touched_subset hk)
  exact ((hpart (by decide) _ s).trans (hpart (by decide) _ _)).trans (hpart (by decide) _ _)

theorem part_holds {k : ℕ} {words : List U32} (hk : k + words.length ≤ 29)
    (hheld : Held mach frame data words s.memory) :
    Holds mach (windowWord k) words
      (wrote mach frame (windowWord k) data words.length
        s).memory := by
  have hcopied := writtenWords_copied hcopies (h.windowWritable.part hk) (by omega)
    (hheld.apart.mono_left (touched_subset hk)) s.memory
  intro j hj i hi
  exact (hcopied.bytes _ (by omega)).trans (hheld.holds j hj i hi)

theorem Held.part {words : List U32} (hheld : Held mach frame data words s.memory) {k n : ℕ}
    (hk : k + n ≤ 29) (source : U32) : Held mach frame data words
      (wrote mach frame (windowWord k) source n s).memory :=
  ⟨hheld.holds.of_differsIn (part_differsIn hcopies h hk source s) hheld.apart, hheld.apart⟩

theorem Holds.part {k : ℕ} {words : List U32}
    (hholds : Holds mach (windowWord k) words s.memory)
    {k' n : ℕ} (hk : k + words.length ≤ k') (hk' : k' + n ≤ 29) (source : U32) :
    Holds mach (windowWord k) words
      (wrote mach frame (windowWord k') source n s).memory := by
  have hwindow := h.windowWritable
  have hpart : span (windowWord k) (4 * words.length) ⊆
      span targetAddressExecutableMem (4 * 29) := span_add_subset _ (by omega)
  have hlater : span (windowWord k') (4 * n) ⊆
      span targetAddressExecutableMem (4 * 29) := span_add_subset _ (by omega)
  refine hholds.of_differsIn (wrote_differsIn hcopies (hwindow.part hk') source s)
    (disjoint_image ?_ ?_)
  · exact hwindow.injective.mono (Set.union_subset (Set.union_subset_union_left _ hlater)
      (hpart.trans Set.subset_union_left))
  · exact Set.disjoint_union_left.mpr
      ⟨(disjoint_span_add _ (by omega) (by omega)).symm, (hwindow.apart.mono_left hpart).symm⟩

theorem codeWritten_holds
    (hsetup : Held mach frame frame.sSCSetupIBAT4DBAT5Buffer sSCSetupIBAT4DBAT5Buffer s.memory)
    (hsyscall : Held mach frame frame.sSC0x51Buffer sSC0x51Buffer s.memory)
    (hcall : Held mach frame frame.sSC0x51CallBuffer sSC0x51CallBuffer s.memory) :
    Holds mach targetAddressExecutableMem
      (sSCSetupIBAT4DBAT5Buffer ++ sSC0x51Buffer ++ sSC0x51CallBuffer)
      (codeWritten mach frame s).memory := by
  have hfirst := part_holds hcopies h (k := 0) (by decide) hsetup
  have hsecond := part_holds hcopies h (k := 14) (by decide)
    (hsyscall.part hcopies h (k := 0) (n := 14) (by decide) frame.sSCSetupIBAT4DBAT5Buffer)
  have hthird := part_holds hcopies h (k := 26) (by decide)
    ((hcall.part hcopies h (k := 0) (n := 14) (by decide) frame.sSCSetupIBAT4DBAT5Buffer).part
      hcopies h (k := 14) (n := 12) (by decide) frame.sSC0x51Buffer)
  have hsecond' := hsecond.part hcopies h (n := 3) (by decide) (show 26 + 3 ≤ 29 by decide)
    frame.sSC0x51CallBuffer
  have hfirst' := (hfirst.part hcopies h (n := 12) (by decide) (show 14 + 12 ≤ 29 by decide)
    frame.sSC0x51Buffer).part hcopies h (n := 3) (by decide) (show 26 + 3 ≤ 29 by decide)
    frame.sSC0x51CallBuffer
  rw [windowWord, BitVec.add_zero] at hfirst'
  exact (hfirst'.append hsecond').append hthird

def borrowed (mach : Machine) (frame : Frame) : Set U32 :=
  mach.osEffectiveToPhysical '' (window ∪ (span frame.backupBuffer 0x74 ∪ span frame.value 4))

section Run

variable {ran : State}

theorem restored_memory (hkept : Set.EqOn ran.memory (codeWritten mach frame
      (wrote mach frame frame.backupBuffer targetAddressExecutableMem 29 s)).memory
      (mach.osEffectiveToPhysical '' span frame.backupBuffer (4 * 29))) :
    ∀ a ∈ window, (wrote mach frame targetAddressExecutableMem frame.backupBuffer 29 ran).memory
      (mach.osEffectiveToPhysical a) = s.memory (mach.osEffectiveToPhysical a) := by
  set saved := wrote mach frame frame.backupBuffer targetAddressExecutableMem 29 s
  set restored := wrote mach frame targetAddressExecutableMem frame.backupBuffer 29 ran
  have hbackup : Copied mach.toKernel frame.value frame.backupBuffer targetAddressExecutableMem
      (4 * 29) s.memory saved.memory :=
    writtenWords_copied hcopies h.backupWritable (by decide) h.windowApart s.memory
  have hrestore : Copied mach.toKernel frame.value targetAddressExecutableMem frame.backupBuffer
      (4 * 29) ran.memory restored.memory :=
    writtenWords_copied hcopies h.windowWritable (by decide) h.backupApart ran.memory
  intro a ha
  obtain ⟨i, hi, rfl⟩ := mem_span_iff.mp ha
  have hin : mach.osEffectiveToPhysical (frame.backupBuffer + BitVec.ofNat 32 i) ∈
      mach.osEffectiveToPhysical '' span frame.backupBuffer (4 * 29) :=
    Set.mem_image_of_mem _ (add_mem_span _ hi)
  calc
    restored.memory (mach.osEffectiveToPhysical (targetAddressExecutableMem + BitVec.ofNat 32 i))
      = ran.memory (mach.osEffectiveToPhysical (frame.backupBuffer + BitVec.ofNat 32 i)) :=
        hrestore.bytes i hi
    _ = (codeWritten mach frame saved).memory
          (mach.osEffectiveToPhysical (frame.backupBuffer + BitVec.ofNat 32 i)) := hkept hin
    _ = saved.memory (mach.osEffectiveToPhysical (frame.backupBuffer + BitVec.ofNat 32 i)) :=
        (codeWritten_differsIn hcopies h saved).kept h.backupApart hin
    _ = s.memory (mach.osEffectiveToPhysical (targetAddressExecutableMem + BitVec.ofNat 32 i)) :=
        hbackup.bytes i hi

theorem restored_writesWithin (hkept : Kept S (codeWritten mach frame
      (wrote mach frame frame.backupBuffer targetAddressExecutableMem 29 s)) ran) :
    WritesWithin (borrowed mach frame) s
      (wrote mach frame targetAddressExecutableMem frame.backupBuffer 29 ran) := by
  have hwindow : windowTouched mach frame ⊆ borrowed mach frame :=
    Set.image_mono (Set.union_subset_union_right _ Set.subset_union_right)
  have hstack : touched mach.toKernel frame.value frame.backupBuffer 29 ⊆ borrowed mach frame :=
    Set.image_mono Set.subset_union_right
  have hsave := (wrote_writesWithin hcopies h.backupWritable targetAddressExecutableMem s).mono
    hstack
  have hcode := (codeWritten_writesWithin hcopies h
    (wrote mach frame frame.backupBuffer targetAddressExecutableMem 29 s)).mono hwindow
  have hrestore := (wrote_writesWithin hcopies h.windowWritable frame.backupBuffer ran).mono hwindow
  exact ((hsave.trans hcode).trans (hkept.writesWithin _)).trans hrestore

end Run

theorem setupIBAT4DBAT5OnAllCores_restores {pThread pThreadStack : U32} (hos : mach.os.Resumes)
    (hspared : Spared mach pThread pThreadStack
      (mach.osEffectiveToPhysical '' span frame.backupBuffer 0x74)) (s : State) :
    ∃ s', (∀ᶠ passes in atTop,
        setupIBAT4DBAT5OnAllCores mach frame passes pThread pThreadStack s = some s') ∧
      (∀ a ∈ window, s'.memory (mach.osEffectiveToPhysical a) =
        s.memory (mach.osEffectiveToPhysical a)) ∧
      WritesWithin (borrowed mach frame) s s' := by
  have hsize : sizeofBackupBuffer.toNat = 4 * 29 := by decide
  set saved := wrote mach frame frame.backupBuffer targetAddressExecutableMem 29 s
  set coded := codeWritten mach frame saved
  set patched := perform mach (.kernelPatchSyscall 0x51 scSetupIBAT4DBAT5Address) coded
  have hpatched : Kept _ coded patched := perform_kept hspared ⟨rfl, rfl⟩
  obtain ⟨ran, hran, hthreads⟩ := runOnCores_ends hspared hos patched
  have hkept := hpatched.trans hran
  refine ⟨_, ?_, restored_memory hcopies h hkept.memory, restored_writesWithin hcopies h hkept⟩
  filter_upwards [write_eq hsize frame.backupBuffer targetAddressExecutableMem s,
    writeCode_eq mach frame saved, hthreads,
    write_eq hsize targetAddressExecutableMem frame.backupBuffer ran]
    with passes hsave hcode hthread hrestore
  simp only [setupIBAT4DBAT5OnAllCores, Option.bind_eq_bind]
  rw [hsave, Option.bind_some, hcode, Option.bind_some, hthread, Option.bind_some, hrestore]

end Restored

/-- `KernelWrite` copies what it is given and changes nothing else. `SetupIBAT4DBAT5OnAllCores`
ends with the window as it was, whatever memory holds and whichever buffers it gets, and none of
its calls of `KernelWrite` changes a byte outside of the window and its own objects. -/
theorem window_given_back (mach : Machine) (hcopies : Copies mach.kernelCopyData) :
    (∀ (slot addr data length : U32) (m : Contents 32), 4 ∣ length.toNat →
      Ranges mach.toKernel slot addr data length.toNat →
      ∃ passes m', kernelWrite mach.toKernel slot addr data length passes m = some m' ∧
        Copied mach.toKernel slot addr data length.toNat m m') ∧
    ∀ (frame : Frame) (stack : Set U32) (pThread pThreadStack : U32) (s : State),
      Borrows mach frame stack → mach.os.Resumes →
      Spared mach pThread pThreadStack
        (mach.osEffectiveToPhysical '' span frame.backupBuffer 0x74) →
      ∃ passes s', setupIBAT4DBAT5OnAllCores mach frame passes pThread pThreadStack s = some s' ∧
        (∀ a ∈ window, s'.memory (mach.osEffectiveToPhysical a) =
          s.memory (mach.osEffectiveToPhysical a)) ∧
        WritesWithin (borrowed mach frame) s s' := by
  constructor
  · intro slot addr data length m hlength hranges
    obtain ⟨m', hends, hcopied⟩ := kernelWrite_copied hcopies hlength hranges m
    obtain ⟨passes, hpasses⟩ := hends.exists
    exact ⟨passes, m', hpasses, hcopied⟩
  · intro frame stack pThread pThreadStack s hborrows hos hspared
    obtain ⟨s', hends, hrestored, hwrites⟩ :=
      setupIBAT4DBAT5OnAllCores_restores hcopies hborrows hos hspared s
    obtain ⟨passes, hpasses⟩ := hends.exists
    exact ⟨passes, s', hpasses, hrestored, hwrites⟩

end Window

section Sample

def shiftedMachine : Machine where
  osEffectiveToPhysical a := a + 0x20000000
  kernelCopyData := copyBetween
  os := ThreadObjects.countingOS
  effect _ c m :=
    match c with
    | .osCreateThread thread entry .. => storeWord (· + 0x20000000) thread entry m
    | _ => m
  sizeofOSThread := 0x6A0

def sampleFrame : Frame where
  backupBuffer := 0x10000100
  value := 0x10000040
  sSCSetupIBAT4DBAT5Buffer := 0x10800000
  sSC0x51Buffer := 0x10800040
  sSC0x51CallBuffer := 0x10800080

theorem shiftedMachine_injective : Function.Injective shiftedMachine.osEffectiveToPhysical :=
  fun _ _ h => (BitVec.add_left_inj _).mp h

theorem shiftedMachine_together {a : U32} (ha : 4 ∣ a.toNat) :
    Together shiftedMachine.osEffectiveToPhysical a := by
  refine together_of_pages (show 4 ∣ 0x1000 by decide) ?_ ha (by decide)
  intro a i _
  change a + BitVec.ofNat 32 i + 0x20000000 = a + 0x20000000 + BitVec.ofNat 32 i
  rw [BitVec.add_assoc, BitVec.add_comm (BitVec.ofNat 32 i), ← BitVec.add_assoc]

theorem shiftedMachine_together_add {a : U32} (ha : 4 ∣ a.toNat) (j : ℕ) :
    Together shiftedMachine.osEffectiveToPhysical (a + BitVec.ofNat 32 (4 * j)) := by
  refine shiftedMachine_together ?_
  rw [BitVec.toNat_add, BitVec.toNat_ofNat]
  omega

theorem sample_borrows : Borrows shiftedMachine sampleFrame (span 0x10000000 0x1000) where
  backupBuffer := span_subset (by decide)
  value := span_subset (by decide)
  locals := (disjoint_span (by decide) (by decide)).symm
  window := disjoint_span (by decide) (by decide)
  injective := shiftedMachine_injective.injOn
  windowTogether j _ := shiftedMachine_together_add (by decide) j
  backupTogether j _ := shiftedMachine_together_add (by decide) j
  valueTogether := shiftedMachine_together (by decide)

theorem sample_spared : Spared shiftedMachine 0x11000000 0x11001000
    (shiftedMachine.osEffectiveToPhysical '' span sampleFrame.backupBuffer 0x74) where
  effect h c m hc := by
    cases c with
    | osCreateThread thread entry stackTop stackSize priority attributes =>
      obtain ⟨rfl, -⟩ := hc
      refine storeWord_differsIn.kept (Set.disjoint_image_of_injective shiftedMachine_injective ?_)
      exact (disjoint_span (by decide) (by decide)).symm
    | _ => exact Set.eqOn_refl _ _
  thread _ := Set.disjoint_image_of_injective shiftedMachine_injective
    (disjoint_span (by decide) (by decide)).symm
  stack _ := Set.disjoint_image_of_injective shiftedMachine_injective
    (disjoint_span (by decide) (by decide)).symm

theorem sample_ranges : Ranges shiftedMachine.toKernel sampleFrame.value targetAddressExecutableMem
    sampleFrame.backupBuffer 0x74 where
  injective := shiftedMachine_injective.injOn
  apart := disjoint_span (by decide) (by decide)
  addrSlot := disjoint_span (by decide) (by decide)
  dataSlot := (disjoint_span (by decide) (by decide)).symm
  slotTogether := shiftedMachine_together (by decide)
  addrTogether j _ := shiftedMachine_together_add (by decide) j

def sampleState : State := ⟨fun a => a.extractLsb' 0 8, [], []⟩

theorem sample_given_back :
    (∃ passes m', kernelWrite shiftedMachine.toKernel sampleFrame.value targetAddressExecutableMem
        sampleFrame.backupBuffer 0x74 passes sampleState.memory = some m' ∧
      Copied shiftedMachine.toKernel sampleFrame.value targetAddressExecutableMem
        sampleFrame.backupBuffer 0x74 sampleState.memory m') ∧
    ∃ passes s', setupIBAT4DBAT5OnAllCores shiftedMachine sampleFrame passes 0x11000000 0x11001000
        sampleState = some s' ∧
      (∀ a ∈ window, s'.memory (shiftedMachine.osEffectiveToPhysical a) =
        sampleState.memory (shiftedMachine.osEffectiveToPhysical a)) ∧
      WritesWithin (borrowed shiftedMachine sampleFrame) sampleState s' := by
  obtain ⟨hwrite, hsetup⟩ := window_given_back shiftedMachine copyBetween_copies
  exact ⟨hwrite _ _ _ 0x74 sampleState.memory (by decide) sample_ranges,
    hsetup _ _ _ _ sampleState sample_borrows ThreadObjects.countingOS_resumes sample_spared⟩

end Sample

end MemoryMappingModule.BorrowedWindow
