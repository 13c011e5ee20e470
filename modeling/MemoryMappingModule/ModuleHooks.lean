import MemoryMappingModule.HeapLifetime
import MemoryMappingModule.PageRoom
import MemoryMappingModule.PatchedTranslations

/-! The hooks of the module and what it exports. The system calls the hooks again and again as
applications come and go, and applications allocate and release memory in between. Over a whole
run the setup happens once, the heaps then are what the calls made of them, and the memory that is
handed out is mapped. -/

namespace MemoryMappingModule.ModuleHooks

open BlockPools MappingLayout PageTableFormat RegionMapping MappingSetup AddressTranslation
open MemoryManagement AddressSpaces HeapAllocation HeapPairing HeapLifetime PageRoom
open PatchedTranslations

section Program

inductive Library where
  | coreinit
deriving DecidableEq, Repr

inductive Target where
  | address (physical effective : U32)
  | library (library : Library) (function : String)
deriving DecidableEq, Repr

/-- `function_replacement_data_t` -/
structure FunctionReplacement where
  function : String
  target : Target
deriving DecidableEq, Repr

def functionReplacements : List FunctionReplacement :=
  [⟨"LiValidateAddress", .address 0x32008904 0x01008904⟩,
    ⟨"sCheckDataRange", .address 0x3200cf60 0x0100cf60⟩,
    ⟨"KiEffectiveToPhysical", .address 0xffee0aac 0xffee0aac⟩,
    ⟨"KiPhysicalToEffectiveCached", .address 0xffee0a3c 0xffee0a3c⟩,
    ⟨"KiPhysicalToEffectiveUncached", .address 0xffee0a80 0xffee0a80⟩,
    ⟨"KiIsEffectiveRangeValid", .address 0xffee0d6c 0xffee0d6c⟩,
    ⟨"IPCKDriver_ValidatePhysicalAddress", .address 0xfff0cb5c 0xfff0cb5c⟩,
    ⟨"KiValidateUserDataRange", .address 0xffee10cc 0xffee10cc⟩,
    ⟨"KiValidateUserCodeRange", .address 0xffee1074 0xffee1074⟩,
    ⟨"KiGetOrPutUserData", .address 0xffee0794 0xffee0794⟩,
    ⟨"MEMFindContainHeap", .library .coreinit "MEMFindContainHeap"⟩]

structure Loader where
  osDynLoadAcquire : String → Option U32
  osDynLoadFindExport : (coreinitModule : U32) → String → Option U32
  word : U32 → U32

/-- What `FPAddFunctionPatch` returns, and whether the function has been patched. -/
structure PatchResult where
  success : Bool
  hasBeenPatched : Bool

structure World (σ : Type) where
  ucSetupRequired : Bool
  memAllocFromDefaultHeapExForThreads : U32
  memFreeToDefaultHeapForThreads : U32
  heaps : σ
  tables : Tables
  patches : List FunctionReplacement

/-- `OSFatal` with a message, unless there is a value. -/
def orFatal {α : Type*} (message : String) : Option α → Except String α
  | none => .error message
  | some a => .ok a

/-- `UpdateFunctionPointer` -/
def updateFunctionPointer {σ : Type} (loader : Loader) (w : World σ) :
    Except String (World σ) := do
  let coreinitModule ← orFatal "FunctionPatcherModule: Failed to acquire coreinit.rpl"
    (loader.osDynLoadAcquire "coreinit")
  let allocPtr ← orFatal "MemoryMappingModule: OSDynLoad_FindExport for MEMAllocFromDefaultHeapEx"
    (loader.osDynLoadFindExport coreinitModule "MEMAllocFromDefaultHeapEx")
  let freePtr ← orFatal "MemoryMappingModule: OSDynLoad_FindExport for MEMFreeToDefaultHeap"
    (loader.osDynLoadFindExport coreinitModule "MEMFreeToDefaultHeap")
  return { w with
    memAllocFromDefaultHeapExForThreads := loader.word allocPtr
    memFreeToDefaultHeapForThreads := loader.word freePtr }

def patchFunctions (patcher : FunctionReplacement → PatchResult) :
    List FunctionReplacement → List FunctionReplacement → Except String (List FunctionReplacement)
  | [], patches => .ok patches
  | f :: rest, patches =>
    if (patcher f).success = false ∨ (patcher f).hasBeenPatched = false then
      .error "homebrew_memorymapping: Failed to patch function"
    else patchFunctions patcher rest (patches ++ [f])

variable {σ : Type} (C : HeapFunctions σ)

/-- `WUMS_INITIALIZE`, with the tables that `MemoryMapping_setupMemoryMapping` leaves. -/
def wumsInitialize (loader : Loader) (patcher : FunctionReplacement → PatchResult) (mapped : Tables)
    (w : World σ) : Except String (World σ) :=
  if w.ucSetupRequired = false then .ok w
  else do
    let w ← updateFunctionPointer loader w
    let w := { w with ucSetupRequired := false, tables := mapped, heaps := createHeaps C w.heaps }
    let patches ← patchFunctions patcher functionReplacements w.patches
    return { w with patches := patches }

variable (debug : Bool) (checkMemExpHeap : σ → U32 → Bool)

/-- `MemoryMapping_checkHeaps`; only the debug build stops where a heap is corrupted. -/
def checkHeaps (s : σ) : List MemoryMapping → Except String Unit
  | [] => .ok ()
  | m :: rest =>
    match m.physicalAddresses with
    | none => .ok ()
    | some _ =>
      if checkMemExpHeap s m.effectiveStartAddress = false ∧ debug = true then
        .error "MemoryMappingModule: Heap is corrupted"
      else checkHeaps s rest

/-- `WUMS_APPLICATION_STARTS`, with the functions that coreinit exports by then. -/
def wumsApplicationStarts (memAllocFromDefaultHeapEx memFreeToDefaultHeap : U32) (w : World σ) :
    Except String (World σ) := do
  checkHeaps debug checkMemExpHeap w.heaps memMapping
  return { w with
    memAllocFromDefaultHeapExForThreads := memAllocFromDefaultHeapEx
    memFreeToDefaultHeapForThreads := memFreeToDefaultHeap }

/-- `WUMS_APPLICATION_ENDS` -/
def wumsApplicationEnds (w : World σ) : Except String (World σ) := do
  checkHeaps debug checkMemExpHeap w.heaps memMapping
  return w

inductive ExportedCall where
  | memoryMappingAlloc (size : U32)
  | memoryMappingAllocEx (size align : U32)
  | memoryMappingAllocForGX2Ex (size align : U32)
  | memoryMappingFree (ptr : U32)

def ExportedCall.toCall : ExportedCall → Call
  | memoryMappingAlloc size => .alloc size 0x04
  | memoryMappingAllocEx size align => .alloc size align
  | memoryMappingAllocForGX2Ex size align => .allocVideoMemory size align
  | memoryMappingFree ptr => .free ptr

/-- The replacement of `MEMFindContainHeap`. -/
def findContainHeap (real : U32 → U32) (s : σ) (block : U32) : U32 :=
  let result := memFindContainHeap C.toCoreinit s block
  if result = 0 then real block else result

end Program

section Runs

variable {σ : Type}

inductive Event where
  | wumsInitialize (loader : Loader) (patcher : FunctionReplacement → PatchResult)
  | wumsApplicationStarts (memAllocFromDefaultHeapEx memFreeToDefaultHeap : U32)
  | wumsApplicationEnds
  | call (c : ExportedCall)

def Event.call? : Event → Option Call
  | call c => some c.toCall
  | _ => none

def callsOf (events : List Event) : List Call := events.filterMap Event.call?

variable (host : Host) (C : HeapFunctions σ) (debug : Bool) (checkMemExpHeap : σ → U32 → Bool)

/-- What an event makes of the world, where it does not stop the system. No export asks whether the
module is set up. -/
inductive Step : World σ → Event → World σ → Prop
  | wumsInitialize {w w' : World σ} {loader : Loader}
      {patcher : FunctionReplacement → PatchResult} {mapped : Tables}
      (setup : w.ucSetupRequired = true → SetsUp host w.tables mapped)
      (result : ModuleHooks.wumsInitialize C loader patcher mapped w = .ok w') :
      Step w (.wumsInitialize loader patcher) w'
  | wumsApplicationStarts {w w' : World σ} {alloc free : U32}
      (result : ModuleHooks.wumsApplicationStarts debug checkMemExpHeap alloc free w = .ok w') :
      Step w (.wumsApplicationStarts alloc free) w'
  | wumsApplicationEnds {w w' : World σ}
      (result : ModuleHooks.wumsApplicationEnds debug checkMemExpHeap w = .ok w') :
      Step w .wumsApplicationEnds w'
  | call {w : World σ} {c : ExportedCall} :
      Step w (.call c) { w with heaps := c.toCall.run C.toCoreinit w.heaps }

inductive Run (w : World σ) : List Event → World σ → Prop
  | start : Run w [] w
  | step {events : List Event} {w' w'' : World σ} {e : Event} (run : Run w events w')
      (last : Step host C debug checkMemExpHeap w' e w'') : Run w (events ++ [e]) w''

structure Loaded (w : World σ) : Prop where
  required : w.ucSetupRequired = true
  patches : w.patches = []

/-- Nothing has been set up, and the heaps are what calls made of memory without heaps. -/
structure Untouched (w₀ : World σ) (events : List Event) (w : World σ) : Prop where
  required : w.ucSetupRequired = true
  hook : ∀ loader patcher, Event.wumsInitialize loader patcher ∉ events
  heaps : w.heaps = (callsOf events).foldl (Call.run C.toCoreinit) w₀.heaps
  tables : w.tables = w₀.tables
  patches : w.patches = []

/-- The setup has been done once, by the first hook that asks for it, and the heaps are what all
calls since made of those it created. -/
structure SetUp (w₀ : World σ) (events : List Event) (w : World σ) : Prop where
  done : w.ucSetupRequired = false
  tables : SetsUp host w₀.tables w.tables
  patches : w.patches = functionReplacements
  heaps : ∃ before loader patcher after,
    events = before ++ .wumsInitialize loader patcher :: after ∧
    (∀ loader patcher, Event.wumsInitialize loader patcher ∉ before) ∧
      w.heaps = (callsOf after).foldl (Call.run C.toCoreinit)
        (createHeaps C ((callsOf before).foldl (Call.run C.toCoreinit) w₀.heaps))

/-- The calls that find the module set up release only what they may. -/
def Proper (live : σ → Pools U32) (w₀ : World σ) (events : List Event) : Prop :=
  ∀ before c after w, events = before ++ .call c :: after →
    Run host C debug checkMemExpHeap w₀ before w → w.ucSetupRequired = false →
      c.toCall.Admissible live w.heaps

end Runs

section Hooks

variable {σ : Type} {host : Host} {C : HeapFunctions σ} {live : σ → Pools U32} {debug : Bool}
  {checkMemExpHeap : σ → U32 → Bool} {w₀ w w' : World σ} {events : List Event} {e : Event}

theorem callsOf_snoc (events : List Event) (e : Event) :
    callsOf (events ++ [e]) = callsOf events ++ e.call?.toList := by
  rw [callsOf, callsOf, List.filterMap_append]
  cases h : e.call? <;> simp [h]

theorem patchFunctions_ok {patcher : FunctionReplacement → PatchResult}
    {fs patches result : List FunctionReplacement}
    (h : patchFunctions patcher fs patches = .ok result) : result = patches ++ fs := by
  induction fs generalizing patches with
  | nil =>
    rw [List.append_nil]
    exact (Except.ok.inj h).symm
  | cons f fs ih =>
    rw [patchFunctions] at h
    split_ifs at h
    rw [ih h, List.append_assoc, List.singleton_append]

theorem updateFunctionPointer_ok {loader : Loader} (h : updateFunctionPointer loader w = .ok w') :
    ∃ alloc free, w' = { w with
      memAllocFromDefaultHeapExForThreads := alloc
      memFreeToDefaultHeapForThreads := free } := by
  rw [updateFunctionPointer, ByteMemory.bind_eq_ok_iff] at h
  obtain ⟨coreinitModule, _, h⟩ := h
  rw [ByteMemory.bind_eq_ok_iff] at h
  obtain ⟨allocPtr, _, h⟩ := h
  rw [ByteMemory.bind_eq_ok_iff] at h
  obtain ⟨freePtr, _, h⟩ := h
  exact ⟨_, _, (Except.ok.inj h).symm⟩

theorem wumsInitialize_ok {loader : Loader} {patcher : FunctionReplacement → PatchResult}
    {mapped : Tables} (hrequired : w.ucSetupRequired = true)
    (h : wumsInitialize C loader patcher mapped w = .ok w') :
    w'.ucSetupRequired = false ∧ w'.tables = mapped ∧ w'.heaps = createHeaps C w.heaps ∧
      w'.patches = w.patches ++ functionReplacements := by
  rw [wumsInitialize, if_neg (by simp [hrequired]), ByteMemory.bind_eq_ok_iff] at h
  obtain ⟨u, hu, h⟩ := h
  obtain ⟨alloc, free, rfl⟩ := updateFunctionPointer_ok hu
  rw [ByteMemory.bind_eq_ok_iff] at h
  obtain ⟨patches, hpatches, h⟩ := h
  rw [← Except.ok.inj h]
  exact ⟨rfl, rfl, rfl, patchFunctions_ok hpatches⟩

theorem wumsInitialize_again {loader : Loader} {patcher : FunctionReplacement → PatchResult}
    {mapped : Tables} (hdone : w.ucSetupRequired = false)
    (h : wumsInitialize C loader patcher mapped w = .ok w') : w' = w := by
  rw [wumsInitialize, if_pos hdone] at h
  exact (Except.ok.inj h).symm

theorem wumsApplicationStarts_ok {alloc free : U32}
    (h : wumsApplicationStarts debug checkMemExpHeap alloc free w = .ok w') :
    w' = { w with
      memAllocFromDefaultHeapExForThreads := alloc
      memFreeToDefaultHeapForThreads := free } := by
  obtain ⟨_, _, h⟩ := ByteMemory.bind_eq_ok_iff.mp h
  exact (Except.ok.inj h).symm

theorem wumsApplicationEnds_ok (h : wumsApplicationEnds debug checkMemExpHeap w = .ok w') :
    w' = w := by
  obtain ⟨_, _, h⟩ := ByteMemory.bind_eq_ok_iff.mp h
  exact (Except.ok.inj h).symm

theorem SetUp.snoc (h : SetUp host C w₀ events w) (hdone : w'.ucSetupRequired = false)
    (htables : w'.tables = w.tables) (hpatches : w'.patches = w.patches)
    (hheaps : w'.heaps = e.call?.toList.foldl (Call.run C.toCoreinit) w.heaps) :
    SetUp host C w₀ (events ++ [e]) w' := by
  obtain ⟨before, loader, patcher, after, rfl, hfirst, hcreated⟩ := h.heaps
  refine ⟨hdone, htables ▸ h.tables, hpatches.trans h.patches,
    before, loader, patcher, after ++ [e], by simp, hfirst, ?_⟩
  rw [hheaps, hcreated, callsOf_snoc, List.foldl_append]

theorem SetUp.step (hlast : Step host C debug checkMemExpHeap w e w')
    (h : SetUp host C w₀ events w) : SetUp host C w₀ (events ++ [e]) w' := by
  cases hlast with
  | wumsInitialize _ result =>
    obtain rfl := wumsInitialize_again h.done result
    exact h.snoc h.done rfl rfl rfl
  | wumsApplicationStarts result =>
    obtain rfl := wumsApplicationStarts_ok result
    exact h.snoc h.done rfl rfl rfl
  | wumsApplicationEnds result =>
    obtain rfl := wumsApplicationEnds_ok result
    exact h.snoc h.done rfl rfl rfl
  | call => exact h.snoc h.done rfl rfl rfl

theorem Untouched.snoc (h : Untouched C w₀ events w) (hrequired : w'.ucSetupRequired = true)
    (hother : ∀ loader patcher, e ≠ .wumsInitialize loader patcher)
    (htables : w'.tables = w.tables) (hpatches : w'.patches = w.patches)
    (hheaps : w'.heaps = e.call?.toList.foldl (Call.run C.toCoreinit) w.heaps) :
    Untouched C w₀ (events ++ [e]) w' := by
  refine ⟨hrequired, fun loader patcher hin => ?_, ?_, htables.trans h.tables,
    hpatches.trans h.patches⟩
  · rcases List.mem_append.mp hin with hin | hin
    · exact h.hook loader patcher hin
    · exact hother loader patcher (List.mem_singleton.mp hin).symm
  · rw [hheaps, h.heaps, callsOf_snoc, List.foldl_append]

theorem Untouched.step (hlast : Step host C debug checkMemExpHeap w e w')
    (h : Untouched C w₀ events w) :
    Untouched C w₀ (events ++ [e]) w' ∨ SetUp host C w₀ (events ++ [e]) w' := by
  cases hlast with
  | wumsInitialize setup result =>
    obtain ⟨hdone, htables, hheaps, hpatches⟩ := wumsInitialize_ok h.required result
    refine .inr ⟨hdone, ?_, ?_, events, _, _, [], rfl, h.hook, ?_⟩
    · rw [htables, ← h.tables]
      exact setup h.required
    · rw [hpatches, h.patches, List.nil_append]
    · rw [hheaps, h.heaps]
      rfl
  | wumsApplicationStarts result =>
    obtain rfl := wumsApplicationStarts_ok result
    exact .inl (h.snoc h.required nofun rfl rfl rfl)
  | wumsApplicationEnds result =>
    obtain rfl := wumsApplicationEnds_ok result
    exact .inl (h.snoc h.required nofun rfl rfl rfl)
  | call => exact .inl (h.snoc h.required nofun rfl rfl rfl)

theorem Run.untouched_or_setUp (hloaded : Loaded w₀)
    (hrun : Run host C debug checkMemExpHeap w₀ events w) :
    Untouched C w₀ events w ∨ SetUp host C w₀ events w := by
  induction hrun with
  | start => exact .inl ⟨hloaded.required, by simp, rfl, rfl, hloaded.patches⟩
  | step _ last ih =>
    rcases ih with huntouched | hsetUp
    · exact huntouched.step last
    · exact .inr (hsetUp.step last)

theorem Run.setUp (hrun : Run host C debug checkMemExpHeap w₀ events w) (hloaded : Loaded w₀)
    (hready : w.ucSetupRequired = false) : SetUp host C w₀ events w := by
  rcases hrun.untouched_or_setUp hloaded with huntouched | hsetUp
  · rw [huntouched.required] at hready
    cases hready
  · exact hsetUp

/-- In every run of hooks and calls the setup happens once, with the first hook that asks for it.
Before that nothing is set up or replaced; from then on all functions are replaced, the registers
and the page table are what the setup made of those found at the start, and the heaps are what the
calls made of the heaps it created. -/
theorem run_sets_up_once (hloaded : Loaded w₀)
    (hrun : Run host C debug checkMemExpHeap w₀ events w) :
    Untouched C w₀ events w ∨ SetUp host C w₀ events w :=
  hrun.untouched_or_setUp hloaded

/-- The heaps of a module that is set up have come from new heaps by allocations and releases. -/
theorem Run.reachable (hC : Creates C live) (hloaded : Loaded w₀)
    (hrun : Run host C debug checkMemExpHeap w₀ events w)
    (hproper : Proper host C debug checkMemExpHeap live w₀ events)
    (hready : w.ucSetupRequired = false) : Reachable C.toCoreinit live w.heaps := by
  induction hrun with
  | start =>
    rw [hloaded.required] at hready
    cases hready
  | @step events w' w'' e run last ih =>
    have hbefore : Proper host C debug checkMemExpHeap live w₀ events := by
      intro before c after v hsplit
      exact hproper before c (after ++ [e]) v (by rw [hsplit]; simp)
    cases last with
    | wumsInitialize _ result =>
      cases hrequired : w'.ucSetupRequired with
      | true =>
        rw [(wumsInitialize_ok hrequired result).2.2.1]
        exact .fresh (createHeaps_fresh hC _)
      | false =>
        obtain rfl := wumsInitialize_again hrequired result
        exact ih hbefore hready
    | wumsApplicationStarts result =>
      obtain rfl := wumsApplicationStarts_ok result
      exact ih hbefore hready
    | wumsApplicationEnds result =>
      obtain rfl := wumsApplicationEnds_ok result
      exact ih hbefore hready
    | call => exact .call (ih hbefore hready) _ (hproper events _ [] w' rfl run hready)

theorem oneSlotHeaps_creates : Creates oneSlotHeaps oneSlotLive where
  memset := fun _ _ _ _ _ _ => ⟨rfl, rfl, rfl⟩
  others := by
    intro s r hr q hq hne
    refine ⟨?_, rfl, rfl⟩
    have hstart : q.effectiveStart ≠ r.effectiveStart := by
      intro h
      have hlt : ∀ p ∈ shippedTable.regions, p.effectiveStart < p.effectiveEnd := by decide
      exact hne (region_unique hq hr ⟨BitVec.le_refl _, hlt q hq⟩
        ⟨BitVec.le_of_eq h.symm, h ▸ hlt r hr⟩)
    simp [oneSlotLive, oneSlotHeaps, hstart]
  empty := by
    have hroom : ∀ r ∈ shippedTable.regions,
        r.effectiveStart ≤ r.effectiveStart + 0x40 ∧ r.effectiveStart + 0x44 ≤ r.effectiveEnd := by
      decide
    intro s r hr
    exact ⟨by simp [oneSlotLive, oneSlotHeaps], (hroom r hr).1, (hroom r hr).2⟩

theorem findContainHeapFrom_of_outside {C : Coreinit σ} {s : σ} {block : U32}
    {regions : List Region} (hout : ∀ r ∈ regions,
      ¬ (C.dataStart s r.effectiveStart ≤ block ∧ block < C.dataEnd s r.effectiveStart)) :
    findContainHeapFrom C s block (regions.map Region.toMapping ++ [⟨0, 0, none⟩]) = 0 := by
  induction regions with
  | nil => rfl
  | cons r regions ih =>
    simp only [List.map_cons, List.cons_append, findContainHeapFrom, Region.toMapping]
    rw [if_neg (hout r (List.mem_cons_self ..))]
    exact ih fun q hq => hout q (List.mem_cons_of_mem _ hq)

theorem findContainHeap_spec {s : σ} (hpaired : Paired C.toCoreinit live s)
    (hchild : ∀ heap block, C.findHeapContainingBlock s heap block = 0) (real : U32 → U32)
    (block : U32) :
    (∀ r ∈ shippedTable.regions, ∀ b ∈ live s r.effectiveStart, b.Contains block.toNat →
        ModuleHooks.findContainHeap C real s block = r.effectiveStart) ∧
      (¬ InRegion shippedTable block →
        ModuleHooks.findContainHeap C real s block = real block) := by
  constructor
  · intro r hr b hb hblock
    have hstart : ∀ r ∈ shippedTable.regions, r.effectiveStart ≠ 0 := by decide
    rw [ModuleHooks.findContainHeap, hpaired.findContainHeap hchild hr hb hblock]
    exact if_neg (hstart r hr)
  · intro hout
    refine if_pos ?_
    rw [memFindContainHeap, ← shippedTable_toArray]
    refine findContainHeapFrom_of_outside fun r hr hdata => hout ⟨r, hr, ?_⟩
    have hend := BitVec.le_def.mp (hpaired.data_end r hr)
    have hlast := BitVec.lt_def.mp hdata.2
    exact ⟨BitVec.le_trans (hpaired.data_start r hr) hdata.1, BitVec.lt_def.mpr (by omega)⟩

def sampleWorld : World (U32 → Bool) := ⟨true, 0, 0, fun _ => true, sampleTables, []⟩

def sampleEvents : List Event :=
  [.call (.memoryMappingAlloc 4),
    .wumsInitialize ⟨fun _ => some 1, fun _ _ => some 2, id⟩ fun _ => ⟨true, true⟩,
    .call (.memoryMappingAlloc 4)]

theorem sampleWorld_loaded : Loaded sampleWorld := ⟨rfl, rfl⟩

theorem sample_run : ∃ w, Run (sampleHost 1) oneSlotHeaps true (fun _ _ => true) sampleWorld
    sampleEvents w ∧ w.ucSetupRequired = false ∧ w.heaps 0x80000000 = true := by
  obtain ⟨stack, hsound⟩ := sampleHost_sound
  obtain ⟨ts', hsetup⟩ := exists_setsUp hsound sampleTables_fits rfl
  have hfull : Call.run oneSlotHeaps.toCoreinit (createHeaps oneSlotHeaps
      (Call.run oneSlotHeaps.toCoreinit (fun _ => true) (.alloc 4 0x04))) (.alloc 4 0x04)
        0x80000000 = true := by
    decide
  exact ⟨_, .step (.step (.step .start .call) (.wumsInitialize (fun _ => hsetup) rfl)) .call, rfl,
    hfull⟩

theorem sample_proper : Proper (sampleHost 1) oneSlotHeaps true (fun _ _ => true) oneSlotLive
    sampleWorld sampleEvents := by
  intro before c after w hsplit _ _
  have hcall : Event.call c ∈ sampleEvents := hsplit ▸ by simp
  obtain rfl : c = .memoryMappingAlloc 4 := by simpa [sampleEvents] using hcall
  trivial

theorem sample_sets_up_once : ∃ w, w.ucSetupRequired = false ∧
    (Untouched oneSlotHeaps sampleWorld sampleEvents w ∨
      SetUp (sampleHost 1) oneSlotHeaps sampleWorld sampleEvents w) := by
  obtain ⟨w, hrun, hready, _⟩ := sample_run
  exact ⟨w, hready, run_sets_up_once sampleWorld_loaded hrun⟩

end Hooks

section Mapped

variable {σ : Type} {host : Host} {C : HeapFunctions σ} {live : σ → Pools U32} {debug : Bool}
  {checkMemExpHeap : σ → U32 → Bool} {w₀ w : World σ} {events : List Event} {stack : Set U32}
  {core : Fin 3}

theorem region_mapped {ts ts' : Tables} (hsetup : SetsUp host ts ts') (hhost : host.Sound stack)
    (hsuits : host.Suits ts) (hmask : (ts.kernelReadSRs host.here).htabMask = 1)
    (hroom : ∀ ea, InRegion shippedTable ea →
      ∃ s, Usable (setupSegments (ts.kernelReadSRs host.here)) ts.table ea s)
    (hreached : host.Reached ts core) {ea : U32} (hea : InRegion shippedTable ea)
    (supervisor : Bool) (a : Access) :
    ts'.space core core supervisor a ea = .ok (effectiveToPhysical memMapping ea) := by
  obtain ⟨n, _, hall, hspaces⟩ := hsetup.extends hhost hsuits
  have hn := hall.mpr ((shipped_fitsAll_iff hsuits.fits hmask _).mpr hroom)
  have hwindow : ¬ InBatWindow ea := by
    obtain ⟨r, hr, hin⟩ := hea
    exact shippedTable.avoids_bat r hr ea hin
  rw [hspaces core hreached, extended, if_neg hwindow, if_pos (own_of_inRegion hea),
    if_pos (hn ▸ inPages_iff.mpr hea)]

def physicalImage (b : Block) : Set U32 :=
  effectiveToPhysical memMapping '' {ea | b.Contains ea.toNat}

theorem block_inRegion {s : σ} (h : Paired C.toCoreinit live s) {r : Region}
    (hr : r ∈ shippedTable.regions) {b : Block} (hb : b ∈ live s r.effectiveStart) {ea : U32}
    (hea : b.Contains ea.toNat) : InRegion shippedTable ea := by
  have hin := (h.bounds hr hb hea).1
  exact ⟨r, hr, BitVec.le_of_lt hin.1, hin.2⟩

theorem regions_injOn :
    Set.InjOn (effectiveToPhysical memMapping) {ea | InRegion shippedTable ea} := by
  have hback : Set.LeftInvOn (physicalToEffective memMapping) (effectiveToPhysical memMapping)
      {ea | InRegion shippedTable ea} := by
    intro ea hea
    rw [← shippedTable_toArray]
    exact physicalToEffective_effectiveToPhysical shippedTable_physicallyDisjoint (.inr hea)
  exact hback.injOn

theorem physicalImage_disjoint {s : σ} (h : Paired C.toCoreinit live s) {r q : Region}
    (hr : r ∈ shippedTable.regions) (hq : q ∈ shippedTable.regions) {b c : Block}
    (hb : b ∈ live s r.effectiveStart) (hc : c ∈ live s q.effectiveStart)
    (hne : (r.effectiveStart, b) ≠ (q.effectiveStart, c)) :
    Disjoint (physicalImage b) (physicalImage c) := by
  refine TranslatedMemory.disjoint_image (regions_injOn.mono (Set.union_subset ?_ ?_)) ?_
  · exact fun ea hea => block_inRegion h hr hb hea
  · exact fun ea hea => block_inRegion h hq hc hea
  · exact Set.disjoint_left.mpr fun ea hea hea' => h.disjoint hr hq hb hc hne _ ⟨hea, hea'⟩

/-- If every page of the regions found a slot when the module was loaded, then in every run of hooks
and calls, whatever is allocated once the module is set up is mapped: every access to a live block,
on a core that got its threads, goes where the module's translation says, and no two live blocks
share physical memory. -/
theorem live_blocks_mapped (hC : Creates C live) (hcoreinit : Manages C.toCoreinit live)
    (hloaded : Loaded w₀) (hhost : host.Sound stack) (hsuits : host.Suits w₀.tables)
    (hmask : (w₀.tables.kernelReadSRs host.here).htabMask = 1)
    (hroom : ∀ ea, InRegion shippedTable ea →
      ∃ s, Usable (setupSegments (w₀.tables.kernelReadSRs host.here)) w₀.tables.table ea s)
    (hrun : Run host C debug checkMemExpHeap w₀ events w)
    (hproper : Proper host C debug checkMemExpHeap live w₀ events)
    (hready : w.ucSetupRequired = false) :
    (∀ core, host.Reached w₀.tables core → ∀ r ∈ shippedTable.regions,
        ∀ b ∈ live w.heaps r.effectiveStart, ∀ ea : U32, b.Contains ea.toNat →
          ∀ supervisor a, w.tables.space core core supervisor a ea =
            .ok (effectiveToPhysical memMapping ea)) ∧
      ∀ r ∈ shippedTable.regions, ∀ q ∈ shippedTable.regions, ∀ b ∈ live w.heaps r.effectiveStart,
        ∀ c ∈ live w.heaps q.effectiveStart, (r.effectiveStart, b) ≠ (q.effectiveStart, c) →
          Disjoint (physicalImage b) (physicalImage c) := by
  have hsetUp := hrun.setUp hloaded hready
  have hpaired := (hrun.reachable hC hloaded hproper hready).paired hcoreinit
  constructor
  · intro core hreached r hr b hb ea hea
    exact region_mapped hsetUp.tables hhost hsuits hmask hroom hreached
      (block_inRegion hpaired hr hb hea)
  · exact fun r hr q hq b hb c hc hne => physicalImage_disjoint hpaired hr hq hb hc hne

theorem sample_room (ea : U32) (_ : InRegion shippedTable ea) :
    ∃ s, Usable (setupSegments (sampleTables.kernelReadSRs (sampleHost 1).here))
      sampleTables.table ea s :=
  emptyTable_usable (setupSegments_fits sampleTables_fits) ea

theorem sample_blocks_mapped : ∃ w, Run (sampleHost 1) oneSlotHeaps true (fun _ _ => true)
    sampleWorld sampleEvents w ∧ w.heaps 0x80000000 = true ∧ ∀ core, ∀ r ∈ shippedTable.regions,
      ∀ b ∈ oneSlotLive w.heaps r.effectiveStart, ∀ ea : U32, b.Contains ea.toNat →
        ∀ supervisor a, w.tables.space core core supervisor a ea =
          .ok (effectiveToPhysical memMapping ea) := by
  obtain ⟨stack, hsound⟩ := sampleHost_sound
  obtain ⟨w, hrun, hready, hlive⟩ := sample_run
  have hmapped := (live_blocks_mapped oneSlotHeaps_creates oneSlot_manages sampleWorld_loaded hsound
    sampleHost_suits (by decide) sample_room hrun sample_proper hready).1
  exact ⟨w, hrun, hlive, fun core => hmapped core (sampleHost_reached core)⟩

end Mapped

end MemoryMappingModule.ModuleHooks
