import MemoryMappingModule.CoreThreads
import MemoryMappingModule.MappingLayout

/-! The instructions of the kernel that the setup takes out. Each core overwrites them with NOPs
in the memory that the cores share. In every order of their writes the kernel then keeps the
segment register of the heaps, and goes on writing the others. -/

namespace MemoryMappingModule.KernelPatches

open Interleaving CoreThreads MappingLayout

section Program

abbrev Code := U32 → U32

def nop : U32 := 0x60000000

def segmentWrites (sr : ℕ) : List U32 :=
  [0xfff1d734 + 0x4 * BitVec.ofNat 32 sr,
    if sr < 7 then 0xfff1d604 + 0x4 * BitVec.ofNat 32 sr
    else 0xfff1d648 + 0x4 * BitVec.ofNat 32 (sr - 7),
    0xffe00618 + 0x4 * BitVec.ofNat 32 sr]

def panicBranches : List U32 :=
  -- app panic 0x17
  [0xfff01db0, 0xfff01e90, 0xfff01ea0, 0xfff01ea4,
    -- app panic 0x12
    0xfff01a00, 0xfff01b68, 0xfff01b70, 0xfff01b7c, 0xfff01b80,
    -- app panic 0x16
    0xfff0db24, 0xfff0dbb4, 0xfff0dbbc, 0xfff0dbc8, 0xfff0dbcc,
    -- app panic 0x14
    0xfff01cfc, 0xfff01d4c, 0xfff01d54, 0xfff01d60, 0xfff01d64]

def heapSegment : ℕ := (memoryStartBase >>> 28).toNat

def nopAddresses : List U32 := segmentWrites heapSegment ++ panicBranches

/-- `writeKernelNOPs`, by what `KernelNOPAtPhysicalAddress` does to memory. -/
def writeKernelNOPs (kernelNOPAtPhysicalAddress : U32 → Code → Code) : List (Code → Code) :=
  nopAddresses.map kernelNOPAtPhysicalAddress

/-- An instruction of the kernel's code runs on a core. It may change the segment registers that
it writes. -/
def Executes (text : Set U32) (writes : U32 → Set (Fin 16)) (code : Code)
    (segments segments' : Fin 3 → Fin 16 → U32) : Prop :=
  ∃ core, ∃ a ∈ text, (∀ c ≠ core, segments' c = segments c) ∧
    ∀ i ∉ writes (code a), segments' core i = segments core i

end Program

section Patches

variable {kernelNOPAtPhysicalAddress : U32 → Code → Code} {code : Code}
  {text : Set U32} {writes : U32 → Set (Fin 16)} {segments segments' : Fin 3 → Fin 16 → U32}

def patched (code : Code) : Code := fun a => if a ∈ nopAddresses then nop else code a

theorem patched_patched (code : Code) : patched (patched code) = patched code := by
  funext a
  simp only [patched]
  split_ifs
  · rfl
  · rfl

theorem applyAll_nops (hnops : ∀ a m, kernelNOPAtPhysicalAddress a m = Function.update m a nop)
    (addresses : List U32) (code : Code) :
    applyAll (addresses.map kernelNOPAtPhysicalAddress) code =
      fun a => if a ∈ addresses then nop else code a := by
  induction addresses generalizing code with
  | nil => simp [applyAll]
  | cons b addresses ih =>
    rw [List.map_cons, applyAll, List.foldl_cons]
    refine (ih _).trans (funext fun a => ?_)
    rw [hnops, Function.update_apply]
    by_cases hb : a = b
    · simp [hb]
    · simp [hb]

/-- Where the cores all do the same and doing it again changes nothing, one of them is enough. -/
theorem runCallbacks_of_idempotent {σ : Type*} {f : σ → σ} (hf : ∀ x, f (f x) = f x)
    {cores : List (Core σ)} (hall : ∀ core ∈ cores, applyAll core.callback = f) (x : σ) :
    runCallbacks cores x = if ∃ core ∈ cores, core.Created then f x else x := by
  induction cores generalizing x with
  | nil => simp [runCallbacks]
  | cons core cores ih =>
    obtain ⟨hcore, hrest⟩ := List.forall_mem_cons.mp hall
    rw [runCallbacks, ih hrest, hcore]
    by_cases hcreated : core.Created
    · simp [hcreated, hf]
    · simp [hcreated]

theorem runCallbacks_nops (hnops : ∀ a m, kernelNOPAtPhysicalAddress a m = Function.update m a nop)
    {buffers : Fin 3 → U32 × U32} (hsome : ∃ i, (buffers i).1 ≠ 0 ∧ (buffers i).2 ≠ 0)
    (code : Code) :
    runCallbacks (allCores buffers fun _ => writeKernelNOPs kernelNOPAtPhysicalAddress) code =
      patched code := by
  have hone : applyAll (writeKernelNOPs kernelNOPAtPhysicalAddress) = patched :=
    funext (applyAll_nops hnops nopAddresses)
  rw [allCores, runCallbacks_of_idempotent patched_patched
    (List.forall_mem_map.mpr fun _ _ => hone), if_pos]
  obtain ⟨i, hi⟩ := hsome
  fin_cases i
  · exact ⟨_, List.mem_cons_self, hi⟩
  · exact ⟨_, List.mem_cons_of_mem _ List.mem_cons_self, hi⟩
  · exact ⟨_, List.mem_cons_of_mem _ (List.mem_cons_of_mem _ List.mem_cons_self), hi⟩

theorem segmentWrites_kept : ∀ i : Fin 16, i.val ≠ heapSegment →
    ∀ a ∈ segmentWrites i, a ∉ nopAddresses := by
  have hall : ∀ i : Fin 16, i.val ≠ heapSegment →
      (segmentWrites i).all (fun a => a ∉ nopAddresses) = true := by
    decide
  exact fun i hi a ha => of_decide_eq_true (List.all_eq_true.mp (hall i hi) a ha)

theorem segment_kept (hwrites : writes nop = ∅)
    (hsites : ∀ a ∈ text, 8 ∈ writes (code a) → a ∈ segmentWrites heapSegment)
    (hrun : Relation.ReflTransGen (Executes text writes (patched code)) segments segments')
    (core : Fin 3) : segments' core 8 = segments core 8 := by
  induction hrun with
  | refl => rfl
  | tail _ last ih =>
    obtain ⟨c, a, ha, hothers, hkept⟩ := last
    rw [← ih]
    by_cases hc : core = c
    · rw [hc]
      refine hkept 8 fun hin => ?_
      rw [patched] at hin
      split_ifs at hin with hnop
      · rw [hwrites] at hin
        exact hin
      · exact hnop (List.mem_append_left _ (hsites a ha hin))
    · rw [hothers core hc]

/-- In every order of the cores' writes the setup ends with the same code, if any core got a thread.
The kernel then leaves the segment register of the heaps alone, for ever, and the code that writes
other segment registers is as it was. -/
theorem segment_register_survives (launch : Launch)
    (hattached : ¬ ThreadObjects.Detached launch.iAttr) {buffers : Fin 3 → U32 × U32}
    (hboth : ∀ i, (buffers i).1 = 0 ∨ (buffers i).2 ≠ 0) (hsome : ∃ i, (buffers i).1 ≠ 0)
    (hnops : ∀ a m, kernelNOPAtPhysicalAddress a m = Function.update m a nop)
    (hwrites : writes nop = ∅)
    (hsites : ∀ a ∈ text, 8 ∈ writes (code a) → a ∈ segmentWrites heapSegment)
    (h : SystemCalls.History) :
    Ends (step launch)
      (start (allCores buffers fun _ => writeKernelNOPs kernelNOPAtPhysicalAddress) code h)
      fun s => s.shared = patched code ∧
        (∀ segments segments',
          Relation.ReflTransGen (Executes text writes s.shared) segments segments' →
            ∀ core, segments' core 8 = segments core 8) ∧
        ∀ i : Fin 16, i ≠ 8 → ∀ a ∈ segmentWrites i, s.shared a = code a := by
  obtain ⟨i, hi⟩ := hsome
  have hcode := runCallbacks_nops hnops ⟨i, hi, (hboth i).resolve_left hi⟩ code
  have hends := runOnAllCores_ends (allCores_served hattached hboth
    fun _ => writeKernelNOPs kernelNOPAtPhysicalAddress) code h
  refine ⟨hends.finite, fun s hreach hstuck => ?_⟩
  obtain ⟨_, _, hshared, _⟩ := hends.result s hreach hstuck
  rw [hshared, hcode]
  refine ⟨rfl, fun _ _ hrun => segment_kept hwrites hsites hrun, fun i hne a ha => ?_⟩
  exact if_neg (segmentWrites_kept i (fun h => hne (Fin.ext h)) a ha)

def sampleCode : Code := fun a => if a = 0xfff1d754 then 0x7c0801a4 else nop

theorem sample_survives : Ends (step sampleLaunch)
    (start (allCores sampleBuffers fun _ => writeKernelNOPs fun a m => Function.update m a nop)
      sampleCode [])
    fun s => s.shared = patched sampleCode ∧
      (∀ segments segments', Relation.ReflTransGen
        (Executes Set.univ (fun w => if w = 0x7c0801a4 then {8} else ∅) s.shared) segments
          segments' → ∀ core, segments' core 8 = segments core 8) ∧
      ∀ i : Fin 16, i ≠ 8 → ∀ a ∈ segmentWrites i, s.shared a = sampleCode a := by
  refine segment_register_survives sampleLaunch (by decide) (by decide) ⟨0, by decide⟩
    (fun _ _ => rfl) (if_neg (by decide)) ?_ []
  intro a _ hin
  by_cases ha : a = 0xfff1d754
  · rw [ha]
    decide
  · rw [sampleCode, if_neg ha, if_neg (by decide)] at hin
    exact absurd hin (Set.notMem_empty 8)

end Patches

end MemoryMappingModule.KernelPatches
