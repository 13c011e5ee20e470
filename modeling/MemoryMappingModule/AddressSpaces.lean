import MemoryMappingModule.CoreSetup
import MemoryMappingModule.CoreThreads
import MemoryMappingModule.MemoryManagement
import MemoryMappingModule.PageMaps

/-! What `MemoryMapping_setupMemoryMapping` does to the address space of a core. Afterwards a
core translates the window and the mapped pages of the regions as
`MemoryMapping_EffectiveToPhysical` does, whatever the access and the mode; the rest of segment 8
is unmapped, and all other addresses go where the core that ran the setup had them. -/

namespace MemoryMappingModule.AddressSpaces

open WordArithmetic PowerPc MemoryManagement MappingLayout PageTableFormat PageTableLookup
open PageTableMapping RegionMapping MappingSetup PageMaps AddressTranslation SetupCode CoreSetup
open Interleaving CoreThreads Filter

open ThreadObjects (affinities)

section Blocks

def windowBat : Access → Fin 8
  | .fetch => 4
  | _ => 5

def setupBat : Bat := ⟨0x008000FF, 0x30800012⟩

theorem bat_setup (spr : Spr → Word) (a : Access) (k : Fin 8) :
    bat (scSetupIBAT4DBAT5 spr) a k = if k = windowBat a then setupBat else bat spr a k := by
  cases a <;> fin_cases k <;> rfl

variable {supervisor : Bool} {ea : U32}

theorem setupBat_covers_iff : setupBat.Covers supervisor ea ↔ InBatWindow ea := by
  have hvalid : setupBat.Valid supervisor := by cases supervisor <;> rfl
  have hlow : ((ea >>> 17) &&& lowMask 32 6).toNat = ea.toNat / 2 ^ 17 % 2 ^ 6 := by
    rw [and_lowMask_toNat _ (by decide), BitVec.toNat_ushiftRight, Nat.shiftRight_eq_div_pow]
  have hle : (ea >>> 17) &&& lowMask 32 6 ≤ ea >>> 17 := by
    rw [BitVec.le_def, hlow, BitVec.toNat_ushiftRight, Nat.shiftRight_eq_div_pow]
    exact Nat.mod_le _ _
  have hcovers : setupBat.Covers supervisor ea ↔ (ea >>> 17) &&& ~~~lowMask 32 6 = 0x40 :=
    and_iff_right hvalid
  rw [hcovers, and_not_eq_sub, ← BitVec.toNat_inj, BitVec.toNat_sub_of_le hle, hlow,
    BitVec.toNat_ushiftRight, Nat.shiftRight_eq_div_pow]
  simp only [InBatWindow, BitVec.le_def, BitVec.lt_def, BitVec.reduceToNat]
  omega

theorem setupBat_allows (a : Access) : setupBat.Allows a := by
  cases a <;> decide

theorem setupBat_physical (hea : InBatWindow ea) : setupBat.physical ea = ea + 0x30000000 := by
  have hmask : (0x1840 : U32) &&& ((ea >>> 17) &&& lowMask 32 6) = 0 := by
    rw [← BitVec.and_assoc, BitVec.and_comm 0x1840, BitVec.and_assoc,
      show (0x1840 : U32) &&& lowMask 32 6 = 0 by decide]
    exact BitVec.and_zero
  have hoffset (x : U32) : (x <<< 17) &&& (ea &&& lowMask 32 17) = 0 := by
    rw [BitVec.and_comm ea, ← BitVec.and_assoc, shiftLeft_and_lowMask x le_rfl]
    exact BitVec.zero_and
  have hphysical : setupBat.physical ea =
      (((0x1840 : U32) ||| ((ea >>> 17) &&& lowMask 32 6)) <<< 17) ||| (ea &&& lowMask 32 17) := rfl
  rw [hphysical, ← BitVec.add_eq_or_of_and_eq_zero _ _ (hoffset _),
    ← BitVec.add_eq_or_of_and_eq_zero _ _ hmask]
  apply BitVec.eq_of_toNat_eq
  simp only [InBatWindow, BitVec.le_def, BitVec.lt_def, BitVec.reduceToNat] at hea
  rw [BitVec.toNat_add, BitVec.toNat_add, BitVec.toNat_shiftLeft, BitVec.toNat_add,
    and_lowMask_toNat _ (by decide), and_lowMask_toNat _ (by decide), BitVec.toNat_ushiftRight,
    Nat.shiftRight_eq_div_pow, Nat.shiftLeft_eq]
  simp only [BitVec.reduceToNat]
  omega

end Blocks

section Program

/-- What the cores translate addresses by. The page table is common to them. -/
structure Tables where
  cores : Cores
  segments : Fin 3 → Fin 16 → U32
  sdr1 : U32
  table : PageTable

structure Host where
  rt : Runtime
  mach : BorrowedWindow.Machine
  frame : BorrowedWindow.Frame
  pThread : U32
  pThreadStack : U32
  state : BorrowedWindow.State
  handlers : Word → Option Word
  launch : Launch
  buffers : Fin 3 → U32 × U32
  history : SystemCalls.History
  here : Fin 3
  pageTableAllocated : Bool

def Tables.space (ts : Tables) (core segmentsOf : Fin 3) : Space :=
  translate (walk ts.sdr1 ts.table) (ts.cores core) (ts.segments segmentsOf)

/-- `KernelReadSRs` -/
def Tables.kernelReadSRs (ts : Tables) (core : Fin 3) : SrTable := ⟨ts.segments core, ts.sdr1⟩

/-- `writeSegmentRegister` on a core: the kernel sets one register after the other. -/
def writeSegmentRegister (table : SrTable) (core : Fin 3) :
    List ((Fin 3 → Fin 16 → U32) → Fin 3 → Fin 16 → U32) :=
  (List.finRange 16).map fun i segments =>
    Function.update segments core (Function.update (segments core) i (table.value i))

def ownSegment : Fin 16 := SrTable.segmentIndex memoryStartBase

/-- `MemoryMapping_isMemoryMapped` -/
def isMemoryMapped (srTable : SrTable) : Bool :=
  srTable.value (SrTable.segmentIndex memoryStartBase) &&& 0x00FFFFFF = segmentUniqueId

theorem isMemoryMapped_iff (srTable : SrTable) :
    isMemoryMapped srTable = true ↔ srTable.value ownSegment &&& 0x00FFFFFF = segmentUniqueId :=
  decide_eq_true_iff

def Host.writers (host : Host) (srTableCpy : SrTable) : List (Core (Fin 3 → Fin 16 → U32)) :=
  allCores host.buffers (writeSegmentRegister (setupSegments srTableCpy))

/-- `MemoryMapping_setupMemoryMapping` may leave other tables. The threads that write the segment
registers may take their steps in any order. -/
inductive SetsUp (host : Host) (ts : Tables) : Tables → Prop
  | intro {node : Node} {s : CoreThreads.State (Fin 3 → Fin 16 → U32)} {t : PageTable}
    (enabled : ∀ᶠ passes in atTop, setupOnCores host.rt host.mach host.frame passes host.pThread
      host.pThreadStack ⟨host.state, host.handlers, ts.cores⟩ = some node)
    (wrote : Reaches (step host.launch)
      (start (host.writers (ts.kernelReadSRs host.here)) ts.segments host.history) s)
    (done : Stuck (step host.launch) s)
    (mapped : setupMemoryMapping host.pageTableAllocated (ts.kernelReadSRs host.here) ts.table =
      .ok t) :
    SetsUp host ts ⟨node.cores, s.shared, ts.sdr1, t⟩

end Program

section Segments

variable {ts : Tables} {host : Host} {table sr : SrTable} {segments : Fin 3 → Fin 16 → U32}

def Host.Writes (host : Host) (core : Fin 3) : Prop :=
  (host.buffers core.rev).1 ≠ 0 ∧ (host.buffers core.rev).2 ≠ 0

instance (host : Host) (core : Fin 3) : Decidable (host.Writes core) :=
  inferInstanceAs (Decidable (_ ∧ _))

theorem applyAll_write (core : Fin 3) (is : List (Fin 16)) :
    applyAll (is.map fun i segments => Function.update segments core
        (Function.update (segments core) i (table.value i))) segments =
      Function.update segments core fun i => if i ∈ is then table.value i else segments core i := by
  induction is generalizing segments with
  | nil => simp [applyAll]
  | cons i is ih =>
    rw [List.map_cons, applyAll, List.foldl_cons]
    refine ih.trans (funext fun j => ?_)
    by_cases hj : j = core
    · subst hj
      funext k
      simp only [Function.update_self, Function.update_apply, List.mem_cons]
      grind
    · simp only [Function.update_of_ne hj]

theorem applyAll_writeSegmentRegister (core : Fin 3) :
    applyAll (writeSegmentRegister table core) segments =
      Function.update segments core table.value := by
  rw [writeSegmentRegister, applyAll_write]
  simp only [List.mem_finRange, if_true]

theorem runCallbacks_writers (core : Fin 3) :
    runCallbacks (host.writers sr) segments core =
      if host.Writes core then (setupSegments sr).value else segments core := by
  have hcreated (core : Fin 3) (aff : U32) (callback) :
      (⟨aff, (host.buffers core.rev).1, (host.buffers core.rev).2, callback⟩ :
        Core (Fin 3 → Fin 16 → U32)).Created ↔ host.Writes core := Iff.rfl
  simp only [Host.writers, allCores, affinities, List.map_cons, List.map_nil, runCallbacks,
    applyAll_writeSegmentRegister, hcreated]
  fin_cases core <;> split_ifs <;> simp_all

end Segments

section Pages

variable {ts : Tables} {sr : SrTable} {t t' : PageTable} {n : ℕ} {ea vsid : U32}

def Unclaimed (t : PageTable) : Prop :=
  ∀ s, (entries t s).Valid → (entries t s).vsid ≠ segmentUniqueId

def InPages (n : ℕ) (ea : U32) : Prop :=
  ∃ p ∈ (tablePages shippedTable).take n, p.1 = ea.toNat - ea.toNat % 0x20000

instance (n : ℕ) (ea : U32) : Decidable (InPages n ea) := inferInstanceAs (Decidable (∃ _ ∈ _, _))

theorem segmentNumber_eq (ea : U32) : segmentNumber ea = SrTable.segmentIndex ea := by
  refine Fin.ext ?_
  change (ea.extractLsb' 28 4).toNat = (ea >>> 28).toNat
  rw [BitVec.extractLsb'_toNat, BitVec.toNat_ushiftRight, Nat.shiftRight_eq_div_pow]
  have hlt := ea.isLt
  omega

theorem own_of_inRegion (hea : InRegion shippedTable ea) :
    SrTable.segmentIndex ea = ownSegment := shippedTable_segment hea

theorem setupSegments_value (sr : SrTable) :
    (setupSegments sr).value = Function.update sr.value ownSegment segmentUniqueId := rfl

theorem setupSegments_vsid (hea : SrTable.segmentIndex ea = ownSegment) :
    (setupSegments sr).vsid ea = segmentUniqueId := by
  rw [SrTable.vsid, SrTable.segment, hea, setupSegments_value, Function.update_self]
  rfl

theorem unclaimed_fresh (hunclaimed : Unclaimed t) :
    Fresh shippedTable (setupSegments sr) t := by
  intro s a ha hvalid
  rw [setupSegments_vsid (own_of_inRegion ha)]
  exact hunclaimed s hvalid

theorem inRegion_of_page {p : ℕ × ℕ} (hp : p ∈ tablePages shippedTable)
    (hpage : p.1 = ea.toNat - ea.toNat % 0x20000) : InRegion shippedTable ea := by
  have haligned : ∀ r ∈ shippedTable.regions,
      r.effectiveStart.toNat % 0x20000 = 0 ∧ r.effectiveEnd.toNat % 0x20000 = 0 := by decide
  obtain ⟨hlt, _, r, hr, hcontains⟩ := mem_tablePages shippedTable_aligned hp
  obtain ⟨hstart, hend⟩ := haligned r hr
  refine ⟨r, hr, ?_⟩
  simp only [Region.Contains, BitVec.le_def, BitVec.lt_def, BitVec.toNat_ofNat,
    Nat.mod_eq_of_lt hlt] at hcontains ⊢
  omega

theorem pteLow_protection (pa : U32) : pteLow (pa >>> 12) 3 0x02 0x02 &&& 3 = 2 := by
  have flags : pteLow (pa >>> 12) 3 0x02 0x02 = ((pa >>> 12) <<< 12) ||| 0x192 := by
    rw [pteLow, BitVec.or_assoc, BitVec.or_assoc]
    rfl
  have hbits : ((pa >>> 12) <<< 12) &&& lowMask 32 2 = 0 :=
    shiftLeft_and_lowMask (pa >>> 12) (by decide)
  rw [flags, BitVec.and_or_distrib_right]
  change ((pa >>> 12) <<< 12) &&& lowMask 32 2 ||| (0x192 &&& 3) = 2
  rw [hbits]
  rfl

theorem insertPages_segment (hunclaimed : Unclaimed t) (hfits : sr.FitsTable) (n : ℕ)
    (hea : SrTable.segmentIndex ea = ownSegment) :
    (insertPages (setupSegments sr) (contents (setupSegments sr) (entries t))
        ((tablePages shippedTable).take n) (segmentUniqueId, pageNumber ea)).map (fun low =>
          ((low &&& 0xFFFFF000) + (ea &&& 0x1FFFF), low &&& 3)) =
      if InPages n ea then some (effectiveToPhysical memMapping ea, 2) else none := by
  have hkey : pageKey (setupSegments sr) ea = (segmentUniqueId, pageNumber ea) := by
    rw [pageKey, setupSegments_vsid hea]
  have hsame {p : ℕ × ℕ} (hp : p ∈ tablePages shippedTable) :
      pageKey (setupSegments sr) (BitVec.ofNat 32 p.1) = pageKey (setupSegments sr) ea ↔
        p.1 = ea.toNat - ea.toNat % 0x20000 := by
    have hsegment := own_of_inRegion (mem_tablePages shippedTable_aligned hp).2.2
    rw [← samePage_iff_of_mem shippedTable_aligned hp, pageKey, pageKey, setupSegments_vsid hea,
      setupSegments_vsid hsegment, Prod.mk.injEq, ← pageIndex_eq_iff]
    constructor
    · exact fun h => samePage_of_fields (hsegment.trans hea.symm) h.2
    · exact fun h => ⟨rfl, pageIndex_of_samePage h⟩
  rw [← hkey]
  split_ifs with hin
  · obtain ⟨p, hp, hpage⟩ := hin
    have hmem := List.mem_of_mem_take hp
    obtain ⟨q, hq, hqpage, hbacking, htranslation⟩ :=
      page_of_address shippedTable_aligned (inRegion_of_page hmem hpage)
    obtain rfl : p = q := by
      by_contra hne
      have : Std.Symm fun p q : ℕ × ℕ => p.1 ≠ q.1 := ⟨fun _ _ h => h.symm⟩
      exact (tablePages_distinct shippedTable_aligned).forall hmem hq hne (hpage.trans hqpage.symm)
    have hlt : p.2 < 2 ^ 32 := by
      have h := (effectiveToPhysical shippedTable.toArray ea).isLt
      omega
    have hkeys := (tablePages_keys shippedTable_aligned
      (shippedTable_separateSegments (setupSegments sr))).sublist (List.take_sublist n _)
    rw [← (hsame hmem).mpr hpage, insertPages_of_mem hkeys hp, Option.map_some, pteLow_page,
      pteLow_protection, ← shippedTable_toArray]
    exact congrArg (fun pa => some (pa, 2)) (page_offset_eq hlt hbacking htranslation)
  · have hnone :
        contents (setupSegments sr) (entries t) (pageKey (setupSegments sr) ea) = none := by
      rw [pageKey, ← lookup_contents, Option.map_eq_none_iff,
        lookup_eq_none_iff (setupSegments_fits hfits).mask_le, setupSegments_vsid hea]
      exact fun s hs => hunclaimed s hs.1 hs.2.1
    rw [insertPages_of_ne fun p hp hpkey => hin
      ⟨p, hp, (hsame (List.mem_of_mem_take hp)).mp hpkey⟩, hnone]
    rfl

end Pages

section Guarantees

variable {host : Host} {stack : Set U32} {ts ts' : Tables} {sr : SrTable} {t t' : PageTable} {n : ℕ}
  {spr : Spr → Word}

/-- What the setup makes of an address space: the window and the first `n` pages of the regions
go where the module says, and else segment 8 is unmapped. -/
def extended (n : ℕ) (space : Space) : Space := fun supervisor a ea =>
  if InBatWindow ea then .ok (effectiveToPhysical memMapping ea)
  else if SrTable.segmentIndex ea = ownSegment then
    if InPages n ea then .ok (effectiveToPhysical memMapping ea) else .error .unmapped
  else space supervisor a ea

/-- The blocks that the setup takes have no address outside of the window, and the others none
of the window or of segment 8. -/
structure Undisturbed (spr : Spr → Word) : Prop where
  taken : ∀ supervisor a ea, (bat spr a (windowBat a)).Covers supervisor ea → InBatWindow ea
  others : ∀ supervisor a k ea, k ≠ windowBat a → (bat spr a k).Covers supervisor ea →
    ¬ InBatWindow ea ∧ SrTable.segmentIndex ea ≠ ownSegment

/-- Segment 8 alone goes by the module's segment ID. -/
def Separate (sr : SrTable) : Prop :=
  ∀ i ≠ ownSegment, sr.value i &&& 0x00FFFFFF ≠ segmentUniqueId

theorem throughPages_segment (hfits : sr.FitsTable) (hunclaimed : Unclaimed t)
    (hcontents : contents (setupSegments sr) (entries t') = insertPages (setupSegments sr)
      (contents (setupSegments sr) (entries t)) ((tablePages shippedTable).take n))
    (supervisor : Bool) (a : Access) {ea : U32} (hea : SrTable.segmentIndex ea = ownSegment) :
    throughPages (walk sr.sdr1 t') segmentUniqueId supervisor a ea =
      if InPages n ea then .ok (effectiveToPhysical memMapping ea) else .error .unmapped := by
  have hwalk : walk sr.sdr1 t' (segmentUniqueId &&& 0x00FFFFFF) ea =
      if InPages n ea then some (effectiveToPhysical memMapping ea, 2) else none := by
    rw [← insertPages_segment hunclaimed hfits n hea, ← hcontents]
    exact walk_eq (setupSegments sr) t' _ ea
  have hdirect : segmentUniqueId.getLsbD 31 = false := by decide
  have hexecutable : segmentUniqueId.getLsbD 28 = false := by decide
  have hallows : PageAllows (segmentUniqueId.getLsbD (if supervisor then 30 else 29)) 2 a := by
    cases supervisor <;> cases a <;> decide
  simp only [throughPages, hdirect, hexecutable, Bool.false_eq_true, and_false, if_false]
  by_cases hin : InPages n ea
  · rw [hwalk, if_pos hin, if_pos hin]
    exact if_pos hallows
  · rw [hwalk, if_neg hin, if_neg hin]

/-- Through the other segments nothing changes. -/
theorem throughPages_elsewhere (hseparate : Separate sr)
    (hcontents : contents (setupSegments sr) (entries t') = insertPages (setupSegments sr)
      (contents (setupSegments sr) (entries t)) ((tablePages shippedTable).take n))
    (supervisor : Bool) (a : Access) {ea : U32} (hea : SrTable.segmentIndex ea ≠ ownSegment) :
    throughPages (walk sr.sdr1 t') ((setupSegments sr).value (segmentNumber ea)) supervisor a ea =
      throughPages (walk sr.sdr1 t) (sr.value (segmentNumber ea)) supervisor a ea := by
  have hvalue : (setupSegments sr).value (segmentNumber ea) = sr.value (segmentNumber ea) := by
    rw [setupSegments_value, segmentNumber_eq, Function.update_of_ne hea]
  have hwalk : walk sr.sdr1 t' (sr.value (segmentNumber ea) &&& 0x00FFFFFF) ea =
      walk sr.sdr1 t (sr.value (segmentNumber ea) &&& 0x00FFFFFF) ea := by
    have hforeign := hseparate (segmentNumber ea) (segmentNumber_eq ea ▸ hea)
    have hnew := walk_eq (setupSegments sr) t' (sr.value (segmentNumber ea) &&& 0x00FFFFFF) ea
    rw [hcontents, insertPages_of_ne fun p hp hkey => hforeign ?_] at hnew
    · exact hnew.trans (walk_eq (setupSegments sr) t _ ea).symm
    · have hmem := mem_tablePages shippedTable_aligned (List.mem_of_mem_take hp)
      rw [pageKey, setupSegments_vsid (own_of_inRegion hmem.2.2)] at hkey
      exact (congrArg Prod.fst hkey).symm
  rw [hvalue, throughPages, throughPages, hwalk]

theorem translate_extended (hfits : sr.FitsTable) (hunclaimed : Unclaimed t)
    (hseparate : Separate sr) (hspr : Undisturbed spr)
    (hcontents : contents (setupSegments sr) (entries t') = insertPages (setupSegments sr)
      (contents (setupSegments sr) (entries t)) ((tablePages shippedTable).take n)) :
    translate (walk sr.sdr1 t') (scSetupIBAT4DBAT5 spr) (setupSegments sr).value =
      extended n (translate (walk sr.sdr1 t) spr sr.value) := by
  funext supervisor a ea
  have hown : bat (scSetupIBAT4DBAT5 spr) a (windowBat a) = setupBat := by
    rw [bat_setup, if_pos rfl]
  have hother {k : Fin 8} (hk : k ≠ windowBat a) :
      bat (scSetupIBAT4DBAT5 spr) a k = bat spr a k := by
    rw [bat_setup, if_neg hk]
  have hcovers : (bat (scSetupIBAT4DBAT5 spr) a (windowBat a)).Covers supervisor ea ↔
      InBatWindow ea := by
    rw [hown]
    exact setupBat_covers_iff
  rw [extended]
  by_cases hwindow : InBatWindow ea
  · have halone : ∀ k ≠ windowBat a, ¬ (bat (scSetupIBAT4DBAT5 spr) a k).Covers supervisor ea := by
      intro k hk hcovered
      rw [hother hk] at hcovered
      exact (hspr.others supervisor a k ea hk hcovered).1 hwindow
    have hphysical : effectiveToPhysical memMapping ea = ea + 0x30000000 := if_pos hwindow
    rw [translate_of_covers (hcovers.mpr hwindow) halone (hown ▸ setupBat_allows a), hown,
      setupBat_physical hwindow, if_pos hwindow, hphysical]
  · rw [if_neg hwindow]
    by_cases hsegment : SrTable.segmentIndex ea = ownSegment
    · have hnone (k : Fin 8) : ¬ (bat (scSetupIBAT4DBAT5 spr) a k).Covers supervisor ea := by
        by_cases hk : k = windowBat a
        · rw [hk, hcovers]
          exact hwindow
        · intro hcovered
          rw [hother hk] at hcovered
          exact (hspr.others supervisor a k ea hk hcovered).2 hsegment
      rw [if_pos hsegment, translate_of_not_covers hnone, segmentNumber_eq, hsegment,
        setupSegments_value, Function.update_self]
      exact throughPages_segment hfits hunclaimed hcontents supervisor a hsegment
    · rw [if_neg hsegment]
      refine translate_congr (fun k => ?_)
        (throughPages_elsewhere hseparate hcontents supervisor a hsegment)
      by_cases hk : k = windowBat a
      · refine .inr ⟨?_, fun hcovered => hwindow (hspr.taken supervisor a ea (hk ▸ hcovered))⟩
        rw [hk, hcovers]
        exact hwindow
      · exact .inl (hother hk)

/-- The page table and the segment registers that the setup reads know nothing of its segment ID. -/
structure Host.Suits (host : Host) (ts : Tables) : Prop where
  fits : (ts.kernelReadSRs host.here).FitsTable
  unclaimed : Unclaimed ts.table
  separate : Separate (ts.kernelReadSRs host.here)

/-- A core that gets its threads, and whose blocks leave room for the setup. -/
structure Host.Reached (host : Host) (ts : Tables) (core : Fin 3) : Prop where
  thread : host.pThread ≠ 0 ∧ host.pThreadStack ≠ 0
  writes : host.Writes core
  undisturbed : Undisturbed (ts.cores core)

/-- What the setup relies on: that the kernel copies and serves system calls, that what it
overwrites is free for it, and threads that are not detached and have a stack. -/
structure Host.Sound (host : Host) (stack : Set U32) : Prop where
  copies : TranslatedMemory.Copies host.mach.kernelCopyData
  borrows : BorrowedWindow.Borrows host.mach host.frame stack
  resumes : host.mach.os.Resumes
  serving : host.rt.Serving
  spared : BorrowedWindow.Spared host.mach host.pThread host.pThreadStack
    (host.mach.osEffectiveToPhysical '' BorrowedWindow.window)
  codeHeld : CodeHeld host.mach host.frame host.state.memory
  attached : ¬ ThreadObjects.Detached host.launch.iAttr
  both : ∀ i, (host.buffers i).1 = 0 ∨ (host.buffers i).2 ≠ 0

theorem SetsUp.mapped (h : SetsUp host ts ts') : host.pageTableAllocated = true ∧
    setupMemoryMapping true (ts.kernelReadSRs host.here) ts.table = .ok ts'.table ∧
      ts'.sdr1 = ts.sdr1 := by
  obtain ⟨_, _, _, hmapped⟩ := h
  cases halloc : host.pageTableAllocated with
  | false =>
    rw [halloc] at hmapped
    cases hmapped
  | true => exact ⟨rfl, halloc ▸ hmapped, rfl⟩

/-- The threads on the cores and those that write the segment registers come to an end in every
order of their steps. -/
structure Completes (host : Host) (ts : Tables) : Prop where
  cores : ∃ node, ∀ᶠ passes in atTop, setupOnCores host.rt host.mach host.frame passes
    host.pThread host.pThreadStack ⟨host.state, host.handlers, ts.cores⟩ = some node
  writers : Ends (step host.launch)
    (start (host.writers (ts.kernelReadSRs host.here)) ts.segments host.history) fun s =>
      (∃ ts', SetsUp host ts ts' ∧ ts'.segments = s.shared) ↔ host.pageTableAllocated = true

section Phases

variable (hhost : host.Sound stack)
include hhost

theorem cores_end (cores : Fin 3 → Spr → Word) : ∃ node, (∀ᶠ passes in atTop,
      setupOnCores host.rt host.mach host.frame passes host.pThread host.pThreadStack
        ⟨host.state, host.handlers, cores⟩ = some node) ∧
    ∀ core, node.cores core = if host.pThread ≠ 0 ∧ host.pThreadStack ≠ 0 then
      scSetupIBAT4DBAT5 (cores core) else cores core :=
  setupOnCores_ends hhost.copies hhost.borrows hhost.resumes hhost.serving hhost.spared
    hhost.codeHeld

theorem writers_end (sr : SrTable) (segments : Fin 3 → Fin 16 → U32) :
    Ends (step host.launch) (start (host.writers sr) segments host.history) fun s =>
      s.shared = runCallbacks (host.writers sr) segments := by
  have hends := runOnAllCores_ends (allCores_served hhost.attached hhost.both
    (writeSegmentRegister (setupSegments sr))) segments host.history
  exact ⟨hends.finite, fun s hreach hstuck => (hends.result s hreach hstuck).2.2.1⟩

theorem setup_completes (hfits : (ts.kernelReadSRs host.here).FitsTable) : Completes host ts := by
  obtain ⟨node, henabled, _⟩ := cores_end hhost ts.cores
  refine ⟨⟨node, henabled⟩, (writers_end hhost _ ts.segments).finite, fun s hreach hstuck => ?_⟩
  constructor
  · rintro ⟨ts', hsetup, _⟩
    exact hsetup.mapped.1
  · intro halloc
    obtain ⟨t, hmapped, _⟩ := setupMemoryMapping_eq hfits ts.table
    exact ⟨_, .intro henabled hreach hstuck (halloc ▸ hmapped), rfl⟩

theorem exists_setsUp (hfits : (ts.kernelReadSRs host.here).FitsTable)
    (halloc : host.pageTableAllocated = true) : ∃ ts', SetsUp host ts ts' := by
  have hwriters := (setup_completes hhost hfits).writers
  obtain ⟨s, hreach, hstuck⟩ := hwriters.exists_stuck
  obtain ⟨ts', hsetup, _⟩ := (hwriters.result s hreach hstuck).mpr halloc
  exact ⟨ts', hsetup⟩

theorem SetsUp.cores (h : SetsUp host ts ts') (core : Fin 3) :
    ts'.cores core = if host.pThread ≠ 0 ∧ host.pThreadStack ≠ 0 then
      scSetupIBAT4DBAT5 (ts.cores core) else ts.cores core := by
  obtain ⟨henabled, _, _, _⟩ := h
  obtain ⟨node', henabled', hcores⟩ := cores_end hhost ts.cores
  obtain ⟨passes, hnode, hnode'⟩ := (henabled.and henabled').exists
  obtain rfl := Option.some.inj (hnode.symm.trans hnode')
  exact hcores core

theorem SetsUp.segments (h : SetsUp host ts ts') (core : Fin 3) :
    ts'.segments core = if host.Writes core then
      (setupSegments (ts.kernelReadSRs host.here)).value else ts.segments core := by
  obtain ⟨_, hreach, hstuck, _⟩ := h
  rw [← runCallbacks_writers]
  exact congrFun ((writers_end hhost _ _).result _ hreach hstuck) core

end Phases

theorem SetsUp.extends (h : SetsUp host ts ts') (hhost : host.Sound stack)
    (hsuits : host.Suits ts) :
    ∃ n ≤ (tablePages shippedTable).length,
      (n = (tablePages shippedTable).length ↔ FirstFit.FitsAll Pte.Free (entries ts.table)
        (requests (setupSegments (ts.kernelReadSRs host.here)) (tablePages shippedTable))) ∧
      ∀ core, host.Reached ts core →
        ts'.space core core = extended n (ts.space core host.here) := by
  obtain ⟨hfits, hunclaimed, hseparate⟩ := hsuits
  have hfits' := setupSegments_fits hfits
  obtain ⟨n, hn, hcontents, hall⟩ := placeAll_inserts hfits'
    (tablePages_keys shippedTable_aligned (shippedTable_separateSegments _))
    fun p hp => unmapped_of_fresh hfits' (unclaimed_fresh hunclaimed) _
      (mem_tablePages shippedTable_aligned hp).2.2
  rw [FirstFit.placeAll_succeeds_iff (requests_solid hfits' _) (requests_sameOrDisjoint hfits' _)]
    at hall
  refine ⟨n, hn, hall.symm, fun core hreached => ?_⟩
  have hcores := h.cores hhost core
  have hsegments := h.segments hhost core
  rw [if_pos hreached.thread] at hcores
  rw [if_pos hreached.writes] at hsegments
  obtain ⟨_, hmapped, hsdr1⟩ := h.mapped
  obtain ⟨t', hmapped', hentries⟩ := setupMemoryMapping_eq hfits ts.table
  have htable : ts'.table = t' := Except.ok.inj (hmapped.symm.trans hmapped')
  rw [← hentries, ← htable] at hcontents
  have hextended := translate_extended hfits hunclaimed hseparate hreached.undisturbed hcontents
  rw [Tables.space, Tables.space, hcores, hsegments, hsdr1]
  exact hextended

/-- The setup comes to an end, whatever order the threads take. There a core that got both of its
threads translates every address as before, by the segments of the core that ran the setup, but for
the window and the pages mapped: these go where the module's translation says. All pages are mapped
exactly if they find room. -/
theorem setup_extends (hhost : host.Sound stack) (hsuits : host.Suits ts) :
    Completes host ts ∧ ∀ ts', SetsUp host ts ts' →
      ∃ n ≤ (tablePages shippedTable).length,
        (n = (tablePages shippedTable).length ↔ FirstFit.FitsAll Pte.Free (entries ts.table)
          (requests (setupSegments (ts.kernelReadSRs host.here)) (tablePages shippedTable))) ∧
        ∀ core, host.Reached ts core →
          ts'.space core core = extended n (ts.space core host.here) :=
  ⟨setup_completes hhost hsuits.fits, fun _ hsetup => hsetup.extends hhost hsuits⟩

noncomputable def sampleHost (here : Fin 3) : Host where
  rt := sampleRuntime
  mach := BorrowedWindow.shiftedMachine
  frame := BorrowedWindow.sampleFrame
  pThread := 0x11000000
  pThreadStack := 0x11001000
  state := sampleNode.state
  handlers := sampleNode.handlers
  launch := sampleLaunch
  buffers := sampleBuffers
  history := []
  here := here
  pageTableAllocated := true

def sampleTables : Tables := ⟨fun _ _ => 0, fun _ => kernelSegments.value, 0x00E00001, fun _ => 0⟩

theorem sampleHost_sound : ∃ stack, (sampleHost 1).Sound stack :=
  ⟨_, {
    copies := TranslatedMemory.copyBetween_copies
    borrows := BorrowedWindow.sample_borrows
    resumes := ThreadObjects.countingOS_resumes
    serving := sampleRuntime_serving
    spared := sample_spares_window
    codeHeld := sample_codeHeld
    attached := (by decide : ¬ ThreadObjects.Detached 0)
    both := fun _ => .inr (by decide : (0x10001000 : U32) ≠ 0) }⟩

theorem sampleTables_fits : (sampleTables.kernelReadSRs 1).FitsTable := ⟨by decide, by decide⟩

theorem sampleTables_unclaimed : Unclaimed sampleTables.table :=
  fun _ hvalid => absurd rfl hvalid.not_free

theorem zero_not_covers (supervisor : Bool) (a : Access) (k : Fin 8) (ea : U32) :
    ¬ (bat (fun _ => 0) a k).Covers supervisor ea := by
  intro hcovers
  have hvalid : (0 : U32).getLsbD (if supervisor then 1 else 0) = true := hcovers.1
  simp at hvalid

theorem zero_undisturbed : Undisturbed fun _ => 0 :=
  ⟨fun _ _ _ h => absurd h (zero_not_covers _ _ _ _),
    fun _ _ _ _ _ h => absurd h (zero_not_covers _ _ _ _)⟩

theorem sampleHost_suits : (sampleHost 1).Suits sampleTables :=
  ⟨sampleTables_fits, sampleTables_unclaimed,
    fun _ _ => (by decide : (0x30FFFFFF : U32) &&& 0x00FFFFFF ≠ segmentUniqueId)⟩

theorem sampleHost_reached (core : Fin 3) : (sampleHost 1).Reached sampleTables core :=
  ⟨(by decide : (0x11000000 : U32) ≠ 0 ∧ (0x11001000 : U32) ≠ 0),
    (by decide : (0x10000000 : U32) ≠ 0 ∧ (0x10001000 : U32) ≠ 0), zero_undisturbed⟩

theorem sample_extends : Completes (sampleHost 1) sampleTables ∧
    ∀ ts', SetsUp (sampleHost 1) sampleTables ts' → ∃ n ≤ (tablePages shippedTable).length,
      (n = (tablePages shippedTable).length ↔ FirstFit.FitsAll Pte.Free (entries fun _ => 0)
        (requests (setupSegments (sampleTables.kernelReadSRs 1)) (tablePages shippedTable))) ∧
      ∀ core, ts'.space core core = extended n (sampleTables.space core 1) := by
  obtain ⟨stack, hsound⟩ := sampleHost_sound
  obtain ⟨hcompletes, hall⟩ := setup_extends hsound sampleHost_suits
  refine ⟨hcompletes, fun ts' hsetup => ?_⟩
  obtain ⟨n, hn, hfit, hspaces⟩ := hall ts' hsetup
  exact ⟨n, hn, hfit, fun core => hspaces core (sampleHost_reached core)⟩

/-- Afterwards the memory is mapped, as the module checks it, on exactly those cores that got a
thread to write their segment registers or on which it was before. -/
theorem setup_isMemoryMapped (hhost : host.Sound stack) (hsetup : SetsUp host ts ts')
    (core : Fin 3) : isMemoryMapped (ts'.kernelReadSRs core) = true ↔
      host.Writes core ∨ isMemoryMapped (ts.kernelReadSRs core) = true := by
  rw [isMemoryMapped_iff, isMemoryMapped_iff, Tables.kernelReadSRs, hsetup.segments hhost core]
  split_ifs with hwrites
  · refine iff_of_true ?_ (.inl hwrites)
    rw [setupSegments_value, Function.update_self]
    rfl
  · exact (or_iff_right hwrites).symm

theorem sample_isMemoryMapped : ∃ ts', SetsUp (sampleHost 1) sampleTables ts' ∧ ∀ core,
    (isMemoryMapped (ts'.kernelReadSRs core) = true ↔ (sampleHost 1).Writes core ∨
      isMemoryMapped (sampleTables.kernelReadSRs core) = true) := by
  obtain ⟨stack, hsound⟩ := sampleHost_sound
  obtain ⟨ts', hsetup⟩ := exists_setsUp hsound sampleTables_fits rfl
  exact ⟨ts', hsetup, setup_isMemoryMapped hsound hsetup⟩

end Guarantees

end MemoryMappingModule.AddressSpaces
