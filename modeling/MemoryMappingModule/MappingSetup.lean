import MemoryMappingModule.RegionMapping

/-! `MemoryMapping_setupMemoryMapping`: it points segment 8 at the module's own segment
ID, maps the regions of `mem_mapping` and writes the page table back. A page that finds
no free slot ends the mapping without stopping the setup, so the table written back
covers every region exactly when each page either was mapped before or comes while its
groups still have room. -/

namespace MemoryMappingModule.MappingSetup

open FirstFit MappingLayout PageTableFormat PageTableMapping RegionMapping

/-- The segment registers as `MemoryMapping_setupMemoryMapping` writes them to all cores. -/
def setupSegments (srTableCpy : SrTable) : SrTable where
  value := Function.update srTableCpy.value (SrTable.segmentIndex memoryStartBase)
    (0x00000000 ||| segmentUniqueId)
  sdr1 := srTableCpy.sdr1

/-- `MemoryMapping_setupMemoryMapping` on what `KernelReadSRs` and `KernelReadPTE` return;
the result is what `KernelWritePTE` is given. -/
def setupMemoryMapping (pageTableAllocated : Bool) (srTableCpy : SrTable)
    (pageTableCpy : PageTable) : Exec PageTable :=
  if pageTableAllocated = false then
    .error (.osFatal "MemoryMappingModule: Failed to alloc memory for page table")
  else memoryMappingForRegions memMapping (setupSegments srTableCpy) pageTableCpy

section Groups

variable {sr : SrTable}

theorem pteg_not (mask hash : U32) :
    pteg mask (~~~hash) = ((mask <<< 10) ||| 0x3FF) &&& ~~~pteg mask hash := by
  apply BitVec.eq_of_getLsbD_eq
  intro i hi
  simp only [pteg, BitVec.getLsbD_and, BitVec.getLsbD_not]
  grind

theorem mem_slots_request (hfits : sr.FitsTable) (p : Page) (s : Slot) :
    s ∈ slots (p.request sr) ↔
      (s.val / 8 = (pteg sr.htabMask (primaryHash (sr.vsid p.effective) p.effective)).toNat ∨
        s.val / 8 = (pteg sr.htabMask (~~~primaryHash (sr.vsid p.effective) p.effective)).toNat) ∧
      s.val % 8 ≠ 0 := by
  have hzero : p.effective + 0 = p.effective := BitVec.add_zero _
  have hmem (g : ℕ) (e : Pte) : (∃ c ∈ (usableSlots g).map (fun s => (s, e)), c.1 = s) ↔
      s ∈ usableSlots g := by simp
  rw [mem_slots, Page.request, pageRequest, hzero]
  simp only [List.mem_append, or_and_right, exists_or, hmem]
  rw [primaryGroup, secondaryGroup, placementGroup_eq hfits, placementGroup_eq hfits,
    mem_usableSlots (pteg_toNat_lt hfits.mask_le _),
    mem_usableSlots (pteg_toNat_lt hfits.mask_le _)]

theorem request_slots_eq_or_disjoint (hfits : sr.FitsTable) (p q : Page) :
    slots (p.request sr) = slots (q.request sr) ∨
      Disjoint (slots (p.request sr)) (slots (q.request sr)) := by
  have hp := mem_slots_request hfits p
  have hq := mem_slots_request hfits q
  have hnot := pteg_not sr.htabMask (primaryHash (sr.vsid p.effective) p.effective)
  have hnot' := pteg_not sr.htabMask (primaryHash (sr.vsid q.effective) q.effective)
  have hback := pteg_not sr.htabMask (~~~primaryHash (sr.vsid p.effective) p.effective)
  have hback' := pteg_not sr.htabMask (~~~primaryHash (sr.vsid q.effective) q.effective)
  rw [BitVec.not_not] at hback hback'
  generalize pteg sr.htabMask (primaryHash (sr.vsid p.effective) p.effective) = g₁ at *
  generalize pteg sr.htabMask (~~~primaryHash (sr.vsid p.effective) p.effective) = g₂ at *
  generalize pteg sr.htabMask (primaryHash (sr.vsid q.effective) q.effective) = g₁' at *
  generalize pteg sr.htabMask (~~~primaryHash (sr.vsid q.effective) q.effective) = g₂' at *
  by_cases hshared : g₁ = g₁' ∨ g₁ = g₂'
  · refine Or.inl (Finset.ext fun s => ?_)
    rw [hp, hq]
    rcases hshared with rfl | rfl
    · rw [hnot, hnot']
    · rw [hnot, ← hback', or_comm]
  · refine Or.inr (Finset.disjoint_left.mpr fun s hs hs' => hshared ?_)
    rw [hp] at hs
    rw [hq] at hs'
    rcases hs.1 with h | h <;> rcases hs'.1 with h' | h'
    · exact Or.inl (BitVec.eq_of_toNat_eq (h.symm.trans h'))
    · exact Or.inr (BitVec.eq_of_toNat_eq (h.symm.trans h'))
    · have hsame : g₂ = g₁' := BitVec.eq_of_toNat_eq (h.symm.trans h')
      exact Or.inr (by rw [hback, hsame, ← hnot'])
    · have hsame : g₂ = g₂' := BitVec.eq_of_toNat_eq (h.symm.trans h')
      exact Or.inl (by rw [hback, hsame, ← hback'])

theorem requests_sameOrDisjoint (hfits : sr.FitsTable) (ps : List (ℕ × ℕ)) :
    SameOrDisjoint (requests sr ps) := by
  intro q hq r hr
  obtain ⟨_, _, rfl⟩ := List.mem_map.mp hq
  obtain ⟨_, _, rfl⟩ := List.mem_map.mp hr
  exact request_slots_eq_or_disjoint hfits _ _

theorem requests_solid (hfits : sr.FitsTable) (ps : List (ℕ × ℕ)) :
    Solid Pte.Free (requests sr ps) := by
  intro r hr c hc
  obtain ⟨p, _, rfl⟩ := List.mem_map.mp hr
  exact (request_translates hfits _ hc).1.not_free

end Groups

section PageOutcome

variable {T : MappingTable} {sr : SrTable} {t : PageTable}

theorem page_unmapped_of_stopped (haligned : PageAligned T) (hfits : sr.FitsTable)
    (hsegments : SeparateSegments T sr) {pre post : List (ℕ × ℕ)} {p : ℕ × ℕ}
    (hsplit : tablePages T = pre ++ p :: post)
    (hstopped : (placeAll Pte.Free (entries t) (requests sr (pre ++ [p]))).1 = false) {s : Slot}
    (hs : Translates sr (sr.vsid (BitVec.ofNat 32 p.1)) (BitVec.ofNat 32 p.1) s
      ((placeAll Pte.Free (entries t) (requests sr (tablePages T))).2 s)) :
    Translates sr (sr.vsid (BitVec.ofNat 32 p.1)) (BitVec.ofNat 32 p.1) s (entries t s) := by
  have hmem : p ∈ tablePages T := by simp [hsplit]
  obtain ⟨hlt, hdvd, hin⟩ := mem_tablePages haligned hmem
  rw [requests_append, requests_cons] at hstopped
  rw [hsplit, requests_append, requests_cons] at hs
  rcases placeAll_grows_of_failed hstopped s with same | ⟨_, r, hr, hoffered⟩
  · rwa [same] at hs
  · obtain ⟨q, hq, rfl⟩ := List.mem_map.mp hr
    have hpage := (request_translates_iff haligned hfits hsegments hin
      (by simp [hsplit, hq]) hoffered).mp hs
    rw [BitVec.toNat_ofNat, Nat.mod_eq_of_lt hlt, Nat.mod_eq_zero_of_dvd hdvd] at hpage
    exact absurd hpage ((ne_of_split haligned hsplit).1 q hq)

theorem page_mapped_of_served (hfits : sr.FitsTable) {pre post : List (ℕ × ℕ)} {p : ℕ × ℕ}
    (hsplit : tablePages T = pre ++ p :: post)
    (hok : (placeAll Pte.Free (entries t) (requests sr (pre ++ [p]))).1 = true) :
    ∃ s, Translates sr (sr.vsid (BitVec.ofNat 32 p.1)) (BitVec.ofNat 32 p.1) s
      ((placeAll Pte.Free (entries t) (requests sr (tablePages T))).2 s) := by
  have hserved := placeAll_stores (requests_solid hfits _) hok
    (List.mem_map_of_mem (List.mem_append_right pre (List.mem_singleton.mpr rfl)))
  have hgrows : Grows Pte.Free (requests sr post) _ _ := placeAll_grows
    (placeAll Pte.Free (entries t) (requests sr (pre ++ [p]))).2 (requests sr post)
  obtain ⟨c, hc, hstored⟩ := hgrows.stores
    (fun c hc => (request_translates hfits _ hc).1.not_free) hserved
  have htranslates := request_translates hfits _ hc
  rw [← hstored] at htranslates
  have hlast : tablePages T = (pre ++ [p]) ++ post := by simp [hsplit]
  rw [hlast, requests_append, placeAll_append, if_pos hok]
  exact ⟨c.1, htranslates⟩

/-- A page ends up with an entry exactly when it had one or the first fit reached it. -/
theorem page_mapped_iff (haligned : PageAligned T) (hfits : sr.FitsTable)
    (hsegments : SeparateSegments T sr) {pre post : List (ℕ × ℕ)} {p : ℕ × ℕ}
    (hsplit : tablePages T = pre ++ p :: post) :
    (∃ s, Translates sr (sr.vsid (BitVec.ofNat 32 p.1)) (BitVec.ofNat 32 p.1) s
        ((placeAll Pte.Free (entries t) (requests sr (tablePages T))).2 s)) ↔
      (∃ s, Translates sr (sr.vsid (BitVec.ofNat 32 p.1)) (BitVec.ofNat 32 p.1) s (entries t s)) ∨
        FitsAll Pte.Free (entries t) (requests sr (pre ++ [p])) := by
  rw [← placeAll_succeeds_iff (requests_solid hfits (pre ++ [p])) (requests_sameOrDisjoint hfits _)]
  constructor
  · rintro ⟨s, hs⟩
    by_cases hok : (placeAll Pte.Free (entries t) (requests sr (pre ++ [p]))).1 = true
    · exact Or.inr hok
    · rw [Bool.not_eq_true] at hok
      exact Or.inl ⟨s, page_unmapped_of_stopped haligned hfits hsegments hsplit hok hs⟩
  · rintro (⟨s, hs⟩ | hok)
    · refine ⟨s, ?_⟩
      rw [(placeAll_grows (entries t) _).eq_of_not_free hs.1.not_free]
      exact hs
    · exact page_mapped_of_served hfits hsplit hok

end PageOutcome

section Outcome

variable {sr : SrTable} {t : PageTable}

def RegionsMapped (sr : SrTable) (t : PageTable) : Prop :=
  ∀ ea, InRegion shippedTable ea → ∃ s, Translates sr (sr.vsid ea) ea s (entries t s)

/-- In mapping order, each page of `mem_mapping` has a valid entry already, or this page and
all pages before it find more free slots in their two groups than earlier pages with the
same groups can take. -/
def PagesFit (sr : SrTable) (t : PageTable) : Prop :=
  ∀ pre p post, tablePages shippedTable = pre ++ p :: post →
    (∃ s, Translates sr (sr.vsid (BitVec.ofNat 32 p.1)) (BitVec.ofNat 32 p.1) s (entries t s)) ∨
      FitsAll Pte.Free (entries t) (requests sr (pre ++ [p]))

theorem shippedTable_aligned : PageAligned shippedTable where
  region_start := by decide
  chunk_start := by decide
  chunk_size := by decide

theorem shippedTable_segment {ea : U32} (hea : InRegion shippedTable ea) :
    SrTable.segmentIndex ea = 8 := by
  have bounds : ∀ r ∈ shippedTable.regions,
      (0x80000000 : U32) ≤ r.effectiveStart ∧ r.effectiveEnd ≤ (0x90000000 : U32) := by
    decide
  obtain ⟨r, hr, hea⟩ := hea
  obtain ⟨hstart, hend⟩ := bounds r hr
  simp only [Region.Contains, BitVec.le_def, BitVec.lt_def, BitVec.reduceToNat] at hea hstart hend
  refine Fin.ext ?_
  change (ea >>> 28).toNat = 8
  rw [BitVec.toNat_ushiftRight, Nat.shiftRight_eq_div_pow]
  omega

theorem shippedTable_separateSegments (sr : SrTable) : SeparateSegments shippedTable sr :=
  fun _ _ ha hb hne => absurd ((shippedTable_segment ha).trans (shippedTable_segment hb).symm) hne

theorem setupSegments_fits (hfits : sr.FitsTable) : (setupSegments sr).FitsTable :=
  ⟨hfits.mask_le, hfits.org_and_mask⟩

theorem setupMemoryMapping_eq (hfits : sr.FitsTable) (t : PageTable) :
    ∃ t', setupMemoryMapping true sr t = .ok t' ∧ entries t' =
      (placeAll Pte.Free (entries t)
        (requests (setupSegments sr) (tablePages shippedTable))).2 := by
  obtain ⟨t', hrun, hentries⟩ := mapRegions_table_places (setupSegments_fits hfits).mask_le
    shippedTable_aligned t
  refine ⟨t', ?_, hentries⟩
  rw [setupMemoryMapping, if_neg (by decide), memoryMappingForRegions, ← shippedTable_toArray, hrun]
  rfl

theorem regionsMapped_iff_pages (sr : SrTable) (t : PageTable) :
    RegionsMapped sr t ↔ ∀ p ∈ tablePages shippedTable,
      ∃ s, Translates sr (sr.vsid (BitVec.ofNat 32 p.1)) (BitVec.ofNat 32 p.1) s (entries t s) := by
  constructor
  · intro hmapped p hp
    exact hmapped _ (mem_tablePages shippedTable_aligned hp).2.2
  · intro hpages ea hea
    obtain ⟨p, hp, hbase, _, _⟩ := page_of_address shippedTable_aligned hea
    obtain ⟨s, hs⟩ := hpages p hp
    have hsame : BitVec.ofNat 32 p.1 >>> 17 = ea >>> 17 :=
      (samePage_iff_of_mem shippedTable_aligned hp ea).mpr hbase
    rw [vsid_of_samePage sr hsame, translates_of_samePage sr _ hsame] at hs
    exact ⟨s, hs⟩

/-- The table written back covers every region exactly when every page fits. -/
theorem setup_maps_regions_iff (hfits : sr.FitsTable) (pageTableAllocated : Bool) (t : PageTable) :
    (∀ t', setupMemoryMapping pageTableAllocated sr t = .ok t' →
        RegionsMapped (setupSegments sr) t') ↔
      (pageTableAllocated = true → PagesFit (setupSegments sr) t) := by
  cases pageTableAllocated with
  | false => simp [setupMemoryMapping]
  | true =>
    obtain ⟨t', hrun, hentries⟩ := setupMemoryMapping_eq hfits t
    have hpages : RegionsMapped (setupSegments sr) t' ↔ PagesFit (setupSegments sr) t := by
      rw [regionsMapped_iff_pages, PagesFit]
      constructor
      · intro hmapped pre p post hsplit
        rw [← page_mapped_iff shippedTable_aligned (setupSegments_fits hfits)
          (shippedTable_separateSegments _) hsplit, ← hentries]
        exact hmapped p (by simp [hsplit])
      · intro hfit p hp
        obtain ⟨pre, post, hsplit⟩ := List.append_of_mem hp
        rw [hentries]
        exact (page_mapped_iff shippedTable_aligned (setupSegments_fits hfits)
          (shippedTable_separateSegments _) hsplit).mpr (hfit pre p post hsplit)
    rw [hrun]
    simp [← hpages]

end Outcome

section FullTable

def kernelSegments : SrTable := ⟨fun _ => 0x30FFFFFF, 0x00E00001⟩

theorem kernelSegments_fits : kernelSegments.FitsTable := ⟨by decide, by decide⟩

def fullTable : PageTable := fun _ => 0x80000000

def readyTable : PageTable := fun i =>
  if i.val % 2 = 0 then pteHigh 1 segmentUniqueId 0
    (abbreviatedPageIndex ((BitVec.ofNat 32 (i.val / 16) ^^^ segmentUniqueId) <<< 17))
  else 0x192

theorem readyTable_fits : PagesFit (setupSegments kernelSegments) readyTable := by
  have hready : ∀ p ∈ tablePages shippedTable,
      Translates (setupSegments kernelSegments) segmentUniqueId (BitVec.ofNat 32 p.1)
        (slot (pteg 1 (primaryHash segmentUniqueId (BitVec.ofNat 32 p.1))).toNat 0)
        (entries readyTable
          (slot (pteg 1 (primaryHash segmentUniqueId (BitVec.ofNat 32 p.1))).toNat 0)) := by
    decide +kernel
  intro pre p post hsplit
  have hmem : p ∈ tablePages shippedTable := by simp [hsplit]
  have hsegment := shippedTable_segment (mem_tablePages shippedTable_aligned hmem).2.2
  have hvsid : (setupSegments kernelSegments).vsid (BitVec.ofNat 32 p.1) = segmentUniqueId := by
    rw [SrTable.vsid, SrTable.segment, hsegment]
    decide
  exact .inl ⟨_, hvsid ▸ hready p hmem⟩

theorem sampleTables_setup_iff :
    (∀ t', setupMemoryMapping true kernelSegments readyTable = .ok t' →
      RegionsMapped (setupSegments kernelSegments) t') ∧
    ((∀ t', setupMemoryMapping true kernelSegments fullTable = .ok t' →
        RegionsMapped (setupSegments kernelSegments) t') ↔
      (true = true → PagesFit (setupSegments kernelSegments) fullTable)) :=
  ⟨(setup_maps_regions_iff kernelSegments_fits true readyTable).mpr fun _ => readyTable_fits,
    setup_maps_regions_iff kernelSegments_fits true fullTable⟩

/-- No page fits into that table, and the setup returns all the same. -/
theorem fullTable_setup_returns_unmapped :
    kernelSegments.FitsTable ∧ InRegion shippedTable 0x80000000 ∧
      ∃ t', setupMemoryMapping true kernelSegments fullTable = .ok t' ∧
        ¬ ∃ s, Translates (setupSegments kernelSegments)
          ((setupSegments kernelSegments).vsid 0x80000000) 0x80000000 s (entries t' s) := by
  obtain ⟨t', hrun, hentries⟩ := setupMemoryMapping_eq kernelSegments_fits fullTable
  refine ⟨kernelSegments_fits, ⟨heap1Region, by simp [shippedTable], by decide, by decide⟩,
    t', hrun, ?_⟩
  rintro ⟨s, _, hvsid, _⟩
  have hkept : entries t' s = entries fullTable s := by
    rw [hentries]
    exact (placeAll_grows _ _).eq_of_not_free (by change ¬ (0x80000000 : U32) = 0; decide)
  rw [hkept] at hvsid
  exact absurd hvsid (by change ((0x80000000 : U32) >>> 7) &&& 0xFFFFFF ≠ _; decide)

end FullTable

end MemoryMappingModule.MappingSetup
