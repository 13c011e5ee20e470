import MemoryMappingModule.PageMaps

/-! Room for the pages of `mem_mapping`. In a page table of the size that the module copies, the
regions are laid out so that no two of their pages hash to the same pair of groups. Mapping them
succeeds exactly if each page, taken alone, finds a free slot. -/

namespace MemoryMappingModule.PageRoom

open WordArithmetic FirstFit MappingLayout PageTableFormat PageTableMapping RegionMapping
open MappingSetup PageMaps

section Distinct

variable {σ ε : Type*} [DecidableEq σ] {free : ε → Prop} [DecidablePred free] {t : σ → ε}
  {rs : List (Request σ ε)}

theorem room_pos {r : Request σ ε} :
    0 < room free t r ↔ ∃ s ∈ slots r, free (t s) := by
  rw [room, Finset.card_pos, Finset.Nonempty]
  simp only [Finset.mem_filter]

theorem fitsAll_of_distinct (hdistinct : (rs.map slots).Nodup) :
    FitsAll free t rs ↔ ∀ r ∈ rs, ∃ s ∈ slots r, free (t s) := by
  rw [fitsAll_iff_countP]
  refine forall₂_congr fun r hr => ?_
  have hone : rs.countP (fun q => slots q = slots r) = 1 := by
    have hcount := List.count_eq_one_of_mem hdistinct (List.mem_map_of_mem hr)
    rwa [List.count, List.countP_map] at hcount
  rw [hone, ← room_pos]
  rfl

end Distinct

section Hashes

variable {sr : SrTable} {a b ea : U32}

/-- With eleven bits of group index, the group of a page is its number, changed by the segment. -/
theorem pteg_bit_of_mask (hash : U32) {i : ℕ} (hi : i < 11) :
    (pteg 1 hash).getLsbD i = hash.getLsbD i := by
  have hmask : ((1 : U32) <<< 10) ||| 0x3FF = lowMask 32 11 := by decide
  rw [pteg, hmask, BitVec.getLsbD_and, getLsbD_lowMask]
  simp [hi, show i < 32 by omega]

theorem pageNumber_of_primary {vsid : U32}
    (hgroup : pteg 1 (primaryHash vsid a) = pteg 1 (primaryHash vsid b)) :
    pageNumber a = pageNumber b := by
  apply BitVec.eq_of_getLsbD_eq
  intro i hi
  have h := congrArg (fun x : U32 => x.getLsbD i) hgroup
  rw [pageNumber_bit a hi, pageNumber_bit b hi, ← pageIndex_bit a hi, ← pageIndex_bit b hi]
  simpa only [pteg_bit_of_mask _ hi, primaryHash, BitVec.getLsbD_xor, Bool.xor_right_inj] using h

theorem pageNumber_of_secondary {vsid : U32}
    (hgroup : pteg 1 (primaryHash vsid a) = pteg 1 (~~~primaryHash vsid b)) :
    pageNumber a = ~~~pageNumber b := by
  apply BitVec.eq_of_getLsbD_eq
  intro i hi
  have h := congrArg (fun x : U32 => x.getLsbD i) hgroup
  rw [BitVec.getLsbD_not, pageNumber_bit a hi, pageNumber_bit b hi, ← pageIndex_bit a hi,
    ← pageIndex_bit b hi]
  simp only [pteg_bit_of_mask _ hi, primaryHash, BitVec.getLsbD_not, BitVec.getLsbD_xor,
    show i < 32 by omega, decide_true, Bool.true_and] at h
  rw [decide_eq_true hi, Bool.true_and]
  revert h
  cases (vsid &&& 0x7FFFF).getLsbD i <;> cases (pageIndex a).getLsbD i <;>
    cases (pageIndex b).getLsbD i <;> decide

theorem pageNumber_toNat (ea : U32) : (pageNumber ea).toNat = ea.toNat / 0x20000 % 2048 := by
  rw [pageNumber, BitVec.extractLsb'_toNat, Nat.shiftRight_eq_div_pow]

theorem pageNumber_bounds (hea : InRegion shippedTable ea) :
    (pageNumber ea).toNat < 390 ∨
      1024 ≤ (pageNumber ea).toNat ∧ (pageNumber ea).toNat < 1139 := by
  have hbounds : ∀ r ∈ shippedTable.regions,
      0x80000000 ≤ r.effectiveStart.toNat ∧ r.effectiveEnd.toNat ≤ 0x830C0000 ∨
        0x88000000 ≤ r.effectiveStart.toNat ∧ r.effectiveEnd.toNat ≤ 0x88E60000 := by
    decide
  obtain ⟨r, hr, hstart, hend⟩ := hea
  rw [BitVec.le_def] at hstart
  rw [BitVec.lt_def] at hend
  have := hbounds r hr
  rw [pageNumber_toNat]
  omega

theorem pageNumber_ne_not (ha : InRegion shippedTable a) (hb : InRegion shippedTable b) :
    pageNumber a ≠ ~~~pageNumber b := by
  intro h
  have hsum : (pageNumber a).toNat = 2 ^ 11 - 1 - (pageNumber b).toNat := by
    rw [h, BitVec.toNat_not]
  have := pageNumber_bounds ha
  have := pageNumber_bounds hb
  omega

end Hashes

section Room

variable {sr : SrTable} {t : PageTable}

theorem exists_primary_slot (hfits : sr.FitsTable) (p : Page) : ∃ s ∈ slots (p.request sr),
    s.val / 8 = (pteg sr.htabMask (primaryHash (sr.vsid p.effective) p.effective)).toNat := by
  have hslot := slot_val (pteg_toNat_lt hfits.mask_le
    (primaryHash (sr.vsid p.effective) p.effective)) (show 1 < 8 by decide)
  have hgroup : (slot (pteg sr.htabMask
      (primaryHash (sr.vsid p.effective) p.effective)).toNat 1).val / 8 =
      (pteg sr.htabMask (primaryHash (sr.vsid p.effective) p.effective)).toNat := by
    rw [hslot]
    omega
  exact ⟨_, (mem_slots_request hfits p _).mpr ⟨.inl hgroup, by rw [hslot]; omega⟩, hgroup⟩

theorem slots_distinct (hfits : sr.FitsTable) (hmask : sr.htabMask = 1) :
    ((requests (setupSegments sr) (tablePages shippedTable)).map slots).Nodup := by
  have hfits' := setupSegments_fits hfits
  have hmask' : (setupSegments sr).htabMask = 1 := hmask
  rw [requests, List.map_map, List.nodup_iff_pairwise_ne, List.pairwise_map]
  refine (tablePages_keys shippedTable_aligned
    (shippedTable_separateSegments (setupSegments sr))).imp_of_mem fun {p q} hp hq hne hslots => ?_
  have hpin := (mem_tablePages shippedTable_aligned hp).2.2
  have hqin := (mem_tablePages shippedTable_aligned hq).2.2
  have hvsid : (setupSegments sr).vsid (BitVec.ofNat 32 p.1) =
      (setupSegments sr).vsid (BitVec.ofNat 32 q.1) := by
    rw [SrTable.vsid, SrTable.vsid, SrTable.segment, SrTable.segment, shippedTable_segment hpin,
      shippedTable_segment hqin]
  -- A slot of the first page's primary group is one of the second page's slots.
  obtain ⟨s, hs, hgroup⟩ := exists_primary_slot hfits' (Page.ofAddresses p)
  have hother : s ∈ slots ((Page.ofAddresses q).request (setupSegments sr)) :=
    (congrArg (s ∈ ·) hslots).mp hs
  rw [mem_slots_request hfits', hgroup, hmask', BitVec.toNat_inj, BitVec.toNat_inj] at hother
  simp only [Page.ofAddresses, ← hvsid] at hother
  rcases hother.1 with hsame | hcomplement
  · exact hne (Prod.ext hvsid (pageNumber_of_primary hsame))
  · exact pageNumber_ne_not hpin hqin (pageNumber_of_secondary hcomplement)

/-- A free slot in which the mapping may put an entry for an address. -/
def Usable (sr : SrTable) (t : PageTable) (ea : U32) (s : Slot) : Prop :=
  (entries t s).Free ∧ s.val % 8 ≠ 0 ∧
    (s.val / 8 = (pteg sr.htabMask (primaryHash (sr.vsid ea) ea)).toNat ∨
      s.val / 8 = (pteg sr.htabMask (~~~primaryHash (sr.vsid ea) ea)).toNat)

theorem usable_of_samePage {a b : U32} (hpage : a >>> 17 = b >>> 17) (s : Slot) :
    Usable sr t a s ↔ Usable sr t b s := by
  rw [Usable, Usable, vsid_of_samePage sr hpage, primaryHash, primaryHash,
    pageIndex_of_samePage hpage]

theorem shipped_fitsAll_iff (hfits : sr.FitsTable) (hmask : sr.htabMask = 1) (t : PageTable) :
    FitsAll Pte.Free (entries t) (requests (setupSegments sr) (tablePages shippedTable)) ↔
      ∀ ea, InRegion shippedTable ea → ∃ s, Usable (setupSegments sr) t ea s := by
  have hfits' := setupSegments_fits hfits
  have hrequest (p : ℕ × ℕ) : (∃ s ∈ slots ((Page.ofAddresses p).request (setupSegments sr)),
      (entries t s).Free) ↔ ∃ s, Usable (setupSegments sr) t (BitVec.ofNat 32 p.1) s := by
    refine exists_congr fun s => ?_
    rw [mem_slots_request hfits', Usable]
    exact ⟨fun h => ⟨h.2, h.1.2, h.1.1⟩, fun h => ⟨⟨h.2.2, h.2.1⟩, h.1⟩⟩
  rw [fitsAll_of_distinct (slots_distinct hfits hmask), requests]
  simp only [List.mem_map, forall_exists_index, and_imp, forall_apply_eq_imp_iff₂, hrequest]
  constructor
  · intro hall ea hea
    obtain ⟨p, hp, hpage, _⟩ := page_of_address shippedTable_aligned hea
    have hsame : ea >>> 17 = BitVec.ofNat 32 p.1 >>> 17 :=
      ((samePage_iff_of_mem shippedTable_aligned hp ea).mpr hpage).symm
    obtain ⟨s, hs⟩ := hall p hp
    exact ⟨s, (usable_of_samePage hsame s).mpr hs⟩
  · exact fun hall p hp => hall _ (mem_tablePages shippedTable_aligned hp).2.2

/-- No two pages of the regions compete for slots, and so the setup maps all regions exactly if
each page, alone, has a free one. -/
theorem setup_succeeds_iff (hfits : sr.FitsTable) (hmask : sr.htabMask = 1) (t : PageTable) :
    ((requests (setupSegments sr) (tablePages shippedTable)).map slots).Nodup ∧
      ((∃ t', mapRegions (setupSegments sr) memMapping t = .ok (true, t')) ↔
        ∀ ea, InRegion shippedTable ea → ∃ s, Usable (setupSegments sr) t ea s) := by
  refine ⟨slots_distinct hfits hmask, ?_⟩
  have hfits' := setupSegments_fits hfits
  obtain ⟨t', hrun, _⟩ := mapRegions_table_places hfits'.mask_le shippedTable_aligned t
  rw [← shipped_fitsAll_iff hfits hmask, ← placeAll_succeeds_iff (requests_solid hfits' _)
    (requests_sameOrDisjoint hfits' _), ← shippedTable_toArray, hrun]
  constructor
  · rintro ⟨_, h⟩
    exact congrArg Prod.fst (Except.ok.inj h)
  · intro h
    exact ⟨t', by rw [h]⟩

theorem emptyTable_usable (hfits : sr.FitsTable) (ea : U32) :
    ∃ s, Usable sr (fun _ => 0) ea s := by
  obtain ⟨s, hs, _⟩ := exists_primary_slot hfits ⟨ea, 0⟩
  obtain ⟨hgroup, hplace⟩ := (mem_slots_request hfits ⟨ea, 0⟩ s).mp hs
  exact ⟨s, rfl, hplace, hgroup⟩

theorem emptyTable_succeeds_iff :
    ((requests (setupSegments kernelSegments) (tablePages shippedTable)).map slots).Nodup ∧
      ((∃ t', mapRegions (setupSegments kernelSegments) memMapping (fun _ => 0) = .ok (true, t')) ↔
        ∀ ea, InRegion shippedTable ea →
          ∃ s, Usable (setupSegments kernelSegments) (fun _ => 0) ea s) :=
  setup_succeeds_iff kernelSegments_fits (by decide) _

end Room

end MemoryMappingModule.PageRoom
