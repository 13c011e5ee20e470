import MemoryMappingModule.WordArithmetic
import MemoryMappingModule.AddressTranslation

/-! The kernel and loader functions the module replaces. The wrapped function is a
parameter. Some replacements ask the translation about the first address of a range,
others test only which segment it starts in; what they admit is compared with the set
of addresses that are translated at all, a few runs with gaps between them. -/

namespace MemoryMappingModule.FunctionReplacements

open WordArithmetic ExtentTranslation MappingLayout AddressTranslation

def kiEffectiveToPhysical (real : U32 → U32 → U32) (addressSpace virtualAddress : U32) : U32 :=
  let result := real addressSpace virtualAddress
  if result = 0 then effectiveToPhysical memMapping virtualAddress else result

/-- The test shared by the segment-wide validators, with the value that means acceptance. -/
def validateSegment (address accepted asked : U32) : U32 :=
  if (0x00800000 ≤ address ∧ address < 0x01000000) ∨
      address &&& 0xF0000000 = memoryStartBase &&& 0xF0000000 then accepted
  else asked

def kiValidateUserDataRange (real : U32 → U32 → U32) (address size : U32) : U32 :=
  validateSegment address 1 (real address size)

def kiValidateUserCodeRange (real : U32 → U32 → U32) (address size : U32) : U32 :=
  validateSegment address 1 (real address size)

def sCheckDataRange (real : U32 → U32 → U32) (address maxDataSize : U32) : U32 :=
  validateSegment address 1 (real address maxDataSize)

def liValidateAddress (real : U32 → U32 → U32 → U32 → U32 → U32 → U32 → U32)
    (ptr size alignMask errorCode minAddr maxAddr name : U32) : U32 :=
  validateSegment ptr 0 (real ptr size alignMask errorCode minAddr maxAddr name)

def ipckDriverValidatePhysicalAddress (real : U32 → U32 → U32 → U32) (u1 physStart physEnd : U32) :
    U32 :=
  let result : U32 := if 0 < physicalToEffective memMapping physStart then 1 else 0
  if result ≠ 0 then result else real u1 physStart physEnd

def kiIsEffectiveRangeValid (real : U32 → U32 → U32 → U32)
    (addressSpace virtualAddress size : U32) : U32 :=
  let result := real addressSpace virtualAddress size
  if result = 0 then
    if 0 < effectiveToPhysical memMapping virtualAddress then 1 else 0
  else result

structure MemCopy where
  dst : U32
  src : U32
  size : U32
deriving DecidableEq, Repr

def kiGetOrPutUserData (real : U32 → U32 → U32 → Bool → U32) (src size dst : U32) (isRead : Bool) :
    U32 × Option MemCopy :=
  if real src size dst isRead ≠ 0 then (1, none)
  else if effectiveToPhysical memMapping src = 0 then (0, none)
  else if isRead = true then (1, some ⟨dst, src, size⟩)
  else if ¬ isRead = true ∧ 0 < effectiveToPhysical memMapping src then (1, some ⟨src, dst, size⟩)
  else (1, none)

section Runs

/-- The maximal runs of translated effective addresses: the BAT window, the four heaps end
to end, and the video heap. -/
def effectiveRuns : List Extent :=
  [⟨0x00800000, 0x00800000⟩, ⟨0x80000000, 0x030C0000⟩, ⟨0x88000000, 0x00E60000⟩]

/-- The maximal runs of physical addresses that are translated back. -/
def physicalRuns : List Extent :=
  [⟨0x1A020000, 0x00E60000⟩, ⟨0x2D3C0000, 0x004C0000⟩, ⟨0x2D8E0000, 0x00720000⟩,
    ⟨0x2E8C0000, 0x016C0000⟩, ⟨0x30800000, 0x01620000⟩]

theorem effectiveRuns_separated : Separated effectiveRuns := by
  change ∀ x ∈ effectiveRuns, ¬ Covered effectiveRuns (x.base + x.size)
  decide

theorem physicalRuns_separated : Separated physicalRuns := by
  change ∀ x ∈ physicalRuns, ¬ Covered physicalRuns (x.base + x.size)
  decide

theorem effectiveRuns_fit : ∀ x ∈ effectiveRuns, x.base + x.size < 2 ^ 32 := by decide

theorem physicalRuns_fit : ∀ x ∈ physicalRuns, x.base + x.size < 2 ^ 32 := by decide

theorem effectiveToPhysical_ne_zero_iff_covered (ea : U32) :
    effectiveToPhysical memMapping ea ≠ 0 ↔ Covered effectiveRuns ea.toNat := by
  have hlayout : shippedTable.regions.map
      (fun r => (r.effectiveStart.toNat, r.effectiveEnd.toNat)) =
        [(0x80000000, 0x816C0000), (0x816C0000, 0x824E0000), (0x824E0000, 0x82C00000),
          (0x82C00000, 0x830C0000), (0x88000000, 0x88E60000)] := by
    decide
  have hregions : (∃ r ∈ shippedTable.regions, r.Contains ea) ↔
      ∃ x ∈ shippedTable.regions.map fun r => (r.effectiveStart.toNat, r.effectiveEnd.toNat),
        x.1 ≤ ea.toNat ∧ ea.toNat < x.2 := by
    simp only [List.mem_map, exists_exists_and_eq_and, Region.Contains, BitVec.le_def,
      BitVec.lt_def]
  rw [← shippedTable_toArray, effectiveToPhysical_ne_zero_iff shippedTable_physicallyDisjoint, Maps,
    hregions, hlayout]
  simp only [InBatWindow, BitVec.le_def, BitVec.lt_def, BitVec.reduceToNat, Covered, effectiveRuns,
    Extent.Contains, List.exists_mem_cons_iff, List.not_mem_nil, false_and, exists_false, or_false]
  omega

theorem physicalToEffective_ne_zero_iff_covered (pa : U32) :
    physicalToEffective memMapping pa ≠ 0 ↔ Covered physicalRuns pa.toNat := by
  have hlayout : shippedTable.chunks.map (fun c => (c.start.toNat, c.stop.toNat)) =
      [(0x2E8C0000, 0x2FF80000), (0x31000000, 0x31E20000), (0x2D8E0000, 0x2E000000),
        (0x2D3C0000, 0x2D880000), (0x1A020000, 0x1AE80000)] := by
    decide
  have hchunks : (∃ c ∈ shippedTable.chunks, c.Contains pa) ↔
      ∃ x ∈ shippedTable.chunks.map fun c => (c.start.toNat, c.stop.toNat),
        x.1 ≤ pa.toNat ∧ pa.toNat < x.2 := by
    simp only [List.mem_map, exists_exists_and_eq_and, Chunk.Contains, BitVec.le_def,
      BitVec.lt_def]
  have hzero : effectiveToPhysical memMapping 0 = 0 := by decide
  rw [← shippedTable_toArray, physicalToEffective_ne_zero_iff shippedTable_physicallyDisjoint,
    Backs, hchunks, hlayout, shippedTable_toArray, hzero]
  simp only [InPhysicalBatWindow, BitVec.le_def, BitVec.lt_def, BitVec.reduceToNat, Covered,
    physicalRuns, Extent.Contains, List.exists_mem_cons_iff, List.not_mem_nil, false_and,
    exists_false, or_false, Ne, BitVec.toNat_eq]
  omega

end Runs

section RangeChecks

theorem covered_bytes_iff (xs : List Extent) (ea : U32) (n : ℕ) :
    (∀ k < n, Covered xs (ea + BitVec.ofNat 32 k).toNat) ↔
      ∀ k < n, Covered xs ((ea.toNat + k) % 2 ^ 32) := by
  refine forall₂_congr fun k _ => ?_
  rw [BitVec.toNat_add, BitVec.toNat_ofNat, Nat.add_mod_mod]

theorem pos_iff_ne_zero (x : U32) : 0 < x ↔ x ≠ 0 := by
  bv_omega

theorem kiIsEffectiveRangeValid_fallback {real : U32 → U32 → U32 → U32} {addressSpace va size : U32}
    (hreal : real addressSpace va size = 0) :
    kiIsEffectiveRangeValid real addressSpace va size ≠ 0 ↔
      effectiveToPhysical memMapping va ≠ 0 := by
  simp only [kiIsEffectiveRangeValid, hreal, if_true, pos_iff_ne_zero]
  split_ifs with h
  · exact iff_of_true (by decide) h
  · exact iff_of_false (not_not_intro rfl) h

theorem kiGetOrPutUserData_fallback {real : U32 → U32 → U32 → Bool → U32} {src size dst : U32}
    {isRead : Bool} (hreal : real src size dst isRead = 0) :
    kiGetOrPutUserData real src size dst isRead =
      if effectiveToPhysical memMapping src = 0 then (0, none)
      else (1, some (if isRead then ⟨dst, src, size⟩ else ⟨src, dst, size⟩)) := by
  rw [kiGetOrPutUserData, hreal, if_neg (not_not_intro rfl)]
  simp only [pos_iff_ne_zero]
  split_ifs with hsrc hread hput
  · rfl
  · rfl
  · rfl
  · exact absurd ⟨hread, hsrc⟩ hput

theorem ipckDriverValidatePhysicalAddress_own_iff (u1 physStart physEnd : U32) :
    (∀ real, ipckDriverValidatePhysicalAddress real u1 physStart physEnd ≠ 0) ↔
      physicalToEffective memMapping physStart ≠ 0 := by
  simp only [ipckDriverValidatePhysicalAddress, pos_iff_ne_zero]
  split_ifs with hstart hone hzero
  · exact iff_of_true (fun _ => by decide) hstart
  · exact absurd (by decide) hone
  · exact absurd rfl hzero
  · exact iff_of_false (fun hall => hall (fun _ _ _ => 0) rfl) hstart

theorem effective_start_check_iff (ea : U32) (n : ℕ) :
    (effectiveToPhysical memMapping ea ≠ 0 →
        ∀ k < n, effectiveToPhysical memMapping (ea + BitVec.ofNat 32 k) ≠ 0) ↔
      EndsInside effectiveRuns ea.toNat n := by
  simp only [effectiveToPhysical_ne_zero_iff_covered]
  rw [covered_bytes_iff, covered_of_start_iff effectiveRuns_separated effectiveRuns_fit]

theorem physical_start_check_iff {physStart physEnd : U32} (hlt : physStart < physEnd) :
    (physicalToEffective memMapping physStart ≠ 0 →
        ∀ pa, physStart ≤ pa → pa < physEnd → physicalToEffective memMapping pa ≠ 0) ↔
      EndsInside physicalRuns physStart.toNat (physEnd.toNat - physStart.toNat) := by
  have hend := physEnd.isLt
  simp only [physicalToEffective_ne_zero_iff_covered, BitVec.le_def, BitVec.lt_def] at hlt ⊢
  rw [← covered_of_start_iff physicalRuns_separated physicalRuns_fit]
  refine imp_congr_right fun _ => ⟨fun hall k hk => ?_, fun hall pa hle hpa => ?_⟩
  · have hword : (BitVec.ofNat 32 (physStart.toNat + k)).toNat = physStart.toNat + k := by
      rw [BitVec.toNat_ofNat]
      omega
    have h := hall (BitVec.ofNat 32 (physStart.toNat + k)) (by omega) (by omega)
    rwa [hword, ← Nat.mod_eq_of_lt (show physStart.toNat + k < 2 ^ 32 by omega)] at h
  · have h := hall (pa.toNat - physStart.toNat) (by omega)
    rwa [Nat.add_sub_cancel' hle, Nat.mod_eq_of_lt pa.isLt] at h

/-- The three checks of a first address admit only backed ranges exactly when a range that
starts in a run of backed addresses ends in it. -/
theorem range_checks_sound_iff (realRange : U32 → U32 → U32 → U32)
    (realUserData : U32 → U32 → U32 → Bool → U32) (addressSpace va src dst size : U32)
    (isRead : Bool) (u1 physStart physEnd : U32) (hrange : realRange addressSpace va size = 0)
    (huserData : realUserData src size dst isRead = 0) (hlt : physStart < physEnd) :
    ((kiIsEffectiveRangeValid realRange addressSpace va size ≠ 0 →
        ∀ k < size.toNat, effectiveToPhysical memMapping (va + BitVec.ofNat 32 k) ≠ 0) ↔
      EndsInside effectiveRuns va.toNat size.toNat) ∧
    (((kiGetOrPutUserData realUserData src size dst isRead).1 = 1 →
        ∀ k < size.toNat, effectiveToPhysical memMapping (src + BitVec.ofNat 32 k) ≠ 0) ↔
      EndsInside effectiveRuns src.toNat size.toNat) ∧
    (((∀ real, ipckDriverValidatePhysicalAddress real u1 physStart physEnd ≠ 0) →
        ∀ pa, physStart ≤ pa → pa < physEnd → physicalToEffective memMapping pa ≠ 0) ↔
      EndsInside physicalRuns physStart.toNat (physEnd.toNat - physStart.toNat)) := by
  refine ⟨?_, ?_, ?_⟩
  · rw [kiIsEffectiveRangeValid_fallback hrange, effective_start_check_iff]
  · have hone : (kiGetOrPutUserData realUserData src size dst isRead).1 = 1 ↔
        effectiveToPhysical memMapping src ≠ 0 := by
      rw [kiGetOrPutUserData_fallback huserData]
      split_ifs with hsrc
      · exact iff_of_false (by decide) (not_not_intro hsrc)
      · exact iff_of_true rfl hsrc
      · exact iff_of_true rfl hsrc
    rw [hone, effective_start_check_iff]
  · rw [ipckDriverValidatePhysicalAddress_own_iff, physical_start_check_iff hlt]

theorem firstHeap_range_checked :
    (kiIsEffectiveRangeValid (fun _ _ _ => 0) 0 0x80000000 2 ≠ 0 →
        ∀ k < (2 : U32).toNat,
          effectiveToPhysical memMapping (0x80000000 + BitVec.ofNat 32 k) ≠ 0) ∧
      ((kiGetOrPutUserData (fun _ _ _ _ => 0) 0x80000000 2 0x10000000 true).1 = 1 →
        ∀ k < (2 : U32).toNat,
          effectiveToPhysical memMapping (0x80000000 + BitVec.ofNat 32 k) ≠ 0) ∧
      ((∀ real, ipckDriverValidatePhysicalAddress real 0 0x2E8C0000 0x2E8E0000 ≠ 0) →
        ∀ pa, 0x2E8C0000 ≤ pa → pa < 0x2E8E0000 → physicalToEffective memMapping pa ≠ 0) := by
  have inside : EndsInside effectiveRuns (0x80000000 : U32).toNat (2 : U32).toNat := by
    change ∀ x ∈ effectiveRuns, _
    decide
  have physicalInside : EndsInside physicalRuns (0x2E8C0000 : U32).toNat
      ((0x2E8E0000 : U32).toNat - (0x2E8C0000 : U32).toNat) := by
    change ∀ x ∈ physicalRuns, _
    decide
  obtain ⟨hrange, huserData, hphysical⟩ := range_checks_sound_iff (fun _ _ _ => 0)
    (fun _ _ _ _ => 0) 0 0x80000000 0x80000000 0x10000000 2 true 0 0x2E8C0000 0x2E8E0000 rfl rfl
    (by decide)
  exact ⟨hrange.mpr inside, huserData.mpr inside, hphysical.mpr physicalInside⟩

/-- Two bytes at the end of the last heap, or of a physical chunk, pass although the second
one is backed by nothing. -/
theorem range_checks_pass_gap :
    kiIsEffectiveRangeValid (fun _ _ _ => 0) 0 0x830BFFFF 2 ≠ 0 ∧
      kiGetOrPutUserData (fun _ _ _ _ => 0) 0x830BFFFF 2 0x10000000 true =
        (1, some ⟨0x10000000, 0x830BFFFF, 2⟩) ∧
      effectiveToPhysical memMapping (0x830BFFFF + 1) = 0 ∧
      (∀ real, ipckDriverValidatePhysicalAddress real 0 0x2D87FFFF 0x2D880001 ≠ 0) ∧
      physicalToEffective memMapping 0x2D880000 = 0 := by
  refine ⟨by decide, by decide, by decide, ?_, by decide⟩
  rw [ipckDriverValidatePhysicalAddress_own_iff]
  decide

end RangeChecks

section SegmentChecks

def InSegment8 (ea : U32) : Prop := 0x80000000 ≤ ea ∧ ea < 0x90000000

theorem nibble_eq_iff (address : U32) :
    address &&& 0xF0000000 = memoryStartBase &&& 0xF0000000 ↔ InSegment8 address := by
  have hdown : address &&& 0xF0000000 = alignDown address 0x10000000 := rfl
  have hbase : memoryStartBase &&& 0xF0000000 = (0x80000000 : U32) := by decide
  have hround := alignDown_toNat (a := (0x10000000 : U32)) (k := 28) address rfl
  rw [hdown, hbase, BitVec.toNat_eq, hround, InSegment8]
  simp only [BitVec.le_def, BitVec.lt_def, BitVec.reduceToNat]
  omega

theorem validateSegment_own_iff (address accepted other : U32) (hother : other ≠ accepted) :
    (∀ asked, validateSegment address accepted asked = accepted) ↔
      InBatWindow address ∨ InSegment8 address := by
  rw [← nibble_eq_iff]
  constructor
  · intro hall
    by_contra hout
    have hasked : validateSegment address accepted other = other := if_neg hout
    exact hother (hasked.symm.trans (hall other))
  · intro hin asked
    exact if_pos hin

theorem kiEffectiveToPhysical_fallback {real : U32 → U32 → U32} {addressSpace va : U32}
    (hreal : real addressSpace va = 0) :
    kiEffectiveToPhysical real addressSpace va = effectiveToPhysical memMapping va := by
  rw [kiEffectiveToPhysical, hreal, if_pos rfl]

theorem backed_range_iff {address size : U32} (hpos : 0 < size) :
    (∀ k < size.toNat, effectiveToPhysical memMapping (address + BitVec.ofNat 32 k) ≠ 0) ↔
      ∃ run ∈ effectiveRuns, run.Contains address.toNat ∧
        address.toNat + size.toNat ≤ run.base + run.size := by
  simp only [effectiveToPhysical_ne_zero_iff_covered]
  rw [covered_bytes_iff, covered_range_iff_exists effectiveRuns_separated effectiveRuns_fit
    (BitVec.lt_def.mp hpos) address.isLt]

/-- The segment-wide validators accept by the segment of the first address alone, whatever the
size; the range is translated throughout exactly when it lies in one run. -/
theorem segment_checks_accept_by_start (address : U32) {size : U32} (hpos : 0 < size) :
    ((∀ real, kiValidateUserDataRange real address size = 1) ↔
        InBatWindow address ∨ InSegment8 address) ∧
      ((∀ real, kiValidateUserCodeRange real address size = 1) ↔
        InBatWindow address ∨ InSegment8 address) ∧
      ((∀ real, sCheckDataRange real address size = 1) ↔
        InBatWindow address ∨ InSegment8 address) ∧
      (∀ alignMask errorCode minAddr maxAddr name,
        (∀ real, liValidateAddress real address size alignMask errorCode minAddr maxAddr name = 0) ↔
          InBatWindow address ∨ InSegment8 address) ∧
      ((∀ k < size.toNat, effectiveToPhysical memMapping (address + BitVec.ofNat 32 k) ≠ 0) ↔
        ∃ run ∈ effectiveRuns, run.Contains address.toNat ∧
          address.toNat + size.toNat ≤ run.base + run.size) ∧
      ∀ real addressSpace va, real addressSpace va = 0 →
        kiEffectiveToPhysical real addressSpace va = effectiveToPhysical memMapping va := by
  have asks {accepted other : U32} (hother : other ≠ accepted) :
      (∀ real : U32 → U32 → U32, validateSegment address accepted (real address size) = accepted) ↔
        InBatWindow address ∨ InSegment8 address := by
    rw [← validateSegment_own_iff address accepted other hother]
    exact ⟨fun h asked => h fun _ _ => asked, fun h real => h _⟩
  have hone := asks (show (0 : U32) ≠ 1 by decide)
  refine ⟨hone, hone, hone, fun _ _ _ _ _ => ?_, backed_range_iff hpos,
    fun _ _ _ h => kiEffectiveToPhysical_fallback h⟩
  rw [← validateSegment_own_iff address 0 1 (by decide)]
  exact ⟨fun h asked => h fun _ _ _ _ _ _ _ => asked, fun h real => h _⟩

theorem heapPage_accepted_and_translated :
    (∀ real, kiValidateUserDataRange real 0x80000000 0x20000 = 1) ∧
      ∀ k < (0x20000 : U32).toNat,
        effectiveToPhysical memMapping (0x80000000 + BitVec.ofNat 32 k) ≠ 0 := by
  obtain ⟨haccept, _, _, _, htranslated, _⟩ :=
    segment_checks_accept_by_start 0x80000000 (show (0 : U32) < 0x20000 by decide)
  exact ⟨haccept.mpr (Or.inr ⟨by decide, by decide⟩),
    htranslated.mpr ⟨⟨0x80000000, 0x030C0000⟩, by decide, by decide, by decide⟩⟩

/-- Between the last heap and the video heap every validator accepts what nothing backs. -/
theorem hole_accepted_untranslated :
    (∀ real, kiValidateUserDataRange real 0x84000000 4 = 1) ∧
      (∀ real, kiValidateUserCodeRange real 0x84000000 4 = 1) ∧
      (∀ real, sCheckDataRange real 0x84000000 4 = 1) ∧
      (∀ real, liValidateAddress real 0x84000000 4 0 0 0 0 0 = 0) ∧
      effectiveToPhysical memMapping 0x84000000 = 0 := by
  have hone := (validateSegment_own_iff 0x84000000 1 0 (by decide)).mpr
    (Or.inr ⟨by decide, by decide⟩)
  have hzero := (validateSegment_own_iff 0x84000000 0 1 (by decide)).mpr
    (Or.inr ⟨by decide, by decide⟩)
  exact ⟨fun _ => hone _, fun _ => hone _, fun _ => hone _, fun _ => hzero _, by decide⟩

end SegmentChecks

end MemoryMappingModule.FunctionReplacements
