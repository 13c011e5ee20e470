import MemoryMappingModule.TestReports

/-! The module's test of its memory on memory that only the test writes to: the reader finds every
word as the writer left it, and says so of every region. -/

namespace MemoryMappingModule.MemoryTest

open StepLoop ByteMemory MappingLayout AddressTranslation TestValues TestReports

section Passed

variable {view : Memory 32} {T : List MemoryMapping} {m : MemoryMapping} {passes : ℕ}

def Passed (i : ℕ) (part : List TestReport) : Prop :=
  .successful (i + 1) ∈ part ∧ ∀ a b, .error a b ∉ part

theorem closeReports_of_success {s : Reader} (i : ℕ) (start eaSize : U32)
    (hsuccess : s.success = true) (hinside : s.inFailRange = false) :
    ∃ lines, closeReports i start eaSize s = s.reports ++ (lines ++ [.successful (i + 1)]) ∧
      ∀ a b, .error a b ∉ lines := by
  rw [closeReports, hsuccess, hinside, if_neg Bool.false_ne_true, if_pos rfl, List.append_assoc]
  refine ⟨_, rfl, fun a b hmem => ?_⟩
  split_ifs at hmem
  · simp at hmem
  · simp at hmem

theorem region_passes (hpasses : 2 ^ 30 ≤ passes)
    (hwords : ∀ j < regionSize (chunksOf m) / 4, Right view m.effectiveStartAddress j) (i : ℕ)
    (reports : List TestReport) : ∃ s part,
      run (testWord view m.effectiveStartAddress (addSizes 0 (m.physicalAddresses.getD []))) passes
          ⟨0, true, false, 0, m.effectiveStartAddress, reports⟩ = some (.ok s) ∧
        closeReports i m.effectiveStartAddress (addSizes 0 (m.physicalAddresses.getD [])) s =
            reports ++ part ∧ Passed i part := by
  have hcount : (addSizes 0 (m.physicalAddresses.getD []) / 4).toNat ≤
      regionSize (chunksOf m) / 4 := by
    rw [addSizes_region, BitVec.toNat_udiv, BitVec.toNat_ofNat]
    exact Nat.div_le_div_right (Nat.mod_le _ _)
  have hbelow := toNat_div_four_lt (addSizes 0 (m.physicalAddresses.getD []))
  have hright := fun k hk => hwords k (lt_of_lt_of_le hk hcount)
  obtain ⟨s, hrun, j, _, htested⟩ := test_reports hbelow rfl (fun k hk => ⟨_, hright k hk⟩)
    (hbelow.trans_le hpasses) reports
  obtain ⟨hsuccess, hinside, part, hreports, hnone⟩ := htested.all_right hright
  obtain ⟨lines, hclose, hlines⟩ := closeReports_of_success i m.effectiveStartAddress
    (addSizes 0 (m.physicalAddresses.getD [])) hsuccess hinside
  refine ⟨s, part ++ (lines ++ [.successful (i + 1)]), hrun, ?_, by simp, fun a b hmem => ?_⟩
  · rw [hclose, hreports, List.append_assoc]
  · simp only [List.mem_append, List.mem_singleton, reduceCtorEq, or_false] at hmem
    exact hmem.elim (hnone a b) (hlines a b)

theorem readTestValues_passes (hpasses : 2 ^ 30 ≤ passes)
    (hwords : ∀ m ∈ regionsOf T, ∀ j < regionSize (chunksOf m) / 4,
      Right view m.effectiveStartAddress j) :
    ∃ reports, readTestValuesFromMemory passes T view = some (.ok reports) ∧
      (∀ i < (regionsOf T).length, .successful (i + 1) ∈ reports) ∧
        ∀ a b, .error a b ∉ reports := by
  obtain ⟨parts, hrun, hparts⟩ := readRegions_parts (P := fun _ => Passed)
    (fun m hm => region_passes hpasses (hwords m hm)) 0 []
  rw [List.forall₂_iff_get] at hparts
  obtain ⟨hlength, hpassed⟩ := hparts
  rw [List.length_zipIdx] at hlength
  refine ⟨parts.flatten, hrun, fun i hi => ?_, fun a b hmem => ?_⟩
  · have hpart := hpassed i (by simpa using hi) (hlength ▸ hi)
    rw [List.get_eq_getElem, List.getElem_zipIdx, Nat.zero_add] at hpart
    exact List.mem_flatten_of_mem (List.get_mem _ _) hpart.1
  · obtain ⟨part, hpart, hline⟩ := List.mem_flatten.mp hmem
    obtain ⟨i, hi, rfl⟩ := List.getElem_of_mem hpart
    exact (hpassed i (by simpa using hlength ▸ hi) hi).2 a b hline

end Passed

section Agreement

variable {kernelCopyData : U32 → List Byte → Memory 32 → Memory 32} {translate : U32 → U32}
  {T : List MemoryMapping}

structure Agrees (kernelCopyData : U32 → List Byte → Memory 32 → Memory 32)
    (translate : U32 → U32) (T : List MemoryMapping) (testBuffer : Buffer) (memory : Memory 32) :
    Prop where
  /-- Each word of a region holds its index. -/
  words : ∀ m ∈ regionsOf T, ∀ j < regionSize (chunksOf m) / 4,
    load32 (seenThrough translate (writeTestValuesToMemory kernelCopyData T testBuffer memory))
      (m.effectiveStartAddress + BitVec.ofNat 32 j * 4) = .ok (BitVec.ofNat 32 j)
  /-- Nothing outside the chunks has changed. -/
  frame : ∀ a, (∀ v ∈ tableChunks T, ¬ Holds v a) →
    writeTestValuesToMemory kernelCopyData T testBuffer memory a = memory a
  /-- The reader ends, reports every region as successful and no error. -/
  reports : ∃ passes reports, readTestValuesFromMemory passes T
      (seenThrough translate (writeTestValuesToMemory kernelCopyData T testBuffer memory)) =
        some (.ok reports) ∧
    (∀ i < (regionsOf T).length, .successful (i + 1) ∈ reports) ∧ ∀ a b, .error a b ∉ reports

/-- On disjoint chunks of whole pages the writer and the reader agree. -/
theorem memoryTest_agrees
    (hcopies : ∀ dst bytes m, kernelCopyData dst bytes m = copyBytes m dst bytes)
    (htranslates : TranslatesTable translate T) (hsizes : ∀ v ∈ tableChunks T, 0x20000 ∣ size v)
    (hdisjoint : DisjointChunks (tableChunks T)) (testBuffer : Buffer) (memory : Memory 32) :
    Agrees kernelCopyData translate T testBuffer memory := by
  obtain ⟨hbytes, hframe⟩ := writeRegions_spec hcopies
    (fun v hv => Nat.dvd_trans (by decide) (hsizes v hv)) hdisjoint ⟨testBuffer, 0, memory⟩
  have hwords : ∀ m ∈ regionsOf T, ∀ j < regionSize (chunksOf m) / 4,
      load32 (seenThrough translate (writeTestValuesToMemory kernelCopyData T testBuffer memory))
        (m.effectiveStartAddress + BitVec.ofNat 32 j * 4) = .ok (BitVec.ofNat 32 j) :=
    fun m hm j hj => load_region hm htranslates (hbytes m hm) hj
  exact ⟨hwords, hframe, 2 ^ 30, readTestValues_passes le_rfl hwords⟩

theorem shippedTable_agrees :
    Agrees (fun dst bytes m => copyBytes m dst bytes) (effectiveToPhysical shippedTable.toArray)
      shippedTable.toArray (fun _ => 0) (Memory.ofBytes fun _ => 0) :=
  memoryTest_agrees (fun _ _ _ => rfl) (effectiveToPhysical_translates shippedTable)
    (by decide) (disjointChunks_toArray shippedTable_physicallyDisjoint) _ _

end Agreement

end MemoryMappingModule.MemoryTest
