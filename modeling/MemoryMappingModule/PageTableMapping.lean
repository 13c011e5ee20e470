import MemoryMappingModule.FirstFit
import MemoryMappingModule.PageTableLookup

/-! `MemoryMapping_mapMemory`: one page table entry per page, in the first free slot
of the page's primary group or else of its secondary group. The loop counter is a
32-bit word that may wrap past its bound, so the loop is justified by the zero words
it uses up. On a table the mask fits, a call is a first-fit placement of one request
per visited page, and what it leaves alone follows from that. -/

namespace MemoryMappingModule.PageTableMapping

open WordArithmetic FirstFit MappingLayout PageTableFormat PageTableLookup

def pteHigh (v vsid h api : U32) : U32 := (v <<< 31) ||| (vsid <<< 7) ||| (h <<< 6) ||| api

def pteLow (rpn rc wimg pp : U32) : U32 := (rpn <<< 12) ||| (rc <<< 7) ||| (wimg <<< 3) ||| pp

def ptegAddr (htabOrg htabMask hashvalue : U32) : U32 :=
  (htabOrg <<< 16) ||| (((hashvalue >>> 10) &&& htabMask) <<< 16) ||| ((hashvalue &&& 0x3FF) <<< 6)

/-- Either of the two loops over a group: the counter runs from 7 down to 1, so the slot
at the group's start is not among those tried. -/
def storeInGroup (t : PageTable) (pteh ptel : U32) : ℕ → U32 → Exec (Option PageTable)
  | 0, _ => .ok none
  | j + 1, ptegOffset => do
    let index := (ptegOffset / 4).toNat
    let word ← t.read index
    if word = 0 then
      let t ← t.write index pteh
      let t ← t.write (index + 1) ptel
      return some t
    else storeInGroup t pteh ptel j (ptegOffset - 8)

/-- The loop body of `MemoryMapping_mapMemory`; `false` where the source returns false. -/
def mapPage (paStartAddress eaStartAddress : U32) (sr : SrTable) (t : PageTable) (i : U32) :
    Exec (Bool × PageTable) := do
  let htabOrg := sr.sdr1 >>> 16
  let htabMask := sr.sdr1 &&& 0x1FF
  let eaAddr := eaStartAddress + i
  let segment := sr.value (SrTable.segmentIndex eaAddr)
  let vsid := segment &&& 0x00FFFFFF
  let rpn := (paStartAddress + i) >>> 12
  let pageIndex := (eaAddr >>> pageIndexShift) &&& pageIndexMask
  let api := (eaAddr >>> 22) &&& 0x3F
  let ptel := pteLow rpn 3 0x02 0x02
  let hashvalue1 := (vsid &&& 0x7FFFF) ^^^ pageIndex
  let hashvalue2 := ~~~hashvalue1
  let ptegAddr1 := ptegAddr htabOrg htabMask hashvalue1
  let ptegAddr2 := ptegAddr htabOrg htabMask hashvalue2
  match ← storeInGroup t (pteHigh 1 vsid 0 api) ptel 7 (ptegAddr1 - (htabOrg <<< 16) + 7 * 8) with
  | some t => return (true, t)
  | none =>
    match ← storeInGroup t (pteHigh 1 vsid 1 api) ptel 7
      (ptegAddr2 - (htabOrg <<< 16) + 7 * 8) with
    | some t => return (true, t)
    | none => return (false, t)

section Termination

def zeroWords (t : PageTable) : ℕ := (Finset.univ.filter fun i => t i = 0).card

theorem pteHigh_ne_zero (vsid h api : U32) : pteHigh 1 vsid h api ≠ 0 := by
  intro hzero
  have hbit := congrArg (fun x : U32 => x.getLsbD 31) hzero
  simp [pteHigh] at hbit

theorem pteLow_ne_zero (rpn : U32) : pteLow rpn 3 0x02 0x02 ≠ 0 := by
  intro hzero
  have hbit := congrArg (fun x : U32 => x.getLsbD 1) hzero
  simp [pteLow] at hbit

theorem zero_of_update_zero {t : PageTable} {i j : Fin 0x8000} {word : U32} (hword : word ≠ 0)
    (h : Function.update t i word j = 0) : t j = 0 := by
  rw [Function.update_apply] at h
  split_ifs at h
  · exact absurd h hword
  · exact h

theorem zeroWords_update_le (t : PageTable) (i : Fin 0x8000) {word : U32} (hword : word ≠ 0) :
    zeroWords (Function.update t i word) ≤ zeroWords t :=
  Finset.card_le_card (Finset.monotone_filter_right _ fun _ _ => zero_of_update_zero hword)

theorem zeroWords_update_lt (t : PageTable) (i : Fin 0x8000) {word : U32} (hword : word ≠ 0)
    (hzero : t i = 0) : zeroWords (Function.update t i word) < zeroWords t := by
  apply Finset.card_lt_card
  refine (Finset.ssubset_iff_of_subset
    (Finset.monotone_filter_right _ fun _ _ => zero_of_update_zero hword)).mpr ⟨i, ?_, ?_⟩
  · simpa using hzero
  · simpa using hword

theorem zeroWords_storeInGroup_lt {t t' : PageTable} {pteh ptel : U32} (hpteh : pteh ≠ 0)
    (hptel : ptel ≠ 0) {j : ℕ} {off : U32}
    (h : storeInGroup t pteh ptel j off = .ok (some t')) : zeroWords t' < zeroWords t := by
  induction j generalizing off with
  | zero => simp [storeInGroup] at h
  | succ j ih =>
    simp only [storeInGroup, PageTable.read, PageTable.write, bind, Except.bind] at h
    by_cases hindex : (off / 4).toNat < 0x8000
    · simp only [dif_pos hindex] at h
      split_ifs at h with hzero hnext
      · obtain rfl := Option.some.inj (Except.ok.inj h)
        exact lt_of_le_of_lt (zeroWords_update_le _ _ hptel) (zeroWords_update_lt t _ hpteh hzero)
      · exact ih h
    · rw [dif_neg hindex] at h
      simp at h

theorem zeroWords_mapPage_lt {pa ea i : U32} {sr : SrTable} {t t' : PageTable}
    (h : mapPage pa ea sr t i = .ok (true, t')) : zeroWords t' < zeroWords t := by
  simp only [mapPage, bind, Except.bind, pure, Except.pure] at h
  split at h
  · simp at h
  next first hfirst =>
  split at h
  · obtain rfl := congrArg Prod.snd (Except.ok.inj h)
    exact zeroWords_storeInGroup_lt (pteHigh_ne_zero _ _ _) (pteLow_ne_zero _) hfirst
  · split at h
    · simp at h
    next second hsecond =>
    split at h
    · obtain rfl := congrArg Prod.snd (Except.ok.inj h)
      exact zeroWords_storeInGroup_lt (pteHigh_ne_zero _ _ _) (pteLow_ne_zero _) hsecond
    · simp at h

end Termination

/-- `for (uint32_t i = 0; i < size; i += pageSize)` over a body that returns false or
uses up a zero word. -/
def forPages (size : U32) (body : U32 → PageTable → Exec (Bool × PageTable))
    (uses : ∀ {i t t'}, body i t = .ok (true, t') → zeroWords t' < zeroWords t) (i : U32)
    (t : PageTable) : Exec (Bool × PageTable) :=
  if i < size then
    match _h : body i t with
    | .error halt => .error halt
    | .ok (false, t') => .ok (false, t')
    | .ok (true, t') => forPages size body uses (i + pageSize) t'
  else .ok (true, t)
termination_by zeroWords t
decreasing_by exact uses _h

/-- `MemoryMapping_mapMemory` -/
def mapMemory (paStartAddress paEndAddress eaStartAddress : U32) (sr : SrTable) (t : PageTable) :
    Exec (Bool × PageTable) :=
  forPages (paEndAddress - paStartAddress) (fun i t => mapPage paStartAddress eaStartAddress sr t i)
    zeroWords_mapPage_lt 0 t

section Placement

/-- The group a call tries for a hash: the processor's group, less the bits that the
table's base shares with the group index. -/
def placementGroup (sr : SrTable) (hash : U32) : U32 :=
  pteg sr.htabMask hash &&& ~~~(sr.htabOrg <<< 10)

theorem ptegAddr_sub (sr : SrTable) (hash : U32) :
    ptegAddr sr.htabOrg sr.htabMask hash - (sr.htabOrg <<< 16) = placementGroup sr hash <<< 6 := by
  rw [ptegAddr, BitVec.or_assoc, or_sub_left]
  change ((((hash >>> 10) &&& sr.htabMask) <<< 16) ||| ((hash &&& lowMask 32 10) <<< 6)) &&&
      ~~~(sr.htabOrg <<< 16) =
    ((hash &&& ((sr.htabMask <<< 10) ||| lowMask 32 10)) &&& ~~~(sr.htabOrg <<< 10)) <<< 6
  apply BitVec.eq_of_getLsbD_eq
  intro i hi
  simp only [BitVec.getLsbD_and, BitVec.getLsbD_or, BitVec.getLsbD_not, BitVec.getLsbD_shiftLeft,
    BitVec.getLsbD_ushiftRight, getLsbD_lowMask]
  grind

theorem placementGroup_toNat_lt {sr : SrTable} (hmask : sr.htabMask ≤ 1) (hash : U32) :
    (placementGroup sr hash).toNat < 0x800 := by
  have hle : (placementGroup sr hash).toNat ≤ (pteg sr.htabMask hash).toNat := by
    rw [placementGroup, BitVec.toNat_and]
    exact Nat.and_le_left
  exact lt_of_le_of_lt hle (pteg_toNat_lt hmask hash)

theorem placementGroup_eq {sr : SrTable} (hfits : sr.FitsTable) (hash : U32) :
    placementGroup sr hash = pteg sr.htabMask hash := by
  have hmask : sr.htabMask = 0 ∨ sr.htabMask = 1 := by
    have h := hfits.mask_le
    bv_omega
  have hbit : sr.htabMask = 1 → sr.htabOrg.getLsbD 0 = false := by
    intro h
    have hand := congrArg (fun x : U32 => x.getLsbD 0) hfits.org_and_mask
    simpa [h] using hand
  apply BitVec.eq_of_getLsbD_eq
  intro i hi
  rcases hmask with h | h
  · simp only [placementGroup, pteg, h]
    change ((hash &&& ((0 <<< 10) ||| lowMask 32 10)) &&& _).getLsbD i =
      (hash &&& ((0 <<< 10) ||| lowMask 32 10)).getLsbD i
    simp only [BitVec.getLsbD_and, BitVec.getLsbD_or, BitVec.getLsbD_not, BitVec.getLsbD_shiftLeft,
      getLsbD_lowMask]
    grind
  · have hbit := hbit h
    simp only [placementGroup, pteg, h]
    change ((hash &&& ((lowMask 32 1 <<< 10) ||| lowMask 32 10)) &&& _).getLsbD i =
      (hash &&& ((lowMask 32 1 <<< 10) ||| lowMask 32 10)).getLsbD i
    simp only [BitVec.getLsbD_and, BitVec.getLsbD_or, BitVec.getLsbD_not, BitVec.getLsbD_shiftLeft,
      getLsbD_lowMask]
    grind

def slotsDown (g : ℕ) : ℕ → List Slot
  | 0 => []
  | j + 1 => slot g (j + 1) :: slotsDown g j

def usableSlots (g : ℕ) : List Slot := slotsDown g 7

/-- A loop over a group serves the request for the slots it tries. -/
theorem storeInGroup_refines (t : PageTable) (e : Pte) {g j : ℕ} (hg : g < 0x800) (hj : j ≤ 7)
    {off : U32} (hoff : off.toNat = 64 * g + 8 * j) :
    place Pte.Free (entries t) ((slotsDown g j).map fun s => (s, e)) = none ∧
        storeInGroup t e.high e.low j off = .ok none ∨
      ∃ t', place Pte.Free (entries t) ((slotsDown g j).map fun s => (s, e)) = some (entries t') ∧
        storeInGroup t e.high e.low j off = .ok (some t') := by
  induction j generalizing off with
  | zero => exact Or.inl ⟨rfl, rfl⟩
  | succ j ih =>
    have hslot := slot_val hg (show j + 1 < 8 by omega)
    have hindex : (off / 4).toNat = 2 * (slot g (j + 1)).val := by
      rw [BitVec.toNat_udiv, hslot, hoff]
      change (64 * g + 8 * (j + 1)) / 4 = _
      omega
    have hnext : (off - 8).toNat = 64 * g + 8 * j := by
      rw [BitVec.toNat_sub_of_le (by rw [BitVec.le_def, hoff]; change 8 ≤ _; omega), hoff]
      change _ - 8 = _
      omega
    simp only [storeInGroup, hindex, read_slot, slotsDown, List.map_cons]
    by_cases hfree : (entries t (slot g (j + 1))).Free
    · obtain ⟨t', hwrite, hentries⟩ := write_slot t (slot g (j + 1)) e
      have hword : (entries t (slot g (j + 1))).high = 0 := hfree
      refine Or.inr ⟨t', ?_, ?_⟩
      · rw [place_cons_free hfree, hentries]
      · simp only [bind, Except.bind, if_pos hword] at hwrite ⊢
        split at hwrite
        · simp at hwrite
        · simp only [hwrite, pure, Except.pure]
    · have hword : ¬ (entries t (slot g (j + 1))).high = 0 := hfree
      have skip : place Pte.Free (entries t) ((slot g (j + 1), e) ::
          (slotsDown g j).map fun s => (s, e)) = _ := place_cons_taken hfree
      simp only [bind, Except.bind, if_neg hword, skip]
      exact ih (by omega) hnext

def pageEntry (paStartAddress eaStartAddress : U32) (sr : SrTable) (h i : U32) : Pte where
  high := pteHigh 1 (sr.vsid (eaStartAddress + i)) h (abbreviatedPageIndex (eaStartAddress + i))
  low := pteLow ((paStartAddress + i) >>> 12) 3 0x02 0x02

def primaryGroup (sr : SrTable) (ea : U32) : ℕ :=
  (placementGroup sr (primaryHash (sr.vsid ea) ea)).toNat

def secondaryGroup (sr : SrTable) (ea : U32) : ℕ :=
  (placementGroup sr (~~~primaryHash (sr.vsid ea) ea)).toNat

/-- The slots tried for a page, in order, each with what would be stored there. -/
def pageRequest (paStartAddress eaStartAddress : U32) (sr : SrTable) (i : U32) :
    Request Slot Pte :=
  (usableSlots (primaryGroup sr (eaStartAddress + i))).map
      (fun s => (s, pageEntry paStartAddress eaStartAddress sr 0 i)) ++
    (usableSlots (secondaryGroup sr (eaStartAddress + i))).map
      (fun s => (s, pageEntry paStartAddress eaStartAddress sr 1 i))

theorem storeInGroup_offset {sr : SrTable} (hmask : sr.htabMask ≤ 1) (t : PageTable) (e : Pte)
    (hash : U32) :
    place Pte.Free (entries t)
          ((usableSlots (placementGroup sr hash).toNat).map fun s => (s, e)) = none ∧
        storeInGroup t e.high e.low 7
          (ptegAddr sr.htabOrg sr.htabMask hash - (sr.htabOrg <<< 16) + 7 * 8) = .ok none ∨
      ∃ t', place Pte.Free (entries t)
          ((usableSlots (placementGroup sr hash).toNat).map fun s => (s, e)) = some (entries t') ∧
        storeInGroup t e.high e.low 7
          (ptegAddr sr.htabOrg sr.htabMask hash - (sr.htabOrg <<< 16) + 7 * 8) = .ok (some t') := by
  have hlt := placementGroup_toNat_lt hmask hash
  have hshift : (placementGroup sr hash <<< 6).toNat = 64 * (placementGroup sr hash).toNat := by
    rw [BitVec.toNat_shiftLeft, Nat.shiftLeft_eq]
    omega
  rw [ptegAddr_sub]
  apply storeInGroup_refines t e hlt le_rfl
  rw [BitVec.toNat_add_of_lt (by rw [hshift]; change _ + 56 < 2 ^ 32; omega), hshift]
  rfl

theorem mapPage_eq (pa ea : U32) (sr : SrTable) (t : PageTable) (i : U32) :
    mapPage pa ea sr t i =
      (storeInGroup t (pageEntry pa ea sr 0 i).high (pageEntry pa ea sr 0 i).low 7
          (ptegAddr sr.htabOrg sr.htabMask (primaryHash (sr.vsid (ea + i)) (ea + i)) -
            (sr.htabOrg <<< 16) + 7 * 8) >>= fun
        | some t' => .ok (true, t')
        | none =>
          storeInGroup t (pageEntry pa ea sr 1 i).high (pageEntry pa ea sr 1 i).low 7
              (ptegAddr sr.htabOrg sr.htabMask (~~~primaryHash (sr.vsid (ea + i)) (ea + i)) -
                (sr.htabOrg <<< 16) + 7 * 8) >>= fun
            | some t' => .ok (true, t')
            | none => .ok (false, t)) := rfl

theorem mapPage_refines {sr : SrTable} (hmask : sr.htabMask ≤ 1) (pa ea : U32) (t : PageTable)
    (i : U32) :
    place Pte.Free (entries t) (pageRequest pa ea sr i) = none ∧
        mapPage pa ea sr t i = .ok (false, t) ∨
      ∃ t', place Pte.Free (entries t) (pageRequest pa ea sr i) = some (entries t') ∧
        mapPage pa ea sr t i = .ok (true, t') := by
  have first := storeInGroup_offset hmask t (pageEntry pa ea sr 0 i)
    (primaryHash (sr.vsid (ea + i)) (ea + i))
  have second := storeInGroup_offset hmask t (pageEntry pa ea sr 1 i)
    (~~~primaryHash (sr.vsid (ea + i)) (ea + i))
  rcases first with ⟨hplace, hstore⟩ | ⟨t', hplace, hstore⟩
  · have hprimary : place Pte.Free (entries t) (pageRequest pa ea sr i) = _ :=
      place_append_none hplace
    rcases second with ⟨hplace', hstore'⟩ | ⟨t', hplace', hstore'⟩
    · refine Or.inl ⟨hprimary.trans hplace', ?_⟩
      rw [mapPage_eq, hstore]
      simp only [bind, Except.bind, hstore']
    · refine Or.inr ⟨t', hprimary.trans hplace', ?_⟩
      rw [mapPage_eq, hstore]
      simp only [bind, Except.bind, hstore']
  · refine Or.inr ⟨t', place_append_some hplace, ?_⟩
    rw [mapPage_eq, hstore]
    rfl

end Placement

section Entry

theorem pteHigh_valid (vsid h api : U32) : (pteHigh 1 vsid h api) >>> 31 ≠ 0 := by
  intro hzero
  have hbit := congrArg (fun x : U32 => x.getLsbD 0) hzero
  simp [pteHigh] at hbit

theorem pteHigh_bit (vsid h ea : U32) {i : ℕ} (hi : i < 32) :
    (pteHigh 1 vsid h (abbreviatedPageIndex ea)).getLsbD i =
      (decide (i = 31) || decide (7 ≤ i) && vsid.getLsbD (i - 7) ||
        decide (6 ≤ i) && h.getLsbD (i - 6) || decide (i < 6) && ea.getLsbD (22 + i)) := by
  change (lowMask 32 1 <<< 31 ||| vsid <<< 7 ||| h <<< 6 |||
    (ea >>> 22 &&& lowMask 32 6)).getLsbD i = _
  simp only [BitVec.getLsbD_and, BitVec.getLsbD_or, BitVec.getLsbD_shiftLeft,
    BitVec.getLsbD_ushiftRight, getLsbD_lowMask]
  grind

theorem hashBit_high {h : U32} (hh : h = 0 ∨ h = 1) {i : ℕ} (hi : 1 ≤ i) : h.getLsbD i = false := by
  rcases hh with rfl | rfl
  · simp
  · change (lowMask 32 1).getLsbD i = false
    simp [show i ≠ 0 by omega]

theorem pteHigh_hashBit (vsid ea : U32) {h : U32} (hh : h = 0 ∨ h = 1) :
    (pteHigh 1 vsid h (abbreviatedPageIndex ea) >>> 6) &&& 1 = h := by
  have hhigh (i : ℕ) (hi : 1 ≤ i) := hashBit_high hh hi
  change (pteHigh 1 vsid h (abbreviatedPageIndex ea) >>> 6) &&& lowMask 32 1 = h
  apply BitVec.eq_of_getLsbD_eq
  intro i hi
  rw [BitVec.getLsbD_and, BitVec.getLsbD_ushiftRight, getLsbD_lowMask]
  by_cases hzero : i = 0
  · subst hzero
    rw [pteHigh_bit _ _ _ (by decide)]
    simp
  · simp [hzero, hhigh i (by omega)]

theorem pteHigh_vsid (segment ea : U32) {h : U32} (hh : h = 0 ∨ h = 1) :
    (pteHigh 1 (segment &&& 0x00FFFFFF) h (abbreviatedPageIndex ea) >>> 7) &&& 0xFFFFFF =
      segment &&& 0x00FFFFFF := by
  have hhigh (i : ℕ) (hi : 1 ≤ i) := hashBit_high hh hi
  change (pteHigh 1 (segment &&& lowMask 32 24) h (abbreviatedPageIndex ea) >>> 7) &&&
    lowMask 32 24 = segment &&& lowMask 32 24
  apply BitVec.eq_of_getLsbD_eq
  intro i hi
  simp only [BitVec.getLsbD_and, BitVec.getLsbD_ushiftRight, getLsbD_lowMask]
  by_cases hfield : i < 24
  · rw [pteHigh_bit _ _ _ (by omega)]
    simp only [BitVec.getLsbD_and, getLsbD_lowMask]
    grind
  · simp [hfield]

theorem pteHigh_api (vsid h ea : U32) :
    pteHigh 1 vsid h (abbreviatedPageIndex ea) &&& 0x3F = abbreviatedPageIndex ea := by
  change pteHigh 1 vsid h (abbreviatedPageIndex ea) &&& lowMask 32 6 = ea >>> 22 &&& lowMask 32 6
  apply BitVec.eq_of_getLsbD_eq
  intro i hi
  simp only [BitVec.getLsbD_and, BitVec.getLsbD_ushiftRight, getLsbD_lowMask]
  rw [pteHigh_bit _ _ _ hi]
  grind

theorem mem_slotsDown {g j : ℕ} (hg : g < 0x800) (hj : j ≤ 7) (s : Slot) :
    s ∈ slotsDown g j ↔ s.val / 8 = g ∧ s.val % 8 ≠ 0 ∧ s.val % 8 ≤ j := by
  induction j with
  | zero =>
    simp only [slotsDown, List.not_mem_nil, false_iff]
    omega
  | succ j ih =>
    rw [slotsDown, List.mem_cons, ih (by omega), Fin.ext_iff, slot_val hg (by omega)]
    omega

theorem mem_usableSlots {g : ℕ} (hg : g < 0x800) (s : Slot) :
    s ∈ usableSlots g ↔ s.val / 8 = g ∧ s.val % 8 ≠ 0 := by
  rw [usableSlots, mem_slotsDown hg le_rfl]
  omega

theorem pageRequest_translates {sr : SrTable} (hfits : sr.FitsTable) (pa ea i : U32)
    {c : Slot × Pte} (hc : c ∈ pageRequest pa ea sr i) :
    Translates sr (sr.vsid (ea + i)) (ea + i) c.1 c.2 := by
  have fields (h : U32) (hh : h = 0 ∨ h = 1) : (pageEntry pa ea sr h i).Valid ∧
      (pageEntry pa ea sr h i).vsid = sr.vsid (ea + i) ∧
      (pageEntry pa ea sr h i).api = abbreviatedPageIndex (ea + i) ∧
      (pageEntry pa ea sr h i).hashBit = h :=
    ⟨pteHigh_valid _ _ _, pteHigh_vsid _ _ hh, pteHigh_api _ _ _, pteHigh_hashBit _ _ hh⟩
  rcases List.mem_append.mp hc with hc | hc
  · obtain ⟨s, hs, rfl⟩ := List.mem_map.mp hc
    obtain ⟨hvalid, hvsid, hapi, hbit⟩ := fields 0 (Or.inl rfl)
    rw [primaryGroup, placementGroup_eq hfits,
      mem_usableSlots (pteg_toNat_lt hfits.mask_le _)] at hs
    exact ⟨hvalid, hvsid, hapi, Or.inl ⟨hbit, hs.1⟩⟩
  · obtain ⟨s, hs, rfl⟩ := List.mem_map.mp hc
    obtain ⟨hvalid, hvsid, hapi, hbit⟩ := fields 1 (Or.inr rfl)
    rw [secondaryGroup, placementGroup_eq hfits,
      mem_usableSlots (pteg_toNat_lt hfits.mask_le _)] at hs
    exact ⟨hvalid, hvsid, hapi, Or.inr ⟨hbit, hs.1⟩⟩

theorem pageRequest_low (pa ea : U32) (sr : SrTable) (i : U32) {c : Slot × Pte}
    (hc : c ∈ pageRequest pa ea sr i) : c.2.low = pteLow ((pa + i) >>> 12) 3 0x02 0x02 := by
  rcases List.mem_append.mp hc with hc | hc
  · obtain ⟨s, _, rfl⟩ := List.mem_map.mp hc
    rfl
  · obtain ⟨s, _, rfl⟩ := List.mem_map.mp hc
    rfl

theorem pteLow_page (pa : U32) :
    pteLow (pa >>> 12) 3 0x02 0x02 &&& (0xFFFFF000 : U32) = (pa >>> 12) <<< 12 := by
  have flags : pteLow (pa >>> 12) 3 0x02 0x02 = ((pa >>> 12) <<< 12) ||| 0x192 := by
    rw [pteLow, BitVec.or_assoc, BitVec.or_assoc]
    rfl
  have masked : (0x192 : U32) &&& 0xFFFFF000 = 0 := by decide
  have kept : ((pa >>> 12) <<< 12) &&& (0xFFFFF000 : U32) = (pa >>> 12) <<< 12 := by
    change ((pa >>> 12) <<< 12) &&& ~~~lowMask 32 12 = (pa >>> 12) <<< 12
    apply BitVec.eq_of_getLsbD_eq
    intro i hi
    simp only [BitVec.getLsbD_and, BitVec.getLsbD_not, BitVec.getLsbD_shiftLeft,
      BitVec.getLsbD_ushiftRight, getLsbD_lowMask]
    grind
  rw [flags, BitVec.and_or_distrib_right, masked, kept]
  exact BitVec.or_zero

end Entry

section Loop

variable {size : U32} {body : U32 → PageTable → Exec (Bool × PageTable)}
  {uses : ∀ {i t t'}, body i t = .ok (true, t') → zeroWords t' < zeroWords t}
  {i : U32} {t t' : PageTable}

theorem forPages_done (h : ¬ i < size) : forPages size body uses i t = .ok (true, t) := by
  rw [forPages, if_neg h]

theorem forPages_false (h : i < size) (hbody : body i t = .ok (false, t')) :
    forPages size body uses i t = .ok (false, t') := by
  rw [forPages, if_pos h]
  split <;> simp_all

theorem forPages_true (h : i < size) (hbody : body i t = .ok (true, t')) :
    forPages size body uses i t = forPages size body uses (i + pageSize) t' := by
  rw [forPages, if_pos h]
  split <;> simp_all

def counters : U32 → ℕ → List U32
  | _, 0 => []
  | i, n + 1 => i :: counters (i + pageSize) n

/-- A run of the page loop serves the requests of the pages it visits. -/
theorem forPages_refines {sr : SrTable} (hmask : sr.htabMask ≤ 1) (pa ea size i : U32)
    (t : PageTable) :
    ∃ n ok t', forPages size (fun i t => mapPage pa ea sr t i) zeroWords_mapPage_lt i t =
        .ok (ok, t') ∧
      placeAll Pte.Free (entries t) ((counters i n).map (pageRequest pa ea sr)) =
        (ok, entries t') ∧
      (∀ c ∈ counters i n, c < size) ∧
      (ok = true → ¬ i + BitVec.ofNat 32 n * pageSize < size) := by
  by_cases hi : i < size
  · rcases mapPage_refines hmask pa ea t i with ⟨hplace, hbody⟩ | ⟨u, hplace, hbody⟩
    · refine ⟨1, false, t, forPages_false hi hbody, ?_, ?_, by simp⟩
      · exact placeAll_cons_none hplace
      · simpa [counters] using hi
    · have fewer : zeroWords u < zeroWords t := zeroWords_mapPage_lt hbody
      obtain ⟨n, ok, t', hrun, hall, hvisited, hend⟩ :=
        forPages_refines hmask pa ea size (i + pageSize) u
      refine ⟨n + 1, ok, t', ?_, ?_, ?_, fun hok => ?_⟩
      · rw [forPages_true hi hbody, hrun]
      · rw [counters, List.map_cons, placeAll_cons_some hplace, hall]
      · simpa [counters, hi] using hvisited
      · have hnext : i + BitVec.ofNat 32 (n + 1) * pageSize =
            i + pageSize + BitVec.ofNat 32 n * pageSize := by
          rw [BitVec.ofNat_add, BitVec.add_mul, BitVec.one_mul, BitVec.add_assoc,
            BitVec.add_comm pageSize]
        rw [hnext]
        exact hend hok
  · exact ⟨0, true, t, forPages_done hi, rfl, by simp [counters], by simpa using hi⟩
termination_by zeroWords t

theorem counters_aligned {i : U32} (hi : i.toNat % 0x20000 = 0) {n : ℕ} {c : U32}
    (hc : c ∈ counters i n) : c.toNat % 0x20000 = 0 := by
  induction n generalizing i with
  | zero => simp [counters] at hc
  | succ n ih =>
    rcases List.mem_cons.mp hc with rfl | hc
    · exact hi
    · refine ih ?_ hc
      rw [BitVec.toNat_add, pageSize_toNat]
      omega

theorem counters_eq (i : U32) (n : ℕ) :
    counters i n = (List.range n).map fun k => i + BitVec.ofNat 32 (k * 0x20000) := by
  induction n generalizing i with
  | zero => rfl
  | succ n ih =>
    rw [counters, ih, List.range_succ_eq_map, List.map_cons, List.map_map]
    refine congrArg₂ _ (by simp) (List.map_congr_left fun k _ => ?_)
    have hstep : BitVec.ofNat 32 ((k + 1) * 0x20000) =
        pageSize + BitVec.ofNat 32 (k * 0x20000) := by
      rw [Nat.add_mul, Nat.add_comm, BitVec.ofNat_add]
      rfl
    rw [Function.comp_apply, Nat.succ_eq_add_one, hstep, BitVec.add_assoc]

def Places (t : PageTable) (rs : List (Request Slot Pte)) (result : Exec (Bool × PageTable)) :
    Prop :=
  ∃ t', result = .ok ((placeAll Pte.Free (entries t) rs).1, t') ∧
    entries t' = (placeAll Pte.Free (entries t) rs).2

theorem Places.nil (t : PageTable) : Places t [] (.ok (true, t)) := ⟨t, rfl, rfl⟩

theorem Places.append {t : PageTable} {rs rs' : List (Request Slot Pte)}
    {first : Exec (Bool × PageTable)} {next : PageTable → Exec (Bool × PageTable)}
    (hfirst : Places t rs first) (hnext : ∀ t', Places t' rs' (next t')) :
    Places t (rs ++ rs') (first >>= fun r => if r.1 then next r.2 else .ok (false, r.2)) := by
  obtain ⟨t', rfl, hentries⟩ := hfirst
  simp only [Places, placeAll_append, bind, Except.bind]
  by_cases ok : (placeAll Pte.Free (entries t) rs).1 = true
  · simp only [if_pos ok, ← hentries]
    exact hnext t'
  · simp only [if_neg ok]
    exact ⟨t', by rw [Bool.eq_false_iff.mpr ok], hentries⟩

theorem forPages_places {sr : SrTable} (hmask : sr.htabMask ≤ 1) (pa ea : U32) {size i : U32}
    {n : ℕ} (hsize : i.toNat + n * 0x20000 = size.toNat) (t : PageTable) :
    Places t ((counters i n).map (pageRequest pa ea sr))
      (forPages size (fun i t => mapPage pa ea sr t i) zeroWords_mapPage_lt i t) := by
  induction n generalizing i t with
  | zero =>
    rw [forPages_done (by rw [BitVec.lt_def]; omega)]
    exact Places.nil t
  | succ n ih =>
    have hi : i < size := by
      rw [BitVec.lt_def]
      omega
    have hlt := size.isLt
    have hnext : (i + pageSize).toNat = i.toNat + 0x20000 := by
      rw [BitVec.toNat_add_of_lt (by rw [pageSize_toNat]; omega), pageSize_toNat]
    rw [counters, List.map_cons]
    rcases mapPage_refines hmask pa ea t i with ⟨hplace, hbody⟩ | ⟨u, hplace, hbody⟩
    · rw [forPages_false hi hbody, Places, placeAll_cons_none hplace]
      exact ⟨t, rfl, rfl⟩
    · rw [forPages_true hi hbody, Places, placeAll_cons_some hplace]
      exact ih (by omega) u

end Loop

theorem mapMemory_places {sr : SrTable} (hmask : sr.htabMask ≤ 1) (pa pe ea : U32) {n : ℕ}
    (hsize : n * 0x20000 = (pe - pa).toNat) (t : PageTable) :
    Places t ((counters 0 n).map (pageRequest pa ea sr)) (mapMemory pa pe ea sr t) :=
  forPages_places hmask pa ea (by rw [← hsize]; exact Nat.zero_add _) t

/-- A page's new entry is in a slot that was free, and no lookup for another page sees it. -/
theorem mapMemory_frame {sr : SrTable} (hfits : sr.FitsTable) (pa pe ea : U32) (t : PageTable) :
    ∃ ok t', mapMemory pa pe ea sr t = .ok (ok, t') ∧
      (∀ s, ¬ (entries t s).Free → entries t' s = entries t s) ∧
      ∀ addr vsid, (∀ i : U32, i.toNat % 0x20000 = 0 → i < pe - pa →
          (sr.vsid (ea + i), pageIndex (ea + i)) ≠ (vsid, pageIndex addr)) →
        ∀ checkSecondHash, getPageEntryForAddress sr.sdr1 addr vsid t' checkSecondHash =
          getPageEntryForAddress sr.sdr1 addr vsid t checkSecondHash := by
  obtain ⟨n, ok, t', hrun, hall, hvisited, _⟩ :=
    forPages_refines hfits.mask_le pa ea (pe - pa) 0 t
  have grows : Grows Pte.Free _ _ _ := placeAll_grows (entries t)
    ((counters 0 n).map (pageRequest pa ea sr))
  rw [hall] at grows
  refine ⟨ok, t', hrun, fun s hs => grows.eq_of_not_free hs, fun addr vsid hother b => ?_⟩
  have hmask := hfits.mask_le
  rw [getPageEntryForAddress_eq hmask, getPageEntryForAddress_eq hmask]
  refine congrArg Except.ok (lookup_congr hmask (fun s => ?_) b)
  rcases grows s with same | ⟨hfree, r, hr, hmem⟩
  · exact Or.inl same
  · refine Or.inr ⟨fun hold => hold.1.not_free hfree, fun hnew => ?_⟩
    obtain ⟨i, hi, rfl⟩ := List.mem_map.mp hr
    obtain ⟨hvsid, hpage⟩ := (pageRequest_translates hfits pa ea i hmem).pageIndex_eq hnew
    exact hother i (counters_aligned (by rfl) hi) (hvisited i hi) (by rw [hvsid, hpage])

def crowdedTable : PageTable := fun i =>
  if i.val % 32 = 2 then 0x98765480 else if i.val % 32 = 3 then 0x2A000012 else 0

theorem crowdedTable_frame :
    ∃ ok t', mapMemory 0x28000000 0x28040000 0x80000000 ⟨fun _ => segmentUniqueId, 0x00E00001⟩
        crowdedTable = .ok (ok, t') ∧
      (∀ s, ¬ (entries crowdedTable s).Free → entries t' s = entries crowdedTable s) ∧
      ∀ checkSecondHash, getPageEntryForAddress 0x00E00001 0xA0020000 0x30ECA9 t' checkSecondHash =
        .ok (some ⟨0x98765480, 0x2A000012⟩) := by
  have hfits : (SrTable.mk (fun _ => segmentUniqueId) 0x00E00001).FitsTable :=
    ⟨by decide, by decide⟩
  have hfound : ∀ checkSecondHash, getPageEntryForAddress 0x00E00001 0xA0020000 0x30ECA9
      crowdedTable checkSecondHash = .ok (some ⟨0x98765480, 0x2A000012⟩) := by
    decide +kernel
  obtain ⟨ok, t', hrun, hkept, hsame⟩ :=
    mapMemory_frame hfits 0x28000000 0x28040000 0x80000000 crowdedTable
  refine ⟨ok, t', hrun, hkept, fun b => (hsame _ _ (fun i _ _ hpair => ?_) b).trans (hfound b)⟩
  exact absurd (congrArg Prod.fst hpair) (by simp only [SrTable.vsid, SrTable.segment]; decide)

end MemoryMappingModule.PageTableMapping
