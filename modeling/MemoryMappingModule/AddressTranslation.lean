import MemoryMappingModule.MappingLayout

/-! The module's own address translation in both directions. The functions are
written with different loops over the raw arrays; each is shown to compute one
half of the layout's partial bijection, with the BAT window as its first window
and address 0 in place of "not found". -/

namespace MemoryMappingModule.AddressTranslation

open ExtentTranslation MappingLayout

/-- First loop of `MemoryMapping_EffectiveToPhysical`: the chunks of the region that
holds the address, with the region's start as the running offset. -/
def selectRegion (effectiveAddress : U32) : List MemoryMapping → Option (List MemoryValues × U32)
  | [] => none
  | m :: rest =>
    match m.physicalAddresses with
    | none => none
    | some memValues =>
      if m.effectiveStartAddress ≤ effectiveAddress ∧ effectiveAddress < m.effectiveEndAddress then
        some (memValues, m.effectiveStartAddress)
      else selectRegion effectiveAddress rest

/-- Second loop: walk the chunks until the running offset passes the address. -/
def walkChunks (effectiveAddress : U32) : U32 → List MemoryValues → U32
  | _, [] => 0
  | curOffset, v :: rest =>
    if v.endAddress = 0 then 0
    else
      let curChunkSize := v.endAddress - v.startAddress
      if effectiveAddress < curOffset + curChunkSize then
        (effectiveAddress - curOffset) + v.startAddress
      else walkChunks effectiveAddress (curOffset + curChunkSize) rest

/-- `MemoryMapping_EffectiveToPhysical` -/
def effectiveToPhysical (mapping : List MemoryMapping) (effectiveAddress : U32) : U32 :=
  if 0x00800000 ≤ effectiveAddress ∧ effectiveAddress < 0x01000000 then
    effectiveAddress + (0x30800000 - 0x00800000)
  else
    match selectRegion effectiveAddress mapping with
    | none => 0
    | some (curMemValues, curOffset) => walkChunks effectiveAddress curOffset curMemValues

/-- Inner loop of `MemoryMapping_PhysicalToEffective`. -/
def searchChunks (physicalAddress effectiveStart : U32) : U32 → List MemoryValues → Option U32
  | _, [] => none
  | curOffsetInEA, v :: rest =>
    if v.endAddress = 0 then none
    else if v.startAddress ≤ physicalAddress ∧ physicalAddress < v.endAddress then
      some ((physicalAddress - v.startAddress) + (effectiveStart + curOffsetInEA))
    else
      searchChunks physicalAddress effectiveStart
        (curOffsetInEA + (v.endAddress - v.startAddress)) rest

/-- Outer loop of `MemoryMapping_PhysicalToEffective`; the offset restarts at 0 per region. -/
def searchRegions (physicalAddress : U32) : List MemoryMapping → U32
  | [] => 0
  | m :: rest =>
    match m.physicalAddresses with
    | none => 0
    | some memValues =>
      match searchChunks physicalAddress m.effectiveStartAddress 0 memValues with
      | some result => result
      | none => searchRegions physicalAddress rest

/-- `MemoryMapping_PhysicalToEffective` -/
def physicalToEffective (mapping : List MemoryMapping) (physicalAddress : U32) : U32 :=
  if 0x30800000 ≤ physicalAddress ∧ physicalAddress < 0x31000000 then
    physicalAddress - (0x30800000 - 0x00800000)
  else searchRegions physicalAddress mapping

def found : Option ℕ → U32
  | some a => BitVec.ofNat 32 a
  | none => 0

@[simp] theorem found_some (a : ℕ) : found (some a) = BitVec.ofNat 32 a := rfl

theorem found_none : found none = 0 := rfl

def batWindow : Window := ⟨0x00800000, [⟨0x30800000, 0x00800000⟩]⟩

def windows (T : MappingTable) : List Window := batWindow :: T.regions.map Region.window

theorem batWindow_contains_iff (ea : U32) : batWindow.Contains ea.toNat ↔ InBatWindow ea := by
  simp [batWindow, Window.Contains, InBatWindow, BitVec.le_def, BitVec.lt_def]

theorem batWindow_contains_lt {a : ℕ} (ha : batWindow.Contains a) : a < 2 ^ 32 := by
  simp only [batWindow, Window.Contains, total_cons, total_nil] at ha
  omega

theorem walkChunks_eq (ea cur : U32) (chunks : List Chunk) (hcur : cur.toNat ≤ ea.toNat)
    (hfits : cur.toNat + total (chunks.map Chunk.extent) < 2 ^ 32) :
    walkChunks ea cur (chunks.map Chunk.toValues ++ [⟨0, 0⟩]) =
      found (address (chunks.map Chunk.extent) (ea.toNat - cur.toNat)) := by
  induction chunks generalizing cur with
  | nil => simp [walkChunks, address, found_none]
  | cons c chunks ih =>
    simp only [List.map_cons, total_cons] at hfits
    have hnext := c.next_toNat (show cur.toNat + c.extent.size < 2 ^ 32 by omega)
    have hlt : ea < cur + (c.stop - c.start) ↔ ea.toNat - cur.toNat < c.extent.size := by
      rw [BitVec.lt_def, hnext]
      omega
    simp only [List.map_cons, List.cons_append, walkChunks, Chunk.toValues, c.stop_ne_zero,
      if_false, address, hlt]
    split_ifs with h
    · apply BitVec.eq_of_toNat_eq
      rw [found_some, BitVec.toNat_add, BitVec.toNat_sub_of_le (BitVec.le_def.mpr hcur),
        BitVec.toNat_ofNat, Nat.add_comm]
      rfl
    · have hrest := ih (cur + (c.stop - c.start)) (by omega) (by omega)
      rw [hnext] at hrest
      rw [Nat.sub_sub]
      exact hrest

theorem selectRegion_walkChunks (ea : U32) (regions : List Region) :
    (match selectRegion ea (regions.map Region.toMapping ++ [⟨0, 0, none⟩]) with
      | none => 0
      | some (curMemValues, curOffset) => walkChunks ea curOffset curMemValues) =
      found (forward (regions.map Region.window) ea.toNat) := by
  induction regions with
  | nil => rfl
  | cons r regions ih =>
    have hwindow := r.window_contains_iff ea
    simp only [List.map_cons, List.cons_append, selectRegion, Region.toMapping, forward]
    by_cases h : r.effectiveStart ≤ ea ∧ ea < r.effectiveEnd
    · have hlength := r.length_eq
      have hend := r.effectiveEnd.isLt
      rw [if_pos (hwindow.mpr h), if_pos h]
      exact walkChunks_eq ea r.effectiveStart r.chunks (BitVec.le_def.mp h.1) (by omega)
    · rw [if_neg (fun hw => h (hwindow.mp hw)), if_neg h]
      exact ih

theorem effectiveToPhysical_eq (T : MappingTable) (ea : U32) :
    effectiveToPhysical T.toArray ea = found (forward (windows T) ea.toNat) := by
  have hbat := batWindow_contains_iff ea
  rw [effectiveToPhysical, windows, forward]
  by_cases h : 0x00800000 ≤ ea ∧ ea < 0x01000000
  · rw [if_pos h, if_pos (hbat.mpr h)]
    simp only [BitVec.le_def, BitVec.lt_def, BitVec.reduceToNat] at h
    have inside : ea.toNat - 0x00800000 < 0x00800000 := by omega
    simp only [batWindow, address, inside, if_true, found_some, BitVec.reduceSub]
    apply BitVec.eq_of_toNat_eq
    rw [BitVec.toNat_add, BitVec.toNat_ofNat, BitVec.toNat_ofNat]
    omega
  · rw [if_neg h, if_neg fun hw => h (hbat.mp hw)]
    exact selectRegion_walkChunks ea T.regions

theorem searchChunks_eq (pa start off : U32) (chunks : List Chunk) :
    searchChunks pa start off (chunks.map Chunk.toValues ++ [⟨0, 0⟩]) =
      (offset (chunks.map Chunk.extent) pa.toNat).map
        fun o => BitVec.ofNat 32 o + (start + off) := by
  induction chunks generalizing off with
  | nil => simp [searchChunks, offset]
  | cons c chunks ih =>
    simp only [List.map_cons, List.cons_append, searchChunks, Chunk.toValues, c.stop_ne_zero,
      if_false, offset]
    by_cases h : c.start ≤ pa ∧ pa < c.stop
    · have hdiff : pa - c.start = BitVec.ofNat 32 (pa.toNat - c.extent.base) := by
        apply BitVec.eq_of_toNat_eq
        rw [BitVec.toNat_sub_of_le h.1, BitVec.toNat_ofNat]
        exact (Nat.mod_eq_of_lt (by omega)).symm
      rw [if_pos ((c.extent_contains_iff pa).mpr h), if_pos h, hdiff]
      rfl
    · have hsize : c.stop - c.start = BitVec.ofNat 32 c.extent.size := by
        rw [← c.size_toNat, BitVec.ofNat_toNat, BitVec.setWidth_eq]
      have hsum (o : ℕ) : BitVec.ofNat 32 o + (start + (off + BitVec.ofNat 32 c.extent.size)) =
          BitVec.ofNat 32 (c.extent.size + o) + (start + off) := by
        rw [BitVec.ofNat_add]
        ac_rfl
      rw [if_neg (fun hw => h ((c.extent_contains_iff pa).mp hw)), if_neg h, hsize, ih,
        Option.map_map]
      simp only [Function.comp_def, hsum]

theorem searchRegions_eq (pa : U32) (regions : List Region) :
    searchRegions pa (regions.map Region.toMapping ++ [⟨0, 0, none⟩]) =
      found (backward (regions.map Region.window) pa.toNat) := by
  induction regions with
  | nil => rfl
  | cons r regions ih =>
    have hchunks := searchChunks_eq pa r.effectiveStart 0 r.chunks
    simp only [List.map_cons, List.cons_append, searchRegions, Region.toMapping, backward,
      hchunks]
    change _ = found (match offset (r.chunks.map Chunk.extent) pa.toNat with
      | some o => some (r.effectiveStart.toNat + o)
      | none => backward (regions.map Region.window) pa.toNat)
    cases offset (r.chunks.map Chunk.extent) pa.toNat with
    | none => exact ih
    | some o => simp [BitVec.ofNat_add, BitVec.add_comm]

theorem physicalToEffective_eq (T : MappingTable) (pa : U32) :
    physicalToEffective T.toArray pa = found (backward (windows T) pa.toNat) := by
  rw [physicalToEffective, windows, backward, batWindow, offset, offset]
  by_cases h : 0x30800000 ≤ pa ∧ pa < 0x31000000
  · rw [if_pos h]
    simp only [BitVec.le_def, BitVec.lt_def, BitVec.reduceToNat] at h
    rw [if_pos (by simp only [Extent.Contains]; omega)]
    apply BitVec.eq_of_toNat_eq
    simp only [found_some, BitVec.reduceSub]
    rw [BitVec.toNat_sub_of_le (by simp only [BitVec.le_def, BitVec.reduceToNat]; omega),
      BitVec.toNat_ofNat, BitVec.toNat_ofNat]
    omega
  · rw [if_neg h]
    simp only [BitVec.le_def, BitVec.lt_def, BitVec.reduceToNat] at h
    rw [if_neg (by simp only [Extent.Contains]; omega)]
    exact searchRegions_eq pa T.regions

section Domains

def Maps (T : MappingTable) (ea : U32) : Prop :=
  InBatWindow ea ∨ ∃ r ∈ T.regions, r.Contains ea

def Backs (T : MappingTable) (pa : U32) : Prop :=
  InPhysicalBatWindow pa ∨ ∃ c ∈ T.chunks, c.Contains pa

variable (T : MappingTable)

theorem forward_isSome_iff_maps (ea : U32) :
    (forward (windows T) ea.toNat).isSome ↔ Maps T ea := by
  rw [forward_isSome_iff, windows, Maps, ← batWindow_contains_iff]
  simp [Region.window_contains_iff]

theorem batExtent_contains_iff (pa : U32) :
    Extent.Contains ⟨0x30800000, 0x00800000⟩ pa.toNat ↔ InPhysicalBatWindow pa := by
  simp [Extent.Contains, InPhysicalBatWindow, BitVec.le_def, BitVec.lt_def]

theorem windows_extents :
    (windows T).flatMap Window.extents = ⟨0x30800000, 0x00800000⟩ :: T.chunks.map Chunk.extent := by
  simp [windows, batWindow, MappingTable.chunks, List.flatMap_map, List.map_flatMap, Region.window]

theorem backward_isSome_iff_backs (pa : U32) :
    (backward (windows T) pa.toNat).isSome ↔ Backs T pa := by
  rw [backward_isSome_iff, windows_extents, Backs, ← batExtent_contains_iff]
  simp [Chunk.extent_contains_iff]

theorem windows_disjoint : DisjointWindows (windows T) := by
  refine List.pairwise_cons.mpr ⟨?_, ?_⟩
  · rintro v hv a ⟨hbat, ha⟩
    obtain ⟨r, hr, rfl⟩ := List.mem_map.mp hv
    refine T.avoids_bat r hr (BitVec.ofNat 32 a) (r.contains_ofNat ha) ?_
    rw [← batWindow_contains_iff, BitVec.toNat_ofNat, Nat.mod_eq_of_lt (r.window_contains_lt ha)]
    exact hbat
  · refine List.pairwise_map.mpr (T.regions_disjoint.imp ?_)
    rintro r s hrs a ⟨hr, hs⟩
    exact hrs (BitVec.ofNat 32 a) ⟨r.contains_ofNat hr, s.contains_ofNat hs⟩

theorem forward_backed {ea p : ℕ} (h : forward (windows T) ea = some p) :
    Extent.Contains ⟨0x30800000, 0x00800000⟩ p ∨ ∃ c ∈ T.chunks, c.extent.Contains p := by
  obtain ⟨v, hv, _, haddress⟩ := forward_eq_some h
  obtain ⟨x, hx, hp⟩ := address_contains haddress
  have hmem : x ∈ (windows T).flatMap Window.extents := List.mem_flatMap.mpr ⟨v, hv, hx⟩
  rw [windows_extents] at hmem
  rcases List.mem_cons.mp hmem with rfl | hmem
  · exact .inl hp
  · obtain ⟨c, hc, rfl⟩ := List.mem_map.mp hmem
    exact .inr ⟨c, hc, hp⟩

theorem forward_lt {ea p : ℕ} (h : forward (windows T) ea = some p) : p < 2 ^ 32 := by
  rcases forward_backed T h with hp | ⟨c, _, hp⟩
  · simp only [Extent.Contains] at hp
    omega
  · exact c.extent_contains_lt hp

theorem backward_lt {p a : ℕ} (h : backward (windows T) p = some a) : a < 2 ^ 32 := by
  obtain ⟨v, hv, ha, _⟩ := backward_eq_some h
  rcases List.mem_cons.mp hv with rfl | hv
  · exact batWindow_contains_lt ha
  · obtain ⟨r, _, rfl⟩ := List.mem_map.mp hv
    exact r.window_contains_lt ha

end Domains

section RoundTrip

variable {T : MappingTable} (hT : T.PhysicallyDisjoint)

include hT

theorem extents_disjoint : DisjointExtents ((windows T).flatMap Window.extents) := by
  rw [windows_extents]
  refine List.pairwise_cons.mpr ⟨?_, ?_⟩
  · rintro x hx p ⟨hbat, hp⟩
    obtain ⟨c, hc, rfl⟩ := List.mem_map.mp hx
    refine hT.avoids_bat c hc (BitVec.ofNat 32 p) (c.contains_ofNat hp) ?_
    rw [← batExtent_contains_iff, BitVec.toNat_ofNat, Nat.mod_eq_of_lt (c.extent_contains_lt hp)]
    exact hbat
  · refine List.pairwise_map.mpr (hT.chunks_disjoint.imp ?_)
    rintro c d hcd p ⟨hc, hd⟩
    exact hcd (BitVec.ofNat 32 p) ⟨c.contains_ofNat hc, d.contains_ofNat hd⟩

/-- The layout a table with disjoint chunks denotes, BAT window included. -/
def layout : Layout where
  windows := windows T
  windows_disjoint := windows_disjoint T
  extents_disjoint := extents_disjoint hT

omit hT in
theorem effectiveToPhysical_toNat {ea : U32} {p : ℕ} (h : forward (windows T) ea.toNat = some p) :
    (effectiveToPhysical T.toArray ea).toNat = p := by
  rw [effectiveToPhysical_eq, h, found_some, BitVec.toNat_ofNat, Nat.mod_eq_of_lt (forward_lt T h)]

omit hT in
theorem physicalToEffective_toNat {pa : U32} {a : ℕ} (h : backward (windows T) pa.toNat = some a) :
    (physicalToEffective T.toArray pa).toNat = a := by
  rw [physicalToEffective_eq, h, found_some, BitVec.toNat_ofNat, Nat.mod_eq_of_lt (backward_lt T h)]

theorem forward_ne_zero {ea p : ℕ} (h : forward (windows T) ea = some p) : p ≠ 0 := by
  rintro rfl
  rcases forward_backed T h with hp | ⟨c, hc, hp⟩
  · simp [Extent.Contains] at hp
  · exact hT.avoids_zero c hc ((c.extent_contains_iff 0).mp hp)

theorem effectiveToPhysical_ne_zero_iff (ea : U32) :
    effectiveToPhysical T.toArray ea ≠ 0 ↔ Maps T ea := by
  rw [← forward_isSome_iff_maps]
  cases h : forward (windows T) ea.toNat with
  | none => simp [effectiveToPhysical_eq, h, found_none]
  | some p =>
    simp only [Option.isSome_some, iff_true]
    intro hzero
    have hword := effectiveToPhysical_toNat h
    rw [hzero] at hword
    exact forward_ne_zero hT h hword.symm

theorem physicalToEffective_effectiveToPhysical {ea : U32} (h : Maps T ea) :
    physicalToEffective T.toArray (effectiveToPhysical T.toArray ea) = ea := by
  obtain ⟨p, hp⟩ := Option.isSome_iff_exists.mp ((forward_isSome_iff_maps T ea).mpr h)
  have hback : backward (windows T) p = some ea.toNat := ((layout hT).translation.inv _ _).mpr hp
  apply BitVec.eq_of_toNat_eq
  apply physicalToEffective_toNat
  rw [effectiveToPhysical_toNat hp, hback]

theorem effectiveToPhysical_physicalToEffective {pa : U32} (h : Backs T pa) :
    effectiveToPhysical T.toArray (physicalToEffective T.toArray pa) = pa := by
  obtain ⟨a, ha⟩ := Option.isSome_iff_exists.mp ((backward_isSome_iff_backs T pa).mpr h)
  have hforth : forward (windows T) a = some pa.toNat := ((layout hT).translation.inv _ _).mp ha
  apply BitVec.eq_of_toNat_eq
  apply effectiveToPhysical_toNat
  rw [physicalToEffective_toNat ha, hforth]

theorem physicalToEffective_ne_zero_iff (pa : U32) :
    physicalToEffective T.toArray pa ≠ 0 ↔
      Backs T pa ∧ pa ≠ effectiveToPhysical T.toArray 0 := by
  constructor
  · intro hne
    have hbacks : Backs T pa := by
      rw [← backward_isSome_iff_backs]
      cases h : backward (windows T) pa.toNat with
      | none => simp [physicalToEffective_eq, h, found_none] at hne
      | some a => rfl
    refine ⟨hbacks, fun heq => hne ?_⟩
    have hzero : effectiveToPhysical T.toArray 0 ≠ 0 := by
      rw [← heq]
      rintro rfl
      rcases hbacks with hbat | ⟨c, hc, hcontains⟩
      · simp [InPhysicalBatWindow, BitVec.le_def] at hbat
      · exact hT.avoids_zero c hc hcontains
    rw [heq]
    exact physicalToEffective_effectiveToPhysical hT
      ((effectiveToPhysical_ne_zero_iff hT 0).mp hzero)
  · rintro ⟨hbacks, hne⟩ hzero
    have hround := effectiveToPhysical_physicalToEffective hT hbacks
    rw [hzero] at hround
    exact hne hround.symm

/-- The two directions are inverse to each other on every address they translate. The one
backed address that translates back to 0 is the backing of effective address 0, if a region
holds that address. -/
theorem translation_round_trip :
    (∀ ea, (effectiveToPhysical T.toArray ea ≠ 0 ↔ Maps T ea) ∧
      (Maps T ea → physicalToEffective T.toArray (effectiveToPhysical T.toArray ea) = ea)) ∧
    ∀ pa, (physicalToEffective T.toArray pa ≠ 0 ↔
        Backs T pa ∧ pa ≠ effectiveToPhysical T.toArray 0) ∧
      (Backs T pa → effectiveToPhysical T.toArray (physicalToEffective T.toArray pa) = pa) :=
  ⟨fun ea => ⟨effectiveToPhysical_ne_zero_iff hT ea, physicalToEffective_effectiveToPhysical hT⟩,
    fun pa => ⟨physicalToEffective_ne_zero_iff hT pa, effectiveToPhysical_physicalToEffective hT⟩⟩

end RoundTrip

theorem shipped_round_trip :
    (∀ ea, (effectiveToPhysical memMapping ea ≠ 0 ↔ Maps shippedTable ea) ∧
      (Maps shippedTable ea →
        physicalToEffective memMapping (effectiveToPhysical memMapping ea) = ea)) ∧
    ∀ pa, (physicalToEffective memMapping pa ≠ 0 ↔
        Backs shippedTable pa ∧ pa ≠ effectiveToPhysical memMapping 0) ∧
      (Backs shippedTable pa →
        effectiveToPhysical memMapping (physicalToEffective memMapping pa) = pa) := by
  rw [← shippedTable_toArray]
  exact translation_round_trip shippedTable_physicallyDisjoint

def zeroBasedTable : MappingTable :=
  .single ⟨0, 0x20000, [⟨0x10000000, 0x10020000, by decide⟩], by decide⟩ (by decide)

theorem zeroBasedTable_physicallyDisjoint : zeroBasedTable.PhysicallyDisjoint where
  chunks_disjoint := List.pairwise_singleton _ _
  avoids_zero := by
    intro c hc
    obtain rfl := List.mem_singleton.mp hc
    simp [Chunk.Contains, BitVec.le_def]
  avoids_bat := by
    intro c hc pa hpa hbat
    obtain rfl := List.mem_singleton.mp hc
    simp only [Chunk.Contains, InPhysicalBatWindow, BitVec.le_def, BitVec.lt_def,
      BitVec.reduceToNat] at hpa hbat
    omega

/-- The first physical address of that region is backed, and translates to 0. -/
theorem zeroBased_backed_translates_to_zero :
    zeroBasedTable.PhysicallyDisjoint ∧ Backs zeroBasedTable 0x10000000 ∧
      physicalToEffective zeroBasedTable.toArray 0x10000000 = 0 := by
  refine ⟨zeroBasedTable_physicallyDisjoint, Or.inr ⟨_, List.mem_singleton.mpr rfl, ?_⟩, by decide⟩
  simp [Chunk.Contains, BitVec.lt_def]

end MemoryMappingModule.AddressTranslation
