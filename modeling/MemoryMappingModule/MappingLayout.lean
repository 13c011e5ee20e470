import MemoryMappingModule.ExtentTranslation

/-! The mapping tables of the module: chunks of physical memory, the effective
regions they back, and the shipped table. A table is a C array closed by an
entry without chunks, a chunk list a C array closed by a zero entry; the raw
arrays keep their closing entries, and `MappingTable` holds what the module
expects of the entries before them. -/

namespace MemoryMappingModule.MappingLayout

open ExtentTranslation

abbrev U32 := BitVec 32

/-- `memory_values_t` -/
structure MemoryValues where
  startAddress : U32
  endAddress : U32
deriving DecidableEq, Repr

/-- `memory_mapping_t`; no chunk array stands for the null pointer -/
structure MemoryMapping where
  effectiveStartAddress : U32
  effectiveEndAddress : U32
  physicalAddresses : Option (List MemoryValues)
deriving DecidableEq, Repr

def segmentUniqueId : U32 := 0x00AABBCC
def pageIndexShift : ℕ := 32 - 15
def pageIndexMask : U32 := (1 <<< (28 - pageIndexShift)) - 1

def memoryStartBase : U32 := 0x80000000
def memoryStartVideoBase : U32 := memoryStartBase + 0x08000000

def memValsHeap1 : List MemoryValues :=
  [⟨0x28000000 + 0x06620000 + 0x2A0000, 0x28000000 + 0x07F80000⟩, ⟨0, 0⟩]

def memoryHeap0Size : U32 := 0x16C0000
def memoryHeap0 : U32 := memoryStartBase

def memValsHeap2 : List MemoryValues :=
  [⟨0x28000000 + 0x09000000, 0x28000000 + 0x09E20000⟩, ⟨0, 0⟩]

def memoryHeap1Size : U32 := 0xE20000
def memoryHeap1 : U32 := memoryHeap0 + memoryHeap0Size

def memValsHeap3 : List MemoryValues :=
  [⟨0x28000000 + 0x058E0000, 0x28000000 + 0x06000000⟩, ⟨0, 0⟩]

def memoryHeap2Size : U32 := 0x720000
def memoryHeap2 : U32 := memoryHeap1 + memoryHeap1Size

def memValsHeap4 : List MemoryValues :=
  [⟨0x28000000 + 0x053C0000, 0x28000000 + 0x05880000⟩, ⟨0, 0⟩]

def memoryHeap3Size : U32 := 0x4C0000
def memoryHeap3 : U32 := memoryHeap2 + memoryHeap2Size

def memoryHeap4 : U32 := memoryHeap3 + memoryHeap3Size

def memValsVideo : List MemoryValues :=
  [⟨0x1A020000, 0x1A020000 + 0xE60000⟩, ⟨0, 0⟩]

def memoryStartVideo : U32 := memoryStartVideoBase
def memoryEndVideo : U32 := memoryStartVideo + 0xE60000

/-- `mem_mapping` -/
def memMapping : List MemoryMapping :=
  [⟨memoryHeap0, memoryHeap1, some memValsHeap1⟩,
    ⟨memoryHeap1, memoryHeap2, some memValsHeap2⟩,
    ⟨memoryHeap2, memoryHeap3, some memValsHeap3⟩,
    ⟨memoryHeap3, memoryHeap4, some memValsHeap4⟩,
    ⟨memoryStartVideo, memoryEndVideo, some memValsVideo⟩,
    ⟨0, 0, none⟩]

structure Chunk where
  start : U32
  stop : U32
  start_lt_stop : start < stop

namespace Chunk

def toValues (c : Chunk) : MemoryValues := ⟨c.start, c.stop⟩

def Contains (c : Chunk) (pa : U32) : Prop := c.start ≤ pa ∧ pa < c.stop

def extent (c : Chunk) : Extent := ⟨c.start.toNat, c.stop.toNat - c.start.toNat⟩

theorem lt_toNat (c : Chunk) : c.start.toNat < c.stop.toNat := BitVec.lt_def.mp c.start_lt_stop

theorem stop_ne_zero (c : Chunk) : c.stop ≠ 0 := by
  have h := c.lt_toNat
  intro hzero
  rw [hzero] at h
  simp at h

theorem size_toNat (c : Chunk) : (c.stop - c.start).toNat = c.extent.size :=
  BitVec.toNat_sub_of_le (BitVec.le_def.mpr c.lt_toNat.le)

theorem next_toNat (c : Chunk) {cur : U32} (hfits : cur.toNat + c.extent.size < 2 ^ 32) :
    (cur + (c.stop - c.start)).toNat = cur.toNat + c.extent.size := by
  have hsize := c.size_toNat
  rw [BitVec.toNat_add_of_lt (by omega), hsize]

theorem extent_contains_iff (c : Chunk) (pa : U32) :
    c.extent.Contains pa.toNat ↔ c.Contains pa := by
  have h := c.lt_toNat
  simp only [extent, Extent.Contains, Contains, BitVec.le_def, BitVec.lt_def]
  omega

theorem extent_contains_lt (c : Chunk) {p : ℕ} (hp : c.extent.Contains p) : p < 2 ^ 32 := by
  have hstop := c.stop.isLt
  have hlt := c.lt_toNat
  simp only [Extent.Contains, extent] at hp
  omega

theorem contains_ofNat (c : Chunk) {p : ℕ} (hp : c.extent.Contains p) :
    c.Contains (BitVec.ofNat 32 p) := by
  rw [← extent_contains_iff, BitVec.toNat_ofNat, Nat.mod_eq_of_lt (c.extent_contains_lt hp)]
  exact hp

end Chunk

/-- A run of effective addresses exactly as long as the chunks that back it. -/
structure Region where
  effectiveStart : U32
  effectiveEnd : U32
  chunks : List Chunk
  length_eq : effectiveStart.toNat + total (chunks.map Chunk.extent) = effectiveEnd.toNat

namespace Region

def toMapping (r : Region) : MemoryMapping :=
  ⟨r.effectiveStart, r.effectiveEnd, some (r.chunks.map Chunk.toValues ++ [⟨0, 0⟩])⟩

def Contains (r : Region) (ea : U32) : Prop := r.effectiveStart ≤ ea ∧ ea < r.effectiveEnd

def window (r : Region) : Window := ⟨r.effectiveStart.toNat, r.chunks.map Chunk.extent⟩

theorem window_contains_iff (r : Region) (ea : U32) :
    r.window.Contains ea.toNat ↔ r.Contains ea := by
  have h := r.length_eq
  simp only [window, Window.Contains, Contains, BitVec.le_def, BitVec.lt_def]
  omega

theorem window_contains_lt (r : Region) {a : ℕ} (ha : r.window.Contains a) : a < 2 ^ 32 := by
  have hend := r.effectiveEnd.isLt
  have hlength := r.length_eq
  simp only [Window.Contains, window] at ha
  omega

theorem contains_ofNat (r : Region) {a : ℕ} (ha : r.window.Contains a) :
    r.Contains (BitVec.ofNat 32 a) := by
  rw [← window_contains_iff, BitVec.toNat_ofNat, Nat.mod_eq_of_lt (r.window_contains_lt ha)]
  exact ha

end Region

/-- The addresses 0x00800000..0x01000000, which the block address registers map to
0x30800000..0x31000000 and no region may use. -/
def InBatWindow (ea : U32) : Prop := 0x00800000 ≤ ea ∧ ea < 0x01000000

def InPhysicalBatWindow (pa : U32) : Prop := 0x30800000 ≤ pa ∧ pa < 0x31000000

instance (ea : U32) : Decidable (InBatWindow ea) := inferInstanceAs (Decidable (_ ∧ _))

instance (pa : U32) : Decidable (InPhysicalBatWindow pa) := inferInstanceAs (Decidable (_ ∧ _))

/-- The entries of a mapping table before its closing one. -/
structure MappingTable where
  regions : List Region
  regions_disjoint : regions.Pairwise fun r s => ∀ ea, ¬ (r.Contains ea ∧ s.Contains ea)
  avoids_bat : ∀ r ∈ regions, ∀ ea, r.Contains ea → ¬ InBatWindow ea

namespace MappingTable

def toArray (T : MappingTable) : List MemoryMapping :=
  T.regions.map Region.toMapping ++ [⟨0, 0, none⟩]

def chunks (T : MappingTable) : List Chunk := T.regions.flatMap Region.chunks

/-- No two chunks share a physical address, and none holds address 0 or one of the
BAT window. -/
structure PhysicallyDisjoint (T : MappingTable) : Prop where
  chunks_disjoint : T.chunks.Pairwise fun c d => ∀ pa, ¬ (c.Contains pa ∧ d.Contains pa)
  avoids_zero : ∀ c ∈ T.chunks, ¬ c.Contains 0
  avoids_bat : ∀ c ∈ T.chunks, ∀ pa, c.Contains pa → ¬ InPhysicalBatWindow pa

end MappingTable

theorem Region.not_inBatWindow {r : Region}
    (h : r.effectiveEnd ≤ 0x00800000 ∨ 0x01000000 ≤ r.effectiveStart) {ea : U32}
    (hea : r.Contains ea) : ¬ InBatWindow ea := by
  simp only [Region.Contains, InBatWindow, BitVec.le_def, BitVec.lt_def] at h hea ⊢
  omega

def MappingTable.single (r : Region)
    (h : r.effectiveEnd ≤ 0x00800000 ∨ 0x01000000 ≤ r.effectiveStart) : MappingTable where
  regions := [r]
  regions_disjoint := List.pairwise_singleton _ _
  avoids_bat := fun _ hs _ hea => Region.not_inBatWindow ((List.mem_singleton.mp hs) ▸ h) hea

theorem Region.disjoint_of_le {r s : Region}
    (h : r.effectiveEnd ≤ s.effectiveStart ∨ s.effectiveEnd ≤ r.effectiveStart) (ea : U32) :
    ¬ (r.Contains ea ∧ s.Contains ea) := by
  simp only [Region.Contains, BitVec.le_def, BitVec.lt_def] at h ⊢
  omega

theorem Chunk.disjoint_of_le {c d : Chunk} (h : c.stop ≤ d.start ∨ d.stop ≤ c.start) (pa : U32) :
    ¬ (c.Contains pa ∧ d.Contains pa) := by
  simp only [Chunk.Contains, BitVec.le_def, BitVec.lt_def] at h ⊢
  omega

section Shipped

def heap1Region : Region :=
  ⟨memoryHeap0, memoryHeap1,
    [⟨0x28000000 + 0x06620000 + 0x2A0000, 0x28000000 + 0x07F80000, by decide⟩], by decide⟩

def heap2Region : Region :=
  ⟨memoryHeap1, memoryHeap2, [⟨0x28000000 + 0x09000000, 0x28000000 + 0x09E20000, by decide⟩],
    by decide⟩

def heap3Region : Region :=
  ⟨memoryHeap2, memoryHeap3, [⟨0x28000000 + 0x058E0000, 0x28000000 + 0x06000000, by decide⟩],
    by decide⟩

def heap4Region : Region :=
  ⟨memoryHeap3, memoryHeap4, [⟨0x28000000 + 0x053C0000, 0x28000000 + 0x05880000, by decide⟩],
    by decide⟩

def videoRegion : Region :=
  ⟨memoryStartVideo, memoryEndVideo, [⟨0x1A020000, 0x1A020000 + 0xE60000, by decide⟩], by decide⟩

def shippedTable : MappingTable where
  regions := [heap1Region, heap2Region, heap3Region, heap4Region, videoRegion]
  regions_disjoint := by
    have ordered : [heap1Region, heap2Region, heap3Region, heap4Region, videoRegion].Pairwise
        fun r s => r.effectiveEnd ≤ s.effectiveStart ∨ s.effectiveEnd ≤ r.effectiveStart := by
      decide
    exact ordered.imp fun h => Region.disjoint_of_le h
  avoids_bat := by
    have above : ∀ r ∈ [heap1Region, heap2Region, heap3Region, heap4Region, videoRegion],
        (0x01000000 : U32) ≤ r.effectiveStart := by
      decide
    exact fun r hr ea hea => Region.not_inBatWindow (Or.inr (above r hr)) hea

theorem shippedTable_toArray : shippedTable.toArray = memMapping := by decide

theorem shippedTable_physicallyDisjoint : shippedTable.PhysicallyDisjoint where
  chunks_disjoint := by
    have apart : shippedTable.chunks.Pairwise
        fun c d => c.stop ≤ d.start ∨ d.stop ≤ c.start := by
      decide
    exact apart.imp fun h => Chunk.disjoint_of_le h
  avoids_zero := by
    have above : ∀ c ∈ shippedTable.chunks, (0 : U32) < c.start := by decide
    intro c hc hzero
    have hstart := above c hc
    simp only [Chunk.Contains, BitVec.le_def, BitVec.lt_def] at hzero hstart
    omega
  avoids_bat := by
    have outside : ∀ c ∈ shippedTable.chunks,
        c.stop ≤ (0x30800000 : U32) ∨ (0x31000000 : U32) ≤ c.start := by
      decide
    intro c hc pa hpa hbat
    have hstart := outside c hc
    simp only [Chunk.Contains, InPhysicalBatWindow, BitVec.le_def, BitVec.lt_def]
      at hpa hbat hstart
    omega

end Shipped

end MemoryMappingModule.MappingLayout
