import MemoryMappingModule.AddressTranslation
import MemoryMappingModule.WordArithmetic

/-! Allocation from the heaps that live in the regions of `mem_mapping`. A heap's handle
is its region's start, and coreinit's heap functions are parameters over whatever state
they keep. The request is rounded up to the alignment in wrapping arithmetic and the
heaps are tried in order. -/

namespace MemoryMappingModule.HeapAllocation

open WordArithmetic ExtentTranslation MappingLayout AddressTranslation

structure Coreinit (σ : Type*) where
  allocFromExpHeapEx : σ → (heap size align : U32) → U32 × σ
  freeToExpHeap : σ → (heap block : U32) → σ
  getAllocatableSizeForExpHeapEx : σ → (heap align : U32) → U32
  findHeapContainingBlock : σ → (heap block : U32) → U32
  dataStart : σ → (heap : U32) → U32
  dataEnd : σ → (heap : U32) → U32

variable {σ : Type*} (C : Coreinit σ)

/-- The size that `MemoryMapping_allocEx` asks for; `align` is an `int32_t`. -/
def allocSize (size align : U32) : U32 :=
  if BitVec.slt 0 align then (size + align - 1) &&& ~~~(align - 1)
  else
    let alignAbs := -align
    (size + alignAbs - 1) &&& ~~~(alignAbs - 1)

/-- `MemoryMapping_allocEx` on the rest of the mapping array. -/
def allocEx : List MemoryMapping → σ → (size align : U32) → (videoOnly : Bool) → U32 × σ
  | [], s, _, _, _ => (0, s)
  | m :: rest, s, size, align, videoOnly =>
    match m.physicalAddresses with
    | none => (0, s)
    | some _ =>
      if videoOnly = true ∧
          (m.effectiveStartAddress < memoryStartVideo ∨
            memoryEndVideo < m.effectiveStartAddress) then
        allocEx rest s size align videoOnly
      else
        let r := C.allocFromExpHeapEx s m.effectiveStartAddress (allocSize size align) align
        if r.1 ≠ 0 then r else allocEx rest r.2 size align videoOnly

/-- `MemoryMapping_alloc` -/
def alloc (s : σ) (size align : U32) : U32 × σ := allocEx C memMapping s size align false

/-- `MemoryMapping_allocVideoMemory` -/
def allocVideoMemory (s : σ) (size align : U32) : U32 × σ := allocEx C memMapping s size align true

def allocatableSizeFrom (s : σ) (align : U32) : U32 → List MemoryMapping → U32
  | res, [] => res
  | res, m :: rest =>
    match m.physicalAddresses with
    | none => res
    | some _ =>
      let curRes := C.getAllocatableSizeForExpHeapEx s m.effectiveStartAddress align
      allocatableSizeFrom s align (if res < curRes then curRes else res) rest

/-- `MemoryMapping_MEMGetAllocatableSizeEx` -/
def memGetAllocatableSizeEx (s : σ) (align : U32) : U32 :=
  allocatableSizeFrom C s align 0 memMapping

def freeFrom (s : σ) (ptr : U32) : List MemoryMapping → σ
  | [] => s
  | m :: rest =>
    match m.physicalAddresses with
    | none => s
    | some _ =>
      if m.effectiveStartAddress < ptr ∧ ptr < m.effectiveEndAddress then
        C.freeToExpHeap s m.effectiveStartAddress ptr
      else freeFrom s ptr rest

/-- `MemoryMapping_free` -/
def free (s : σ) (ptr : U32) : σ := if ptr = 0 then s else freeFrom C s ptr memMapping

def findContainHeapFrom (s : σ) (block : U32) : List MemoryMapping → U32
  | [] => 0
  | m :: rest =>
    match m.physicalAddresses with
    | none => 0
    | some _ =>
      let heap := m.effectiveStartAddress
      if C.dataStart s heap ≤ block ∧ block < C.dataEnd s heap then
        let child := C.findHeapContainingBlock s heap block
        if child ≠ 0 then child else heap
      else findContainHeapFrom s block rest

/-- `MemoryMapping_MEMFindContainHeap` -/
def memFindContainHeap (s : σ) (block : U32) : U32 := findContainHeapFrom C s block memMapping

section Rounding

def alignAbs (align : U32) : U32 := if BitVec.slt 0 align then align else -align

theorem allocSize_eq_alignUp (size align : U32) :
    allocSize size align = alignUp size (alignAbs align) := by
  rw [allocSize, alignAbs]
  split_ifs <;> rfl

theorem alignAbs_toNat (align : U32) : (alignAbs align).toNat = align.toInt.natAbs := by
  have hlt := align.isLt
  have hsign : BitVec.slt 0 align = true ↔ 0 < align.toInt := by
    rw [BitVec.slt_iff_toInt_lt]
    change (0#32).toInt < align.toInt ↔ _
    rw [BitVec.toInt_zero]
  have hvalue := BitVec.toInt_eq_toNat_cond align
  rw [alignAbs]
  split_ifs with hpos
  · rw [hsign] at hpos
    split_ifs at hvalue <;> omega
  · rw [hsign] at hpos
    rw [BitVec.toNat_neg]
    split_ifs at hvalue <;> omega

end Rounding

section Success

variable {C} {s : σ} {size align : U32} {videoOnly : Bool}

theorem allocEx_success {regions : List Region}
    (h : (allocEx C (regions.map Region.toMapping ++ [⟨0, 0, none⟩]) s size align
      videoOnly).1 ≠ 0) :
    ∃ r ∈ regions,
      (videoOnly = true → memoryStartVideo ≤ r.effectiveStart ∧ r.effectiveStart ≤ memoryEndVideo) ∧
      ∃ s₁, C.allocFromExpHeapEx s₁ r.effectiveStart (allocSize size align) align =
        allocEx C (regions.map Region.toMapping ++ [⟨0, 0, none⟩]) s size align videoOnly := by
  induction regions generalizing s with
  | nil => exact absurd rfl h
  | cons r regions ih =>
    simp only [List.map_cons, List.cons_append, allocEx, Region.toMapping] at h ⊢
    split_ifs at h ⊢ with hskip hfound
    · obtain ⟨q, hq, hvideo, s₁, hs₁⟩ := ih h
      exact ⟨q, List.mem_cons_of_mem _ hq, hvideo, s₁, hs₁⟩
    · refine ⟨r, by simp, fun hv => ?_, s, rfl⟩
      have hinside : ¬ (r.effectiveStart < memoryStartVideo ∨ memoryEndVideo < r.effectiveStart) :=
        fun hout => hskip ⟨hv, hout⟩
      simp only [not_or, BitVec.not_lt] at hinside
      exact hinside
    · obtain ⟨q, hq, hvideo, s₁, hs₁⟩ := ih h
      exact ⟨q, List.mem_cons_of_mem _ hq, hvideo, s₁, hs₁⟩

theorem allocEx_shipped_success (h : (allocEx C memMapping s size align videoOnly).1 ≠ 0) :
    ∃ r ∈ shippedTable.regions,
      (videoOnly = true → memoryStartVideo ≤ r.effectiveStart ∧ r.effectiveStart ≤ memoryEndVideo) ∧
      ∃ s₁, C.allocFromExpHeapEx s₁ r.effectiveStart (allocSize size align) align =
        allocEx C memMapping s size align videoOnly := by
  rw [← shippedTable_toArray] at h ⊢
  exact allocEx_success h

end Success

section BlockSize

/-- Allocation from a heap fails or gives a block of at least the size asked for, inside
the heap's region. -/
structure AllocatesAtLeast (C : Coreinit σ) (blockSize : σ → U32 → ℕ) : Prop where
  at_least : ∀ r ∈ shippedTable.regions, ∀ s n a,
    (C.allocFromExpHeapEx s r.effectiveStart n a).1 ≠ 0 →
      n.toNat ≤ blockSize (C.allocFromExpHeapEx s r.effectiveStart n a).2
        (C.allocFromExpHeapEx s r.effectiveStart n a).1
  inside : ∀ r ∈ shippedTable.regions, ∀ s n a,
    (C.allocFromExpHeapEx s r.effectiveStart n a).1 ≠ 0 →
      ∀ k < blockSize (C.allocFromExpHeapEx s r.effectiveStart n a).2
          (C.allocFromExpHeapEx s r.effectiveStart n a).1,
        r.effectiveStart.toNat ≤ (C.allocFromExpHeapEx s r.effectiveStart n a).1.toNat + k ∧
          (C.allocFromExpHeapEx s r.effectiveStart n a).1.toNat + k < r.effectiveEnd.toNat

variable {size align : U32} {k : ℕ}

theorem size_le_allocSize_iff (halign : align.toInt.natAbs = 2 ^ k) :
    size ≤ allocSize size align ↔ size.toNat + align.toInt.natAbs - 1 < 2 ^ 32 := by
  have hpos : 1 ≤ 2 ^ k := Nat.one_le_two_pow
  rw [allocSize_eq_alignUp, le_alignUp_iff size ((alignAbs_toNat align).trans halign), halign,
    Nat.add_sub_assoc hpos]

def tinyCoreinit : Coreinit Unit where
  allocFromExpHeapEx := fun s heap size _ => (if size.toNat ≤ 4 then heap + 0x40 else 0, s)
  freeToExpHeap := fun s _ _ => s
  getAllocatableSizeForExpHeapEx := fun _ _ _ => 4
  findHeapContainingBlock := fun _ _ _ => 0
  dataStart := fun _ heap => heap + 0x40
  dataEnd := fun _ heap => heap + 0x44

theorem tinyCoreinit_allocatesAtLeast : AllocatesAtLeast tinyCoreinit fun _ _ => 4 where
  at_least := by
    intro r _ s n a h
    by_contra hlarge
    exact h (if_neg hlarge)
  inside := by
    have room : ∀ r ∈ shippedTable.regions,
        (r.effectiveStart + 0x40).toNat = r.effectiveStart.toNat + 0x40 ∧
          r.effectiveStart.toNat + 0x44 ≤ r.effectiveEnd.toNat := by
      decide
    intro r hr s n a h k hk
    have hsmall : n.toNat ≤ 4 := by
      by_contra hlarge
      exact h (if_neg hlarge)
    obtain ⟨hstart, hend⟩ := room r hr
    change _ ≤ (if n.toNat ≤ 4 then r.effectiveStart + 0x40 else 0).toNat + k ∧
      (if n.toNat ≤ 4 then r.effectiveStart + 0x40 else 0).toNat + k < _
    rw [if_pos hsmall, hstart]
    omega

theorem tinyCoreinit_serves (hsize : allocSize size align = 0) (videoOnly : Bool) :
    (allocEx tinyCoreinit memMapping () size align videoOnly).1 ≠ 0 := by
  have hserved (heap : U32) : tinyCoreinit.allocFromExpHeapEx () heap (allocSize size align) align =
      (heap + 0x40, ()) := by
    rw [hsize]
    rfl
  simp only [memMapping, allocEx, hserved]
  revert videoOnly
  decide

/-- Blocks are at least as large as asked for exactly while rounding up does not wrap. -/
theorem allocEx_block_large_enough_iff (halign : align.toInt.natAbs = 2 ^ k) (videoOnly : Bool) :
    (∀ (σ : Type) (C : Coreinit σ) (blockSize : σ → U32 → ℕ), AllocatesAtLeast C blockSize →
        ∀ s, (allocEx C memMapping s size align videoOnly).1 ≠ 0 →
          size.toNat ≤ blockSize (allocEx C memMapping s size align videoOnly).2
            (allocEx C memMapping s size align videoOnly).1) ↔
      size.toNat + align.toInt.natAbs - 1 < 2 ^ 32 := by
  rw [← size_le_allocSize_iff halign]
  constructor
  · intro hlarge
    by_contra hsmall
    have wraps : 2 ^ 32 ≤ size.toNat + (2 ^ k - 1) := by
      rw [size_le_allocSize_iff halign, halign] at hsmall
      omega
    have hzero : allocSize size align = 0 := by
      rw [allocSize_eq_alignUp]
      exact alignUp_of_wraps size ((alignAbs_toNat align).trans halign) wraps
    have hfour := hlarge Unit tinyCoreinit _ tinyCoreinit_allocatesAtLeast ()
      (tinyCoreinit_serves hzero videoOnly)
    have hlt := (alignAbs align).isLt
    rw [alignAbs_toNat, halign] at hlt
    have hk : 2 ^ k ≤ 2 ^ 31 :=
      Nat.pow_le_pow_right (by decide)
        (by have := (Nat.pow_lt_pow_iff_right (by decide)).mp hlt; omega)
    omega
  · intro hle σ C blockSize hC s h
    obtain ⟨r, hr, _, s₁, hs₁⟩ := allocEx_shipped_success h
    have hblock := hC.at_least r hr s₁ (allocSize size align) align
    rw [hs₁] at hblock
    exact (BitVec.le_def.mp hle).trans (hblock h)

theorem smallRequest_block_large_enough :
    (∀ (σ : Type) (C : Coreinit σ) (blockSize : σ → U32 → ℕ), AllocatesAtLeast C blockSize →
        ∀ s, (allocEx C memMapping s 0x100 (-64) true).1 ≠ 0 →
          (0x100 : U32).toNat ≤ blockSize (allocEx C memMapping s 0x100 (-64) true).2
            (allocEx C memMapping s 0x100 (-64) true).1) ↔
      (0x100 : U32).toNat + (-64 : U32).toInt.natAbs - 1 < 2 ^ 32 :=
  allocEx_block_large_enough_iff (k := 6) (by decide) true

/-- A request for all but one byte of the address space is rounded to size 0 and answered
with a block of four bytes. -/
theorem hugeRequest_gets_tiny_block :
    allocSize 0xFFFFFFFF 4 = 0 ∧ AllocatesAtLeast tinyCoreinit (fun _ _ => 4) ∧
      (allocEx tinyCoreinit memMapping () 0xFFFFFFFF 4 false).1 ≠ 0 ∧
      4 < (0xFFFFFFFF : U32).toNat :=
  ⟨by decide, tinyCoreinit_allocatesAtLeast, tinyCoreinit_serves (by decide) false, by decide⟩

end BlockSize

section Contiguity

/-- Allocation from a heap fails or gives a block of the size asked for inside the heap's region. -/
def AllocatesInside (C : Coreinit σ) : Prop :=
  ∀ r ∈ shippedTable.regions, ∀ s n a, (C.allocFromExpHeapEx s r.effectiveStart n a).1 ≠ 0 →
    ∀ j < n.toNat,
      r.effectiveStart.toNat ≤ (C.allocFromExpHeapEx s r.effectiveStart n a).1.toNat + j ∧
        (C.allocFromExpHeapEx s r.effectiveStart n a).1.toNat + j < r.effectiveEnd.toNat

theorem effectiveToPhysical_of_single {T : MappingTable} {r : Region} {c : Chunk}
    (hr : r ∈ T.regions) (hc : r.chunks = [c]) {ea : U32} (hea : r.Contains ea) :
    (effectiveToPhysical T.toArray ea).toNat =
      c.start.toNat + (ea.toNat - r.effectiveStart.toNat) := by
  have hwindow := (Region.window_contains_iff r ea).mpr hea
  have hforward := forward_of_contains (windows_disjoint T)
    (List.mem_cons_of_mem _ (List.mem_map_of_mem hr)) hwindow
  apply effectiveToPhysical_toNat
  rw [hforward]
  simp only [Region.window, hc, List.map_singleton, Window.Contains, total_cons, total_nil,
    address] at hwindow ⊢
  rw [if_pos (by omega)]
  rfl

section Backing

variable {r : Region} {p : U32} {n j : ℕ}
  (hbytes : ∀ j < n, r.effectiveStart.toNat ≤ p.toNat + j ∧ p.toNat + j < r.effectiveEnd.toNat)
  (hj : j < n)

include hbytes hj

theorem byte_toNat :
    (p + BitVec.ofNat 32 j).toNat = p.toNat + j := by
  have hbyte := hbytes j hj
  have hend := r.effectiveEnd.isLt
  rw [BitVec.toNat_add, BitVec.toNat_ofNat]
  omega

theorem byte_contained : r.Contains (p + BitVec.ofNat 32 j) := by
  rw [Region.Contains, BitVec.le_def, BitVec.lt_def, byte_toNat hbytes hj]
  exact hbytes j hj

theorem byte_physical (hr : r ∈ shippedTable.regions) {c : Chunk} (hc : r.chunks = [c]) :
    (effectiveToPhysical memMapping (p + BitVec.ofNat 32 j)).toNat =
      c.start.toNat + (p.toNat + j - r.effectiveStart.toNat) := by
  rw [← shippedTable_toArray, effectiveToPhysical_of_single hr hc (byte_contained hbytes hj),
    byte_toNat hbytes hj]

theorem block_contiguous (hr : r ∈ shippedTable.regions) {c : Chunk} (hc : r.chunks = [c]) :
    effectiveToPhysical memMapping (p + BitVec.ofNat 32 j) =
        effectiveToPhysical memMapping p + BitVec.ofNat 32 j ∧
      effectiveToPhysical memMapping (p + BitVec.ofNat 32 j) ≠ 0 := by
  have hphysical := byte_physical hbytes hj hr hc
  have hbase := byte_physical hbytes (show 0 < n by omega) hr hc
  have hstart := hbytes 0 (by omega)
  have hlt := (effectiveToPhysical memMapping (p + BitVec.ofNat 32 j)).isLt
  rw [show p + BitVec.ofNat 32 0 = p from BitVec.add_zero p] at hbase
  refine ⟨?_, ?_⟩
  · apply BitVec.eq_of_toNat_eq
    rw [BitVec.toNat_add, hbase, BitVec.toNat_ofNat]
    omega
  · rw [← shippedTable_toArray, effectiveToPhysical_ne_zero_iff shippedTable_physicallyDisjoint]
    exact Or.inr ⟨r, hr, byte_contained hbytes hj⟩

end Backing

/-- A block lies behind consecutive physical addresses, and a video block outside the area that
the GPU has no access to. -/
theorem allocEx_contiguous {C : Coreinit σ} (hC : AllocatesInside C) {size align : U32} {k : ℕ}
    (halign : align.toInt.natAbs = 2 ^ k) (fits : size.toNat + align.toInt.natAbs - 1 < 2 ^ 32)
    (s : σ) (videoOnly : Bool) {p : U32}
    (hp : (allocEx C memMapping s size align videoOnly).1 = p) (hne : p ≠ 0) :
    (∀ j < size.toNat,
      effectiveToPhysical memMapping (p + BitVec.ofNat 32 j) =
          effectiveToPhysical memMapping p + BitVec.ofNat 32 j ∧
        effectiveToPhysical memMapping (p + BitVec.ofNat 32 j) ≠ 0) ∧
      (videoOnly = true → ∀ j < (allocSize size align).toNat,
        ¬ ((0x28000000 : U32) ≤ effectiveToPhysical memMapping (p + BitVec.ofNat 32 j) ∧
          effectiveToPhysical memMapping (p + BitVec.ofNat 32 j) ≤ (0x32000000 : U32))) := by
  have single : ∀ r ∈ shippedTable.regions, r.chunks.length = 1 := by decide
  have video : ∀ r ∈ shippedTable.regions,
      memoryStartVideo ≤ r.effectiveStart ∧ r.effectiveStart ≤ memoryEndVideo →
        ∀ c ∈ r.chunks, c.stop ≤ (0x28000000 : U32) := by
    decide
  subst hp
  obtain ⟨r, hr, hfilter, s₁, hs₁⟩ := allocEx_shipped_success hne
  obtain ⟨c, hc⟩ := List.length_eq_one_iff.mp (single r hr)
  have hlarge := BitVec.le_def.mp ((size_le_allocSize_iff halign).mpr fits)
  have hinside := hC r hr s₁ (allocSize size align) align
  rw [hs₁] at hinside
  have hbytes := hinside hne
  -- the block is at least as large as asked for, so its first `size` bytes are inside too
  refine ⟨fun j hj => block_contiguous hbytes (hj.trans_le hlarge) hr hc, fun hv j hj hgpu => ?_⟩
  have hphysical := byte_physical hbytes hj hr hc
  have hbyte := hbytes j hj
  have hbelow := BitVec.le_def.mp (video r hr (hfilter hv) c (by simp [hc]))
  have hlow := BitVec.le_def.mp hgpu.1
  have hlength := r.length_eq
  have hstop := c.lt_toNat
  rw [hc] at hlength
  simp only [List.map_singleton, total_cons, total_nil, Chunk.extent] at hlength
  rw [hphysical] at hlow
  omega

theorem tinyCoreinit_allocatesInside : AllocatesInside tinyCoreinit := by
  intro r hr s n a h j hj
  have hsmall := tinyCoreinit_allocatesAtLeast.at_least r hr s n a h
  exact tinyCoreinit_allocatesAtLeast.inside r hr s n a h j (by omega)

theorem tinyBlock_contiguous :
    (∀ j < (4 : U32).toNat,
      effectiveToPhysical memMapping (0x88000040 + BitVec.ofNat 32 j) =
          effectiveToPhysical memMapping 0x88000040 + BitVec.ofNat 32 j ∧
        effectiveToPhysical memMapping (0x88000040 + BitVec.ofNat 32 j) ≠ 0) ∧
      (true = true → ∀ j < (allocSize 4 4).toNat,
        ¬ ((0x28000000 : U32) ≤ effectiveToPhysical memMapping (0x88000040 + BitVec.ofNat 32 j) ∧
          effectiveToPhysical memMapping (0x88000040 + BitVec.ofNat 32 j) ≤ (0x32000000 : U32))) :=
  allocEx_contiguous (k := 2) tinyCoreinit_allocatesInside
    (show (4 : U32).toInt.natAbs = 2 ^ 2 by decide) (by decide) () true (by decide) (by decide)

end Contiguity

section Query

/-- What the size query reports is what can be allocated, and a failed allocation leaves the
reported sizes as they were. -/
structure ReportsAllocatable (C : Coreinit σ) : Prop where
  succeeds_iff : ∀ r ∈ shippedTable.regions, ∀ s n a k, 0 < n → k < 31 → a.toNat = 2 ^ k →
    ((C.allocFromExpHeapEx s r.effectiveStart n a).1 ≠ 0 ↔
      n ≤ C.getAllocatableSizeForExpHeapEx s r.effectiveStart a)
  failed_keeps : ∀ r ∈ shippedTable.regions, ∀ s n a,
    (C.allocFromExpHeapEx s r.effectiveStart n a).1 = 0 → ∀ heap a',
      C.getAllocatableSizeForExpHeapEx (C.allocFromExpHeapEx s r.effectiveStart n a).2 heap a' =
        C.getAllocatableSizeForExpHeapEx s heap a'

variable {C} {s : σ} {n align : U32} {k : ℕ}

theorem le_allocatableSizeFrom_iff (res : U32) (regions : List Region) :
    n ≤ allocatableSizeFrom C s align res (regions.map Region.toMapping ++ [⟨0, 0, none⟩]) ↔
      n ≤ res ∨ ∃ r ∈ regions, n ≤ C.getAllocatableSizeForExpHeapEx s r.effectiveStart align := by
  induction regions generalizing res with
  | nil => simp [allocatableSizeFrom]
  | cons r regions ih =>
    simp only [List.map_cons, List.cons_append, allocatableSizeFrom, Region.toMapping,
      List.exists_mem_cons_iff]
    have larger (x y : U32) : n ≤ (if x < y then y else x) ↔ n ≤ x ∨ n ≤ y := by
      split_ifs with h
      · simp only [BitVec.le_def, BitVec.lt_def] at h ⊢
        omega
      · simp only [BitVec.le_def, BitVec.lt_def] at h ⊢
        omega
    rw [ih, larger, or_assoc]

theorem allocEx_ne_zero_iff (hC : ReportsAllocatable C) (hk : k < 31) (halign : align.toNat = 2 ^ k)
    {size : U32} (hpos : 0 < allocSize size align) {regions : List Region}
    (hregions : ∀ r ∈ regions, r ∈ shippedTable.regions) :
    (allocEx C (regions.map Region.toMapping ++ [⟨0, 0, none⟩]) s size align false).1 ≠ 0 ↔
      ∃ r ∈ regions, allocSize size align ≤
        C.getAllocatableSizeForExpHeapEx s r.effectiveStart align := by
  induction regions generalizing s with
  | nil => simp [allocEx]
  | cons r regions ih =>
    have hr := hregions r (List.mem_cons_self ..)
    have hrest (s' : σ) := ih (s := s') fun q hq => hregions q (List.mem_cons_of_mem _ hq)
    have hserved := hC.succeeds_iff r hr s _ align k hpos hk halign
    simp only [List.map_cons, List.cons_append, allocEx, Region.toMapping, Bool.false_eq_true,
      false_and, if_false, List.exists_mem_cons_iff]
    rw [← hserved]
    split_ifs with hfound
    · exact iff_of_true hfound (Or.inl hfound)
    · have hfailed := not_not.mp hfound
      simp only [hrest, hC.failed_keeps r hr _ _ _ hfailed, hfound, false_or]

theorem allocEx_ne_zero_iff_le_query (hC : ReportsAllocatable C) (hk : k < 31)
    (halign : align.toNat = 2 ^ k) {size : U32} (hpos : 0 < allocSize size align) :
    (allocEx C memMapping s size align false).1 ≠ 0 ↔
      allocSize size align ≤ memGetAllocatableSizeEx C s align := by
  rw [memGetAllocatableSizeEx, ← shippedTable_toArray]
  have hquery : allocSize size align ≤ allocatableSizeFrom C s align 0 shippedTable.toArray ↔ _ :=
    le_allocatableSizeFrom_iff 0 shippedTable.regions
  have hzero : ¬ allocSize size align ≤ 0 := by
    rw [BitVec.not_le]
    exact hpos
  rw [or_iff_right hzero] at hquery
  exact (allocEx_ne_zero_iff hC hk halign hpos fun _ hr => hr).trans hquery.symm

theorem allocSize_of_positive (hk : k < 31) (halign : align.toNat = 2 ^ k) (size : U32) :
    allocSize size align = alignUp size align := by
  have hlt : 2 ^ k < 2 ^ 31 := Nat.pow_lt_pow_right (by decide) hk
  have habs : alignAbs align = align := by
    apply BitVec.eq_of_toNat_eq
    have hvalue := BitVec.toInt_eq_toNat_cond align
    rw [alignAbs_toNat]
    split_ifs at hvalue <;> omega
  rw [allocSize_eq_alignUp, habs]

/-- Below the wrap of the rounding, a request succeeds exactly when it is at most the
reported size rounded down to the alignment. -/
theorem allocEx_ne_zero_iff_le_alignDown (hC : ReportsAllocatable C) (hk : k < 31)
    (halign : align.toNat = 2 ^ k) (hn : 0 < n) (fits : n.toNat + align.toNat - 1 < 2 ^ 32) :
    (allocEx C memMapping s n align false).1 ≠ 0 ↔
      n ≤ alignDown (memGetAllocatableSizeEx C s align) align := by
  have hpos : 1 ≤ 2 ^ k := Nat.one_le_two_pow
  rw [halign, Nat.add_sub_assoc hpos] at fits
  have hsize := allocSize_of_positive hk halign n
  have hle := (le_alignUp_iff n halign).mpr fits
  rw [allocEx_ne_zero_iff_le_query hC hk halign (by rw [hsize]; bv_omega),
    hsize, alignUp_le_iff n _ halign fits]

/-- The reported size, rounded down to the alignment, can be allocated; more cannot. -/
theorem query_agrees_with_allocator (hC : ReportsAllocatable C) (hk : k < 31)
    (halign : align.toNat = 2 ^ k) (s : σ) :
    (0 < alignDown (memGetAllocatableSizeEx C s align) align →
        (allocEx C memMapping s (alignDown (memGetAllocatableSizeEx C s align) align) align false).1
          ≠ 0) ∧
      ∀ n, alignDown (memGetAllocatableSizeEx C s align) align < n →
        n.toNat + align.toNat - 1 < 2 ^ 32 → (allocEx C memMapping s n align false).1 = 0 := by
  constructor
  · intro hpos
    have hone : 1 ≤ 2 ^ k := Nat.one_le_two_pow
    have fits := alignDown_fits (memGetAllocatableSizeEx C s align) halign
    rw [allocEx_ne_zero_iff_le_alignDown hC hk halign hpos (by rw [halign]; omega)]
    exact BitVec.le_refl _
  · intro n hlt fits
    by_contra hserved
    have hpos : 0 < n := by bv_omega
    rw [← Ne, allocEx_ne_zero_iff_le_alignDown hC hk halign hpos fits] at hserved
    exact absurd hlt (BitVec.not_lt.mpr hserved)

theorem tinyCoreinit_reports : ReportsAllocatable tinyCoreinit where
  succeeds_iff := by
    have handles : ∀ r ∈ shippedTable.regions, r.effectiveStart + 0x40 ≠ 0 := by decide
    intro r hr s n a k _ _ _
    have hle : n ≤ (4 : U32) ↔ n.toNat ≤ 4 := BitVec.le_def
    change (if n.toNat ≤ 4 then r.effectiveStart + 0x40 else 0) ≠ 0 ↔ n ≤ (4 : U32)
    rw [hle]
    split_ifs with h
    · exact iff_of_true (handles r hr) h
    · exact iff_of_false (not_not_intro rfl) h
  failed_keeps := fun _ _ _ _ _ _ _ _ => rfl

theorem tinyCoreinit_query_agrees :
    (0 < alignDown (memGetAllocatableSizeEx tinyCoreinit () 4) 4 →
        (allocEx tinyCoreinit memMapping ()
          (alignDown (memGetAllocatableSizeEx tinyCoreinit () 4) 4) 4 false).1 ≠ 0) ∧
      ∀ n, alignDown (memGetAllocatableSizeEx tinyCoreinit () 4) 4 < n →
        n.toNat + (4 : U32).toNat - 1 < 2 ^ 32 →
          (allocEx tinyCoreinit memMapping () n 4 false).1 = 0 :=
  query_agrees_with_allocator (k := 2) tinyCoreinit_reports (by decide) rfl ()

/-- With four bytes to give and an alignment of 64, the reported size cannot be allocated. -/
theorem tinyCoreinit_reported_size_fails :
    ReportsAllocatable tinyCoreinit ∧ memGetAllocatableSizeEx tinyCoreinit () 64 = 4 ∧
      (allocEx tinyCoreinit memMapping () 4 64 false).1 = 0 :=
  ⟨tinyCoreinit_reports, by decide, by decide⟩

end Query

end MemoryMappingModule.HeapAllocation
