import MemoryMappingModule.ModuleHooks

/-! Ranges in allocated blocks, as applications hand them to the system. In every run the
replaced functions let such a range through, whatever the functions of the kernel and the loader
say of it, and its physical memory is in one piece. What the kernel then copies goes to the block
or comes from it, and no other block changes. -/

namespace MemoryMappingModule.UserRanges

open BlockPools ByteMemory TranslatedMemory MappingLayout RegionMapping PageTableFormat
open MappingSetup AddressTranslation MemoryManagement AddressSpaces FunctionReplacements
open PatchedTranslations HeapAllocation HeapPairing HeapLifetime PageRoom ModuleHooks

section Program

variable (kMemcpy : Space → MemCopy → Contents 32 → Except Fault (Contents 32))

/-- The replacement of `KiGetOrPutUserData`, with what it copies itself. -/
def getOrPutUserData (space : Space) (real : U32 → U32 → U32 → Bool → U32) (src size dst : U32)
    (isRead : Bool) (m : Contents 32) : Except Fault (U32 × Contents 32) :=
  match kiGetOrPutUserData real src size dst isRead with
  | (result, none) => .ok (result, m)
  | (result, some copy) => do return (result, ← kMemcpy space copy m)

/-- What the kernel's `k_memcpy` does to memory: where no byte faults and the two parts do not
overlap, it copies the one to the other. -/
def CopiesBytes : Prop :=
  ∀ space dst src (size : U32) (t f : U32 → U32) m,
    (∀ a ∈ span src size.toNat, space true .load a = .ok (f a)) →
    (∀ a ∈ span dst size.toNat, space true .store a = .ok (t a)) →
    Set.InjOn t (span dst size.toNat) →
    Disjoint (t '' span dst size.toNat) (f '' span src size.toNat) →
      ∃ m', kMemcpy space ⟨dst, src, size⟩ m = .ok m' ∧
        (∀ i < size.toNat, m' (t (dst + BitVec.ofNat 32 i)) = m (f (src + BitVec.ofNat 32 i))) ∧
        DiffersIn (t '' span dst size.toNat) m m'

end Program

section Ranges

variable {σ : Type} {C : Coreinit σ} {live : σ → Pools U32} {s : σ} {r : Region} {b : Block}
  {address size : U32}

structure InBlock (b : Block) (address size : U32) : Prop where
  pos : 0 < size
  inside : ∀ k < size.toNat, b.Contains (address.toNat + k)

theorem InBlock.first (h : InBlock b address size) : b.Contains address.toNat :=
  h.inside 0 (BitVec.lt_def.mp h.pos)

theorem InBlock.inRegion (h : InBlock b address size) (hpaired : Paired C live s)
    (hr : r ∈ shippedTable.regions) (hb : b ∈ live s r.effectiveStart) (k : ℕ)
    (hk : k < size.toNat) : r.effectiveStart.toNat ≤ address.toNat + k ∧
      address.toNat + k < r.effectiveEnd.toNat := by
  obtain ⟨hword, hstart, hend⟩ := hpaired.contains_word hr hb (h.inside k hk)
  rw [BitVec.le_def, hword] at hstart
  rw [BitVec.lt_def, hword] at hend
  exact ⟨hstart, hend⟩

/-- What the replaced functions make of a range, whatever the real ones do. -/
structure LetThrough (address size : U32) : Prop where
  userData : ∀ real, kiValidateUserDataRange real address size = 1
  userCode : ∀ real, kiValidateUserCodeRange real address size = 1
  dataRange : ∀ real, sCheckDataRange real address size = 1
  loader : ∀ real alignMask errorCode minAddr maxAddr name,
    liValidateAddress real address size alignMask errorCode minAddr maxAddr name = 0
  effective : ∀ real addressSpace, kiIsEffectiveRangeValid real addressSpace address size ≠ 0
  physical : ∀ u1 physEnd real, ipckDriverValidatePhysicalAddress real u1
    (effectiveToPhysical memMapping address) physEnd ≠ 0
  copied : ∀ real dst isRead, (kiGetOrPutUserData real address size dst isRead).1 = 1

/-- The range is in one piece of physical memory, which is translated back to it. -/
structure InOnePiece (address size : U32) : Prop where
  forth : ∀ k < size.toNat, effectiveToPhysical memMapping (address + BitVec.ofNat 32 k) =
    effectiveToPhysical memMapping address + BitVec.ofNat 32 k
  back : ∀ k < size.toNat, physicalToEffective memMapping
    (effectiveToPhysical memMapping address + BitVec.ofNat 32 k) = address + BitVec.ofNat 32 k

theorem letThrough_of_inRegion (hr : r ∈ shippedTable.regions) (haddress : r.Contains address) :
    LetThrough address size := by
  have hbounds : ∀ r ∈ shippedTable.regions,
      (0x80000000 : U32) ≤ r.effectiveStart ∧ r.effectiveEnd ≤ (0x90000000 : U32) := by decide
  have hsegment : InSegment8 address := by
    obtain ⟨hlow, hhigh⟩ := hbounds r hr
    have hlast := BitVec.lt_def.mp haddress.2
    rw [BitVec.le_def] at hhigh
    exact ⟨BitVec.le_trans hlow haddress.1, BitVec.lt_def.mpr (by omega)⟩
  have haccepted (accepted asked : U32) : validateSegment address accepted asked = accepted :=
    if_pos (.inr ((nibble_eq_iff address).mpr hsegment))
  have hmapped : effectiveToPhysical memMapping address ≠ 0 := by
    rw [← shippedTable_toArray, effectiveToPhysical_ne_zero_iff shippedTable_physicallyDisjoint]
    exact .inr ⟨r, hr, haddress⟩
  have hback : physicalToEffective memMapping (effectiveToPhysical memMapping address) ≠ 0 := by
    rw [← shippedTable_toArray,
      physicalToEffective_effectiveToPhysical shippedTable_physicallyDisjoint
        (.inr ⟨r, hr, haddress⟩)]
    rintro rfl
    exact absurd hsegment.1 (by decide)
  refine ⟨fun _ => haccepted _ _, fun _ => haccepted _ _, fun _ => haccepted _ _,
    fun _ _ _ _ _ _ => haccepted _ _, fun real addressSpace => ?_, fun u1 physEnd =>
    (ipckDriverValidatePhysicalAddress_own_iff u1 _ physEnd).mpr hback, fun real dst isRead => ?_⟩
  · by_cases hreal : real addressSpace address size = 0
    · exact (kiIsEffectiveRangeValid_fallback hreal).mpr hmapped
    · rw [kiIsEffectiveRangeValid, if_neg hreal]
      exact hreal
  · by_cases hreal : real address size dst isRead = 0
    · rw [kiGetOrPutUserData_fallback hreal, if_neg hmapped]
    · rw [kiGetOrPutUserData, if_pos hreal]

theorem InBlock.inOnePiece (h : InBlock b address size) (hpaired : Paired C live s)
    (hr : r ∈ shippedTable.regions) (hb : b ∈ live s r.effectiveStart) :
    InOnePiece address size := by
  have hbytes := h.inRegion hpaired hr hb
  have single : ∀ r ∈ shippedTable.regions, r.chunks.length = 1 := by decide
  obtain ⟨c, hc⟩ := List.length_eq_one_iff.mp (single r hr)
  have hforth (k : ℕ) (hk : k < size.toNat) := (block_contiguous hbytes hk hr hc).1
  refine ⟨hforth, fun k hk => ?_⟩
  rw [← hforth k hk, ← shippedTable_toArray]
  exact physicalToEffective_effectiveToPhysical shippedTable_physicallyDisjoint
    (.inr ⟨r, hr, byte_contained hbytes hk⟩)

theorem InBlock.contains (h : InBlock b address size) (hpaired : Paired C live s)
    (hr : r ∈ shippedTable.regions) (hb : b ∈ live s r.effectiveStart) {a : U32}
    (ha : a ∈ span address size.toNat) : b.Contains a.toNat := by
  obtain ⟨k, hk, rfl⟩ := mem_span_iff.mp ha
  rw [byte_toNat (h.inRegion hpaired hr hb) hk]
  exact h.inside k hk

theorem InOnePiece.image (h : InOnePiece address size) :
    effectiveToPhysical memMapping '' span address size.toNat =
      span (effectiveToPhysical memMapping address) size.toNat := by
  ext pa
  rw [Set.mem_image, mem_span_iff]
  constructor
  · rintro ⟨a, ha, rfl⟩
    obtain ⟨k, hk, rfl⟩ := mem_span_iff.mp ha
    exact ⟨k, hk, h.forth k hk⟩
  · rintro ⟨k, hk, rfl⟩
    exact ⟨_, add_mem_span address hk, h.forth k hk⟩

theorem InOnePiece.injOn (h : InOnePiece address size) :
    Set.InjOn (effectiveToPhysical memMapping) (span address size.toNat) := by
  intro a ha a' ha' hsame
  obtain ⟨k, hk, rfl⟩ := mem_span_iff.mp ha
  obtain ⟨k', hk', rfl⟩ := mem_span_iff.mp ha'
  rw [← h.back k hk, ← h.forth k hk, hsame, h.forth k' hk', h.back k' hk']

end Ranges

section Copies

variable {kMemcpy : Space → MemCopy → Contents 32 → Except Fault (Contents 32)} {space : Space}
  {real : U32 → U32 → U32 → Bool → U32} {src size dst : U32} {b : Block}
  {buffer : U32 → U32} {isRead : Bool}

structure Buffered (space : Space) (dst size : U32) (buffer : U32 → U32) (b : Block) : Prop where
  load : ∀ a ∈ span dst size.toNat, space true .load a = .ok (buffer a)
  store : ∀ a ∈ span dst size.toNat, space true .store a = .ok (buffer a)
  injOn : Set.InjOn buffer (span dst size.toNat)
  apart : Disjoint (buffer '' span dst size.toNat) (physicalImage b)

def Transferred (src size dst : U32) (buffer : U32 → U32) (m m' : Contents 32) : Bool → Prop
  | true => (∀ i < size.toNat, m' (buffer (dst + BitVec.ofNat 32 i)) =
        m (effectiveToPhysical memMapping src + BitVec.ofNat 32 i)) ∧
      DiffersIn (buffer '' span dst size.toNat) m m'
  | false => (∀ i < size.toNat, m' (effectiveToPhysical memMapping src + BitVec.ofNat 32 i) =
        m (buffer (dst + BitVec.ofNat 32 i))) ∧
      DiffersIn (span (effectiveToPhysical memMapping src) size.toNat) m m'

theorem getOrPutUserData_transfers (hmemcpy : CopiesBytes kMemcpy) (hpiece : InOnePiece src size)
    (hin : effectiveToPhysical memMapping '' span src size.toNat ⊆ physicalImage b)
    (hmapped : ∀ a ∈ span src size.toNat, ∀ access,
      space true access a = .ok (effectiveToPhysical memMapping a))
    (hbuffer : Buffered space dst size buffer b)
    (hnonzero : effectiveToPhysical memMapping src ≠ 0) (hreal : real src size dst isRead = 0)
    (m : Contents 32) :
    ∃ m', getOrPutUserData kMemcpy space real src size dst isRead m = .ok (1, m') ∧
      Transferred src size dst buffer m m' isRead := by
  have hapart := hbuffer.apart.mono_right hin
  have hload := fun a ha => hmapped a ha .load
  have hstore := fun a ha => hmapped a ha .store
  rw [getOrPutUserData, kiGetOrPutUserData_fallback hreal, if_neg hnonzero]
  cases isRead with
  | true =>
    obtain ⟨m', hcopy, hbytes, hothers⟩ :=
      hmemcpy space dst src size _ _ m hload hbuffer.store hbuffer.injOn hapart
    refine ⟨m', ?_, fun i hi => ?_, hothers⟩
    · change (kMemcpy space ⟨dst, src, size⟩ m >>= fun m' => .ok (1, m')) = _
      rw [hcopy]
      rfl
    · rw [hbytes i hi, hpiece.forth i hi]
  | false =>
    obtain ⟨m', hcopy, hbytes, hothers⟩ :=
      hmemcpy space src dst size _ _ m hbuffer.load hstore hpiece.injOn hapart.symm
    refine ⟨m', ?_, fun i hi => ?_, hpiece.image ▸ hothers⟩
    · change (kMemcpy space ⟨src, dst, size⟩ m >>= fun m' => .ok (1, m')) = _
      rw [hcopy]
      rfl
    · rw [← hpiece.forth i hi, hbytes i hi]

end Copies

section Runs

variable {σ : Type} {host : Host} {C : HeapFunctions σ} {live : σ → Pools U32} {debug : Bool}
  {checkMemExpHeap : σ → U32 → Bool} {w₀ w : World σ} {events : List Event} {r : Region} {b : Block}
  {address size : U32}

/-- In every run, a range in a live block passes all checks that the module replaces, whatever the
real functions say; its physical memory is in one piece, and the search for its heap finds the heap
of the block. -/
theorem ranges_let_through (hC : Creates C live) (hcoreinit : Manages C.toCoreinit live)
    (hchild : ∀ s heap block, C.findHeapContainingBlock s heap block = 0) (hloaded : Loaded w₀)
    (hrun : Run host C debug checkMemExpHeap w₀ events w)
    (hproper : Proper host C debug checkMemExpHeap live w₀ events)
    (hready : w.ucSetupRequired = false) (hr : r ∈ shippedTable.regions)
    (hb : b ∈ live w.heaps r.effectiveStart) (hrange : InBlock b address size) :
    LetThrough address size ∧ InOnePiece address size ∧ ∀ real, ∀ k < size.toNat,
      findContainHeap C real w.heaps (address + BitVec.ofNat 32 k) = r.effectiveStart := by
  have hpaired := (hrun.reachable hC hloaded hproper hready).paired hcoreinit
  have hfirst := hrange.inRegion hpaired hr hb 0 (BitVec.lt_def.mp hrange.pos)
  refine ⟨letThrough_of_inRegion hr ⟨BitVec.le_def.mpr hfirst.1, BitVec.lt_def.mpr hfirst.2⟩,
    hrange.inOnePiece hpaired hr hb, fun real k hk => ?_⟩
  have hcontains := hrange.contains hpaired hr hb (add_mem_span address hk)
  exact (findContainHeap_spec hpaired (hchild _) real _).1 r hr b hb hcontains

theorem sample_range : InBlock (slotBlock 0x80000000) 0x80000040 4 := by
  refine ⟨by decide, fun k hk => ?_⟩
  have hk : k < 4 := hk
  exact (by omega : 0x80000040 ≤ 0x80000040 + k ∧ 0x80000040 + k < 0x80000040 + 4)

theorem sample_let_through : ∃ w : World (U32 → Bool), w.ucSetupRequired = false ∧
    LetThrough 0x80000040 4 ∧ InOnePiece 0x80000040 4 ∧ ∀ real, ∀ k < (4 : U32).toNat,
      findContainHeap oneSlotHeaps real w.heaps (0x80000040 + BitVec.ofNat 32 k) = 0x80000000 := by
  obtain ⟨w, hrun, hready, hlive⟩ := sample_run
  have hmem : heap1Region ∈ shippedTable.regions := by simp [shippedTable]
  have hthrough := ranges_let_through oneSlotHeaps_creates oneSlot_manages (fun _ _ _ => rfl)
    sampleWorld_loaded hrun sample_proper hready hmem ⟨hlive, rfl⟩ sample_range
  exact ⟨w, hready, hthrough⟩

section Copied

variable {kMemcpy : Space → MemCopy → Contents 32 → Except Fault (Contents 32)} {stack : Set U32}
  {core : Fin 3} {real : U32 → U32 → U32 → Bool → U32} {src dst : U32} {buffer : U32 → U32}
  {isRead : Bool}

/-- If every page of the regions found a slot when the module was loaded, the kernel copies between
its buffers and a range in a live block on any core that got its threads, and what it puts into the
range is in no other live block. -/
theorem user_data_copied (hmemcpy : CopiesBytes kMemcpy) (hC : Creates C live)
    (hcoreinit : Manages C.toCoreinit live) (hloaded : Loaded w₀) (hhost : host.Sound stack)
    (hsuits : host.Suits w₀.tables) (hmask : (w₀.tables.kernelReadSRs host.here).htabMask = 1)
    (hroom : ∀ ea, InRegion shippedTable ea →
      ∃ s, Usable (setupSegments (w₀.tables.kernelReadSRs host.here)) w₀.tables.table ea s)
    (hrun : Run host C debug checkMemExpHeap w₀ events w)
    (hproper : Proper host C debug checkMemExpHeap live w₀ events)
    (hready : w.ucSetupRequired = false) (hreached : host.Reached w₀.tables core)
    (hr : r ∈ shippedTable.regions) (hb : b ∈ live w.heaps r.effectiveStart)
    (hrange : InBlock b src size) (hbuffer : Buffered (w.tables.space core core) dst size buffer b)
    (hreal : real src size dst isRead = 0) (m : Contents 32) :
    ∃ m', getOrPutUserData kMemcpy (w.tables.space core core) real src size dst isRead m =
        .ok (1, m') ∧ Transferred src size dst buffer m m' isRead ∧
      (isRead = false → ∀ q ∈ shippedTable.regions, ∀ c ∈ live w.heaps q.effectiveStart,
        (r.effectiveStart, b) ≠ (q.effectiveStart, c) → Set.EqOn m' m (physicalImage c)) := by
  have hpaired := (hrun.reachable hC hloaded hproper hready).paired hcoreinit
  have hpiece := hrange.inOnePiece hpaired hr hb
  have hcontains : ∀ a ∈ span src size.toNat, b.Contains a.toNat :=
    fun a ha => hrange.contains hpaired hr hb ha
  have hin : effectiveToPhysical memMapping '' span src size.toNat ⊆ physicalImage b :=
    Set.image_mono hcontains
  have hmapped : ∀ a ∈ span src size.toNat, ∀ access,
      w.tables.space core core true access a = .ok (effectiveToPhysical memMapping a) :=
    fun a ha access => region_mapped (hrun.setUp hloaded hready).tables hhost hsuits hmask hroom
      hreached (block_inRegion hpaired hr hb (hcontains a ha)) true access
  have hnonzero : effectiveToPhysical memMapping src ≠ 0 := by
    rw [← shippedTable_toArray, effectiveToPhysical_ne_zero_iff shippedTable_physicallyDisjoint]
    exact .inr (block_inRegion hpaired hr hb hrange.first)
  obtain ⟨m', hresult, htransferred⟩ :=
    getOrPutUserData_transfers hmemcpy hpiece hin hmapped hbuffer hnonzero hreal m
  refine ⟨m', hresult, htransferred, fun hwrite q hq c hc hne => ?_⟩
  subst hwrite
  have hothers : DiffersIn (span (effectiveToPhysical memMapping src) size.toNat) m m' :=
    htransferred.2
  rw [← hpiece.image] at hothers
  exact hothers.kept ((physicalImage_disjoint hpaired hr hq hb hc hne).mono_left hin)

def bytewise (space : Space) (copy : MemCopy) (m : Contents 32) : Except Fault (Contents 32) :=
  copyThrough (space true .load) (space true .store) copy.size.toNat copy.dst copy.src m

theorem bytewise_copies : CopiesBytes bytewise :=
  fun _ _ _ size _ _ m hload hstore hinj hapart =>
    copyThrough_copies hload hstore size.isLt.le hinj hapart m

theorem sample_buffered {w : World (U32 → Bool)}
    (hsetUp : SetUp (sampleHost 1) oneSlotHeaps sampleWorld sampleEvents w) :
    Buffered (w.tables.space 0 0) 0x88000000 4 (effectiveToPhysical memMapping)
      (slotBlock 0x80000000) := by
  obtain ⟨stack, hsound⟩ := sampleHost_sound
  have hplace {a : U32} (ha : a ∈ span (0x88000000 : U32) 4) :
      0x88000000 ≤ a.toNat ∧ a.toNat < 0x88000004 := by
    obtain ⟨k, hk, rfl⟩ := mem_span_iff.mp ha
    rw [BitVec.toNat_add, BitVec.toNat_ofNat]
    simp only [BitVec.reduceToNat]
    omega
  have hregion {a : U32} (ha : a ∈ span (0x88000000 : U32) 4) : InRegion shippedTable a := by
    obtain ⟨hlow, hhigh⟩ := hplace ha
    refine ⟨videoRegion, by simp [shippedTable], BitVec.le_def.mpr hlow, BitVec.lt_def.mpr ?_⟩
    exact hhigh.trans (by decide)
  have hblock {a : U32} (ha : (slotBlock 0x80000000).Contains a.toNat) :
      0x80000040 ≤ a.toNat ∧ a.toNat < 0x80000044 := ha
  have hmapped := fun a (ha : a ∈ span (0x88000000 : U32) 4) => region_mapped hsetUp.tables hsound
    sampleHost_suits (by decide) sample_room (sampleHost_reached 0) (hregion ha) true
  refine ⟨fun a ha => hmapped a ha .load, fun a ha => hmapped a ha .store,
    regions_injOn.mono fun a ha => hregion ha, disjoint_image (regions_injOn.mono ?_) ?_⟩
  · refine Set.union_subset (fun a ha => hregion ha) fun a ha => ?_
    obtain ⟨hlow, hhigh⟩ := hblock ha
    refine ⟨heap1Region, by simp [shippedTable], BitVec.le_def.mpr ?_, BitVec.lt_def.mpr ?_⟩
    · exact le_trans (by decide) hlow
    · exact hhigh.trans (by decide)
  · refine Set.disjoint_left.mpr fun a ha ha' => ?_
    have := hplace ha
    have := hblock ha'
    omega

def refusing : U32 → U32 → U32 → Bool → U32 := fun _ _ _ _ => 0

theorem sample_copied : ∃ w : World (U32 → Bool), w.ucSetupRequired = false ∧ ∀ m isRead, ∃ m',
    getOrPutUserData bytewise (w.tables.space 0 0) refusing 0x80000040 4 0x88000000 isRead m =
        .ok (1, m') ∧
      Transferred 0x80000040 4 0x88000000 (effectiveToPhysical memMapping) m m' isRead := by
  obtain ⟨stack, hsound⟩ := sampleHost_sound
  obtain ⟨w, hrun, hready, hlive⟩ := sample_run
  have hmem : heap1Region ∈ shippedTable.regions := by simp [shippedTable]
  have hreal (isRead : Bool) : refusing 0x80000040 4 0x88000000 isRead = 0 := rfl
  refine ⟨w, hready, fun m isRead => ?_⟩
  have hbuffer := sample_buffered (hrun.setUp sampleWorld_loaded hready)
  obtain ⟨m', hresult, htransferred, _⟩ := user_data_copied bytewise_copies oneSlotHeaps_creates
    oneSlot_manages sampleWorld_loaded hsound sampleHost_suits (by decide) sample_room hrun
    sample_proper hready (sampleHost_reached 0) hmem
    ⟨hlive, rfl⟩ sample_range hbuffer (hreal isRead) m
  exact ⟨m', hresult, htransferred⟩

end Copied

end Runs

end MemoryMappingModule.UserRanges
