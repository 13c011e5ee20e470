import MemoryMappingModule.BlockPools
import MemoryMappingModule.HeapAllocation

/-! Allocation and release over whole runs. Seen through the blocks that are live in each
heap, every call of `MemoryMapping_alloc`, `MemoryMapping_allocVideoMemory` and
`MemoryMapping_free` is a step of a family of block pools, one to a region; the pools'
invariant then gives back the heap of every live block. -/

namespace MemoryMappingModule.HeapPairing

open BlockPools MappingLayout HeapAllocation

variable {σ : Type*}

/-- Where blocks of a heap can lie: strictly above its start and inside its data range. -/
def heapArea (C : Coreinit σ) (s : σ) (heap : U32) : Area :=
  ⟨max (heap.toNat + 1) (C.dataStart s heap).toNat, (C.dataEnd s heap).toNat⟩

def handles : Set U32 := {h | ∃ r ∈ shippedTable.regions, r.effectiveStart = h}

def SameHeaders (C : Coreinit σ) (s s' : σ) : Prop :=
  ∀ h ∈ handles, C.dataStart s' h = C.dataStart s h ∧ C.dataEnd s' h = C.dataEnd s h

/-- coreinit's contract for the heaps of the regions, on the blocks live in each heap. -/
structure Manages (C : Coreinit σ) (live : σ → Pools U32) : Prop where
  alloc : ∀ s, ∀ h ∈ handles, ∀ n a,
    C.allocFromExpHeapEx s h n a = (0, s) ∨
      ∃ b : Block, b.start = (C.allocFromExpHeapEx s h n a).1.toNat ∧ b.Within (heapArea C s h) ∧
        (∀ c ∈ live s h, b.Disjoint c) ∧
        live (C.allocFromExpHeapEx s h n a).2 = add (live s) h b ∧
        SameHeaders C s (C.allocFromExpHeapEx s h n a).2
  free : ∀ s, ∀ h ∈ handles, ∀ b ∈ live s h, ∀ ptr : U32, ptr.toNat = b.start →
    live (C.freeToExpHeap s h ptr) = remove (live s) h b.start ∧
      SameHeaders C s (C.freeToExpHeap s h ptr)

/-- Heaps as `MemoryMapping_CreateHeaps` leaves them: empty, each inside its region. -/
structure Fresh (C : Coreinit σ) (live : σ → Pools U32) (s : σ) : Prop where
  empty : ∀ h ∈ handles, live s h = ∅
  data_start : ∀ r ∈ shippedTable.regions, r.effectiveStart ≤ C.dataStart s r.effectiveStart
  data_end : ∀ r ∈ shippedTable.regions, C.dataEnd s r.effectiveStart ≤ r.effectiveEnd

inductive Call where
  | alloc (size align : U32)
  | allocVideoMemory (size align : U32)
  | free (ptr : U32)

def Call.run (C : Coreinit σ) (s : σ) : Call → σ
  | .alloc size align => (HeapAllocation.alloc C s size align).2
  | .allocVideoMemory size align => (HeapAllocation.allocVideoMemory C s size align).2
  | .free ptr => HeapAllocation.free C s ptr

/-- A pointer may be freed if it is null, outside every region, or the start of a live block. -/
def Call.Admissible (live : σ → Pools U32) (s : σ) : Call → Prop
  | .alloc _ _ => True
  | .allocVideoMemory _ _ => True
  | .free ptr => ptr = 0 ∨ (∀ r ∈ shippedTable.regions, ¬ r.Contains ptr) ∨
      ∃ h ∈ handles, ∃ b ∈ live s h, ptr.toNat = b.start

/-- The states reached from freshly created heaps by admissible calls. -/
inductive Reachable (C : Coreinit σ) (live : σ → Pools U32) : σ → Prop
  | fresh {s : σ} (h : Fresh C live s) : Reachable C live s
  | call {s : σ} (h : Reachable C live s) (c : Call) (admissible : c.Admissible live s) :
      Reachable C live (c.run C s)

section Regions

theorem region_unique {r q : Region} (hr : r ∈ shippedTable.regions)
    (hq : q ∈ shippedTable.regions) {a : U32} (har : r.Contains a) (haq : q.Contains a) :
    r = q := by
  by_contra hne
  have : Std.Symm fun r s : Region => ∀ ea, ¬ (r.Contains ea ∧ s.Contains ea) :=
    ⟨fun _ _ h ea hboth => h ea hboth.symm⟩
  exact shippedTable.regions_disjoint.forall hr hq hne a ⟨har, haq⟩

variable {C : Coreinit σ} {s : σ} {ptr : U32}

theorem freeFrom_of_mem {regions : List Region} {r : Region} (hr : r ∈ regions)
    (hin : r.effectiveStart < ptr ∧ ptr < r.effectiveEnd)
    (hunique : ∀ q ∈ regions, q.effectiveStart < ptr ∧ ptr < q.effectiveEnd → q = r) :
    freeFrom C s ptr (regions.map Region.toMapping ++ [⟨0, 0, none⟩]) =
      C.freeToExpHeap s r.effectiveStart ptr := by
  induction regions with
  | nil => simp at hr
  | cons q regions ih =>
    simp only [List.map_cons, List.cons_append, freeFrom, Region.toMapping]
    split_ifs with hq
    · rw [hunique q (List.mem_cons_self ..) hq]
    · rcases List.mem_cons.mp hr with rfl | hr
      · exact absurd hin hq
      · exact ih hr fun p hp => hunique p (List.mem_cons_of_mem _ hp)

theorem freeFrom_of_outside {regions : List Region}
    (hout : ∀ q ∈ regions, ¬ (q.effectiveStart < ptr ∧ ptr < q.effectiveEnd)) :
    freeFrom C s ptr (regions.map Region.toMapping ++ [⟨0, 0, none⟩]) = s := by
  induction regions with
  | nil => rfl
  | cons q regions ih =>
    simp only [List.map_cons, List.cons_append, freeFrom, Region.toMapping]
    rw [if_neg (hout q (List.mem_cons_self ..))]
    exact ih fun p hp => hout p (List.mem_cons_of_mem _ hp)

theorem findContainHeapFrom_of_mem {regions : List Region} {r : Region} (hr : r ∈ regions)
    (hchild : C.findHeapContainingBlock s r.effectiveStart ptr = 0)
    (hin : C.dataStart s r.effectiveStart ≤ ptr ∧ ptr < C.dataEnd s r.effectiveStart)
    (hunique : ∀ q ∈ regions,
      C.dataStart s q.effectiveStart ≤ ptr ∧ ptr < C.dataEnd s q.effectiveStart → q = r) :
    findContainHeapFrom C s ptr (regions.map Region.toMapping ++ [⟨0, 0, none⟩]) =
      r.effectiveStart := by
  induction regions with
  | nil => simp at hr
  | cons q regions ih =>
    simp only [List.map_cons, List.cons_append, findContainHeapFrom, Region.toMapping]
    split_ifs with hq hc
    · rw [hunique q (List.mem_cons_self ..) hq] at hc
      exact absurd hchild hc
    · rw [hunique q (List.mem_cons_self ..) hq]
    · rcases List.mem_cons.mp hr with rfl | hr
      · exact absurd hin hq
      · exact ih hr fun p hp => hunique p (List.mem_cons_of_mem _ hp)

end Regions

section Invariant

variable {C : Coreinit σ} {live : σ → Pools U32} {s s' : σ}

/-- Every heap keeps its data inside its region and its blocks disjoint inside its data. -/
structure Paired (C : Coreinit σ) (live : σ → Pools U32) (s : σ) : Prop where
  data_start : ∀ r ∈ shippedTable.regions, r.effectiveStart ≤ C.dataStart s r.effectiveStart
  data_end : ∀ r ∈ shippedTable.regions, C.dataEnd s r.effectiveStart ≤ r.effectiveEnd
  sound : Sound handles (heapArea C s) (live s)

theorem SameHeaders.refl (C : Coreinit σ) (s : σ) : SameHeaders C s s := fun _ _ => ⟨rfl, rfl⟩

theorem SameHeaders.heapArea_eq (h : SameHeaders C s s') {i : U32} (hi : i ∈ handles) :
    heapArea C s' i = heapArea C s i := by
  rw [heapArea, heapArea, (h i hi).1, (h i hi).2]

theorem mem_handles {r : Region} (hr : r ∈ shippedTable.regions) : r.effectiveStart ∈ handles :=
  ⟨r, hr, rfl⟩

theorem Paired.bounds (h : Paired C live s) {r : Region} (hr : r ∈ shippedTable.regions) {b : Block}
    (hb : b ∈ live s r.effectiveStart) {ptr : U32} (hptr : b.Contains ptr.toNat) :
    (r.effectiveStart < ptr ∧ ptr < r.effectiveEnd) ∧
      C.dataStart s r.effectiveStart ≤ ptr ∧ ptr < C.dataEnd s r.effectiveStart := by
  have hcontains := (h.sound.within _ (mem_handles hr) b hb).contains hptr
  have hend := BitVec.le_def.mp (h.data_end r hr)
  simp only [heapArea, Area.Contains, max_le_iff] at hcontains
  simp only [BitVec.lt_def, BitVec.le_def]
  omega

theorem Paired.free_live (h : Paired C live s) {r : Region} (hr : r ∈ shippedTable.regions)
    {b : Block} (hb : b ∈ live s r.effectiveStart) {ptr : U32} (hptr : ptr.toNat = b.start) :
    free C s ptr = C.freeToExpHeap s r.effectiveStart ptr := by
  have hin := (h.bounds hr hb (hptr ▸ b.contains_start)).1
  have hnull : ptr ≠ 0 := by
    rintro rfl
    exact absurd hin.1 (by simp [BitVec.lt_def])
  rw [free, if_neg hnull, ← shippedTable_toArray]
  refine freeFrom_of_mem hr hin fun q hq hqin => ?_
  exact region_unique hq hr ⟨BitVec.le_of_lt hqin.1, hqin.2⟩ ⟨BitVec.le_of_lt hin.1, hin.2⟩

theorem free_foreign (C : Coreinit σ) (s : σ) {ptr : U32}
    (h : ptr = 0 ∨ ∀ r ∈ shippedTable.regions, ¬ r.Contains ptr) : free C s ptr = s := by
  rw [free]
  split_ifs with hnull
  · rfl
  · rw [← shippedTable_toArray]
    refine freeFrom_of_outside fun q hq hin => ?_
    exact (h.resolve_left hnull) q hq ⟨BitVec.le_of_lt hin.1, hin.2⟩

theorem allocEx_simulates (hC : Manages C live) (s : σ) (size align : U32) (videoOnly : Bool) :
    Step (heapArea C s) (live s) (live (allocEx C memMapping s size align videoOnly).2) ∧
      SameHeaders C s (allocEx C memMapping s size align videoOnly).2 := by
  rw [← shippedTable_toArray]
  have hregions : ∀ r ∈ shippedTable.regions, r.effectiveStart ∈ handles :=
    fun r hr => mem_handles hr
  rw [MappingTable.toArray]
  generalize shippedTable.regions = regions at hregions
  induction regions with
  | nil => exact ⟨Step.keep, SameHeaders.refl C s⟩
  | cons r regions ih =>
    have hrest := ih fun q hq => hregions q (List.mem_cons_of_mem _ hq)
    have hheap := hC.alloc s _ (hregions r (List.mem_cons_self ..)) (allocSize size align) align
    simp only [List.map_cons, List.cons_append, allocEx, Region.toMapping]
    split_ifs with hskip hfound
    · exact hrest
    · rcases hheap with hfail | ⟨b, _, hwithin, hdisjoint, hlive, hheaders⟩
      · exact absurd (congrArg Prod.fst hfail) hfound
      · exact ⟨hlive ▸ Step.add hwithin hdisjoint, hheaders⟩
    · rcases hheap with hfail | ⟨b, hstart, hwithin, _⟩
      · rw [hfail]
        exact hrest
      · -- a block starts above its heap, so a null result is no block
        have hpos := hwithin.1
        rw [hstart, not_not.mp hfound] at hpos
        simp [heapArea] at hpos

theorem Paired.simulates (hC : Manages C live) (h : Paired C live s) {c : Call}
    (hc : c.Admissible live s) :
    Step (heapArea C s) (live s) (live (c.run C s)) ∧ SameHeaders C s (c.run C s) := by
  cases c with
  | alloc size align => exact allocEx_simulates hC s size align false
  | allocVideoMemory size align => exact allocEx_simulates hC s size align true
  | free ptr =>
    rcases hc with hnull | hout | ⟨_, ⟨r, hr, rfl⟩, b, hb, hptr⟩
    · rw [Call.run, free_foreign C s (Or.inl hnull)]
      exact ⟨Step.keep, SameHeaders.refl C s⟩
    · rw [Call.run, free_foreign C s (Or.inr hout)]
      exact ⟨Step.keep, SameHeaders.refl C s⟩
    · obtain ⟨hlive, hheaders⟩ := hC.free s _ (mem_handles hr) b hb ptr hptr
      rw [Call.run, h.free_live hr hb hptr, hlive]
      exact ⟨Step.remove hb, hheaders⟩

theorem Paired.call (hC : Manages C live) (h : Paired C live s) {c : Call}
    (hc : c.Admissible live s) : Paired C live (c.run C s) := by
  obtain ⟨hstep, hheaders⟩ := h.simulates hC hc
  have hsound := h.sound.step hstep
  refine ⟨fun r hr => ?_, fun r hr => ?_, ⟨fun i hi b hb => ?_, hsound.disjoint⟩⟩
  · rw [(hheaders _ (mem_handles hr)).1]
    exact h.data_start r hr
  · rw [(hheaders _ (mem_handles hr)).2]
    exact h.data_end r hr
  · rw [hheaders.heapArea_eq hi]
    exact hsound.within i hi b hb

theorem Reachable.paired (hC : Manages C live) (h : Reachable C live s) : Paired C live s := by
  induction h with
  | fresh hfresh => exact ⟨hfresh.data_start, hfresh.data_end, Sound.of_empty hfresh.empty⟩
  | call _ c hc ih => exact ih.call hC hc

theorem Paired.contains_word (h : Paired C live s) {r : Region} (hr : r ∈ shippedTable.regions)
    {b : Block} (hb : b ∈ live s r.effectiveStart) {a : ℕ} (ha : b.Contains a) :
    (BitVec.ofNat 32 a).toNat = a ∧ r.Contains (BitVec.ofNat 32 a) := by
  have hcontains := (h.sound.within _ (mem_handles hr) b hb).contains ha
  have hlt := (C.dataEnd s r.effectiveStart).isLt
  have hword : (BitVec.ofNat 32 a).toNat = a := by
    rw [BitVec.toNat_ofNat,
      Nat.mod_eq_of_lt (by simp only [heapArea, Area.Contains] at hcontains; omega)]
  have hptr : b.Contains (BitVec.ofNat 32 a).toNat := by rwa [hword]
  have hin := (h.bounds hr hb hptr).1
  exact ⟨hword, BitVec.le_of_lt hin.1, hin.2⟩

theorem Paired.apart (h : Paired C live s) : ∀ i ∈ handles, ∀ j ∈ handles, ∀ a,
    (heapArea C s i).Contains a → (heapArea C s j).Contains a → i = j := by
  rintro _ ⟨r, hr, rfl⟩ _ ⟨q, hq, rfl⟩ a har haq
  have hlt := (C.dataEnd s r.effectiveStart).isLt
  simp only [heapArea, Area.Contains, max_le_iff] at har haq
  have hword : (BitVec.ofNat 32 a).toNat = a := by
    rw [BitVec.toNat_ofNat]
    omega
  have inside {x : Region} (hx : x ∈ shippedTable.regions) (hlow : x.effectiveStart.toNat + 1 ≤ a)
      (hhigh : a < (C.dataEnd s x.effectiveStart).toNat) : x.Contains (BitVec.ofNat 32 a) := by
    have hend := BitVec.le_def.mp (h.data_end x hx)
    rw [Region.Contains, BitVec.le_def, BitVec.lt_def, hword]
    omega
  rw [region_unique hr hq (inside hr har.1.1 har.2) (inside hq haq.1.1 haq.2)]

theorem Paired.disjoint (h : Paired C live s) {r q : Region} (hr : r ∈ shippedTable.regions)
    (hq : q ∈ shippedTable.regions) {b c : Block} (hb : b ∈ live s r.effectiveStart)
    (hc : c ∈ live s q.effectiveStart) (hne : (r.effectiveStart, b) ≠ (q.effectiveStart, c)) :
    b.Disjoint c :=
  h.sound.disjoint_all h.apart (mem_handles hr) (mem_handles hq) hb hc hne

theorem Paired.region_iff (h : Paired C live s) {r q : Region} (hr : r ∈ shippedTable.regions)
    (hq : q ∈ shippedTable.regions) {b : Block} (hb : b ∈ live s r.effectiveStart) :
    (∀ a, b.Contains a → ∃ w : U32, w.toNat = a ∧ q.Contains w) ↔ q = r := by
  constructor
  · intro hinside
    obtain ⟨w, hw, hwq⟩ := hinside b.start b.contains_start
    have hin := (h.bounds hr hb (hw ▸ b.contains_start)).1
    exact region_unique hq hr hwq ⟨BitVec.le_of_lt hin.1, hin.2⟩
  · rintro rfl a ha
    exact ⟨_, h.contains_word hr hb ha⟩

theorem Paired.findContainHeap (h : Paired C live s)
    (hchild : ∀ heap block, C.findHeapContainingBlock s heap block = 0) {r : Region}
    (hr : r ∈ shippedTable.regions) {b : Block} (hb : b ∈ live s r.effectiveStart) {ptr : U32}
    (hptr : b.Contains ptr.toNat) : memFindContainHeap C s ptr = r.effectiveStart := by
  obtain ⟨hin, hdata⟩ := h.bounds hr hb hptr
  rw [memFindContainHeap, ← shippedTable_toArray]
  refine findContainHeapFrom_of_mem hr (hchild _ _) hdata fun q hq hqdata => ?_
  have hstart := h.data_start q hq
  have hend := h.data_end q hq
  exact region_unique hq hr
    ⟨BitVec.le_trans hstart hqdata.1, by bv_omega⟩
    ⟨BitVec.le_of_lt hin.1, hin.2⟩

/-- In every reachable state allocation and release are paired. -/
theorem heaps_stay_paired (hC : Manages C live)
    (hchild : ∀ s heap block, C.findHeapContainingBlock s heap block = 0)
    (hs : Reachable C live s) :
    (∀ r ∈ shippedTable.regions, ∀ q ∈ shippedTable.regions, ∀ b ∈ live s r.effectiveStart,
        ∀ c ∈ live s q.effectiveStart, (r.effectiveStart, b) ≠ (q.effectiveStart, c) →
          b.Disjoint c) ∧
      (∀ r ∈ shippedTable.regions, ∀ b ∈ live s r.effectiveStart, ∀ q ∈ shippedTable.regions,
        (∀ a, b.Contains a → ∃ w : U32, w.toNat = a ∧ q.Contains w) ↔ q = r) ∧
      (∀ r ∈ shippedTable.regions, ∀ b ∈ live s r.effectiveStart, ∀ ptr : U32, ptr.toNat = b.start →
        live (free C s ptr) =
            Function.update (live s) r.effectiveStart (live s r.effectiveStart \ {b}) ∧
          memFindContainHeap C s ptr = r.effectiveStart) ∧
      ∀ ptr, (ptr = 0 ∨ ∀ r ∈ shippedTable.regions, ¬ r.Contains ptr) → free C s ptr = s := by
  have h := hs.paired hC
  refine ⟨fun r hr q hq b hb c hc hne => h.disjoint hr hq hb hc hne,
    fun r hr b hb q hq => h.region_iff hr hq hb, fun r hr b hb ptr hptr => ⟨?_, ?_⟩,
    fun ptr hptr => free_foreign C s hptr⟩
  · rw [h.free_live hr hb hptr, (hC.free s _ (mem_handles hr) b hb ptr hptr).1,
      h.sound.remove_eq (mem_handles hr) hb]
  · exact h.findContainHeap (hchild s) hr hb (hptr ▸ b.contains_start)

end Invariant

section OneSlot

def oneSlot : Coreinit (U32 → Bool) where
  allocFromExpHeapEx := fun s heap size _ =>
    if s heap = false ∧ size.toNat ≤ 4 then (heap + 0x40, Function.update s heap true) else (0, s)
  freeToExpHeap := fun s heap block =>
    if block = heap + 0x40 then Function.update s heap false else s
  getAllocatableSizeForExpHeapEx := fun s heap _ => if s heap then 0 else 4
  findHeapContainingBlock := fun _ _ _ => 0
  dataStart := fun _ heap => heap + 0x40
  dataEnd := fun _ heap => heap + 0x44

def slotBlock (heap : U32) : Block := ⟨(heap + 0x40).toNat, 4, by decide⟩

def oneSlotLive (s : U32 → Bool) : Pools U32 := fun heap => {b | s heap = true ∧ b = slotBlock heap}

theorem handle_room {h : U32} (hh : h ∈ handles) :
    (h + 0x40).toNat = h.toNat + 0x40 ∧ (h + 0x44).toNat = h.toNat + 0x44 := by
  have room : ∀ r ∈ shippedTable.regions,
      (r.effectiveStart + 0x40).toNat = r.effectiveStart.toNat + 0x40 ∧
        (r.effectiveStart + 0x44).toNat = r.effectiveStart.toNat + 0x44 := by
    decide
  obtain ⟨r, hr, rfl⟩ := hh
  exact room r hr

theorem oneSlotLive_take {s : U32 → Bool} {h : U32} (hfree : s h = false) :
    oneSlotLive (Function.update s h true) = add (oneSlotLive s) h (slotBlock h) := by
  funext heap
  by_cases hheap : heap = h
  · subst hheap
    ext b
    simp [oneSlotLive, add, hfree]
  · simp [oneSlotLive, add, hheap]

theorem oneSlotLive_release (s : U32 → Bool) (h : U32) :
    oneSlotLive (Function.update s h false) = remove (oneSlotLive s) h (slotBlock h).start := by
  funext heap
  by_cases hheap : heap = h
  · subst hheap
    ext b
    simp only [oneSlotLive, remove, Function.update_self]
    constructor
    · rintro ⟨htaken, _⟩
      simp at htaken
    · rintro ⟨⟨_, rfl⟩, hne⟩
      exact absurd rfl hne
  · simp [oneSlotLive, remove, hheap]

theorem oneSlot_manages : Manages oneSlot oneSlotLive where
  alloc := by
    intro s h hh n a
    obtain ⟨hstart, hend⟩ := handle_room hh
    by_cases hfree : s h = false ∧ n.toNat ≤ 4
    · have hresult : oneSlot.allocFromExpHeapEx s h n a =
          (h + 0x40, Function.update s h true) := if_pos hfree
      rw [hresult]
      refine Or.inr ⟨slotBlock h, rfl, ?_, ?_, oneSlotLive_take hfree.1, fun _ _ => ⟨rfl, rfl⟩⟩
      · simp only [Block.Within, heapArea, oneSlot, slotBlock, max_le_iff]
        omega
      · rintro c ⟨htaken, _⟩
        rw [hfree.1] at htaken
        simp at htaken
    · exact Or.inl (if_neg hfree)
  free := by
    rintro s h _ b ⟨_, rfl⟩ ptr hptr
    obtain rfl : ptr = h + 0x40 := BitVec.eq_of_toNat_eq hptr
    have hresult : oneSlot.freeToExpHeap s h (h + 0x40) = Function.update s h false := if_pos rfl
    rw [hresult]
    exact ⟨oneSlotLive_release s h, fun _ _ => ⟨rfl, rfl⟩⟩

theorem oneSlot_fresh : Fresh oneSlot oneSlotLive fun _ => false where
  empty := fun h _ => by simp [oneSlotLive]
  data_start := by decide
  data_end := by decide

theorem oneSlot_block_paired :
    memFindContainHeap oneSlot (Call.run oneSlot (fun _ => false) (.alloc 4 4)) 0x80000040 =
        0x80000000 ∧
      free oneSlot (Call.run oneSlot (fun _ => false) (.alloc 4 4)) 0x84000000 =
        Call.run oneSlot (fun _ => false) (.alloc 4 4) := by
  have hreached : Reachable oneSlot oneSlotLive (Call.run oneSlot (fun _ => false) (.alloc 4 4)) :=
    .call (.fresh oneSlot_fresh) _ trivial
  have hlive : slotBlock 0x80000000 ∈
      oneSlotLive (Call.run oneSlot (fun _ => false) (.alloc 4 4)) heap1Region.effectiveStart :=
    ⟨by decide, rfl⟩
  obtain ⟨_, _, hblocks, hforeign⟩ := heaps_stay_paired oneSlot_manages (fun _ _ _ => rfl) hreached
  have outside : ∀ r ∈ shippedTable.regions,
      ¬ (r.effectiveStart ≤ 0x84000000 ∧ (0x84000000 : U32) < r.effectiveEnd) := by
    decide
  exact ⟨(hblocks heap1Region (by simp [shippedTable]) _ hlive 0x80000040 rfl).2,
    hforeign _ (Or.inr outside)⟩

end OneSlot

end MemoryMappingModule.HeapPairing
