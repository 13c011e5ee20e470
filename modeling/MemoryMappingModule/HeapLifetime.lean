import MemoryMappingModule.HeapPairing
import MemoryMappingModule.LockedHeaps

/-! The heaps from their creation on. `MemoryMapping_CreateHeaps` clears the regions one after the
other and makes a heap of each, `MemoryMapping_DestroyHeaps` takes the heaps back and clears the
regions again, and `MemoryMapping_GetFreeSpace` adds up what is free. To coreinit the heaps are
members of a list, so that an operation on one of them may write to the headers of others. -/

namespace MemoryMappingModule.HeapLifetime

open BlockPools ByteMemory MappingLayout HeapAllocation HeapPairing LockedHeaps

structure HeapFunctions (σ : Type*) extends Coreinit σ where
  memset : σ → (dest value size : U32) → σ
  createExpHeapEx : σ → (heap size flags : U32) → U32 × σ
  destroyExpHeap : σ → (heap : U32) → σ
  getTotalFreeSizeForExpHeap : σ → (heap : U32) → U32

section Program

variable {σ β : Type*} (C : HeapFunctions σ)

def forHeaps (body : β → MemoryMapping → β) : β → List MemoryMapping → β
  | s, [] => s
  | s, m :: rest =>
    match m.physicalAddresses with
    | none => s
    | some _ => forHeaps body (body s m) rest

def createHeap (s : σ) (m : MemoryMapping) : σ :=
  let size := m.effectiveEndAddress - m.effectiveStartAddress
  let s := C.memset s m.effectiveStartAddress 0 size
  (C.createExpHeapEx s m.effectiveStartAddress size memHeapFlagUseLock).2

/-- `MemoryMapping_CreateHeaps` -/
def createHeaps (s : σ) : σ := forHeaps (createHeap C) s memMapping

def destroyHeap (s : σ) (m : MemoryMapping) : σ :=
  let size := m.effectiveEndAddress - m.effectiveStartAddress
  C.memset (C.destroyExpHeap s m.effectiveStartAddress) m.effectiveStartAddress 0 size

/-- `MemoryMapping_DestroyHeaps` -/
def destroyHeaps (s : σ) : σ := forHeaps (destroyHeap C) s memMapping

/-- `MemoryMapping_GetFreeSpace` -/
def getFreeSpace (s : σ) : U32 :=
  forHeaps (fun res m => res + C.getTotalFreeSizeForExpHeap s m.effectiveStartAddress) 0 memMapping

end Program

section Loops

variable {σ β α : Type*}

theorem forHeaps_toArray (body : β → MemoryMapping → β) (s : β) (T : MappingTable) :
    forHeaps body s T.toArray = T.regions.foldl (fun s r => body s r.toMapping) s := by
  rw [MappingTable.toArray]
  induction T.regions generalizing s with
  | nil => rfl
  | cons r rs ih => exact ih (body s r.toMapping)

/-- Where every pass establishes something of its own place and keeps what others established,
it holds of all places in the end. -/
theorem foldl_establishes {P : α → β → Prop} {f : β → α → β} {as : List α}
    (own : ∀ s, ∀ a ∈ as, P a (f s a))
    (others : ∀ s, ∀ a ∈ as, ∀ b ∈ as, b ≠ a → P b s → P b (f s a)) (s : β) :
    ∀ a ∈ as, P a (as.foldl f s) := by
  induction as using List.reverseRecOn with
  | nil => simp
  | append_singleton as a ih =>
    have hrest := ih (fun s b hb => own s b (by simp [hb]))
      fun s b hb c hc => others s b (by simp [hb]) c (by simp [hc])
    intro b hb
    rw [List.foldl_append, List.foldl_cons, List.foldl_nil]
    by_cases hba : b = a
    · rw [hba]
      exact own _ a (by simp)
    · have hin : b ∈ as := by
        rcases List.mem_append.mp hb with hin | hlast
        · exact hin
        · exact absurd (List.mem_singleton.mp hlast) hba
      exact others _ a (by simp) b hb hba (hrest b hin)

end Loops

section Creation

variable {σ : Type*} {C : HeapFunctions σ} {live : σ → Pools U32}

def KeepsOthers (C : HeapFunctions σ) (live : σ → Pools U32) (r : Region) (s s' : σ) : Prop :=
  ∀ q ∈ shippedTable.regions, q ≠ r → live s' q.effectiveStart = live s q.effectiveStart ∧
    C.dataStart s' q.effectiveStart = C.dataStart s q.effectiveStart ∧
    C.dataEnd s' q.effectiveStart = C.dataEnd s q.effectiveStart

structure Empty (C : HeapFunctions σ) (live : σ → Pools U32) (r : Region) (s : σ) : Prop where
  blocks : live s r.effectiveStart = ∅
  data_start : r.effectiveStart ≤ C.dataStart s r.effectiveStart
  data_end : C.dataEnd s r.effectiveStart ≤ r.effectiveEnd

/-- What the creation of heaps relies on in coreinit. -/
structure Creates (C : HeapFunctions σ) (live : σ → Pools U32) : Prop where
  memset : ∀ s, ∀ r ∈ shippedTable.regions, KeepsOthers C live r s
    (C.memset s r.effectiveStart 0 (r.effectiveEnd - r.effectiveStart))
  others : ∀ s, ∀ r ∈ shippedTable.regions, KeepsOthers C live r s (C.createExpHeapEx s
    r.effectiveStart (r.effectiveEnd - r.effectiveStart) memHeapFlagUseLock).2
  empty : ∀ s, ∀ r ∈ shippedTable.regions, Empty C live r (C.createExpHeapEx s
    r.effectiveStart (r.effectiveEnd - r.effectiveStart) memHeapFlagUseLock).2

theorem KeepsOthers.trans {r : Region} {s s' s'' : σ} (h : KeepsOthers C live r s s')
    (h' : KeepsOthers C live r s' s'') : KeepsOthers C live r s s'' := by
  intro q hq hne
  obtain ⟨hlive, hstart, hend⟩ := h q hq hne
  obtain ⟨hlive', hstart', hend'⟩ := h' q hq hne
  exact ⟨hlive'.trans hlive, hstart'.trans hstart, hend'.trans hend⟩

theorem Empty.kept {r q : Region} {s s' : σ} (h : Empty C live q s) (hq : q ∈ shippedTable.regions)
    (hne : q ≠ r) (hkeeps : KeepsOthers C live r s s') : Empty C live q s' := by
  obtain ⟨hlive, hstart, hend⟩ := hkeeps q hq hne
  exact ⟨hlive.trans h.blocks, hstart ▸ h.data_start, hend ▸ h.data_end⟩

theorem createHeaps_fresh (hC : Creates C live) (s : σ) :
    Fresh C.toCoreinit live (createHeaps C s) := by
  have hempty := foldl_establishes (P := Empty C live)
    (f := fun s r => createHeap C s r.toMapping) (fun s r hr => hC.empty _ r hr)
    (fun s r hr q hq hne hold => hold.kept hq hne ((hC.memset s r hr).trans (hC.others _ r hr))) s
  rw [createHeaps, ← shippedTable_toArray, forHeaps_toArray]
  refine ⟨?_, fun r hr => (hempty r hr).data_start, fun r hr => (hempty r hr).data_end⟩
  rintro _ ⟨r, hr, rfl⟩
  exact (hempty r hr).blocks

end Creation

section Destruction

variable {σ : Type*} {C : HeapFunctions σ} {byteAt : σ → U32 → Byte} {registered : σ → Set U32}

/-- What the destruction of heaps relies on: a heap that is destroyed leaves coreinit's list, and
coreinit writes to no region whose heap is not in the list. -/
structure Destroys (C : HeapFunctions σ) (byteAt : σ → U32 → Byte) (registered : σ → Set U32) :
    Prop where
  clears : ∀ s dest size a, byteAt (C.memset s dest 0 size) a =
    if a - dest < size then 0 else byteAt s a
  keeps : ∀ s dest size, registered (C.memset s dest 0 size) = registered s
  leaves : ∀ s heap, registered (C.destroyExpHeap s heap) = registered s \ {heap}
  spares : ∀ s heap, ∀ r ∈ shippedTable.regions, r.effectiveStart ∉ registered s →
    ∀ a, r.Contains a → byteAt (C.destroyExpHeap s heap) a = byteAt s a

def Cleared (byteAt : σ → U32 → Byte) (registered : σ → Set U32) (r : Region) (s : σ) : Prop :=
  r.effectiveStart ∉ registered s ∧ ∀ a, r.Contains a → byteAt s a = 0

theorem contains_iff_sub (r : Region) (a : U32) :
    a - r.effectiveStart < r.effectiveEnd - r.effectiveStart ↔ r.Contains a := by
  have hlength := r.length_eq
  have hle : r.effectiveStart ≤ r.effectiveEnd := by
    rw [BitVec.le_def]
    omega
  rw [Region.Contains]
  bv_omega

theorem destroyHeap_clears (hC : Destroys C byteAt registered) (s : σ) (r : Region) :
    Cleared byteAt registered r (destroyHeap C s r.toMapping) := by
  refine ⟨?_, fun a ha => ?_⟩
  · rw [destroyHeap, hC.keeps, hC.leaves]
    exact fun h => h.2 rfl
  · rw [destroyHeap, hC.clears]
    exact if_pos ((contains_iff_sub r a).mpr ha)

theorem Cleared.destroyHeap (hC : Destroys C byteAt registered) {r q : Region} {s : σ}
    (h : Cleared byteAt registered q s) (hr : r ∈ shippedTable.regions)
    (hq : q ∈ shippedTable.regions) (hne : q ≠ r) :
    Cleared byteAt registered q (HeapLifetime.destroyHeap C s r.toMapping) := by
  refine ⟨?_, fun a ha => ?_⟩
  · rw [HeapLifetime.destroyHeap, hC.keeps, hC.leaves]
    exact fun hin => h.1 hin.1
  · have hout : ¬ a - r.effectiveStart < r.effectiveEnd - r.effectiveStart :=
      fun hin => hne (region_unique hq hr ha ((contains_iff_sub r a).mp hin))
    rw [HeapLifetime.destroyHeap, hC.clears]
    exact (if_neg hout).trans ((hC.spares s _ q hq h.1 a ha).trans (h.2 a ha))

/-- Destroying the heaps clears all regions, although coreinit writes to the headers of other
heaps when it takes one from its list. -/
theorem destroyHeaps_clears (hC : Destroys C byteAt registered) (s : σ) :
    ∀ r ∈ shippedTable.regions, r.effectiveStart ∉ registered (destroyHeaps C s) ∧
      ∀ a, r.Contains a → byteAt (destroyHeaps C s) a = 0 := by
  rw [destroyHeaps, ← shippedTable_toArray, forHeaps_toArray]
  exact foldl_establishes (fun s r _ => destroyHeap_clears hC s r)
    (fun s r hr q hq hne h => h.destroyHeap hC hr hq hne) s

structure LinkedState where
  memory : U32 → Byte
  registered : U32 → Bool

/-- Heaps whose headers are written to whenever another heap leaves the list. -/
def linkedHeaps : HeapFunctions LinkedState where
  allocFromExpHeapEx := fun s _ _ _ => (0, s)
  freeToExpHeap := fun s _ _ => s
  getAllocatableSizeForExpHeapEx := fun _ _ _ => 0
  findHeapContainingBlock := fun _ _ _ => 0
  dataStart := fun _ heap => heap + 0x40
  dataEnd := fun _ heap => heap + 0x44
  memset := fun s dest value size =>
    { s with memory := fun a => if a - dest < size then value.setWidth 8 else s.memory a }
  createExpHeapEx := fun s heap _ _ =>
    (heap, { s with registered := Function.update s.registered heap true })
  destroyExpHeap := fun s heap =>
    { memory := fun a =>
        if (∃ r ∈ shippedTable.regions, r.effectiveStart = a) ∧ s.registered a = true then 1
        else s.memory a
      registered := Function.update s.registered heap false }
  getTotalFreeSizeForExpHeap := fun _ _ => 0

theorem linkedHeaps_destroys :
    Destroys linkedHeaps LinkedState.memory fun s => {heap | s.registered heap = true} where
  clears := fun _ _ _ _ => rfl
  keeps := fun _ _ _ => rfl
  leaves := by
    intro s heap
    ext h
    simp only [linkedHeaps, Set.mem_ofPred_eq, Set.mem_sdiff, Set.mem_singleton_iff]
    by_cases hh : h = heap
    · simp [hh]
    · simp [hh]
  spares := by
    intro s heap r hr hunregistered a ha
    refine if_neg ?_
    rintro ⟨hstart, hregistered⟩
    obtain ⟨q, hq, rfl⟩ := hstart
    have hown : q.Contains q.effectiveStart := by
      have hlt : ∀ q ∈ shippedTable.regions, q.effectiveStart < q.effectiveEnd := by decide
      exact ⟨BitVec.le_refl _, hlt q hq⟩
    rw [region_unique hr hq ha hown] at hunregistered
    exact hunregistered hregistered

theorem linkedHeaps_cleared :
    videoRegion.effectiveStart ∉ {heap | (destroyHeaps linkedHeaps
      ⟨fun _ => 0xFF, fun _ => true⟩).registered heap = true} ∧
    (destroyHeaps linkedHeaps ⟨fun _ => 0xFF, fun _ => true⟩).memory 0x88000010 = 0 := by
  obtain ⟨hleft, hcleared⟩ := destroyHeaps_clears linkedHeaps_destroys
    ⟨fun _ => 0xFF, fun _ => true⟩ videoRegion (by simp [shippedTable])
  exact ⟨hleft, hcleared _ (by decide : (0x88000000 : U32) ≤ 0x88000010 ∧ _ < (0x88E60000 : U32))⟩

end Destruction

section FreeSpace

variable {σ : Type*} {C : HeapFunctions σ} {live : σ → Pools U32} {s : σ}

def Measures (C : HeapFunctions σ) (s : σ) : Prop :=
  ∀ r ∈ shippedTable.regions,
    (C.getTotalFreeSizeForExpHeap s r.effectiveStart).toNat +
        (C.dataStart s r.effectiveStart).toNat ≤
      (C.dataEnd s r.effectiveStart).toNat ∧
    ∀ align, C.getAllocatableSizeForExpHeapEx s r.effectiveStart align ≤
      C.getTotalFreeSizeForExpHeap s r.effectiveStart

theorem foldl_add_toNat {α : Type*} (f : α → U32) (as : List α) (res : U32)
    (hfits : res.toNat + (as.map fun a => (f a).toNat).sum < 2 ^ 32) :
    (as.foldl (fun res a => res + f a) res).toNat =
      res.toNat + (as.map fun a => (f a).toNat).sum := by
  induction as generalizing res with
  | nil => simp
  | cons a as ih =>
    rw [List.map_cons, List.sum_cons] at hfits ⊢
    have hadd : (res + f a).toNat = res.toNat + (f a).toNat :=
      BitVec.toNat_add_of_lt (by omega)
    rw [List.foldl_cons, ih _ (by omega), hadd, Nat.add_assoc]

/-- The free space is the sum over the heaps, without overflow, and no single request that the
heaps can satisfy exceeds it. -/
theorem getFreeSpace_sum (hC : Manages C.toCoreinit live) (hs : Reachable C.toCoreinit live s)
    (hmeasures : Measures C s) :
    (getFreeSpace C s).toNat = (shippedTable.regions.map fun r =>
        (C.getTotalFreeSizeForExpHeap s r.effectiveStart).toNat).sum ∧
      ∀ align, memGetAllocatableSizeEx C.toCoreinit s align ≤ getFreeSpace C s := by
  have hpaired := hs.paired hC
  have hfree (r : Region) (hr : r ∈ shippedTable.regions) :
      (C.getTotalFreeSizeForExpHeap s r.effectiveStart).toNat ≤
        (r.effectiveEnd - r.effectiveStart).toNat := by
    have hdata := (hmeasures r hr).1
    have hstart := BitVec.le_def.mp (hpaired.data_start r hr)
    have hend := BitVec.le_def.mp (hpaired.data_end r hr)
    rw [BitVec.toNat_sub_of_le (by rw [BitVec.le_def]; omega)]
    omega
  have hroom : (shippedTable.regions.map fun r =>
      (r.effectiveEnd - r.effectiveStart).toNat).sum < 2 ^ 32 := by
    decide
  have hsum : (shippedTable.regions.map fun r =>
      (C.getTotalFreeSizeForExpHeap s r.effectiveStart).toNat).sum < 2 ^ 32 :=
    (List.sum_le_sum hfree).trans_lt hroom
  have htotal : (getFreeSpace C s).toNat = (shippedTable.regions.map fun r =>
      (C.getTotalFreeSizeForExpHeap s r.effectiveStart).toNat).sum := by
    have hzero : (0 : U32).toNat = 0 := rfl
    have hfold := foldl_add_toNat (fun r : Region =>
      C.getTotalFreeSizeForExpHeap s r.effectiveStart) shippedTable.regions 0
      (by rw [hzero, Nat.zero_add]; exact hsum)
    rw [hzero, Nat.zero_add] at hfold
    rw [getFreeSpace, ← shippedTable_toArray, forHeaps_toArray]
    exact hfold
  refine ⟨htotal, fun align => ?_⟩
  have hself : memGetAllocatableSizeEx C.toCoreinit s align ≤
      allocatableSizeFrom C.toCoreinit s align 0 shippedTable.toArray := by
    rw [shippedTable_toArray]
    exact BitVec.le_refl _
  rcases (le_allocatableSizeFrom_iff 0 shippedTable.regions).mp hself with hzero | ⟨r, hr, hle⟩
  · exact BitVec.le_trans hzero (BitVec.le_def.mpr (Nat.zero_le _))
  · have hpart : (C.getTotalFreeSizeForExpHeap s r.effectiveStart).toNat ∈
        shippedTable.regions.map fun r =>
          (C.getTotalFreeSizeForExpHeap s r.effectiveStart).toNat :=
      List.mem_map_of_mem hr
    have hmember := List.single_le_sum (fun _ _ => Nat.zero_le _) _ hpart
    rw [← htotal] at hmember
    exact BitVec.le_trans hle (BitVec.le_trans ((hmeasures r hr).2 align)
      (BitVec.le_def.mpr hmember))

def oneSlotHeaps : HeapFunctions (U32 → Bool) where
  toCoreinit := oneSlot
  memset := fun s _ _ _ => s
  createExpHeapEx := fun s heap _ _ => (heap, Function.update s heap false)
  destroyExpHeap := fun s _ => s
  getTotalFreeSizeForExpHeap := fun s heap => if s heap then 0 else 4

theorem oneSlotHeaps_measures (s : U32 → Bool) : Measures oneSlotHeaps s := by
  intro r hr
  obtain ⟨hstart, hend⟩ := handle_room (mem_handles hr)
  refine ⟨?_, fun _ => BitVec.le_refl _⟩
  change (if s r.effectiveStart then (0 : U32) else 4).toNat + (r.effectiveStart + 0x40).toNat ≤
    (r.effectiveStart + 0x44).toNat
  have hzero : (0 : U32).toNat = 0 := rfl
  have hfour : (4 : U32).toNat = 4 := rfl
  rw [hstart, hend]
  split_ifs
  · omega
  · omega

theorem oneSlotHeaps_freeSpace :
    (getFreeSpace oneSlotHeaps fun _ => false).toNat = (shippedTable.regions.map fun r =>
        (oneSlotHeaps.getTotalFreeSizeForExpHeap (fun _ => false) r.effectiveStart).toNat).sum ∧
      ∀ align, memGetAllocatableSizeEx oneSlot (fun _ => false) align ≤
        getFreeSpace oneSlotHeaps fun _ => false :=
  getFreeSpace_sum oneSlot_manages (.fresh oneSlot_fresh) (oneSlotHeaps_measures _)

end FreeSpace

end MemoryMappingModule.HeapLifetime
