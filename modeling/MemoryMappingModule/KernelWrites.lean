import MemoryMappingModule.StepLoop
import MemoryMappingModule.MappingLayout
import MemoryMappingModule.TranslatedMemory

/-! `KernelWrite`. It writes word by word: every word is loaded, put on the stack as the
parameter of `KernelWriteU32`, and copied by the kernel from there between physical
addresses. -/

namespace MemoryMappingModule.KernelWrites

open StepLoop ByteMemory TranslatedMemory MappingLayout Filter

structure Kernel where
  osEffectiveToPhysical : U32 → U32
  kernelCopyData : U32 → U32 → U32 → Contents 32 → Contents 32

variable (kern : Kernel) (slot addr data length : U32)

/-- `KernelWriteU32`, whose parameter `value` lies at `slot`. -/
def kernelWriteU32 (value : U32) (m : Contents 32) : Contents 32 :=
  let m := storeWord kern.osEffectiveToPhysical slot value m
  let dst := kern.osEffectiveToPhysical addr
  let src := kern.osEffectiveToPhysical slot
  kern.kernelCopyData dst src 4 m

/-- A pass of the loop of `KernelWrite`. -/
def kernelWritePass :
    U32 × Contents 32 → Except Empty ((U32 × Contents 32) ⊕ Contents 32)
  | (i, m) =>
    if i < length then
      .ok (.inl (i + 4, kernelWriteU32 kern slot (addr + i)
        (loadWord kern.osEffectiveToPhysical (data + i) m) m))
    else .ok (.inr m)

def kernelWrite (passes : ℕ) (m : Contents 32) : Option (Contents 32) :=
  match run (kernelWritePass kern slot addr data length) passes (0, m) with
  | some (.ok m) => some m
  | _ => none

def writtenWords (m : Contents 32) : ℕ → Contents 32
  | 0 => m
  | j + 1 =>
    let m := writtenWords m j
    kernelWriteU32 kern slot (addr + BitVec.ofNat 32 (4 * j))
      (loadWord kern.osEffectiveToPhysical (data + BitVec.ofNat 32 (4 * j)) m) m

variable {kern slot addr data length} {m : Contents 32}

def wordsState (kern : Kernel) (slot addr data : U32) (m : Contents 32) (j : ℕ) :
    U32 × Contents 32 :=
  (BitVec.ofNat 32 (4 * j), writtenWords kern slot addr data m j)

theorem kernelWritePass_of_lt {j : ℕ} (hlt : BitVec.ofNat 32 (4 * j) < length) :
    kernelWritePass kern slot addr data length (wordsState kern slot addr data m j) =
      .ok (.inl (wordsState kern slot addr data m (j + 1))) := by
  have hnext : BitVec.ofNat 32 (4 * j) + 4 = BitVec.ofNat 32 (4 * (j + 1)) := by
    rw [Nat.mul_succ, BitVec.ofNat_add]
    rfl
  simp only [kernelWritePass, wordsState, writtenWords, if_pos hlt, hnext]

theorem kernelWritePass_of_not_lt {j : ℕ} (hnot : ¬ BitVec.ofNat 32 (4 * j) < length) :
    kernelWritePass kern slot addr data length (wordsState kern slot addr data m j) =
      .ok (.inr (writtenWords kern slot addr data m j)) := by
  unfold wordsState kernelWritePass
  exact if_neg hnot

/-- A `KernelWrite` writes whole words, the last one also if the length ends within it. -/
theorem kernelWrite_eq (kern : Kernel) (slot addr data : U32) (m : Contents 32)
    (hlength : length.toNat + 4 ≤ 2 ^ 32) :
    ∀ᶠ passes in atTop, kernelWrite kern slot addr data length passes m =
      some (writtenWords kern slot addr data m ((length.toNat + 3) / 4)) := by
  have hcounter (j : ℕ) (hj : 4 * j < 2 ^ 32) : (BitVec.ofNat 32 (4 * j)).toNat = 4 * j := by
    rw [BitVec.toNat_ofNat, Nat.mod_eq_of_lt hj]
  have hagain : ∀ j < (length.toNat + 3) / 4, BitVec.ofNat 32 (4 * j) < length := by
    intro j hj
    rw [BitVec.lt_def, hcounter j (by omega)]
    omega
  have hdone : ¬ BitVec.ofNat 32 (4 * ((length.toNat + 3) / 4)) < length := by
    rw [BitVec.lt_def, hcounter _ (by omega)]
    omega
  have hrun : run (kernelWritePass kern slot addr data length) _ (0, m) = _ :=
    run_of_states (wordsState kern slot addr data m)
      (fun j hj => kernelWritePass_of_lt (hagain j hj)) (kernelWritePass_of_not_lt hdone)
      (Nat.lt_succ_self _)
  filter_upwards [eventually_run hrun] with passes hpasses
  unfold kernelWrite
  rw [hpasses]

/-- Where words may be written through a slot: the bytes of each are translated together, and
no two bytes to the same place. -/
structure Writable (kern : Kernel) (slot addr : U32) (words : ℕ) : Prop where
  injective : Set.InjOn kern.osEffectiveToPhysical (span addr (4 * words) ∪ span slot 4)
  apart : Disjoint (span addr (4 * words)) (span slot 4)
  slotTogether : Together kern.osEffectiveToPhysical slot
  addrTogether : ∀ j < words, Together kern.osEffectiveToPhysical (addr + BitVec.ofNat 32 (4 * j))

def touched (kern : Kernel) (slot addr : U32) (words : ℕ) : Set U32 :=
  kern.osEffectiveToPhysical '' (span addr (4 * words) ∪ span slot 4)

theorem touched_subset {words n k : ℕ} (h : k + words ≤ n) :
    touched kern slot (addr + BitVec.ofNat 32 (4 * k)) words ⊆ touched kern slot addr n :=
  Set.image_mono (Set.union_subset_union_left _ (span_add_subset addr (by omega)))

theorem touched_mono {words n : ℕ} (h : words ≤ n) :
    touched kern slot addr words ⊆ touched kern slot addr n :=
  Set.image_mono (Set.union_subset_union_left _ (span_mono addr (by omega)))

theorem Writable.part {words n k : ℕ} (h : Writable kern slot addr n) (hk : k + words ≤ n) :
    Writable kern slot (addr + BitVec.ofNat 32 (4 * k)) words := by
  have hsub : span (addr + BitVec.ofNat 32 (4 * k)) (4 * words) ⊆ span addr (4 * n) :=
    span_add_subset addr (by omega)
  refine ⟨h.injective.mono (Set.union_subset_union_left _ hsub), h.apart.mono_left hsub,
    h.slotTogether, ?_⟩
  intro j hj
  rw [add_ofNat_add, ← Nat.mul_add]
  exact h.addrTogether (k + j) (by omega)

theorem Writable.together (h : Writable kern slot addr 1) :
    Together kern.osEffectiveToPhysical addr := by
  simpa using h.addrTogether 0 Nat.zero_lt_one

theorem Writable.disjoint (h : Writable kern slot addr 1) :
    Disjoint (span (kern.osEffectiveToPhysical addr) 4)
      (span (kern.osEffectiveToPhysical slot) 4) := by
  rw [← h.together.image_span, ← h.slotTogether.image_span]
  exact disjoint_image h.injective h.apart

section Word

variable (hcopies : Copies kern.kernelCopyData) (h : Writable kern slot addr 1) (value : U32)
include hcopies h

theorem kernelWriteU32_differsIn (m : Contents 32) :
    DiffersIn (touched kern slot addr 1) m (kernelWriteU32 kern slot addr value m) := by
  have hstored : DiffersIn (kern.osEffectiveToPhysical '' span slot 4) m
      (storeWord kern.osEffectiveToPhysical slot value m) := storeWord_differsIn
  have hcopied := hcopies.others _ _ 4 (storeWord kern.osEffectiveToPhysical slot value m)
    h.disjoint
  change DiffersIn (span (kern.osEffectiveToPhysical addr) 4) _ _ at hcopied
  rw [← h.together.image_span] at hcopied
  exact (hstored.mono (Set.image_mono Set.subset_union_right)).trans
    (hcopied.mono (Set.image_mono Set.subset_union_left))

theorem kernelWriteU32_apply (m : Contents 32) {k : ℕ} (hk : k < 4) :
    kernelWriteU32 kern slot addr value m
      (kern.osEffectiveToPhysical (addr + BitVec.ofNat 32 k)) = byteOf value k := by
  have hcopied := hcopies.bytes _ _ 4 (storeWord kern.osEffectiveToPhysical slot value m)
    h.disjoint k hk
  rw [← h.together k hk, ← h.slotTogether k hk,
    storeWord_apply (h.injective.mono Set.subset_union_right) (by decide) hk] at hcopied
  exact hcopied

end Word

section Words

variable (hcopies : Copies kern.kernelCopyData) {words j : ℕ} (h : Writable kern slot addr words)
include hcopies h

theorem writtenWords_differsIn (hj : j ≤ words) (m : Contents 32) :
    DiffersIn (touched kern slot addr j) m (writtenWords kern slot addr data m j) := by
  induction j with
  | zero => exact DiffersIn.refl _ m
  | succ j ih =>
    have hfirst := (ih (Nat.le_of_succ_le hj)).mono (touched_mono (Nat.le_succ j))
    have hlast := kernelWriteU32_differsIn hcopies (h.part hj)
      (loadWord kern.osEffectiveToPhysical (data + BitVec.ofNat 32 (4 * j))
        (writtenWords kern slot addr data m j)) (writtenWords kern slot addr data m j)
    exact hfirst.trans (hlast.mono (touched_subset (Nat.le_refl _)))

theorem writtenWords_apply (hwords : 4 * words ≤ 2 ^ 32)
    (hsource : Disjoint (touched kern slot addr words)
      (kern.osEffectiveToPhysical '' span data (4 * words)))
    (hj : j ≤ words) (m : Contents 32) {i : ℕ} (hi : i < 4 * j) :
    writtenWords kern slot addr data m j (kern.osEffectiveToPhysical (addr + BitVec.ofNat 32 i)) =
      m (kern.osEffectiveToPhysical (data + BitVec.ofNat 32 i)) := by
  induction j generalizing i with
  | zero => omega
  | succ j ih =>
    have hword := h.part hj
    set before := writtenWords kern slot addr data m j
    set value := loadWord kern.osEffectiveToPhysical (data + BitVec.ofNat 32 (4 * j)) before
    change kernelWriteU32 kern slot _ value before _ = _
    rcases Nat.lt_or_ge i (4 * j) with hlow | hhigh
    · -- a byte of an earlier word
      have hnot : kern.osEffectiveToPhysical (addr + BitVec.ofNat 32 i) ∉
          touched kern slot (addr + BitVec.ofNat 32 (4 * j)) 1 := by
        have hin : addr + BitVec.ofNat 32 i ∈ span addr (4 * words) := add_mem_span addr (by omega)
        have hsub : span (addr + BitVec.ofNat 32 (4 * j)) (4 * 1) ⊆ span addr (4 * words) :=
          span_add_subset addr (by omega)
        rw [touched, h.injective.mem_image_iff (Set.union_subset_union_left _ hsub) (.inl hin)]
        rintro (hmem | hmem)
        · exact add_notMem_span addr hlow (by omega) hmem
        · exact Set.disjoint_left.mp h.apart hin hmem
      rw [kernelWriteU32_differsIn hcopies hword value before hnot]
      exact ih (Nat.le_of_succ_le hj) hlow
    · -- a byte of the last word, as it was loaded
      obtain ⟨k, rfl⟩ := Nat.exists_eq_add_of_le hhigh
      have hk : k < 4 := by omega
      have hbefore : DiffersIn (touched kern slot addr j) m before :=
        writtenWords_differsIn hcopies h (Nat.le_of_succ_le hj) m
      have hkept : Set.EqOn before m (kern.osEffectiveToPhysical '' span data (4 * words)) :=
        (hbefore.mono (touched_mono (Nat.le_of_succ_le hj))).kept hsource
      rw [← add_ofNat_add addr, kernelWriteU32_apply hcopies hword value before hk,
        byteOf_loadWord hk, add_ofNat_add]
      exact hkept (Set.mem_image_of_mem _ (add_mem_span data (by omega)))

end Words

structure Copied (kern : Kernel) (slot addr data : U32) (length : ℕ) (m m' : Contents 32) :
    Prop where
  bytes : ∀ i < length, m' (kern.osEffectiveToPhysical (addr + BitVec.ofNat 32 i)) =
    m (kern.osEffectiveToPhysical (data + BitVec.ofNat 32 i))
  others : DiffersIn (kern.osEffectiveToPhysical '' (span addr length ∪ span slot 4)) m m'

theorem writtenWords_copied (hcopies : Copies kern.kernelCopyData) {words : ℕ}
    (h : Writable kern slot addr words) (hwords : 4 * words ≤ 2 ^ 32)
    (hsource : Disjoint (touched kern slot addr words)
      (kern.osEffectiveToPhysical '' span data (4 * words))) (m : Contents 32) :
    Copied kern slot addr data (4 * words) m (writtenWords kern slot addr data m words) :=
  ⟨fun _ hi => writtenWords_apply hcopies h hwords hsource (Nat.le_refl _) m hi,
    writtenWords_differsIn hcopies h (Nat.le_refl _) m⟩

/-- The ranges of a `KernelWrite` and the word on the stack do not overlap, no two bytes of them
are translated to one, and the words that are written are translated as a whole. -/
structure Ranges (kern : Kernel) (slot addr data : U32) (length : ℕ) : Prop where
  injective : Set.InjOn kern.osEffectiveToPhysical
    (span addr length ∪ span slot 4 ∪ span data length)
  apart : Disjoint (span addr length) (span data length)
  addrSlot : Disjoint (span addr length) (span slot 4)
  dataSlot : Disjoint (span data length) (span slot 4)
  slotTogether : Together kern.osEffectiveToPhysical slot
  addrTogether : ∀ j, 4 * j < length →
    Together kern.osEffectiveToPhysical (addr + BitVec.ofNat 32 (4 * j))

theorem Ranges.writable {words : ℕ} (h : Ranges kern slot addr data (4 * words)) :
    Writable kern slot addr words :=
  ⟨h.injective.mono Set.subset_union_left, h.addrSlot, h.slotTogether,
    fun j hj => h.addrTogether j (by omega)⟩

theorem Ranges.source {words : ℕ} (h : Ranges kern slot addr data (4 * words)) :
    Disjoint (touched kern slot addr words)
      (kern.osEffectiveToPhysical '' span data (4 * words)) :=
  disjoint_image h.injective (Set.disjoint_union_left.mpr ⟨h.apart, h.dataSlot.symm⟩)

theorem kernelWrite_copied (hcopies : Copies kern.kernelCopyData) (hlength : 4 ∣ length.toNat)
    (h : Ranges kern slot addr data length.toNat) (m : Contents 32) :
    ∃ m', (∀ᶠ passes in atTop, kernelWrite kern slot addr data length passes m = some m') ∧
      Copied kern slot addr data length.toNat m m' := by
  have hlt := length.isLt
  obtain ⟨words, hwords⟩ := hlength
  have hrounded : (length.toNat + 3) / 4 = words := by omega
  have hwrite := kernelWrite_eq kern slot addr data m (show length.toNat + 4 ≤ 2 ^ 32 by omega)
  rw [hrounded] at hwrite
  rw [hwords] at h ⊢
  exact ⟨_, hwrite, writtenWords_copied hcopies h.writable (by omega) h.source m⟩

end MemoryMappingModule.KernelWrites
