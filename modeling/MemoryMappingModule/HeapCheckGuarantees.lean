import MemoryMappingModule.HeapCheck

/-! What a check of a heap is good for. A heap that passes consists of two lists of distinct
blocks, and of blocks that cover its area if they lie apart inside it; a heap as the allocator
keeps it passes. The walk over a list ends in any memory, without a second visit to a block, and
where the only memory is the heap's own it stays inside until a pointer leads it astray. -/

namespace MemoryMappingModule.HeapCheckGuarantees

open StepLoop ByteMemory LinkedExtents MappingLayout HeapCheck

def Inside (start stop : U32) (blocks : List HeapBlock) : Prop :=
  ∀ b ∈ blocks, (start.toNat : ℤ) ≤ b.low ∧ b.high ≤ stop.toNat

def Apart (blocks : List HeapBlock) : Prop :=
  blocks.Pairwise fun b c => Disjoint (Finset.Ico b.low b.high) (Finset.Ico c.low c.high)

def Covering (start stop : U32) (blocks : List HeapBlock) : Prop :=
  ∀ x ∈ Finset.Ico (start.toNat : ℤ) stop.toNat, ∃ b ∈ blocks, x ∈ Finset.Ico b.low b.high

section Lengths

theorem low_le_high (b : HeapBlock) : b.low ≤ b.high := by
  simp only [HeapBlock.low, HeapBlock.high]
  omega

theorem length_eq_ofInt (b : HeapBlock) : b.length = BitVec.ofInt 32 (b.high - b.low) := by
  have split : b.high - b.low =
      (b.blockSize.toNat + b.padding.toNat + sizeofBlock.toNat : ℕ) := by
    simp only [HeapBlock.low, HeapBlock.high]
    push_cast
    omega
  rw [split, BitVec.ofInt_natCast, BitVec.ofNat_add, BitVec.ofNat_add, BitVec.ofNat_toNat,
    BitVec.ofNat_toNat, BitVec.ofNat_toNat]
  simp [HeapBlock.length]

theorem sum_length (blocks : List HeapBlock) : (blocks.map HeapBlock.length).sum =
    BitVec.ofInt 32 (blocks.map fun b => b.high - b.low).sum := by
  induction blocks with
  | nil => rfl
  | cons b blocks ih =>
    rw [List.map_cons, List.sum_cons, List.map_cons, List.sum_cons, ih, length_eq_ofInt,
      BitVec.ofInt_add]

theorem sub_eq_ofInt (start stop : U32) :
    stop - start = BitVec.ofInt 32 (stop.toNat - start.toNat) := by
  rw [sub_eq_add_neg, sub_eq_add_neg, BitVec.ofInt_add, BitVec.ofInt_neg, BitVec.ofInt_natCast,
    BitVec.ofInt_natCast, BitVec.ofNat_toNat, BitVec.ofNat_toNat]
  simp

theorem eq_of_ofInt {i j : ℤ} (hi : 0 ≤ i ∧ i < 2 ^ 32) (hj : 0 ≤ j ∧ j < 2 ^ 32)
    (h : BitVec.ofInt 32 i = BitVec.ofInt 32 j) : i = j := by
  have hnat := congrArg BitVec.toNat h
  rw [BitVec.toNat_ofInt, BitVec.toNat_ofInt] at hnat
  omega

end Lengths

section Soundness

variable {m : Memory 32} {heap : U32}

theorem nodup_append {used free : List HeapBlock} (hused : HeapList m (usedList heap) 0x5544 used)
    (hfree : HeapList m (freeList heap) 0x4652 free) :
    ((used ++ free).map HeapBlock.address).Nodup := by
  rw [List.map_append, List.nodup_append]
  refine ⟨hused.nodup, hfree.nodup, ?_⟩
  rintro _ hb _ hc rfl
  obtain ⟨b, hb, haddress⟩ := List.mem_map.mp hb
  obtain ⟨c, hc, haddress'⟩ := List.mem_map.mp hc
  obtain rfl := (hused.stored b hb).eq (hfree.stored c hc) (haddress.trans haddress'.symm)
  have htag := (hused.tags b hb).symm.trans (hfree.tags b hc)
  exact absurd htag (by decide)

theorem high_le_of_inRange {start stop : U32} {b : HeapBlock} (h : b.InRange start stop)
    (fits : b.high < 2 ^ 32) : b.high ≤ stop.toNat := by
  obtain ⟨_, _, hend⟩ := h
  simp only [HeapBlock.high] at fits ⊢
  rw [BitVec.le_def, BitVec.toNat_add_of_lt (by rw [BitVec.toNat_add_of_lt] <;> omega),
    BitVec.toNat_add_of_lt (by omega)] at hend
  omega

/-- What a heap that passes the check is: two lists of distinct blocks that start inside
the area, and end in it unless the end wraps. The lengths add up to the area's in 32 bits,
so extents that happen to be inside it and apart from one another also cover it. -/
structure Checked (m : Memory 32) (heap start stop : U32) (used free : List HeapBlock) :
    Prop where
  start_eq : dataStart m heap = .ok start
  stop_eq : dataEnd m heap = .ok stop
  used_list : HeapList m (usedList heap) 0x5544 used
  free_list : HeapList m (freeList heap) 0x4652 free
  distinct : ((used ++ free).map HeapBlock.address).Nodup
  within : ∀ b ∈ used ++ free, start ≤ b.address ∧ b.address ≤ stop ∧
    (b.high < 2 ^ 32 → b.high ≤ stop.toNat)
  total : ((used ++ free).map HeapBlock.length).sum = stop - start
  covering : Inside start stop (used ++ free) → Apart (used ++ free) →
    Covering start stop (used ++ free)

theorem checkMemExpHeapCore_sound {passes : ℕ}
    (h : checkMemExpHeapCore passes m heap = some (.ok (.ok ()))) :
    ∃ start stop used free, Checked m heap start stop used free := by
  obtain ⟨start, stop, used, free, hstart, hstop, hused, hfree, hrange, _, _, hsize⟩ :=
    checkMemExpHeapCore_true_iff.mp h
  refine ⟨start, stop, used, free, hstart, hstop, hused, hfree, nodup_append hused hfree,
    fun b hb => ?_, hsize, fun hinside hapart x hx => ?_⟩
  · exact ⟨(hrange b hb).1, (hrange b hb).2.1, high_le_of_inRange (hrange b hb)⟩
  · have hx' := Finset.mem_Ico.mp hx
    have ordered : ∀ b ∈ used ++ free, b.low ≤ b.high := fun b _ => low_le_high b
    have hle := sum_le_range hinside ordered hapart (by omega)
    have hnonneg : 0 ≤ ((used ++ free).map fun b => b.high - b.low).sum :=
      card_taken ordered hapart ▸ Int.natCast_nonneg _
    have hstartLt := start.isLt
    have hstopLt := stop.isLt
    have total : ((used ++ free).map fun b => b.high - b.low).sum = stop.toNat - start.toNat := by
      apply eq_of_ofInt ⟨hnonneg, by omega⟩ ⟨by omega, by omega⟩
      rw [← sum_length, hsize, sub_eq_ofInt]
    exact covers_of_sum hinside ordered hapart total x hx

def tidyHeap : Memory 32 := Memory.ofWords
  [(0x80000018, 0x80000054), (0x8000001C, 0x8000008C), (0x80000040, 0x80000070),
    (0x80000044, 0x80000070), (0x80000048, 0x80000054), (0x8000004C, 0x80000054),
    (0x80000058, 8), (0x80000064, 0x55440000), (0x80000074, 8), (0x80000080, 0x46520000)]

theorem tidyHeap_checked :
    ∃ start stop used free, Checked tidyHeap 0x80000000 start stop used free :=
  checkMemExpHeapCore_sound (show checkMemExpHeapCore 2 tidyHeap 0x80000000 = _ by decide +kernel)

end Soundness

/-- A heap whose two used blocks overlap by twenty bytes, with as many left over at the end. -/
def overlappingHeap : Memory 32 := Memory.ofWords
  [(0x80000018, 0x80000054), (0x8000001C, 0x800000A4), (0x80000048, 0x80000054),
    (0x8000004C, 0x80000068), (0x80000058, 20), (0x80000060, 0x80000068),
    (0x80000064, 0x55440000), (0x8000006C, 20), (0x80000070, 0x80000054),
    (0x80000078, 0x55440000)]

def overlappingBlocks : List HeapBlock :=
  [⟨0x80000054, 0, 20, 0, 0x80000068, 0x5544⟩, ⟨0x80000068, 0, 20, 0x80000054, 0, 0x5544⟩]

theorem overlappingHeap_accepted :
    ¬ ∀ (passes : ℕ) (m : Memory 32) (heap start stop : U32), dataStart m heap = .ok start →
      dataEnd m heap = .ok stop → start ≤ stop →
      checkMemExpHeapCore passes m heap = some (.ok (.ok ())) →
      ∃ used free, HeapList m (usedList heap) 0x5544 used ∧
        HeapList m (freeList heap) 0x4652 free ∧
        ((used ++ free).map HeapBlock.address).Nodup ∧ Inside start stop (used ++ free) ∧
        Apart (used ++ free) ∧ Covering start stop (used ++ free) := by
  intro hall
  obtain ⟨used, free, hused, _, _, _, hapart, _⟩ := hall 3 overlappingHeap 0x80000000 0x80000054
    0x800000A4 (by decide +kernel) (by decide +kernel) (by decide) (by decide +kernel)
  have hlist : HeapList overlappingHeap (usedList 0x80000000) 0x5544 overlappingBlocks := by
    refine ⟨?_, by decide, 0x80000054, 0x80000068, by decide +kernel, by decide +kernel, ?_⟩
    · decide +kernel
    · exact ⟨rfl, by decide, rfl, rfl, by decide, rfl, rfl, rfl⟩
  obtain rfl := hused.unique hlist
  have hpair := (List.pairwise_append.mp hapart).1
  have hdisjoint := List.rel_of_pairwise_cons hpair (List.mem_singleton_self _)
  rw [Finset.disjoint_left] at hdisjoint
  apply @hdisjoint 0x80000068
  · exact Finset.mem_Ico.mpr ⟨by decide, by decide⟩
  · exact Finset.mem_Ico.mpr ⟨by decide, by decide⟩

section Completeness

/-- An expanded heap as the allocator keeps it: the extents of all its blocks, in some
order, follow one another from the start of its area to the end. -/
structure WellFormed (m : Memory 32) (heap start stop : U32) (used free : List HeapBlock) :
    Prop where
  start_eq : dataStart m heap = .ok start
  stop_eq : dataEnd m heap = .ok stop
  used_list : HeapList m (usedList heap) 0x5544 used
  free_list : HeapList m (freeList heap) 0x4652 free
  tiles : ∃ order, order.Perm (used ++ free) ∧
    Tiles HeapBlock.low HeapBlock.high start.toNat order stop.toNat

theorem inRange_of_inside {start stop : U32} {b : HeapBlock} (hlow : (start.toNat : ℤ) ≤ b.low)
    (hhigh : b.high ≤ stop.toNat) : b.InRange start stop := by
  have hstop := stop.isLt
  simp only [HeapBlock.low, HeapBlock.high] at hlow hhigh
  have hheader : (b.address + sizeofBlock).toNat = b.address.toNat + sizeofBlock.toNat :=
    BitVec.toNat_add_of_lt (by omega)
  have hend : (b.address + sizeofBlock + b.blockSize).toNat =
      b.address.toNat + sizeofBlock.toNat + b.blockSize.toNat := by
    rw [BitVec.toNat_add_of_lt (by omega), hheader]
  refine ⟨?_, ?_, ?_⟩
  · rw [BitVec.le_def]
    omega
  · rw [BitVec.le_def]
    omega
  · rw [BitVec.le_def, hend]
    omega

theorem checkMemExpHeapCore_complete {m : Memory 32} {heap start stop : U32}
    {used free : List HeapBlock} (h : WellFormed m heap start stop used free) :
    ∃ passes, checkMemExpHeapCore passes m heap = some (.ok (.ok ())) := by
  obtain ⟨order, hperm, htiles⟩ := h.tiles
  obtain ⟨_, hinside⟩ := htiles.inside fun b _ => low_le_high b
  refine ⟨used.length + free.length + 1, checkMemExpHeapCore_true_iff.mpr
    ⟨start, stop, used, free, h.start_eq, h.stop_eq, h.used_list, h.free_list, fun b hb => ?_,
      by omega, by omega, ?_⟩⟩
  · obtain ⟨hlow, hhigh⟩ := hinside b (hperm.mem_iff.mpr hb)
    exact inRange_of_inside hlow hhigh
  · rw [sum_length, ← (hperm.map _).sum_eq, htiles.sum, sub_eq_ofInt]

def tidyUsed : HeapBlock := ⟨0x80000054, 0, 8, 0, 0, 0x5544⟩

def tidyFree : HeapBlock := ⟨0x80000070, 0, 8, 0, 0, 0x4652⟩

theorem tidyHeap_wellFormed :
    WellFormed tidyHeap 0x80000000 0x80000054 0x8000008C [tidyUsed] [tidyFree] := by
  have hused : tidyUsed.StoredIn tidyHeap := by decide +kernel
  have hfree : tidyFree.StoredIn tidyHeap := by decide +kernel
  have husedList : HeapList tidyHeap (usedList 0x80000000) 0x5544 [tidyUsed] :=
    ⟨by simpa using hused, by decide, 0x80000054, 0x80000054, by decide +kernel,
      by decide +kernel, rfl, by decide, rfl, rfl, rfl⟩
  have hfreeList : HeapList tidyHeap (freeList 0x80000000) 0x4652 [tidyFree] :=
    ⟨by simpa using hfree, by decide, 0x80000070, 0x80000070, by decide +kernel,
      by decide +kernel, rfl, by decide, rfl, rfl, rfl⟩
  exact ⟨by decide +kernel, by decide +kernel, husedList, hfreeList, [tidyUsed, tidyFree],
    List.Perm.refl _, by decide, by decide, (by decide : tidyFree.high = (0x8000008C : U32).toNat)⟩

theorem tidyHeap_accepted :
    ∃ passes, checkMemExpHeapCore passes tidyHeap 0x80000000 = some (.ok (.ok ())) :=
  checkMemExpHeapCore_complete tidyHeap_wellFormed

end Completeness

section Reads

variable {m : Memory 32} {heap start stop list blockTag total : U32} {listName : String}
  {s : Cursor}

/-- The fields that a pass at `c`, coming from `p`, has to read can be read. -/
def Decides (m : Memory 32) (start stop blockTag p c : U32) : Prop :=
  ∃ back, prev m c = .ok back ∧ (back = p → ∃ size, blockSize m c = .ok size ∧
    (start ≤ c ∧ c ≤ stop ∧ c + sizeofBlock + size ≤ stop → ∃ actual, tag m c = .ok actual ∧
      (actual.zeroExtend 32 = blockTag → Returns (attribs m c) ∧ Returns (next m c))))

variable (hstart : dataStart m heap = .ok start) (hstop : dataEnd m heap = .ok stop)

theorem returns_pure {ε α : Type} (v : α) : Returns (pure v : Except ε α) := ⟨v, rfl⟩

include hstart hstop

theorem returns_checkPass_iff (hcur : s.cur ≠ 0) :
    Returns (checkPass m heap list blockTag listName s) ↔
      Decides m start stop blockTag s.prevBlock s.cur := by
  rw [checkPass, if_neg hcur, Decides, returns_bind_iff]
  refine exists_congr fun back => and_congr_right fun hback => ?_
  by_cases hlinked : back = s.prevBlock
  · rw [if_neg (not_not.mpr hlinked)]
    simp only [hlinked, true_implies]
    cases hsize : blockSize m s.cur with
    | error a =>
      refine iff_of_false ?_ (by simp)
      simp only [outsideHeap, hstart, hstop, hsize, bind, Except.bind]
      split_ifs <;> simp [Returns, pure, Except.pure]
    | ok size =>
      rw [outsideHeap_of_blockSize hstart hstop hsize]
      simp only [hstart, hstop, bind, Except.bind, Except.ok.injEq, exists_eq_left']
      by_cases hrange : start ≤ s.cur ∧ s.cur ≤ stop ∧ s.cur + sizeofBlock + size ≤ stop
      · simp only [hrange]
        cases htag : tag m s.cur with
        | error a => simp [Returns]
        | ok actual =>
          by_cases hactual : actual.zeroExtend 32 = blockTag
          · cases attribs m s.cur <;> cases next m s.cur <;>
              simp [hactual, Returns, pure, Except.pure]
          · simp [hactual, Returns, pure, Except.pure]
      · simp [hrange, Returns, pure, Except.pure]
  · rw [if_pos hlinked]
    exact iff_of_true (returns_pure _) fun heq => absurd heq hlinked

omit hstart hstop in
theorem returns_checkPass_null (htail : Returns (tail m list))
    (htailUsed : Returns (tail m (usedList heap))) (hcur : s.cur = 0) :
    Returns (checkPass m heap list blockTag listName s) := by
  obtain ⟨last, hlast⟩ := htail
  obtain ⟨lastUsed, hlastUsed⟩ := htailUsed
  simp only [checkPass, if_pos hcur, hlast, hlastUsed, bind, Except.bind]
  split_ifs
  · exact returns_pure _
  · exact returns_pure _

/-- The walk over a list comes to a block at `c`, from the accepted block at `p`. -/
def Follows (m : Memory 32) (start stop list blockTag p c : U32) : Prop :=
  ∃ first blocks, head m list = .ok first ∧ blockLinks.Path 0 first blocks p c ∧
    (∀ b ∈ blocks, Accepted m start stop blockTag b) ∧ c ≠ 0

theorem checkMemExpHeapBlock_isSome (list blockTag : U32) (listName : String) (total : U32) :
    ∃ result, checkMemExpHeapBlock (2 ^ 32 + 1) m heap list blockTag listName total =
      some result := by
  rw [checkMemExpHeapBlock]
  cases head m list with
  | error a => exact ⟨_, rfl⟩
  | ok first =>
    exact exists_run_of_bounded fun states s htrace => trace_length_le hstart hstop htrace

/-- A walk returns exactly when every block it comes to can be read as far as needed. -/
theorem returns_checkMemExpHeapBlock_iff (blockTag : U32) (listName : String) (total : U32)
    (hhead : Returns (head m list)) (htail : Returns (tail m list))
    (htailUsed : Returns (tail m (usedList heap))) :
    (∃ passes result, checkMemExpHeapBlock passes m heap list blockTag listName total =
        some (.ok result)) ↔
      ∀ p c, Follows m start stop list blockTag p c → Decides m start stop blockTag p c := by
  obtain ⟨first, hfirst⟩ := hhead
  constructor
  · rintro ⟨passes, result, hrun⟩ p c ⟨first', blocks, hfirst', hpath, haccepted, hc⟩
    obtain rfl : first = first' := Except.ok.inj (hfirst.symm.trans hfirst')
    rw [checkMemExpHeapBlock, hfirst] at hrun
    obtain ⟨states, _, htrace⟩ := trace_of_path hstart hstop list listName hpath haccepted total
    have hlater := run_mono hrun (Nat.le_add_left passes states.length)
    rw [run_of_trace htrace] at hlater
    rw [← returns_checkPass_iff hstart hstop (s := ⟨c, p, _⟩) hc]
    by_contra hfault
    obtain ⟨a, hfault⟩ := not_returns_iff.mp hfault
    have hmore := run_mono hlater (Nat.le_succ passes)
    rw [run_fault hfault] at hmore
    simp at hmore
  · intro hdecides
    obtain ⟨result, hrun⟩ :=
      checkMemExpHeapBlock_isSome hstart hstop list blockTag listName total
    cases result with
    | ok result => exact ⟨_, result, hrun⟩
    | error a =>
      rw [checkMemExpHeapBlock, hfirst] at hrun
      obtain ⟨states, s, _, htrace, hlast⟩ := run_eq_some_iff.mp hrun
      rw [run_one_eq_error_iff] at hlast
      obtain ⟨blocks, _, hpath, haccepted, _⟩ := path_of_trace hstart hstop htrace
      have hreturns : Returns (checkPass m heap list blockTag listName s) := by
        by_cases hcur : s.cur = 0
        · exact returns_checkPass_null htail htailUsed hcur
        · exact (returns_checkPass_iff hstart hstop hcur).mpr
            (hdecides _ _ ⟨first, blocks, hfirst, hpath, haccepted, hcur⟩)
      exact absurd hreturns (not_returns_iff.mpr ⟨a, hlast⟩)

end Reads

section Termination

/-- The pointer after `k` next pointers from the head of a list. -/
def follow (m : Memory 32) (list : U32) : ℕ → Access U32
  | 0 => head m list
  | k + 1 => do next m (← follow m list k)

variable {m : Memory 32} {heap start stop list blockTag total first : U32} {listName : String}
  {s : Cursor}

theorem follow_of_path {p c : U32} {blocks : List HeapBlock} (hfirst : head m list = .ok first)
    (hpath : blockLinks.Path 0 first blocks p c) (hstored : ∀ b ∈ blocks, b.StoredIn m) :
    follow m list blocks.length = .ok c := by
  induction blocks using List.reverseRecOn generalizing p c with
  | nil =>
    obtain ⟨_, rfl⟩ := hpath
    exact hfirst
  | append_singleton blocks b ih =>
    obtain ⟨q, d, hinit, haddress, _, _, _, rfl⟩ := path_snoc.mp hpath
    have hbefore := ih hinit fun x hx => hstored x (List.mem_append_left _ hx)
    rw [List.length_append, List.length_singleton, follow, hbefore, ← haddress]
    exact (hstored b (by simp)).next

variable (hstart : dataStart m heap = .ok start) (hstop : dataEnd m heap = .ok stop)
include hstart hstop

theorem follow_of_trace (hfirst : head m list = .ok first) {states : List Cursor}
    (htrace : Trace (checkPass m heap list blockTag listName) ⟨first, 0, total⟩ states s) :
    follow m list states.length = .ok s.cur := by
  obtain ⟨blocks, hstates, hpath, haccepted, _⟩ := path_of_trace hstart hstop htrace
  have hlength := congrArg List.length hstates
  rw [List.length_map, List.length_map] at hlength
  rw [hlength]
  exact follow_of_path hfirst hpath fun b hb => (haccepted b hb).stored

/-- Back at a block that was accepted, a walk ends there. -/
theorem checkPass_again_reports {states : List Cursor}
    (htrace : Trace (checkPass m heap list blockTag listName) ⟨first, 0, total⟩ states s)
    (hagain : s.cur ∈ states.map Cursor.cur) :
    ∃ report, checkPass m heap list blockTag listName s = .ok (.inr (.error report)) := by
  obtain ⟨blocks, hstates, hpath, haccepted, _⟩ := path_of_trace hstart hstop htrace
  rw [hstates] at hagain
  obtain ⟨b, hb, haddress⟩ := List.mem_map.mp hagain
  have hcur : s.cur ≠ 0 := haddress ▸ path_address_ne hpath hb
  have hback : b.prev ≠ s.prevBlock := path_back_ne hpath
    (fun x hx y hy hxy => congrArg HeapBlock.prev
      ((haccepted x hx).stored.eq (haccepted y hy).stored hxy)) hb haddress
  have hprev := (haccepted b hb).stored.prev
  rw [haddress] at hprev
  exact ⟨_, checkPass_prevInvalid hcur hprev hback⟩

theorem error_of_endless {passes : ℕ} {result : Except Report U32}
    (hrun : checkMemExpHeapBlock passes m heap list blockTag listName total = some (.ok result))
    (hendless : ∀ k, follow m list k ≠ .ok 0) : ∃ report, result = .error report := by
  cases result with
  | error report => exact ⟨report, rfl⟩
  | ok sum =>
    obtain ⟨blocks, hlist, _⟩ :=
      (checkMemExpHeapBlock_true_iff hstart hstop listName total).mp hrun
    obtain ⟨first', last, hfirst', _, hpath⟩ := hlist.linked
    exact absurd (follow_of_path hfirst' hpath hlist.stored) (hendless _)

omit hstart hstop

/-- The check of a list in any memory: it goes along the next pointers, accepts no block twice,
turns down a block it has accepted before, and ends. It returns false on a list that does not. -/
theorem checkMemExpHeapBlock_ends (bytes : U32 → Byte) (heap list blockTag : U32)
    (listName : String) (total : U32) :
    ∃ first, head (Memory.ofBytes bytes) list = .ok first ∧
      (∀ states s, Trace (checkPass (Memory.ofBytes bytes) heap list blockTag listName)
          ⟨first, 0, total⟩ states s →
        (states.map Cursor.cur).Nodup ∧
          follow (Memory.ofBytes bytes) list states.length = .ok s.cur ∧
          (s.cur ∈ states.map Cursor.cur → ∃ report, checkPass (Memory.ofBytes bytes) heap list
            blockTag listName s = .ok (.inr (.error report)))) ∧
      ∃ result, checkMemExpHeapBlock (2 ^ 32 + 1) (Memory.ofBytes bytes) heap list blockTag
          listName total = some (.ok result) ∧
        ((∀ k, follow (Memory.ofBytes bytes) list k ≠ .ok 0) →
          ∃ report, result = .error report) := by
  have word (a : U32) : Returns (load32 (Memory.ofBytes bytes) a) :=
    returns_load32_iff.mpr (Mapped.ofBytes bytes a 4)
  have half (a : U32) : Returns (load16 (Memory.ofBytes bytes) a) :=
    returns_load16_iff.mpr (Mapped.ofBytes bytes a 2)
  obtain ⟨start, hstart⟩ := word (heap + 0x18)
  obtain ⟨stop, hstop⟩ := word (heap + 0x1C)
  obtain ⟨first, hfirst⟩ := word list
  have hdecides (p c : U32) :
      Decides (Memory.ofBytes bytes) start stop blockTag p c := by
    obtain ⟨back, hback⟩ := word (c + 8)
    obtain ⟨size, hsize⟩ := word (c + 4)
    obtain ⟨actual, hactual⟩ := half (c + 0x10)
    exact ⟨back, hback, fun _ => ⟨size, hsize, fun _ => ⟨actual, hactual, fun _ =>
      ⟨word c, word (c + 0xC)⟩⟩⟩⟩
  refine ⟨first, hfirst, fun states s htrace => ⟨trace_nodup hstart hstop htrace,
    follow_of_trace hstart hstop hfirst htrace, checkPass_again_reports hstart hstop htrace⟩, ?_⟩
  obtain ⟨passes, result, hrun⟩ := (returns_checkMemExpHeapBlock_iff hstart hstop blockTag
    listName total ⟨first, hfirst⟩ (word _) (word _)).mpr fun p c _ => hdecides p c
  obtain ⟨other, hother⟩ := checkMemExpHeapBlock_isSome hstart hstop list blockTag listName total
  have hmore := checkMemExpHeapBlock_mono hrun (Nat.le_add_right passes (2 ^ 32 + 1))
  rw [checkMemExpHeapBlock_mono hother (Nat.le_add_left _ passes)] at hmore
  exact ⟨result, hother.trans hmore, error_of_endless hstart hstop hrun⟩

end Termination

section Confinement

def InHeap (heap start stop a : U32) : Prop := a - heap < sizeofHeap ∨ start ≤ a ∧ a < stop

instance (heap start stop a : U32) : Decidable (InHeap heap start stop a) :=
  inferInstanceAs (Decidable (_ ∨ _))

def Covers (heap start stop a : U32) (n : ℕ) : Prop :=
  ∀ i < n, InHeap heap start stop (a + BitVec.ofNat 32 i)

instance (heap start stop a : U32) (n : ℕ) : Decidable (Covers heap start stop a n) :=
  inferInstanceAs (Decidable (∀ i < n, _))

/-- Memory that is mapped on the heap's header and data area only. -/
structure HeapOnly (m : Memory 32) (heap start stop : U32) : Prop where
  start_eq : dataStart m heap = .ok start
  stop_eq : dataEnd m heap = .ok stop
  mapped : ∀ a, (m a).isSome ↔ InHeap heap start stop a

/-- A pointer from which the check reads past the heap: the back link is not in the heap, or
it leads back and the size is not in the heap, or the block is in range as far as the check
can tell and its tag, or behind the right tag one of the last two fields, is not. -/
def Stray (m : Memory 32) (heap start stop blockTag p c : U32) : Prop :=
  ¬ Covers heap start stop (c + 8) 4 ∨ prev m c = .ok p ∧
    (¬ Covers heap start stop (c + 4) 4 ∨ ∃ size, blockSize m c = .ok size ∧
      (start ≤ c ∧ c ≤ stop ∧ c + sizeofBlock + size ≤ stop) ∧
      (¬ Covers heap start stop (c + 0x10) 2 ∨ ∃ actual, tag m c = .ok actual ∧
        actual.zeroExtend 32 = blockTag ∧
        (¬ Covers heap start stop c 4 ∨ ¬ Covers heap start stop (c + 0xC) 4)))

variable {m : Memory 32} {heap start stop : U32}

theorem HeapOnly.returns_load32_iff (h : HeapOnly m heap start stop) (a : U32) :
    Returns (load32 m a) ↔ Covers heap start stop a 4 := by
  rw [ByteMemory.returns_load32_iff]
  exact forall₂_congr fun i _ => h.mapped _

theorem HeapOnly.returns_load16_iff (h : HeapOnly m heap start stop) (a : U32) :
    Returns (load16 m a) ↔ Covers heap start stop a 2 := by
  rw [ByteMemory.returns_load16_iff]
  exact forall₂_congr fun i _ => h.mapped _

theorem HeapOnly.returns_header (h : HeapOnly m heap start stop) {o : U32} (ho : o ≤ 0x50) :
    Returns (load32 m (heap + o)) := by
  rw [h.returns_load32_iff]
  intro i hi
  have hoffset : heap + o + BitVec.ofNat 32 i - heap = o + BitVec.ofNat 32 i := by
    rw [BitVec.add_assoc, BitVec.add_comm heap, BitVec.add_sub_cancel]
  refine Or.inl ?_
  rw [hoffset, sizeofHeap]
  bv_omega

theorem HeapOnly.decides_iff (h : HeapOnly m heap start stop) (blockTag p c : U32) :
    Decides m start stop blockTag p c ↔ ¬ Stray m heap start stop blockTag p c := by
  have hprev : Returns (prev m c) ↔ Covers heap start stop (c + 8) 4 := h.returns_load32_iff _
  have hsize : Returns (blockSize m c) ↔ Covers heap start stop (c + 4) 4 := h.returns_load32_iff _
  have htag : Returns (tag m c) ↔ Covers heap start stop (c + 0x10) 2 := h.returns_load16_iff _
  have hattribs : Returns (attribs m c) ↔ Covers heap start stop c 4 := h.returns_load32_iff _
  have hnext : Returns (next m c) ↔ Covers heap start stop (c + 0xC) 4 := h.returns_load32_iff _
  rw [Decides, Stray, ← hprev, ← hsize, ← htag, ← hattribs, ← hnext]
  cases prev m c with
  | error a => simp [Returns]
  | ok back =>
    by_cases hback : back = p
    · cases blockSize m c with
      | error a => simp [Returns, hback]
      | ok size =>
        cases tag m c with
        | error a => simp [Returns, hback]
        | ok actual =>
          by_cases hactual : actual.zeroExtend 32 = blockTag
          · generalize Returns (attribs m c) = readsAttribs
            generalize Returns (next m c) = readsNext
            simp [Returns, hback, hactual]
          · simp [Returns, hback, hactual]
    · simp [Returns, hback]

theorem HeapOnly.returns_block_iff (h : HeapOnly m heap start stop) (list : U32) {o : U32}
    (hlist : list = heap + o) (ho : o ≤ 0x4C) (blockTag : U32) (listName : String) (total : U32) :
    (∃ passes result, checkMemExpHeapBlock passes m heap list blockTag listName total =
        some (.ok result)) ↔
      ∀ p c, Follows m start stop list blockTag p c → ¬ Stray m heap start stop blockTag p c := by
  have hhead : Returns (head m list) := by
    rw [hlist]
    exact h.returns_header (by bv_omega)
  have htail : Returns (tail m list) := by
    rw [hlist, tail, BitVec.add_assoc]
    exact h.returns_header (by bv_omega)
  have htailUsed : Returns (tail m (usedList heap)) := by
    rw [tail, usedList, BitVec.add_assoc]
    exact h.returns_header (by decide)
  rw [returns_checkMemExpHeapBlock_iff h.start_eq h.stop_eq blockTag listName total hhead htail
    htailUsed]
  exact forall₂_congr fun p c => imp_congr_right fun _ => h.decides_iff blockTag p c

theorem returns_checkTotal (totalSize : U32) (hstart : dataStart m heap = .ok start)
    (hstop : dataEnd m heap = .ok stop) : ∃ result, checkTotal m heap totalSize = .ok result := by
  simp only [checkTotal, hstart, hstop, bind, Except.bind]
  split_ifs
  · exact ⟨_, rfl⟩
  · exact ⟨_, rfl⟩

/-- The check reads nothing but the heap exactly when no pointer it follows is stray: none
of the used list, and, if the used list is accepted to its end, none of the free list. -/
theorem checkMemExpHeapCore_confined_iff (h : HeapOnly m heap start stop) :
    (∃ passes result, checkMemExpHeapCore passes m heap = some (.ok result)) ↔
      (∀ p c, Follows m start stop (usedList heap) 0x5544 p c →
        ¬ Stray m heap start stop 0x5544 p c) ∧
      ((∃ used, HeapList m (usedList heap) 0x5544 used ∧ ∀ b ∈ used, b.InRange start stop) →
        ∀ p c, Follows m start stop (freeList heap) 0x4652 p c →
          ¬ Stray m heap start stop 0x4652 p c) := by
  have husedIff := h.returns_block_iff (usedList heap) rfl (by decide) 0x5544 "used" 0
  have hfreeIff (total : U32) :=
    h.returns_block_iff (freeList heap) rfl (by decide) 0x4652 "free" total
  constructor
  · rintro ⟨passes, result, hrun⟩
    rw [checkMemExpHeapCore] at hrun
    split at hrun
    · simp at hrun
    · simp at hrun
    · next report hused =>
      refine ⟨husedIff.mp ⟨passes, _, hused⟩, ?_⟩
      rintro ⟨used, hlist, hrange⟩
      have haccepts := (checkMemExpHeapBlock_true_iff h.start_eq h.stop_eq "used" 0).mpr
        ⟨used, hlist, hrange, Nat.lt_succ_self _, rfl⟩
      have hmore := checkMemExpHeapBlock_mono hused (Nat.le_add_right passes (used.length + 1))
      rw [checkMemExpHeapBlock_mono haccepts (Nat.le_add_left _ passes)] at hmore
      simp at hmore
    · next total hused =>
      refine ⟨husedIff.mp ⟨passes, _, hused⟩, fun _ => (hfreeIff total).mp ?_⟩
      split at hrun
      · simp at hrun
      · simp at hrun
      · next report hfree => exact ⟨passes, _, hfree⟩
      · next total' hfree => exact ⟨passes, _, hfree⟩
  · rintro ⟨hused, hfree⟩
    obtain ⟨passes, result, husedRun⟩ := husedIff.mpr hused
    cases result with
    | error report => exact ⟨passes, .error report, by rw [checkMemExpHeapCore, husedRun]⟩
    | ok total =>
      obtain ⟨used, hlist, hrange, _⟩ :=
        (checkMemExpHeapBlock_true_iff h.start_eq h.stop_eq "used" 0).mp husedRun
      obtain ⟨passes', result, hfreeRun⟩ := (hfreeIff total).mpr (hfree ⟨used, hlist, hrange⟩)
      have husedRun := checkMemExpHeapBlock_mono husedRun (Nat.le_add_right passes passes')
      have hfreeRun := checkMemExpHeapBlock_mono hfreeRun (Nat.le_add_left passes' passes)
      refine ⟨passes + passes', ?_⟩
      simp only [checkMemExpHeapCore, husedRun, hfreeRun]
      cases result with
      | error report => exact ⟨_, rfl⟩
      | ok total =>
        obtain ⟨result, hresult⟩ := returns_checkTotal total h.start_eq h.stop_eq
        exact ⟨result, congrArg some hresult⟩

def smallHeap (words : List (U32 × U32)) : Memory 32 :=
  (Memory.ofWords ((0x80000018, 0x80000054) :: (0x8000001C, 0x8000008C) :: words)).restrict
    (InHeap 0x80000000 0x80000054 0x8000008C)

theorem smallHeap_mapped (words : List (U32 × U32)) (a : U32) :
    (smallHeap words a).isSome ↔ InHeap 0x80000000 0x80000054 0x8000008C a := by
  rw [smallHeap, Memory.restrict]
  split_ifs with ha
  · exact iff_of_true rfl ha
  · exact iff_of_false (by simp) ha

/-- The head of the used list points out of the heap, and its back link is read from there. -/
theorem strayHead_faults :
    ¬ ∀ (m : Memory 32) (heap start stop : U32), HeapOnly m heap start stop →
      ∃ passes result, checkMemExpHeapCore passes m heap = some (.ok result) := by
  intro hall
  obtain ⟨passes, result, hrun⟩ := hall (smallHeap [(0x80000048, 0x10000000)]) 0x80000000
    0x80000054 0x8000008C ⟨by decide +kernel, by decide +kernel, smallHeap_mapped _⟩
  have hhead : head (smallHeap [(0x80000048, 0x10000000)]) (usedList 0x80000000) =
      .ok 0x10000000 := by decide +kernel
  have hpass : checkPass (smallHeap [(0x80000048, 0x10000000)]) 0x80000000 (usedList 0x80000000)
      0x5544 "used" ⟨0x10000000, 0, 0⟩ = .error 0x10000008 := by decide +kernel
  rw [checkMemExpHeapCore, checkMemExpHeapBlock, hhead] at hrun
  cases passes with
  | zero => simp [run] at hrun
  | succ passes => simp only [run_fault hpass, Option.some.injEq, reduceCtorEq] at hrun

/-- The head of the used list points to a block whose header sticks out of the heap; its
size makes the range test wrap, and its tag is read behind the end. -/
theorem straddlingHead_faults :
    ¬ ∃ passes result, checkMemExpHeapCore passes
      (smallHeap [(0x80000048, 0x80000080), (0x80000084, 0xFFFFFFF8)]) 0x80000000 =
        some (.ok result) := by
  rw [checkMemExpHeapCore_confined_iff
    ⟨by decide +kernel, by decide +kernel, smallHeap_mapped _⟩]
  rintro ⟨hused, _⟩
  refine hused 0 0x80000080 ⟨0x80000080, [], by decide +kernel, ⟨rfl, rfl⟩, by simp, by decide⟩ ?_
  refine Or.inr ⟨by decide +kernel, Or.inr ⟨0xFFFFFFF8, by decide +kernel, by decide, Or.inl ?_⟩⟩
  decide

end Confinement

end MemoryMappingModule.HeapCheckGuarantees
