import MemoryMappingModule.StepLoop
import MemoryMappingModule.ByteMemory
import MemoryMappingModule.LinkedExtents
import MemoryMappingModule.MappingLayout

/-! The check of an expanded heap. Every field is read from memory where wut's
`memexpheap.h` puts it, in the order the source reads it, including the reads that
only feed an error message. The walk over one block list is a `StepLoop`; its passes
follow a path of accepted blocks, and a whole check succeeds exactly on two complete
lists of accepted blocks whose 32-bit lengths add up to the heap's. -/

namespace MemoryMappingModule.HeapCheck

open StepLoop ByteMemory LinkedExtents MappingLayout

/-- A read faults at an address that is not mapped. -/
abbrev Access := Except U32

section Fields

variable (m : Memory 32)

/-- `sizeof(MEMExpHeapBlock)` -/
def sizeofBlock : U32 := 0x14

/-! `MEMExpHeapBlock` -/

def attribs (block : U32) : Access U32 := load32 m block

def blockSize (block : U32) : Access U32 := load32 m (block + 4)

def prev (block : U32) : Access U32 := load32 m (block + 8)

def next (block : U32) : Access U32 := load32 m (block + 0xC)

def tag (block : U32) : Access (BitVec 16) := load16 m (block + 0x10)

/-! `MEMExpHeap` and its two `MEMExpHeapBlockList`s -/

def sizeofHeap : U32 := 0x54

def dataStart (heap : U32) : Access U32 := load32 m (heap + 0x18)

def dataEnd (heap : U32) : Access U32 := load32 m (heap + 0x1C)

def freeList (heap : U32) : U32 := heap + 0x40

def usedList (heap : U32) : U32 := heap + 0x48

def head (list : U32) : Access U32 := load32 m list

def tail (list : U32) : Access U32 := load32 m (list + 4)

end Fields

inductive Report where
  /-- `"%s" prev is invalid. expected %08X actual %08X` -/
  | prevInvalid (listName : String) (expected actual : U32)
  /-- `Block is not inside heap. block: %08X size %d; heap start %08X heap end %08X` -/
  | notInsideHeap (block size heapStart heapEnd : U32)
  /-- `Invalid block tag expected %04X, actual %04X` -/
  | invalidTag (expected : U32) (actual : BitVec 16)
  /-- `"%s" tail is unexpected! expected %08X, actual %08X` -/
  | tailUnexpected (listName : String) (expected actual : U32)
  /-- `heap size is unexpected! expected %08X, actual %08X` -/
  | heapSizeUnexpected (expected actual : U32)
deriving DecidableEq, Repr

structure Cursor where
  cur : U32
  prevBlock : U32
  totalSizeOut : U32
deriving DecidableEq, Repr

/-- `cur < dataStart || cur > dataEnd ||
cur + sizeof(MEMExpHeapBlock) + cur->blockSize > dataEnd` -/
def outsideHeap (m : Memory 32) (heap cur : U32) : Access Bool := do
  if cur < (← dataStart m heap) then return true
  else if cur > (← dataEnd m heap) then return true
  else return decide (cur + sizeofBlock + (← blockSize m cur) > (← dataEnd m heap))

/-- One pass of the loop of `CheckMemExpHeapBlock`. The list ends with the total so far
where the source returns true and with a report where it returns false. -/
def checkPass (m : Memory 32) (heap list blockTag : U32) (listName : String) (s : Cursor) :
    Access (Cursor ⊕ Except Report U32) :=
  if s.cur = 0 then do
    if s.prevBlock ≠ (← tail m list) then
      return .inr (.error (.tailUnexpected listName (← tail m (usedList heap)) s.prevBlock))
    else return .inr (.ok s.totalSizeOut)
  else do
    let back ← prev m s.cur
    if back ≠ s.prevBlock then return .inr (.error (.prevInvalid listName s.prevBlock back))
    else if ← outsideHeap m heap s.cur then
      return .inr (.error (.notInsideHeap s.cur (sizeofBlock + (← blockSize m s.cur))
        (← dataStart m heap) (← dataEnd m heap)))
    else
      let actual ← tag m s.cur
      if actual.zeroExtend 32 ≠ blockTag then return .inr (.error (.invalidTag blockTag actual))
      else
        let total := s.totalSizeOut + (← blockSize m s.cur) +
          (((← attribs m s.cur) >>> 8) &&& 0x7fffff) + sizeofBlock
        return .inl ⟨← next m s.cur, s.cur, total⟩

/-- `CheckMemExpHeapBlock`, in at most `passes` passes of its loop. -/
def checkMemExpHeapBlock (passes : ℕ) (m : Memory 32) (heap list blockTag : U32)
    (listName : String) (totalSizeOut : U32) : Option (Access (Except Report U32)) :=
  match head m list with
  | .error a => some (.error a)
  | .ok first => run (checkPass m heap list blockTag listName) passes ⟨first, 0, totalSizeOut⟩

def checkTotal (m : Memory 32) (heap totalSize : U32) : Access (Except Report Unit) := do
  let expected := (← dataEnd m heap) - (← dataStart m heap)
  if totalSize ≠ expected then return .error (.heapSizeUnexpected expected totalSize)
  else return .ok ()

/-- `CheckMemExpHeapCore`, with at most `passes` passes of each loop. -/
def checkMemExpHeapCore (passes : ℕ) (m : Memory 32) (heap : U32) :
    Option (Access (Except Report Unit)) :=
  match checkMemExpHeapBlock passes m heap (usedList heap) 0x5544 "used" 0 with
  | none => none
  | some (.error a) => some (.error a)
  | some (.ok (.error report)) => some (.ok (.error report))
  | some (.ok (.ok totalSize)) =>
    match checkMemExpHeapBlock passes m heap (freeList heap) 0x4652 "free" totalSize with
    | none => none
    | some (.error a) => some (.error a)
    | some (.ok (.error report)) => some (.ok (.error report))
    | some (.ok (.ok totalSize)) => some (checkTotal m heap totalSize)

structure HeapBlock where
  address : U32
  attribs : U32
  blockSize : U32
  prev : U32
  next : U32
  tag : BitVec 16
deriving DecidableEq, Repr

namespace HeapBlock

def padding (b : HeapBlock) : U32 := (b.attribs >>> 8) &&& 0x7fffff

def length (b : HeapBlock) : U32 := b.blockSize + b.padding + sizeofBlock

def low (b : HeapBlock) : ℤ := b.address.toNat - b.padding.toNat

def high (b : HeapBlock) : ℤ := b.address.toNat + sizeofBlock.toNat + b.blockSize.toNat

structure StoredIn (m : Memory 32) (b : HeapBlock) : Prop where
  attribs : HeapCheck.attribs m b.address = .ok b.attribs
  blockSize : HeapCheck.blockSize m b.address = .ok b.blockSize
  prev : HeapCheck.prev m b.address = .ok b.prev
  next : HeapCheck.next m b.address = .ok b.next
  tag : HeapCheck.tag m b.address = .ok b.tag

instance (m : Memory 32) (b : HeapBlock) : Decidable (b.StoredIn m) :=
  decidable_of_iff (HeapCheck.attribs m b.address = .ok b.attribs ∧
      HeapCheck.blockSize m b.address = .ok b.blockSize ∧
      HeapCheck.prev m b.address = .ok b.prev ∧ HeapCheck.next m b.address = .ok b.next ∧
      HeapCheck.tag m b.address = .ok b.tag)
    ⟨fun h => ⟨h.1, h.2.1, h.2.2.1, h.2.2.2.1, h.2.2.2.2⟩,
      fun h => ⟨h.attribs, h.blockSize, h.prev, h.next, h.tag⟩⟩

def InRange (start stop : U32) (b : HeapBlock) : Prop :=
  start ≤ b.address ∧ b.address ≤ stop ∧ b.address + sizeofBlock + b.blockSize ≤ stop

end HeapBlock

def blockLinks : Links HeapBlock U32 := ⟨HeapBlock.address, HeapBlock.prev, HeapBlock.next, 0⟩

/-- What a pass asks of a block before it goes on to the next one. -/
structure Accepted (m : Memory 32) (start stop blockTag : U32) (b : HeapBlock) : Prop where
  stored : b.StoredIn m
  tag : b.tag.zeroExtend 32 = blockTag
  inRange : b.InRange start stop

variable {m : Memory 32} {heap start stop list blockTag total : U32} {listName : String}
  {s u : Cursor}

section Pass

variable (hstart : dataStart m heap = .ok start) (hstop : dataEnd m heap = .ok stop)

include hstart hstop

theorem outsideHeap_of_blockSize {cur size : U32} (hsize : blockSize m cur = .ok size) :
    outsideHeap m heap cur =
      .ok (decide ¬ (start ≤ cur ∧ cur ≤ stop ∧ cur + sizeofBlock + size ≤ stop)) := by
  simp only [outsideHeap, hstart, hstop, hsize, bind, Except.bind, pure, Except.pure, gt_iff_lt]
  split_ifs with hlow hhigh
  · have : ¬ start ≤ cur := by bv_omega
    simp [this]
  · have : ¬ cur ≤ stop := by bv_omega
    simp [this]
  · have h1 : start ≤ cur := by bv_omega
    have h2 : cur ≤ stop := by bv_omega
    simp [h1, h2]

theorem outsideHeap_eq_false_iff {cur : U32} :
    outsideHeap m heap cur = .ok false ↔ ∃ size, blockSize m cur = .ok size ∧
      start ≤ cur ∧ cur ≤ stop ∧ cur + sizeofBlock + size ≤ stop := by
  cases hsize : blockSize m cur with
  | ok size => simp [outsideHeap_of_blockSize hstart hstop hsize]
  | error a =>
    simp only [outsideHeap, hstart, hstop, hsize, bind, Except.bind, pure, Except.pure]
    split_ifs <;> simp

/-- What a pass that returns has done: it reports, or it stands at the list's recorded tail,
or it has accepted the block at its cursor and goes on behind it. -/
theorem checkPass_cases {r : Cursor ⊕ Except Report U32}
    (h : checkPass m heap list blockTag listName s = .ok r) :
    (∃ report, r = .inr (.error report)) ∨
      (s.cur = 0 ∧ tail m list = .ok s.prevBlock ∧ r = .inr (.ok s.totalSizeOut)) ∨
      s.cur ≠ 0 ∧ ∃ b : HeapBlock, b.address = s.cur ∧ b.prev = s.prevBlock ∧
        Accepted m start stop blockTag b ∧
        r = .inl ⟨b.next, s.cur, s.totalSizeOut + b.length⟩ := by
  rw [checkPass] at h
  split_ifs at h with hcur
  · obtain ⟨last, hlast, h⟩ := bind_eq_ok_iff.mp h
    split_ifs at h with htail
    · obtain ⟨expected, _, h⟩ := bind_eq_ok_iff.mp h
      exact .inl ⟨_, (Except.ok.inj h).symm⟩
    · rw [← not_not.mp htail] at hlast
      exact .inr (.inl ⟨hcur, hlast, (Except.ok.inj h).symm⟩)
  · obtain ⟨back, hback, h⟩ := bind_eq_ok_iff.mp h
    split_ifs at h with hlinked
    · exact .inl ⟨_, (Except.ok.inj h).symm⟩
    obtain ⟨outside, houtside, h⟩ := bind_eq_ok_iff.mp h
    split_ifs at h with hrange
    · simp only [bind_eq_ok_iff, pure, Except.pure, Except.ok.injEq] at h
      obtain ⟨_, _, _, _, _, _, rfl⟩ := h
      exact .inl ⟨_, rfl⟩
    obtain ⟨size, hsize, hinside⟩ := (outsideHeap_eq_false_iff hstart hstop).mp
      (by rw [houtside, Bool.eq_false_iff.mpr hrange])
    obtain ⟨actual, hactual, h⟩ := bind_eq_ok_iff.mp h
    split_ifs at h with htag
    · exact .inl ⟨_, (Except.ok.inj h).symm⟩
    simp only [hsize, bind_eq_ok_iff, pure, Except.pure, Except.ok.injEq] at h
    obtain ⟨_, rfl, bits, hbits, after, hafter, rfl⟩ := h
    refine .inr (.inr ⟨hcur, ⟨s.cur, bits, size, back, after, actual⟩, rfl, not_not.mp hlinked,
      ⟨⟨hbits, hsize, hback, hafter, hactual⟩, not_not.mp htag, hinside⟩, ?_⟩)
    simp only [HeapBlock.length, HeapBlock.padding, Sum.inl.injEq, Cursor.mk.injEq, true_and]
    ac_rfl

theorem checkPass_again_iff :
    checkPass m heap list blockTag listName s = .ok (.inl u) ↔
      s.cur ≠ 0 ∧ ∃ b : HeapBlock, b.address = s.cur ∧ b.prev = s.prevBlock ∧
        Accepted m start stop blockTag b ∧ u = ⟨b.next, s.cur, s.totalSizeOut + b.length⟩ := by
  constructor
  · intro h
    obtain ⟨_, hr⟩ | ⟨_, _, hr⟩ | ⟨hcur, b, haddress, hback, haccepted, hr⟩ :=
      checkPass_cases hstart hstop h
    · cases hr
    · cases hr
    · exact ⟨hcur, b, haddress, hback, haccepted, Sum.inl.inj hr⟩
  · rintro ⟨hcur, b, haddress, hback, haccepted, rfl⟩
    obtain ⟨⟨hbits, hsize, hprev, hafter, hactual⟩, htag, hinside⟩ := haccepted
    rw [haddress] at hbits hsize hprev hafter hactual
    have hrange := (outsideHeap_eq_false_iff hstart hstop).mpr
      ⟨b.blockSize, hsize, haddress ▸ hinside⟩
    simp only [checkPass, if_neg hcur, hprev, hback, hrange, hactual, htag, hsize, hbits, hafter,
      bind, Except.bind, ne_eq, not_true_eq_false, if_false, pure, Except.pure, Except.ok.injEq,
      Sum.inl.injEq, Cursor.mk.injEq, true_and, Bool.false_eq_true]
    simp only [HeapBlock.length, HeapBlock.padding]
    ac_rfl

theorem checkPass_done_iff :
    checkPass m heap list blockTag listName s = .ok (.inr (.ok total)) ↔
      s.cur = 0 ∧ tail m list = .ok s.prevBlock ∧ s.totalSizeOut = total := by
  constructor
  · intro h
    obtain ⟨_, hr⟩ | ⟨hcur, htail, hr⟩ | ⟨_, _, _, _, _, hr⟩ := checkPass_cases hstart hstop h
    · cases hr
    · exact ⟨hcur, htail, (Except.ok.inj (Sum.inr.inj hr)).symm⟩
    · cases hr
  · rintro ⟨hcur, htail, rfl⟩
    simp only [checkPass, if_pos hcur, htail, bind, Except.bind]
    simp [pure, Except.pure]

omit hstart hstop in
theorem checkPass_prevInvalid {back : U32} (hcur : s.cur ≠ 0) (hback : prev m s.cur = .ok back)
    (hne : back ≠ s.prevBlock) : checkPass m heap list blockTag listName s =
      .ok (.inr (.error (.prevInvalid listName s.prevBlock back))) := by
  rw [checkPass, if_neg hcur, hback]
  simp only [bind, Except.bind, if_pos hne]
  rfl

end Pass

section Walk

theorem HeapBlock.StoredIn.eq {b c : HeapBlock} (hb : b.StoredIn m) (hc : c.StoredIn m)
    (haddress : b.address = c.address) : b = c := by
  obtain ⟨hattribs, hsize, hprev, hnext, htag⟩ := hb
  obtain ⟨hattribs', hsize', hprev', hnext', htag'⟩ := hc
  rw [← haddress] at hattribs' hsize' hprev' hnext' htag'
  cases b
  cases c
  simp_all

variable (hstart : dataStart m heap = .ok start) (hstop : dataEnd m heap = .ok stop)

include hstart hstop

theorem path_of_trace {states : List Cursor}
    (h : Trace (checkPass m heap list blockTag listName) s states u) :
    ∃ blocks, states.map Cursor.cur = blocks.map HeapBlock.address ∧
      blockLinks.Path s.prevBlock s.cur blocks u.prevBlock u.cur ∧
      (∀ b ∈ blocks, Accepted m start stop blockTag b) ∧
      u.totalSizeOut = s.totalSizeOut + (blocks.map HeapBlock.length).sum := by
  induction states generalizing s with
  | nil =>
    obtain rfl : s = u := h
    exact ⟨[], rfl, ⟨rfl, rfl⟩, by simp, by simp⟩
  | cons x states ih =>
    obtain ⟨rfl, v, hv, hrest⟩ := h
    obtain ⟨hcur, b, haddress, hprev, haccepted, rfl⟩ := (checkPass_again_iff hstart hstop).mp hv
    obtain ⟨blocks, hstates, hpath, hall, htotal⟩ := ih hrest
    refine ⟨b :: blocks, ?_, ⟨haddress, hcur, hprev, hpath⟩, ?_, ?_⟩
    · rw [List.map_cons, List.map_cons, hstates, haddress]
    · simpa using ⟨haccepted, hall⟩
    · rw [htotal, List.map_cons, List.sum_cons, BitVec.add_assoc]

theorem trace_of_path (list : U32) (listName : String) {blocks : List HeapBlock} {p c p' c' : U32}
    (hpath : blockLinks.Path p c blocks p' c')
    (haccepted : ∀ b ∈ blocks, Accepted m start stop blockTag b) (total : U32) :
    ∃ states, states.length = blocks.length ∧
      Trace (checkPass m heap list blockTag listName) ⟨c, p, total⟩ states
        ⟨c', p', total + (blocks.map HeapBlock.length).sum⟩ := by
  induction blocks generalizing p c total with
  | nil =>
    obtain ⟨rfl, rfl⟩ := hpath
    exact ⟨[], rfl, by simp [Trace]⟩
  | cons b blocks ih =>
    obtain ⟨haddress, hcur, hprev, hrest⟩ := hpath
    obtain ⟨states, hlen, htrace⟩ := ih hrest (fun x hx => haccepted x (by simp [hx]))
      (total + b.length)
    refine ⟨⟨c, p, total⟩ :: states, by simp [hlen], rfl, ⟨b.next, c, total + b.length⟩, ?_, ?_⟩
    · exact (checkPass_again_iff hstart hstop).mpr
        ⟨hcur, b, haddress, hprev, haccepted b (by simp), rfl⟩
    · rw [List.map_cons, List.sum_cons, ← BitVec.add_assoc]
      exact htrace

/-- No walk from a list head accepts a block twice. -/
theorem trace_nodup {states : List Cursor} {first : U32}
    (h : Trace (checkPass m heap list blockTag listName) ⟨first, 0, total⟩ states u) :
    (states.map Cursor.cur).Nodup := by
  obtain ⟨blocks, hstates, hpath, hall, _⟩ := path_of_trace hstart hstop h
  rw [hstates]
  exact path_nodup hpath fun x hx y hy haddress =>
    congrArg HeapBlock.prev ((hall x hx).stored.eq (hall y hy).stored haddress)

theorem trace_length_le {states : List Cursor} {first : U32}
    (h : Trace (checkPass m heap list blockTag listName) ⟨first, 0, total⟩ states u) :
    states.length ≤ 2 ^ 32 := by
  have hnodup := trace_nodup hstart hstop h
  have hfin := (hnodup.map (f := BitVec.toFin) fun a b => BitVec.eq_of_toFin_eq).length_le_card
  rw [List.length_map, List.length_map, Fintype.card_fin] at hfin
  exact hfin

end Walk

/-- A null-terminated list of blocks linked both ways, from its recorded head to its
recorded tail, each block with the list's tag. -/
structure HeapList (m : Memory 32) (list blockTag : U32) (blocks : List HeapBlock) : Prop where
  stored : ∀ b ∈ blocks, b.StoredIn m
  tags : ∀ b ∈ blocks, b.tag.zeroExtend 32 = blockTag
  linked : ∃ first last, head m list = .ok first ∧ tail m list = .ok last ∧
    blockLinks.Path 0 first blocks last 0

theorem HeapList.nodup {blocks : List HeapBlock} (h : HeapList m list blockTag blocks) :
    (blocks.map HeapBlock.address).Nodup := by
  obtain ⟨first, last, _, _, hpath⟩ := h.linked
  exact path_nodup hpath fun x hx y hy haddress =>
    congrArg HeapBlock.prev ((h.stored x hx).eq (h.stored y hy) haddress)

theorem HeapList.unique {list blockTag : U32} {blocks others : List HeapBlock}
    (h : HeapList m list blockTag blocks) (h' : HeapList m list blockTag others) :
    blocks = others := by
  obtain ⟨first, last, hfirst, _, hpath⟩ := h.linked
  obtain ⟨first', last', hfirst', _, hpath'⟩ := h'.linked
  obtain rfl : first = first' := Except.ok.inj (hfirst.symm.trans hfirst')
  exact path_unique hpath hpath' fun x hx y hy => (h.stored x hx).eq (h'.stored y hy)

section Lists

variable (hstart : dataStart m heap = .ok start) (hstop : dataEnd m heap = .ok stop)

include hstart hstop

/-- The check of a list returns true exactly on a complete list of blocks in range, and
adds up their lengths. -/
theorem checkMemExpHeapBlock_true_iff (listName : String) (total : U32) {passes : ℕ}
    {result : U32} :
    checkMemExpHeapBlock passes m heap list blockTag listName total = some (.ok (.ok result)) ↔
      ∃ blocks, HeapList m list blockTag blocks ∧ (∀ b ∈ blocks, b.InRange start stop) ∧
        blocks.length < passes ∧ result = total + (blocks.map HeapBlock.length).sum := by
  constructor
  · intro h
    rw [checkMemExpHeapBlock] at h
    split at h
    · simp at h
    next first hfirst =>
    obtain ⟨states, s, hlen, htrace, hlast⟩ := run_eq_some_iff.mp h
    obtain ⟨hcur, htail, rfl⟩ := (checkPass_done_iff hstart hstop).mp (run_one_eq_ok_iff.mp hlast)
    obtain ⟨blocks, hstates, hpath, hall, htotal⟩ := path_of_trace hstart hstop htrace
    have hlength := congrArg List.length hstates
    rw [List.length_map, List.length_map] at hlength
    refine ⟨blocks, ⟨fun b hb => (hall b hb).stored, fun b hb => (hall b hb).tag, ?_⟩,
      fun b hb => (hall b hb).inRange, hlength ▸ hlen, htotal⟩
    exact ⟨first, s.prevBlock, hfirst, htail, hcur ▸ hpath⟩
  · rintro ⟨blocks, ⟨hstored, htags, first, last, hfirst, hlast, hpath⟩, hrange, hlen, rfl⟩
    obtain ⟨states, hlength, htrace⟩ := trace_of_path hstart hstop list listName hpath
      (fun b hb => ⟨hstored b hb, htags b hb, hrange b hb⟩) total
    rw [checkMemExpHeapBlock, hfirst]
    refine run_eq_some_iff.mpr ⟨states, _, hlength ▸ hlen, htrace, run_one_eq_ok_iff.mpr ?_⟩
    exact (checkPass_done_iff hstart hstop).mpr ⟨rfl, hlast, rfl⟩

end Lists

theorem checkMemExpHeapBlock_mono {passes more : ℕ} {result : Access (Except Report U32)}
    (h : checkMemExpHeapBlock passes m heap list blockTag listName total = some result)
    (hle : passes ≤ more) :
    checkMemExpHeapBlock more m heap list blockTag listName total = some result := by
  rw [checkMemExpHeapBlock] at h ⊢
  split at h
  · exact h
  · exact run_mono h hle

theorem checkMemExpHeapCore_mono {passes more : ℕ} {verdict : Access (Except Report Unit)}
    (h : checkMemExpHeapCore passes m heap = some verdict) (hle : passes ≤ more) :
    checkMemExpHeapCore more m heap = some verdict := by
  rw [checkMemExpHeapCore] at h ⊢
  cases hused : checkMemExpHeapBlock passes m heap (usedList heap) 0x5544 "used" 0 with
  | none =>
    rw [hused] at h
    cases h
  | some result =>
    rw [checkMemExpHeapBlock_mono hused hle]
    rw [hused] at h
    rcases result with a | report | totalSize
    · exact h
    · exact h
    · dsimp only at h ⊢
      cases hfree : checkMemExpHeapBlock passes m heap (freeList heap) 0x4652 "free" totalSize with
      | none =>
        rw [hfree] at h
        cases h
      | some result =>
        rw [checkMemExpHeapBlock_mono hfree hle]
        rw [hfree] at h
        exact h

theorem checkTotal_true_iff {totalSize : U32} :
    checkTotal m heap totalSize = .ok (.ok ()) ↔ ∃ start stop, dataStart m heap = .ok start ∧
      dataEnd m heap = .ok stop ∧ totalSize = stop - start := by
  simp only [checkTotal, bind_eq_ok_iff]
  constructor
  · rintro ⟨stop, hstop, start, hstart, h⟩
    split_ifs at h with hsize
    · simp [pure, Except.pure] at h
    · exact ⟨start, stop, hstart, hstop, not_not.mp hsize⟩
  · rintro ⟨start, stop, hstart, hstop, rfl⟩
    exact ⟨stop, hstop, start, hstart, by simp [pure, Except.pure]⟩

theorem checkMemExpHeapCore_true_iff {passes : ℕ} :
    checkMemExpHeapCore passes m heap = some (.ok (.ok ())) ↔
      ∃ start stop used free, dataStart m heap = .ok start ∧ dataEnd m heap = .ok stop ∧
        HeapList m (usedList heap) 0x5544 used ∧ HeapList m (freeList heap) 0x4652 free ∧
        (∀ b ∈ used ++ free, b.InRange start stop) ∧
        used.length < passes ∧ free.length < passes ∧
        ((used ++ free).map HeapBlock.length).sum = stop - start := by
  constructor
  · intro h
    rw [checkMemExpHeapCore] at h
    split at h
    · simp at h
    · simp at h
    · simp at h
    next subtotal husedRun =>
    split at h
    · simp at h
    · simp at h
    · simp at h
    next totalSize hfreeRun =>
    obtain ⟨start, stop, hstart, hstop, hsize⟩ := checkTotal_true_iff.mp (Option.some.inj h)
    obtain ⟨used, hused, husedRange, husedLen, rfl⟩ :=
      (checkMemExpHeapBlock_true_iff hstart hstop _ _).mp husedRun
    obtain ⟨free, hfree, hfreeRange, hfreeLen, rfl⟩ :=
      (checkMemExpHeapBlock_true_iff hstart hstop _ _).mp hfreeRun
    refine ⟨start, stop, used, free, hstart, hstop, hused, hfree, ?_, husedLen, hfreeLen, ?_⟩
    · intro b hb
      exact (List.mem_append.mp hb).elim (husedRange b) (hfreeRange b)
    · rw [← hsize, List.map_append, List.sum_append, zero_add]
  · rintro ⟨start, stop, used, free, hstart, hstop, hused, hfree, hrange, husedLen, hfreeLen, hsize⟩
    have husedRun := (checkMemExpHeapBlock_true_iff hstart hstop "used" 0).mpr
      ⟨used, hused, fun b hb => hrange b (List.mem_append_left _ hb), husedLen, rfl⟩
    have hfreeRun := (checkMemExpHeapBlock_true_iff hstart hstop "free"
      (0 + (used.map HeapBlock.length).sum)).mpr
      ⟨free, hfree, fun b hb => hrange b (List.mem_append_right _ hb), hfreeLen, rfl⟩
    simp only [checkMemExpHeapCore, husedRun, hfreeRun]
    rw [checkTotal_true_iff.mpr ⟨start, stop, hstart, hstop, ?_⟩]
    rw [← hsize, List.map_append, List.sum_append, zero_add]

end MemoryMappingModule.HeapCheck
