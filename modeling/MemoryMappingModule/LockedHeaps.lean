import MemoryMappingModule.HeapCheckGuarantees
import MemoryMappingModule.Locks

/-! `MemoryMapping_checkHeaps` while other threads use the heaps. A check reads a heap's tag and
flags, takes the heap's lock if the flags say so, walks its lists, one read or pass after the other,
and releases the lock afterwards. Other threads may be anywhere in a change of a heap, as long as
they hold its lock and keep its tag and flags, which coreinit sets once: a check never sees such a
change, and what it finds is what `CheckMemExpHeap` finds on the heap at rest. -/

namespace MemoryMappingModule.LockedHeaps

open StepLoop ByteMemory MappingLayout HeapCheck HeapCheckGuarantees Interleaving Locks

/-- `MEM_EXPANDED_HEAP_TAG` -/
def memExpandedHeapTag : U32 := 0x45585048

/-- `MEM_HEAP_FLAG_USE_LOCK` -/
def memHeapFlagUseLock : U32 := 1 <<< 2

/-! `MEMHeapHeader` -/

def headerTag (m : Memory 32) (heap : U32) : Access U32 := load32 m heap

def headerFlags (m : Memory 32) (heap : U32) : Access U32 := load32 m (heap + 0x30)

inductive Walk where
  | usedHead
  | used (s : Cursor)
  | freeHead (totalSize : U32)
  | free (s : Cursor)
  | total (totalSize : U32)
deriving DecidableEq, Repr

section Program

/-- A step of `CheckMemExpHeapCore`: the head of a list, a pass over a list, or the comparison of
the sizes. -/
def corePass (m : Memory 32) (heap : U32) : Walk → Access (Walk ⊕ Except Report Unit)
  | .usedHead => do return .inl (.used ⟨← head m (usedList heap), 0, 0⟩)
  | .used s => do
    match ← checkPass m heap (usedList heap) 0x5544 "used" s with
    | .inl s => return .inl (.used s)
    | .inr (.error report) => return .inr (.error report)
    | .inr (.ok totalSize) => return .inl (.freeHead totalSize)
  | .freeHead totalSize => do return .inl (.free ⟨← head m (freeList heap), 0, totalSize⟩)
  | .free s => do
    match ← checkPass m heap (freeList heap) 0x4652 "free" s with
    | .inl s => return .inl (.free s)
    | .inr (.error report) => return .inr (.error report)
    | .inr (.ok totalSize) => return .inl (.total totalSize)
  | .total totalSize => do return .inr (← checkTotal m heap totalSize)

abbrev Verdict := Access (Except Report Unit)

inductive Outcome where
  /-- `Invalid heap handle. - %08X` -/
  | invalidHandle (tag : U32)
  | checked (result : Except Report Unit)
deriving DecidableEq

/-- `CheckMemExpHeap` on memory that nobody else uses. -/
def checkMemExpHeap (passes : ℕ) (m : Memory 32) (heap : U32) : Option (Access Outcome) :=
  match headerTag m heap with
  | .error a => some (.error a)
  | .ok tag =>
    if tag ≠ memExpandedHeapTag then some (.ok (.invalidHandle tag))
    else
      match headerFlags m heap with
      | .error a => some (.error a)
      | .ok _ => (checkMemExpHeapCore passes m heap).map (Except.map .checked)

inductive Phase where
  | outside
  | tagged
  | locking
  | inside (walk : Walk)
  | checked (result : Except Report Unit)
  | unlocking (result : Except Report Unit)
  | faulted (address : U32)

def afterPass : Access (Walk ⊕ Except Report Unit) → Phase
  | .error a => .faulted a
  | .ok (.inr result) => .checked result
  | .ok (.inl walk) => .inside walk

/-- The local variables of `MemoryMapping_checkHeaps`: the heaps not yet done, where it is in the
check of the first of them, and what it found. -/
structure Checker where
  heaps : List U32
  phase : Phase
  outcomes : List (U32 × Outcome)

def handlesOf : List MemoryMapping → List U32
  | [] => []
  | m :: rest =>
    match m.physicalAddresses with
    | none => []
    | some _ => m.effectiveStartAddress :: handlesOf rest

def Checker.start (mapping : List MemoryMapping) : Checker := ⟨handlesOf mapping, .outside, []⟩

/-- What `MemoryMapping_checkHeaps` does next. It looks at the tag before it has the lock, and at
the flags before and after the walk. -/
def checkNext (c : Checker) : Next U32 (Memory 32) Checker :=
  match c.heaps with
  | [] => .stop
  | heap :: rest =>
    match c.phase with
    | .outside => .peek heap fun m =>
      match headerTag m heap with
      | .error a => { c with phase := .faulted a }
      | .ok tag =>
        if tag ≠ memExpandedHeapTag then
          ⟨rest, .outside, c.outcomes ++ [(heap, .invalidHandle tag)]⟩
        else { c with phase := .tagged }
    | .tagged => .peek heap fun m =>
      match headerFlags m heap with
      | .error a => { c with phase := .faulted a }
      | .ok flags =>
        if flags &&& memHeapFlagUseLock ≠ 0 then { c with phase := .locking }
        else { c with phase := .inside .usedHead }
    | .locking => .acquire heap { c with phase := .inside .usedHead }
    | .inside walk => .peek heap fun m => { c with phase := afterPass (corePass m heap walk) }
    | .checked result => .peek heap fun m =>
      match headerFlags m heap with
      | .error a => { c with phase := .faulted a }
      | .ok flags =>
        if flags &&& memHeapFlagUseLock ≠ 0 then { c with phase := .unlocking result }
        else ⟨rest, .outside, c.outcomes ++ [(heap, .checked result)]⟩
    | .unlocking result =>
      .release heap ⟨rest, .outside, c.outcomes ++ [(heap, .checked result)]⟩
    | .faulted _ => .stop

def Known {ι : Type*} (τ : ι → Type) : Option ι → Type
  | none => Checker
  | some i => τ i

def nextOf {ι : Type*} {τ : ι → Type} (other : ∀ i, τ i → Next U32 (Memory 32) (τ i)) :
    ∀ i, Known τ i → Next U32 (Memory 32) (Known τ i)
  | none => checkNext
  | some i => other i

end Program

section Core

variable {m : Memory 32} {heap totalSize : U32} {n : ℕ} {verdict : Verdict}

def conclude (m : Memory 32) (heap : U32) : Access (Except Report U32) → Verdict
  | .error a => .error a
  | .ok (.error report) => .ok (.error report)
  | .ok (.ok totalSize) => checkTotal m heap totalSize

def afterUsed : Except Report U32 → Access (Walk ⊕ Except Report Unit)
  | .error report => .ok (.inr (.error report))
  | .ok totalSize => .ok (.inl (.freeHead totalSize))

def afterFree : Except Report U32 → Access (Walk ⊕ Except Report Unit)
  | .error report => .ok (.inr (.error report))
  | .ok totalSize => .ok (.inl (.total totalSize))

theorem corePass_used (s : Cursor) : corePass m heap (.used s) =
    embedPass Walk.used afterUsed (checkPass m heap (usedList heap) 0x5544 "used" s) := by
  rw [corePass]
  rcases checkPass m heap (usedList heap) 0x5544 "used" s with _ | _ | _ | _ <;> rfl

theorem corePass_free (s : Cursor) : corePass m heap (.free s) =
    embedPass Walk.free afterFree (checkPass m heap (freeList heap) 0x4652 "free" s) := by
  rw [corePass]
  rcases checkPass m heap (freeList heap) 0x4652 "free" s with _ | _ | _ | _ <;> rfl

theorem run_total (h : run (corePass m heap) n (.total totalSize) = some verdict) :
    verdict = checkTotal m heap totalSize := by
  cases n with
  | zero => exact absurd h nofun
  | succ n =>
    rw [run_succ_iff, corePass] at h
    cases hsize : checkTotal m heap totalSize <;> rw [hsize] at h <;> exact h

theorem block_of_head {list first blockTag : U32} {listName : String}
    (hhead : head m list = .ok first) (k : ℕ) :
    checkMemExpHeapBlock k m heap list blockTag listName totalSize =
      run (checkPass m heap list blockTag listName) k ⟨first, 0, totalSize⟩ := by
  rw [checkMemExpHeapBlock, hhead]

theorem run_freeHead (h : run (corePass m heap) n (.freeHead totalSize) = some verdict) :
    ∃ k result, checkMemExpHeapBlock k m heap (freeList heap) 0x4652 "free" totalSize =
        some result ∧ verdict = conclude m heap result := by
  cases n with
  | zero => exact absurd h nofun
  | succ n =>
    rw [run_succ_iff, corePass] at h
    cases hhead : head m (freeList heap) with
    | error a =>
      rw [hhead] at h
      exact ⟨1, .error a, by rw [checkMemExpHeapBlock, hhead], h⟩
    | ok first =>
      rw [hhead] at h
      obtain ⟨k, ⟨a, hrun, hfault⟩ | ⟨result, hrun, more, hafter⟩⟩ :=
        run_nested _ Walk.free afterFree corePass_free h
      · exact ⟨k, .error a, (block_of_head hhead k).trans hrun, hfault⟩
      · refine ⟨k, .ok result, (block_of_head hhead k).trans hrun, ?_⟩
        cases result with
        | error report => exact hafter
        | ok total => exact run_total hafter

/-- The steps of a check come to what `CheckMemExpHeapCore` returns. -/
theorem core_of_run (h : run (corePass m heap) n .usedHead = some verdict) :
    ∃ passes, checkMemExpHeapCore passes m heap = some verdict := by
  cases n with
  | zero => exact absurd h nofun
  | succ n =>
    rw [run_succ_iff, corePass] at h
    cases hhead : head m (usedList heap) with
    | error a =>
      rw [hhead] at h
      refine ⟨1, ?_⟩
      simp only [checkMemExpHeapCore, checkMemExpHeapBlock, hhead]
      exact congrArg some h.symm
    | ok first =>
      rw [hhead] at h
      obtain ⟨k, ⟨a, hrun, hfault⟩ | ⟨result, hrun, more, hafter⟩⟩ :=
        run_nested _ Walk.used afterUsed corePass_used h
      · refine ⟨k, ?_⟩
        simp only [checkMemExpHeapCore, block_of_head hhead, hrun]
        exact congrArg some hfault.symm
      · cases result with
        | error report =>
          refine ⟨k, ?_⟩
          simp only [checkMemExpHeapCore, block_of_head hhead, hrun]
          exact congrArg some hafter.symm
        | ok totalSize =>
          obtain ⟨k', result, hfree, hconclude⟩ := run_freeHead hafter
          refine ⟨max k k', ?_⟩
          have hused := checkMemExpHeapBlock_mono ((block_of_head hhead k).trans hrun)
            (le_max_left k k')
          have hfree := checkMemExpHeapBlock_mono hfree (le_max_right k k')
          rw [hconclude]
          simp only [checkMemExpHeapCore, hused, hfree]
          rcases result with _ | _ | _ <;> rfl

end Core

section Interleaved

structure Header where
  tag : U32
  flags : U32

variable (header : U32 → Header) (J : U32 → Memory 32 → Prop)

/-- `header.flags & MEM_HEAP_FLAG_USE_LOCK` -/
def UsesLock (heap : U32) : Prop := (header heap).flags &&& memHeapFlagUseLock ≠ 0

def KeepsHeader (handles : List U32) (heap : U32) (m : Memory 32) : Prop :=
  heap ∈ handles →
    headerTag m heap = .ok (header heap).tag ∧ headerFlags m heap = .ok (header heap).flags

/-- An outcome is what `CheckMemExpHeap` finds on a heap that is at rest as `J` has it. -/
def Founded (heap : U32) (outcome : Outcome) : Prop :=
  ∃ m, J heap m ∧ ∃ passes, checkMemExpHeap passes m heap = some (.ok outcome)

structure Progress (handles : List U32) (c : Checker) : Prop where
  order : c.outcomes.map Prod.fst ++ c.heaps = handles
  founded : ∀ heap outcome, (heap, outcome) ∈ c.outcomes → Founded J heap outcome

/-- Where the check of a heap is, by what it has read. -/
def Reading (m : Memory 32) (heap : U32) : Phase → Prop
  | .outside | .tagged | .locking => False
  | .inside walk => ∃ walks, Trace (corePass m heap) .usedHead walks walk
  | .checked result | .unlocking result =>
      ∃ n, run (corePass m heap) n .usedHead = some (.ok result)
  | .faulted _ => True

def Approaching (c : Checker) : Prop :=
  c.phase = .outside ∨ (c.phase = .tagged ∨ c.phase = .locking) ∧
    ∀ heap ∈ c.heaps.head?, (header heap).tag = memExpandedHeapTag

def CheckerOut (handles : List U32) (c : Checker) : Prop :=
  Progress J handles c ∧ Approaching header c

structure CheckerHeld (handles : List U32) (heap : U32) (m : Memory 32) (c : Checker) : Prop where
  progress : Progress J handles c
  current : ∃ rest, c.heaps = heap :: rest
  valid : (header heap).tag = memExpandedHeapTag
  rests : J heap m
  reading : Reading m heap c.phase

variable {header J} {handles rest : List U32} {c : Checker} {heap : U32} {m : Memory 32}

theorem Progress.next (h : Progress J handles c) (hheaps : c.heaps = heap :: rest)
    {outcome : Outcome} (houtcome : Founded J heap outcome) :
    Progress J handles ⟨rest, .outside, c.outcomes ++ [(heap, outcome)]⟩ := by
  refine ⟨?_, fun heap' outcome' hmem => ?_⟩
  · rw [List.map_append, List.append_assoc, ← h.order, hheaps]
    rfl
  · rcases List.mem_append.mp hmem with hold | hnew
    · exact h.founded heap' outcome' hold
    · obtain ⟨rfl, rfl⟩ := Prod.mk.inj (List.mem_singleton.mp hnew)
      exact houtcome

theorem Progress.mem (h : Progress J handles c) (hheaps : c.heaps = heap :: rest) :
    heap ∈ handles := by
  rw [← h.order, hheaps]
  exact List.mem_append_right _ List.mem_cons_self

theorem Reading.pass {walk : Walk} (h : Reading m heap (.inside walk)) :
    Reading m heap (afterPass (corePass m heap walk)) := by
  obtain ⟨walks, htrace⟩ := h
  cases hpass : corePass m heap walk with
  | error a => trivial
  | ok next =>
    cases next with
    | inl walk' => exact ⟨walks ++ [walk], htrace.snoc hpass⟩
    | inr result => exact ⟨walks.length + 1, (run_of_trace htrace).trans (run_done hpass)⟩

theorem founded_of_run (hrests : J heap m) (hkept : KeepsHeader header handles heap m)
    (hmem : heap ∈ handles) (hvalid : (header heap).tag = memExpandedHeapTag)
    {result : Except Report Unit} {n : ℕ}
    (hrun : run (corePass m heap) n .usedHead = some (.ok result)) :
    Founded J heap (.checked result) := by
  obtain ⟨htag, hflags⟩ := hkept hmem
  obtain ⟨passes, hcore⟩ := core_of_run hrun
  refine ⟨m, hrests, passes, ?_⟩
  rw [checkMemExpHeap, htag, hflags, hcore]
  exact if_neg (not_not.mpr hvalid)

theorem founded_of_tag (hrests : J heap m) (hkept : KeepsHeader header handles heap m)
    (hmem : heap ∈ handles) (hinvalid : (header heap).tag ≠ memExpandedHeapTag) :
    Founded J heap (.invalidHandle (header heap).tag) := by
  refine ⟨m, hrests, 0, ?_⟩
  rw [checkMemExpHeap, (hkept hmem).1]
  exact if_pos hinvalid

theorem checker_outside (hlocks : ∀ heap ∈ handles, UsesLock header heap)
    (hrest : ∀ heap ∈ handles, ∃ m, J heap m ∧ KeepsHeader header handles heap m)
    (hout : CheckerOut header J handles c) :
    Outside J (KeepsHeader header handles) (CheckerOut header J handles)
      (CheckerHeld header J handles) (checkNext c) := by
  obtain ⟨hprogress, happroaching⟩ := hout
  rw [checkNext]
  split
  · trivial
  · next heap rest hheaps =>
    have hmem := hprogress.mem hheaps
    have huses : (header heap).flags &&& memHeapFlagUseLock ≠ 0 := hlocks heap hmem
    rcases happroaching with hphase | ⟨hphase | hphase, hvalid⟩
    · rw [hphase]
      intro m hkept
      dsimp only
      rw [(hkept hmem).1]
      dsimp only
      split_ifs with htag
      · obtain ⟨m', hrests, hkept'⟩ := hrest heap hmem
        exact ⟨hprogress.next hheaps (founded_of_tag hrests hkept' hmem htag), .inl rfl⟩
      · refine ⟨⟨hprogress.order, hprogress.founded⟩, .inr ⟨.inl rfl, ?_⟩⟩
        rw [hheaps]
        rintro _ ⟨⟩
        exact not_not.mp htag
    · rw [hphase]
      intro m hkept
      dsimp only
      rw [(hkept hmem).2]
      dsimp only
      rw [if_pos huses]
      exact ⟨⟨hprogress.order, hprogress.founded⟩, .inr ⟨.inr rfl, hvalid⟩⟩
    · rw [hphase]
      rw [hheaps] at hvalid
      exact fun m _ hrests => ⟨⟨hprogress.order, hprogress.founded⟩, ⟨rest, hheaps⟩,
        hvalid heap rfl, hrests, [], rfl⟩

theorem checker_inside (hlocks : ∀ heap ∈ handles, UsesLock header heap)
    (hkept : KeepsHeader header handles heap m) (hheld : CheckerHeld header J handles heap m c) :
    Inside J (KeepsHeader header handles) (CheckerOut header J handles)
      (CheckerHeld header J handles) heap m (checkNext c) := by
  obtain ⟨hprogress, ⟨rest, hheaps⟩, hvalid, hrests, hreading⟩ := hheld
  have hmem := hprogress.mem hheaps
  have huses : (header heap).flags &&& memHeapFlagUseLock ≠ 0 := hlocks heap hmem
  obtain ⟨heaps, phase, outcomes⟩ := c
  obtain rfl := hheaps
  rw [checkNext]
  dsimp only
  cases phase with
  | outside | tagged | locking => exact hreading.elim
  | faulted a => trivial
  | inside walk =>
    exact ⟨rfl, ⟨hprogress.order, hprogress.founded⟩, ⟨rest, rfl⟩, hvalid, hrests, hreading.pass⟩
  | checked result =>
    refine ⟨rfl, ?_⟩
    dsimp only
    rw [(hkept hmem).2]
    dsimp only
    rw [if_pos huses]
    exact ⟨⟨hprogress.order, hprogress.founded⟩, ⟨rest, rfl⟩, hvalid, hrests, hreading⟩
  | unlocking result =>
    obtain ⟨n, hrun⟩ := hreading
    exact ⟨rfl, hrests, hprogress.next rfl (founded_of_run hrests hkept hmem hvalid hrun), .inl rfl⟩

theorem checker_obeys (hlocks : ∀ heap ∈ handles, UsesLock header heap)
    (hrest : ∀ heap ∈ handles, ∃ m, J heap m ∧ KeepsHeader header handles heap m) :
    Obeys J (KeepsHeader header handles) checkNext (CheckerOut header J handles)
      (CheckerHeld header J handles) :=
  ⟨fun _ hout => checker_outside hlocks hrest hout,
    fun _ _ _ hkept hheld => checker_inside hlocks hkept hheld⟩

end Interleaved

section Guarantees

theorem checkMemExpHeap_mono {m : Memory 32} {heap : U32} {passes more : ℕ}
    {outcome : Access Outcome} (h : checkMemExpHeap passes m heap = some outcome)
    (hle : passes ≤ more) : checkMemExpHeap more m heap = some outcome := by
  rw [checkMemExpHeap] at h ⊢
  cases htag : headerTag m heap with
  | error a =>
    rw [htag] at h
    exact h
  | ok tag =>
    rw [htag] at h
    dsimp only at h ⊢
    split_ifs at h ⊢ with hinvalid
    · exact h
    · cases hflags : headerFlags m heap with
      | error a =>
        rw [hflags] at h
        exact h
      | ok flags =>
        rw [hflags] at h
        obtain ⟨verdict, hcore, rfl⟩ := Option.map_eq_some_iff.mp h
        exact Option.map_eq_some_iff.mpr ⟨verdict, checkMemExpHeapCore_mono hcore hle, rfl⟩

variable {ι : Type*} [DecidableEq ι] {τ : ι → Type} {header : U32 → Header}
  {J : U32 → Memory 32 → Prop} {mapping : List MemoryMapping}
  {other : ∀ i, τ i → Next U32 (Memory 32) (τ i)} {out : ∀ i, τ i → Prop}
  {held : ∀ i, U32 → Memory 32 → τ i → Prop} {s s' : State (Option ι) U32 (Memory 32) (Known τ)}

def outOf (header : U32 → Header) (J : U32 → Memory 32 → Prop) (handles : List U32)
    (out : ∀ i, τ i → Prop) : ∀ i, Known τ i → Prop
  | none => CheckerOut header J handles
  | some i => out i

def heldOf (header : U32 → Header) (J : U32 → Memory 32 → Prop) (handles : List U32)
    (held : ∀ i, U32 → Memory 32 → τ i → Prop) : ∀ i, U32 → Memory 32 → Known τ i → Prop
  | none => CheckerHeld header J handles
  | some i => held i

/-- `MemoryMapping_checkHeaps` is called. Other threads may be in the middle of changes then. -/
structure Called (header : U32 → Header) (J : U32 → Memory 32 → Prop)
    (mapping : List MemoryMapping) (out : ∀ i, τ i → Prop)
    (held : ∀ i, U32 → Memory 32 → τ i → Prop)
    (s : State (Option ι) U32 (Memory 32) (Known τ)) : Prop where
  kept : ∀ heap, KeepsHeader header (handlesOf mapping) heap (s.resources heap)
  rests : ∀ heap, s.holder heap = none → J heap (s.resources heap)
  rested : ∀ heap ∈ handlesOf mapping,
    ∃ m, J heap m ∧ KeepsHeader header (handlesOf mapping) heap m
  checker : s.known none = Checker.start mapping
  unlocked : ∀ heap, s.holder heap ≠ some none
  others : ∀ i, Stands (outOf header J (handlesOf mapping) out)
    (heldOf header J (handlesOf mapping) held) s (some i)

def checkerOf (s : State (Option ι) U32 (Memory 32) (Known τ)) : Checker := s.known none

theorem progress_of_reaches (hlocks : ∀ heap ∈ handlesOf mapping, UsesLock header heap)
    (hothers : ∀ i, Obeys J (KeepsHeader header (handlesOf mapping)) (other i) (out i) (held i))
    (hcalled : Called header J mapping out held s)
    (hreach : Reaches (Locks.step (nextOf other)) s s') :
    Progress J (handlesOf mapping) (checkerOf s') := by
  have hobeys : ∀ i, Obeys J (KeepsHeader header (handlesOf mapping)) (nextOf other i)
      (outOf header J (handlesOf mapping) out i) (heldOf header J (handlesOf mapping) held i)
    | none => checker_obeys hlocks hcalled.rested
    | some i => hothers i
  have hstart : Respected J (KeepsHeader header (handlesOf mapping))
      (outOf header J (handlesOf mapping) out) (heldOf header J (handlesOf mapping) held) s := by
    refine ⟨hcalled.kept, hcalled.rests, fun i => ?_⟩
    match i with
    | none =>
      refine .inl ⟨?_, hcalled.unlocked⟩
      change CheckerOut header J (handlesOf mapping) (s.known none)
      rw [hcalled.checker]
      exact ⟨⟨rfl, nofun⟩, .inl rfl⟩
    | some i => exact hcalled.others i
  rcases (hstart.reaches hobeys hreach).stands none with ⟨hout, _⟩ | ⟨_, _, hheld⟩
  · exact hout.1
  · exact hheld.progress

/-- The checks of the heaps go by the heaps at rest, in the order of the table, however the
threads take turns. -/
theorem checkHeaps_founded (hlocks : ∀ heap ∈ handlesOf mapping, UsesLock header heap)
    (hothers : ∀ i, Obeys J (KeepsHeader header (handlesOf mapping)) (other i) (out i) (held i))
    (hcalled : Called header J mapping out held s)
    (hreach : Reaches (Locks.step (nextOf other)) s s') :
    (checkerOf s').outcomes.map Prod.fst <+: handlesOf mapping ∧
      ∀ heap outcome, (heap, outcome) ∈ (checkerOf s').outcomes → Founded J heap outcome := by
  have hprogress := progress_of_reaches hlocks hothers hcalled hreach
  exact ⟨⟨_, hprogress.order⟩, hprogress.founded⟩

/-- Heaps that a check accepts at rest are never found corrupted, whatever the other threads are
about to do. -/
theorem checkHeaps_accepts (hlocks : ∀ heap ∈ handlesOf mapping, UsesLock header heap)
    (haccepts : ∀ heap ∈ handlesOf mapping, ∀ m, J heap m →
      ∃ passes, checkMemExpHeap passes m heap = some (.ok (.checked (.ok ()))))
    (hothers : ∀ i, Obeys J (KeepsHeader header (handlesOf mapping)) (other i) (out i) (held i))
    (hcalled : Called header J mapping out held s)
    (hreach : Reaches (Locks.step (nextOf other)) s s') :
    ∃ n, (checkerOf s').outcomes =
      ((handlesOf mapping).take n).map fun heap => (heap, .checked (.ok ())) := by
  obtain ⟨horder, hfounded⟩ := progress_of_reaches hlocks hothers hcalled hreach
  have haccepted : ∀ entry ∈ (checkerOf s').outcomes, entry.2 = .checked (.ok ()) := by
    rintro ⟨heap, outcome⟩ hentry
    have hmem : heap ∈ handlesOf mapping := by
      rw [← horder]
      exact List.mem_append_left _ (List.mem_map_of_mem hentry)
    obtain ⟨m, hrests, passes, hfound⟩ := hfounded heap outcome hentry
    obtain ⟨passes', hok⟩ := haccepts heap hmem m hrests
    have hsame := (checkMemExpHeap_mono hfound (le_max_left passes passes')).symm.trans
      (checkMemExpHeap_mono hok (le_max_right passes passes'))
    exact Except.ok.inj (Option.some.inj hsame)
  refine ⟨(checkerOf s').outcomes.length, ?_⟩
  have htake : (handlesOf mapping).take (checkerOf s').outcomes.length =
      (checkerOf s').outcomes.map Prod.fst := by
    rw [← horder, List.take_append_of_le_length (by simp), List.take_of_length_le (by simp)]
  rw [htake, List.map_map]
  conv_lhs => rw [← List.map_id (checkerOf s').outcomes]
  exact List.map_congr_left fun entry hentry => Prod.ext rfl (haccepted entry hentry)

/-- A thread that wipes a heap but for its tag and flags, and puts it back as it was, over and
over. -/
inductive Wiper where
  | idle
  | locked
  | wiped (saved : Memory 32)
  | restored

def InHeader (heap a : U32) : Prop := (a - heap).toNat < 4 ∨ (a - (heap + 0x30)).toNat < 4

instance (heap a : U32) : Decidable (InHeader heap a) := inferInstanceAs (Decidable (_ ∨ _))

def wiperNext (heap : U32) : Wiper → Next U32 (Memory 32) Wiper
  | .idle => .acquire heap .locked
  | .locked => .access heap fun m => (m.restrict (InHeader heap), .wiped m)
  | .wiped saved => .access heap fun _ => (saved, .restored)
  | .restored => .release heap .idle

def wiperHeld (J K : U32 → Memory 32 → Prop) (own heap : U32) (m : Memory 32) : Wiper → Prop
  | .idle => False
  | .locked | .restored => own = heap ∧ J heap m
  | .wiped saved => own = heap ∧ J heap saved ∧ K heap saved

theorem KeepsHeader.restrict {handles : List U32} {heap : U32} {m : Memory 32}
    (h : KeepsHeader header handles heap m) :
    KeepsHeader header handles heap (m.restrict (InHeader heap)) := by
  intro hmem
  obtain ⟨htag, hflags⟩ := h hmem
  have hplace (a : U32) {i : ℕ} (hi : i < 4) : (a + BitVec.ofNat 32 i - a).toNat < 4 := by
    rw [add_sub_cancel_left, BitVec.toNat_ofNat]
    omega
  exact ⟨(load32_congr fun i hi => if_pos (.inl (hplace _ hi))).trans htag,
    (load32_congr fun i hi => if_pos (.inr (hplace _ hi))).trans hflags⟩

theorem wiper_obeys (J : U32 → Memory 32 → Prop) (header : U32 → Header) (handles : List U32)
    (heap : U32) : Obeys J (KeepsHeader header handles) (wiperNext heap) (fun t => t = .idle)
      (wiperHeld J (KeepsHeader header handles) heap) := by
  refine ⟨?_, fun k m t hkept hheld => ?_⟩
  · rintro t rfl
    exact fun m _ hrests => ⟨rfl, hrests⟩
  · cases t with
    | idle => exact hheld.elim
    | locked =>
      obtain ⟨rfl, hrests⟩ := hheld
      exact ⟨rfl, hkept.restrict, rfl, hrests, hkept⟩
    | wiped saved =>
      obtain ⟨rfl, hrests, hsaved⟩ := hheld
      exact ⟨rfl, hsaved, rfl, hrests⟩
    | restored => exact ⟨hheld.1, hheld.2, rfl⟩

def sampleMapping : List MemoryMapping := [⟨0x80000000, 0x80000100, some []⟩, ⟨0, 0, none⟩]

def sampleHeader : U32 → Header := fun _ => ⟨memExpandedHeapTag, memHeapFlagUseLock⟩

def taggedHeap : Memory 32 :=
  copyBytes (copyBytes tidyHeap 0x80000000 [0x45, 0x58, 0x50, 0x48]) 0x80000030 [0, 0, 0, 4]

def Tidy (heap : U32) (m : Memory 32) : Prop := heap = 0x80000000 → m = taggedHeap

/-- The other thread has wiped the heap. -/
def sampleCall : State (Option Unit) U32 (Memory 32) (Known fun _ => Wiper) where
  resources heap :=
    if heap = 0x80000000 then taggedHeap.restrict (InHeader 0x80000000) else taggedHeap
  holder heap := if heap = 0x80000000 then some (some ()) else none
  known
    | none => Checker.start sampleMapping
    | some _ => Wiper.wiped taggedHeap

theorem sample_keeps (heap : U32) :
    KeepsHeader sampleHeader (handlesOf sampleMapping) heap taggedHeap := by
  intro hheap
  obtain rfl : heap = 0x80000000 := List.mem_singleton.mp hheap
  exact (by decide +kernel : headerTag taggedHeap 0x80000000 = .ok memExpandedHeapTag ∧
    headerFlags taggedHeap 0x80000000 = .ok memHeapFlagUseLock)

theorem sample_called : Called sampleHeader Tidy sampleMapping (fun _ t => t = .idle)
    (fun _ => wiperHeld Tidy (KeepsHeader sampleHeader (handlesOf sampleMapping)) 0x80000000)
    sampleCall := by
  have hholder (heap : U32) : sampleCall.holder heap =
      if heap = 0x80000000 then some (some ()) else none := rfl
  have hresource (heap : U32) : sampleCall.resources heap =
      if heap = 0x80000000 then taggedHeap.restrict (InHeader 0x80000000) else taggedHeap := rfl
  refine ⟨fun heap => ?_, fun heap hfree => ?_,
    fun heap _ => ⟨taggedHeap, fun _ => rfl, sample_keeps heap⟩, rfl, fun heap => ?_, fun i => ?_⟩
  · rw [hresource]
    split_ifs with hheap
    · subst hheap
      exact (sample_keeps 0x80000000).restrict
    · exact sample_keeps heap
  · intro hheap
    rw [hholder, if_pos hheap] at hfree
    cases hfree
  · rw [hholder]
    split_ifs <;> exact nofun
  · refine .inr ⟨0x80000000, fun heap => ?_, rfl, fun _ => rfl, sample_keeps 0x80000000⟩
    rw [hholder]
    split_ifs with hheap
    · exact iff_of_true rfl hheap
    · exact iff_of_false nofun hheap

theorem sample_locks : ∀ heap ∈ handlesOf sampleMapping, UsesLock sampleHeader heap :=
  fun _ _ => (by decide : memHeapFlagUseLock &&& memHeapFlagUseLock ≠ 0)

def wipedStates : Set (State (Option Unit) U32 (Memory 32) (Known fun _ => Wiper)) :=
  {s | Reaches (Locks.step (nextOf fun _ => wiperNext 0x80000000)) sampleCall s}

theorem wiped_founded : wipedStates ⊆ {s |
    (checkerOf s).outcomes.map Prod.fst <+: handlesOf sampleMapping ∧
      ∀ heap outcome, (heap, outcome) ∈ (checkerOf s).outcomes → Founded Tidy heap outcome} :=
  fun _ hreach => checkHeaps_founded sample_locks
    (fun _ => wiper_obeys Tidy sampleHeader _ 0x80000000) sample_called hreach

theorem wiped_accepts : wipedStates ⊆ {s | ∃ n, (checkerOf s).outcomes =
    ((handlesOf sampleMapping).take n).map fun heap => (heap, .checked (.ok ()))} := by
  intro s hreach
  refine checkHeaps_accepts sample_locks ?_
    (fun _ => wiper_obeys Tidy sampleHeader _ 0x80000000) sample_called hreach
  intro heap hheap m hrests
  obtain rfl : heap = 0x80000000 := List.mem_singleton.mp hheap
  rw [hrests rfl]
  exact ⟨2, by decide +kernel⟩

end Guarantees

end MemoryMappingModule.LockedHeaps
