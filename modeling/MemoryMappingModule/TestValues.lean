import MemoryMappingModule.StepLoop
import MemoryMappingModule.ByteMemory
import MemoryMappingModule.AddressTranslation

/-! The module's test of the memory it mapped. `MemoryMapping_writeTestValuesToMemory`
fills a buffer of 0x1000 words with a counter, over and over, and copies it to physical
memory each time it is full; `MemoryMapping_readTestValuesFromMemory` reads the words of a
region back at their effective addresses. The kernel's copy and the address translation are
parameters: the copy is handed the bytes of the buffer where the source hands it their physical
address. Flushing the data cache does not change what memory holds. -/

namespace MemoryMappingModule.TestValues

open StepLoop ByteMemory MappingLayout ExtentTranslation AddressTranslation

section Program

abbrev Buffer := Fin 0x1000 → U32

def bufferBytes (buffer : Buffer) : List Byte :=
  (List.range 0x4000).map fun i => byteOf (buffer (Fin.ofNat 0x1000 (i / 4))) (i % 4)

structure Writer where
  testBuffer : Buffer
  counter : U32
  memory : Memory 32

variable (kernelCopyData : U32 → List Byte → Memory 32 → Memory 32)

def writeWord (paStartAddress paSize k : U32) (s : Writer) : Writer :=
  let s :=
    if 0 < k ∧ k % 0x1000 = 0 then
      let destination := paStartAddress + (k * 4 - 0x4000)
      { s with memory := kernelCopyData destination (bufferBytes s.testBuffer) s.memory }
    else s
  if k ≠ paSize / 4 then
    { s with
      testBuffer := Function.update s.testBuffer (Fin.ofNat 0x1000 (k % 0x1000).toNat) s.counter
      counter := s.counter + 1 }
  else s

def writeWords (paStartAddress paSize : U32) (n : ℕ) (s : Writer) : Writer :=
  (List.range n).foldl
    (fun s k => writeWord kernelCopyData paStartAddress paSize (BitVec.ofNat 32 k) s) s

/-- The loop over the words of a chunk, up to and including `paSize / 4`. -/
def writeChunk (v : MemoryValues) (s : Writer) : Writer :=
  let paSize := v.endAddress - v.startAddress
  writeWords kernelCopyData v.startAddress paSize ((paSize / 4).toNat + 1) s

def writeChunks : List MemoryValues → Writer → Writer
  | [], s => s
  | v :: rest, s =>
    if v.endAddress = 0 ∧ v.startAddress = 0 then s
    else writeChunks rest (writeChunk kernelCopyData v s)

/-- The loop over the regions; the counter restarts at 0 per region. -/
def writeRegions : List MemoryMapping → Writer → Writer
  | [], s => s
  | m :: rest, s =>
    match m.physicalAddresses with
    | none => s
    | some memVals => writeRegions rest (writeChunks kernelCopyData memVals { s with counter := 0 })

/-- `MemoryMapping_writeTestValuesToMemory`, from what the buffer and memory hold at first. -/
def writeTestValuesToMemory (memMapping : List MemoryMapping) (testBuffer : Buffer)
    (memory : Memory 32) : Memory 32 :=
  (writeRegions kernelCopyData memMapping ⟨testBuffer, 0, memory⟩).memory

inductive TestReport where
  | good (start stop : U32)
  | error (start stop : U32)
  | successful (region : ℕ)
deriving DecidableEq, Repr

structure Reader where
  j : U32
  success : Bool
  inFailRange : Bool
  startFailing : U32
  startGood : U32
  reports : List TestReport

def noteWord (address word : U32) (s : Reader) : Reader :=
  if word ≠ s.j then
    if s.inFailRange then { s with success := false, j := s.j + 1 }
    else
      { j := ((s.j &&& 0xFFFF8000) + 0x00008000 - 1) + 1
        success := false
        inFailRange := true
        startFailing := address
        startGood := 0
        reports := s.reports ++ [.good s.startGood address] }
  else if s.inFailRange then
    { s with
      j := s.j + 1
      inFailRange := false
      startFailing := 0
      startGood := address
      reports := s.reports ++ [.error s.startFailing address] }
  else { s with j := s.j + 1 }

/-- One pass of the loop over the words of a region. -/
def testWord (view : Memory 32) (eaStartAddress eaSize : U32) (s : Reader) :
    Except U32 (Reader ⊕ Reader) :=
  if s.j < eaSize / 4 then do
    let word ← load32 view (eaStartAddress + s.j * 4)
    return .inl (noteWord (eaStartAddress + s.j * 4) word s)
  else return .inr s

def addSizes : U32 → List MemoryValues → U32
  | eaSize, [] => eaSize
  | eaSize, v :: rest =>
    if v.endAddress = 0 ∧ v.startAddress = 0 then eaSize
    else addSizes (eaSize + (v.endAddress - v.startAddress)) rest

def closeReports (i : ℕ) (eaStartAddress eaSize : U32) (s : Reader) : List TestReport :=
  s.reports ++
    (if s.startGood ≠ 0 ∧ s.startGood ≠ eaStartAddress + eaSize then
      [.good s.startGood (eaStartAddress + eaSize)]
    else if s.inFailRange then [.error s.startFailing (eaStartAddress + eaSize)] else []) ++
    if s.success then [.successful (i + 1)] else []

/-- The loop over the regions, with at most `passes` passes of each loop over words. -/
def readRegions (passes : ℕ) (view : Memory 32) :
    ℕ → List MemoryMapping → List TestReport → Option (Except U32 (List TestReport))
  | _, [], reports => some (.ok reports)
  | i, m :: rest, reports =>
    match m.physicalAddresses with
    | none => some (.ok reports)
    | some memVals =>
      let eaStartAddress := m.effectiveStartAddress
      let eaSize := addSizes 0 memVals
      match run (testWord view eaStartAddress eaSize) passes
        ⟨0, true, false, 0, eaStartAddress, reports⟩ with
      | none => none
      | some (.error address) => some (.error address)
      | some (.ok s) =>
        readRegions passes view (i + 1) rest (closeReports i eaStartAddress eaSize s)

/-- `MemoryMapping_readTestValuesFromMemory` in its debug build, on memory as it is seen at
effective addresses. -/
def readTestValuesFromMemory (passes : ℕ) (memMapping : List MemoryMapping) (view : Memory 32) :
    Option (Except U32 (List TestReport)) :=
  readRegions passes view 0 memMapping []

end Program

section Layout

def size (v : MemoryValues) : ℕ := (v.endAddress - v.startAddress).toNat

def Holds (v : MemoryValues) (pa : U32) : Prop := (pa - v.startAddress).toNat < size v

instance (v : MemoryValues) (pa : U32) : Decidable (Holds v pa) :=
  inferInstanceAs (Decidable (_ < _))

def openChunks (vs : List MemoryValues) : List MemoryValues :=
  vs.takeWhile fun v => ¬ (v.endAddress = 0 ∧ v.startAddress = 0)

def chunksOf (m : MemoryMapping) : List MemoryValues := openChunks (m.physicalAddresses.getD [])

def regionsOf (memMapping : List MemoryMapping) : List MemoryMapping :=
  memMapping.takeWhile fun m => m.physicalAddresses.isSome

def tableChunks (memMapping : List MemoryMapping) : List MemoryValues :=
  (regionsOf memMapping).flatMap chunksOf

def regionSize (vs : List MemoryValues) : ℕ := (vs.map size).sum

def physicalAt : List MemoryValues → ℕ → Option U32
  | [], _ => none
  | v :: vs, o =>
    if o < size v then some (v.startAddress + BitVec.ofNat 32 o) else physicalAt vs (o - size v)

/-- Each effective address of a region translates to its physical address. -/
def TranslatesTable (translate : U32 → U32) (memMapping : List MemoryMapping) : Prop :=
  ∀ m ∈ regionsOf memMapping, ∀ o p, physicalAt (chunksOf m) o = some p →
    translate (m.effectiveStartAddress + BitVec.ofNat 32 o) = p

def seenThrough (translate : U32 → U32) (memory : Memory 32) : Memory 32 :=
  fun ea => memory (translate ea)

def DisjointChunks (vs : List MemoryValues) : Prop :=
  vs.Pairwise fun u v => ∀ pa, ¬ (Holds u pa ∧ Holds v pa)

theorem place_of_lt {v : MemoryValues} {o : ℕ} (ho : o < size v) :
    (v.startAddress + BitVec.ofNat 32 o - v.startAddress).toNat = o := by
  have hlt := (v.endAddress - v.startAddress).isLt
  rw [add_sub_cancel_left, BitVec.toNat_ofNat, Nat.mod_eq_of_lt (ho.trans hlt)]

theorem holds_of_lt {v : MemoryValues} {o : ℕ} (ho : o < size v) :
    Holds v (v.startAddress + BitVec.ofNat 32 o) := by
  rw [Holds, place_of_lt ho]
  exact ho

theorem physicalAt_holds {vs : List MemoryValues} {o : ℕ} {p : U32} (h : physicalAt vs o = some p) :
    ∃ v ∈ vs, Holds v p := by
  induction vs generalizing o with
  | nil => simp [physicalAt] at h
  | cons v vs ih =>
    rw [physicalAt] at h
    split_ifs at h with hfirst
    · rw [← Option.some.inj h]
      exact ⟨v, List.mem_cons_self, holds_of_lt hfirst⟩
    · obtain ⟨u, hu, hholds⟩ := ih h
      exact ⟨u, List.mem_cons_of_mem v hu, hholds⟩

theorem openChunks_closed {v : MemoryValues} (h : v.endAddress = 0 ∧ v.startAddress = 0)
    (vs : List MemoryValues) : openChunks (v :: vs) = [] :=
  List.takeWhile_cons_of_neg (by simpa using h)

theorem openChunks_cons {v : MemoryValues} (h : ¬ (v.endAddress = 0 ∧ v.startAddress = 0))
    (vs : List MemoryValues) : openChunks (v :: vs) = v :: openChunks vs :=
  List.takeWhile_cons_of_pos (decide_eq_true h)

theorem physicalAt_isSome {vs : List MemoryValues} {o : ℕ} (ho : o < regionSize vs) :
    ∃ p, physicalAt vs o = some p := by
  induction vs generalizing o with
  | nil => exact absurd ho (Nat.not_lt_zero o)
  | cons v vs ih =>
    rw [physicalAt]
    split_ifs with hfirst
    · exact ⟨_, rfl⟩
    · rw [regionSize, List.map_cons, List.sum_cons] at ho
      exact ih (by rw [regionSize]; omega)

theorem regionsOf_closed {m : MemoryMapping} (h : m.physicalAddresses = none)
    (T : List MemoryMapping) : regionsOf (m :: T) = [] :=
  List.takeWhile_cons_of_neg (by simp [h])

theorem regionsOf_cons {m : MemoryMapping} {memVals : List MemoryValues}
    (h : m.physicalAddresses = some memVals) (T : List MemoryMapping) :
    regionsOf (m :: T) = m :: regionsOf T :=
  List.takeWhile_cons_of_pos (by simp [h])

theorem tableChunks_cons {m : MemoryMapping} {memVals : List MemoryValues}
    (h : m.physicalAddresses = some memVals) (T : List MemoryMapping) :
    tableChunks (m :: T) = chunksOf m ++ tableChunks T := by
  rw [tableChunks, regionsOf_cons h, List.flatMap_cons, tableChunks]

end Layout

section Words

def flushed (n : ℕ) : ℕ := 0x1000 * ((n - 1) / 0x1000)

def counterByte (c : U32) (o : ℕ) : Byte := byteOf (c + BitVec.ofNat 32 (o / 4)) (o % 4)

/-- Where the writer is before pass `n` over a chunk of a number of words: the buffer holds
the last words the counter gave, memory holds those copied. -/
structure Written (start c : U32) (words : ℕ) (m : Memory 32) (n : ℕ) (s : Writer) : Prop where
  counter : s.counter = c + BitVec.ofNat 32 (min n words)
  buffer : ∀ j, j < n → j < words → n ≤ j + 0x1000 →
    s.testBuffer (Fin.ofNat 0x1000 j) = c + BitVec.ofNat 32 j
  memory : ∀ a, s.memory a =
    if (a - start).toNat < 4 * flushed n then some (counterByte c (a - start).toNat) else m a

theorem counterByte_shift (c : U32) {n o : ℕ} (hn : 4 ∣ n) (ho : n ≤ o) :
    counterByte (c + BitVec.ofNat 32 (n / 4)) (o - n) = counterByte c o := by
  have hword : n / 4 + (o - n) / 4 = o / 4 := by omega
  have hbyte : (o - n) % 4 = o % 4 := by omega
  rw [counterByte, counterByte, add_assoc, ← BitVec.ofNat_add, hword, hbyte]

theorem flushed_succ_of_full {n : ℕ} (hpos : 0 < n) (hfull : n % 0x1000 = 0) :
    flushed (n + 1) = n ∧ flushed n = n - 0x1000 := by
  rw [flushed, flushed]
  omega

theorem flushed_succ_of_not_full {n : ℕ} (h : ¬ (0 < n ∧ n % 0x1000 = 0)) :
    flushed (n + 1) = flushed n := by
  rw [flushed, flushed]
  omega

theorem toNat_div_four_lt (size : U32) : (size / 4).toNat < 2 ^ 30 := by
  have hlt := size.isLt
  rw [BitVec.toNat_udiv]
  change size.toNat / 4 < _
  omega

theorem place_toNat (a start : U32) {d : ℕ} (hd : d + 0x4000 ≤ 2 ^ 32) :
    ((a - (start + BitVec.ofNat 32 d)).toNat < 0x4000 ↔
        d ≤ (a - start).toNat ∧ (a - start).toNat < d + 0x4000) ∧
      (d ≤ (a - start).toNat →
        (a - (start + BitVec.ofNat 32 d)).toNat = (a - start).toNat - d) := by
  have hlt := (a - start).isLt
  rw [sub_add_eq_sub_sub, BitVec.toNat_sub, BitVec.toNat_ofNat]
  generalize (a - start).toNat = o at *
  omega

variable {kernelCopyData : U32 → List Byte → Memory 32 → Memory 32}
  (hcopies : ∀ dst bytes m, kernelCopyData dst bytes m = copyBytes m dst bytes)
  {start paSize c : U32} {m : Memory 32} {n words : ℕ} {s : Writer}

theorem writeWord_eq (hsize : (paSize / 4).toNat = words) (hn : n ≤ words) (s : Writer) :
    writeWord kernelCopyData start paSize (BitVec.ofNat 32 n) s =
      { testBuffer :=
          if n ≠ words then Function.update s.testBuffer (Fin.ofNat 0x1000 n) s.counter
          else s.testBuffer
        counter := if n ≠ words then s.counter + 1 else s.counter
        memory :=
          if 0 < n ∧ n % 0x1000 = 0 then
            kernelCopyData (start + (BitVec.ofNat 32 n * 4 - 0x4000)) (bufferBytes s.testBuffer)
              s.memory
          else s.memory } := by
  have hwords : words < 2 ^ 30 := hsize ▸ toNat_div_four_lt paSize
  have hk : (BitVec.ofNat 32 n).toNat = n := by
    rw [BitVec.toNat_ofNat]
    omega
  have hfull :
      0 < BitVec.ofNat 32 n ∧ BitVec.ofNat 32 n % 0x1000 = 0 ↔ 0 < n ∧ n % 0x1000 = 0 := by
    rw [BitVec.lt_def, ← BitVec.toNat_inj, BitVec.toNat_umod, hk]
    rfl
  have hlast : BitVec.ofNat 32 n ≠ paSize / 4 ↔ n ≠ words := by
    rw [Ne, ← BitVec.toNat_inj, hk, hsize]
  have hindex : Fin.ofNat 0x1000 (BitVec.ofNat 32 n % 0x1000).toNat = Fin.ofNat 0x1000 n := by
    apply Fin.ext
    rw [Fin.val_ofNat, Fin.val_ofNat, BitVec.toNat_umod, hk]
    exact Nat.mod_mod n 0x1000
  unfold writeWord
  simp only [hfull, hlast, hindex]
  split_ifs <;> rfl

include hcopies

theorem copied_memory (h : Written start c words m n s) (hn : n ≤ words) (hwords : words < 2 ^ 30)
    (hpos : 0 < n) (hfull : n % 0x1000 = 0) (a : U32) :
    kernelCopyData (start + (BitVec.ofNat 32 n * 4 - 0x4000)) (bufferBytes s.testBuffer)
        s.memory a =
      if (a - start).toNat < 4 * flushed (n + 1) then some (counterByte c (a - start).toNat)
      else m a := by
  obtain ⟨hafter, hbefore⟩ := flushed_succ_of_full hpos hfull
  have hdestination :
      (BitVec.ofNat 32 n * 4 - 0x4000 : U32) = BitVec.ofNat 32 (4 * n - 0x4000) := by
    apply BitVec.eq_of_toNat_eq
    rw [BitVec.toNat_sub, BitVec.toNat_mul, BitVec.toNat_ofNat, BitVec.toNat_ofNat]
    change (2 ^ 32 - 0x4000 + n % 2 ^ 32 * 4 % 2 ^ 32) % 2 ^ 32 = _
    omega
  obtain ⟨hplace, hvalue⟩ :=
    place_toNat a start (show 4 * n - 0x4000 + 0x4000 ≤ 2 ^ 32 by omega)
  rw [hcopies, hdestination, hafter]
  by_cases hcopied : (a - (start + BitVec.ofNat 32 (4 * n - 0x4000))).toNat < 0x4000
  · obtain ⟨hlow, hhigh⟩ := hplace.mp hcopied
    have hindex : Fin.ofNat 0x1000 (((a - start).toNat - (4 * n - 0x4000)) / 4) =
        Fin.ofNat 0x1000 ((a - start).toNat / 4) := by
      apply Fin.ext
      rw [Fin.val_ofNat, Fin.val_ofNat]
      omega
    have hbyte : ((a - start).toNat - (4 * n - 0x4000)) % 4 = (a - start).toNat % 4 := by omega
    rw [bufferBytes, copyBytes_of_lt hcopied, hvalue hlow, if_pos (by omega), hindex, hbyte,
      h.buffer _ (by omega) (by omega) (by omega), counterByte]
  · have hlength : (bufferBytes s.testBuffer).length = 0x4000 := by
      rw [bufferBytes, List.length_map, List.length_range]
    have hsame : (a - start).toNat < 4 * (n - 0x1000) ↔ (a - start).toNat < 4 * n := by
      rw [hplace] at hcopied
      omega
    rw [copyBytes_of_not_lt (by rwa [hlength]), h.memory, hbefore]
    simp only [hsame]

theorem written_step (hsize : (paSize / 4).toNat = words) (h : Written start c words m n s)
    (hn : n ≤ words) :
    Written start c words m (n + 1)
      (writeWord kernelCopyData start paSize (BitVec.ofNat 32 n) s) := by
  rw [writeWord_eq hsize hn]
  refine ⟨?_, ?_, fun a => ?_⟩
  · dsimp only
    rw [h.counter, Nat.min_eq_left hn]
    split_ifs with hmore
    · rw [Nat.min_eq_left (by omega), BitVec.ofNat_add, ← add_assoc]
      rfl
    · rw [Nat.min_eq_right (by omega), not_not.mp hmore]
  · intro j hj hbelow hrecent
    dsimp only
    split_ifs with hmore
    · by_cases hnow : j = n
      · rw [hnow, Function.update_self, h.counter, Nat.min_eq_left hn]
      · have hother : Fin.ofNat 0x1000 j ≠ Fin.ofNat 0x1000 n := by
          rw [Ne, Fin.ext_iff, Fin.val_ofNat, Fin.val_ofNat]
          omega
        rw [Function.update_of_ne hother, h.buffer j (by omega) hbelow (by omega)]
    · exact h.buffer j (by omega) hbelow (by omega)
  · dsimp only
    by_cases hcopy : 0 < n ∧ n % 0x1000 = 0
    · rw [if_pos hcopy]
      exact copied_memory hcopies h hn (hsize ▸ toNat_div_four_lt paSize) hcopy.1 hcopy.2 a
    · rw [if_neg hcopy, h.memory, flushed_succ_of_not_full hcopy]

theorem written_words (hsize : (paSize / 4).toNat = words) (s : Writer) (hn : n ≤ words + 1) :
    Written start s.counter words s.memory n (writeWords kernelCopyData start paSize n s) := by
  induction n with
  | zero =>
    refine ⟨(BitVec.add_zero _).symm, fun j hj => absurd hj (Nat.not_lt_zero j), fun a => ?_⟩
    have hnone : 4 * flushed 0 = 0 := rfl
    rw [hnone, if_neg (Nat.not_lt_zero _)]
    rfl
  | succ n ih =>
    rw [writeWords, List.range_succ, List.foldl_append]
    exact written_step hcopies hsize (ih (by omega)) (by omega)

end Words

section Chunks

variable {kernelCopyData : U32 → List Byte → Memory 32 → Memory 32}
  (hcopies : ∀ dst bytes m, kernelCopyData dst bytes m = copyBytes m dst bytes)

include hcopies

theorem writeChunk_spec {v : MemoryValues} (hsize : 0x4000 ∣ size v) (s : Writer) :
    (writeChunk kernelCopyData v s).counter = s.counter + BitVec.ofNat 32 (size v / 4) ∧
      ∀ a, (writeChunk kernelCopyData v s).memory a =
        if Holds v a then some (counterByte s.counter (a - v.startAddress).toNat)
        else s.memory a := by
  have hwords : ((v.endAddress - v.startAddress) / 4).toNat = size v / 4 := BitVec.toNat_udiv
  have hend : Written v.startAddress s.counter (size v / 4) s.memory (size v / 4 + 1)
      (writeWords kernelCopyData v.startAddress (v.endAddress - v.startAddress)
        (size v / 4 + 1) s) :=
    written_words hcopies hwords s le_rfl
  have hall : 4 * flushed (size v / 4 + 1) = size v := by
    rw [flushed]
    omega
  rw [writeChunk, hwords]
  refine ⟨?_, fun a => ?_⟩
  · rw [hend.counter, Nat.min_eq_right (Nat.le_succ _)]
  · rw [hend.memory, hall]
    rfl

theorem writeChunks_spec {vs : List MemoryValues} (hsizes : ∀ v ∈ openChunks vs, 0x4000 ∣ size v)
    (hdisjoint : DisjointChunks (openChunks vs)) (s : Writer) :
    (∀ o p, physicalAt (openChunks vs) o = some p →
      (writeChunks kernelCopyData vs s).memory p = some (counterByte s.counter o)) ∧
    ∀ a, (∀ v ∈ openChunks vs, ¬ Holds v a) →
      (writeChunks kernelCopyData vs s).memory a = s.memory a := by
  induction vs generalizing s with
  | nil => exact ⟨fun o p h => absurd h (by simp [openChunks, physicalAt]), fun a _ => rfl⟩
  | cons v vs ih =>
    rw [writeChunks]
    by_cases hclosed : v.endAddress = 0 ∧ v.startAddress = 0
    · rw [if_pos hclosed, openChunks_closed hclosed]
      exact ⟨fun o p h => absurd h (by simp [physicalAt]), fun a _ => rfl⟩
    · rw [openChunks_cons hclosed] at hsizes hdisjoint ⊢
      obtain ⟨hsize, hsizes⟩ := List.forall_mem_cons.mp hsizes
      obtain ⟨happart, hdisjoint⟩ := List.pairwise_cons.mp hdisjoint
      obtain ⟨hcounter, hchunk⟩ := writeChunk_spec hcopies hsize s
      obtain ⟨hbytes, hframe⟩ := ih hsizes hdisjoint (writeChunk kernelCopyData v s)
      rw [if_neg hclosed]
      refine ⟨fun o p h => ?_, fun a ha => ?_⟩
      · rw [physicalAt] at h
        split_ifs at h with hfirst
        · -- A byte of the first chunk, which the later ones leave alone.
          obtain rfl := Option.some.inj h
          have hholds := holds_of_lt hfirst
          rw [hframe _ fun u hu hboth => happart u hu _ ⟨hholds, hboth⟩, hchunk, if_pos hholds,
            place_of_lt hfirst]
        · rw [hbytes _ p h, hcounter, counterByte_shift _ (by omega) (by omega)]
      · obtain ⟨hfirst, hrest⟩ := List.forall_mem_cons.mp ha
        rw [hframe a hrest, hchunk, if_neg hfirst]

theorem writeRegions_spec {T : List MemoryMapping} (hsizes : ∀ v ∈ tableChunks T, 0x4000 ∣ size v)
    (hdisjoint : DisjointChunks (tableChunks T)) (s : Writer) :
    (∀ m ∈ regionsOf T, ∀ o p, physicalAt (chunksOf m) o = some p →
      (writeRegions kernelCopyData T s).memory p = some (counterByte 0 o)) ∧
    ∀ a, (∀ v ∈ tableChunks T, ¬ Holds v a) →
      (writeRegions kernelCopyData T s).memory a = s.memory a := by
  induction T generalizing s with
  | nil => exact ⟨fun m hm => absurd hm (by simp [regionsOf]), fun a _ => rfl⟩
  | cons m T ih =>
    rw [writeRegions]
    cases hchunks : m.physicalAddresses with
    | none =>
      rw [regionsOf_closed hchunks]
      exact ⟨fun m hm => absurd hm (by simp), fun a _ => rfl⟩
    | some memVals =>
      have hopen : chunksOf m = openChunks memVals := by
        rw [chunksOf, hchunks, Option.getD_some]
      rw [tableChunks_cons hchunks, hopen] at hsizes hdisjoint ⊢
      rw [List.forall_mem_append] at hsizes
      obtain ⟨hfirst, hrest, happart⟩ := List.pairwise_append.mp hdisjoint
      obtain ⟨hbytes, hframe⟩ := writeChunks_spec hcopies hsizes.1 hfirst { s with counter := 0 }
      obtain ⟨hlater, hkept⟩ := ih hsizes.2 hrest
        (writeChunks kernelCopyData memVals { s with counter := 0 })
      refine ⟨?_, fun a ha => ?_⟩
      · rw [regionsOf_cons hchunks]
        intro r hr o p h
        rcases List.mem_cons.mp hr with rfl | hr
        · -- A byte of the first region, which the later ones leave alone.
          rw [hopen] at h
          obtain ⟨v, hv, hholds⟩ := physicalAt_holds h
          rw [hkept p fun u hu hboth => happart v hv u hu p ⟨hholds, hboth⟩]
          exact hbytes o p h
        · exact hlater r hr o p h
      · obtain ⟨hhere, hthere⟩ := List.forall_mem_append.mp ha
        rw [hkept a hthere, hframe a hhere]

end Chunks

section Words

variable {translate : U32 → U32} {T : List MemoryMapping}

theorem addSizes_eq (c : U32) (vs : List MemoryValues) :
    addSizes c vs = c + BitVec.ofNat 32 (regionSize (openChunks vs)) := by
  induction vs generalizing c with
  | nil => exact (BitVec.add_zero c).symm
  | cons v vs ih =>
    rw [addSizes]
    by_cases hclosed : v.endAddress = 0 ∧ v.startAddress = 0
    · rw [if_pos hclosed, openChunks_closed hclosed]
      exact (BitVec.add_zero c).symm
    · have hsize : BitVec.ofNat 32 (size v) = v.endAddress - v.startAddress := by
        rw [size, BitVec.ofNat_toNat, BitVec.setWidth_eq]
      rw [if_neg hclosed, ih, openChunks_cons hclosed, regionSize, regionSize, List.map_cons,
        List.sum_cons, BitVec.ofNat_add, hsize, add_assoc]

theorem load_region {m : MemoryMapping} {memory : Memory 32} (hm : m ∈ regionsOf T)
    (htranslates : TranslatesTable translate T)
    (hbytes : ∀ o p, physicalAt (chunksOf m) o = some p → memory p = some (counterByte 0 o))
    {j : ℕ} (hj : j < regionSize (chunksOf m) / 4) :
    load32 (seenThrough translate memory) (m.effectiveStartAddress + BitVec.ofNat 32 j * 4) =
      .ok (BitVec.ofNat 32 j) := by
  apply load32_of_bytes
  intro i hi
  have haddress : m.effectiveStartAddress + BitVec.ofNat 32 j * 4 + BitVec.ofNat 32 i =
      m.effectiveStartAddress + BitVec.ofNat 32 (j * 4 + i) := by
    rw [BitVec.ofNat_add, ← add_assoc, BitVec.ofNat_mul]
    rfl
  obtain ⟨p, hp⟩ : ∃ p, physicalAt (chunksOf m) (j * 4 + i) = some p :=
    physicalAt_isSome (by omega)
  have hword : (j * 4 + i) / 4 = j := by omega
  have hbyte : (j * 4 + i) % 4 = i := by omega
  rw [seenThrough, haddress, htranslates m hm _ p hp, hbytes _ p hp, counterByte, hword, hbyte,
    zero_add]

end Words

section Tables

theorem openChunks_toValues (cs : List Chunk) :
    openChunks (cs.map Chunk.toValues ++ [⟨0, 0⟩]) = cs.map Chunk.toValues := by
  induction cs with
  | nil => exact openChunks_closed ⟨rfl, rfl⟩ []
  | cons c cs ih =>
    rw [List.map_cons, List.cons_append, openChunks_cons fun h => c.stop_ne_zero h.1, ih]

theorem chunksOf_toMapping (r : Region) : chunksOf r.toMapping = r.chunks.map Chunk.toValues := by
  rw [chunksOf, Region.toMapping, Option.getD_some, openChunks_toValues]

theorem regionsOf_toArray (T : MappingTable) :
    regionsOf T.toArray = T.regions.map Region.toMapping := by
  rw [MappingTable.toArray]
  induction T.regions with
  | nil => exact regionsOf_closed rfl []
  | cons r rs ih => rw [List.map_cons, List.cons_append, regionsOf_cons rfl, ih]

theorem tableChunks_toArray (T : MappingTable) :
    tableChunks T.toArray = T.chunks.map Chunk.toValues := by
  rw [tableChunks, regionsOf_toArray, MappingTable.chunks, List.flatMap_map, List.map_flatMap]
  simp only [chunksOf_toMapping]

theorem physicalAt_toValues (cs : List Chunk) (o : ℕ) :
    physicalAt (cs.map Chunk.toValues) o =
      (address (cs.map Chunk.extent) o).map (BitVec.ofNat 32) := by
  induction cs generalizing o with
  | nil => rfl
  | cons c cs ih =>
    have hsize : size c.toValues = c.extent.size := c.size_toNat
    rw [List.map_cons, List.map_cons, physicalAt, address, hsize, ih]
    split_ifs
    · rw [Option.map_some, BitVec.ofNat_add]
      congr 2
      exact (BitVec.ofNat_toNat 32 c.start ▸ (BitVec.setWidth_eq c.start).symm)
    · rfl

theorem effectiveToPhysical_translates (T : MappingTable) :
    TranslatesTable (effectiveToPhysical T.toArray) T.toArray := by
  intro m hm o p h
  rw [regionsOf_toArray] at hm
  obtain ⟨r, hr, rfl⟩ := List.mem_map.mp hm
  rw [chunksOf_toMapping, physicalAt_toValues] at h
  obtain ⟨q, hq, rfl⟩ := Option.map_eq_some_iff.mp h
  have hinside : o < total (r.chunks.map Chunk.extent) :=
    (address_isSome_iff _ _).mp (by rw [hq]; rfl)
  have hlength := r.length_eq
  have hend := r.effectiveEnd.isLt
  have hplace : (r.effectiveStart + BitVec.ofNat 32 o).toNat = r.effectiveStart.toNat + o := by
    rw [BitVec.toNat_add, BitVec.toNat_ofNat]
    omega
  have hwindow : r.window.Contains (r.effectiveStart.toNat + o) := by
    simp only [Window.Contains, Region.window]
    omega
  have hmem : r.window ∈ windows T := List.mem_cons_of_mem _ (List.mem_map_of_mem hr)
  change effectiveToPhysical T.toArray (r.effectiveStart + BitVec.ofNat 32 o) = _
  rw [effectiveToPhysical_eq, hplace, forward_of_contains (windows_disjoint T) hmem hwindow]
  simp only [Region.window, Nat.add_sub_cancel_left, hq, found_some]

theorem disjointChunks_toArray {T : MappingTable} (hT : T.PhysicallyDisjoint) :
    DisjointChunks (tableChunks T.toArray) := by
  have hholds (c : Chunk) (pa : U32) (h : Holds c.toValues pa) : c.Contains pa := by
    have hsize : size c.toValues = c.stop.toNat - c.start.toNat := c.size_toNat
    have hstop := c.stop.isLt
    have hpa := pa.isLt
    rw [Holds, hsize, Chunk.toValues, BitVec.toNat_sub] at h
    rw [Chunk.Contains, BitVec.le_def, BitVec.lt_def]
    dsimp only at h
    omega
  rw [tableChunks_toArray]
  exact List.pairwise_map.mpr (hT.chunks_disjoint.imp fun h pa hboth =>
    h pa ⟨hholds _ pa hboth.1, hholds _ pa hboth.2⟩)

end Tables

end MemoryMappingModule.TestValues
