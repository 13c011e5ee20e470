import MemoryMappingModule.RunScan
import MemoryMappingModule.WordArithmetic
import MemoryMappingModule.TestValues

/-! The search for free memory. `MemoryMapping_searchEmptyMemoryRegions` reads the words of
each region, prints the zero ranges that are more than 512 kB long, cut to blocks of 128 kB,
and whatever zero range is left open at the region's end. Behind a word that is not zero it
goes on at the next 128 kB boundary. It refines a scan for long runs. -/

namespace MemoryMappingModule.FreeRegionSearch

open StepLoop ByteMemory MappingLayout WordArithmetic RunScan TestValues

section Program

inductive SearchReport where
  /-- `+ Free between 0x%08X and 0x%08X size: %u kB` -/
  | free (start stop size : U32)
  /-- `+ Good  between 0x%08X and 0x%08X size: %u kB` -/
  | good (start stop size : U32)
  /-- `- Used between 0x%08X and 0x%08X size: %u kB` -/
  | used (start stop size : U32)
  /-- `Test %d was successful!` -/
  | successful (region : ℕ)
deriving DecidableEq, Repr

structure Searcher where
  j : U32
  success : Bool
  inFailRange : Bool
  startFailing : U32
  startGood : U32
  reports : List SearchReport

def freeReport (startGood address : U32) : SearchReport :=
  let startAddr := startGood &&& 0xFFFE0000
  let startAddr := if startAddr ≠ startGood then startAddr + 0x20000 else startAddr
  let endAddr := (address - memoryStartBase) &&& 0xFFFE0000
  .free (startAddr - memoryStartBase) endAddr ((endAddr - (startGood - memoryStartBase)) / 1024)

def searchNote (address word : U32) (s : Searcher) : Searcher :=
  if word ≠ 0 then
    if s.inFailRange then { s with success := false, j := s.j + 1 }
    else
      { j := ((s.j &&& 0xFFFF8000) + 0x00008000 - 1) + 1
        success := false
        inFailRange := true
        startFailing := address
        startGood := 0
        reports :=
          if (address - s.startGood) / 1024 > 512 then s.reports ++ [freeReport s.startGood address]
          else s.reports }
  else if s.inFailRange then
    { s with j := s.j + 1, inFailRange := false, startFailing := 0, startGood := address }
  else { s with j := s.j + 1 }

/-- One pass of the loop over the words of a region. -/
def searchWord (view : Memory 32) (eaStartAddress eaSize : U32) (s : Searcher) :
    Except U32 (Searcher ⊕ Searcher) :=
  if s.j < eaSize / 4 then do
    let word ← load32 view (eaStartAddress + s.j * 4)
    return .inl (searchNote (eaStartAddress + s.j * 4) word s)
  else return .inr s

/-- What the search prints at the end of a region. -/
def closeSearch (i : ℕ) (eaStartAddress eaSize : U32) (s : Searcher) : List SearchReport :=
  s.reports ++
    (if s.startGood ≠ 0 ∧ s.startGood ≠ eaStartAddress + eaSize then
      [.good (s.startGood - memoryStartBase) (eaStartAddress + eaSize - memoryStartBase)
        ((eaStartAddress + eaSize - s.startGood) / 1024)]
    else if s.inFailRange then
      [.used s.startFailing (eaStartAddress + eaSize)
        ((eaStartAddress + eaSize - s.startFailing) / 1024)]
    else []) ++
    if s.success then [.successful (i + 1)] else []

/-- The search of one region, with at most `passes` passes of the loop over its words. -/
def searchRegion (passes : ℕ) (view : Memory 32) (i : ℕ) (eaStartAddress eaSize : U32) :
    Option (Except U32 (List SearchReport)) :=
  match run (searchWord view eaStartAddress eaSize) passes
    ⟨0, true, false, 0, eaStartAddress, []⟩ with
  | none => none
  | some (.error address) => some (.error address)
  | some (.ok s) => some (.ok (closeSearch i eaStartAddress eaSize s))

def searchRegions (passes : ℕ) (view : Memory 32) :
    ℕ → List MemoryMapping → Option (Except U32 (List (List SearchReport)))
  | _, [] => some (.ok [])
  | i, m :: rest =>
    match m.physicalAddresses with
    | none => some (.ok [])
    | some memVals =>
      match searchRegion passes view i m.effectiveStartAddress (addSizes 0 memVals) with
      | none => none
      | some (.error address) => some (.error address)
      | some (.ok reports) => (searchRegions passes view (i + 1) rest).map (·.map (reports :: ·))

/-- `MemoryMapping_searchEmptyMemoryRegions` in its debug build, on memory as it is seen at
effective addresses. -/
def searchEmptyMemoryRegions (passes : ℕ) (memMapping : List MemoryMapping) (view : Memory 32) :
    Option (Except U32 (List (List SearchReport))) :=
  searchRegions passes view 0 memMapping

end Program

section Findings

def SearchReport.range : SearchReport → Option (U32 × U32)
  | .free start stop _ => some (start + memoryStartBase, stop + memoryStartBase)
  | .good start stop _ => some (start + memoryStartBase, stop + memoryStartBase)
  | .used .. => none
  | .successful _ => none

def ranges (reports : List SearchReport) : List (U32 × U32) := reports.filterMap SearchReport.range

def wordAddress (start : U32) (i : ℕ) : U32 := start + BitVec.ofNat 32 (4 * i)

def ClearBlock (view : Memory 32) (start : U32) (k : ℕ) : Prop :=
  ∀ w < 0x8000, load32 view (wordAddress start (0x8000 * k + w)) = .ok 0

def Encloses (start : U32) (k : ℕ) (r : U32 × U32) : Prop :=
  r.1.toNat ≤ start.toNat + 0x20000 * k ∧ start.toNat + 0x20000 * (k + 1) ≤ r.2.toNat

instance (start : U32) (k : ℕ) (r : U32 × U32) : Decidable (Encloses start k r) :=
  inferInstanceAs (Decidable (_ ∧ _))

/-- A region of whole blocks above the start of the module's memory. -/
structure Searchable (m : MemoryMapping) : Prop where
  base_le : memoryStartBase ≤ m.effectiveStartAddress
  start_dvd : 0x20000 ∣ m.effectiveStartAddress.toNat
  size_dvd : 0x20000 ∣ regionSize (chunksOf m)
  fits : m.effectiveStartAddress.toNat + regionSize (chunksOf m) < 2 ^ 32

instance (m : MemoryMapping) : Decidable (Searchable m) :=
  decidable_of_iff (memoryStartBase ≤ m.effectiveStartAddress ∧
      0x20000 ∣ m.effectiveStartAddress.toNat ∧ 0x20000 ∣ regionSize (chunksOf m) ∧
      m.effectiveStartAddress.toNat + regionSize (chunksOf m) < 2 ^ 32)
    ⟨fun h => ⟨h.1, h.2.1, h.2.2.1, h.2.2.2⟩,
      fun h => ⟨h.base_le, h.start_dvd, h.size_dvd, h.fits⟩⟩

/-- What is printed about a region is free, and no large free area is missed. -/
structure FindsFree (view : Memory 32) (m : MemoryMapping) (reports : List SearchReport) :
    Prop where
  sound : ∀ r ∈ ranges reports, ∀ a : U32, 4 ∣ a.toNat → r.1 ≤ a → a < r.2 →
    load32 view a = .ok 0
  complete : ∀ b n, 5 ≤ n → 0x20000 * (b + n) ≤ regionSize (chunksOf m) →
    (∀ k, b ≤ k → k < b + n → ClearBlock view m.effectiveStartAddress k) →
    ∀ k, b ≤ k → k < b + n →
      (ranges reports).countP (fun r => Encloses m.effectiveStartAddress k r) = 1

end Findings

section Words

variable {start : U32} {n i g : ℕ}

theorem wordAddress_toNat (hfits : start.toNat + 4 * n < 2 ^ 32) (hi : i ≤ n) :
    (wordAddress start i).toNat = start.toNat + 4 * i := by
  rw [wordAddress, BitVec.toNat_add, BitVec.toNat_ofNat]
  omega

theorem wordAddress_ofIndex (start j : U32) : start + j * 4 = wordAddress start j.toNat := by
  have hword : j * 4 = BitVec.ofNat 32 (4 * j.toNat) := by
    rw [Nat.mul_comm, BitVec.ofNat_mul, BitVec.ofNat_toNat, BitVec.setWidth_eq]
    rfl
  rw [wordAddress, hword]

theorem blockMask_toNat (x : U32) : (x &&& 0xFFFE0000).toNat = blockDown 0x20000 x.toNat := by
  have hdown : x &&& 0xFFFE0000 = alignDown x 0x20000 := rfl
  have hmod := Nat.div_add_mod' x.toNat 0x20000
  rw [hdown, alignDown_toNat x (show (0x20000 : U32).toNat = 2 ^ 17 from rfl), blockDown]
  omega

theorem jump_toNat {j : U32} (hj : j.toNat < 2 ^ 30) :
    (((j &&& 0xFFFF8000) + 0x00008000 - 1) + 1).toNat = blockDown 0x8000 j.toNat + 0x8000 := by
  have hdown : j &&& 0xFFFF8000 = alignDown j 0x8000 := rfl
  have hmod := Nat.div_add_mod' j.toNat 0x8000
  have hmask : (j &&& 0xFFFF8000).toNat = blockDown 0x8000 j.toNat := by
    rw [hdown, alignDown_toNat j (show (0x8000 : U32).toNat = 2 ^ 15 from rfl), blockDown]
    omega
  have hle : blockDown 0x8000 j.toNat ≤ j.toNat := blockDown_le
  rw [sub_add_cancel, BitVec.toNat_add, hmask]
  change (_ + 0x8000) % 2 ^ 32 = _
  omega

theorem long_iff (hfits : start.toNat + 4 * n < 2 ^ 32) (hi : i ≤ n) (hg : g ≤ i) :
    (wordAddress start i - wordAddress start g) / 1024 > 512 ↔ 0x20100 ≤ i - g := by
  have hword := wordAddress_toNat hfits hi
  have hgood := wordAddress_toNat hfits (hg.trans hi)
  have hdiff : (wordAddress start i - wordAddress start g).toNat = 4 * (i - g) := by
    rw [BitVec.toNat_sub_of_le (BitVec.le_def.mpr (by omega)), hword, hgood]
    omega
  rw [gt_iff_lt, BitVec.lt_def, BitVec.toNat_udiv, hdiff]
  change 512 < 4 * (i - g) / 1024 ↔ _
  omega

theorem startAddr_eq (hdvd : 0x20000 ∣ start.toNat) (hfits : start.toNat + 4 * n < 2 ^ 32)
    (hg : g ≤ n) (hup : blockUp 0x8000 g ≤ n) :
    (if wordAddress start g &&& 0xFFFE0000 ≠ wordAddress start g then
        (wordAddress start g &&& 0xFFFE0000) + 0x20000
      else wordAddress start g &&& 0xFFFE0000) = wordAddress start (blockUp 0x8000 g) := by
  have hgood := wordAddress_toNat hfits hg
  have hmask := blockMask_toNat (wordAddress start g)
  rw [hgood, blockDown] at hmask
  apply BitVec.eq_of_toNat_eq
  rw [wordAddress_toNat hfits hup]
  rw [blockUp] at hup ⊢
  split_ifs with hround
  · rw [Ne, ← BitVec.toNat_inj, hmask, hgood] at hround
    rw [BitVec.toNat_add, hmask]
    change (_ + 0x20000) % 2 ^ 32 = _
    omega
  · rw [Ne, ← BitVec.toNat_inj, hmask, hgood] at hround
    rw [hmask]
    omega

theorem endAddr_eq (hbase : memoryStartBase ≤ start) (hdvd : 0x20000 ∣ start.toNat)
    (hfits : start.toNat + 4 * n < 2 ^ 32) (hi : i ≤ n) :
    ((wordAddress start i - memoryStartBase) &&& 0xFFFE0000) + memoryStartBase =
      wordAddress start (blockDown 0x8000 i) := by
  have hword := wordAddress_toNat hfits hi
  have hdown : blockDown 0x8000 i ≤ i := blockDown_le
  have hbase' : 0x80000000 ≤ start.toNat := BitVec.le_def.mp hbase
  have hsub : (wordAddress start i - memoryStartBase).toNat = start.toNat + 4 * i - 0x80000000 := by
    rw [BitVec.toNat_sub_of_le (BitVec.le_def.mpr ?_), hword]
    · rfl
    · rw [hword]
      exact hbase'.trans (Nat.le_add_right _ _)
  apply BitVec.eq_of_toNat_eq
  rw [wordAddress_toNat hfits (hdown.trans hi), BitVec.toNat_add, blockMask_toNat, hsub, blockDown,
    blockDown]
  change (_ + 0x80000000) % 2 ^ 32 = _
  omega

theorem freeReport_range (hbase : memoryStartBase ≤ start) (hdvd : 0x20000 ∣ start.toNat)
    (hfits : start.toNat + 4 * n < 2 ^ 32) (hi : i ≤ n) (hlong : 0x20100 ≤ i - g) :
    (freeReport (wordAddress start g) (wordAddress start i)).range =
      some (wordAddress start (blockUp 0x8000 g), wordAddress start (blockDown 0x8000 i)) := by
  have hup : blockUp 0x8000 g ≤ n := by
    rw [blockUp]
    omega
  rw [← startAddr_eq hdvd hfits (by omega) hup, ← endAddr_eq hbase hdvd hfits hi]
  simp only [freeReport, SearchReport.range, sub_add_cancel]

end Words

section Refinement

def ClearWord (view : Memory 32) (start : U32) (i : ℕ) : Prop :=
  load32 view (wordAddress start i) = .ok 0

instance (view : Memory 32) (start : U32) (i : ℕ) : Decidable (ClearWord view start i) :=
  inferInstanceAs (Decidable (_ = _))

def addresses (start : U32) (r : ℕ × ℕ) : U32 × U32 :=
  (wordAddress start r.1, wordAddress start r.2)

/-- The loop's variables are those of a scan over the indices of a region's words. -/
structure Represents (start : U32) (s : Searcher) (a : Scan) : Prop where
  next : s.j.toNat = a.next
  failing : s.inFailRange = a.start.isNone
  good : s.startGood = (a.start.map (wordAddress start)).getD 0
  found : ranges s.reports = a.ranges.map (addresses start)

variable {view : Memory 32} {start eaSize word : U32} {n : ℕ} {s : Searcher} {a : Scan}

theorem succ_toNat {j : U32} (hj : j.toNat < 2 ^ 30) : (j + 1).toNat = j.toNat + 1 := by
  rw [BitVec.toNat_add]
  change (_ + 1) % 2 ^ 32 = _
  omega

theorem found_record (hbase : memoryStartBase ≤ start) (hdvd : 0x20000 ∣ start.toNat)
    (hfits : start.toNat + 4 * n < 2 ^ 32) {g i : ℕ} (hg : g ≤ i) (hi : i ≤ n)
    {reports : List SearchReport} {rs : List (ℕ × ℕ)}
    (hfound : ranges reports = rs.map (addresses start)) :
    ranges (if (wordAddress start i - wordAddress start g) / 1024 > 512 then
        reports ++ [freeReport (wordAddress start g) (wordAddress start i)] else reports) =
      (record 0x8000 0x20100 g i rs).map (addresses start) := by
  rw [record]
  by_cases hlong : 0x20100 ≤ i - g
  · have hrange := freeReport_range hbase hdvd hfits hi hlong
    rw [if_pos ((long_iff hfits hi hg).mpr hlong), if_pos hlong, ranges, List.filterMap_append,
      List.filterMap_cons, hrange, List.filterMap_nil, List.map_append, ← hfound]
    rfl
  · rw [if_neg fun h => hlong ((long_iff hfits hi hg).mp h), if_neg hlong]
    exact hfound

/-- A pass of the loop is a pass of the scan. -/
theorem searchNote_refines (hbase : memoryStartBase ≤ start) (hdvd : 0x20000 ∣ start.toNat)
    (hfits : start.toNat + 4 * n < 2 ^ 32) (h : Represents start s a)
    (hscanned : Scanned (ClearWord view start) 0x8000 0x20100 a) (hnext : a.next < n)
    (hword : load32 view (wordAddress start a.next) = .ok word) :
    Represents start (searchNote (wordAddress start a.next) word s)
      (note (ClearWord view start) 0x8000 0x20100 a) := by
  obtain ⟨next, st, rs⟩ := a
  obtain ⟨hj, hfailing, hgood, hfound⟩ := h
  dsimp only at hj hfailing hgood hfound hnext hword
  have hbound : s.j.toNat < 2 ^ 30 := by omega
  have hsucc := succ_toNat hbound
  have hclear : ClearWord view start next ↔ word = 0 := by
    rw [ClearWord, hword, Except.ok.injEq]
  cases st with
  | some g =>
    have hg : g ≤ next := (hscanned.inside g rfl).1
    simp only [note, searchNote, hfailing, hclear, Option.isNone_some, Bool.false_eq_true, if_false]
    by_cases hzero : word = 0
    · rw [if_neg (not_not.mpr hzero), if_pos hzero]
      exact ⟨hsucc.trans (by rw [hj]), rfl, hgood, hfound⟩
    · rw [if_pos hzero, if_neg hzero]
      have hrecord := found_record hbase hdvd hfits hg hnext.le hfound
      simp only [Option.map_some, Option.getD_some] at hgood
      rw [hgood]
      exact ⟨(jump_toNat hbound).trans (by rw [hj]), rfl, rfl, hrecord⟩
  | none =>
    simp only [note, searchNote, hfailing, hclear, Option.isNone_none, if_true]
    by_cases hzero : word = 0
    · rw [if_neg (not_not.mpr hzero), if_pos hzero]
      exact ⟨hsucc.trans (by rw [hj]), rfl, rfl, hfound⟩
    · rw [if_pos hzero, if_neg hzero]
      exact ⟨hsucc.trans (by rw [hj]), rfl, hgood, hfound⟩

theorem note_next_le (hblock : 0x8000 ∣ n) (hnext : a.next < n) :
    (note (ClearWord view start) 0x8000 0x20100 a).next ≤ n := by
  have hjump : blockDown 0x8000 a.next + 0x8000 ≤ n := blockDown_add_le (by decide) hblock hnext
  rw [note]
  split <;> split_ifs
  · exact hnext
  · exact hjump
  · exact hnext
  · exact hnext

theorem lt_note_next : a.next < (note (ClearWord view start) 0x8000 0x20100 a).next := by
  rw [note]
  split <;> split_ifs
  · exact Nat.lt_succ_self _
  · exact lt_blockDown_add (by decide)
  · exact Nat.lt_succ_self _
  · exact Nat.lt_succ_self _

theorem search_run (hbase : memoryStartBase ≤ start) (hdvd : 0x20000 ∣ start.toNat)
    (hsize : eaSize.toNat = 4 * n) (hblock : 0x8000 ∣ n)
    (hfits : start.toNat + 4 * n < 2 ^ 32) (hmapped : ∀ ea, Returns (load32 view ea)) :
    ∃ s, run (searchWord view start eaSize) (n + 1) ⟨0, true, false, 0, start, []⟩ =
        some (.ok s) ∧ ∃ a, Represents start s a ∧
      Scanned (ClearWord view start) 0x8000 0x20100 a ∧ a.next = n := by
  have hcount : (eaSize / 4).toNat = n := by
    rw [BitVec.toNat_udiv, hsize]
    exact Nat.mul_div_cancel_left n (by decide)
  have hfirst : Represents start ⟨0, true, false, 0, start, []⟩ ⟨0, some 0, []⟩ :=
    ⟨rfl, rfl, (add_zero start).symm, rfl⟩
  refine run_of_invariant
    (fun s => ∃ a, Represents start s a ∧ Scanned (ClearWord view start) 0x8000 0x20100 a ∧
      a.next ≤ n)
    (fun s => n - s.j.toNat) ?_ ⟨_, hfirst, scanned_start, Nat.zero_le n⟩
  rintro s ⟨a, hrep, hscanned, hle⟩
  rcases Nat.lt_or_ge a.next n with hnext | hend
  · obtain ⟨word, hword⟩ := hmapped (wordAddress start a.next)
    have hlt : s.j < eaSize / 4 := by
      rw [BitVec.lt_def, hcount, hrep.next]
      exact hnext
    have hpass : searchWord view start eaSize s =
        .ok (.inl (searchNote (wordAddress start a.next) word s)) := by
      rw [searchWord, if_pos hlt, wordAddress_ofIndex, hrep.next, hword]
      rfl
    have hnote := searchNote_refines hbase hdvd hfits hrep hscanned hnext hword
    have hless : a.next < (note (ClearWord view start) 0x8000 0x20100 a).next := lt_note_next
    refine .inr ⟨_, hpass, ⟨_, hnote, scanned_note (by decide) (by decide) hscanned,
      note_next_le hblock hnext⟩, ?_⟩
    rw [hnote.next, hrep.next]
    omega
  · have hge : ¬ s.j < eaSize / 4 := by
      rw [BitVec.lt_def, hcount, hrep.next]
      omega
    refine .inl ⟨s, ?_, a, hrep, hscanned, by omega⟩
    rw [searchWord, if_neg hge]
    rfl

theorem closeSearch_ranges (i : ℕ) (hbase : memoryStartBase ≤ start)
    (hsize : eaSize.toNat = 4 * n) (hfits : start.toNat + 4 * n < 2 ^ 32)
    (hrep : Represents start s a) (hscanned : Scanned (ClearWord view start) 0x8000 0x20100 a)
    (hend : a.next = n) :
    ranges (closeSearch i start eaSize s) = (close n a).map (addresses start) := by
  obtain ⟨next, st, rs⟩ := a
  obtain ⟨_, hfailing, hgood, hfound⟩ := hrep
  obtain rfl : next = n := hend
  have hstop : start + eaSize = wordAddress start next := by
    rw [wordAddress, ← hsize, BitVec.ofNat_toNat, BitVec.setWidth_eq]
  have hsuccess : ranges (if s.success then [.successful (i + 1)] else []) = [] := by
    split_ifs <;> rfl
  rw [ranges] at hfound hsuccess ⊢
  rw [closeSearch, List.filterMap_append, List.filterMap_append, hsuccess, List.append_nil, hfound]
  cases st with
  | some g =>
    have hg : g ≤ next := (hscanned.inside g rfl).1
    have hstart := wordAddress_toNat hfits hg
    have hlast := wordAddress_toNat hfits (le_refl next)
    have hbase' : 0x80000000 ≤ start.toNat := BitVec.le_def.mp hbase
    have hne : wordAddress start g ≠ 0 := by
      rw [Ne, ← BitVec.toNat_inj, hstart]
      change ¬ _ = 0
      omega
    have hopen : wordAddress start g ≠ wordAddress start next ↔ g ≠ next := by
      rw [Ne, ← BitVec.toNat_inj, hstart, hlast]
      omega
    simp only [Option.map_some, Option.getD_some] at hgood
    simp only [hgood, hstop, hne, hopen, hfailing, close, ne_eq, not_false_eq_true, true_and,
      Option.isNone_some, Bool.false_eq_true, if_false]
    by_cases hclosed : g = next
    · rw [if_neg (not_not.mpr hclosed), if_pos hclosed, List.filterMap_nil, List.append_nil]
    · rw [if_pos hclosed, if_neg hclosed, List.map_append]
      simp [SearchReport.range, addresses]
  | none =>
    have hzero : s.startGood = 0 := hgood
    have hfail : s.inFailRange = true := hfailing
    simp [hzero, hfail, close, SearchReport.range]

end Refinement

section Guarantees

variable {view : Memory 32} {m : MemoryMapping} {reports : List SearchReport} {rs : List (ℕ × ℕ)}
  {start eaSize : U32} {n : ℕ}

theorem encloses_iff (hfits : start.toNat + 4 * n < 2 ^ 32) {r : ℕ × ℕ} (hlow : r.1 ≤ n)
    (hhigh : r.2 ≤ n) (k : ℕ) :
    Encloses start k (addresses start r) ↔ Covers r (0x8000 * k) (0x8000 * (k + 1)) := by
  rw [Encloses, Covers, addresses, wordAddress_toNat hfits hlow, wordAddress_toNat hfits hhigh]
  omega

theorem longRun_of_blocks {b k : ℕ} (hk : 5 ≤ k)
    (hclear : ∀ j, b ≤ j → j < b + k → ClearBlock view start j) :
    LongRun (ClearWord view start) 0x8000 0x20100 (0x8000 * b) (0x8000 * (b + k)) := by
  refine ⟨Nat.dvd_mul_right _ _, Nat.dvd_mul_right _ _, by omega, fun i hlow hhigh => ?_⟩
  have hword := hclear (i / 0x8000) (by omega) (by omega) (i % 0x8000) (Nat.mod_lt i (by decide))
  rwa [Nat.div_add_mod] at hword

theorem findsFree_of_recorded (hm : Searchable m) (hsize : regionSize (chunksOf m) = 4 * n)
    (hrecorded : Recorded (ClearWord view m.effectiveStartAddress) 0x8000 0x20100 n rs)
    (hranges : ranges reports = rs.map (addresses m.effectiveStartAddress)) :
    FindsFree view m reports := by
  obtain ⟨_, hdvd, _, hfits⟩ := hm
  rw [hsize] at hfits
  have hbounds (r : ℕ × ℕ) (hr : r ∈ rs) : r.1 ≤ n ∧ r.2 ≤ n :=
    ⟨(hrecorded.sound r hr).1.trans (hrecorded.inside r hr), hrecorded.inside r hr⟩
  constructor
  · intro range hrange a ha hlow hhigh
    rw [hranges] at hrange
    obtain ⟨r, hr, rfl⟩ := List.mem_map.mp hrange
    obtain ⟨hfirst, hlast⟩ := hbounds r hr
    rw [addresses, BitVec.le_def, wordAddress_toNat hfits hfirst] at hlow
    rw [addresses, BitVec.lt_def, wordAddress_toNat hfits hlast] at hhigh
    have hindex : a = wordAddress m.effectiveStartAddress
        ((a.toNat - m.effectiveStartAddress.toNat) / 4) := by
      apply BitVec.eq_of_toNat_eq
      rw [wordAddress_toNat hfits (by omega)]
      omega
    rw [hindex]
    exact (hrecorded.sound r hr).2 _ (by omega) (by omega)
  · intro b k hk hinside hclear j hlow hhigh
    have hrun := longRun_of_blocks hk hclear
    have hcount := hrecorded.countP_covers hrun (by omega) (a := 0x8000 * j)
      (b := 0x8000 * (j + 1)) (by omega) (by omega) (by omega)
    rw [hranges, List.countP_map, ← hcount]
    refine List.countP_congr fun r hr => ?_
    obtain ⟨hfirst, hlast⟩ := hbounds r hr
    rw [Function.comp_apply, decide_eq_true_iff, decide_eq_true_iff]
    exact encloses_iff hfits hfirst hlast j

theorem searchRegion_finds (i : ℕ) (hm : Searchable m)
    (hsize : eaSize.toNat = regionSize (chunksOf m)) (hmapped : ∀ ea, Returns (load32 view ea)) :
    ∃ reports, searchRegion (2 ^ 30) view i m.effectiveStartAddress eaSize = some (.ok reports) ∧
      FindsFree view m reports := by
  obtain ⟨n, hn⟩ : ∃ n, regionSize (chunksOf m) = 4 * n :=
    Nat.dvd_trans (by decide : 4 ∣ 0x20000) hm.size_dvd
  have hdvd := hm.size_dvd
  have hfits := hm.fits
  have hblock : 0x8000 ∣ n := by omega
  rw [hn] at hfits
  obtain ⟨s, hrun, a, hrep, hscanned, hend⟩ := search_run hm.base_le hm.start_dvd
    (hsize.trans hn) hblock hfits hmapped
  refine ⟨closeSearch i m.effectiveStartAddress eaSize s, ?_, ?_⟩
  · rw [searchRegion, run_mono hrun (by omega)]
  · have hranges := closeSearch_ranges i hm.base_le (hsize.trans hn) hfits hrep hscanned hend
    exact findsFree_of_recorded hm hn (hend ▸ hscanned.close (by decide)) hranges

theorem lt_searchNote (address word : U32) {s : Searcher} (hj : s.j.toNat < 2 ^ 30) :
    s.j.toNat < (searchNote address word s).j.toNat := by
  have hsucc := succ_toNat hj
  have hjump := jump_toNat hj
  have hless : s.j.toNat < blockDown 0x8000 s.j.toNat + 0x8000 := lt_blockDown_add (by decide)
  rw [searchNote]
  split_ifs <;> dsimp only <;> omega

theorem searchRegion_ends (start eaSize : U32) (i : ℕ)
    (hmapped : ∀ ea, Returns (load32 view ea)) :
    ∃ reports, searchRegion (2 ^ 30) view i start eaSize = some (.ok reports) := by
  have hbound := toNat_div_four_lt eaSize
  have hpass (s : Searcher) (_ : True) :
      (∃ r, searchWord view start eaSize s = .ok (.inr r) ∧ True) ∨
        ∃ u, searchWord view start eaSize s = .ok (.inl u) ∧ True ∧
          (eaSize / 4).toNat - u.j.toNat < (eaSize / 4).toNat - s.j.toNat := by
    rw [searchWord]
    split_ifs with hlt
    · rw [BitVec.lt_def] at hlt
      obtain ⟨word, hword⟩ := hmapped (start + s.j * 4)
      have hless := lt_searchNote (start + s.j * 4) word (hlt.trans hbound)
      refine .inr ⟨_, by rw [hword]; rfl, trivial, by omega⟩
    · exact .inl ⟨s, rfl, trivial⟩
  obtain ⟨s, hrun, _⟩ := run_of_invariant (fun _ => True)
    (fun s : Searcher => (eaSize / 4).toNat - s.j.toNat) hpass
    (trivial : (fun _ : Searcher => True) ⟨0, true, false, 0, start, []⟩)
  refine ⟨closeSearch i start eaSize s, ?_⟩
  rw [searchRegion, run_mono hrun]
  exact (Nat.succ_le_succ (Nat.sub_le _ _)).trans hbound

theorem searchRegions_finds (hmapped : ∀ ea, Returns (load32 view ea)) (i : ℕ)
    (T : List MemoryMapping) :
    ∃ logs, searchRegions (2 ^ 30) view i T = some (.ok logs) ∧
      List.Forall₂ (fun m reports => Searchable m → FindsFree view m reports) (regionsOf T)
        logs := by
  induction T generalizing i with
  | nil => exact ⟨[], rfl, .nil⟩
  | cons m T ih =>
    rw [searchRegions]
    cases hchunks : m.physicalAddresses with
    | none =>
      rw [regionsOf_closed hchunks]
      exact ⟨[], rfl, .nil⟩
    | some memVals =>
      rw [regionsOf_cons hchunks]
      have hopen : chunksOf m = openChunks memVals := by
        rw [chunksOf, hchunks, Option.getD_some]
      have hfinds : ∃ reports, searchRegion (2 ^ 30) view i m.effectiveStartAddress
          (addSizes 0 memVals) = some (.ok reports) ∧
          (Searchable m → FindsFree view m reports) := by
        by_cases hm : Searchable m
        · have hsize : (addSizes 0 memVals).toNat = regionSize (chunksOf m) := by
            have hfits := hm.fits
            rw [addSizes_eq, zero_add, BitVec.toNat_ofNat, hopen]
            exact Nat.mod_eq_of_lt (by rw [← hopen]; omega)
          obtain ⟨reports, hregion, hfound⟩ := searchRegion_finds i hm hsize hmapped
          exact ⟨reports, hregion, fun _ => hfound⟩
        · obtain ⟨reports, hregion⟩ :=
            searchRegion_ends m.effectiveStartAddress (addSizes 0 memVals) i hmapped
          exact ⟨reports, hregion, fun h => absurd h hm⟩
      obtain ⟨reports, hregion, hfound⟩ := hfinds
      obtain ⟨logs, hrest, hall⟩ := ih (i + 1)
      refine ⟨reports :: logs, ?_, .cons hfound hall⟩
      dsimp only
      rw [hregion, hrest]
      rfl

/-- Whatever memory holds, what the search calls free in a region of whole blocks is zero, and
it misses no area of five blocks or more. -/
theorem searchEmptyMemoryRegions_finds (bytes : U32 → Byte) (T : List MemoryMapping) :
    ∃ passes logs, searchEmptyMemoryRegions passes T (Memory.ofBytes bytes) = some (.ok logs) ∧
      List.Forall₂ (fun m reports => Searchable m → FindsFree (Memory.ofBytes bytes) m reports)
        (regionsOf T) logs := by
  obtain ⟨logs, hrun, hall⟩ := searchRegions_finds
    (fun ea => returns_load32_iff.mpr (Mapped.ofBytes bytes ea 4)) 0 T
  exact ⟨2 ^ 30, logs, hrun, hall⟩

theorem memMapping_searched :
    ∃ passes logs, searchEmptyMemoryRegions passes memMapping (Memory.ofBytes fun _ => 0) =
        some (.ok logs) ∧
      List.Forall₂ (FindsFree (Memory.ofBytes fun _ => 0)) (regionsOf memMapping) logs := by
  have hsearchable : ∀ m ∈ regionsOf memMapping, Searchable m := by decide
  obtain ⟨passes, logs, hrun, hall⟩ := searchEmptyMemoryRegions_finds (fun _ => 0) memMapping
  refine ⟨passes, logs, hrun, ?_⟩
  have hboth := (List.forall₂_and_left _ _).mpr ⟨hsearchable, hall⟩
  exact hboth.imp fun m reports h => h.2 h.1

end Guarantees

end MemoryMappingModule.FreeRegionSearch
