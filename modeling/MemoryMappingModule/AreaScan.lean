import MemoryMappingModule.StepLoop
import MemoryMappingModule.PageTableLookup

/-! `MemoryMapping_getAreaSizeFromPageTable`: a scan over the segments of a range and, in
each ordinary segment, over its pages, until a page has no entry in its primary group.
Cursor and end are 32-bit words. As long as the cursor does not pass the top of the
address space, the scan counts a prefix of the range's pages in ordinary segments. -/

namespace MemoryMappingModule.AreaScan

open StepLoop MappingLayout PageTableFormat PageTableLookup

structure Scan where
  addr : U32
  memSize : U32
deriving DecidableEq, Repr

/-- One pass of the page loop of a segment; it ends with `success` and the size so far. -/
def scanPage (sr : SrTable) (t : PageTable) (vsid curEndAddr : U32) (s : Scan) :
    Exec (Scan ⊕ Bool × U32) :=
  if s.addr < curEndAddr then do
    match ← getPageEntryForAddress sr.sdr1 s.addr vsid t false with
    | some _ => return .inl ⟨s.addr + pageSize, s.memSize + pageSize⟩
    | none => return .inr (false, s.memSize)
  else return .inr (true, s.memSize)

def scanSegments (passes : ℕ) (sr : SrTable) (t : PageTable) (srStart srEnd : ℕ)
    (endAddress : U32) : ℕ → ℕ → U32 → U32 → Option (Exec U32)
  | 0, _, _, memSize => some (.ok memSize)
  | n + 1, segment, curAddress, memSize =>
    let value := sr.value (Fin.ofNat 16 segment)
    if value >>> 31 ≠ 0 then
      scanSegments passes sr t srStart srEnd endAddress n (segment + 1) curAddress memSize
    else
      let vsid := value &&& 0xFFFFFF
      let curEndAddr :=
        if segment = srEnd then endAddress else BitVec.ofNat 32 (segment + 1) * 0x10000000
      let curAddress :=
        if segment ≠ srStart then BitVec.ofNat 32 segment * 0x10000000 else curAddress
      match run (scanPage sr t vsid curEndAddr) passes ⟨curAddress, memSize⟩ with
      | none => none
      | some (.error halt) => some (.error halt)
      | some (.ok (false, memSize)) => some (.ok memSize)
      | some (.ok (true, memSize)) =>
        scanSegments passes sr t srStart srEnd endAddress n (segment + 1) curAddress memSize

/-- `MemoryMapping_getAreaSizeFromPageTable` on what `KernelReadSRs` and `KernelReadPTE`
return, with at most `passes` passes of each page loop. -/
def getAreaSizeFromPageTable (passes : ℕ) (srTable : SrTable) (pageTable : PageTable)
    (start maxSize : U32) : Option (Exec U32) :=
  let srStart := (start >>> 28).toNat
  let srEnd := ((start + maxSize) >>> 28).toNat
  if srEnd < srStart then some (.ok 0)
  else scanSegments passes srTable pageTable srStart srEnd (start + maxSize)
    (srEnd + 1 - srStart) srStart start 0

def segmentRegister (sr : SrTable) (segment : ℕ) : U32 := sr.value (Fin.ofNat 16 segment)

section PageLoop

variable {sr : SrTable} {t : PageTable} {vsid stop cur : U32}

/-- A page whose primary group holds an entry for it. -/
def Found (sr : SrTable) (t : PageTable) (vsid addr : U32) : Prop :=
  (lookup sr addr vsid (entries t) false).isSome

instance (sr : SrTable) (t : PageTable) (vsid addr : U32) : Decidable (Found sr t vsid addr) :=
  inferInstanceAs (Decidable (_ = true))

theorem scanPage_cases (hmask : sr.htabMask ≤ 1) (t : PageTable) (vsid stop : U32) (s : Scan) :
    ¬ s.addr < stop ∧ scanPage sr t vsid stop s = .ok (.inr (true, s.memSize)) ∨
    s.addr < stop ∧ ¬ Found sr t vsid s.addr ∧
      scanPage sr t vsid stop s = .ok (.inr (false, s.memSize)) ∨
    s.addr < stop ∧ Found sr t vsid s.addr ∧
      scanPage sr t vsid stop s = .ok (.inl ⟨s.addr + pageSize, s.memSize + pageSize⟩) := by
  by_cases hlt : s.addr < stop
  · rw [scanPage, if_pos hlt, getPageEntryForAddress_eq hmask, Found]
    cases lookup sr s.addr vsid (entries t) false with
    | none => exact Or.inr (Or.inl ⟨hlt, by simp, rfl⟩)
    | some e => exact Or.inr (Or.inr ⟨hlt, rfl, rfl⟩)
  · exact Or.inl ⟨hlt, by rw [scanPage, if_neg hlt]; rfl⟩

theorem scan_pass (hmask : sr.htabMask ≤ 1) (mem : U32) {k : ℕ} (hlt : pagesOn cur k < stop)
    (hfound : Found sr t vsid (pagesOn cur k)) :
    scanPage sr t vsid stop ⟨pagesOn cur k, pagesOn mem k⟩ =
      .ok (.inl ⟨pagesOn cur (k + 1), pagesOn mem (k + 1)⟩) := by
  rw [← pagesOn_add_pageSize, ← pagesOn_add_pageSize]
  rcases scanPage_cases hmask t vsid stop ⟨pagesOn cur k, pagesOn mem k⟩ with ⟨h, _⟩ |
    ⟨_, h, _⟩ | ⟨_, _, hstep⟩
  · exact absurd hlt h
  · exact absurd hfound h
  · exact hstep

theorem scan_ends (hmask : sr.htabMask ≤ 1) (mem : U32) {n passes : ℕ} (hpasses : n < passes)
    (hfound : ∀ k < n, pagesOn cur k < stop ∧ Found sr t vsid (pagesOn cur k)) :
    (¬ pagesOn cur n < stop →
      run (scanPage sr t vsid stop) passes ⟨cur, mem⟩ = some (.ok (true, pagesOn mem n))) ∧
    (pagesOn cur n < stop → ¬ Found sr t vsid (pagesOn cur n) →
      run (scanPage sr t vsid stop) passes ⟨cur, mem⟩ = some (.ok (false, pagesOn mem n))) := by
  have last (r : Bool × U32) (hlast : scanPage sr t vsid stop ⟨pagesOn cur n, pagesOn mem n⟩ =
      .ok (.inr r)) : run (scanPage sr t vsid stop) passes ⟨cur, mem⟩ = some (.ok r) := by
    have hrun := run_of_states (fun k => Scan.mk (pagesOn cur k) (pagesOn mem k))
      (fun k hk => scan_pass hmask mem (hfound k hk).1 (hfound k hk).2) hlast hpasses
    simpa only [pagesOn_zero] using hrun
  rcases scanPage_cases hmask t vsid stop ⟨pagesOn cur n, pagesOn mem n⟩ with ⟨hlt, hstep⟩ |
    ⟨hlt, hpage, hstep⟩ | ⟨hlt, hpage, _⟩
  · exact ⟨fun _ => last _ hstep, fun h => absurd h hlt⟩
  · exact ⟨fun h => absurd hlt h, fun _ _ => last _ hstep⟩
  · exact ⟨fun h => absurd hlt h, fun _ h => absurd hpage h⟩

theorem scan_diverges (hmask : sr.htabMask ≤ 1) (mem : U32)
    (hfound : ∀ k, pagesOn cur k < stop ∧ Found sr t vsid (pagesOn cur k)) (passes : ℕ) :
    run (scanPage sr t vsid stop) passes ⟨cur, mem⟩ = none := by
  have hrun := run_eq_none_of_states (fun k => Scan.mk (pagesOn cur k) (pagesOn mem k))
    (fun k => scan_pass hmask mem (hfound k).1 (hfound k).2) passes
  simpa only [pagesOn_zero] using hrun

end PageLoop

section Pages

variable {sr : SrTable} {t : PageTable}

def pageAddr (p : ℕ) : U32 := BitVec.ofNat 32 (p * 0x20000)

def Ordinary (sr : SrTable) (p : ℕ) : Prop := sr.segment (pageAddr p) >>> 31 = 0

def PageFound (sr : SrTable) (t : PageTable) (p : ℕ) : Prop :=
  Found sr t (sr.vsid (pageAddr p)) (pageAddr p)

instance (sr : SrTable) : DecidablePred (Ordinary sr) :=
  fun _ => inferInstanceAs (Decidable (_ = _))

instance (sr : SrTable) (t : PageTable) : DecidablePred (PageFound sr t) :=
  fun _ => inferInstanceAs (Decidable (Found ..))

theorem pageAddr_toNat {p : ℕ} (hp : p < 0x8000) : (pageAddr p).toNat = p * 0x20000 := by
  rw [pageAddr, BitVec.toNat_ofNat]
  omega

theorem segmentIndex_pageAddr {p : ℕ} (hp : p < 0x8000) :
    SrTable.segmentIndex (pageAddr p) = Fin.ofNat 16 (p / 2048) := by
  apply Fin.ext
  change (pageAddr p >>> 28).toNat = p / 2048 % 16
  rw [BitVec.toNat_ushiftRight, pageAddr_toNat hp, Nat.shiftRight_eq_div_pow]
  omega

theorem found_congr {vsid a b : U32} (h : a.toNat / 0x20000 % 2048 = b.toNat / 0x20000 % 2048) :
    Found sr t vsid a ↔ Found sr t vsid b := by
  have index (x : U32) : (pageIndex x).toNat = x.toNat / 0x20000 % 2048 := by
    rw [pageIndex, pageIndexMask_eq, WordArithmetic.and_lowMask_toNat _ (by decide),
      BitVec.toNat_ushiftRight, Nat.shiftRight_eq_div_pow]
    rfl
  have api (x : U32) : (abbreviatedPageIndex x).toNat = x.toNat / 0x20000 % 2048 / 32 := by
    change (x >>> 22 &&& WordArithmetic.lowMask 32 6).toNat = _
    rw [WordArithmetic.and_lowMask_toNat _ (by decide), BitVec.toNat_ushiftRight,
      Nat.shiftRight_eq_div_pow]
    omega
  have hindex : pageIndex a = pageIndex b := BitVec.eq_of_toNat_eq (by rw [index, index, h])
  have hapi : abbreviatedPageIndex a = abbreviatedPageIndex b :=
    BitVec.eq_of_toNat_eq (by rw [api, api, h])
  rw [Found, Found, lookup, lookup, primaryHash, primaryHash, hindex, hapi]

/-- How many pages of a list the scan counts, and whether it gets to the end of the list. -/
def scanList (sr : SrTable) (t : PageTable) : List ℕ → ℕ × Bool
  | [] => (0, true)
  | p :: ps =>
    if Ordinary sr p then
      if PageFound sr t p then ((scanList sr t ps).1 + 1, (scanList sr t ps).2) else (0, false)
    else scanList sr t ps

theorem scanList_append (ps qs : List ℕ) : scanList sr t (ps ++ qs) =
    if (scanList sr t ps).2 then
      ((scanList sr t ps).1 + (scanList sr t qs).1, (scanList sr t qs).2)
    else scanList sr t ps := by
  induction ps with
  | nil => simp [scanList]
  | cons p ps ih =>
    by_cases hordinary : Ordinary sr p
    · by_cases hfound : PageFound sr t p
      · simp only [List.cons_append, scanList, if_pos hordinary, if_pos hfound, ih]
        split_ifs
        · simp only [Prod.mk.injEq, and_true]
          omega
        · rfl
      · simp [scanList, hordinary, hfound]
    · simp [scanList, hordinary, ih]

theorem scanList_direct {ps : List ℕ} (h : ∀ p ∈ ps, ¬ Ordinary sr p) :
    scanList sr t ps = (0, true) := by
  induction ps with
  | nil => rfl
  | cons p ps ih =>
    rw [scanList, if_neg (h p (by simp)), ih fun q hq => h q (by simp [hq])]

theorem scanList_length_le (sr : SrTable) (t : PageTable) (ps : List ℕ) :
    (scanList sr t ps).1 ≤ ps.length := by
  induction ps with
  | nil => exact le_rfl
  | cons p ps ih =>
    rw [scanList, List.length_cons]
    split_ifs
    · exact Nat.succ_le_succ ih
    · exact Nat.zero_le _
    · omega

theorem scanList_complete_iff (ps : List ℕ) : (scanList sr t ps).2 = true ↔
    ∀ p ∈ ps, Ordinary sr p → PageFound sr t p := by
  induction ps with
  | nil => simp [scanList]
  | cons p ps ih =>
    rw [List.forall_mem_cons, scanList]
    split_ifs with hordinary hfound
    · simp [ih, hfound]
    · simp [hordinary, hfound]
    · simp [ih, hordinary]

end Pages

section Segments

variable {sr : SrTable} {t : PageTable} {passes : ℕ}

theorem scanList_range {a n : ℕ} (hordinary : ∀ p ∈ List.range' a n, Ordinary sr p) :
    (∀ k < (scanList sr t (List.range' a n)).1, PageFound sr t (a + k)) ∧
      ((scanList sr t (List.range' a n)).1 = n ∧
          (scanList sr t (List.range' a n)).2 = true ∨
        (scanList sr t (List.range' a n)).1 < n ∧
          ¬ PageFound sr t (a + (scanList sr t (List.range' a n)).1) ∧
          (scanList sr t (List.range' a n)).2 = false) := by
  induction n generalizing a with
  | zero => exact ⟨fun k hk => absurd hk (Nat.not_lt_zero k), Or.inl ⟨rfl, rfl⟩⟩
  | succ n ih =>
    rw [List.range'_succ] at hordinary ⊢
    obtain ⟨hhead, htail⟩ := List.forall_mem_cons.mp hordinary
    obtain ⟨hfound, hend⟩ := ih htail
    rw [scanList, if_pos hhead]
    by_cases hpage : PageFound sr t a
    · rw [if_pos hpage]
      dsimp only
      refine ⟨fun k hk => ?_, ?_⟩
      · cases k with
        | zero => exact hpage
        | succ k =>
          have := hfound k (by omega)
          rwa [show a + 1 + k = a + (k + 1) by omega] at this
      · rcases hend with ⟨hall, hcomplete⟩ | ⟨hless, hmissing, hcomplete⟩
        · exact Or.inl ⟨by omega, hcomplete⟩
        · refine Or.inr ⟨by omega, ?_, hcomplete⟩
          rwa [show a + 1 + (scanList sr t (List.range' (a + 1) n)).1 =
            a + ((scanList sr t (List.range' (a + 1) n)).1 + 1) by omega] at hmissing
    · rw [if_neg hpage]
      exact ⟨fun k hk => absurd hk (Nat.not_lt_zero k), Or.inr ⟨by simp, by simpa using hpage, rfl⟩⟩

theorem segmentBase_toNat {segment : ℕ} (hsegment : segment < 16) :
    (BitVec.ofNat 32 segment * 0x10000000).toNat = segment * 0x10000000 := by
  rw [BitVec.toNat_mul, BitVec.toNat_ofNat]
  change segment % 2 ^ 32 * 0x10000000 % 2 ^ 32 = _
  omega

theorem segment_of_page {p segment : ℕ} (hp : p / 2048 = segment) (hsegment : segment < 16) :
    sr.segment (pageAddr p) = sr.value (Fin.ofNat 16 segment) := by
  rw [SrTable.segment, segmentIndex_pageAddr (by omega), hp]

/-- The page loop of an ordinary segment, as long as the cursor does not wrap. -/
theorem run_segment (hmask : sr.htabMask ≤ 1) {segment p n : ℕ} (hsegment : segment < 16)
    (hordinary : sr.value (Fin.ofNat 16 segment) >>> 31 = 0) {cur stop : U32} (mem : U32)
    (hpage : cur.toNat / 0x20000 = p) (hfirst : segment * 2048 ≤ p)
    (hlast : p + n ≤ (segment + 1) * 2048)
    (hbelow : ∀ k < n, cur.toNat + k * 0x20000 < stop.toNat)
    (hend : stop.toNat ≤ cur.toNat + n * 0x20000) (hfits : cur.toNat + n * 0x20000 < 2 ^ 32)
    (hpasses : n < passes) :
    run (scanPage sr t (sr.value (Fin.ofNat 16 segment) &&& 0xFFFFFF) stop) passes ⟨cur, mem⟩ =
      some (.ok ((scanList sr t (List.range' p n)).2,
        pagesOn mem (scanList sr t (List.range' p n)).1)) := by
  have inside (k : ℕ) (hk : k < n) :
      sr.segment (pageAddr (p + k)) = sr.value (Fin.ofNat 16 segment) :=
    segment_of_page (by omega) hsegment
  have hordinary' : ∀ q ∈ List.range' p n, Ordinary sr q := by
    intro q hq
    obtain ⟨k, hk, rfl⟩ := List.mem_range'.mp hq
    rw [Ordinary, Nat.one_mul, inside k hk]
    exact hordinary
  have address (k : ℕ) (hk : k < n) : (pagesOn cur k).toNat = cur.toNat + k * 0x20000 :=
    pagesOn_toNat (lt_trans (hbelow k hk) stop.isLt)
  have below (k : ℕ) (hk : k < n) : pagesOn cur k < stop := by
    rw [BitVec.lt_def, address k hk]
    exact hbelow k hk
  have found (k : ℕ) (hk : k < n) :
      Found sr t (sr.value (Fin.ofNat 16 segment) &&& 0xFFFFFF) (pagesOn cur k) ↔
        PageFound sr t (p + k) := by
    rw [PageFound, SrTable.vsid, inside k hk]
    apply found_congr
    have hlt : p + k < 0x8000 := by omega
    rw [address k hk, pageAddr_toNat hlt]
    omega
  obtain ⟨hfound, hend'⟩ := scanList_range (t := t) hordinary'
  have hle := scanList_length_le sr t (List.range' p n)
  rw [List.length_range'] at hle
  obtain ⟨hends, hstops⟩ := scan_ends hmask mem (lt_of_le_of_lt hle hpasses) fun k hk =>
    ⟨below k (by omega), (found k (by omega)).mpr (hfound k hk)⟩
  rcases hend' with ⟨hall, hcomplete⟩ | ⟨hless, hmissing, hcomplete⟩
  · rw [hcomplete]
    apply hends
    rw [hall, BitVec.lt_def, pagesOn_toNat hfits]
    omega
  · rw [hcomplete]
    exact hstops (below _ hless) (by rwa [found _ hless])

theorem not_ordinary_of_direct {segment p : ℕ} (hsegment : segment < 16)
    (hdirect : ¬ sr.value (Fin.ofNat 16 segment) >>> 31 = 0) (hp : p / 2048 = segment) :
    ¬ Ordinary sr p := by
  rw [Ordinary, segment_of_page hp hsegment]
  exact hdirect

theorem scanList_of_direct {segment p n : ℕ} (hsegment : segment < 16)
    (hdirect : ¬ sr.value (Fin.ofNat 16 segment) >>> 31 = 0) (hfirst : segment * 2048 ≤ p)
    (hlast : p + n ≤ (segment + 1) * 2048) : scanList sr t (List.range' p n) = (0, true) := by
  apply scanList_direct
  intro q hq
  obtain ⟨k, hk, rfl⟩ := List.mem_range'.mp hq
  exact not_ordinary_of_direct hsegment hdirect (by omega)

end Segments

section Area

variable {sr : SrTable} {t : PageTable} {passes n srStart srEnd segment : ℕ} {start stop mem : U32}

def firstPage (start : U32) (segment : ℕ) : ℕ :=
  if segment = start.toNat / 0x10000000 then start.toNat / 0x20000 else segment * 2048

def pagesBefore (start : U32) (segment next : ℕ) : List ℕ :=
  List.range' (firstPage start segment) (next * 2048 - firstPage start segment)

theorem firstPage_start (start : U32) :
    firstPage start (start.toNat / 0x10000000) = start.toNat / 0x20000 := by
  rw [firstPage, if_pos rfl]

theorem firstPage_bounds (start : U32) (segment : ℕ) :
    segment * 2048 ≤ firstPage start segment ∧
      firstPage start segment ≤ segment * 2048 + 2047 := by
  rw [firstPage]
  split_ifs with h
  · omega
  · omega

theorem pagesBefore_split (start : U32) {segment next : ℕ} (hnext : segment < next)
    (hstart : start.toNat / 0x10000000 ≤ segment) :
    pagesBefore start segment next =
      pagesBefore start segment (segment + 1) ++ pagesBefore start (segment + 1) next := by
  have hbounds := firstPage_bounds start segment
  have hfirst : firstPage start (segment + 1) = (segment + 1) * 2048 := by
    rw [firstPage, if_neg (by omega)]
  have hjoin : firstPage start segment + ((segment + 1) * 2048 - firstPage start segment) =
      (segment + 1) * 2048 := by omega
  have hcount : next * 2048 - firstPage start segment =
      ((segment + 1) * 2048 - firstPage start segment) + (next * 2048 - (segment + 1) * 2048) := by
    omega
  rw [pagesBefore, pagesBefore, pagesBefore, hfirst, hcount, ← List.range'_append_1, hjoin]

theorem scanSegments_cur (hsegment : srStart < segment) (cur cur' : U32) (n : ℕ) :
    scanSegments passes sr t srStart srEnd stop n segment cur mem =
      scanSegments passes sr t srStart srEnd stop n segment cur' mem := by
  induction n generalizing segment cur cur' with
  | zero => rfl
  | succ n ih =>
    have hne : segment ≠ srStart := by omega
    rw [scanSegments, scanSegments]
    simp only [hne, ne_eq, not_false_eq_true, if_true]
    rw [ih (Nat.lt_succ_of_lt hsegment) cur cur']

variable (hmask : sr.htabMask ≤ 1) (hstart : srStart = start.toNat / 0x10000000)
  (hend : srEnd < 16) (hpasses : 2048 < passes)

include hmask hstart hend hpasses

theorem scanSegments_step (hfrom : srStart ≤ segment) (hsegment : segment < srEnd) (mem : U32) :
    scanSegments passes sr t srStart srEnd stop (n + 1) segment start mem =
      if (scanList sr t (pagesBefore start segment (segment + 1))).2 then
        scanSegments passes sr t srStart srEnd stop n (segment + 1) start
          (pagesOn mem (scanList sr t (pagesBefore start segment (segment + 1))).1)
      else some (.ok
        (pagesOn mem (scanList sr t (pagesBefore start segment (segment + 1))).1)) := by
  have hbounds := firstPage_bounds start segment
  rw [scanSegments]
  by_cases hdirect : sr.value (Fin.ofNat 16 segment) >>> 31 = 0
  · have hvalue := segmentBase_toNat (show segment < 16 by omega)
    have hnext := segmentBase_toNat (show segment + 1 < 16 by omega)
    simp only [hdirect, ne_eq, not_true_eq_false, if_false, if_neg (Nat.ne_of_lt hsegment), ite_not]
    set cur := if segment = srStart then start else BitVec.ofNat 32 segment * 0x10000000 with hcur
    have hpage : cur.toNat / 0x20000 = firstPage start segment ∧
        cur.toNat % 0x20000 < 0x20000 ∧ cur.toNat < (segment + 1) * 0x10000000 := by
      rw [hcur, firstPage]
      split_ifs with h h' h'
      · omega
      · omega
      · omega
      · omega
    have hrun : run (scanPage sr t (sr.value (Fin.ofNat 16 segment) &&& 0xFFFFFF)
        (BitVec.ofNat 32 (segment + 1) * 0x10000000)) passes ⟨cur, mem⟩ =
          some (.ok ((scanList sr t (pagesBefore start segment (segment + 1))).2,
            pagesOn mem (scanList sr t (pagesBefore start segment (segment + 1))).1)) :=
      run_segment hmask (by omega) hdirect mem hpage.1 hbounds.1 (by omega)
        (by intro k hk; omega) (by omega) (by omega) (by omega)
    rw [hrun]
    cases (scanList sr t (pagesBefore start segment (segment + 1))).2 with
    | true => exact scanSegments_cur (by omega) cur start n
    | false => rfl
  · have hlist : scanList sr t (pagesBefore start segment (segment + 1)) = (0, true) :=
      scanList_of_direct (by omega) hdirect hbounds.1 (by omega)
    simp only [ne_eq, hdirect, not_false_eq_true, if_true, hlist, pagesOn_zero]

theorem scanSegments_before (hfrom : srStart ≤ segment) (hn : segment + n = srEnd) (mem : U32) :
    scanSegments passes sr t srStart srEnd stop (n + 1) segment start mem =
      if (scanList sr t (pagesBefore start segment srEnd)).2 then
        scanSegments passes sr t srStart srEnd stop 1 srEnd start
          (pagesOn mem (scanList sr t (pagesBefore start segment srEnd)).1)
      else some (.ok (pagesOn mem (scanList sr t (pagesBefore start segment srEnd)).1)) := by
  induction n generalizing segment mem with
  | zero =>
    obtain rfl : segment = srEnd := hn
    have hnone : pagesBefore start segment segment = [] := by
      have hbounds := firstPage_bounds start segment
      rw [pagesBefore, show segment * 2048 - firstPage start segment = 0 by omega]
      rfl
    rw [hnone, scanList, if_pos rfl, pagesOn_zero]
  | succ n ih =>
    have hsplit : pagesBefore start segment srEnd =
        pagesBefore start segment (segment + 1) ++ pagesBefore start (segment + 1) srEnd :=
      pagesBefore_split start (by omega) (hstart ▸ hfrom)
    rw [scanSegments_step hmask hstart hend hpasses hfrom (by omega) mem,
      ih (by omega) (by omega), hsplit, scanList_append]
    cases hcomplete : (scanList sr t (pagesBefore start segment (segment + 1))).2 with
    | true => simp only [if_true, pagesOn_pagesOn]
    | false => simp only [hcomplete, Bool.false_eq_true, if_false]

end Area

section Range

variable {sr : SrTable} {t : PageTable} {passes more n srStart srEnd segment : ℕ}
  {start maxSize stop mem cur : U32}

theorem pagesOn_zero_toNat (n : ℕ) : (pagesOn 0 n).toNat = n * 0x20000 % 2 ^ 32 := by
  rw [pagesOn, zero_add, BitVec.toNat_ofNat]

theorem scanSegments_mono {result : Exec U32}
    (h : scanSegments passes sr t srStart srEnd stop n segment cur mem = some result)
    (hle : passes ≤ more) :
    scanSegments more sr t srStart srEnd stop n segment cur mem = some result := by
  induction n generalizing segment cur mem with
  | zero => exact h
  | succ n ih =>
    rw [scanSegments] at h ⊢
    dsimp only at h ⊢
    split_ifs at h ⊢
    · exact ih h
    all_goals
      split at h
      · simp at h
      · next hrun =>
        rw [run_mono hrun hle]
        exact h
      · next hrun =>
        rw [run_mono hrun hle]
        exact h
      · next hrun =>
        rw [run_mono hrun hle]
        exact ih h

theorem getAreaSize_mono {result : Exec U32}
    (h : getAreaSizeFromPageTable passes sr t start maxSize = some result) (hle : passes ≤ more) :
    getAreaSizeFromPageTable more sr t start maxSize = some result := by
  rw [getAreaSizeFromPageTable] at h ⊢
  split_ifs at h ⊢
  · exact h
  · exact scanSegments_mono h hle

def lastCursor (start : U32) (srEnd : ℕ) : U32 :=
  if srEnd = start.toNat / 0x10000000 then start else BitVec.ofNat 32 srEnd * 0x10000000

theorem lastCursor_page (start : U32) (hend : srEnd < 16) :
    (lastCursor start srEnd).toNat / 0x20000 = firstPage start srEnd := by
  rw [lastCursor, firstPage]
  split_ifs
  · rfl
  · rw [segmentBase_toNat hend]
    omega

theorem scanSegments_last (start mem : U32) :
    scanSegments passes sr t (start.toNat / 0x10000000) srEnd stop 1 srEnd start mem =
      if sr.value (Fin.ofNat 16 srEnd) >>> 31 ≠ 0 then some (.ok mem)
      else (run (scanPage sr t (sr.value (Fin.ofNat 16 srEnd) &&& 0xFFFFFF) stop) passes
        ⟨lastCursor start srEnd, mem⟩).map fun result => result.map Prod.snd := by
  rw [scanSegments]
  dsimp only
  simp only [if_true, ite_not, scanSegments, lastCursor]
  by_cases hdirect : sr.value (Fin.ofNat 16 srEnd) >>> 31 = 0
  · rw [if_pos hdirect, if_pos hdirect]
    cases run (scanPage sr t (sr.value (Fin.ofNat 16 srEnd) &&& 0xFFFFFF) stop) passes _ with
    | none => rfl
    | some result =>
      cases result with
      | error halt => rfl
      | ok r =>
        obtain ⟨success, size⟩ := r
        cases success <;> rfl
  · rw [if_neg hdirect, if_neg hdirect]

theorem stop_toNat (hlt : start.toNat + maxSize.toNat < 2 ^ 32) :
    (start + maxSize).toNat = start.toNat + maxSize.toNat :=
  BitVec.toNat_add_of_lt hlt

theorem getAreaSize_eq (hmask : sr.htabMask ≤ 1) (hlt : start.toNat + maxSize.toNat < 2 ^ 32)
    (hpasses : 2048 < passes) (hend : srEnd = (start.toNat + maxSize.toNat) / 0x10000000) :
    getAreaSizeFromPageTable passes sr t start maxSize =
      if (scanList sr t (pagesBefore start (start.toNat / 0x10000000) srEnd)).2 then
        scanSegments passes sr t (start.toNat / 0x10000000) srEnd (start + maxSize) 1 srEnd start
          (pagesOn 0 (scanList sr t (pagesBefore start (start.toNat / 0x10000000) srEnd)).1)
      else some (.ok (pagesOn 0
        (scanList sr t (pagesBefore start (start.toNat / 0x10000000) srEnd)).1)) := by
  have hsrStart : (start >>> 28).toNat = start.toNat / 0x10000000 := by
    rw [BitVec.toNat_ushiftRight, Nat.shiftRight_eq_div_pow]
  have hsrEnd : ((start + maxSize) >>> 28).toNat = srEnd := by
    rw [BitVec.toNat_ushiftRight, Nat.shiftRight_eq_div_pow, stop_toNat hlt, hend]
  rw [getAreaSizeFromPageTable]
  simp only [hsrStart, hsrEnd]
  have hle : start.toNat / 0x10000000 ≤ srEnd := by omega
  rw [if_neg (by omega), show srEnd + 1 - start.toNat / 0x10000000 =
    srEnd - start.toNat / 0x10000000 + 1 by omega]
  exact scanSegments_before hmask rfl (by omega) hpasses le_rfl (by omega) 0

end Range

section Fits

variable {sr : SrTable} {t : PageTable} {passes n srEnd : ℕ} {start maxSize stop : U32}

theorem scanSegments_last_of_fits (hmask : sr.htabMask ≤ 1) (hend : srEnd < 16)
    (hlast : firstPage start srEnd + n ≤ (srEnd + 1) * 2048)
    (hbelow : ∀ k < n, (lastCursor start srEnd).toNat + k * 0x20000 < stop.toNat)
    (hstop : stop.toNat ≤ (lastCursor start srEnd).toNat + n * 0x20000)
    (hfits : (lastCursor start srEnd).toNat + n * 0x20000 < 2 ^ 32) (hpasses : 2048 < passes)
    (mem : U32) :
    scanSegments passes sr t (start.toNat / 0x10000000) srEnd stop 1 srEnd start mem =
      some (.ok (pagesOn mem (scanList sr t (List.range' (firstPage start srEnd) n)).1)) := by
  have hbounds := firstPage_bounds start srEnd
  rw [scanSegments_last]
  by_cases hdirect : sr.value (Fin.ofNat 16 srEnd) >>> 31 = 0
  · rw [if_neg (not_not.mpr hdirect), run_segment hmask hend hdirect mem
      (lastCursor_page start hend) hbounds.1 hlast hbelow hstop hfits (by omega)]
    rfl
  · have hnone : scanList sr t (List.range' (firstPage start srEnd) n) = (0, true) :=
      scanList_of_direct hend hdirect hbounds.1 hlast
    rw [if_pos hdirect, hnone, pagesOn_zero]

theorem getAreaSize_of_fits (hmask : sr.htabMask ≤ 1)
    (hlt : start.toNat + maxSize.toNat < 2 ^ 32)
    (hend : srEnd = (start.toNat + maxSize.toNat) / 0x10000000)
    (hlast : firstPage start srEnd + n ≤ (srEnd + 1) * 2048)
    (hbelow : ∀ k < n, (lastCursor start srEnd).toNat + k * 0x20000 < start.toNat + maxSize.toNat)
    (hstop : start.toNat + maxSize.toNat ≤ (lastCursor start srEnd).toNat + n * 0x20000)
    (hfits : (lastCursor start srEnd).toNat + n * 0x20000 < 2 ^ 32) (hpasses : 2048 < passes) :
    getAreaSizeFromPageTable passes sr t start maxSize =
      some (.ok (pagesOn 0 (scanList sr t (List.range' (start.toNat / 0x20000)
        (firstPage start srEnd + n - start.toNat / 0x20000))).1)) := by
  have hbounds := firstPage_bounds start srEnd
  have hsplit : List.range' (start.toNat / 0x20000)
        (firstPage start srEnd + n - start.toNat / 0x20000) =
      pagesBefore start (start.toNat / 0x10000000) srEnd ++
        List.range' (firstPage start srEnd) n := by
    have hfirst := firstPage_start start
    rw [pagesBefore, hfirst]
    by_cases hsame : srEnd = start.toNat / 0x10000000
    · rw [show srEnd * 2048 - start.toNat / 0x20000 = 0 by omega, hsame, hfirst]
      simp
    · have hbase : firstPage start srEnd = srEnd * 2048 := by
        rw [firstPage, if_neg hsame]
      rw [hbase, show srEnd * 2048 + n - start.toNat / 0x20000 =
        (srEnd * 2048 - start.toNat / 0x20000) + n by omega, ← List.range'_append_1]
      congr 2
      omega
  rw [getAreaSize_eq hmask hlt hpasses hend, hsplit, scanList_append]
  cases hcomplete :
      (scanList sr t (pagesBefore start (start.toNat / 0x10000000) srEnd)).2 with
  | false => simp only [Bool.false_eq_true, if_false]
  | true =>
    rw [if_pos rfl, if_pos rfl, scanSegments_last_of_fits hmask (by omega) hlast
      (by rwa [stop_toNat hlt]) (by rwa [stop_toNat hlt]) hfits hpasses, pagesOn_pagesOn]

end Fits

end MemoryMappingModule.AreaScan
