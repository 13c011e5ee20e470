import MemoryMappingModule.AreaScan

/-! `MemoryMapping_printPageTableTranslation`: a scan over all segments and their pages
that keeps one open record and stores it when a page does not continue it. A record of
zeros stands for no open record, and a record is stored only if its address and its size
are not zero. -/

namespace MemoryMappingModule.TranslationDump

open StepLoop MappingLayout PageTableFormat PageTableLookup AreaScan

/-- `pageInformation` -/
structure PageInformation where
  addr : U32
  size : U32
  ks : U32
  kp : U32
  nx : U32
  pp : U32
  phys : U32
deriving DecidableEq, Repr

def PageInformation.zero : PageInformation := ⟨0, 0, 0, 0, 0, 0, 0⟩

structure PageRecord where
  addr : U32
  ks : U32
  kp : U32
  nx : U32
  pp : U32
  phys : U32
deriving DecidableEq, Repr

structure Dump where
  current : PageInformation
  pageInfos : List PageInformation
deriving DecidableEq, Repr

namespace Dump

def initial : Dump := ⟨.zero, []⟩

/-- Store the open record and clear it. -/
def close (d : Dump) : Dump :=
  if d.current.addr ≠ 0 ∧ d.current.size ≠ 0 then ⟨.zero, d.pageInfos ++ [d.current]⟩ else d

/-- What the body of the page loop does with a page, found or not. -/
def note (d : Dump) : Option PageRecord → Dump
  | some r =>
    if d.current.ks = r.ks ∧ d.current.kp = r.kp ∧ d.current.nx = r.nx ∧ d.current.pp = r.pp ∧
        d.current.phys = r.phys - d.current.size then
      { d with current := { d.current with size := d.current.size + pageSize } }
    else { d.close with current := ⟨r.addr, pageSize, r.ks, r.kp, r.nx, r.pp, r.phys⟩ }
  | none => d.close

end Dump

def recordOf (value addr : U32) (e : Pte) : PageRecord :=
  ⟨addr, (value >>> 30) &&& 1, (value >>> 29) &&& 1, (value >>> 28) &&& 1, e.low &&& 3,
    e.low &&& 0xFFFFF000⟩

/-- One pass of the page loop of a segment. -/
def dumpPage (sr : SrTable) (t : PageTable) (value endAddr : U32) (s : U32 × Dump) :
    Exec (U32 × Dump ⊕ Dump) :=
  if s.1 < endAddr then do
    let e ← getPageEntryForAddress sr.sdr1 s.1 (value &&& 0xFFFFFF) t false
    return .inl (s.1 + pageSize, s.2.note (e.map (recordOf value s.1)))
  else return .inr s.2

def dumpSegments (passes : ℕ) (sr : SrTable) (t : PageTable) :
    ℕ → ℕ → Dump → Option (Exec Dump)
  | 0, _, d => some (.ok d)
  | n + 1, segment, d =>
    let value := segmentRegister sr segment
    if value >>> 31 ≠ 0 then dumpSegments passes sr t n (segment + 1) d
    else
      match run (dumpPage sr t value (BitVec.ofNat 32 (segment + 1) * 0x10000000)) passes
        (BitVec.ofNat 32 segment * 0x10000000, d) with
      | none => none
      | some (.error halt) => some (.error halt)
      | some (.ok d) => dumpSegments passes sr t n (segment + 1) d

/-- `MemoryMapping_printPageTableTranslation` up to the printing: the records it prints, with
at most `passes` passes of each page loop. -/
def printPageTableTranslation (passes : ℕ) (srTable : SrTable) (translationTable : PageTable) :
    Option (Exec (List PageInformation)) :=
  (dumpSegments passes srTable translationTable 16 0 .initial).map fun result =>
    result.map Dump.pageInfos

section Pages

variable {sr : SrTable} {t : PageTable}

def pageRecord (sr : SrTable) (t : PageTable) (p : ℕ) : Option PageRecord :=
  if Ordinary sr p then
    match getPageEntryForAddress sr.sdr1 (pageAddr p) (sr.vsid (pageAddr p)) t false with
    | .ok (some e) => some (recordOf (sr.segment (pageAddr p)) (pageAddr p) e)
    | _ => none
  else none

theorem pageRecord_of_direct {p : ℕ} (hdirect : ¬ Ordinary sr p) : pageRecord sr t p = none := by
  rw [pageRecord, if_neg hdirect]

theorem pageRecord_eq (hmask : sr.htabMask ≤ 1) {p : ℕ} (hordinary : Ordinary sr p) :
    pageRecord sr t p = (lookup sr (pageAddr p) (sr.vsid (pageAddr p)) (entries t) false).map
      (recordOf (sr.segment (pageAddr p)) (pageAddr p)) := by
  rw [pageRecord, if_pos hordinary, getPageEntryForAddress_eq hmask]
  cases lookup sr (pageAddr p) (sr.vsid (pageAddr p)) (entries t) false with
  | none => rfl
  | some e => rfl

theorem pageRecord_addr {p : ℕ} {r : PageRecord} (hr : pageRecord sr t p = some r) :
    r.addr = pageAddr p := by
  rw [pageRecord] at hr
  split_ifs at hr
  split at hr
  · rw [← Option.some.inj hr]
    rfl
  · simp at hr

theorem pageAddr_succ (p : ℕ) : pageAddr p + pageSize = pageAddr (p + 1) := by
  apply BitVec.eq_of_toNat_eq
  rw [BitVec.toNat_add, pageAddr, pageAddr, BitVec.toNat_ofNat, BitVec.toNat_ofNat]
  change (p * 0x20000 % 2 ^ 32 + 0x20000) % 2 ^ 32 = _
  omega

def dumpedTo (sr : SrTable) (t : PageTable) : ℕ → Dump
  | 0 => .initial
  | p + 1 =>
    if Ordinary sr p then (dumpedTo sr t p).note (pageRecord sr t p) else dumpedTo sr t p

theorem dumpedTo_direct {p n : ℕ} (hdirect : ∀ q, p ≤ q → q < p + n → ¬ Ordinary sr q) :
    dumpedTo sr t (p + n) = dumpedTo sr t p := by
  induction n with
  | zero => rfl
  | succ n ih =>
    rw [← Nat.add_assoc, dumpedTo, if_neg (hdirect (p + n) (by omega) (by omega)),
      ih fun q hq hlt => hdirect q hq (by omega)]

end Pages

section Segments

variable {sr : SrTable} {t : PageTable} {passes more n segment : ℕ}

theorem segmentAddr (segment : ℕ) :
    (BitVec.ofNat 32 segment * 0x10000000 : U32) = pageAddr (segment * 2048) := by
  apply BitVec.eq_of_toNat_eq
  rw [BitVec.toNat_mul, BitVec.toNat_ofNat, pageAddr, BitVec.toNat_ofNat]
  change segment % 2 ^ 32 * 0x10000000 % 2 ^ 32 = _
  omega

theorem dump_pass (hmask : sr.htabMask ≤ 1) (hsegment : segment < 15)
    (hordinary : segmentRegister sr segment >>> 31 = 0) (hn : n < 2048) :
    dumpPage sr t (segmentRegister sr segment) (pageAddr ((segment + 1) * 2048))
        (pageAddr (segment * 2048 + n), dumpedTo sr t (segment * 2048 + n)) =
      .ok (.inl (pageAddr (segment * 2048 + (n + 1)),
        dumpedTo sr t (segment * 2048 + (n + 1)))) := by
  have hvalue : sr.segment (pageAddr (segment * 2048 + n)) = segmentRegister sr segment :=
    segment_of_page (by omega) (by omega)
  have hpage : Ordinary sr (segment * 2048 + n) := by
    rw [Ordinary, hvalue]
    exact hordinary
  have hbelow : pageAddr (segment * 2048 + n) < pageAddr ((segment + 1) * 2048) := by
    rw [BitVec.lt_def, pageAddr_toNat (by omega), pageAddr_toNat (by omega)]
    omega
  rw [dumpPage, if_pos hbelow, getPageEntryForAddress_eq hmask, ← Nat.add_assoc, dumpedTo,
    if_pos hpage, pageRecord_eq hmask hpage, SrTable.vsid, hvalue, ← pageAddr_succ]
  rfl

theorem dump_segment (hmask : sr.htabMask ≤ 1) (hsegment : segment < 15)
    (hordinary : segmentRegister sr segment >>> 31 = 0) (hpasses : 2048 < passes) :
    run (dumpPage sr t (segmentRegister sr segment) (pageAddr ((segment + 1) * 2048)))
      passes (pageAddr (segment * 2048), dumpedTo sr t (segment * 2048)) =
        some (.ok (dumpedTo sr t ((segment + 1) * 2048))) := by
  have hlast : dumpPage sr t (segmentRegister sr segment) (pageAddr ((segment + 1) * 2048))
      (pageAddr (segment * 2048 + 2048), dumpedTo sr t (segment * 2048 + 2048)) =
        .ok (.inr (dumpedTo sr t ((segment + 1) * 2048))) := by
    rw [show segment * 2048 + 2048 = (segment + 1) * 2048 by omega]
    exact if_neg (BitVec.lt_irrefl _)
  have hrun := run_of_states
    (fun n => (pageAddr (segment * 2048 + n), dumpedTo sr t (segment * 2048 + n)))
    (fun n hn => dump_pass hmask hsegment hordinary hn) hlast hpasses
  simpa only [Nat.add_zero] using hrun

theorem dumpSegments_step (hmask : sr.htabMask ≤ 1) (hsegment : segment < 15)
    (hpasses : 2048 < passes) :
    dumpSegments passes sr t (n + 1) segment (dumpedTo sr t (segment * 2048)) =
      dumpSegments passes sr t n (segment + 1) (dumpedTo sr t ((segment + 1) * 2048)) := by
  rw [dumpSegments]
  by_cases hordinary : segmentRegister sr segment >>> 31 = 0
  · simp only [hordinary, ne_eq, not_true_eq_false, if_false, segmentAddr,
      dump_segment hmask hsegment hordinary hpasses]
  · have hsame : dumpedTo sr t ((segment + 1) * 2048) = dumpedTo sr t (segment * 2048) := by
      rw [Nat.add_mul, Nat.one_mul]
      exact dumpedTo_direct fun q hq hlt =>
        not_ordinary_of_direct (by omega) hordinary (by omega)
    simp only [ne_eq, hordinary, not_false_eq_true, if_true, hsame]

/-- The end of segment 15 is address 0 as a word, so none of its pages is scanned. -/
theorem dumpSegments_top (hpasses : 0 < passes) (d : Dump) :
    dumpSegments passes sr t 1 15 d = some (.ok d) := by
  obtain ⟨k, rfl⟩ : ∃ k, passes = k + 1 := ⟨passes - 1, by omega⟩
  have hend (value : U32) (s : U32 × Dump) :
      dumpPage sr t value (BitVec.ofNat 32 (15 + 1) * 0x10000000) s = .ok (.inr s.2) := by
    rw [dumpPage, if_neg (by rw [BitVec.lt_def]; exact Nat.not_lt_zero _)]
    rfl
  rw [dumpSegments]
  simp only [run_done (hend _ _), dumpSegments, ite_self]

theorem dumpSegments_eq (hmask : sr.htabMask ≤ 1) (hpasses : 2048 < passes)
    (hn : segment + n = 15) :
    dumpSegments passes sr t (n + 1) segment (dumpedTo sr t (segment * 2048)) =
      some (.ok (dumpedTo sr t 0x7800)) := by
  induction n generalizing segment with
  | zero =>
    obtain rfl : segment = 15 := by omega
    exact dumpSegments_top (by omega) _
  | succ n ih =>
    rw [dumpSegments_step hmask (by omega) hpasses, ih (by omega)]

/-- The dump scans the first fifteen segments. -/
theorem printPageTableTranslation_eq (hmask : sr.htabMask ≤ 1) (t : PageTable)
    (hpasses : 2048 < passes) : printPageTableTranslation passes sr t =
      some (.ok (dumpedTo sr t 0x7800).pageInfos) := by
  have hrun := dumpSegments_eq (t := t) (n := 15) hmask hpasses (Nat.zero_add 15)
  rw [printPageTableTranslation]
  rw [Nat.zero_mul, dumpedTo] at hrun
  rw [hrun]
  rfl

theorem dumpSegments_mono {d : Dump} {result : Exec Dump}
    (h : dumpSegments passes sr t n segment d = some result) (hle : passes ≤ more) :
    dumpSegments more sr t n segment d = some result := by
  induction n generalizing segment d with
  | zero => exact h
  | succ n ih =>
    rw [dumpSegments] at h ⊢
    split_ifs at h ⊢
    · exact ih h
    · split at h
      · simp at h
      · next hrun =>
        rw [run_mono hrun hle]
        exact h
      · next hrun =>
        rw [run_mono hrun hle]
        exact ih h

theorem printPageTableTranslation_mono {result : Exec (List PageInformation)}
    (h : printPageTableTranslation passes sr t = some result) (hle : passes ≤ more) :
    printPageTableTranslation more sr t = some result := by
  obtain ⟨d, hd, rfl⟩ := Option.map_eq_some_iff.mp h
  rw [printPageTableTranslation, dumpSegments_mono hd hle]
  rfl

end Segments

end MemoryMappingModule.TranslationDump
