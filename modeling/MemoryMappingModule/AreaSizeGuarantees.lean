import MemoryMappingModule.AreaScan

/-! What the size of an area says. Against the contiguous translated prefix of a range the
scan differs in two ways: it looks pages up in their primary group only, and it goes on
behind a direct-store segment. Against the number of pages of the range it differs when
the cursor passes the top of the address space, where segment 15 begins again. -/

namespace MemoryMappingModule.AreaSizeGuarantees

open StepLoop MappingLayout PageTableFormat PageTableLookup AreaScan

section Prefix

variable {sr : SrTable} {t : PageTable}

def translated (sr : SrTable) (t : PageTable) (p : ℕ) : Bool :=
  decide (Ordinary sr p) &&
    match getPageEntryForAddress sr.sdr1 (pageAddr p) (sr.vsid (pageAddr p)) t true with
    | .ok (some _) => true
    | _ => false

def translatedPrefix (sr : SrTable) (t : PageTable) (start maxSize : U32) : ℕ :=
  ((List.range' (start.toNat / 0x20000) (maxSize.toNat / 0x20000)).takeWhile
    (translated sr t)).length

/-- As long as the pages before it are all found, each page of the list that is translated is
found in its primary group, and a page of a direct-store segment is followed, behind other
such pages, by a page that is not found or by none. -/
def MeasuresPrefix (sr : SrTable) (t : PageTable) (ps : List ℕ) : Prop :=
  ∀ pre p post, ps = pre ++ p :: post → (∀ q ∈ pre, Ordinary sr q ∧ PageFound sr t q) →
    (translated sr t p = true → PageFound sr t p) ∧
      (¬ Ordinary sr p → ∀ mid q rest, post = mid ++ q :: rest → (∀ x ∈ mid, ¬ Ordinary sr x) →
        Ordinary sr q → ¬ PageFound sr t q)

theorem translated_iff (hmask : sr.htabMask ≤ 1) (p : ℕ) : translated sr t p = true ↔
    Ordinary sr p ∧ (lookup sr (pageAddr p) (sr.vsid (pageAddr p)) (entries t) true).isSome := by
  rw [translated, getPageEntryForAddress_eq hmask]
  cases lookup sr (pageAddr p) (sr.vsid (pageAddr p)) (entries t) true with
  | none => simp
  | some e => simp

theorem translated_of_found (hmask : sr.htabMask ≤ 1) {p : ℕ} (hordinary : Ordinary sr p)
    (hfound : PageFound sr t p) : translated sr t p = true := by
  rw [translated_iff hmask]
  refine ⟨hordinary, ?_⟩
  simp only [PageFound, Found, lookup] at hfound ⊢
  cases hprimary : findInGroup (entries t) (sr.vsid (pageAddr p))
      (abbreviatedPageIndex (pageAddr p)) 0
      (pteg sr.htabMask (primaryHash (sr.vsid (pageAddr p)) (pageAddr p))).toNat with
  | some e => rfl
  | none =>
    rw [hprimary] at hfound
    exact absurd hfound (by simp)

theorem scanList_eq_zero_iff (ps : List ℕ) : (scanList sr t ps).1 = 0 ↔
    ∀ mid q rest, ps = mid ++ q :: rest → (∀ x ∈ mid, ¬ Ordinary sr x) → Ordinary sr q →
      ¬ PageFound sr t q := by
  induction ps with
  | nil => simp [scanList]
  | cons p ps ih =>
    rw [scanList]
    by_cases hordinary : Ordinary sr p
    · have hhead : (∀ mid q rest, p :: ps = mid ++ q :: rest → (∀ x ∈ mid, ¬ Ordinary sr x) →
          Ordinary sr q → ¬ PageFound sr t q) ↔ ¬ PageFound sr t p := by
        constructor
        · intro h
          exact h [] p ps rfl (by simp) hordinary
        · intro h mid q rest hsplit hmid _
          cases mid with
          | nil =>
            obtain ⟨rfl, _⟩ := List.cons.inj hsplit
            exact h
          | cons x mid =>
            obtain ⟨rfl, _⟩ := List.cons.inj hsplit
            exact absurd hordinary (hmid p (by simp))
      rw [if_pos hordinary, hhead]
      split_ifs with hfound <;> simp [hfound]
    · rw [if_neg hordinary, ih]
      constructor
      · intro h mid q rest hsplit hmid hq
        cases mid with
        | nil =>
          obtain ⟨rfl, _⟩ := List.cons.inj hsplit
          exact absurd hq hordinary
        | cons x mid =>
          obtain ⟨_, htail⟩ := List.cons.inj hsplit
          exact h mid q rest htail (fun y hy => hmid y (by simp [hy])) hq
      · intro h mid q rest hsplit hmid hq
        exact h (p :: mid) q rest (by rw [hsplit, List.cons_append])
          (List.forall_mem_cons.mpr ⟨hordinary, hmid⟩) hq

theorem measuresPrefix_cons (hmask : sr.htabMask ≤ 1) (p : ℕ) (ps : List ℕ) :
    MeasuresPrefix sr t (p :: ps) ↔
      if Ordinary sr p then
        if PageFound sr t p then MeasuresPrefix sr t ps else translated sr t p = false
      else (scanList sr t ps).1 = 0 := by
  constructor
  · intro h
    obtain ⟨hfirst, hdirect⟩ := h [] p ps rfl (by simp)
    split_ifs with hordinary hfound
    · intro pre q post hsplit hpre
      exact h (p :: pre) q post (by rw [hsplit, List.cons_append])
        (List.forall_mem_cons.mpr ⟨⟨hordinary, hfound⟩, hpre⟩)
    · exact Bool.eq_false_iff.mpr fun htranslated => hfound (hfirst htranslated)
    · exact (scanList_eq_zero_iff ps).mpr (hdirect hordinary)
  · intro h pre q post hsplit hpre
    cases pre with
    | nil =>
      obtain ⟨rfl, rfl⟩ := List.cons.inj hsplit
      split_ifs at h with hordinary hfound
      · exact ⟨fun _ => hfound, fun hdirect => absurd hordinary hdirect⟩
      · exact ⟨fun htranslated => absurd htranslated (by simp [h]),
          fun hdirect => absurd hordinary hdirect⟩
      · exact ⟨fun htranslated => absurd ((translated_iff hmask p).mp htranslated).1 hordinary,
          fun _ => (scanList_eq_zero_iff ps).mp h⟩
    | cons x pre =>
      obtain ⟨rfl, htail⟩ := List.cons.inj hsplit
      obtain ⟨⟨hordinary, hfound⟩, hpre⟩ := List.forall_mem_cons.mp hpre
      rw [if_pos hordinary, if_pos hfound] at h
      exact h pre q post htail hpre

theorem scanList_eq_prefix_iff (hmask : sr.htabMask ≤ 1) (ps : List ℕ) :
    (scanList sr t ps).1 = (ps.takeWhile (translated sr t)).length ↔ MeasuresPrefix sr t ps := by
  induction ps with
  | nil => simp [scanList, MeasuresPrefix]
  | cons p ps ih =>
    rw [measuresPrefix_cons hmask, scanList]
    split_ifs with hordinary hfound
    · rw [List.takeWhile_cons_of_pos (translated_of_found hmask hordinary hfound), ← ih]
      simp
    · cases htranslated : translated sr t p with
      | true => simp [htranslated]
      | false => simp [htranslated]
    · have hnot : ¬ translated sr t p = true := fun h => hordinary ((translated_iff hmask p).mp h).1
      rw [List.takeWhile_cons_of_neg hnot, List.length_nil]

section Exact

variable (hmask : sr.htabMask ≤ 1) {start maxSize : U32} (hstart : start.toNat % 0x20000 = 0)
  (hmax : maxSize.toNat % 0x20000 = 0) (hlt : start.toNat + maxSize.toNat < 2 ^ 32)

include hmask hstart hmax hlt

theorem getAreaSize_aligned {passes : ℕ} (hpasses : 2048 < passes) :
    getAreaSizeFromPageTable passes sr t start maxSize =
      some (.ok (pagesOn 0 (scanList sr t (List.range' (start.toNat / 0x20000)
        (maxSize.toNat / 0x20000))).1)) := by
  have hbounds := firstPage_bounds start ((start.toNat + maxSize.toNat) / 0x10000000)
  have hpage := lastCursor_page start
    (show (start.toNat + maxSize.toNat) / 0x10000000 < 16 by omega)
  have hle : firstPage start ((start.toNat + maxSize.toNat) / 0x10000000) ≤
      (start.toNat + maxSize.toNat) / 0x20000 := by
    rw [firstPage]
    split_ifs
    · omega
    · omega
  have hcursor : (lastCursor start ((start.toNat + maxSize.toNat) / 0x10000000)).toNat =
      firstPage start ((start.toNat + maxSize.toNat) / 0x10000000) * 0x20000 := by
    rw [lastCursor, firstPage]
    split_ifs
    · omega
    · rw [BitVec.toNat_mul, BitVec.toNat_ofNat]
      change (start.toNat + maxSize.toNat) / 0x10000000 % 2 ^ 32 * 0x10000000 % 2 ^ 32 = _
      omega
  have hrun := getAreaSize_of_fits (t := t) (n := (start.toNat + maxSize.toNat) / 0x20000 -
    firstPage start ((start.toNat + maxSize.toNat) / 0x10000000)) hmask hlt rfl (by omega)
    (by intro k hk; omega) (by omega) (by omega) hpasses
  rw [hrun]
  congr 6
  omega

/-- The area's size is the translated prefix of the range exactly under the condition. -/
theorem getAreaSize_prefix_iff (t : PageTable) :
    (∃ passes, getAreaSizeFromPageTable passes sr t start maxSize =
        some (.ok (BitVec.ofNat 32 (0x20000 * translatedPrefix sr t start maxSize)))) ↔
      MeasuresPrefix sr t
        (List.range' (start.toNat / 0x20000) (maxSize.toNat / 0x20000)) := by
  rw [← scanList_eq_prefix_iff hmask]
  change _ ↔ _ = translatedPrefix sr t start maxSize
  have hscan := scanList_length_le sr t
    (List.range' (start.toNat / 0x20000) (maxSize.toNat / 0x20000))
  have htranslated : translatedPrefix sr t start maxSize ≤ maxSize.toNat / 0x20000 := by
    have hsub := List.IsPrefix.length_le (List.takeWhile_prefix (translated sr t)
      (l := List.range' (start.toNat / 0x20000) (maxSize.toNat / 0x20000)))
    rwa [List.length_range'] at hsub
  rw [List.length_range'] at hscan
  have hvalue : pagesOn 0 (scanList sr t (List.range' (start.toNat / 0x20000)
      (maxSize.toNat / 0x20000))).1 =
        BitVec.ofNat 32 (0x20000 * translatedPrefix sr t start maxSize) ↔
        (scanList sr t (List.range' (start.toNat / 0x20000) (maxSize.toNat / 0x20000))).1 =
          translatedPrefix sr t start maxSize := by
    rw [← BitVec.toNat_inj, pagesOn_zero_toNat, BitVec.toNat_ofNat]
    omega
  rw [← hvalue]
  constructor
  · rintro ⟨passes, hrun⟩
    have hmore := getAreaSize_mono hrun (Nat.le_add_right passes 2049)
    rw [getAreaSize_aligned hmask hstart hmax hlt (by omega)] at hmore
    exact Except.ok.inj (Option.some.inj hmore)
  · intro heq
    exact ⟨2049, by rw [getAreaSize_aligned hmask hstart hmax hlt (by omega), heq]⟩

end Exact

def flatSegments : SrTable := ⟨fun _ => 0, 0x00E00001⟩

theorem primaryEntries_measured :
    ∃ passes, getAreaSizeFromPageTable passes flatSegments (fun _ => 0x80000000) 0 0x20000 =
      some (.ok (BitVec.ofNat 32
        (0x20000 * translatedPrefix flatSegments (fun _ => 0x80000000) 0 0x20000))) := by
  have hmask : flatSegments.htabMask ≤ 1 := by decide
  refine (getAreaSize_prefix_iff hmask (by decide) (by decide) (by decide) _).mpr ?_
  exact (scanList_eq_prefix_iff hmask _).mp (by decide)

/-- Every entry is one of page 0 in its secondary group: the page is translated, and its
area has size zero. -/
theorem secondaryEntries_missed :
    ¬ ∀ (sr : SrTable) (t : PageTable) (start maxSize : U32), sr.htabMask ≤ 1 →
      start.toNat % 0x20000 = 0 → maxSize.toNat % 0x20000 = 0 →
      start.toNat + maxSize.toNat < 2 ^ 32 →
      ∃ passes, getAreaSizeFromPageTable passes sr t start maxSize =
        some (.ok (BitVec.ofNat 32 (0x20000 * translatedPrefix sr t start maxSize))) := by
  intro hall
  obtain ⟨passes, hrun⟩ := hall flatSegments (fun _ => 0x80000040) 0 0x20000 (by decide)
    (by decide) (by decide) (by decide)
  have htranslated : translatedPrefix flatSegments (fun _ => 0x80000040) 0 0x20000 = 1 := by decide
  have hzero : getAreaSizeFromPageTable 1 flatSegments (fun _ => 0x80000040) 0 0x20000 =
      some (.ok 0) := by decide
  rw [htranslated] at hrun
  have hmore := getAreaSize_mono hrun (Nat.le_add_right passes 1)
  rw [getAreaSize_mono hzero (Nat.le_add_left 1 passes)] at hmore
  exact absurd hmore (by decide)

end Prefix

section Bound

variable {sr : SrTable} {t : PageTable} {start maxSize : U32} {passes : ℕ}

def pagesTouched (start maxSize : U32) : ℕ :=
  ((Finset.Ico start.toNat (min (start.toNat + maxSize.toNat) (2 ^ 32))).image
    fun a => a / 0x20000).card

def topCursor (start : U32) : ℕ :=
  0xFFFE0000 + if start.toNat / 0x10000000 = 15 then start.toNat % 0x20000 else 0

/-- The scan gets to the top of the address space and goes on from its bottom: the range ends
behind the last cursor but not behind the top, segment 15 is an ordinary one, every page of
an ordinary segment from the start up is found, and so is the first page of segment 15. -/
structure RunsOver (sr : SrTable) (t : PageTable) (start maxSize : U32) : Prop where
  below_top : start.toNat + maxSize.toNat < 2 ^ 32
  behind_cursor : topCursor start < start.toNat + maxSize.toNat
  ordinary : Ordinary sr 0x7FFF
  found : ∀ p, start.toNat / 0x20000 ≤ p → p < 0x8000 → Ordinary sr p → PageFound sr t p
  first_found : PageFound sr t 0x7800

theorem pagesTouched_eq (hlt : start.toNat + maxSize.toNat < 2 ^ 32) (hpos : 0 < maxSize.toNat) :
    pagesTouched start maxSize =
      (start.toNat + maxSize.toNat - 1) / 0x20000 + 1 - start.toNat / 0x20000 := by
  have himage : (Finset.Ico start.toNat (start.toNat + maxSize.toNat)).image
      (fun a => a / 0x20000) =
      Finset.Icc (start.toNat / 0x20000) ((start.toNat + maxSize.toNat - 1) / 0x20000) := by
    ext p
    simp only [Finset.mem_image, Finset.mem_Ico, Finset.mem_Icc]
    constructor
    · rintro ⟨a, ha, rfl⟩
      omega
    · intro hp
      by_cases hfirst : p = start.toNat / 0x20000
      · exact ⟨start.toNat, by omega, hfirst.symm⟩
      · exact ⟨p * 0x20000, by omega, by omega⟩
  rw [pagesTouched, Nat.min_eq_left (by omega), himage, Nat.card_Icc]

theorem getAreaSize_overflow (sr : SrTable) (t : PageTable)
    (hover : 2 ^ 32 ≤ start.toNat + maxSize.toNat) :
    getAreaSizeFromPageTable 1 sr t start maxSize = some (.ok 0) := by
  have hstop : (start + maxSize).toNat = start.toNat + maxSize.toNat - 2 ^ 32 := by
    have hs := start.isLt
    have hm := maxSize.isLt
    rw [BitVec.toNat_add]
    omega
  have hm := maxSize.isLt
  have hsrStart : (start >>> 28).toNat = start.toNat / 0x10000000 := by
    rw [BitVec.toNat_ushiftRight, Nat.shiftRight_eq_div_pow]
  have hsrEnd : ((start + maxSize) >>> 28).toNat =
      (start.toNat + maxSize.toNat - 2 ^ 32) / 0x10000000 := by
    rw [BitVec.toNat_ushiftRight, Nat.shiftRight_eq_div_pow, hstop]
  rw [getAreaSizeFromPageTable]
  simp only [hsrStart, hsrEnd]
  split_ifs with hless
  · rfl
  · have hsame : (start.toNat + maxSize.toNat - 2 ^ 32) / 0x10000000 =
        start.toNat / 0x10000000 := by omega
    rw [hsame, Nat.add_sub_cancel_left, scanSegments_last]
    split_ifs
    · rfl
    · have hcursor : lastCursor start (start.toNat / 0x10000000) = start := by
        rw [lastCursor, if_pos rfl]
      have hbehind : ¬ start < start + maxSize := by
        rw [BitVec.lt_def, hstop]
        omega
      rw [hcursor, run_done (r := (true, 0)) (by rw [scanPage, if_neg hbehind]; rfl)]
      rfl

def stepsTo (c stop : ℕ) : ℕ := (stop - c + 0x1FFFF) / 0x20000

theorem stepsTo_below {c stop k : ℕ} (hk : k < stepsTo c stop) : c + k * 0x20000 < stop := by
  rw [stepsTo] at hk
  omega

theorem le_stepsTo (c stop : ℕ) : stop ≤ c + stepsTo c stop * 0x20000 := by
  rw [stepsTo]
  omega

theorem stepsTo_page {c stop : ℕ} (hpos : c < stop) :
    c / 0x20000 + stepsTo c stop ≤ (stop - 1) / 0x20000 + 1 := by
  have hpage : stepsTo c stop - 1 < stepsTo c stop → c + (stepsTo c stop - 1) * 0x20000 < stop :=
    stepsTo_below
  have hsome : 0 < stepsTo c stop := by
    rw [stepsTo]
    omega
  have hlast := hpage (by omega)
  clear hpage
  generalize stepsTo c stop = n at *
  omega

def endSegment (start maxSize : U32) : ℕ := (start.toNat + maxSize.toNat) / 0x10000000

theorem lastCursor_cases (start : U32) {srEnd : ℕ} (hend : srEnd < 16) :
    srEnd = start.toNat / 0x10000000 ∧ (lastCursor start srEnd).toNat = start.toNat ∨
      srEnd ≠ start.toNat / 0x10000000 ∧
        (lastCursor start srEnd).toNat = srEnd * 0x10000000 := by
  rw [lastCursor]
  split_ifs with h
  · exact Or.inl ⟨h, rfl⟩
  · refine Or.inr ⟨h, ?_⟩
    exact segmentBase_toNat hend

section InRange

variable (hlt : start.toNat + maxSize.toNat < 2 ^ 32)

include hlt

theorem endSegment_lt : endSegment start maxSize < 16 := by
  rw [endSegment]
  omega

theorem lastCursor_le :
    (lastCursor start (endSegment start maxSize)).toNat ≤ start.toNat + maxSize.toNat := by
  rcases lastCursor_cases start (endSegment_lt hlt) with ⟨_, h⟩ | ⟨_, h⟩
  · omega
  · rw [h, endSegment]
    omega

theorem lastPages_le : firstPage start (endSegment start maxSize) +
    stepsTo (lastCursor start (endSegment start maxSize)).toNat (start.toNat + maxSize.toNat) ≤
      (endSegment start maxSize + 1) * 2048 := by
  have hle := lastCursor_le hlt
  rw [← lastCursor_page start (endSegment_lt hlt)]
  generalize (lastCursor start (endSegment start maxSize)).toNat = c at *
  by_cases hpos : c < start.toNat + maxSize.toNat
  · have hpage := stepsTo_page hpos
    rw [endSegment]
    omega
  · rw [stepsTo, endSegment]
    omega

theorem scannedPages_le : firstPage start (endSegment start maxSize) +
    stepsTo (lastCursor start (endSegment start maxSize)).toNat (start.toNat + maxSize.toNat) -
      start.toNat / 0x20000 ≤ pagesTouched start maxSize := by
  have hle := lastCursor_le hlt
  rw [← lastCursor_page start (endSegment_lt hlt)]
  by_cases hpos : 0 < maxSize.toNat
  · rw [pagesTouched_eq hlt hpos]
    generalize (lastCursor start (endSegment start maxSize)).toNat = c at *
    by_cases hmore : c < start.toNat + maxSize.toNat
    · have hpage := stepsTo_page hmore
      omega
    · rw [stepsTo]
      omega
  · have hcursor : (lastCursor start (endSegment start maxSize)).toNat = start.toNat := by
      rcases lastCursor_cases start (endSegment_lt hlt) with ⟨_, h⟩ | ⟨hne, h⟩
      · exact h
      · rw [endSegment] at hne
        omega
    rw [hcursor, stepsTo]
    omega

theorem wraps_iff :
    2 ^ 32 ≤ (lastCursor start (endSegment start maxSize)).toNat +
        stepsTo (lastCursor start (endSegment start maxSize)).toNat
          (start.toNat + maxSize.toNat) * 0x20000 ↔
      topCursor start < start.toNat + maxSize.toNat := by
  have hle := lastCursor_le hlt
  have hcases := lastCursor_cases start (endSegment_lt hlt)
  have hbehind := le_stepsTo (lastCursor start (endSegment start maxSize)).toNat
    (start.toNat + maxSize.toNat)
  generalize (lastCursor start (endSegment start maxSize)).toNat = c at *
  have hbelow : stepsTo c (start.toNat + maxSize.toNat) - 1 <
      stepsTo c (start.toNat + maxSize.toNat) →
        c + (stepsTo c (start.toNat + maxSize.toNat) - 1) * 0x20000 <
          start.toNat + maxSize.toNat := stepsTo_below
  generalize stepsTo c (start.toNat + maxSize.toNat) = n at *
  have hstart := start.isLt
  rw [topCursor]
  rw [endSegment] at hcases
  split_ifs with hseg
  · omega
  · omega

end InRange

end Bound

section Top

variable {sr : SrTable} {t : PageTable} {start maxSize mem : U32}

def topPage (start : U32) (k : ℕ) : ℕ := 0x7800 + (firstPage start 15 + k) % 2048

theorem topPage_of_lt {k : ℕ} (hk : firstPage start 15 + k < 0x8000) :
    topPage start k = firstPage start 15 + k := by
  have hbounds := firstPage_bounds start 15
  rw [topPage]
  omega

theorem topPage_add_segment (start : U32) (k : ℕ) : topPage start (k + 2048) = topPage start k := by
  rw [topPage, topPage, ← Nat.add_assoc, Nat.add_mod_right]

theorem lastCursor_pagesOn (k : ℕ) : (pagesOn (lastCursor start 15) k).toNat =
    ((lastCursor start 15).toNat + k * 0x20000) % 2 ^ 32 := by
  rw [pagesOn, BitVec.toNat_add, BitVec.toNat_ofNat, Nat.add_mod_mod]

theorem cursor_le_top (k : ℕ) : (pagesOn (lastCursor start 15) k).toNat ≤ topCursor start := by
  have hcases := lastCursor_cases start (show 15 < 16 by decide)
  rw [lastCursor_pagesOn, topCursor]
  generalize (lastCursor start 15).toNat = c at *
  split_ifs
  · omega
  · omega

theorem found_top_iff (k : ℕ) :
    Found sr t (sr.value (Fin.ofNat 16 15) &&& 0xFFFFFF) (pagesOn (lastCursor start 15) k) ↔
      PageFound sr t (topPage start k) := by
  have hpage : topPage start k / 2048 = 15 ∧ topPage start k < 0x8000 := by
    rw [topPage]
    omega
  rw [PageFound, SrTable.vsid, segment_of_page hpage.1 (by decide)]
  apply found_congr
  rw [lastCursor_pagesOn, pageAddr_toNat hpage.2, topPage, ← lastCursor_page start (by decide)]
  omega

theorem scan_top (hmask : sr.htabMask ≤ 1)
    (hbehind : topCursor start < (start + maxSize).toNat) (mem : U32) {k : ℕ}
    (hfound : ∀ j < k, PageFound sr t (topPage start j))
    (hmissing : ¬ PageFound sr t (topPage start k))
    {passes : ℕ} (hpasses : k < passes) :
    run (scanPage sr t (sr.value (Fin.ofNat 16 15) &&& 0xFFFFFF) (start + maxSize)) passes
      ⟨lastCursor start 15, mem⟩ = some (.ok (false, pagesOn mem k)) := by
  have below (j : ℕ) : pagesOn (lastCursor start 15) j < start + maxSize :=
    lt_of_le_of_lt (cursor_le_top j) hbehind
  exact (scan_ends hmask mem hpasses fun j hj =>
    ⟨below j, (found_top_iff j).mpr (hfound j hj)⟩).2 (below k)
      fun h => hmissing ((found_top_iff k).mp h)

theorem scan_top_diverges (hmask : sr.htabMask ≤ 1)
    (hbehind : topCursor start < (start + maxSize).toNat) (mem : U32)
    (hfound : ∀ k, PageFound sr t (topPage start k)) (passes : ℕ) :
    run (scanPage sr t (sr.value (Fin.ofNat 16 15) &&& 0xFFFFFF) (start + maxSize)) passes
      ⟨lastCursor start 15, mem⟩ = none :=
  scan_diverges hmask mem (fun k => ⟨lt_of_le_of_lt (cursor_le_top k) hbehind,
    (found_top_iff k).mpr (hfound k)⟩) passes

end Top

section Exact

variable {sr : SrTable} {t : PageTable} {start maxSize : U32}

def Bounded (sr : SrTable) (t : PageTable) (start maxSize : U32) : Prop :=
  ∃ passes size, getAreaSizeFromPageTable passes sr t start maxSize = some (.ok size) ∧
    size.toNat ≤ 0x20000 * pagesTouched start maxSize

theorem bounded_of_pages {passes n : ℕ}
    (hrun : getAreaSizeFromPageTable passes sr t start maxSize = some (.ok (pagesOn 0 n)))
    (hle : n ≤ pagesTouched start maxSize) : Bounded sr t start maxSize := by
  refine ⟨passes, pagesOn 0 n, hrun, ?_⟩
  rw [pagesOn_zero_toNat]
  exact (Nat.mod_le _ _).trans (by omega)

theorem bounded_of_fits (hmask : sr.htabMask ≤ 1) (hlt : start.toNat + maxSize.toNat < 2 ^ 32)
    (hfits : start.toNat + maxSize.toNat ≤ topCursor start) : Bounded sr t start maxSize := by
  have hrun := getAreaSize_of_fits (t := t) hmask hlt rfl (lastPages_le hlt)
    (fun k hk => stepsTo_below hk) (le_stepsTo _ _)
    (Nat.lt_of_not_le fun hwrap => Nat.not_lt.mpr hfits ((wraps_iff hlt).mp hwrap))
    (Nat.lt_succ_self 2048)
  refine bounded_of_pages hrun ((scanList_length_le sr t _).trans ?_)
  rw [List.length_range']
  exact scannedPages_le hlt

theorem mem_pagesBefore_or {p : ℕ} (hfrom : start.toNat / 0x20000 ≤ p) (hp : p < 0x8000) :
    p ∈ pagesBefore start (start.toNat / 0x10000000) 15 ∨
      ∃ k < 0x8000 - firstPage start 15, p = topPage start k := by
  have hbounds := firstPage_bounds start 15
  have hfirst := firstPage_start start
  by_cases htop : firstPage start 15 ≤ p
  · refine Or.inr ⟨p - firstPage start 15, by omega, ?_⟩
    rw [topPage_of_lt (by omega)]
    omega
  · refine Or.inl ?_
    rw [pagesBefore, hfirst, List.mem_range'_1]
    rw [firstPage] at htop
    split_ifs at htop
    · omega
    · omega

section Wraps

variable (hlt : start.toNat + maxSize.toNat < 2 ^ 32)
  (hbehind : topCursor start < start.toNat + maxSize.toNat)

include hlt hbehind

theorem range_of_wraps : (start.toNat + maxSize.toNat) / 0x10000000 = 15 ∧
    pagesTouched start maxSize = 0x8000 - start.toNat / 0x20000 := by
  rw [topCursor] at hbehind
  have hpos : 0 < maxSize.toNat := by
    split_ifs at hbehind
    · omega
    · omega
  rw [pagesTouched_eq hlt hpos]
  omega

theorem pagesBefore_length : (pagesBefore start (start.toNat / 0x10000000) 15).length +
    (0x8000 - firstPage start 15) = pagesTouched start maxSize := by
  have hrange := range_of_wraps hlt hbehind
  have hfirst := firstPage_start start
  rw [hrange.2, pagesBefore, List.length_range', hfirst, firstPage]
  split_ifs
  · omega
  · omega

theorem getAreaSize_top (hmask : sr.htabMask ≤ 1) {passes : ℕ} (hpasses : 2048 < passes) :
    getAreaSizeFromPageTable passes sr t start maxSize =
      if (scanList sr t (pagesBefore start (start.toNat / 0x10000000) 15)).2 then
        scanSegments passes sr t (start.toNat / 0x10000000) 15 (start + maxSize) 1 15 start
          (pagesOn 0 (scanList sr t (pagesBefore start (start.toNat / 0x10000000) 15)).1)
      else some (.ok (pagesOn 0
        (scanList sr t (pagesBefore start (start.toNat / 0x10000000) 15)).1)) :=
  getAreaSize_eq hmask hlt hpasses (range_of_wraps hlt hbehind).1.symm

theorem runsOver_iff : RunsOver sr t start maxSize ↔
    (scanList sr t (pagesBefore start (start.toNat / 0x10000000) 15)).2 = true ∧
      Ordinary sr 0x7FFF ∧ ∀ k ≤ 0x8000 - firstPage start 15, PageFound sr t (topPage start k) := by
  have hbounds := firstPage_bounds start 15
  have hlast : topPage start (0x8000 - firstPage start 15) = 0x7800 := by
    rw [topPage]
    omega
  rw [scanList_complete_iff]
  constructor
  · rintro ⟨_, _, hordinary, hfound, hfirst⟩
    have hinside (p : ℕ) (hp : p / 2048 = 15) : Ordinary sr p := by
      rw [Ordinary, segment_of_page hp (by decide)]
      rwa [Ordinary, segment_of_page (by decide) (show 15 < 16 by decide)] at hordinary
    refine ⟨?_, hordinary, fun k hk => ?_⟩
    · intro p hp hpage
      rw [pagesBefore, List.mem_range'_1, firstPage, if_pos rfl] at hp
      exact hfound p (by omega) (by omega) hpage
    · rcases Nat.lt_or_eq_of_le hk with hk | rfl
      · have hbelow : start.toNat / 0x20000 ≤ firstPage start 15 := by
          have hstart := start.isLt
          rw [firstPage]
          split_ifs
          · exact le_rfl
          · omega
        rw [topPage_of_lt (by omega)]
        exact hfound _ (by omega) (by omega) (hinside _ (by omega))
      · rwa [hlast]
  · rintro ⟨hbefore, hordinary, htop⟩
    refine ⟨hlt, hbehind, hordinary, fun p hfrom hp hpage => ?_, hlast ▸ htop _ le_rfl⟩
    rcases mem_pagesBefore_or hfrom hp with hmem | ⟨k, hk, rfl⟩
    · exact hbefore p hmem hpage
    · exact htop k hk.le

theorem bounded_of_not_runsOver (hmask : sr.htabMask ≤ 1)
    (hruns : ¬ RunsOver sr t start maxSize) : Bounded sr t start maxSize := by
  have hrun := getAreaSize_top (t := t) hlt hbehind hmask
    (show 2048 < 0x8000 + 2049 by decide)
  have hcount := pagesBefore_length hlt hbehind
  have hbefore := scanList_length_le sr t (pagesBefore start (start.toNat / 0x10000000) 15)
  have hstop : topCursor start < (start + maxSize).toNat := by rwa [stop_toNat hlt]
  rw [runsOver_iff hlt hbehind] at hruns
  cases hcomplete :
      (scanList sr t (pagesBefore start (start.toNat / 0x10000000) 15)).2 with
  | false =>
    rw [hcomplete, if_neg (by decide)] at hrun
    exact bounded_of_pages hrun (by omega)
  | true =>
    rw [hcomplete, if_pos rfl, scanSegments_last] at hrun
    by_cases hordinary : sr.value (Fin.ofNat 16 15) >>> 31 = 0
    · have htop : Ordinary sr 0x7FFF := by
        rwa [Ordinary, segment_of_page (by decide) (show 15 < 16 by decide)]
      have hmissing :
          ∃ k, k ≤ 0x8000 - firstPage start 15 ∧ ¬ PageFound sr t (topPage start k) := by
        by_contra hall
        exact hruns ⟨hcomplete, htop, fun k hk => not_not.mp fun h => hall ⟨k, hk, h⟩⟩
      -- The scan ends with the first page of segment 15 that is not found.
      obtain ⟨hle, hfirst⟩ := Nat.find_spec hmissing
      have hleast (j : ℕ) (hj : j < Nat.find hmissing) : PageFound sr t (topPage start j) :=
        not_not.mp fun h => Nat.find_min hmissing hj ⟨by omega, h⟩
      rw [if_neg (not_not.mpr hordinary), scan_top hmask hstop _ hleast hfirst (by omega)] at hrun
      have hsize : getAreaSizeFromPageTable (0x8000 + 2049) sr t start maxSize =
          some (.ok (pagesOn 0 ((scanList sr t
            (pagesBefore start (start.toNat / 0x10000000) 15)).1 + Nat.find hmissing))) := by
        rw [hrun, ← pagesOn_pagesOn]
        rfl
      exact bounded_of_pages hsize (by omega)
    · rw [if_pos hordinary] at hrun
      exact bounded_of_pages hrun (by omega)

theorem not_bounded_of_runsOver (hmask : sr.htabMask ≤ 1) (hruns : RunsOver sr t start maxSize) :
    ¬ Bounded sr t start maxSize := by
  rintro ⟨passes, size, hsome, hle⟩
  have hcount := pagesBefore_length hlt hbehind
  have hbounds := firstPage_bounds start 15
  have hstop : topCursor start < (start + maxSize).toNat := by rwa [stop_toNat hlt]
  obtain ⟨hcomplete, hordinary, htop⟩ := (runsOver_iff hlt hbehind).mp hruns
  rw [Ordinary, segment_of_page (by decide) (show 15 < 16 by decide)] at hordinary
  have hrun (more : ℕ) (hmore : 2048 < more) :=
    getAreaSize_top (t := t) hlt hbehind hmask hmore
  simp only [hcomplete, if_true, scanSegments_last, if_neg (not_not.mpr hordinary)] at hrun
  by_cases hall : ∀ k, PageFound sr t (topPage start k)
  · -- Every pass finds its page.
    have hnone := hrun (passes + 2049) (by omega)
    rw [scan_top_diverges hmask hstop _ hall, getAreaSize_mono hsome (by omega)] at hnone
    exact absurd hnone (by simp)
  · have hmissing : ∃ k, ¬ PageFound sr t (topPage start k) := not_forall.mp hall
    have hfirst := Nat.find_spec hmissing
    have hleast (j : ℕ) (hj : j < Nat.find hmissing) : PageFound sr t (topPage start j) :=
      not_not.mp (Nat.find_min hmissing hj)
    have hover : 0x8000 - firstPage start 15 < Nat.find hmissing :=
      Nat.lt_of_not_le fun h => hfirst (htop _ h)
    -- The cursor comes to each page of segment 15 within 2048 passes.
    have hperiod : Nat.find hmissing < 2048 := by
      by_contra hlate
      have hearlier := hleast (Nat.find hmissing - 2048) (by omega)
      rw [← topPage_add_segment, Nat.sub_add_cancel (by omega)] at hearlier
      exact hfirst hearlier
    have hnone : pagesBefore start (start.toNat / 0x10000000) 15 = [] := by
      have hsegment : 15 = start.toNat / 0x10000000 := by
        by_contra hne
        rw [firstPage, if_neg hne] at hover
        omega
      rw [pagesBefore, ← hsegment, show 15 * 2048 - firstPage start 15 = 0 by omega]
      rfl
    have hlong := hrun (passes + 2049) (by omega)
    rw [scan_top hmask hstop _ hleast hfirst (by omega), getAreaSize_mono hsome (by omega), hnone,
      scanList, pagesOn_pagesOn] at hlong
    have hsize : size = pagesOn 0 (0 + Nat.find hmissing) := Except.ok.inj (Option.some.inj hlong)
    rw [hnone, List.length_nil] at hcount
    rw [hsize, pagesOn_zero_toNat] at hle
    omega

end Wraps

/-- The scan ends with a bounded size exactly if it does not run over the top of the address
space. -/
theorem getAreaSize_bounded_iff (hmask : sr.htabMask ≤ 1) (t : PageTable) (start maxSize : U32) :
    (∃ passes size, getAreaSizeFromPageTable passes sr t start maxSize = some (.ok size) ∧
        size.toNat ≤ 0x20000 * pagesTouched start maxSize) ↔ ¬ RunsOver sr t start maxSize := by
  constructor
  · intro hbounded hruns
    exact not_bounded_of_runsOver hruns.below_top hruns.behind_cursor hmask hruns hbounded
  · intro hruns
    by_cases hlt : start.toNat + maxSize.toNat < 2 ^ 32
    · by_cases hbehind : topCursor start < start.toNat + maxSize.toNat
      · exact bounded_of_not_runsOver hlt hbehind hmask hruns
      · exact bounded_of_fits hmask hlt (Nat.not_lt.mp hbehind)
    · exact ⟨1, 0, getAreaSize_overflow sr t (Nat.not_lt.mp hlt), Nat.zero_le _⟩

end Exact

def cornerEntries : PageTable := fun i => if i.val % 4 < 2 then 0x80000000 else 0x8000003F

theorem cornerEntries_bounded :
    getAreaSizeFromPageTable 3 flatSegments cornerEntries 0 0x40000 = some (.ok 0x40000) ∧
      ∃ passes size, getAreaSizeFromPageTable passes flatSegments cornerEntries 0 0x40000 =
        some (.ok size) ∧ size.toNat ≤ 0x20000 * pagesTouched 0 0x40000 :=
  ⟨by decide +kernel, (getAreaSize_bounded_iff (by decide) _ _ _).mpr fun hruns =>
    absurd hruns.behind_cursor (by decide)⟩

/-- The area is one byte of the last page, and 33 pages are counted. -/
theorem lastPage_runs_over :
    ¬ ∀ (sr : SrTable) (t : PageTable) (start maxSize : U32), sr.htabMask ≤ 1 →
      ∃ passes size, getAreaSizeFromPageTable passes sr t start maxSize = some (.ok size) ∧
        size.toNat ≤ 0x20000 * pagesTouched start maxSize := by
  intro hall
  obtain ⟨passes, size, hrun, hle⟩ := hall flatSegments cornerEntries 0xFFFE0000 1 (by decide)
  have hsize : getAreaSizeFromPageTable 34 flatSegments cornerEntries 0xFFFE0000 1 =
      some (.ok 0x420000) := by decide +kernel
  have hmore := getAreaSize_mono hrun (Nat.le_add_right passes 34)
  rw [getAreaSize_mono hsize (Nat.le_add_left 34 passes)] at hmore
  obtain rfl : 0x420000 = size := Except.ok.inj (Option.some.inj hmore)
  rw [pagesTouched_eq (by decide) (by decide)] at hle
  exact absurd hle (by decide)

end MemoryMappingModule.AreaSizeGuarantees
