import MemoryMappingModule.TranslationDump

/-! What the records of the dump say about the pages that are mapped. Stored and open
records together stand for the pages found so far until a page spoils them: it is lost in a
record at address 0, or it is appended to a record that ends before a skipped segment.
From then on the records stand for less, measured by the addresses of their pages. -/

namespace MemoryMappingModule.DumpGuarantees

open MappingLayout PageTableFormat PageTableLookup AreaScan TranslationDump

section Records

def page (i : PageInformation) (k : ℕ) : PageRecord :=
  ⟨pagesOn i.addr k, i.ks, i.kp, i.nx, i.pp, pagesOn i.phys k⟩

def pages (i : PageInformation) : List PageRecord :=
  (List.range (i.size.toNat / 0x20000)).map (page i)

def grow (i : PageInformation) : PageInformation := { i with size := i.size + pageSize }

def single (r : PageRecord) : PageInformation :=
  ⟨r.addr, pageSize, r.ks, r.kp, r.nx, r.pp, r.phys⟩

def stored (d : Dump) : List PageRecord := d.pageInfos.flatMap pages

/-- The pages of the open record; one at address 0 is never stored. -/
def opened (d : Dump) : List PageRecord := if d.current.addr = 0 then [] else pages d.current

def recorded (d : Dump) : List PageRecord := stored d ++ opened d

/-- The sum of the addresses of pages, each counted from one. -/
def weight (l : List PageRecord) : ℕ := (l.map fun r => r.addr.toNat + 1).sum

def Blank (r : PageRecord) : Prop :=
  r.ks = 0 ∧ r.kp = 0 ∧ r.nx = 0 ∧ r.pp = 0 ∧ r.phys = 0

def Continues (r s : PageRecord) : Prop :=
  r.ks = s.ks ∧ r.kp = s.kp ∧ r.nx = s.nx ∧ r.pp = s.pp ∧ s.phys = r.phys + pageSize

def Matches (i : PageInformation) (r : PageRecord) : Prop :=
  i.ks = r.ks ∧ i.kp = r.kp ∧ i.nx = r.nx ∧ i.pp = r.pp ∧ i.phys = r.phys - i.size

variable {d : Dump} {r : PageRecord} {n : ℕ}

theorem weight_append (l m : List PageRecord) : weight (l ++ m) = weight l + weight m := by
  rw [weight, List.map_append, List.sum_append]
  rfl

theorem weight_singleton (r : PageRecord) : weight [r] = r.addr.toNat + 1 := by
  simp [weight]

theorem weight_eq_zero_iff (l : List PageRecord) : weight l = 0 ↔ l = [] := by
  cases l with
  | nil => simp [weight]
  | cons r rs => simp [weight]

theorem pages_of_size_zero {i : PageInformation} (h : i.size = 0) : pages i = [] := by
  rw [pages, h]
  rfl

theorem pages_zero_size_iff {i : PageInformation} (hwhole : i.size.toNat % 0x20000 = 0) :
    pages i = [] ↔ i.size = 0 := by
  rw [pages, List.map_eq_nil_iff, List.range_eq_nil, ← BitVec.toNat_inj]
  change _ ↔ i.size.toNat = 0
  omega

theorem opened_close (d : Dump) : opened d.close = [] := by
  rw [Dump.close]
  split_ifs with h
  · rfl
  · rw [opened]
    split_ifs with haddr
    · rfl
    · exact pages_of_size_zero (not_not.mp fun hsize => h ⟨haddr, hsize⟩)

theorem stored_close (d : Dump) : stored d.close = recorded d := by
  rw [Dump.close, recorded, opened]
  split_ifs with h haddr haddr
  · exact absurd haddr h.1
  · simp [stored]
  · simp
  · rw [pages_of_size_zero (not_not.mp fun hsize => h ⟨haddr, hsize⟩), List.append_nil]

theorem recorded_close (d : Dump) : recorded d.close = recorded d := by
  rw [recorded, stored_close, opened_close, List.append_nil]

theorem grow_addr (i : PageInformation) : (grow i).addr = i.addr := by
  cases i
  rfl

theorem grow_size (i : PageInformation) : (grow i).size = i.size + pageSize := rfl

theorem page_grow (i : PageInformation) : page (grow i) = page i := by
  cases i
  funext k
  simp only [page, grow]

theorem grow_size_toNat {i : PageInformation} (hfits : i.size.toNat + 0x20000 < 2 ^ 32) :
    (grow i).size.toNat = i.size.toNat + 0x20000 := by
  rw [grow_size, BitVec.toNat_add_of_lt (by rw [pageSize_toNat]; exact hfits), pageSize_toNat]

theorem pages_grow {i : PageInformation} (hfits : i.size.toNat + 0x20000 < 2 ^ 32) :
    pages (grow i) = pages i ++ [page i (i.size.toNat / 0x20000)] := by
  rw [pages, pages, grow_size_toNat hfits, Nat.add_div_right _ (by decide), List.range_succ,
    List.map_append, List.map_singleton, page_grow]

theorem single_size_toNat (r : PageRecord) : (single r).size.toNat = 0x20000 := pageSize_toNat

theorem pages_single (r : PageRecord) : pages (single r) = [r] := by
  have hone : (single r).size.toNat / 0x20000 = 1 := by
    rw [single_size_toNat]
  rw [pages, hone]
  simp [page, single, pagesOn_zero]

theorem note_match (h : Matches d.current r) :
    d.note (some r) = { d with current := grow d.current } :=
  if_pos h

theorem note_new (h : ¬ Matches d.current r) :
    d.note (some r) = { d.close with current := single r } :=
  if_neg h

theorem recorded_current (d : Dump) (i : PageInformation) :
    recorded { d with current := i } = stored d ++ if i.addr = 0 then [] else pages i := rfl

theorem recorded_note (hfits : d.current.size.toNat + 0x20000 < 2 ^ 32) :
    recorded (d.note none) = recorded d ∧
    (Matches d.current r → recorded (d.note (some r)) = recorded d ++
      if d.current.addr = 0 then [] else [page d.current (d.current.size.toNat / 0x20000)]) ∧
    (¬ Matches d.current r → recorded (d.note (some r)) = recorded d ++
      if r.addr = 0 then [] else [r]) := by
  refine ⟨recorded_close d, fun hmatch => ?_, fun hmatch => ?_⟩
  · rw [note_match hmatch, recorded_current, grow_addr, pages_grow hfits, recorded, opened]
    by_cases haddr : d.current.addr = 0
    · simp only [if_pos haddr, List.append_nil]
    · simp only [if_neg haddr, List.append_assoc]
  · rw [note_new hmatch, recorded_current, stored_close, pages_single]
    rfl

end Records

section Scan

variable {sr : SrTable} {t : PageTable} {n p q : ℕ} {r : PageRecord}

def mappedPages (sr : SrTable) (t : PageTable) : List PageRecord :=
  (List.range 0x8000).filterMap (pageRecord sr t)

def foundTo (sr : SrTable) (t : PageTable) (n : ℕ) : List PageRecord :=
  (List.range n).filterMap (pageRecord sr t)

def LastBefore (sr : SrTable) (n q : ℕ) : Prop :=
  q < n ∧ Ordinary sr q ∧ ∀ x, q < x → x < n → ¬ Ordinary sr x

/-- The page gets lost in a record at address 0, or it is recorded for another one. -/
inductive Spoils (sr : SrTable) (t : PageTable) : ℕ → Prop
  | origin {r : PageRecord} (hr : pageRecord sr t 0 = some r) : Spoils sr t 0
  | blank {p : ℕ} {r : PageRecord} (hr : pageRecord sr t p = some r) (hblank : Blank r)
      (hlast : ∀ q, LastBefore sr p q → pageRecord sr t q = none) : Spoils sr t p
  | skipped {p q : ℕ} {r s : PageRecord} (hlast : LastBefore sr p q)
      (hr : pageRecord sr t q = some r) (hs : pageRecord sr t p = some s)
      (hcontinues : Continues r s) (hgap : p ≠ q + 1) : Spoils sr t p

/-- No page of the first fifteen segments spoils the records, the last page scanned is not
found, and no page of segment 15 is. -/
structure Lossless (sr : SrTable) (t : PageTable) : Prop where
  kept : ∀ p < 0x7800, ¬ Spoils sr t p
  closed : ∀ q, LastBefore sr 0x7800 q → pageRecord sr t q = none
  top : ∀ p, 0x7800 ≤ p → p < 0x8000 → pageRecord sr t p = none

theorem foundTo_succ (n : ℕ) :
    foundTo sr t (n + 1) = foundTo sr t n ++ (pageRecord sr t n).toList := by
  rw [foundTo, foundTo, List.range_succ, List.filterMap_append]
  cases h : pageRecord sr t n with
  | none => simp [h]
  | some r => simp [h]

theorem LastBefore.unique {q' : ℕ} (hq : LastBefore sr n q) (hq' : LastBefore sr n q') :
    q = q' := by
  rcases Nat.lt_trichotomy q q' with hlt | heq | hlt
  · exact absurd hq'.2.1 (hq.2.2 q' hlt hq'.1)
  · exact heq
  · exact absurd hq.2.1 (hq'.2.2 q hlt hq.1)

theorem lastBefore_succ (hordinary : Ordinary sr n) : LastBefore sr (n + 1) n :=
  ⟨Nat.lt_succ_self n, hordinary, fun x hx hlt => absurd hlt (by omega)⟩

theorem lastBefore_succ_iff (hdirect : ¬ Ordinary sr n) :
    LastBefore sr (n + 1) q ↔ LastBefore sr n q := by
  constructor
  · rintro ⟨hlt, hordinary, hnone⟩
    have hne : q ≠ n := fun h => hdirect (h ▸ hordinary)
    exact ⟨by omega, hordinary, fun x hx hxn => hnone x hx (by omega)⟩
  · rintro ⟨hlt, hordinary, hnone⟩
    refine ⟨by omega, hordinary, fun x hx hxn => ?_⟩
    rcases Nat.lt_succ_iff_lt_or_eq.mp hxn with hx' | rfl
    · exact hnone x hx hx'
    · exact hdirect

theorem ordinary_of_record (hr : pageRecord sr t p = some r) : Ordinary sr p := by
  by_contra hdirect
  rw [pageRecord_of_direct hdirect] at hr
  exact absurd hr (by simp)

theorem ordinary_of_spoils (h : Spoils sr t p) : Ordinary sr p := by
  cases h with
  | origin hr => exact ordinary_of_record hr
  | blank hr _ _ => exact ordinary_of_record hr
  | skipped _ _ hs _ _ => exact ordinary_of_record hs

end Scan

section Run

variable {sr : SrTable} {t : PageTable} {n q : ℕ} {d : Dump} {r : PageRecord}

structure Bounded (n : ℕ) (d : Dump) : Prop where
  whole : d.current.size.toNat % 0x20000 = 0
  ends : d.current.addr.toNat + d.current.size.toNat ≤ n * 0x20000

def Open (sr : SrTable) (t : PageTable) (n : ℕ) (i : PageInformation) : Prop :=
  i = .zero ∧ (∀ q, LastBefore sr n q → pageRecord sr t q = none) ∨
    i.addr ≠ 0 ∧ i.size ≠ 0 ∧ ∃ q, LastBefore sr n q ∧
      pageRecord sr t q = some (page i (i.size.toNat / 0x20000 - 1))

/-- The records stand for the pages found so far. -/
structure Clean (sr : SrTable) (t : PageTable) (n : ℕ) (d : Dump) : Prop where
  records : recorded d = foundTo sr t n
  current : Open sr t n d.current

theorem Bounded.succ (h : Bounded n d) : Bounded (n + 1) d :=
  ⟨h.whole, h.ends.trans (Nat.mul_le_mul_right _ (Nat.le_succ n))⟩

theorem bounded_close (h : Bounded n d) : Bounded n d.close := by
  rw [Dump.close]
  split_ifs
  · exact ⟨rfl, Nat.zero_le _⟩
  · exact h

theorem bounded_note (hn : n < 0x7800) (h : Bounded n d) :
    Bounded (n + 1) (d.note (pageRecord sr t n)) := by
  cases hr : pageRecord sr t n with
  | none => exact (bounded_close h).succ
  | some r =>
    by_cases hmatch : Matches d.current r
    · have hends := h.ends
      have hwhole := h.whole
      have hcurrent : (d.note (some r)).current = grow d.current := by rw [note_match hmatch]
      have hsize : (grow d.current).size.toNat = d.current.size.toNat + 0x20000 :=
        grow_size_toNat (by omega)
      refine ⟨?_, ?_⟩
      · rw [hcurrent, hsize]
        omega
      · rw [hcurrent, hsize, grow_addr]
        omega
    · have hcurrent : (d.note (some r)).current = single r := by rw [note_new hmatch]
      have haddr : (single r).addr.toNat = n * 0x20000 := by
        rw [← pageAddr_toNat (by omega), ← pageRecord_addr hr]
        rfl
      have hsize := single_size_toNat r
      refine ⟨?_, ?_⟩
      · rw [hcurrent, hsize]
      · rw [hcurrent, haddr, hsize]
        omega

theorem bounded_dumpedTo (hn : n ≤ 0x7800) : Bounded n (dumpedTo sr t n) := by
  induction n with
  | zero => exact ⟨rfl, Nat.zero_le _⟩
  | succ n ih =>
    have h := ih (by omega)
    rw [dumpedTo]
    split_ifs
    · exact bounded_note (by omega) h
    · exact h.succ

theorem weight_note (hn : n < 0x7800) (h : Bounded n d) :
    weight (recorded (d.note (pageRecord sr t n))) ≤
      weight (recorded d) + weight (pageRecord sr t n).toList := by
  have hfits : d.current.size.toNat + 0x20000 < 2 ^ 32 := by
    have hends := h.ends
    omega
  cases hr : pageRecord sr t n with
  | none =>
    rw [Dump.note, recorded_close]
    exact Nat.le_add_right _ _
  | some r =>
    obtain ⟨-, hgrow, hnew⟩ := recorded_note (r := r) hfits
    rw [Option.toList_some, weight_singleton, pageRecord_addr hr, pageAddr_toNat (by omega)]
    by_cases hmatch : Matches d.current r
    · rw [hgrow hmatch, weight_append]
      split_ifs
      · exact Nat.add_le_add_left (Nat.zero_le _) _
      · have haddr : (page d.current (d.current.size.toNat / 0x20000)).addr.toNat =
            d.current.addr.toNat + d.current.size.toNat := by
          have hwhole := h.whole
          have hends := h.ends
          rw [page, pagesOn_toNat (by omega)]
          omega
        have hends := h.ends
        rw [weight_singleton, haddr]
        omega
    · rw [hnew hmatch, weight_append]
      split_ifs
      · exact Nat.add_le_add_left (Nat.zero_le _) _
      · rw [weight_singleton, pageRecord_addr hr, pageAddr_toNat (by omega)]

theorem clean_initial : Clean sr t 0 .initial :=
  ⟨rfl, Or.inl ⟨rfl, fun _ hlast => absurd hlast.1 (Nat.not_lt_zero _)⟩⟩

theorem matches_zero_iff : Matches .zero r ↔ Blank r := by
  rw [Matches, Blank]
  have hphys : r.phys - PageInformation.zero.size = r.phys := BitVec.sub_zero r.phys
  rw [hphys]
  simp only [PageInformation.zero, eq_comm]

theorem last_succ {i : PageInformation} (hwhole : i.size.toNat % 0x20000 = 0) (hsize : i.size ≠ 0) :
    i.size.toNat / 0x20000 - 1 + 1 = i.size.toNat / 0x20000 := by
  have hpos : i.size.toNat ≠ 0 := fun h => hsize (BitVec.eq_of_toNat_eq h)
  omega

theorem matches_iff {i : PageInformation} (hwhole : i.size.toNat % 0x20000 = 0)
    (hsize : i.size ≠ 0) :
    Matches i r ↔ Continues (page i (i.size.toNat / 0x20000 - 1)) r := by
  have hlast : pagesOn i.phys (i.size.toNat / 0x20000 - 1) + pageSize = i.phys + i.size := by
    rw [pagesOn_add_pageSize, last_succ hwhole hsize, pagesOn]
    congr 1
    apply BitVec.eq_of_toNat_eq
    rw [BitVec.toNat_ofNat]
    have hlt := i.size.isLt
    omega
  have hphys : i.phys = r.phys - i.size ↔ r.phys = i.phys + i.size := by
    constructor
    · intro h
      rw [h, BitVec.sub_add_cancel]
    · intro h
      rw [h, BitVec.add_sub_cancel]
  rw [Matches, Continues, hphys]
  simp only [page, hlast]

theorem clean_direct (h : Clean sr t n d) (hdirect : ¬ Ordinary sr n) : Clean sr t (n + 1) d := by
  refine ⟨?_, ?_⟩
  · rw [foundTo_succ, pageRecord_of_direct hdirect, Option.toList_none, List.append_nil]
    exact h.records
  · simpa only [Open, lastBefore_succ_iff hdirect] using h.current

theorem clean_missing (h : Clean sr t n d) (hordinary : Ordinary sr n)
    (hr : pageRecord sr t n = none) : Clean sr t (n + 1) d.close := by
  refine ⟨?_, Or.inl ⟨?_, fun q hq => ?_⟩⟩
  · rw [recorded_close, foundTo_succ, hr, Option.toList_none, List.append_nil]
    exact h.records
  · rcases h.current with ⟨hzero, _⟩ | ⟨haddr, hsize, _⟩
    · rw [Dump.close, if_neg (by rw [hzero]; exact fun hne => hne.1 rfl)]
      exact hzero
    · rw [Dump.close, if_pos ⟨haddr, hsize⟩]
  · rw [hq.unique (lastBefore_succ hordinary)]
    exact hr

theorem page_single (r : PageRecord) :
    page (single r) ((single r).size.toNat / 0x20000 - 1) = r := by
  have hfirst : (single r).size.toNat / 0x20000 - 1 = 0 := by
    rw [single_size_toNat]
  rw [hfirst, page, pagesOn_zero, pagesOn_zero]
  rfl

theorem page_succ_of_continues {i : PageInformation} {k : ℕ} (h : Continues (page i k) r)
    (haddr : r.addr = (page i k).addr + pageSize) : page i (k + 1) = r := by
  obtain ⟨addr, ks, kp, nx, pp, phys⟩ := r
  obtain ⟨hks, hkp, hnx, hpp, hphys⟩ := h
  dsimp only [page] at hks hkp hnx hpp hphys haddr
  rw [page, ← pagesOn_add_pageSize, ← pagesOn_add_pageSize, hks, hkp, hnx, hpp, hphys, haddr]

theorem clean_new (h : Clean sr t n d) (hbounded : Bounded n d) (hn : n < 0x7800) (hpos : n ≠ 0)
    (hr : pageRecord sr t n = some r) (hmatch : ¬ Matches d.current r) :
    Clean sr t (n + 1) (d.note (some r)) := by
  have haddr : r.addr ≠ 0 := by
    rw [pageRecord_addr hr, Ne, ← BitVec.toNat_inj, pageAddr_toNat (by omega)]
    change ¬ n * 0x20000 = 0
    omega
  have hends := hbounded.ends
  refine ⟨?_, Or.inr ?_⟩
  · rw [(recorded_note (by omega)).2.2 hmatch, if_neg haddr, foundTo_succ, hr, h.records,
      Option.toList_some]
  · rw [note_new hmatch]
    refine ⟨haddr, (by decide : pageSize ≠ 0), n, lastBefore_succ (ordinary_of_record hr), ?_⟩
    rw [hr, page_single]

theorem clean_grow (h : Clean sr t n d) (hbounded : Bounded n d) (hn : n < 0x7800)
    (hr : pageRecord sr t n = some r) (haddr : d.current.addr ≠ 0)
    (hpage : page d.current (d.current.size.toNat / 0x20000) = r) (hmatch : Matches d.current r) :
    Clean sr t (n + 1) (d.note (some r)) := by
  have hends := hbounded.ends
  have hsize : (grow d.current).size.toNat = d.current.size.toNat + 0x20000 :=
    grow_size_toNat (by omega)
  have hcurrent : (d.note (some r)).current = grow d.current := by rw [note_match hmatch]
  refine ⟨?_, ?_⟩
  · rw [(recorded_note (by omega)).2.1 hmatch, if_neg haddr, foundTo_succ, hr, h.records,
      hpage, Option.toList_some]
  · rw [hcurrent]
    refine Or.inr ⟨by rwa [grow_addr], ?_, n, lastBefore_succ (ordinary_of_record hr), ?_⟩
    · intro hzero
      rw [hzero] at hsize
      exact absurd hsize (by simp)
    · rw [hsize, Nat.add_div_right _ (by decide), Nat.succ_sub_one, page_grow, hpage, hr]

theorem clean_step (h : Clean sr t n d) (hbounded : Bounded n d) (hn : n < 0x7800)
    (hordinary : Ordinary sr n) (hkept : ¬ Spoils sr t n) :
    Clean sr t (n + 1) (d.note (pageRecord sr t n)) := by
  cases hr : pageRecord sr t n with
  | none => exact clean_missing h hordinary hr
  | some r =>
    have hpos : n ≠ 0 := by
      rintro rfl
      exact hkept (.origin hr)
    by_cases hmatch : Matches d.current r
    · rcases h.current with ⟨hzero, hlast⟩ | ⟨haddr, hsize, q, hlast, hq⟩
      · rw [hzero, matches_zero_iff] at hmatch
        exact absurd (.blank hr hmatch hlast) hkept
      · have hcontinues := (matches_iff hbounded.whole hsize).mp hmatch
        have hnext : n = q + 1 := by
          by_contra hgap
          exact hkept (.skipped hlast hq hr hcontinues hgap)
        refine clean_grow h hbounded hn hr haddr ?_ hmatch
        rw [← last_succ hbounded.whole hsize]
        apply page_succ_of_continues hcontinues
        rw [pageRecord_addr hr, hnext, ← pageAddr_succ, ← pageRecord_addr hq]
    · exact clean_new h hbounded hn hpos hr hmatch

theorem lighter_of_spoils (h : Clean sr t n d) (hbounded : Bounded n d) (hn : n < 0x7800)
    (hspoils : Spoils sr t n) :
    weight (recorded (d.note (pageRecord sr t n))) < weight (foundTo sr t (n + 1)) := by
  have hends := hbounded.ends
  have hnote (r : PageRecord) := recorded_note (r := r)
    (show d.current.size.toNat + 0x20000 < 2 ^ 32 by omega)
  have hfound {r : PageRecord} (hr : pageRecord sr t n = some r) :
      weight (foundTo sr t (n + 1)) = weight (recorded d) + (n * 0x20000 + 1) := by
    rw [foundTo_succ, ← h.records, weight_append, hr, Option.toList_some, weight_singleton,
      pageRecord_addr hr, pageAddr_toNat (by omega)]
  -- Without an open record the page is lost, with one it is recorded for an earlier address.
  have lost {r : PageRecord} (hr : pageRecord sr t n = some r)
      (hsame : recorded (d.note (some r)) = recorded d) :
      weight (recorded (d.note (pageRecord sr t n))) < weight (foundTo sr t (n + 1)) := by
    rw [hfound hr, hr, hsame]
    omega
  cases hspoils with
  | @origin r hr =>
    have haddr : d.current.addr = 0 := by
      rcases h.current with ⟨hzero, _⟩ | ⟨_, _, q, hlast, _⟩
      · rw [hzero]
        rfl
      · exact absurd hlast.1 (Nat.not_lt_zero q)
    apply lost hr
    by_cases hmatch : Matches d.current r
    · rw [(hnote r).2.1 hmatch, if_pos haddr, List.append_nil]
    · have hzero : r.addr = 0 := pageRecord_addr hr
      rw [(hnote r).2.2 hmatch, if_pos hzero, List.append_nil]
  | @blank _ r hr hblank hlast =>
    rcases h.current with ⟨hzero, _⟩ | ⟨_, _, q, hq, hfoundq⟩
    · apply lost hr
      have hmatch : Matches d.current r := by
        rw [hzero]
        exact matches_zero_iff.mpr hblank
      rw [(hnote r).2.1 hmatch, if_pos (by rw [hzero]; rfl), List.append_nil]
    · rw [hlast q hq] at hfoundq
      exact absurd hfoundq (by simp)
  | @skipped _ q r s hlast hr hs hcontinues hgap =>
    rcases h.current with ⟨_, hnone⟩ | ⟨haddr, hsize, q', hlast', hq'⟩
    · rw [hnone q hlast] at hr
      exact absurd hr (by simp)
    · obtain rfl := hlast.unique hlast'
      obtain rfl : r = page d.current (d.current.size.toNat / 0x20000 - 1) :=
        Option.some.inj (hr.symm.trans hq')
      have hmatch := (matches_iff hbounded.whole hsize).mpr hcontinues
      rw [hfound hs, hs, (hnote s).2.1 hmatch, if_neg haddr, weight_append, weight_singleton]
      have hplace : (page d.current (d.current.size.toNat / 0x20000)).addr = pageAddr (q + 1) := by
        rw [← last_succ hbounded.whole hsize, ← pageAddr_succ, ← pageRecord_addr hr]
        exact (pagesOn_add_pageSize _ _).symm
      have hlt := hlast.1
      rw [hplace, pageAddr_toNat (by omega)]
      omega

/-- Either all pages so far are recorded, or the records are lighter than the pages. -/
theorem clean_or_lighter (sr : SrTable) (t : PageTable) (hn : n ≤ 0x7800) :
    (∀ p < n, ¬ Spoils sr t p) ∧ Clean sr t n (dumpedTo sr t n) ∨
      (∃ p < n, Spoils sr t p) ∧
        weight (recorded (dumpedTo sr t n)) < weight (foundTo sr t n) := by
  induction n with
  | zero => exact Or.inl ⟨fun p hp => absurd hp (Nat.not_lt_zero p), clean_initial⟩
  | succ n ih =>
    have hbounded : Bounded n (dumpedTo sr t n) := bounded_dumpedTo (by omega)
    rw [dumpedTo]
    rcases ih (by omega) with ⟨hkept, hclean⟩ | ⟨hspoils, hless⟩
    · by_cases hspoils : Spoils sr t n
      · refine Or.inr ⟨⟨n, Nat.lt_succ_self n, hspoils⟩, ?_⟩
        rw [if_pos (ordinary_of_spoils hspoils)]
        exact lighter_of_spoils hclean hbounded (by omega) hspoils
      · refine Or.inl ⟨fun p hp => ?_, ?_⟩
        · rcases Nat.lt_succ_iff_lt_or_eq.mp hp with hlt | rfl
          · exact hkept p hlt
          · exact hspoils
        · split_ifs with hordinary
          · exact clean_step hclean hbounded (by omega) hordinary hspoils
          · exact clean_direct hclean hordinary
    · obtain ⟨p, hp, hspoils⟩ := hspoils
      refine Or.inr ⟨⟨p, by omega, hspoils⟩, ?_⟩
      rw [foundTo_succ, weight_append]
      split_ifs with hordinary
      · have hnote : weight (recorded ((dumpedTo sr t n).note (pageRecord sr t n))) ≤
            weight (recorded (dumpedTo sr t n)) + weight (pageRecord sr t n).toList :=
          weight_note (by omega) hbounded
        omega
      · omega

end Run

section Exact

variable {sr : SrTable} {t : PageTable} {i : PageInformation}

theorem mappedPages_split (sr : SrTable) (t : PageTable) : mappedPages sr t =
    foundTo sr t 0x7800 ++ (List.range' 0x7800 0x800).filterMap (pageRecord sr t) := by
  have hsplit := List.range'_append_1 (s := 0) (m := 0x7800) (n := 0x800)
  rw [Nat.zero_add] at hsplit
  rw [mappedPages, foundTo, List.range_eq_range', List.range_eq_range', ← List.filterMap_append,
    hsplit]

theorem top_iff : (List.range' 0x7800 0x800).filterMap (pageRecord sr t) = [] ↔
    ∀ p, 0x7800 ≤ p → p < 0x8000 → pageRecord sr t p = none := by
  simp only [List.filterMap_eq_nil_iff, List.mem_range'_1]
  exact ⟨fun h p hfrom hp => h p ⟨hfrom, hp⟩, fun h p hp => h p hp.1 hp.2⟩

theorem lossless_records (hlossless : Lossless sr t) :
    stored (dumpedTo sr t 0x7800) = mappedPages sr t := by
  rcases clean_or_lighter sr t le_rfl with ⟨_, hclean⟩ | ⟨⟨p, hp, hspoils⟩, _⟩
  · have hopened : opened (dumpedTo sr t 0x7800) = [] := by
      rcases hclean.current with ⟨hzero, _⟩ | ⟨_, _, q, hlast, hq⟩
      · rw [opened, hzero]
        rfl
      · rw [hlossless.closed q hlast] at hq
        exact absurd hq (by simp)
    rw [mappedPages_split, top_iff.mpr hlossless.top, List.append_nil, ← hclean.records, recorded,
      hopened, List.append_nil]
  · exact absurd hspoils (hlossless.kept p hp)

theorem lossless_of_perm (h : (stored (dumpedTo sr t 0x7800)).Perm (mappedPages sr t)) :
    Lossless sr t := by
  have hweight : weight (stored (dumpedTo sr t 0x7800)) = weight (mappedPages sr t) :=
    (h.map _).sum_eq
  rw [mappedPages_split, weight_append] at hweight
  have hrecorded : weight (recorded (dumpedTo sr t 0x7800)) =
      weight (stored (dumpedTo sr t 0x7800)) + weight (opened (dumpedTo sr t 0x7800)) :=
    weight_append _ _
  rcases clean_or_lighter sr t le_rfl with ⟨hkept, hclean⟩ | ⟨_, hless⟩
  · rw [hclean.records] at hrecorded
    have hopened := (weight_eq_zero_iff (opened (dumpedTo sr t 0x7800))).mp (by omega)
    have htop := (weight_eq_zero_iff _).mp (show weight
      ((List.range' 0x7800 0x800).filterMap (pageRecord sr t)) = 0 by omega)
    refine ⟨hkept, ?_, top_iff.mp htop⟩
    rcases hclean.current with ⟨_, hnone⟩ | ⟨haddr, hsize, _⟩
    · exact hnone
    · rw [opened, if_neg haddr, pages_zero_size_iff (bounded_dumpedTo le_rfl).whole] at hopened
      exact absurd hopened hsize
  · omega

/-- Expanded page by page, the records of the dump are the mapped pages, each once, exactly
if no page spoils them. -/
theorem dump_lossless_iff (hmask : sr.htabMask ≤ 1) (t : PageTable) :
    (∃ passes pageInfos, printPageTableTranslation passes sr t = some (.ok pageInfos) ∧
        (pageInfos.flatMap pages).Perm (mappedPages sr t)) ↔ Lossless sr t := by
  constructor
  · rintro ⟨passes, pageInfos, hrun, hperm⟩
    have hmore := printPageTableTranslation_mono hrun (Nat.le_add_right passes 2049)
    rw [printPageTableTranslation_eq hmask t (by omega)] at hmore
    obtain rfl : (dumpedTo sr t 0x7800).pageInfos = pageInfos :=
      Except.ok.inj (Option.some.inj hmore)
    exact lossless_of_perm hperm
  · intro hlossless
    refine ⟨2049, _, printPageTableTranslation_eq hmask t (by decide), ?_⟩
    exact List.Perm.of_eq (lossless_records hlossless)

end Exact

def segmentOne : SrTable := ⟨fun s => if s.val = 1 then 0 else 0x80000000, 0x00E00001⟩

theorem ordinary_segmentOne {p : ℕ} (hp : p < 0x8000) : Ordinary segmentOne p ↔ p / 2048 = 1 := by
  have hsegment : (Fin.ofNat 16 (p / 2048)).val = 1 ↔ p / 2048 = 1 := by
    rw [Fin.val_ofNat]
    omega
  rw [Ordinary, SrTable.segment, segmentIndex_pageAddr hp, ← hsegment, segmentOne]
  dsimp only
  split_ifs with h
  · exact iff_of_true rfl h
  · exact iff_of_false (by decide) h

theorem segmentOne_phys {p : ℕ} {r : PageRecord}
    (hr : pageRecord segmentOne (fun _ => 0x80000000) p = some r) : r.phys = 0x80000000 := by
  rw [pageRecord_eq (by decide) (ordinary_of_record hr)] at hr
  obtain ⟨e, he, rfl⟩ := Option.map_eq_some_iff.mp hr
  obtain ⟨s, rfl, _⟩ := lookup_eq_some (by decide) he
  exact (by decide : (0x80000000 &&& 0xFFFFF000 : U32) = 0x80000000)

theorem segmentOne_dumped : ∃ passes pageInfos,
    printPageTableTranslation passes segmentOne (fun _ => 0x80000000) = some (.ok pageInfos) ∧
      (pageInfos.flatMap pages).Perm (mappedPages segmentOne fun _ => 0x80000000) := by
  refine (dump_lossless_iff (by decide) _).mpr ⟨?_, ?_, ?_⟩
  · intro p hp hspoils
    cases hspoils with
    | origin hr => exact absurd (ordinary_of_record hr) (by decide)
    | blank hr hblank _ =>
      have hphys := hblank.2.2.2.2
      rw [segmentOne_phys hr] at hphys
      exact absurd hphys (by decide)
    | skipped _ hr hs hcontinues _ =>
      have hphys := hcontinues.2.2.2.2
      rw [segmentOne_phys hr, segmentOne_phys hs] at hphys
      exact absurd hphys (by decide)
  · intro q hlast
    have hlt := hlast.1
    have hsegment := (ordinary_segmentOne (by omega)).mp hlast.2.1
    have hend : ¬ q < 4095 := fun h => hlast.2.2 4095 h (by decide) (by decide)
    obtain rfl : q = 4095 := by omega
    decide
  · intro p hfrom hp
    apply pageRecord_of_direct
    rw [ordinary_segmentOne hp]
    omega

def segmentFifteen : SrTable := ⟨fun s => if s.val = 15 then 0 else 0x80000000, 0x00E00001⟩

/-- Pages of segment 15 are mapped, and none is recorded. -/
theorem segmentFifteen_missed :
    ¬ ∀ (sr : SrTable) (t : PageTable), sr.htabMask ≤ 1 →
      ∃ passes pageInfos, printPageTableTranslation passes sr t = some (.ok pageInfos) ∧
        (pageInfos.flatMap pages).Perm (mappedPages sr t) := by
  intro hall
  obtain ⟨passes, pageInfos, hrun, hperm⟩ := hall segmentFifteen (fun _ => 0x80000000) (by decide)
  have hempty :
      printPageTableTranslation 1 segmentFifteen (fun _ => 0x80000000) = some (.ok []) := by
    decide
  have hmore := printPageTableTranslation_mono hrun (Nat.le_add_right passes 1)
  rw [printPageTableTranslation_mono hempty (Nat.le_add_left 1 passes)] at hmore
  obtain rfl : [] = pageInfos := Except.ok.inj (Option.some.inj hmore)
  have hnone : mappedPages segmentFifteen (fun _ => 0x80000000) = [] :=
    List.nil_perm.mp hperm
  rw [mappedPages, List.filterMap_eq_nil_iff] at hnone
  exact absurd (hnone 0x7800 (by simp)) (by decide)

end MemoryMappingModule.DumpGuarantees
