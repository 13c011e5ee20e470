import MemoryMappingModule.WordArithmetic
import MemoryMappingModule.MappingLayout

/-! The hashed page table as the processor reads it: 0x8000 words holding 0x4000
two-word entries in groups of eight. A page hashes to a primary group and, by
the complement of its hash, to a secondary group; an entry translates a page if
it is valid, carries the page's segment ID and abbreviated page index, and sits
in the group that its hash bit names. -/

namespace MemoryMappingModule.PageTableFormat

open WordArithmetic MappingLayout

/-- `sr_table_t` -/
structure SrTable where
  value : Fin 16 → U32
  sdr1 : U32

namespace SrTable

def htabOrg (sr : SrTable) : U32 := sr.sdr1 >>> 16

def htabMask (sr : SrTable) : U32 := sr.sdr1 &&& 0x1FF

def segmentIndex (ea : U32) : Fin 16 := ⟨(ea >>> 28).toNat, by
  have h := ea.isLt
  rw [BitVec.toNat_ushiftRight, Nat.shiftRight_eq_div_pow]
  omega⟩

def segment (sr : SrTable) (ea : U32) : U32 := sr.value (segmentIndex ea)

def vsid (sr : SrTable) (ea : U32) : U32 := sr.segment ea &&& 0x00FFFFFF

/-- What a table of 0x8000 words holds: at most one bit of group index above the low
ten, and a base that leaves that bit free. -/
structure FitsTable (sr : SrTable) : Prop where
  mask_le : sr.htabMask ≤ 1
  org_and_mask : sr.htabOrg &&& sr.htabMask = 0

end SrTable

inductive Halt where
  | outsideTable (index : ℕ)
  | osFatal (message : String)
deriving DecidableEq, Repr

abbrev Exec := Except Halt

abbrev PageTable := Fin 0x8000 → U32

namespace PageTable

def read (t : PageTable) (index : ℕ) : Exec U32 :=
  if h : index < 0x8000 then .ok (t ⟨index, h⟩) else .error (.outsideTable index)

def write (t : PageTable) (index : ℕ) (word : U32) : Exec PageTable :=
  if h : index < 0x8000 then .ok (Function.update t ⟨index, h⟩ word)
  else .error (.outsideTable index)

end PageTable

structure Pte where
  high : U32
  low : U32
deriving DecidableEq, Repr

namespace Pte

def Free (e : Pte) : Prop := e.high = 0

instance : DecidablePred Free := fun e => inferInstanceAs (Decidable (e.high = 0))

def Valid (e : Pte) : Prop := e.high >>> 31 ≠ 0

def hashBit (e : Pte) : U32 := (e.high >>> 6) &&& 1

def vsid (e : Pte) : U32 := (e.high >>> 7) &&& 0xFFFFFF

def api (e : Pte) : U32 := e.high &&& 0x3F

instance (e : Pte) : Decidable e.Valid := inferInstanceAs (Decidable (_ ≠ _))

theorem Valid.not_free {e : Pte} (h : e.Valid) : ¬ e.Free := by
  intro hfree
  rw [Valid, hfree] at h
  exact h (by decide)

end Pte

abbrev Slot := Fin 0x4000

def entries (t : PageTable) (s : Slot) : Pte :=
  ⟨t ⟨2 * s.val, by omega⟩, t ⟨2 * s.val + 1, by omega⟩⟩

def slot (g j : ℕ) : Slot := Fin.ofNat 0x4000 (8 * g + j)

theorem slot_val {g j : ℕ} (hg : g < 0x800) (hj : j < 8) : (slot g j).val = 8 * g + j := by
  rw [slot, Fin.val_ofNat, Nat.mod_eq_of_lt (by omega)]

theorem read_slot (t : PageTable) (s : Slot) : t.read (2 * s.val) = .ok (entries t s).high := by
  rw [PageTable.read, dif_pos (by omega)]
  rfl

theorem read_slot_succ (t : PageTable) (s : Slot) :
    t.read (2 * s.val + 1) = .ok (entries t s).low := by
  rw [PageTable.read, dif_pos (by omega)]
  rfl

theorem write_slot (t : PageTable) (s : Slot) (e : Pte) :
    ∃ t', (t.write (2 * s.val) e.high >>= fun u => u.write (2 * s.val + 1) e.low) = .ok t' ∧
      entries t' = Function.update (entries t) s e := by
  refine ⟨Function.update (Function.update t ⟨2 * s.val, by omega⟩ e.high)
    ⟨2 * s.val + 1, by omega⟩ e.low, ?_, ?_⟩
  · simp only [PageTable.write, bind, Except.bind]
    rw [dif_pos (by omega)]
    dsimp only
    rw [dif_pos (by omega)]
  · funext s'
    by_cases h : s' = s
    · subst h
      simp [entries]
    · have hne : s'.val ≠ s.val := fun heq => h (Fin.ext heq)
      rw [Function.update_of_ne h]
      simp only [entries, Function.update_apply, Fin.mk.injEq]
      rw [if_neg (by omega), if_neg (by omega), if_neg (by omega), if_neg (by omega)]

def pageSize : U32 := 1 <<< pageIndexShift

def pagesOn (a : U32) (n : ℕ) : U32 := a + BitVec.ofNat 32 (n * 0x20000)

def pageIndex (ea : U32) : U32 := (ea >>> pageIndexShift) &&& pageIndexMask

def abbreviatedPageIndex (ea : U32) : U32 := (ea >>> 22) &&& 0x3F

def primaryHash (vsid ea : U32) : U32 := (vsid &&& 0x7FFFF) ^^^ pageIndex ea

def pteg (mask hash : U32) : U32 := hash &&& ((mask <<< 10) ||| 0x3FF)

/-- The entry at a slot is a translation of the page: H=0 in its primary group or H=1 in
its secondary one. -/
def Translates (sr : SrTable) (vsid ea : U32) (s : Slot) (e : Pte) : Prop :=
  e.Valid ∧ e.vsid = vsid ∧ e.api = abbreviatedPageIndex ea ∧
    (e.hashBit = 0 ∧ s.val / 8 = (pteg sr.htabMask (primaryHash vsid ea)).toNat ∨
      e.hashBit = 1 ∧ s.val / 8 = (pteg sr.htabMask (~~~primaryHash vsid ea)).toNat)

instance (sr : SrTable) (vsid ea : U32) (s : Slot) (e : Pte) :
    Decidable (Translates sr vsid ea s e) :=
  inferInstanceAs (Decidable (e.high >>> 31 ≠ 0 ∧ _ ∧ _ ∧ (_ ∧ _ ∨ _ ∧ _)))

section Bits

theorem pageIndexMask_eq : pageIndexMask = lowMask 32 11 := rfl

theorem pageSize_toNat : pageSize.toNat = 0x20000 := rfl

theorem pagesOn_zero (a : U32) : pagesOn a 0 = a := BitVec.add_zero a

theorem pagesOn_pagesOn (a : U32) (n m : ℕ) : pagesOn (pagesOn a n) m = pagesOn a (n + m) := by
  rw [pagesOn, pagesOn, pagesOn, Nat.add_mul, BitVec.ofNat_add, BitVec.add_assoc]

theorem pagesOn_add_pageSize (a : U32) (n : ℕ) : pagesOn a n + pageSize = pagesOn a (n + 1) :=
  pagesOn_pagesOn a n 1

theorem pagesOn_toNat {a : U32} {n : ℕ} (h : a.toNat + n * 0x20000 < 2 ^ 32) :
    (pagesOn a n).toNat = a.toNat + n * 0x20000 := by
  rw [pagesOn, BitVec.toNat_add, BitVec.toNat_ofNat]
  omega

theorem pteg_toNat_lt {mask : U32} (hmask : mask ≤ 1) (hash : U32) :
    (pteg mask hash).toNat < 0x800 := by
  have hcases : mask = 0 ∨ mask = 1 := by bv_omega
  have hle : (pteg mask hash).toNat ≤ ((mask <<< 10) ||| 0x3FF).toNat := by
    rw [pteg, BitVec.toNat_and]
    exact Nat.and_le_right
  rcases hcases with rfl | rfl
  · exact lt_of_le_of_lt hle (by decide)
  · exact lt_of_le_of_lt hle (by decide)

theorem pteg_bit {mask hash : U32} {i : ℕ} (hi : i < 10) :
    (pteg mask hash).getLsbD i = hash.getLsbD i := by
  change (hash &&& ((mask <<< 10) ||| lowMask 32 10)).getLsbD i = _
  simp only [BitVec.getLsbD_and, BitVec.getLsbD_or, BitVec.getLsbD_shiftLeft, getLsbD_lowMask]
  grind

theorem pageIndex_bit (ea : U32) {i : ℕ} (hi : i < 11) :
    (pageIndex ea).getLsbD i = ea.getLsbD (17 + i) := by
  rw [pageIndex, pageIndexMask_eq, BitVec.getLsbD_and, BitVec.getLsbD_ushiftRight, getLsbD_lowMask]
  simp [pageIndexShift, hi, show i < 32 by omega]

theorem pageIndex_bit_of_le (ea : U32) {i : ℕ} (hi : 11 ≤ i) :
    (pageIndex ea).getLsbD i = false := by
  rw [pageIndex, pageIndexMask_eq, BitVec.getLsbD_and, getLsbD_lowMask]
  simp [show ¬ i < 11 by omega]

theorem abbreviatedPageIndex_bit (ea : U32) {i : ℕ} (hi : i < 6) :
    (abbreviatedPageIndex ea).getLsbD i = ea.getLsbD (22 + i) := by
  change ((ea >>> 22) &&& lowMask 32 6).getLsbD i = _
  rw [BitVec.getLsbD_and, BitVec.getLsbD_ushiftRight, getLsbD_lowMask]
  simp [hi, show i < 32 by omega]

/-- The group and the abbreviated index together determine the page index: the low ten
bits come from the group, the high six from the abbreviated index. -/
theorem pageIndex_eq_of_bits {a b : U32}
    (hlow : ∀ i < 10, (pageIndex a).getLsbD i = (pageIndex b).getLsbD i)
    (hapi : abbreviatedPageIndex a = abbreviatedPageIndex b) : pageIndex a = pageIndex b := by
  apply BitVec.eq_of_getLsbD_eq
  intro i hi
  by_cases h10 : i < 10
  · exact hlow i h10
  · by_cases h11 : i < 11
    · have h := congrArg (fun x : U32 => x.getLsbD (i - 5)) hapi
      simp only [abbreviatedPageIndex_bit _ (show i - 5 < 6 by omega)] at h
      rw [pageIndex_bit a h11, pageIndex_bit b h11]
      rwa [show 22 + (i - 5) = 17 + i by omega] at h
    · rw [pageIndex_bit_of_le a (by omega), pageIndex_bit_of_le b (by omega)]

theorem pageIndex_eq_of_primary {mask vsid a b : U32}
    (hgroup : pteg mask (primaryHash vsid a) = pteg mask (primaryHash vsid b))
    (hapi : abbreviatedPageIndex a = abbreviatedPageIndex b) : pageIndex a = pageIndex b := by
  refine pageIndex_eq_of_bits (fun i hi => ?_) hapi
  have h := congrArg (fun x : U32 => x.getLsbD i) hgroup
  simpa only [pteg_bit hi, primaryHash, BitVec.getLsbD_xor, Bool.xor_right_inj] using h

theorem pageIndex_eq_of_secondary {mask vsid a b : U32}
    (hgroup : pteg mask (~~~primaryHash vsid a) = pteg mask (~~~primaryHash vsid b))
    (hapi : abbreviatedPageIndex a = abbreviatedPageIndex b) : pageIndex a = pageIndex b := by
  refine pageIndex_eq_of_bits (fun i hi => ?_) hapi
  have h := congrArg (fun x : U32 => x.getLsbD i) hgroup
  simpa only [pteg_bit hi, primaryHash, BitVec.getLsbD_not, BitVec.getLsbD_xor,
    show i < 32 by omega, decide_true, Bool.true_and, Bool.not_inj_iff, Bool.xor_right_inj] using h

end Bits

theorem Translates.pageIndex_eq {sr : SrTable} {vsid vsid' a b : U32} {s : Slot} {e : Pte}
    (ha : Translates sr vsid a s e) (hb : Translates sr vsid' b s e) :
    vsid = vsid' ∧ pageIndex a = pageIndex b := by
  obtain ⟨_, hvsid, hapi, hplace⟩ := ha
  obtain ⟨_, hvsid', hapi', hplace'⟩ := hb
  obtain rfl : vsid = vsid' := hvsid.symm.trans hvsid'
  refine ⟨rfl, ?_⟩
  have api : abbreviatedPageIndex a = abbreviatedPageIndex b := hapi.symm.trans hapi'
  rcases hplace with ⟨hbit, hg⟩ | ⟨hbit, hg⟩ <;> rcases hplace' with ⟨hbit', hg'⟩ | ⟨hbit', hg'⟩
  · exact pageIndex_eq_of_primary (BitVec.eq_of_toNat_eq (hg.symm.trans hg')) api
  · exact absurd (hbit.symm.trans hbit') (by decide)
  · exact absurd (hbit.symm.trans hbit') (by decide)
  · exact pageIndex_eq_of_secondary (BitVec.eq_of_toNat_eq (hg.symm.trans hg')) api

section SamePage

variable {a b : U32}

theorem pageIndex_of_samePage (h : a >>> 17 = b >>> 17) : pageIndex a = pageIndex b :=
  congrArg (· &&& pageIndexMask) h

theorem abbreviatedPageIndex_of_samePage (h : a >>> 17 = b >>> 17) :
    abbreviatedPageIndex a = abbreviatedPageIndex b := by
  have split (x : U32) : x >>> 22 = (x >>> 17) >>> 5 := BitVec.shiftRight_add x 17 5
  rw [abbreviatedPageIndex, abbreviatedPageIndex, split, split, h]

theorem segmentIndex_of_samePage (h : a >>> 17 = b >>> 17) :
    SrTable.segmentIndex a = SrTable.segmentIndex b := by
  have split (x : U32) : x >>> 28 = (x >>> 17) >>> 11 := BitVec.shiftRight_add x 17 11
  refine Fin.ext ?_
  change (a >>> 28).toNat = (b >>> 28).toNat
  rw [split, split, h]

theorem vsid_of_samePage (sr : SrTable) (h : a >>> 17 = b >>> 17) : sr.vsid a = sr.vsid b := by
  rw [SrTable.vsid, SrTable.vsid, SrTable.segment, SrTable.segment, segmentIndex_of_samePage h]

theorem translates_of_samePage (sr : SrTable) (vsid : U32) (h : a >>> 17 = b >>> 17) (s : Slot)
    (e : Pte) : Translates sr vsid a s e ↔ Translates sr vsid b s e := by
  rw [Translates, Translates, primaryHash, primaryHash, pageIndex_of_samePage h,
    abbreviatedPageIndex_of_samePage h]

theorem samePage_of_fields (hsegment : SrTable.segmentIndex a = SrTable.segmentIndex b)
    (hpage : pageIndex a = pageIndex b) : a >>> 17 = b >>> 17 := by
  have hsegment := congrArg Fin.val hsegment
  change (a >>> 28).toNat = (b >>> 28).toNat at hsegment
  have index (x : U32) : (pageIndex x).toNat = x.toNat / 0x20000 % 0x800 := by
    rw [pageIndex, pageIndexMask_eq, and_lowMask_toNat _ (by decide), BitVec.toNat_ushiftRight,
      Nat.shiftRight_eq_div_pow]
    rfl
  have hpage := congrArg BitVec.toNat hpage
  rw [index, index] at hpage
  rw [BitVec.toNat_ushiftRight, BitVec.toNat_ushiftRight, Nat.shiftRight_eq_div_pow,
    Nat.shiftRight_eq_div_pow] at hsegment
  apply BitVec.eq_of_toNat_eq
  rw [BitVec.toNat_ushiftRight, BitVec.toNat_ushiftRight, Nat.shiftRight_eq_div_pow,
    Nat.shiftRight_eq_div_pow]
  omega

theorem samePage_iff : a >>> 17 = b >>> 17 ↔ a.toNat / 0x20000 = b.toNat / 0x20000 := by
  rw [BitVec.toNat_eq, BitVec.toNat_ushiftRight, BitVec.toNat_ushiftRight,
    Nat.shiftRight_eq_div_pow, Nat.shiftRight_eq_div_pow]

end SamePage

end MemoryMappingModule.PageTableFormat
