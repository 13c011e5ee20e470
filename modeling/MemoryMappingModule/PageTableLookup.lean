import MemoryMappingModule.PageTableFormat

/-! The module's page table lookup. The primary search passes the whole SDR1 word
where a nine-bit mask is expected; a nineteen-bit hash is cut by it exactly as by
the mask. On a table the mask fits, both searches stay inside the table and find
the first entry of the page's group that translates it. -/

namespace MemoryMappingModule.PageTableLookup

open WordArithmetic MappingLayout PageTableFormat

/-- The loop of `MemoryMapping_getPageEntryForAddressEx`, with the number of entries left. -/
def scanGroup (t : PageTable) (vsid api h : U32) : ℕ → U32 → Exec (Option Pte)
  | 0, _ => .ok none
  | n + 1, pteAddrOffset => do
    let ptehIndex := (pteAddrOffset / 4).toNat
    let ptelIndex := ptehIndex + 1
    let pteh ← t.read ptehIndex
    let ptel ← t.read ptelIndex
    if pteh >>> 31 = 0 then scanGroup t vsid api h n (pteAddrOffset + 8)
    else if (pteh >>> 6) &&& 1 ≠ h then scanGroup t vsid api h n (pteAddrOffset + 8)
    else if (pteh >>> 7) &&& 0xFFFFFF ≠ vsid then scanGroup t vsid api h n (pteAddrOffset + 8)
    else if pteh &&& 0x3F ≠ api then scanGroup t vsid api h n (pteAddrOffset + 8)
    else .ok (some ⟨pteh, ptel⟩)

/-- `MemoryMapping_getPageEntryForAddressEx`; an entry stands for `true` with both out
parameters set, `none` for `false` with both left alone. -/
def getPageEntryForAddressEx (pageMask addr vsid primaryHash : U32) (t : PageTable) (h : U32) :
    Exec (Option Pte) :=
  let maskedHash := primaryHash &&& ((pageMask <<< 10) ||| 0x3FF)
  let api := (addr >>> 22) &&& 0x3F
  scanGroup t vsid api h 8 (maskedHash <<< 6)

/-- `MemoryMapping_getPageEntryForAddress` -/
def getPageEntryForAddress (sdr1 addr vsid : U32) (t : PageTable) (checkSecondHash : Bool) :
    Exec (Option Pte) := do
  let pageMask := sdr1 &&& 0x1FF
  let pageIndex := (addr >>> pageIndexShift) &&& pageIndexMask
  let primaryHash := (vsid &&& 0x7FFFF) ^^^ pageIndex
  match ← getPageEntryForAddressEx sdr1 addr vsid primaryHash t 0 with
  | some e => return some e
  | none =>
    if checkSecondHash then getPageEntryForAddressEx pageMask addr vsid (~~~primaryHash) t 1
    else return none

def slotsFrom (g : ℕ) : ℕ → List Slot
  | 0 => []
  | n + 1 => slot g (7 - n) :: slotsFrom g n

def groupSlots (g : ℕ) : List Slot := slotsFrom g 8

theorem mem_slotsFrom {g n : ℕ} (hg : g < 0x800) (hn : n ≤ 8) (s : Slot) :
    s ∈ slotsFrom g n ↔ s.val / 8 = g ∧ 8 - n ≤ s.val % 8 := by
  induction n with
  | zero =>
    simp only [slotsFrom, List.not_mem_nil, false_iff]
    omega
  | succ n ih =>
    rw [slotsFrom, List.mem_cons, ih (by omega), Fin.ext_iff, slot_val hg (by omega)]
    omega

theorem mem_groupSlots {g : ℕ} (hg : g < 0x800) (s : Slot) : s ∈ groupSlots g ↔ s.val / 8 = g := by
  rw [groupSlots, mem_slotsFrom hg le_rfl]
  omega

def Accepts (vsid api h : U32) (e : Pte) : Prop :=
  e.Valid ∧ e.hashBit = h ∧ e.vsid = vsid ∧ e.api = api

instance (vsid api h : U32) : DecidablePred (Accepts vsid api h) :=
  fun _ => inferInstanceAs (Decidable (_ ∧ _))

theorem translates_iff {sr : SrTable} (hmask : sr.htabMask ≤ 1) (vsid ea : U32) (s : Slot)
    (e : Pte) : Translates sr vsid ea s e ↔
      s ∈ groupSlots (pteg sr.htabMask (primaryHash vsid ea)).toNat ∧
          Accepts vsid (abbreviatedPageIndex ea) 0 e ∨
        s ∈ groupSlots (pteg sr.htabMask (~~~primaryHash vsid ea)).toNat ∧
          Accepts vsid (abbreviatedPageIndex ea) 1 e := by
  rw [mem_groupSlots (pteg_toNat_lt hmask _), mem_groupSlots (pteg_toNat_lt hmask _), Translates,
    Accepts, Accepts]
  tauto

def findInGroup (T : Slot → Pte) (vsid api h : U32) (g : ℕ) : Option Pte :=
  ((groupSlots g).map T).find? fun e => Accepts vsid api h e

def lookup (sr : SrTable) (addr vsid : U32) (T : Slot → Pte) (checkSecondHash : Bool) :
    Option Pte :=
  let api := abbreviatedPageIndex addr
  match findInGroup T vsid api 0 (pteg sr.htabMask (primaryHash vsid addr)).toNat with
  | some e => some e
  | none =>
    if checkSecondHash then
      findInGroup T vsid api 1 (pteg sr.htabMask (~~~primaryHash vsid addr)).toNat
    else none

/-- The chain of `continue` tests rejects exactly the entries that are not accepted. -/
theorem tests_eq {α : Type} (vsid api h : U32) (e : Pte) (next accepted : α) :
    (if e.high >>> 31 = 0 then next
      else if (e.high >>> 6) &&& 1 ≠ h then next
      else if (e.high >>> 7) &&& 0xFFFFFF ≠ vsid then next
      else if e.high &&& 0x3F ≠ api then next
      else accepted) = if Accepts vsid api h e then accepted else next := by
  by_cases haccepts : Accepts vsid api h e
  · have passed : e.high >>> 31 ≠ 0 ∧ (e.high >>> 6) &&& 1 = h ∧
        (e.high >>> 7) &&& 0xFFFFFF = vsid ∧ e.high &&& 0x3F = api := haccepts
    rw [if_pos haccepts, if_neg passed.1, if_neg (not_not_intro passed.2.1),
      if_neg (not_not_intro passed.2.2.1), if_neg (not_not_intro passed.2.2.2)]
  · rw [if_neg haccepts]
    split_ifs with hvalid hhash hvsid hapi
    · rfl
    · rfl
    · rfl
    · rfl
    · exact absurd ⟨hvalid, not_not.mp hhash, not_not.mp hvsid, not_not.mp hapi⟩ haccepts

theorem scanGroup_eq (t : PageTable) (vsid api h : U32) {g n : ℕ} (hg : g < 0x800) (hn : n ≤ 8)
    {off : U32} (hoff : off.toNat = 64 * g + 8 * (8 - n)) :
    scanGroup t vsid api h n off =
      .ok (((slotsFrom g n).map (entries t)).find? fun e => Accepts vsid api h e) := by
  induction n generalizing off with
  | zero => rfl
  | succ n ih =>
    have hslot := slot_val hg (show 7 - n < 8 by omega)
    have hindex : (off / 4).toNat = 2 * (slot g (7 - n)).val := by
      rw [BitVec.toNat_udiv, hslot, hoff]
      change (64 * g + 8 * (8 - (n + 1))) / 4 = _
      omega
    have hnext : (off + 8).toNat = 64 * g + 8 * (8 - n) := by
      rw [BitVec.toNat_add_of_lt (by change off.toNat + 8 < 2 ^ 32; omega), hoff]
      change _ + 8 = _
      omega
    have hrest := ih (by omega) hnext
    simp only [scanGroup, hindex, read_slot, read_slot_succ, bind, Except.bind, hrest, slotsFrom,
      List.map_cons, List.find?_cons]
    rw [tests_eq]
    by_cases haccepts : Accepts vsid api h (entries t (slot g (7 - n)))
    · simp only [haccepts, if_true, decide_true]
    · simp only [haccepts, if_false, decide_false]

theorem getPageEntryForAddressEx_eq (pageMask addr vsid hash : U32) {mask : U32}
    (hmask : mask ≤ 1) (hgroup : hash &&& ((pageMask <<< 10) ||| 0x3FF) = pteg mask hash)
    (t : PageTable) (h : U32) :
    getPageEntryForAddressEx pageMask addr vsid hash t h =
      .ok (findInGroup (entries t) vsid (abbreviatedPageIndex addr) h (pteg mask hash).toNat) := by
  have hlt := pteg_toNat_lt hmask hash
  rw [getPageEntryForAddressEx, hgroup]
  apply scanGroup_eq t _ _ _ hlt le_rfl
  rw [BitVec.toNat_shiftLeft, Nat.shiftLeft_eq]
  omega

/-- The hash has nineteen bits, so the whole SDR1 word cuts it like its mask field. -/
theorem primary_cut (sr : SrTable) (vsid ea : U32) :
    primaryHash vsid ea &&& ((sr.sdr1 <<< 10) ||| 0x3FF) =
      pteg sr.htabMask (primaryHash vsid ea) := by
  change ((vsid &&& lowMask 32 19) ^^^ ((ea >>> 17) &&& lowMask 32 11)) &&&
      ((sr.sdr1 <<< 10) ||| lowMask 32 10) =
    ((vsid &&& lowMask 32 19) ^^^ ((ea >>> 17) &&& lowMask 32 11)) &&&
      (((sr.sdr1 &&& lowMask 32 9) <<< 10) ||| lowMask 32 10)
  apply BitVec.eq_of_getLsbD_eq
  intro i hi
  simp only [BitVec.getLsbD_and, BitVec.getLsbD_or, BitVec.getLsbD_xor, BitVec.getLsbD_shiftLeft,
    getLsbD_lowMask]
  grind

theorem getPageEntryForAddress_eq {sr : SrTable} (hmask : sr.htabMask ≤ 1) (addr vsid : U32)
    (t : PageTable) (checkSecondHash : Bool) :
    getPageEntryForAddress sr.sdr1 addr vsid t checkSecondHash =
      .ok (lookup sr addr vsid (entries t) checkSecondHash) := by
  have first := getPageEntryForAddressEx_eq sr.sdr1 addr vsid (primaryHash vsid addr) hmask
    (primary_cut sr vsid addr) t 0
  have second := getPageEntryForAddressEx_eq (sr.sdr1 &&& 0x1FF) addr vsid
    (~~~primaryHash vsid addr) hmask rfl t 1
  rw [primaryHash, pageIndex] at first second
  simp only [getPageEntryForAddress, first, second, bind, Except.bind, lookup, primaryHash,
    pageIndex]
  split
  · rfl
  · split_ifs <;> rfl

section Lookup

variable {sr : SrTable} (hmask : sr.htabMask ≤ 1) {addr vsid : U32} {T T' : Slot → Pte}

theorem findInGroup_eq_some {api h : U32} {g : ℕ} {e : Pte}
    (hfind : findInGroup T vsid api h g = some e) :
    ∃ s ∈ groupSlots g, T s = e ∧ Accepts vsid api h e := by
  obtain ⟨s, hs, rfl⟩ := List.mem_map.mp (List.mem_of_find?_eq_some hfind)
  exact ⟨s, hs, rfl, by simpa using List.find?_some hfind⟩

theorem findInGroup_eq_none_iff {api h : U32} {g : ℕ} :
    findInGroup T vsid api h g = none ↔ ∀ s ∈ groupSlots g, ¬ Accepts vsid api h (T s) := by
  simp [findInGroup]

theorem findInGroup_congr {api h : U32} {g : ℕ}
    (hsame : ∀ s ∈ groupSlots g, T' s = T s ∨
      ¬ Accepts vsid api h (T s) ∧ ¬ Accepts vsid api h (T' s)) :
    findInGroup T' vsid api h g = findInGroup T vsid api h g := by
  unfold findInGroup
  generalize groupSlots g = slots at hsame
  induction slots with
  | nil => rfl
  | cons s ss ih =>
    have hrest := ih fun s' hs' => hsame s' (List.mem_cons_of_mem _ hs')
    simp only [List.map_cons, List.find?_cons, hrest]
    rcases hsame s (List.mem_cons_self ..) with heq | ⟨hold, hnew⟩
    · rw [heq]
    · simp only [hold, hnew, decide_false]

include hmask

/-- A table that agrees on every slot that translates the page, before or after, gives the
same lookup. -/
theorem lookup_congr (hsame : ∀ s, T' s = T s ∨
      ¬ Translates sr vsid addr s (T s) ∧ ¬ Translates sr vsid addr s (T' s))
    (checkSecondHash : Bool) :
    lookup sr addr vsid T' checkSecondHash = lookup sr addr vsid T checkSecondHash := by
  have unaccepted {h : U32} {s : Slot} (htranslates : ∀ e, Accepts vsid
      (abbreviatedPageIndex addr) h e → Translates sr vsid addr s e) : T' s = T s ∨
      ¬ Accepts vsid (abbreviatedPageIndex addr) h (T s) ∧
        ¬ Accepts vsid (abbreviatedPageIndex addr) h (T' s) :=
    (hsame s).imp_right fun h =>
      ⟨fun hacc => h.1 (htranslates _ hacc), fun hacc => h.2 (htranslates _ hacc)⟩
  have primary := findInGroup_congr fun s hs => unaccepted
    fun e hacc => (translates_iff hmask vsid addr s e).mpr (Or.inl ⟨hs, hacc⟩)
  have secondary := findInGroup_congr fun s hs => unaccepted
    fun e hacc => (translates_iff hmask vsid addr s e).mpr (Or.inr ⟨hs, hacc⟩)
  simp only [lookup, primary, secondary]

theorem lookup_eq_some {checkSecondHash : Bool} {e : Pte}
    (hlookup : lookup sr addr vsid T checkSecondHash = some e) :
    ∃ s, T s = e ∧ Translates sr vsid addr s e := by
  simp only [lookup] at hlookup
  split at hlookup
  · next e' hfind =>
    obtain rfl := Option.some.inj hlookup
    obtain ⟨s, hs, heq, hacc⟩ := findInGroup_eq_some hfind
    exact ⟨s, heq, (translates_iff hmask ..).mpr (Or.inl ⟨hs, hacc⟩)⟩
  · split_ifs at hlookup
    obtain ⟨s, hs, heq, hacc⟩ := findInGroup_eq_some hlookup
    exact ⟨s, heq, (translates_iff hmask ..).mpr (Or.inr ⟨hs, hacc⟩)⟩

theorem lookup_eq_none_iff :
    lookup sr addr vsid T true = none ↔ ∀ s, ¬ Translates sr vsid addr s (T s) := by
  constructor
  · intro hnone s htranslates
    simp only [lookup] at hnone
    split at hnone
    · exact absurd hnone (by simp)
    · next hprimary =>
      simp only [if_true] at hnone
      rw [findInGroup_eq_none_iff] at hnone hprimary
      rcases (translates_iff hmask ..).mp htranslates with ⟨hs, hacc⟩ | ⟨hs, hacc⟩
      · exact hprimary s hs hacc
      · exact hnone s hs hacc
  · intro habsent
    by_contra hsome
    obtain ⟨e, he⟩ := Option.ne_none_iff_exists'.mp hsome
    obtain ⟨s, rfl, htranslates⟩ := lookup_eq_some hmask he
    exact habsent s htranslates

theorem lookup_of_unique {s : Slot} (hs : Translates sr vsid addr s (T s))
    (hunique : ∀ s', Translates sr vsid addr s' (T s') → s' = s) :
    lookup sr addr vsid T true = some (T s) := by
  cases hlookup : lookup sr addr vsid T true with
  | none => exact absurd hs ((lookup_eq_none_iff hmask).mp hlookup s)
  | some e =>
    obtain ⟨s', rfl, hs'⟩ := lookup_eq_some hmask hlookup
    rw [hunique s' hs']

end Lookup

end MemoryMappingModule.PageTableLookup
