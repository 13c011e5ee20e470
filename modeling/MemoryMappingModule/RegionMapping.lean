import MemoryMappingModule.AddressTranslation
import MemoryMappingModule.PageTableMapping

/-! `MemoryMapping_memoryMappingForRegions`: one call of `MemoryMapping_mapMemory` per
chunk, at the effective address after the previous chunk. When every call succeeds,
the page table translates each effective address of a region by exactly one entry,
to the address that `MemoryMapping_EffectiveToPhysical` computes. -/

namespace MemoryMappingModule.RegionMapping

open WordArithmetic ExtentTranslation FirstFit MappingLayout AddressTranslation PageTableFormat
open PageTableLookup PageTableMapping

/-- The inner loop of `MemoryMapping_memoryMappingForRegions`; `false` where it returns
from the function. -/
def mapChunks (sr : SrTable) : U32 → List MemoryValues → PageTable → Exec (Bool × PageTable)
  | _, [], t => .ok (true, t)
  | curEaStartAddress, v :: rest, t =>
    if v.endAddress = 0 ∧ v.startAddress = 0 then .ok (true, t)
    else
      mapMemory v.startAddress v.endAddress curEaStartAddress sr t >>= fun r =>
        if r.1 then
          mapChunks sr (curEaStartAddress + (v.endAddress - v.startAddress)) rest r.2
        else .ok (false, r.2)

/-- The outer loop, with whether every call of `MemoryMapping_mapMemory` returned true. -/
def mapRegions (sr : SrTable) : List MemoryMapping → PageTable → Exec (Bool × PageTable)
  | [], t => .ok (true, t)
  | m :: rest, t =>
    match m.physicalAddresses with
    | none => .ok (true, t)
    | some memVals =>
      mapChunks sr m.effectiveStartAddress memVals t >>= fun r =>
        if r.1 then mapRegions sr rest r.2 else .ok (false, r.2)

/-- `MemoryMapping_memoryMappingForRegions` -/
def memoryMappingForRegions (memoryMapping : List MemoryMapping) (sr : SrTable) (t : PageTable) :
    Exec PageTable := do
  let r ← mapRegions sr memoryMapping t
  return r.2

structure Page where
  effective : U32
  physical : U32

namespace Page

def ofAddresses (p : ℕ × ℕ) : Page := ⟨BitVec.ofNat 32 p.1, BitVec.ofNat 32 p.2⟩

def request (sr : SrTable) (p : Page) : Request Slot Pte :=
  pageRequest p.physical p.effective sr 0

end Page

def requests (sr : SrTable) (ps : List (ℕ × ℕ)) : List (Request Slot Pte) :=
  ps.map fun p => (Page.ofAddresses p).request sr

theorem requests_append (sr : SrTable) (ps qs : List (ℕ × ℕ)) :
    requests sr (ps ++ qs) = requests sr ps ++ requests sr qs :=
  List.map_append

theorem requests_cons (sr : SrTable) (p : ℕ × ℕ) (ps : List (ℕ × ℕ)) :
    requests sr (p :: ps) = (Page.ofAddresses p).request sr :: requests sr ps := rfl

def tablePages (T : MappingTable) : List (ℕ × ℕ) :=
  T.regions.flatMap fun r => pages 0x20000 r.effectiveStart.toNat (r.chunks.map Chunk.extent)

theorem pageRequest_eq (sr : SrTable) (pa ea i : U32) :
    pageRequest pa ea sr i = (Page.mk (ea + i) (pa + i)).request sr := by
  simp [Page.request, pageRequest, pageEntry]

theorem counters_requests (sr : SrTable) (pa ea : U32) (n : ℕ) :
    (counters 0 n).map (pageRequest pa ea sr) =
      requests sr ((List.range n).map fun k =>
        (ea.toNat + k * 0x20000, pa.toNat + k * 0x20000)) := by
  rw [counters_eq, requests, List.map_map, List.map_map]
  refine List.map_congr_left fun k _ => ?_
  simp only [Function.comp_apply, pageRequest_eq, Page.ofAddresses, BitVec.ofNat_add,
    BitVec.ofNat_toNat, BitVec.setWidth_eq]
  congr 2 <;> simp

structure PageAligned (T : MappingTable) : Prop where
  region_start : ∀ r ∈ T.regions, 0x20000 ∣ r.effectiveStart.toNat
  chunk_start : ∀ c ∈ T.chunks, 0x20000 ∣ c.start.toNat
  chunk_size : ∀ c ∈ T.chunks, 0x20000 ∣ c.extent.size

section Refinement

variable {sr : SrTable}

theorem mapChunks_places (hmask : sr.htabMask ≤ 1) (cur : U32) {chunks : List Chunk}
    (hsizes : ∀ c ∈ chunks, 0x20000 ∣ c.extent.size)
    (hfits : cur.toNat + total (chunks.map Chunk.extent) < 2 ^ 32) (t : PageTable) :
    Places t (requests sr (pages 0x20000 cur.toNat (chunks.map Chunk.extent)))
      (mapChunks sr cur (chunks.map Chunk.toValues ++ [⟨0, 0⟩]) t) := by
  induction chunks generalizing cur t with
  | nil => exact Places.nil t
  | cons c chunks ih =>
    simp only [List.map_cons, total_cons] at hfits
    have hsize := c.size_toNat
    have hnext := c.next_toNat (show cur.toNat + c.extent.size < 2 ^ 32 by omega)
    have hpages : c.extent.size / 0x20000 * 0x20000 = (c.stop - c.start).toNat := by
      rw [hsize]
      exact Nat.div_mul_cancel (hsizes c (by simp))
    have hfirst := mapMemory_places hmask c.start c.stop cur hpages t
    rw [counters_requests] at hfirst
    have hrest (t' : PageTable) := ih (cur + (c.stop - c.start))
      (fun d hd => hsizes d (by simp [hd])) (by omega) t'
    rw [hnext] at hrest
    have hboth := hfirst.append hrest
    rw [← requests_append] at hboth
    simp only [List.map_cons, List.cons_append, mapChunks, Chunk.toValues, c.stop_ne_zero,
      false_and, if_false, pages]
    exact hboth

theorem mapRegions_places (hmask : sr.htabMask ≤ 1) {regions : List Region}
    (hsizes : ∀ r ∈ regions, ∀ c ∈ r.chunks, 0x20000 ∣ c.extent.size) (t : PageTable) :
    Places t (requests sr (regions.flatMap fun r =>
        pages 0x20000 r.effectiveStart.toNat (r.chunks.map Chunk.extent)))
      (mapRegions sr (regions.map Region.toMapping ++ [⟨0, 0, none⟩]) t) := by
  induction regions generalizing t with
  | nil => exact Places.nil t
  | cons r regions ih =>
    have hend := r.effectiveEnd.isLt
    have hlength := r.length_eq
    have hfirst := mapChunks_places hmask r.effectiveStart (hsizes r (by simp)) (by omega) t
    have hboth := hfirst.append fun t' => ih (fun s hs => hsizes s (by simp [hs])) t'
    rw [← requests_append] at hboth
    rw [List.flatMap_cons]
    exact hboth

theorem mapRegions_table_places (hmask : sr.htabMask ≤ 1) {T : MappingTable}
    (haligned : PageAligned T) (t : PageTable) :
    Places t (requests sr (tablePages T)) (mapRegions sr T.toArray t) :=
  mapRegions_places hmask
    (fun r hr c hc => haligned.chunk_size c (List.mem_flatMap.mpr ⟨r, hr, hc⟩)) t

end Refinement

def InRegion (T : MappingTable) (ea : U32) : Prop := ∃ r ∈ T.regions, r.Contains ea

section Pages

variable {T : MappingTable}

theorem extents_aligned (haligned : PageAligned T) {r : Region} (hr : r ∈ T.regions) :
    ∀ x ∈ r.chunks.map Chunk.extent, 0x20000 ∣ x.base ∧ 0x20000 ∣ x.size := by
  intro x hx
  obtain ⟨c, hc, rfl⟩ := List.mem_map.mp hx
  have hmem : c ∈ T.chunks := List.mem_flatMap.mpr ⟨r, hr, hc⟩
  exact ⟨haligned.chunk_start c hmem, haligned.chunk_size c hmem⟩

theorem window_contains_page (haligned : PageAligned T) {r : Region} (hr : r ∈ T.regions)
    {q : ℕ × ℕ} (hq : q ∈ pages 0x20000 r.effectiveStart.toNat (r.chunks.map Chunk.extent)) :
    r.window.Contains q.1 ∧ 0x20000 ∣ q.1 := by
  obtain ⟨hle, hdvd, haddress⟩ := mem_pages (by decide)
    (fun x hx => (extents_aligned haligned hr x hx).2) (p := q.2) hq
  have hinside := (address_isSome_iff _ _).mp (Option.isSome_of_eq_some haddress)
  refine ⟨?_, ?_⟩
  · simp only [Region.window, Window.Contains]
    omega
  · have hsum := Nat.dvd_add (haligned.region_start r hr) hdvd
    rwa [Nat.add_sub_cancel' hle] at hsum

theorem mem_tablePages (haligned : PageAligned T) {q : ℕ × ℕ} (hq : q ∈ tablePages T) :
    q.1 < 2 ^ 32 ∧ 0x20000 ∣ q.1 ∧ InRegion T (BitVec.ofNat 32 q.1) := by
  obtain ⟨r, hr, hq⟩ := List.mem_flatMap.mp hq
  obtain ⟨hcontains, hdvd⟩ := window_contains_page haligned hr hq
  exact ⟨r.window_contains_lt hcontains, hdvd, r, hr, r.contains_ofNat hcontains⟩

theorem tablePages_distinct (haligned : PageAligned T) :
    (tablePages T).Pairwise fun p q => p.1 ≠ q.1 := by
  refine List.pairwise_flatMap.mpr ⟨fun r hr => ?_, ?_⟩
  · have increasing : (pages 0x20000 r.effectiveStart.toNat (r.chunks.map Chunk.extent)).Pairwise
        fun p q => p.1 < q.1 :=
      pages_increasing (by decide) fun x hx => (extents_aligned haligned hr x hx).2
    exact increasing.imp fun h => h.ne
  · have apart := (List.pairwise_cons.mp (windows_disjoint T)).2
    refine (List.pairwise_map.mp apart).imp_of_mem fun {r s} hr hs hrs p hp q hq heq => ?_
    exact hrs p.1 ⟨(window_contains_page haligned hr hp).1,
      heq ▸ (window_contains_page haligned hs hq).1⟩

theorem ne_of_split (haligned : PageAligned T) {pre post : List (ℕ × ℕ)} {p : ℕ × ℕ}
    (hsplit : tablePages T = pre ++ p :: post) :
    (∀ q ∈ pre, q.1 ≠ p.1) ∧ ∀ q ∈ post, q.1 ≠ p.1 := by
  have hdistinct := tablePages_distinct haligned
  rw [hsplit] at hdistinct
  obtain ⟨_, htail, hcross⟩ := List.pairwise_append.mp hdistinct
  exact ⟨fun q hq => hcross q hq p (by simp),
    fun q hq => ((List.pairwise_cons.mp htail).1 q hq).symm⟩

theorem samePage_iff_of_mem (haligned : PageAligned T) {p : ℕ × ℕ} (hp : p ∈ tablePages T)
    (ea : U32) :
    (Page.ofAddresses p).effective >>> 17 = ea >>> 17 ↔
      p.1 = ea.toNat - ea.toNat % 0x20000 := by
  obtain ⟨hlt, hdvd, _⟩ := mem_tablePages haligned hp
  rw [samePage_iff, Page.ofAddresses, BitVec.toNat_ofNat, Nat.mod_eq_of_lt hlt]
  omega

/-- Each address of a region lies in a page of the table, at the offset at which its
translation lies in the page behind it. -/
theorem page_of_address (haligned : PageAligned T) {ea : U32} (hea : InRegion T ea) :
    ∃ q ∈ tablePages T, q.1 = ea.toNat - ea.toNat % 0x20000 ∧ 0x20000 ∣ q.2 ∧
      q.2 + ea.toNat % 0x20000 = (effectiveToPhysical T.toArray ea).toNat := by
  obtain ⟨r, hr, hea⟩ := hea
  have hwindow := (Region.window_contains_iff r ea).mpr hea
  have hforward := forward_of_contains (windows_disjoint T)
    (List.mem_cons_of_mem _ (List.mem_map_of_mem hr)) hwindow
  have hinside : ea.toNat - r.window.base < total r.window.extents := by
    simp only [Window.Contains] at hwindow
    omega
  obtain ⟨p, hp⟩ := Option.isSome_iff_exists.mp ((address_isSome_iff _ _).mpr hinside)
  rw [hp] at hforward
  have hextents := extents_aligned haligned hr
  obtain ⟨hle, hpage⟩ :=
    page_mem r.effectiveStart.toNat (fun x hx => (hextents x hx).2) hp
  have hstart := haligned.region_start r hr
  have hsame : (ea.toNat - r.window.base) % 0x20000 = ea.toNat % 0x20000 := by
    simp only [Region.window, Window.Contains] at hwindow ⊢
    omega
  rw [hsame] at hle hpage
  have hbacking := pages_backing_dvd (fun x hx => (hextents x hx).1) hpage
  refine ⟨_, List.mem_flatMap.mpr ⟨r, hr, hpage⟩, ?_, hbacking, ?_⟩
  · simp only [Region.window, Window.Contains] at hwindow ⊢
    omega
  · rw [effectiveToPhysical_toNat hforward]
    dsimp only
    omega

end Pages

section Agreement

variable {T : MappingTable} {sr : SrTable}

def SeparateSegments (T : MappingTable) (sr : SrTable) : Prop :=
  ∀ a b, InRegion T a → InRegion T b → SrTable.segmentIndex a ≠ SrTable.segmentIndex b →
    sr.vsid a ≠ sr.vsid b

def Fresh (T : MappingTable) (sr : SrTable) (t : PageTable) : Prop :=
  ∀ s a, InRegion T a → (entries t s).Valid → (entries t s).vsid ≠ sr.vsid a

theorem request_translates (hfits : sr.FitsTable) (p : Page) {c : Slot × Pte}
    (hc : c ∈ p.request sr) : Translates sr (sr.vsid p.effective) p.effective c.1 c.2 := by
  have h := pageRequest_translates hfits p.physical p.effective 0 hc
  have hzero : p.effective + 0 = p.effective := BitVec.add_zero _
  rwa [hzero] at h

theorem request_low (p : Page) {c : Slot × Pte} (hc : c ∈ p.request sr) :
    c.2.low = pteLow (p.physical >>> 12) 3 0x02 0x02 := by
  have h := pageRequest_low p.physical p.effective sr 0 hc
  have hzero : p.physical + 0 = p.physical := BitVec.add_zero _
  rwa [hzero] at h

theorem page_offset_eq {q : ℕ × ℕ} {ea pa : U32} (hlt : q.2 < 2 ^ 32) (hbacking : 0x20000 ∣ q.2)
    (htranslation : q.2 + ea.toNat % 0x20000 = pa.toNat) :
    (((Page.ofAddresses q).physical >>> 12) <<< 12) + (ea &&& 0x1FFFF) = pa := by
  have hoffset : (ea &&& 0x1FFFF).toNat = ea.toNat % 0x20000 :=
    and_lowMask_toNat ea (show 17 ≤ 32 by decide)
  have hpa := pa.isLt
  have hpage : (((Page.ofAddresses q).physical >>> 12) <<< 12).toNat = q.2 := by
    rw [BitVec.toNat_shiftLeft, BitVec.toNat_ushiftRight, Nat.shiftLeft_eq,
      Nat.shiftRight_eq_div_pow, Page.ofAddresses, BitVec.toNat_ofNat, Nat.mod_eq_of_lt hlt]
    omega
  apply BitVec.eq_of_toNat_eq
  rw [BitVec.toNat_add, hpage, hoffset, htranslation, Nat.mod_eq_of_lt hpa]

/-- What a page of the table offers translates an address of the regions exactly when the
address lies in that page. -/
theorem request_translates_iff (haligned : PageAligned T) (hfits : sr.FitsTable)
    (hsegments : SeparateSegments T sr) {ea : U32} (hea : InRegion T ea) {p : ℕ × ℕ}
    (hp : p ∈ tablePages T) {c : Slot × Pte} (hc : c ∈ (Page.ofAddresses p).request sr) :
    Translates sr (sr.vsid ea) ea c.1 c.2 ↔ p.1 = ea.toNat - ea.toNat % 0x20000 := by
  have hoffered := request_translates hfits _ hc
  rw [← samePage_iff_of_mem haligned hp]
  constructor
  · intro hown
    obtain ⟨hvsid, hpage⟩ := hoffered.pageIndex_eq hown
    have hsegment : SrTable.segmentIndex (Page.ofAddresses p).effective =
        SrTable.segmentIndex ea := by
      by_contra hne
      exact hsegments _ _ (mem_tablePages haligned hp).2.2 hea hne hvsid
    exact samePage_of_fields hsegment hpage
  · intro hsame
    rwa [vsid_of_samePage sr hsame, translates_of_samePage sr _ hsame] at hoffered

theorem requests_existsUnique (haligned : PageAligned T) (hfits : sr.FitsTable)
    (hsegments : SeparateSegments T sr) {t : PageTable} (hfresh : Fresh T sr t) {ea : U32}
    (hea : InRegion T ea)
    (ok : (placeAll Pte.Free (entries t) (requests sr (tablePages T))).1 = true) :
    ∃ s, Translates sr (sr.vsid ea) ea s
          ((placeAll Pte.Free (entries t) (requests sr (tablePages T))).2 s) ∧
      (∀ s', Translates sr (sr.vsid ea) ea s'
          ((placeAll Pte.Free (entries t) (requests sr (tablePages T))).2 s') → s' = s) ∧
      (((placeAll Pte.Free (entries t) (requests sr (tablePages T))).2 s).low &&&
          (0xFFFFF000 : U32)) + (ea &&& 0x1FFFF) = effectiveToPhysical T.toArray ea := by
  obtain ⟨q, hq, heffective, hbacking, htranslation⟩ := page_of_address haligned hea
  have hlt : q.2 < 2 ^ 32 := by
    have h := (effectiveToPhysical T.toArray ea).isLt
    omega
  obtain ⟨pre, post, hsplit⟩ := List.append_of_mem hq
  obtain ⟨hpre, hpost⟩ := ne_of_split haligned hsplit
  have hown (c : Slot × Pte) (hc : c ∈ (Page.ofAddresses q).request sr) :
      Translates sr (sr.vsid ea) ea c.1 c.2 :=
    (request_translates_iff haligned hfits hsegments hea hq hc).mpr heffective
  -- the requests of the other pages offer nothing for this address
  have foreign {ps : List (ℕ × ℕ)} (hmem : ∀ p ∈ ps, p ∈ tablePages T)
      (hne : ∀ p ∈ ps, p.1 ≠ q.1) : ∀ r ∈ requests sr ps, ∀ c ∈ r,
        ¬ Translates sr (sr.vsid ea) ea c.1 c.2 := by
    intro r hr c hc
    obtain ⟨p, hp, rfl⟩ := List.mem_map.mp hr
    rw [request_translates_iff haligned hfits hsegments hea (hmem p hp) hc, ← heffective]
    exact hne p hp
  rw [hsplit, requests_append, requests_cons] at ok ⊢
  obtain ⟨s, hs, hunique⟩ := placeAll_existsUnique (Translates sr (sr.vsid ea) ea)
    (fun s e h => h.1.not_free) hown
    (foreign (fun p hp => by simp [hsplit, hp]) hpre)
    (foreign (fun p hp => by simp [hsplit, hp]) hpost)
    (fun s h => hfresh s ea hea h.1 h.2.1) ok
  have htranslates := hown _ hs
  have hlow := request_low _ hs
  refine ⟨s, htranslates, hunique, ?_⟩
  rw [hlow, pteLow_page]
  exact page_offset_eq hlt hbacking htranslation

end Agreement

/-- When every call succeeds, the hardware's page table, the module's lookup and the
module's translation agree on every address of every region. -/
theorem mapping_agrees_with_translation {T : MappingTable} {sr : SrTable} {t t' : PageTable}
    (haligned : PageAligned T) (hfits : sr.FitsTable) (hsegments : SeparateSegments T sr)
    (hfresh : Fresh T sr t) (hmapped : mapRegions sr T.toArray t = .ok (true, t')) :
    memoryMappingForRegions T.toArray sr t = .ok t' ∧
      ∀ r ∈ T.regions, ∀ ea, r.Contains ea →
        ∃ s, Translates sr (sr.vsid ea) ea s (entries t' s) ∧
          (∀ s', Translates sr (sr.vsid ea) ea s' (entries t' s') → s' = s) ∧
          getPageEntryForAddress sr.sdr1 ea (sr.vsid ea) t' true = .ok (some (entries t' s)) ∧
          ((entries t' s).low &&& (0xFFFFF000 : U32)) + (ea &&& 0x1FFFF) =
            effectiveToPhysical T.toArray ea := by
  refine ⟨by rw [memoryMappingForRegions, hmapped]; rfl, fun r hr ea hea => ?_⟩
  obtain ⟨u, hrun, hentries⟩ := mapRegions_table_places hfits.mask_le haligned t
  obtain ⟨ok, rfl⟩ := Prod.mk.inj (Except.ok.inj (hrun.symm.trans hmapped))
  obtain ⟨s, htranslates, hunique, htranslation⟩ :=
    requests_existsUnique haligned hfits hsegments hfresh ⟨r, hr, hea⟩ ok
  rw [← hentries] at htranslates hunique htranslation
  refine ⟨s, htranslates, hunique, ?_, htranslation⟩
  rw [getPageEntryForAddress_eq hfits.mask_le,
    lookup_of_unique hfits.mask_le htranslates hunique]

section TwoRegions

def twoRegions : MappingTable where
  regions := [⟨0x80000000, 0x80040000, [⟨0x28000000, 0x28020000, by decide⟩,
      ⟨0x2C000000, 0x2C020000, by decide⟩], by decide⟩,
    ⟨0x80100000, 0x80120000, [⟨0x2A000000, 0x2A020000, by decide⟩], by decide⟩]
  regions_disjoint :=
    List.pairwise_pair.mpr (Region.disjoint_of_le (.inl (by decide)))
  avoids_bat := by
    simp only [List.forall_mem_cons, List.not_mem_nil, false_imp_iff, implies_true, and_true]
    exact ⟨fun _ => Region.not_inBatWindow (.inr (by decide)),
      fun _ => Region.not_inBatWindow (.inr (by decide))⟩

def onePageSegments : SrTable := ⟨fun _ => segmentUniqueId, 0x00E00001⟩

theorem twoRegions_aligned : PageAligned twoRegions where
  region_start := by decide
  chunk_start := by decide
  chunk_size := by decide

theorem twoRegions_mapped :
    ∃ t', mapRegions onePageSegments twoRegions.toArray crowdedTable = .ok (true, t') := by
  have hmask : onePageSegments.htabMask ≤ 1 := by decide
  obtain ⟨t', hrun, _⟩ := mapRegions_table_places hmask twoRegions_aligned crowdedTable
  have hplaced : (placeAll Pte.Free (entries crowdedTable)
      (requests onePageSegments (tablePages twoRegions))).1 = true := by
    decide +kernel
  rw [hplaced] at hrun
  exact ⟨t', hrun⟩

theorem twoRegions_segment {a : U32} (ha : InRegion twoRegions a) :
    SrTable.segmentIndex a = 8 := by
  have hbounds : ∀ r ∈ twoRegions.regions,
      (0x80000000 : U32) ≤ r.effectiveStart ∧ r.effectiveEnd ≤ (0x90000000 : U32) := by
    decide
  obtain ⟨r, hr, ha⟩ := ha
  obtain ⟨hstart, hend⟩ := hbounds r hr
  simp only [Region.Contains, BitVec.le_def, BitVec.lt_def, BitVec.reduceToNat] at ha hstart hend
  refine Fin.ext ?_
  change (a >>> 28).toNat = 8
  rw [BitVec.toNat_ushiftRight, Nat.shiftRight_eq_div_pow]
  omega

theorem crowdedTable_vsid {s : Slot} (hs : (entries crowdedTable s).Valid) :
    (entries crowdedTable s).vsid = 0x30ECA9 := by
  have hhigh : (entries crowdedTable s).high =
      if 2 * s.val % 32 = 2 then 0x98765480 else if 2 * s.val % 32 = 3 then 0x2A000012 else 0 := rfl
  rw [Pte.vsid, hhigh]
  rw [Pte.Valid, hhigh] at hs
  split_ifs at hs ⊢ with hslot hodd
  · decide
  · omega
  · exact absurd rfl hs

theorem twoRegions_agree : ∃ t',
    mapRegions onePageSegments twoRegions.toArray crowdedTable = .ok (true, t') ∧
      ∃ s, getPageEntryForAddress onePageSegments.sdr1 0x80032345 segmentUniqueId t' true =
          .ok (some (entries t' s)) ∧
        ((entries t' s).low &&& (0xFFFFF000 : U32)) + (0x80032345 &&& 0x1FFFF) =
          effectiveToPhysical twoRegions.toArray 0x80032345 := by
  obtain ⟨t', hmapped⟩ := twoRegions_mapped
  have separate : SeparateSegments twoRegions onePageSegments := fun a b ha hb hne =>
    absurd ((twoRegions_segment ha).trans (twoRegions_segment hb).symm) hne
  have fresh : Fresh twoRegions onePageSegments crowdedTable := by
    intro s a _ hvalid
    rw [crowdedTable_vsid hvalid]
    exact (by decide : (0x30ECA9 : U32) ≠ segmentUniqueId &&& 0x00FFFFFF)
  obtain ⟨_, hagree⟩ := mapping_agrees_with_translation twoRegions_aligned
    ⟨by decide, by decide⟩ separate fresh hmapped
  obtain ⟨s, _, _, hlookup, htranslation⟩ :=
    hagree _ (List.mem_cons_self ..) 0x80032345 ⟨by decide, by decide⟩
  exact ⟨t', hmapped, s, hlookup, htranslation⟩

end TwoRegions

end MemoryMappingModule.RegionMapping
