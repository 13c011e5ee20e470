import MemoryMappingModule.MappingSetup

/-! The page table as a finite map. Under a segment ID and the number of a page in its segment
a table holds the second word of the entry that a lookup finds there. Mapping the regions of a
table inserts its pages into this map, in order, up to the first one for which there is no
room; with room for all of them neither the outcome nor the map depends on the order of the
regions. -/

namespace MemoryMappingModule.PageMaps

open FirstFit MappingLayout PageTableFormat PageTableLookup PageTableMapping RegionMapping
open MappingSetup

def pageNumber (ea : U32) : BitVec 11 := ea.extractLsb' 17 11

abbrev PageKey := U32 × BitVec 11

/-- What is mapped under a segment ID and a page number. -/
abbrev PageMap := PageKey → Option U32

def pageKey (sr : SrTable) (ea : U32) : PageKey := (sr.vsid ea, pageNumber ea)

def insertPage (sr : SrTable) (m : PageMap) (p : ℕ × ℕ) : PageMap :=
  Function.update m (pageKey sr (BitVec.ofNat 32 p.1))
    (some (pteLow (BitVec.ofNat 32 p.2 >>> 12) 3 0x02 0x02))

def insertPages (sr : SrTable) (m : PageMap) (ps : List (ℕ × ℕ)) : PageMap :=
  ps.foldl (insertPage sr) m

def contents (sr : SrTable) (T : Slot → Pte) : PageMap :=
  fun k => (lookup sr (k.2.setWidth 32 <<< 17) k.1 T true).map Pte.low

/-- The search of the page table, with the address and the protection in an entry it finds. -/
def walk (sdr1 : U32) (t : PageTable) (vsid ea : U32) : Option (U32 × U32) :=
  (lookup ⟨fun _ => 0, sdr1⟩ ea vsid (entries t) true).map fun e =>
    ((e.low &&& 0xFFFFF000) + (ea &&& 0x1FFFF), e.low &&& 3)

section Keys

variable {sr : SrTable} {T : Slot → Pte} {a b ea vsid : U32}

theorem pageNumber_bit (ea : U32) {i : ℕ} (hi : i < 11) :
    (pageNumber ea).getLsbD i = ea.getLsbD (17 + i) := by
  rw [pageNumber, BitVec.getLsbD_extractLsb', decide_eq_true hi, Bool.true_and]

theorem pageIndex_eq_iff : pageIndex a = pageIndex b ↔ pageNumber a = pageNumber b := by
  constructor
  · intro h
    apply BitVec.eq_of_getLsbD_eq
    intro i hi
    rw [pageNumber_bit a hi, pageNumber_bit b hi, ← pageIndex_bit a hi, ← pageIndex_bit b hi, h]
  · intro h
    apply BitVec.eq_of_getLsbD_eq
    intro i _
    by_cases hi : i < 11
    · rw [pageIndex_bit a hi, pageIndex_bit b hi, ← pageNumber_bit a hi, ← pageNumber_bit b hi, h]
    · rw [pageIndex_bit_of_le a (by omega), pageIndex_bit_of_le b (by omega)]

theorem abbreviatedPageIndex_of_pageIndex (h : pageIndex a = pageIndex b) :
    abbreviatedPageIndex a = abbreviatedPageIndex b := by
  change (a >>> 22) &&& WordArithmetic.lowMask 32 6 = (b >>> 22) &&& WordArithmetic.lowMask 32 6
  apply BitVec.eq_of_getLsbD_eq
  intro i _
  simp only [BitVec.getLsbD_and, BitVec.getLsbD_ushiftRight, WordArithmetic.getLsbD_lowMask]
  by_cases hi : i < 6
  · have hbit (x : U32) : x.getLsbD (22 + i) = (pageIndex x).getLsbD (5 + i) := by
      rw [pageIndex_bit x (by omega), ← Nat.add_assoc]
    rw [hbit, hbit, h]
  · simp [hi]

theorem pageNumber_shifted (n : BitVec 11) : pageNumber (n.setWidth 32 <<< 17) = n := by
  apply BitVec.eq_of_getLsbD_eq
  intro i hi
  rw [pageNumber_bit _ hi, BitVec.getLsbD_shiftLeft, Nat.add_sub_cancel_left]
  simp [show i < 32 by omega, show 17 + i < 32 by omega]

theorem lookup_contents (sr : SrTable) (T : Slot → Pte) (ea vsid : U32) :
    (lookup sr ea vsid T true).map Pte.low = contents sr T (vsid, pageNumber ea) := by
  have hpage : pageIndex ((pageNumber ea).setWidth 32 <<< 17) = pageIndex ea :=
    pageIndex_eq_iff.mpr (pageNumber_shifted _)
  simp only [contents, lookup, primaryHash, hpage, abbreviatedPageIndex_of_pageIndex hpage]

theorem walk_eq (sr : SrTable) (t : PageTable) (vsid ea : U32) :
    walk sr.sdr1 t vsid ea = (contents sr (entries t) (vsid, pageNumber ea)).map fun low =>
      ((low &&& 0xFFFFF000) + (ea &&& 0x1FFFF), low &&& 3) := by
  rw [← lookup_contents, Option.map_map]
  rfl

theorem request_key_iff (hfits : sr.FitsTable) {p : Page} {c : Slot × Pte}
    (hc : c ∈ p.request sr) (ea vsid : U32) :
    Translates sr vsid ea c.1 c.2 ↔ (vsid, pageNumber ea) = pageKey sr p.effective := by
  have hoffered := request_translates hfits p hc
  constructor
  · intro hown
    obtain ⟨hvsid, hpage⟩ := hown.pageIndex_eq hoffered
    rw [hvsid, pageIndex_eq_iff.mp hpage, pageKey]
  · intro hkey
    obtain ⟨rfl, hnumber⟩ := Prod.mk.inj hkey
    have hpage := pageIndex_eq_iff.mpr hnumber
    rw [Translates, primaryHash, hpage, abbreviatedPageIndex_of_pageIndex hpage]
    exact hoffered

end Keys

section Insert

variable {sr : SrTable} {m : PageMap} {ps : List (ℕ × ℕ)}

theorem insertPages_of_ne {k : PageKey} (hne : ∀ p ∈ ps, pageKey sr (BitVec.ofNat 32 p.1) ≠ k) :
    insertPages sr m ps k = m k := by
  induction ps generalizing m with
  | nil => rfl
  | cons p ps ih =>
    obtain ⟨hfirst, hrest⟩ := List.forall_mem_cons.mp hne
    change insertPages sr (insertPage sr m p) ps k = _
    rw [ih hrest, insertPage, Function.update_of_ne hfirst.symm]

theorem insertPages_of_mem (hkeys : ps.Pairwise fun p q =>
      pageKey sr (BitVec.ofNat 32 p.1) ≠ pageKey sr (BitVec.ofNat 32 q.1)) {p : ℕ × ℕ}
    (hp : p ∈ ps) : insertPages sr m ps (pageKey sr (BitVec.ofNat 32 p.1)) =
      some (pteLow (BitVec.ofNat 32 p.2 >>> 12) 3 0x02 0x02) := by
  obtain ⟨pre, post, rfl⟩ := List.append_of_mem hp
  obtain ⟨_, htail, _⟩ := List.pairwise_append.mp hkeys
  obtain ⟨hlater, _⟩ := List.pairwise_cons.mp htail
  rw [insertPages, List.foldl_append, List.foldl_cons]
  change insertPages sr (insertPage sr (insertPages sr m pre) p) post _ = _
  rw [insertPages_of_ne fun q hq => (hlater q hq).symm, insertPage, Function.update_self]

end Insert

section Refinement

variable {sr : SrTable} {T T' : Slot → Pte}

theorem place_inserts (hfits : sr.FitsTable) {p : ℕ × ℕ}
    (hfresh : contents sr T (pageKey sr (BitVec.ofNat 32 p.1)) = none)
    (hplace : place Pte.Free T ((Page.ofAddresses p).request sr) = some T') :
    contents sr T' = insertPage sr (contents sr T) p := by
  obtain ⟨c, hc, hfree, rfl⟩ := place_eq_some hplace
  funext k
  have hown := request_key_iff hfits hc (k.2.setWidth 32 <<< 17) k.1
  rw [pageNumber_shifted] at hown
  rw [insertPage, Function.update_apply]
  split_ifs with hk
  · -- the slot's entry is the only one of the page
    have hnone : ∀ s, ¬ Translates sr k.1 (k.2.setWidth 32 <<< 17) s (T s) := by
      rw [← lookup_eq_none_iff hfits.mask_le, ← Option.map_eq_none_iff]
      rw [← hk] at hfresh
      exact hfresh
    have hstored : Function.update T c.1 c.2 c.1 = c.2 := Function.update_self _ _ _
    have htranslates := hown.mpr hk
    rw [← hstored] at htranslates
    have hlookup := lookup_of_unique hfits.mask_le htranslates fun s hs => by
      by_contra hne
      rw [Function.update_of_ne hne] at hs
      exact hnone s hs
    rw [contents, hlookup, hstored, Option.map_some, request_low _ hc]
    rfl
  · refine congrArg (Option.map Pte.low) (lookup_congr hfits.mask_le (fun s => ?_) true)
    by_cases hs : s = c.1
    · subst hs
      rw [Function.update_self]
      exact Or.inr ⟨fun hold => hold.1.not_free hfree, fun hnew => hk (hown.mp hnew)⟩
    · exact Or.inl (Function.update_of_ne hs _ _)

/-- Serving the requests of pages without entries inserts the pages up to the first one that
finds no free slot. -/
theorem placeAll_inserts (hfits : sr.FitsTable) {ps : List (ℕ × ℕ)}
    (hkeys : ps.Pairwise fun p q =>
      pageKey sr (BitVec.ofNat 32 p.1) ≠ pageKey sr (BitVec.ofNat 32 q.1))
    (hfresh : ∀ p ∈ ps, contents sr T (pageKey sr (BitVec.ofNat 32 p.1)) = none) :
    ∃ n ≤ ps.length, contents sr (placeAll Pte.Free T (requests sr ps)).2 =
        insertPages sr (contents sr T) (ps.take n) ∧
      ((placeAll Pte.Free T (requests sr ps)).1 = true ↔ n = ps.length) := by
  induction ps generalizing T with
  | nil => exact ⟨0, Nat.le_refl _, rfl, by simp [requests, placeAll]⟩
  | cons p ps ih =>
    obtain ⟨hfirst, hrest⟩ := List.pairwise_cons.mp hkeys
    rw [requests_cons]
    cases hplace : place Pte.Free T ((Page.ofAddresses p).request sr) with
    | none =>
      rw [placeAll_cons_none hplace]
      exact ⟨0, Nat.zero_le _, rfl, by simp⟩
    | some u =>
      have hu := place_inserts hfits (hfresh p List.mem_cons_self) hplace
      have hfresh' : ∀ q ∈ ps, contents sr u (pageKey sr (BitVec.ofNat 32 q.1)) = none := by
        intro q hq
        rw [hu, insertPage, Function.update_of_ne (hfirst q hq).symm]
        exact hfresh q (List.mem_cons_of_mem p hq)
      obtain ⟨n, hn, hcontents, hok⟩ := ih hrest hfresh'
      rw [placeAll_cons_some hplace]
      refine ⟨n + 1, Nat.succ_le_succ hn, ?_, by rw [hok, List.length_cons, Nat.succ_inj]⟩
      rw [hcontents, hu]
      rfl

end Refinement

section Regions

variable {T T' : MappingTable} {sr : SrTable} {t : PageTable}

theorem tablePages_keys (haligned : PageAligned T) (hsegments : SeparateSegments T sr) :
    (tablePages T).Pairwise fun p q =>
      pageKey sr (BitVec.ofNat 32 p.1) ≠ pageKey sr (BitVec.ofNat 32 q.1) := by
  refine (tablePages_distinct haligned).imp_of_mem fun {p q} hp hq hne hkey => hne ?_
  obtain ⟨hp32, hpdvd, hpin⟩ := mem_tablePages haligned hp
  obtain ⟨hq32, hqdvd, hqin⟩ := mem_tablePages haligned hq
  obtain ⟨hvsid, hnumber⟩ := Prod.mk.inj hkey
  have hsegment : SrTable.segmentIndex (BitVec.ofNat 32 p.1) =
      SrTable.segmentIndex (BitVec.ofNat 32 q.1) := by
    by_contra hother
    exact hsegments _ _ hpin hqin hother hvsid
  have hpage := samePage_iff.mp (samePage_of_fields hsegment (pageIndex_eq_iff.mpr hnumber))
  rw [BitVec.toNat_ofNat, BitVec.toNat_ofNat, Nat.mod_eq_of_lt hp32, Nat.mod_eq_of_lt hq32] at hpage
  omega

def Unmapped (T : MappingTable) (sr : SrTable) (t : PageTable) : Prop :=
  ∀ ea, InRegion T ea → contents sr (entries t) (pageKey sr ea) = none

theorem unmapped_of_fresh (hfits : sr.FitsTable) (hfresh : Fresh T sr t) : Unmapped T sr t := by
  intro ea hea
  change contents sr (entries t) (sr.vsid ea, pageNumber ea) = none
  rw [← lookup_contents, Option.map_eq_none_iff, lookup_eq_none_iff hfits.mask_le]
  exact fun s hs => hfresh s ea hea hs.1 hs.2.1

theorem emptyTable_fresh (T : MappingTable) (sr : SrTable) : Fresh T sr fun _ => 0 :=
  fun _ _ _ hvalid => absurd rfl hvalid.not_free

/-- Mapping the regions of a table, whether it succeeds or stops early, inserts pages of the
table into the map, in order; it succeeds exactly if it inserts all of them. -/
theorem mapRegions_inserts (haligned : PageAligned T) (hfits : sr.FitsTable)
    (hsegments : SeparateSegments T sr) (hunmapped : Unmapped T sr t) :
    ∃ n ≤ (tablePages T).length, ∃ ok t', mapRegions sr T.toArray t = .ok (ok, t') ∧
      memoryMappingForRegions T.toArray sr t = .ok t' ∧
      contents sr (entries t') =
        insertPages sr (contents sr (entries t)) ((tablePages T).take n) ∧
      (ok = true ↔ n = (tablePages T).length) := by
  obtain ⟨t', hrun, hentries⟩ := mapRegions_table_places hfits.mask_le haligned t
  obtain ⟨n, hn, hcontents, hok⟩ := placeAll_inserts hfits (tablePages_keys haligned hsegments)
    fun p hp => hunmapped _ (mem_tablePages haligned hp).2.2
  refine ⟨n, hn, _, t', hrun, ?_, ?_, hok⟩
  · rw [memoryMappingForRegions, hrun]
    rfl
  · rw [hentries, hcontents]

theorem shipped_inserts : ∃ n ≤ (tablePages shippedTable).length, ∃ ok t',
    mapRegions (setupSegments kernelSegments) shippedTable.toArray (fun _ => 0) = .ok (ok, t') ∧
    memoryMappingForRegions shippedTable.toArray (setupSegments kernelSegments) (fun _ => 0) =
      .ok t' ∧
    contents (setupSegments kernelSegments) (entries t') =
      insertPages (setupSegments kernelSegments)
        (contents (setupSegments kernelSegments) (entries fun _ => 0))
        ((tablePages shippedTable).take n) ∧
    (ok = true ↔ n = (tablePages shippedTable).length) :=
  mapRegions_inserts shippedTable_aligned (setupSegments_fits kernelSegments_fits)
    (shippedTable_separateSegments _)
    (unmapped_of_fresh (setupSegments_fits kernelSegments_fits) (emptyTable_fresh _ _))

theorem insertPages_perm {m : PageMap} {ps qs : List (ℕ × ℕ)} (hperm : ps.Perm qs)
    (hkeys : ps.Pairwise fun p q =>
      pageKey sr (BitVec.ofNat 32 p.1) ≠ pageKey sr (BitVec.ofNat 32 q.1)) :
    insertPages sr m ps = insertPages sr m qs := by
  refine hperm.foldl_eq' (fun p hp q hq m => ?_) m
  by_cases hpq : p = q
  · rw [hpq]
  · have : Std.Symm fun p q : ℕ × ℕ =>
        pageKey sr (BitVec.ofNat 32 p.1) ≠ pageKey sr (BitVec.ofNat 32 q.1) := ⟨fun _ _ h => h.symm⟩
    exact Function.update_comm (hkeys.forall hp hq hpq) _ _ _

theorem inRegion_perm (hperm : T.regions.Perm T'.regions) (ea : U32) :
    InRegion T' ea ↔ InRegion T ea := by
  simp only [InRegion, hperm.mem_iff]

theorem pageAligned_perm (haligned : PageAligned T) (hperm : T.regions.Perm T'.regions) :
    PageAligned T' := by
  have hchunks : T.chunks.Perm T'.chunks := hperm.flatMap_right _
  exact ⟨fun r hr => haligned.region_start r (hperm.mem_iff.mpr hr),
    fun c hc => haligned.chunk_start c (hchunks.mem_iff.mpr hc),
    fun c hc => haligned.chunk_size c (hchunks.mem_iff.mpr hc)⟩

/-- In which order the regions are listed does not matter: mapping them succeeds in every order
or in none, and then the page table stands for the same map. -/
theorem mapRegions_perm (haligned : PageAligned T) (hfits : sr.FitsTable)
    (hsegments : SeparateSegments T sr) (hunmapped : Unmapped T sr t)
    (hperm : T.regions.Perm T'.regions) :
    ∃ ok t₁ t₂, mapRegions sr T.toArray t = .ok (ok, t₁) ∧
      mapRegions sr T'.toArray t = .ok (ok, t₂) ∧
      (ok = true → contents sr (entries t₁) = contents sr (entries t₂)) := by
  have hin := inRegion_perm hperm
  have haligned' := pageAligned_perm haligned hperm
  have hsegments' : SeparateSegments T' sr := fun a b ha hb =>
    hsegments a b ((hin a).mp ha) ((hin b).mp hb)
  have hunmapped' : Unmapped T' sr t := fun ea hea => hunmapped ea ((hin ea).mp hea)
  have hpages : (tablePages T).Perm (tablePages T') := hperm.flatMap_right _
  have hok : (placeAll Pte.Free (entries t) (requests sr (tablePages T))).1 =
      (placeAll Pte.Free (entries t) (requests sr (tablePages T'))).1 := by
    rw [Bool.eq_iff_iff, placeAll_succeeds_iff (requests_solid hfits _)
      (requests_sameOrDisjoint hfits _), placeAll_succeeds_iff (requests_solid hfits _)
      (requests_sameOrDisjoint hfits _)]
    exact fitsAll_perm (hpages.map _)
  obtain ⟨t₁, hrun₁, hentries₁⟩ := mapRegions_table_places hfits.mask_le haligned t
  obtain ⟨t₂, hrun₂, hentries₂⟩ := mapRegions_table_places hfits.mask_le haligned' t
  refine ⟨_, t₁, t₂, hrun₁, hok ▸ hrun₂, fun hserved => ?_⟩
  obtain ⟨n, _, hcontents₁, hall₁⟩ := placeAll_inserts hfits (tablePages_keys haligned hsegments)
    fun p hp => hunmapped _ (mem_tablePages haligned hp).2.2
  obtain ⟨n', _, hcontents₂, hall₂⟩ := placeAll_inserts hfits
    (tablePages_keys haligned' hsegments')
    fun p hp => hunmapped' _ (mem_tablePages haligned' hp).2.2
  rw [hentries₁, hentries₂, hcontents₁, hcontents₂, hall₁.mp hserved, hall₂.mp (hok ▸ hserved),
    List.take_length, List.take_length]
  exact insertPages_perm hpages (tablePages_keys haligned hsegments)

def reversed (T : MappingTable) : MappingTable where
  regions := T.regions.reverse
  regions_disjoint := by
    rw [List.pairwise_reverse]
    exact T.regions_disjoint.imp fun h ea hboth => h ea hboth.symm
  avoids_bat r hr := T.avoids_bat r (List.mem_reverse.mp hr)

theorem shipped_reversed : ∃ ok t₁ t₂,
    mapRegions (setupSegments kernelSegments) shippedTable.toArray (fun _ => 0) = .ok (ok, t₁) ∧
    mapRegions (setupSegments kernelSegments) (reversed shippedTable).toArray (fun _ => 0) =
      .ok (ok, t₂) ∧
    (ok = true → contents (setupSegments kernelSegments) (entries t₁) =
      contents (setupSegments kernelSegments) (entries t₂)) :=
  mapRegions_perm shippedTable_aligned (setupSegments_fits kernelSegments_fits)
    (shippedTable_separateSegments _)
    (unmapped_of_fresh (setupSegments_fits kernelSegments_fits) (emptyTable_fresh _ _))
    (List.reverse_perm _).symm

end Regions

end MemoryMappingModule.PageMaps
