import MemoryMappingModule.StepLoop
import MemoryMappingModule.MappingSetup

/-! How a call of `MemoryMapping_mapMemory` goes on: its page loop as passes over the loop
counter and the table. Each pass that goes on uses up a free entry, so the loop ends
although its counter may wrap. The counts of free slots before the call, with the pages
that come for the same two groups, tell what a page finds when its turn comes, and so
when the slot that neither loop tries makes a difference. -/

namespace MemoryMappingModule.MappingProgress

open StepLoop FirstFit MappingLayout PageTableFormat PageTableMapping RegionMapping MappingSetup

/-- One pass of the page loop of `MemoryMapping_mapMemory`: the test of the loop counter,
and the loop body where it holds. -/
def pageStep (paStartAddress eaStartAddress size : U32) (sr : SrTable) (s : U32 × PageTable) :
    Exec (U32 × PageTable ⊕ Bool × PageTable) :=
  if s.1 < size then do
    let r ← mapPage paStartAddress eaStartAddress sr s.2 s.1
    if r.1 then return .inl (s.1 + pageSize, r.2) else return .inr r
  else return .inr (true, s.2)

def freeEntries (t : PageTable) : ℕ := roomIn Pte.Free (entries t) Finset.univ

section Passes

variable {sr : SrTable} {pa ea size i : U32} {t u : PageTable}

theorem pageRequest_solid (pa ea : U32) (sr : SrTable) (i : U32) :
    ∀ c ∈ pageRequest pa ea sr i, ¬ Pte.Free c.2 := by
  intro c hc
  rcases List.mem_append.mp hc with hc | hc
  · obtain ⟨s, _, rfl⟩ := List.mem_map.mp hc
    exact pteHigh_ne_zero _ _ _
  · obtain ⟨s, _, rfl⟩ := List.mem_map.mp hc
    exact pteHigh_ne_zero _ _ _

/-- What a pass does: it ends the loop behind the range or where the page finds no slot,
and otherwise goes on with the page's entry stored. -/
theorem pageStep_cases (hmask : sr.htabMask ≤ 1) (pa ea size i : U32) (t : PageTable) :
    ¬ i < size ∧ pageStep pa ea size sr (i, t) = .ok (.inr (true, t)) ∨
    i < size ∧ place Pte.Free (entries t) (pageRequest pa ea sr i) = none ∧
      mapPage pa ea sr t i = .ok (false, t) ∧
      pageStep pa ea size sr (i, t) = .ok (.inr (false, t)) ∨
    ∃ u, i < size ∧ place Pte.Free (entries t) (pageRequest pa ea sr i) = some (entries u) ∧
      mapPage pa ea sr t i = .ok (true, u) ∧
      pageStep pa ea size sr (i, t) = .ok (.inl (i + pageSize, u)) := by
  by_cases hi : i < size
  · rcases mapPage_refines hmask pa ea t i with ⟨hplace, hbody⟩ | ⟨u, hplace, hbody⟩
    · refine Or.inr (Or.inl ⟨hi, hplace, hbody, ?_⟩)
      simp [pageStep, hi, hbody, bind, Except.bind, pure, Except.pure]
    · refine Or.inr (Or.inr ⟨u, hi, hplace, hbody, ?_⟩)
      simp [pageStep, hi, hbody, bind, Except.bind, pure, Except.pure]
  · exact Or.inl ⟨hi, by simp [pageStep, hi, pure, Except.pure]⟩

theorem freeEntries_lt_of_place
    (hplace : place Pte.Free (entries t) (pageRequest pa ea sr i) = some (entries u)) :
    freeEntries u < freeEntries t := by
  obtain ⟨s, _, hfree, hroom⟩ := place_chosen hplace (pageRequest_solid pa ea sr i)
  have hsome : freeEntries t ≠ 0 := fun hzero =>
    roomIn_eq_zero_iff.mp hzero s (Finset.mem_univ s) hfree
  have hless : freeEntries u = freeEntries t - 1 := by
    rw [freeEntries, hroom, if_pos (Finset.mem_univ s), freeEntries]
  omega

theorem pageStep_lowers (hmask : sr.htabMask ≤ 1) (pa ea size : U32) (s s' : U32 × PageTable)
    (h : pageStep pa ea size sr s = .ok (.inl s')) : freeEntries s'.2 < freeEntries s.2 := by
  rcases pageStep_cases hmask pa ea size s.1 s.2 with ⟨_, hstep⟩ | ⟨_, _, _, hstep⟩ |
    ⟨u, _, hplace, _, hstep⟩
  · simp [hstep] at h
  · simp [hstep] at h
  · rw [hstep] at h
    obtain rfl := Sum.inl.inj (Except.ok.inj h)
    exact freeEntries_lt_of_place hplace

theorem forPages_of_run (hmask : sr.htabMask ≤ 1) {n : ℕ} {r : Bool × PageTable}
    (h : run (pageStep pa ea size sr) n (i, t) = some (.ok r)) :
    forPages size (fun i t => mapPage pa ea sr t i) zeroWords_mapPage_lt i t = .ok r := by
  induction n generalizing i t with
  | zero => simp [run] at h
  | succ n ih =>
    rcases pageStep_cases hmask pa ea size i t with ⟨hi, hstep⟩ | ⟨hi, _, hbody, hstep⟩ |
      ⟨u, hi, _, hbody, hstep⟩
    · rw [run_done hstep] at h
      rw [forPages_done hi]
      exact Option.some.inj h
    · rw [run_done hstep] at h
      rw [forPages_false hi hbody]
      exact Option.some.inj h
    · rw [run_again hstep] at h
      rw [forPages_true hi hbody]
      exact ih h

/-- The call ends within one pass more than there were free entries, and no word outside
the table is touched on the way. -/
theorem mapMemory_ends (hmask : sr.htabMask ≤ 1) (pa pe ea : U32) (t : PageTable) :
    ∃ r, run (pageStep pa ea (pe - pa) sr) (freeEntries t + 1) (0, t) = some (.ok r) ∧
      mapMemory pa pe ea sr t = .ok r := by
  obtain ⟨a, hrun⟩ := exists_run_of_measure (fun s : U32 × PageTable => freeEntries s.2)
    (pageStep_lowers hmask pa ea (pe - pa)) (0, t)
  cases a with
  | ok r => exact ⟨r, hrun, forPages_of_run hmask hrun⟩
  | error halt =>
    obtain ⟨_, s, _, _, hlast⟩ := run_eq_some_iff.mp hrun
    rw [run_one_eq_error_iff] at hlast
    rcases pageStep_cases hmask pa ea (pe - pa) s.1 s.2 with ⟨_, hstep⟩ | ⟨_, _, _, hstep⟩ |
      ⟨u, _, _, _, hstep⟩
    · exact absurd (hlast.symm.trans hstep) (by simp)
    · exact absurd (hlast.symm.trans hstep) (by simp)
    · exact absurd (hlast.symm.trans hstep) (by simp)

theorem wrappedRange_ends :
    ∃ r, run (pageStep 0x28020000 0x80000000 (0x28000000 - 0x28020000) onePageSegments)
        (freeEntries (fun _ => 0) + 1) (0, fun _ => 0) = some (.ok r) ∧
      mapMemory 0x28020000 0x28000000 0x80000000 onePageSegments (fun _ => 0) = .ok r :=
  mapMemory_ends (by decide) 0x28020000 0x28000000 0x80000000 (fun _ => 0)

end Passes

section Pages

variable {sr : SrTable} {pa ea size i j : U32} {t u : PageTable}

theorem entries_injective (h : entries t = entries u) : t = u := by
  funext k
  have hslot := congrFun h ⟨k.val / 2, by omega⟩
  simp only [entries, Pte.mk.injEq] at hslot
  rcases Nat.mod_two_eq_zero_or_one k.val with heven | hodd
  · have hk : k = ⟨2 * (k.val / 2), by omega⟩ := Fin.ext (by simp only; omega)
    rw [hk]
    exact hslot.1
  · have hk : k = ⟨2 * (k.val / 2) + 1, by omega⟩ := Fin.ext (by simp only; omega)
    rw [hk]
    exact hslot.2

theorem pagesOn_pageSize (i : U32) (n : ℕ) : pagesOn (i + pageSize) n = pagesOn i (n + 1) := by
  rw [Nat.add_comm n]
  exact pagesOn_pagesOn i 1 n

theorem counters_snoc (i : U32) (n : ℕ) :
    counters i (n + 1) = counters i n ++ [pagesOn i n] := by
  rw [counters_eq, counters_eq, List.range_succ, List.map_append]
  rfl

theorem trace_iff_places (hmask : sr.htabMask ≤ 1) (n : ℕ) :
    (∃ passes, passes.length = n ∧ Trace (pageStep pa ea size sr) (i, t) passes (j, u)) ↔
      j = pagesOn i n ∧ (∀ c ∈ counters i n, c < size) ∧
        placeAll Pte.Free (entries t) ((counters i n).map (pageRequest pa ea sr)) =
          (true, entries u) := by
  induction n generalizing i t with
  | zero =>
    constructor
    · rintro ⟨passes, hlen, htrace⟩
      obtain rfl := List.length_eq_zero_iff.mp hlen
      obtain ⟨rfl, rfl⟩ := Prod.mk.inj htrace
      simp [pagesOn, counters, placeAll]
    · rintro ⟨hj, _, hall⟩
      obtain rfl := entries_injective (congrArg Prod.snd hall)
      obtain rfl : j = i := by simpa [pagesOn] using hj
      exact ⟨[], rfl, rfl⟩
  | succ n ih =>
    rw [← pagesOn_pageSize, counters, List.map_cons]
    constructor
    · rintro ⟨passes, hlen, htrace⟩
      cases passes with
      | nil => simp at hlen
      | cons x passes =>
        obtain ⟨_, v, hv, hrest⟩ := htrace
        rcases pageStep_cases hmask pa ea size i t with ⟨_, hstep⟩ | ⟨_, _, _, hstep⟩ |
          ⟨w, hi, hplace, _, hstep⟩
        · simp [hstep] at hv
        · simp [hstep] at hv
        · rw [hstep] at hv
          obtain rfl := Sum.inl.inj (Except.ok.inj hv)
          obtain ⟨hj, hcounters, hall⟩ := ih.mp ⟨passes, by simpa using hlen, hrest⟩
          refine ⟨hj, ?_, (placeAll_cons_some hplace).trans hall⟩
          simpa using ⟨hi, hcounters⟩
    · rintro ⟨hj, hcounters, hall⟩
      have hi : i < size := hcounters i (by simp)
      rcases pageStep_cases hmask pa ea size i t with ⟨hi', _⟩ | ⟨_, hplace, _, _⟩ |
        ⟨w, _, hplace, _, hstep⟩
      · exact absurd hi hi'
      · simp [placeAll_cons_none hplace] at hall
      · rw [placeAll_cons_some hplace] at hall
        obtain ⟨passes, hlen, htrace⟩ := ih.mpr
          ⟨hj, fun c hc => hcounters c (List.mem_cons_of_mem _ hc), hall⟩
        exact ⟨(i, t) :: passes, by simp [hlen], rfl, _, hstep, htrace⟩

end Pages

section Groups

variable {sr : SrTable} {pa ea i : U32} {t u : PageTable}

/-- The slots of a group that the loops try: all but its first. -/
def triedSlots (g : ℕ) : Finset Slot := Finset.univ.filter fun s => s.val / 8 = g ∧ s.val % 8 ≠ 0

def groupBits (sr : SrTable) : U32 := (sr.htabMask <<< 10) ||| 0x3FF

theorem groupBits_ne_zero (sr : SrTable) : (groupBits sr).toNat ≠ 0 := by
  intro hzero
  have hbit := congrArg (fun x : U32 => x.getLsbD 0) (BitVec.eq_of_toNat_eq (y := 0) hzero)
  simp [groupBits] at hbit

theorem pteg_not_toNat (sr : SrTable) (hash : U32) :
    (pteg sr.htabMask (~~~hash)).toNat =
      (pteg sr.htabMask hash).toNat ^^^ (groupBits sr).toNat := by
  rw [← BitVec.toNat_xor]
  congr 1
  apply BitVec.eq_of_getLsbD_eq
  intro i hi
  simp only [pteg, groupBits, BitVec.getLsbD_and, BitVec.getLsbD_not, BitVec.getLsbD_xor]
  grind

theorem xor_groupBits_ne (sr : SrTable) (g : ℕ) : g ^^^ (groupBits sr).toNat ≠ g := by
  intro heq
  exact groupBits_ne_zero sr (Nat.xor_right_injective (x := g) (by simpa using heq))

theorem triedSlots_disjoint (g g' : ℕ) (hne : g ≠ g') :
    Disjoint (triedSlots g) (triedSlots g') := by
  rw [Finset.disjoint_left]
  intro s hs hs'
  simp only [triedSlots, Finset.mem_filter] at hs hs'
  exact hne (hs.2.1.symm.trans hs'.2.1)

def pteGroups (sr : SrTable) : Groups Slot ℕ where
  members := triedSlots
  away g := g ^^^ (groupBits sr).toNat
  away_away g := Nat.xor_xor_cancel_right g _
  away_ne := xor_groupBits_ne sr
  disjoint := triedSlots_disjoint

theorem slots_group {g : ℕ} (hg : g < 0x800) (e : Pte) :
    slots ((usableSlots g).map fun s => (s, e)) = triedSlots g := by
  ext s
  rw [mem_slots, triedSlots, Finset.mem_filter, ← mem_usableSlots hg]
  simp

theorem secondaryGroup_eq (hfits : sr.FitsTable) (a : U32) :
    secondaryGroup sr a = (pteGroups sr).away (primaryGroup sr a) := by
  rw [secondaryGroup, placementGroup_eq hfits, pteg_not_toNat, primaryGroup,
    placementGroup_eq hfits]
  rfl

theorem primaryGroup_lt (hfits : sr.FitsTable) (a : U32) : primaryGroup sr a < 0x800 :=
  placementGroup_toNat_lt hfits.mask_le _

theorem secondaryGroup_lt (hfits : sr.FitsTable) (a : U32) : secondaryGroup sr a < 0x800 :=
  placementGroup_toNat_lt hfits.mask_le _

theorem pageRequest_asks (hfits : sr.FitsTable) (pa ea i : U32) :
    (pteGroups sr).Asks (primaryGroup sr (ea + i)) (pageRequest pa ea sr i) := by
  refine ⟨_, _, rfl, slots_group (primaryGroup_lt hfits _) _, ?_⟩
  rw [slots_group (secondaryGroup_lt hfits _), secondaryGroup_eq hfits]
  rfl

end Groups

section Room

def ofEntries (T : Slot → Pte) : PageTable := fun k =>
  if k.val % 2 = 0 then (T (slot 0 (k.val / 2))).high else (T (slot 0 (k.val / 2))).low

theorem entries_ofEntries (T : Slot → Pte) : entries (ofEntries T) = T := by
  funext s
  have hslot : slot 0 s.val = s := by
    apply Fin.ext
    rw [slot, Nat.mul_zero, Nat.zero_add, Fin.val_ofNat]
    exact Nat.mod_eq_of_lt s.isLt
  have hodd : (2 * s.val + 1) / 2 = s.val := by omega
  simp [entries, ofEntries, hodd, hslot]

variable {sr : SrTable} {pa pe ea size i : U32} {t u u' : PageTable} {g n : ℕ}

def freeTried (t : PageTable) (g : ℕ) : ℕ := roomIn Pte.Free (entries t) (triedSlots g)

def pagesFor (sr : SrTable) (ea : U32) (n g : ℕ) : ℕ :=
  (counters 0 n).countP fun c => primaryGroup sr (ea + c) = g

def GroupTaken (t : PageTable) (g : ℕ) : Prop := ∀ s : Slot, s.val / 8 = g → ¬ (entries t s).Free

/-- Whenever a call gives up at a page, both groups of the page are taken, and whenever it
stores an entry with H=1, the page's primary group is. -/
def UsesAllRoom (pa pe ea : U32) (sr : SrTable) (t : PageTable) : Prop :=
  ∀ passes i u, Trace (pageStep pa ea (pe - pa) sr) (0, t) passes (i, u) → i < pe - pa →
    ∀ ok u', mapPage pa ea sr u i = .ok (ok, u') →
      (ok = false → GroupTaken u (primaryGroup sr (ea + i)) ∧
        GroupTaken u (secondaryGroup sr (ea + i))) ∧
      ∀ s, entries u' s ≠ entries u s → (entries u' s).hashBit = 1 →
        GroupTaken u (primaryGroup sr (ea + i))

/-- For every page that is reached: if the earlier pages leave none of the slots tried in its
primary group, the first slot of that group is not free; if they leave none in its secondary
group either, the first slot of that one is not free. -/
def FirstSlotsTaken (pa pe ea : U32) (sr : SrTable) (t : PageTable) : Prop :=
  ∀ n, (∀ c ∈ counters 0 (n + 1), c < pe - pa) →
    FitsAll Pte.Free (entries t) ((counters 0 n).map (pageRequest pa ea sr)) →
    ∀ g g', g = primaryGroup sr (ea + pagesOn 0 n) →
      g' = secondaryGroup sr (ea + pagesOn 0 n) →
      (freeTried t g ≤ pagesFor sr ea n g + (pagesFor sr ea n g' - freeTried t g') →
        ¬ (entries t (slot g 0)).Free) ∧
      (freeTried t g + freeTried t g' ≤ pagesFor sr ea n g + pagesFor sr ea n g' →
        ¬ (entries t (slot g' 0)).Free)

theorem groupTaken_iff (hg : g < 0x800) :
    GroupTaken t g ↔ freeTried t g = 0 ∧ ¬ (entries t (slot g 0)).Free := by
  rw [freeTried, roomIn_eq_zero_iff]
  have hfirst := slot_val hg (show 0 < 8 by decide)
  constructor
  · intro h
    refine ⟨fun s hs => ?_, h _ (by omega)⟩
    exact h s (Finset.mem_filter.mp hs).2.1
  · rintro ⟨htried, hzero⟩ s hs
    by_cases hmod : s.val % 8 = 0
    · obtain rfl : s = slot g 0 := Fin.ext (by omega)
      exact hzero
    · exact htried s (Finset.mem_filter.mpr ⟨Finset.mem_univ s, hs, hmod⟩)

theorem requests_of_counters_solid (cs : List U32) :
    Solid Pte.Free (cs.map (pageRequest pa ea sr)) := by
  intro r hr
  obtain ⟨c, _, rfl⟩ := List.mem_map.mp hr
  exact pageRequest_solid pa ea sr c

theorem requests_of_counters_sameOrDisjoint (hfits : sr.FitsTable) (cs : List U32) :
    SameOrDisjoint (cs.map (pageRequest pa ea sr)) := by
  intro q hq r hr
  obtain ⟨c, _, rfl⟩ := List.mem_map.mp hq
  obtain ⟨d, _, rfl⟩ := List.mem_map.mp hr
  rw [pageRequest_eq, pageRequest_eq]
  exact request_slots_eq_or_disjoint hfits _ _

section Served

variable (hfits : sr.FitsTable)
  (hall : placeAll Pte.Free (entries t) ((counters 0 n).map (pageRequest pa ea sr)) =
    (true, entries u))

include hfits hall

theorem freeTried_of_served (g : ℕ) : freeTried u g = freeTried t g -
    (pagesFor sr ea n g + (pagesFor sr ea n ((pteGroups sr).away g) -
      freeTried t ((pteGroups sr).away g))) := by
  have hroom := roomIn_of_placeAll (G := pteGroups sr) (fun c => primaryGroup sr (ea + c))
    (pageRequest pa ea sr) (fun c _ => pageRequest_asks hfits pa ea c)
    (requests_of_counters_solid (counters 0 n)) (by rw [hall]) g
  rwa [hall] at hroom

theorem firstSlot_of_served (hg : g < 0x800) : entries u (slot g 0) = entries t (slot g 0) := by
  have hgrows : Grows Pte.Free _ (entries t) _ := placeAll_grows (entries t)
    ((counters 0 n).map (pageRequest pa ea sr))
  rw [hall] at hgrows
  refine (hgrows (slot g 0)).resolve_right fun new => ?_
  obtain ⟨_, r, hr, hmem⟩ := new
  obtain ⟨c, _, rfl⟩ := List.mem_map.mp hr
  have htried : slot g 0 ∈ slots (pageRequest pa ea sr c) := mem_slots.mpr ⟨_, hmem, rfl⟩
  rw [pageRequest_eq, mem_slots_request hfits] at htried
  exact htried.2 (by rw [slot_val hg (by decide)]; omega)

end Served

/-- An entry with H=1 is stored exactly when no slot tried in the primary group is free. -/
theorem stores_secondary_iff (hfits : sr.FitsTable)
    (hplace : place Pte.Free (entries u) (pageRequest pa ea sr i) = some (entries u')) :
    (∃ s, entries u' s ≠ entries u s ∧ (entries u' s).hashBit = 1) ↔
      freeTried u (primaryGroup sr (ea + i)) = 0 := by
  have hslots := slots_group (primaryGroup_lt hfits (ea + i)) (pageEntry pa ea sr 0 i)
  rw [freeTried, ← hslots, ← place_eq_none_iff_roomIn]
  have hbit (h : U32) (hh : h = 0 ∨ h = 1) : (pageEntry pa ea sr h i).hashBit = h :=
    pteHigh_hashBit _ _ hh
  have stored {part : Request Slot Pte} {h : U32} (hh : h = 0 ∨ h = 1)
      (hpart : place Pte.Free (entries u) part = some (entries u'))
      (hentry : ∀ c ∈ part, c.2 = pageEntry pa ea sr h i) :
      ∃ s, (entries u s).Free ∧ (entries u' s).hashBit = h ∧ ¬ (entries u' s).Free ∧
        ∀ s', s' ≠ s → entries u' s' = entries u s' := by
    obtain ⟨c, hc, hfree, heq⟩ := place_eq_some hpart
    refine ⟨c.1, hfree, ?_, ?_, fun s' hs' => ?_⟩
    · rw [heq, Function.update_self, hentry c hc, hbit h hh]
    · rw [heq, Function.update_self, hentry c hc]
      exact pteHigh_ne_zero _ _ _
    · rw [heq, Function.update_of_ne hs']
  have hmapped (h : U32) (g : ℕ) : ∀ c ∈ (usableSlots g).map fun s => (s, pageEntry pa ea sr h i),
      c.2 = pageEntry pa ea sr h i := by
    intro c hc
    obtain ⟨_, _, rfl⟩ := List.mem_map.mp hc
    rfl
  cases hfirst : place Pte.Free (entries u) ((usableSlots (primaryGroup sr (ea + i))).map
      fun s => (s, pageEntry pa ea sr 0 i)) with
  | some v =>
    rw [pageRequest, place_append_some hfirst] at hplace
    obtain rfl := Option.some.inj hplace
    obtain ⟨s, _, hzero, _, hother⟩ := stored (Or.inl rfl) hfirst (hmapped 0 _)
    refine iff_of_false ?_ (by simp)
    rintro ⟨s', hchanged, hone⟩
    by_cases hs : s' = s
    · rw [hs, hzero] at hone
      exact absurd hone (by decide)
    · exact hchanged (hother s' hs)
  | none =>
    rw [pageRequest, place_append_none hfirst] at hplace
    obtain ⟨s, hfree, hone, htaken, _⟩ := stored (Or.inr rfl) hplace (hmapped 1 _)
    exact iff_of_true ⟨s, fun heq => htaken (heq ▸ hfree), hone⟩ rfl

theorem groups_of_served (hfits : sr.FitsTable)
    (hall : placeAll Pte.Free (entries t) ((counters 0 n).map (pageRequest pa ea sr)) =
      (true, entries u)) (a : U32) :
    (freeTried u (primaryGroup sr a) = 0 ↔ freeTried t (primaryGroup sr a) ≤
      pagesFor sr ea n (primaryGroup sr a) + (pagesFor sr ea n (secondaryGroup sr a) -
        freeTried t (secondaryGroup sr a))) ∧
    (freeTried u (primaryGroup sr a) = 0 ∧ freeTried u (secondaryGroup sr a) = 0 ↔
      freeTried t (primaryGroup sr a) + freeTried t (secondaryGroup sr a) ≤
        pagesFor sr ea n (primaryGroup sr a) + pagesFor sr ea n (secondaryGroup sr a)) := by
  have hprimary := freeTried_of_served hfits hall (primaryGroup sr a)
  have hsecondary := freeTried_of_served hfits hall (secondaryGroup sr a)
  rw [secondaryGroup_eq hfits, (pteGroups sr).away_away] at hsecondary
  rw [← secondaryGroup_eq hfits] at hprimary hsecondary
  omega

theorem page_outcome (hfits : sr.FitsTable) (pa ea i : U32) :
    place Pte.Free (entries u) (pageRequest pa ea sr i) = none ↔
      freeTried u (primaryGroup sr (ea + i)) = 0 ∧
        freeTried u (secondaryGroup sr (ea + i)) = 0 := by
  have hfirst := slots_group (primaryGroup_lt hfits (ea + i)) (pageEntry pa ea sr 0 i)
  have hsecond := slots_group (secondaryGroup_lt hfits (ea + i)) (pageEntry pa ea sr 1 i)
  rw [freeTried, freeTried, ← hfirst, ← hsecond, ← place_eq_none_iff_roomIn,
    ← place_eq_none_iff_roomIn, pageRequest, place_eq_none_iff, place_eq_none_iff,
    place_eq_none_iff]
  simp only [List.mem_append, or_imp, forall_and]

theorem firstSlots_of_served (hfits : sr.FitsTable)
    (hall : placeAll Pte.Free (entries t) ((counters 0 n).map (pageRequest pa ea sr)) =
      (true, entries u)) {g g' : ℕ} {a : U32} (hg : g = primaryGroup sr a)
    (hg' : g' = secondaryGroup sr a) :
    ((freeTried t g ≤ pagesFor sr ea n g + (pagesFor sr ea n g' - freeTried t g') →
        ¬ (entries t (slot g 0)).Free) ∧
      (freeTried t g + freeTried t g' ≤ pagesFor sr ea n g + pagesFor sr ea n g' →
        ¬ (entries t (slot g' 0)).Free)) ↔
      (freeTried u g = 0 → ¬ (entries u (slot g 0)).Free) ∧
        (freeTried u g = 0 ∧ freeTried u g' = 0 → ¬ (entries u (slot g' 0)).Free) := by
  subst hg hg'
  obtain ⟨hprimary, hboth⟩ := groups_of_served hfits hall a
  rw [← hprimary, ← hboth, ← firstSlot_of_served hfits hall (primaryGroup_lt hfits _),
    ← firstSlot_of_served hfits hall (secondaryGroup_lt hfits _)]

theorem page_usesRoom_iff (hfits : sr.FitsTable) (pa ea : U32) (u : PageTable) (i : U32) :
    (∀ ok u', mapPage pa ea sr u i = .ok (ok, u') →
      (ok = false → GroupTaken u (primaryGroup sr (ea + i)) ∧
        GroupTaken u (secondaryGroup sr (ea + i))) ∧
      ∀ s, entries u' s ≠ entries u s → (entries u' s).hashBit = 1 →
        GroupTaken u (primaryGroup sr (ea + i))) ↔
      (freeTried u (primaryGroup sr (ea + i)) = 0 →
        ¬ (entries u (slot (primaryGroup sr (ea + i)) 0)).Free) ∧
      (freeTried u (primaryGroup sr (ea + i)) = 0 ∧ freeTried u (secondaryGroup sr (ea + i)) = 0 →
        ¬ (entries u (slot (secondaryGroup sr (ea + i)) 0)).Free) := by
  rw [groupTaken_iff (primaryGroup_lt hfits _), groupTaken_iff (secondaryGroup_lt hfits _)]
  rcases mapPage_refines hfits.mask_le pa ea u i with ⟨hplace, hbody⟩ | ⟨u', hplace, hbody⟩
  · have hfull := (page_outcome hfits pa ea i).mp hplace
    constructor
    · intro huses
      obtain ⟨htaken, htaken'⟩ := (huses _ _ hbody).1 rfl
      exact ⟨fun _ => htaken.2, fun _ => htaken'.2⟩
    · rintro ⟨hfirst, hfirst'⟩ ok v hbody'
      obtain ⟨rfl, rfl⟩ := Prod.mk.inj (Except.ok.inj (hbody.symm.trans hbody'))
      exact ⟨fun _ => ⟨⟨hfull.1, hfirst hfull.1⟩, hfull.2, hfirst' hfull⟩,
        fun s hchanged => absurd rfl hchanged⟩
  · have hsecond := stores_secondary_iff hfits hplace
    constructor
    · intro huses
      refine ⟨fun hfull => ?_, fun hfull => ?_⟩
      · obtain ⟨s, hchanged, hone⟩ := hsecond.mpr hfull
        exact ((huses _ _ hbody).2 s hchanged hone).2
      · rw [← page_outcome hfits pa ea, hplace] at hfull
        simp at hfull
    · rintro ⟨hfirst, _⟩ ok v hbody'
      obtain ⟨rfl, rfl⟩ := Prod.mk.inj (Except.ok.inj (hbody.symm.trans hbody'))
      refine ⟨fun hfailed => absurd hfailed (by simp), fun s hchanged hone => ?_⟩
      have hfull := hsecond.mp ⟨s, hchanged, hone⟩
      exact ⟨hfull, hfirst hfull⟩

/-- A call uses all the room there is exactly when no page depends on the first slot of a
group being free. -/
theorem mapMemory_usesAllRoom_iff (hfits : sr.FitsTable) (pa pe ea : U32) (t : PageTable) :
    UsesAllRoom pa pe ea sr t ↔ FirstSlotsTaken pa pe ea sr t := by
  constructor
  · intro huses n hcounters hreached g g' hg hg'
    rw [← placeAll_succeeds_iff (requests_of_counters_solid _)
      (requests_of_counters_sameOrDisjoint hfits _)] at hreached
    rw [counters_snoc] at hcounters
    obtain ⟨u, hall⟩ : ∃ u, placeAll Pte.Free (entries t)
        ((counters 0 n).map (pageRequest pa ea sr)) = (true, entries u) :=
      ⟨ofEntries _, Prod.ext hreached (entries_ofEntries _).symm⟩
    obtain ⟨passes, _, htrace⟩ := (trace_iff_places hfits.mask_le n).mpr
      ⟨rfl, fun c hc => hcounters c (List.mem_append_left _ hc), hall⟩
    have hlt : pagesOn 0 n < pe - pa :=
      hcounters _ (List.mem_append_right _ (List.mem_singleton_self _))
    rw [firstSlots_of_served hfits hall hg hg', hg, hg']
    exact (page_usesRoom_iff hfits pa ea u _).mp (huses passes _ u htrace hlt)
  · intro hfirst passes i u htrace hlt
    obtain ⟨rfl, hcounters, hall⟩ := (trace_iff_places hfits.mask_le passes.length).mp
      ⟨passes, rfl, htrace⟩
    have hreached : FitsAll Pte.Free (entries t) _ := (placeAll_succeeds_iff
      (requests_of_counters_solid _) (requests_of_counters_sameOrDisjoint hfits _)).mp
        (congrArg Prod.fst hall)
    have hmore : ∀ c ∈ counters 0 (passes.length + 1), c < pe - pa := by
      rw [counters_snoc]
      intro c hc
      rcases List.mem_append.mp hc with hc | hc
      · exact hcounters c hc
      · rwa [List.mem_singleton.mp hc]
    rw [page_usesRoom_iff hfits pa ea u, ← firstSlots_of_served hfits hall rfl rfl]
    exact hfirst passes.length hmore hreached _ _ rfl rfl

theorem onePageSegments_fits : onePageSegments.FitsTable := ⟨by decide, by decide⟩

theorem fullTable_usesAllRoom :
    UsesAllRoom 0x28000000 0x28040000 0x80000000 onePageSegments fullTable := by
  have taken (s : Slot) : ¬ (entries fullTable s).Free := by
    change ¬ (0x80000000 : U32) = 0
    decide
  rw [mapMemory_usesAllRoom_iff onePageSegments_fits]
  exact fun n _ _ g g' _ _ => ⟨fun _ => taken _, fun _ => taken _⟩

def firstSlotsFree : PageTable := fun k => if k.val % 16 = 0 then 0 else 0x80000000

/-- A page gives up on that table, with a free slot in its primary group. -/
theorem firstSlotsFree_gives_up :
    onePageSegments.FitsTable ∧
      mapMemory 0x28000000 0x28020000 0x80000000 onePageSegments firstSlotsFree =
        .ok (false, firstSlotsFree) ∧
      (entries firstSlotsFree (slot (primaryGroup onePageSegments 0x80000000) 0)).Free ∧
      ¬ UsesAllRoom 0x28000000 0x28020000 0x80000000 onePageSegments firstSlotsFree := by
  have hfits : onePageSegments.FitsTable := ⟨by decide, by decide⟩
  have hplace : place Pte.Free (entries firstSlotsFree)
      (pageRequest 0x28000000 0x80000000 onePageSegments 0) = none := by
    rw [page_outcome hfits, freeTried, freeTried, roomIn_eq_zero_iff, roomIn_eq_zero_iff]
    have taken (g : ℕ) (s : Slot) (hs : s ∈ triedSlots g) : ¬ (entries firstSlotsFree s).Free := by
      have hmod := (Finset.mem_filter.mp hs).2.2
      have hindex : ¬ 2 * s.val % 16 = 0 := by omega
      simp [Pte.Free, entries, firstSlotsFree, hindex]
    exact ⟨taken _, taken _⟩
  have hbody : mapPage 0x28000000 0x80000000 onePageSegments firstSlotsFree 0 =
      .ok (false, firstSlotsFree) := by
    rcases mapPage_refines hfits.mask_le 0x28000000 0x80000000 firstSlotsFree 0 with
      ⟨_, hbody⟩ | ⟨u, hsome, _⟩
    · exact hbody
    · exact absurd (hplace.symm.trans hsome) (by simp)
  have hfree : (entries firstSlotsFree
      (slot (primaryGroup onePageSegments (0x80000000 + 0)) 0)).Free := by
    have hslot := slot_val (primaryGroup_lt hfits 0x80000000) (show 0 < 8 by decide)
    have hindex : 2 * (slot (primaryGroup onePageSegments 0x80000000) 0).val % 16 = 0 := by omega
    simpa [Pte.Free, entries, firstSlotsFree] using hindex
  refine ⟨hfits, forPages_false (by decide) hbody, hfree, fun huses => ?_⟩
  obtain ⟨htaken, _⟩ := (huses [] 0 firstSlotsFree rfl (by decide) _ _ hbody).1 rfl
  exact ((groupTaken_iff (primaryGroup_lt hfits _)).mp htaken).2 hfree

end Room

end MemoryMappingModule.MappingProgress
