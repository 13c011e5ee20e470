import MemoryMappingModule.AddressSpaces
import MemoryMappingModule.DumpGuarantees

/-! What `MemoryMapping_printPageTableTranslation` prints. A line names a range of addresses, the
range they go to, and in words which accesses each mode has. If the dump loses no page, then a line
says of every address in its range that is in no BAT block exactly what the processor does there,
and every page that the lookup of the dump finds is in one line. -/

namespace MemoryMappingModule.PrintedAccess

open MappingLayout PageTableFormat PageTableLookup AreaScan TranslationDump DumpGuarantees
open MemoryManagement PageMaps AddressSpaces

structure Line where
  start : U32
  stop : U32
  physStart : U32
  physStop : U32
  user : String
  supervisor : String
  execution : String
deriving DecidableEq, Repr, Inhabited

def access1 : List String := ["read/write", "read/write", "read/write", "read only"]

def access2 : List String := ["no access", "read only", "read/write", "read only"]

def accessText (key pp : U32) : Exec String :=
  match (if key ≠ 0 then access2 else access1)[pp.toNat]? with
  | some text => .ok text
  | none => .error (.outsideTable pp.toNat)

/-- The body of the printing loop. -/
def printLine (cur : PageInformation) : Exec Line := do
  let user ← accessText cur.kp cur.pp
  let supervisor ← accessText cur.ks cur.pp
  return ⟨cur.addr, cur.addr + cur.size, cur.phys, cur.phys + cur.size, user, supervisor,
    if cur.nx ≠ 0 then "not executable" else "executable"⟩

/-- `MemoryMapping_printPageTableTranslation` with the printing. -/
def printLines (passes : ℕ) (srTable : SrTable) (translationTable : PageTable) :
    Option (Exec (List Line)) :=
  (printPageTableTranslation passes srTable translationTable).map fun result =>
    result.bind fun pageInfos => pageInfos.mapM printLine

def Permits (text : String) : Access → Prop
  | .store => text = "read/write"
  | _ => text = "read/write" ∨ text = "read only"

instance (text : String) (a : Access) : Decidable (Permits text a) :=
  match a with
  | .store => inferInstanceAs (Decidable (_ = _))
  | .load | .fetch => inferInstanceAs (Decidable (_ ∨ _))

namespace Line

def Covers (l : Line) (ea : U32) : Prop := l.start ≤ ea ∧ ea < l.stop

/-- What a line says of an access to an address in its range. -/
def access (l : Line) : Space := fun supervisor a ea =>
  if a = .fetch ∧ l.execution = "not executable" then .error .protection
  else if Permits (if supervisor then l.supervisor else l.user) a then
    .ok (l.physStart + (ea - l.start))
  else .error .protection

end Line

section Words

variable {i : PageInformation} {l : Line}

theorem accessText_permits (key : Bool) {pp : U32} (hpp : pp.toNat < 4) :
    ∃ text, accessText (if key then 1 else 0) pp = .ok text ∧
      ∀ a, Permits text a ↔ PageAllows key pp a := by
  obtain rfl | rfl | rfl | rfl : pp = 0 ∨ pp = 1 ∨ pp = 2 ∨ pp = 3 := by
    simp only [← BitVec.toNat_inj, BitVec.reduceToNat]
    omega
  all_goals
    cases key
    all_goals exact ⟨_, rfl, fun a => by cases a <;> decide⟩

theorem bit_eq (x : U32) (n : ℕ) : (x >>> n) &&& 1 = if x.getLsbD n then 1 else 0 := by
  change (x >>> n) &&& WordArithmetic.lowMask 32 1 = _
  apply BitVec.eq_of_getLsbD_eq
  intro j hj
  rw [BitVec.getLsbD_and, WordArithmetic.getLsbD_lowMask, BitVec.getLsbD_ushiftRight]
  rcases Nat.eq_zero_or_pos j with rfl | hpos
  · cases x.getLsbD n <;> simp
  · have hbeyond : ¬ j < 1 := by omega
    cases x.getLsbD n <;> simp [hbeyond, BitVec.getLsbD_one, Nat.ne_of_gt hpos]

theorem bit_inj {x y : U32} {n : ℕ} (h : (x >>> n) &&& 1 = (y >>> n) &&& 1) :
    x.getLsbD n = y.getLsbD n := by
  rw [bit_eq, bit_eq] at h
  cases hx : x.getLsbD n <;> cases hy : y.getLsbD n <;> simp [hx, hy] at h ⊢

theorem ordinary_iff_bit (x : U32) : x >>> 31 = 0 ↔ x.getLsbD 31 = false := by
  constructor
  · intro h
    have := congrArg (·.getLsbD 0) h
    simpa using this
  · intro h
    apply BitVec.eq_of_getLsbD_eq
    intro j _
    rw [BitVec.getLsbD_ushiftRight, show (0 : U32).getLsbD j = false from BitVec.getLsbD_zero]
    rcases Nat.eq_zero_or_pos j with rfl | hpos
    · exact h
    · exact BitVec.getLsbD_of_ge x _ (by omega)

theorem protection_lt (x : U32) : (x &&& 3).toNat < 4 := by
  change (x &&& WordArithmetic.lowMask 32 2).toNat < 4
  rw [WordArithmetic.and_lowMask_toNat x (by decide)]
  omega

theorem printLine_access {ks kp nx : Bool} (hks : i.ks = if ks then 1 else 0)
    (hkp : i.kp = if kp then 1 else 0) (hnx : i.nx = if nx then 1 else 0)
    (hpp : i.pp.toNat < 4) :
    ∃ l, printLine i = .ok l ∧ l.start = i.addr ∧ l.stop = i.addr + i.size ∧
      ∀ supervisor a ea, l.access supervisor a ea =
        if a = .fetch ∧ nx = true then .error .protection
        else if PageAllows (if supervisor then ks else kp) i.pp a then .ok (i.phys + (ea - i.addr))
        else .error .protection := by
  obtain ⟨user, huser, hpermitsUser⟩ := accessText_permits kp hpp
  obtain ⟨supervisorText, hsupervisor, hpermitsSupervisor⟩ := accessText_permits ks hpp
  have hprint : printLine i = .ok ⟨i.addr, i.addr + i.size, i.phys, i.phys + i.size, user,
      supervisorText, if nx then "not executable" else "executable"⟩ := by
    rw [printLine, hkp, hks, hnx, huser, hsupervisor]
    cases nx <;> rfl
  refine ⟨_, hprint, rfl, rfl, fun supervisor a ea => ?_⟩
  have hexecution :
      (if nx then "not executable" else "executable") = "not executable" ↔ nx = true := by
    cases nx <;> decide
  simp only [Line.access, hexecution]
  cases supervisor
  · simp only [Bool.false_eq_true, if_false, hpermitsUser]
  · simp only [if_true, hpermitsSupervisor]

end Words

section Stored

variable {sr : SrTable} {t : PageTable} {d : Dump} {i : PageInformation} {n : ℕ}

theorem mem_close (hi : i ∈ d.close.pageInfos) :
    i ∈ d.pageInfos ∨ i = d.current ∧ i.size ≠ 0 := by
  rw [Dump.close] at hi
  split_ifs at hi with h
  · rcases List.mem_append.mp hi with hold | hnew
    · exact Or.inl hold
    · obtain rfl := List.mem_singleton.mp hnew
      exact Or.inr ⟨rfl, h.2⟩
  · exact Or.inl hi

theorem mem_note {r : Option PageRecord} (hi : i ∈ (d.note r).pageInfos) :
    i ∈ d.pageInfos ∨ i = d.current ∧ i.size ≠ 0 := by
  cases r with
  | none => exact mem_close hi
  | some r =>
    by_cases hmatch : Matches d.current r
    · rw [note_match hmatch] at hi
      exact Or.inl hi
    · rw [note_new hmatch] at hi
      exact mem_close hi

theorem stored_bounds (hn : n ≤ 0x7800) (hi : i ∈ (dumpedTo sr t n).pageInfos) :
    i.size.toNat % 0x20000 = 0 ∧ 0 < i.size.toNat / 0x20000 ∧
      i.addr.toNat + i.size.toNat ≤ n * 0x20000 := by
  induction n with
  | zero => simp [dumpedTo, Dump.initial] at hi
  | succ n ih =>
    have hle : n * 0x20000 ≤ (n + 1) * 0x20000 := Nat.mul_le_mul_right _ (Nat.le_succ n)
    have kept (hold : i ∈ (dumpedTo sr t n).pageInfos) := ih (by omega) hold
    rw [dumpedTo] at hi
    split_ifs at hi
    · rcases mem_note hi with hold | ⟨rfl, hsize⟩
      · obtain ⟨hwhole, hpos, hends⟩ := kept hold
        exact ⟨hwhole, hpos, hends.trans hle⟩
      · have hbounded : Bounded n (dumpedTo sr t n) := bounded_dumpedTo (by omega)
        have hlast := last_succ hbounded.whole hsize
        exact ⟨hbounded.whole, hlast ▸ Nat.succ_pos _, hbounded.ends.trans hle⟩
    · obtain ⟨hwhole, hpos, hends⟩ := kept hi
      exact ⟨hwhole, hpos, hends.trans hle⟩

end Stored

section Lookup

variable {sr : SrTable} {t : PageTable} {e : Pte} {ea a b vsid : U32}

theorem lookup_of_samePage (h : a >>> 17 = b >>> 17) (T : Slot → Pte) (checkSecondHash : Bool) :
    lookup sr a vsid T checkSecondHash = lookup sr b vsid T checkSecondHash := by
  simp only [lookup, primaryHash, pageIndex_of_samePage h, abbreviatedPageIndex_of_samePage h]

theorem lookup_second (hlookup : lookup sr ea vsid (entries t) false = some e) :
    lookup sr ea vsid (entries t) true = some e := by
  simp only [lookup] at hlookup ⊢
  split at hlookup
  · next h => simpa only [h] using hlookup
  · exact absurd hlookup (by simp)

theorem throughPages_of_lookup (hordinary : sr.segment ea >>> 31 = 0)
    (hlookup : lookup sr ea (sr.vsid ea) (entries t) false = some e) (supervisor : Bool)
    (a : Access) : throughPages (walk sr.sdr1 t) (sr.segment ea) supervisor a ea =
      if a = .fetch ∧ (sr.segment ea).getLsbD 28 = true then .error .protection
      else if PageAllows ((sr.segment ea).getLsbD (if supervisor then 30 else 29)) (e.low &&& 3) a
      then .ok ((e.low &&& 0xFFFFF000) + (ea &&& 0x1FFFF)) else .error .protection := by
  have hbit : ¬ (sr.segment ea).getLsbD 31 = true := by
    rw [(ordinary_iff_bit _).mp hordinary]
    exact Bool.false_ne_true
  have hwalk : walk sr.sdr1 t (sr.segment ea &&& 0x00FFFFFF) ea =
      some ((e.low &&& 0xFFFFF000) + (ea &&& 0x1FFFF), e.low &&& 3) := by
    have hfound := lookup_second hlookup
    rw [walk]
    change (lookup sr ea (sr.vsid ea) (entries t) true).map _ = _
    rw [hfound, Option.map_some]
  rw [throughPages, if_neg hbit, hwalk]

/-- The record of a page tells the entry that an address in it has. -/
theorem pageRecord_entry (hmask : sr.htabMask ≤ 1) {p : ℕ} {r : PageRecord}
    (hr : pageRecord sr t p = some r) (hpage : ea >>> 17 = pageAddr p >>> 17) :
    sr.segment ea >>> 31 = 0 ∧ ∃ e, lookup sr ea (sr.vsid ea) (entries t) false = some e ∧
      r = recordOf (sr.segment ea) (pageAddr p) e := by
  have hordinary := ordinary_of_record hr
  have hsegment : sr.segment ea = sr.segment (pageAddr p) := by
    rw [SrTable.segment, SrTable.segment, segmentIndex_of_samePage hpage]
  rw [pageRecord_eq hmask hordinary] at hr
  obtain ⟨e, he, rfl⟩ := Option.map_eq_some_iff.mp hr
  refine ⟨hsegment ▸ hordinary, e, ?_, by rw [hsegment]⟩
  rw [lookup_of_samePage hpage, vsid_of_samePage sr hpage, he]

end Lookup

section Lines

variable {sr : SrTable} {t : PageTable} {i : PageInformation} {ea : U32} {k : ℕ}

theorem range_iff (haligned : i.addr.toNat % 0x20000 = 0) (hwhole : i.size.toNat % 0x20000 = 0)
    (hends : i.addr.toNat + i.size.toNat < 2 ^ 32) : i.addr ≤ ea ∧ ea < i.addr + i.size ↔
      ∃ k < i.size.toNat / 0x20000, pagesOn i.addr k >>> 17 = ea >>> 17 := by
  have hpage (k : ℕ) (hk : k < i.size.toNat / 0x20000) :
      (pagesOn i.addr k).toNat = i.addr.toNat + k * 0x20000 := pagesOn_toNat (by omega)
  rw [BitVec.le_def, BitVec.lt_def, BitVec.toNat_add_of_lt hends]
  constructor
  · rintro ⟨hfrom, hto⟩
    have hk : ea.toNat / 0x20000 - i.addr.toNat / 0x20000 < i.size.toNat / 0x20000 := by omega
    refine ⟨_, hk, samePage_iff.mpr ?_⟩
    rw [hpage _ hk]
    omega
  · rintro ⟨k, hk, hsame⟩
    rw [samePage_iff, hpage k hk] at hsame
    omega

theorem mappedPages_separate (sr : SrTable) (t : PageTable) :
    (mappedPages sr t).Pairwise fun r s : PageRecord => r.addr >>> 17 ≠ s.addr >>> 17 := by
  rw [mappedPages, List.pairwise_filterMap]
  refine List.pairwise_lt_range.imp_of_mem fun {p q} hp hq hlt r hr s hs hsame => ?_
  rw [List.mem_range] at hp hq
  rw [pageRecord_addr hr, pageRecord_addr hs, samePage_iff, pageAddr_toNat hp,
    pageAddr_toNat hq] at hsame
  omega

theorem mappedPages_covers (hmask : sr.htabMask ≤ 1) (ea : U32) :
    (∃ r ∈ mappedPages sr t, r.addr >>> 17 = ea >>> 17) ↔
      sr.segment ea >>> 31 = 0 ∧ Found sr t (sr.vsid ea) ea := by
  constructor
  · rintro ⟨r, hr, hrea⟩
    obtain ⟨p, _, hfound⟩ := List.mem_filterMap.mp hr
    rw [pageRecord_addr hfound] at hrea
    obtain ⟨hordinary, e, hlookup, _⟩ := pageRecord_entry hmask hfound hrea.symm
    refine ⟨hordinary, ?_⟩
    rw [Found, hlookup]
    rfl
  · rintro ⟨hordinary, hfound⟩
    have hp : ea.toNat / 0x20000 < 0x8000 := by
      have hlt := ea.isLt
      omega
    have hpage : pageAddr (ea.toNat / 0x20000) >>> 17 = ea >>> 17 := by
      rw [samePage_iff, pageAddr_toNat hp, Nat.mul_div_cancel _ (by decide)]
    have hsegment : sr.segment (pageAddr (ea.toNat / 0x20000)) = sr.segment ea := by
      rw [SrTable.segment, SrTable.segment, segmentIndex_of_samePage hpage]
    obtain ⟨e, he⟩ := Option.isSome_iff_exists.mp hfound
    rw [← lookup_of_samePage hpage, ← vsid_of_samePage sr hpage] at he
    have hordinary' : Ordinary sr (ea.toNat / 0x20000) := by
      rw [Ordinary, hsegment]
      exact hordinary
    have hr := pageRecord_eq (t := t) hmask hordinary'
    rw [he, Option.map_some] at hr
    refine ⟨_, List.mem_filterMap.mpr ⟨_, List.mem_range.mpr hp, hr⟩, hpage⟩

theorem stored_page (hlossless : Lossless sr t) (hi : i ∈ (dumpedTo sr t 0x7800).pageInfos)
    (hk : k < i.size.toNat / 0x20000) : ∃ p < 0x8000, pageRecord sr t p = some (page i k) := by
  have hmem : page i k ∈ mappedPages sr t := by
    rw [← lossless_records hlossless]
    exact List.mem_flatMap.mpr ⟨i, hi, List.mem_map_of_mem (List.mem_range.mpr hk)⟩
  obtain ⟨p, hp, hr⟩ := List.mem_filterMap.mp hmem
  exact ⟨p, List.mem_range.mp hp, hr⟩

theorem stored_range (hlossless : Lossless sr t) (hi : i ∈ (dumpedTo sr t 0x7800).pageInfos) :
    i.addr ≤ ea ∧ ea < i.addr + i.size ↔ ∃ r ∈ pages i, r.addr >>> 17 = ea >>> 17 := by
  obtain ⟨hwhole, hpos, hends⟩ := stored_bounds le_rfl hi
  obtain ⟨p, hp, hfirst⟩ := stored_page hlossless hi hpos
  have haddr : i.addr = pageAddr p := by
    rw [← pageRecord_addr hfirst, page, pagesOn_zero]
  have haligned : i.addr.toNat % 0x20000 = 0 := by
    rw [haddr, pageAddr_toNat hp, Nat.mul_mod_left]
  rw [range_iff haligned hwhole (by omega)]
  simp only [pages, List.mem_map, List.mem_range, exists_exists_and_eq_and, page]

theorem page_offset (haddr : pagesOn i.addr k >>> 17 = ea >>> 17)
    (haligned : (pagesOn i.addr k).toNat % 0x20000 = 0) :
    pagesOn i.phys k + (ea &&& 0x1FFFF) = i.phys + (ea - i.addr) := by
  have hoffset : pagesOn i.addr k + (ea &&& 0x1FFFF) = ea := by
    have hlow : (ea &&& 0x1FFFF).toNat = ea.toNat % 0x20000 :=
      WordArithmetic.and_lowMask_toNat (k := 17) ea (by decide)
    rw [samePage_iff] at haddr
    apply BitVec.eq_of_toNat_eq
    rw [BitVec.toNat_add, hlow]
    have hlt := ea.isLt
    omega
  have hdifference : ea - i.addr = BitVec.ofNat 32 (k * 0x20000) + (ea &&& 0x1FFFF) := by
    rw [pagesOn, BitVec.add_assoc, BitVec.add_comm] at hoffset
    exact BitVec.sub_eq_iff_eq_add.mpr hoffset.symm
  rw [hdifference, pagesOn, BitVec.add_assoc]

theorem printLine_describes (hmask : sr.htabMask ≤ 1) (hlossless : Lossless sr t)
    (hi : i ∈ (dumpedTo sr t 0x7800).pageInfos) :
    ∃ l, printLine i = .ok l ∧ l.start = i.addr ∧ l.stop = i.addr + i.size ∧
      ∀ ea, l.Covers ea → ∀ supervisor a,
        throughPages (walk sr.sdr1 t) (sr.segment ea) supervisor a ea =
          l.access supervisor a ea := by
  obtain ⟨_, hpos, _⟩ := stored_bounds le_rfl hi
  obtain ⟨p, hp, hfirst⟩ := stored_page hlossless hi hpos
  obtain ⟨_, e, _, hrecord⟩ := pageRecord_entry hmask hfirst rfl
  -- The attributes of the record are those of its first page.
  obtain ⟨_, hks, hkp, hnx, hpp, _⟩ := PageRecord.mk.inj hrecord
  obtain ⟨l, hprint, hstart, hstop, haccess⟩ := printLine_access (hks.trans (bit_eq _ _))
    (hkp.trans (bit_eq _ _)) (hnx.trans (bit_eq _ _)) (hpp ▸ protection_lt _)
  refine ⟨l, hprint, hstart, hstop, fun ea hea supervisor a => ?_⟩
  rw [Line.Covers, hstart, hstop, stored_range hlossless hi] at hea
  obtain ⟨r, hr, hsame⟩ := hea
  obtain ⟨k, hk, rfl⟩ := List.mem_map.mp hr
  obtain ⟨q, hq, hfound⟩ := stored_page hlossless hi (List.mem_range.mp hk)
  have haddr : pagesOn i.addr k = pageAddr q := pageRecord_addr hfound
  have haligned : (pagesOn i.addr k).toNat % 0x20000 = 0 := by
    rw [haddr, pageAddr_toNat hq, Nat.mul_mod_left]
  have hpage : ea >>> 17 = pageAddr q >>> 17 := by
    rw [← haddr]
    exact hsame.symm
  obtain ⟨hordinary, e', hlookup, hrecord'⟩ := pageRecord_entry hmask hfound hpage
  obtain ⟨_, hks', hkp', hnx', hpp', hphys'⟩ := PageRecord.mk.inj hrecord'
  have same {n : ℕ} {x : U32} (hfirst : x = (sr.segment (pageAddr p) >>> n) &&& 1)
      (hpage : x = (sr.segment ea >>> n) &&& 1) :
      (sr.segment (pageAddr p)).getLsbD n = (sr.segment ea).getLsbD n :=
    bit_inj (hfirst.symm.trans hpage)
  rw [haccess, throughPages_of_lookup hordinary hlookup, ← hphys', ← hpp',
    page_offset hsame haligned, same hks hks', same hkp hkp', same hnx hnx']
  cases supervisor
  · rfl
  · rfl

theorem mapM_printLine {is : List PageInformation} {f : PageInformation → Line}
    (h : ∀ i ∈ is, printLine i = .ok (f i)) : is.mapM printLine = .ok (is.map f) := by
  induction is with
  | nil => rfl
  | cons i is ih =>
    obtain ⟨hfirst, hrest⟩ := List.forall_mem_cons.mp h
    rw [List.mapM_cons, hfirst, ih hrest]
    rfl

theorem lines_describe (hmask : sr.htabMask ≤ 1) (hlossless : Lossless sr t) :
    ∃ passes lines, printLines passes sr t = some (.ok lines) ∧
      (lines.Pairwise fun l l' => ∀ ea, ¬ (l.Covers ea ∧ l'.Covers ea)) ∧
      (∀ l ∈ lines, ∀ ea, l.Covers ea → ∀ supervisor a,
        throughPages (walk sr.sdr1 t) (sr.segment ea) supervisor a ea =
          l.access supervisor a ea) ∧
      ∀ ea, (∃ l ∈ lines, l.Covers ea) ↔
        sr.segment ea >>> 31 = 0 ∧ Found sr t (sr.vsid ea) ea := by
  have hrecords := lossless_records hlossless
  choose! f hprint hstart hstop hdescribes using
    fun i hi => printLine_describes hmask hlossless (i := i) hi
  have hcovers (i : PageInformation) (hi : i ∈ (dumpedTo sr t 0x7800).pageInfos) (ea : U32) :
      (f i).Covers ea ↔ ∃ r ∈ pages i, r.addr >>> 17 = ea >>> 17 := by
    rw [Line.Covers, hstart i hi, hstop i hi, stored_range hlossless hi]
  refine ⟨2049, (dumpedTo sr t 0x7800).pageInfos.map f, ?_, ?_, ?_, fun ea => ?_⟩
  · rw [printLines, printPageTableTranslation_eq hmask t (by decide), Option.map_some]
    exact congrArg some (mapM_printLine hprint)
  · have hseparate := mappedPages_separate sr t
    rw [← hrecords, stored, List.pairwise_flatMap] at hseparate
    rw [List.pairwise_map]
    refine hseparate.2.imp_of_mem fun {i j} hi hj hne ea hboth => ?_
    obtain ⟨r, hr, hrea⟩ := (hcovers i hi ea).mp hboth.1
    obtain ⟨s, hs, hsea⟩ := (hcovers j hj ea).mp hboth.2
    exact hne r hr s hs (hrea.trans hsea.symm)
  · intro l hl
    obtain ⟨i, hi, rfl⟩ := List.mem_map.mp hl
    exact hdescribes i hi
  · have hpages : (∃ l ∈ (dumpedTo sr t 0x7800).pageInfos.map f, l.Covers ea) ↔
        ∃ r ∈ mappedPages sr t, r.addr >>> 17 = ea >>> 17 := by
      rw [← hrecords, stored]
      simp only [List.mem_map, List.mem_flatMap, exists_exists_and_eq_and]
      constructor
      · rintro ⟨i, hi, hea⟩
        obtain ⟨r, hr, hrea⟩ := (hcovers i hi ea).mp hea
        exact ⟨r, ⟨i, hi, hr⟩, hrea⟩
      · rintro ⟨r, ⟨i, hi, hr⟩, hrea⟩
        exact ⟨i, hi, (hcovers i hi ea).mpr ⟨r, hr, hrea⟩⟩
    rw [hpages]
    exact mappedPages_covers hmask ea

/-- If the dump loses no page, its lines have different ranges; what a line says of an address in
its range, if no block maps it, is what the processor does there; and an address is in the range of
a line exactly if the lookup of the dump finds its page. -/
theorem lines_describe_pages {ts : Tables} {core : Fin 3}
    (hmask : (ts.kernelReadSRs core).htabMask ≤ 1)
    (hlossless : Lossless (ts.kernelReadSRs core) ts.table) :
    ∃ passes lines, printLines passes (ts.kernelReadSRs core) ts.table = some (.ok lines) ∧
      (lines.Pairwise fun l l' => ∀ ea, ¬ (l.Covers ea ∧ l'.Covers ea)) ∧
      (∀ l ∈ lines, ∀ ea, l.Covers ea → ∀ supervisor a,
        (∀ k, ¬ (bat (ts.cores core) a k).Covers supervisor ea) →
          ts.space core core supervisor a ea = l.access supervisor a ea) ∧
      ∀ ea, (∃ l ∈ lines, l.Covers ea) ↔ (ts.kernelReadSRs core).segment ea >>> 31 = 0 ∧
        Found (ts.kernelReadSRs core) ts.table ((ts.kernelReadSRs core).vsid ea) ea := by
  obtain ⟨passes, lines, hprint, hapart, hdescribes, hcovers⟩ := lines_describe hmask hlossless
  refine ⟨passes, lines, hprint, hapart, fun l hl ea hea supervisor a hnone => ?_, hcovers⟩
  rw [Tables.space, translate_of_not_covers hnone, segmentNumber_eq]
  exact hdescribes l hl ea hea supervisor a

end Lines

theorem segmentOne_lossless : Lossless segmentOne fun _ => 0x80000000 := by
  -- No page continues another one, because all of them have the same physical address.
  refine ⟨fun p hp hspoils => ?_, fun q hlast => ?_, fun p hfrom hp => ?_⟩
  · cases hspoils with
    | origin hr => exact absurd (ordinary_of_record hr) (by decide)
    | blank hr hblank _ =>
      rw [Blank, segmentOne_phys hr] at hblank
      exact absurd hblank.2.2.2.2 (by decide)
    | skipped _ hr hs hcontinues _ =>
      rw [Continues, segmentOne_phys hr, segmentOne_phys hs] at hcontinues
      exact absurd hcontinues.2.2.2.2 (by decide)
  · have hlt := hlast.1
    have hsegment := (ordinary_segmentOne (by omega)).mp hlast.2.1
    have hend : ¬ q < 4095 := fun h => hlast.2.2 4095 h (by decide) (by decide)
    obtain rfl : q = 4095 := by omega
    decide
  · exact pageRecord_of_direct fun h => by
      have := (ordinary_segmentOne hp).mp h
      omega

def segmentOneTables : Tables :=
  ⟨fun _ _ => 0, fun _ => segmentOne.value, segmentOne.sdr1, fun _ => 0x80000000⟩

theorem segmentOne_described : ∃ passes lines,
    printLines passes segmentOne (fun _ => 0x80000000) = some (.ok lines) ∧
      (lines.Pairwise fun l l' => ∀ ea, ¬ (l.Covers ea ∧ l'.Covers ea)) ∧
      (∀ l ∈ lines, ∀ ea, l.Covers ea → ∀ supervisor a,
        segmentOneTables.space 0 0 supervisor a ea = l.access supervisor a ea) ∧
      ∀ ea, (∃ l ∈ lines, l.Covers ea) ↔ segmentOne.segment ea >>> 31 = 0 ∧
        Found segmentOne (fun _ => 0x80000000) (segmentOne.vsid ea) ea := by
  have hmask : (segmentOneTables.kernelReadSRs 0).htabMask ≤ 1 := by decide
  obtain ⟨passes, lines, hprint, hapart, hdescribes, hcovers⟩ :=
    lines_describe_pages hmask segmentOne_lossless
  exact ⟨passes, lines, hprint, hapart, fun l hl ea hea supervisor a =>
    hdescribes l hl ea hea supervisor a fun k => zero_not_covers supervisor a k ea, hcovers⟩

end MemoryMappingModule.PrintedAccess
