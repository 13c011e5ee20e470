import MemoryMappingModule.TestValues
import MemoryMappingModule.WordArithmetic

/-! What `MemoryMapping_readTestValuesFromMemory` prints about any memory. The lines of a region
tile it: good ones hold right words only, and a line of errors starts with a wrong word. After a
wrong word the reader goes on with the next block of 0x8000 words, so the rest of that block is in
the same line unread. -/

namespace MemoryMappingModule.TestReports

open StepLoop ByteMemory MappingLayout AddressTranslation TestValues

structure Span where
  ok : Bool
  first : ℕ
  stop : ℕ

def Span.Contains (s : Span) (k : ℕ) : Prop := s.first ≤ k ∧ k < s.stop

def blockEnd (j : ℕ) : ℕ := (j / 0x8000 + 1) * 0x8000

section Tiling

variable {right : ℕ → Prop} {n a b k : ℕ} {ss : List Span} {s : Span}

/-- Spans that tile the words below a bound. Each says what holds of its words, and goes on until
that changes or all `n` words are tested. -/
inductive Tiles (right : ℕ → Prop) (n : ℕ) : ℕ → List Span → Prop
  | start : Tiles right n 0 []
  | good {a b : ℕ} {ss : List Span} (before : Tiles right n a ss) (le : a ≤ b)
      (words : ∀ k, a ≤ k → k < b → right k) (stops : b = n ∨ ¬ right b) :
      Tiles right n b (ss ++ [⟨true, a, b⟩])
  | error {a b : ℕ} {ss : List Span} (before : Tiles right n a ss) (lt : a < b) (wrong : ¬ right a)
      (words : ∀ k, blockEnd a ≤ k → k < b → ¬ right k) (stops : b = n ∨ right b) :
      Tiles right n b (ss ++ [⟨false, a, b⟩])

/-- What a tiling says of its spans: each word is in the span at one place of the list. -/
structure Describes (right : ℕ → Prop) (n : ℕ) (ss : List Span) : Prop where
  bounds : ∀ s ∈ ss, s.stop ≤ n
  covers : ∀ k < n, ∃! i : ℕ, ∃ s : Span, ss[i]? = some s ∧ s.Contains k
  good : ∀ s ∈ ss, s.ok = true → ∀ k, s.Contains k → right k
  error : ∀ s ∈ ss, s.ok = false → s.Contains s.first ∧ ¬ right s.first ∧
    ∀ k, s.Contains k → blockEnd s.first ≤ k → ¬ right k

theorem Describes.snoc (h : Describes right a ss) (hfirst : s.first = a) (hle : a ≤ s.stop)
    (hgood : s.ok = true → ∀ k, s.Contains k → right k)
    (herror : s.ok = false → s.Contains s.first ∧ ¬ right s.first ∧
      ∀ k, s.Contains k → blockEnd s.first ≤ k → ¬ right k) :
    Describes right s.stop (ss ++ [s]) where
  bounds := by
    intro t ht
    rcases List.mem_append.mp ht with hold | hnew
    · exact (h.bounds t hold).trans hle
    · rw [List.mem_singleton.mp hnew]
  covers := by
    intro k hk
    have hplace {i : ℕ} {t : Span} (ht : (ss ++ [s])[i]? = some t) :
        ss[i]? = some t ∨ i = ss.length ∧ t = s := by
      rcases Nat.lt_or_ge i ss.length with hi | hi
      · exact .inl (by rwa [List.getElem?_append_left hi] at ht)
      · rw [List.getElem?_append_right hi, List.getElem?_singleton] at ht
        split_ifs at ht with hlast
        exact .inr ⟨by omega, (Option.some.inj ht).symm⟩
    by_cases hka : k < a
    · obtain ⟨i, ⟨t, ht, hcontains⟩, hunique⟩ := h.covers k hka
      have hi := (List.getElem?_eq_some_iff.mp ht).1
      refine ⟨i, ⟨t, by rwa [List.getElem?_append_left hi], hcontains⟩, ?_⟩
      rintro j ⟨u, hu, hucontains⟩
      rcases hplace hu with hold | ⟨_, rfl⟩
      · exact hunique j ⟨u, hold, hucontains⟩
      · exact absurd (hfirst ▸ hucontains.1) (by omega)
    · refine ⟨ss.length, ⟨s, by simp, by omega, hk⟩, ?_⟩
      rintro j ⟨u, hu, hucontains⟩
      rcases hplace hu with hold | ⟨rfl, _⟩
      · exact absurd (hucontains.2.trans_le (h.bounds u (List.mem_of_getElem? hold))) hka
      · rfl
  good := by
    intro t ht
    rcases List.mem_append.mp ht with hold | hnew
    · exact h.good t hold
    · exact List.mem_singleton.mp hnew ▸ hgood
  error := by
    intro t ht
    rcases List.mem_append.mp ht with hold | hnew
    · exact h.error t hold
    · exact List.mem_singleton.mp hnew ▸ herror

theorem Tiles.describes (h : Tiles right n b ss) : Describes right b ss := by
  induction h with
  | start => exact ⟨by simp, by simp, by simp, by simp⟩
  | good _ le words _ ih =>
    exact ih.snoc (s := ⟨true, _, _⟩) rfl le (fun _ k hk => words k hk.1 hk.2) (by simp)
  | error _ lt wrong words _ ih =>
    refine ih.snoc (s := ⟨false, _, _⟩) rfl lt.le (by simp) fun _ => ⟨⟨le_refl _, lt⟩, wrong, ?_⟩
    exact fun k hk hblock => words k hblock hk.2

theorem Tiles.stops (h : Tiles right n b ss) :
    ∀ s ∈ ss, s.stop = n ∨ (right s.stop ↔ s.ok = false) := by
  induction h with
  | start => simp
  | good _ _ _ stops ih =>
    refine List.forall_mem_append.mpr ⟨ih, List.forall_mem_singleton.mpr ?_⟩
    exact stops.imp_right fun h => iff_of_false h (by simp)
  | error _ _ _ _ stops ih =>
    refine List.forall_mem_append.mpr ⟨ih, List.forall_mem_singleton.mpr ?_⟩
    exact stops.imp_right fun h => iff_of_true h rfl

end Tiling

section Words

def wordAt (start : U32) (k : ℕ) : U32 := start + BitVec.ofNat 32 k * 4

def Span.report (start : U32) (s : Span) : TestReport :=
  if s.ok then .good (wordAt start s.first) (wordAt start s.stop)
  else .error (wordAt start s.first) (wordAt start s.stop)

def Right (view : Memory 32) (start : U32) (k : ℕ) : Prop :=
  load32 view (wordAt start k) = .ok (BitVec.ofNat 32 k)

variable {start : U32} {n j k : ℕ}

theorem wordAt_toNat (hroom : start.toNat + 4 * n ≤ 2 ^ 32) (hk : k < n) :
    (wordAt start k).toNat = start.toNat + 4 * k := by
  rw [wordAt, BitVec.toNat_add, BitVec.toNat_mul, BitVec.toNat_ofNat]
  simp only [BitVec.reduceToNat]
  omega

theorem wordAt_ne (hstart : start ≠ 0) (hroom : start.toNat + 4 * n ≤ 2 ^ 32) (hk : k < n) :
    wordAt start k ≠ wordAt start n := by
  have hpos : start.toNat ≠ 0 := fun h => hstart (BitVec.eq_of_toNat_eq h)
  intro h
  have hsame := congrArg BitVec.toNat h
  rw [wordAt_toNat hroom hk, wordAt, BitVec.toNat_add, BitVec.toNat_mul, BitVec.toNat_ofNat]
    at hsame
  simp only [BitVec.reduceToNat] at hsame
  omega

theorem jump_eq (hj : j < 2 ^ 30) :
    ((BitVec.ofNat 32 j &&& 0xFFFF8000) + 0x00008000 - 1) + 1 = BitVec.ofNat 32 (blockEnd j) := by
  have hmask : (0xFFFF8000 : U32) = ~~~WordArithmetic.lowMask 32 15 := by decide
  have hlow : (BitVec.ofNat 32 j &&& WordArithmetic.lowMask 32 15).toNat = j % 2 ^ 15 := by
    rw [WordArithmetic.and_lowMask_toNat _ (by decide), BitVec.toNat_ofNat]
    omega
  rw [hmask, WordArithmetic.and_not_eq_sub, BitVec.sub_add_cancel]
  apply BitVec.eq_of_toNat_eq
  rw [BitVec.toNat_add, BitVec.toNat_sub, hlow, BitVec.toNat_ofNat, BitVec.toNat_ofNat, blockEnd]
  simp only [BitVec.reduceToNat]
  omega

end Words

section Loop

variable {view : Memory 32} {start eaSize : U32} {n j i passes : ℕ} {reports : List TestReport}
  {s : Reader}

/-- The loop over the words of a region at word `j`. The lines so far tile the words before the
span that is open. -/
inductive Testing (view : Memory 32) (start : U32) (n : ℕ) (reports : List TestReport) (j : ℕ) :
    Reader → Prop
  | good {a : ℕ} {ss : List Span} {success : Bool} (tiles : Tiles (Right view start) n a ss)
      (le : a ≤ j) (inside : j ≤ n) (words : ∀ k, a ≤ k → k < j → Right view start k)
      (flag : success = true ∧ a = 0 ∨ success = false ∧ ∃ k < n, ¬ Right view start k) :
      Testing view start n reports j ⟨BitVec.ofNat 32 j, success, false, 0, wordAt start a,
        reports ++ ss.map (Span.report start)⟩
  | failing {a : ℕ} {ss : List Span} (tiles : Tiles (Right view start) n a ss) (lt : a < n)
      (wrong : ¬ Right view start a) (block : blockEnd a ≤ j) (near : j ≤ n + 0x8000)
      (words : ∀ k, blockEnd a ≤ k → k < j → ¬ Right view start k) :
      Testing view start n reports j ⟨BitVec.ofNat 32 j, false, true, wordAt start a, 0,
        reports ++ ss.map (Span.report start)⟩

theorem reports_append (reports : List TestReport) (start : U32) (ss : List Span) (last : Span) :
    reports ++ ss.map (Span.report start) ++ [last.report start] =
      reports ++ (ss ++ [last]).map (Span.report start) := by
  rw [List.append_assoc, List.map_append, List.map_singleton]

theorem lt_blockEnd (j : ℕ) : j < blockEnd j := by
  rw [blockEnd]
  omega

theorem Testing.bounds (h : Testing view start n reports j s) :
    s.j = BitVec.ofNat 32 j ∧ j ≤ n + 0x8000 := by
  cases h with
  | good _ _ inside => exact ⟨rfl, by omega⟩
  | failing _ _ _ _ near => exact ⟨rfl, near⟩

theorem Testing.note {word : U32} (h : Testing view start n reports j s) (hn : n < 2 ^ 30)
    (hj : j < n) (hword : load32 view (wordAt start j) = .ok word) :
    ∃ j' > j, Testing view start n reports j' (noteWord (wordAt start j) word s) := by
  have hnext : BitVec.ofNat 32 j + 1 = BitVec.ofNat 32 (j + 1) := (BitVec.ofNat_add j 1).symm
  have hright : Right view start j ↔ word = BitVec.ofNat 32 j := by
    rw [Right, hword, Except.ok.injEq]
  cases h with
  | @good a ss _ tiles le inside words flag =>
    by_cases hsame : word = BitVec.ofNat 32 j
    · refine ⟨j + 1, Nat.lt_succ_self j, ?_⟩
      simp only [noteWord, hsame, ne_eq, not_true_eq_false, if_false, Bool.false_eq_true, hnext]
      refine .good tiles (by omega) hj (fun k hk hlt => ?_) flag
      rcases Nat.lt_succ_iff_lt_or_eq.mp hlt with hbefore | rfl
      · exact words k hk hbefore
      · exact hright.mpr hsame
    · refine ⟨blockEnd j, lt_blockEnd j, ?_⟩
      simp only [noteWord, ne_eq, hsame, not_false_eq_true, if_true, if_false, Bool.false_eq_true,
        jump_eq (show j < 2 ^ 30 by omega)]
      have hprinted : reports ++ ss.map (Span.report start) ++
          [.good (wordAt start a) (wordAt start j)] = _ :=
        reports_append reports start ss ⟨true, a, j⟩
      rw [hprinted]
      have hwrong : ¬ Right view start j := fun h => hsame (hright.mp h)
      refine .failing (.good tiles le words (.inr hwrong)) hj hwrong le_rfl ?_
        fun k hk hlt => absurd hlt (by omega)
      rw [blockEnd]
      omega
  | @failing a ss tiles lt wrong block near words =>
    refine ⟨j + 1, Nat.lt_succ_self j, ?_⟩
    by_cases hsame : word = BitVec.ofNat 32 j
    · simp only [noteWord, hsame, ne_eq, not_true_eq_false, if_false, if_true, hnext]
      have hprinted : reports ++ ss.map (Span.report start) ++
          [.error (wordAt start a) (wordAt start j)] = _ :=
        reports_append reports start ss ⟨false, a, j⟩
      rw [hprinted]
      have hjust : Right view start j := hright.mpr hsame
      have herror := Tiles.error tiles ((lt_blockEnd a).trans_le block) wrong words (.inr hjust)
      refine .good herror (Nat.le_succ j) hj (fun k hk hlt => ?_) (.inr ⟨rfl, a, lt, wrong⟩)
      obtain rfl : k = j := by omega
      exact hjust
    · simp only [noteWord, ne_eq, hsame, not_false_eq_true, if_true, hnext]
      refine .failing tiles lt wrong (by omega) (by omega) fun k hk hlt => ?_
      rcases Nat.lt_succ_iff_lt_or_eq.mp hlt with hbefore | rfl
      · exact words k hk hbefore
      · exact fun h => hsame (hright.mp h)

inductive Reported (right : ℕ → Prop) (i : ℕ) (start : U32) (n : ℕ) : List TestReport → Prop
  | intro {ss : List Span} {success : Bool} (describes : Describes right n ss)
      (stops : ∀ s ∈ ss, s.stop = n ∨ (right s.stop ↔ s.ok = false))
      (all : success = true ↔ ∀ k < n, right k) :
      Reported right i start n
        (ss.map (Span.report start) ++ if success then [.successful (i + 1)] else [])

theorem Reported.congr {right right' : ℕ → Prop} {part : List TestReport}
    (h : Reported right i start n part) (hsame : ∀ k < n, right k ↔ right' k) :
    Reported right' i start n part := by
  obtain ⟨describes, stops, all⟩ := h
  have hbound {s : Span} (hs : s ∈ _) {k : ℕ} (hk : s.Contains k) : k < n :=
    hk.2.trans_le (describes.bounds s hs)
  refine .intro ⟨describes.bounds, describes.covers, ?_, ?_⟩ ?_ (all.trans (forall₂_congr hsame))
  · exact fun s hs hok k hk => (hsame k (hbound hs hk)).mp (describes.good s hs hok k hk)
  · intro s hs herror
    obtain ⟨hfirst, hwrong, hrest⟩ := describes.error s hs herror
    refine ⟨hfirst, fun h => hwrong ((hsame _ (hbound hs hfirst)).mpr h), fun k hk hblock h => ?_⟩
    exact hrest k hk hblock ((hsame k (hbound hs hk)).mpr h)
  · intro s hs
    rcases Nat.lt_or_ge s.stop n with hlt | hge
    · rw [← hsame _ hlt]
      exact stops s hs
    · exact .inl (Nat.le_antisymm (describes.bounds s hs) hge)

theorem Testing.all_right (h : Testing view start n reports j s)
    (hright : ∀ k < n, Right view start k) : s.success = true ∧ s.inFailRange = false ∧
      ∃ part, s.reports = reports ++ part ∧ ∀ a b, .error a b ∉ part := by
  cases h with
  | @good a ss success tiles le inside words flag =>
    obtain ⟨rfl, _⟩ | ⟨_, k, hk, hwrong⟩ := flag
    · refine ⟨rfl, rfl, _, rfl, fun first stop hmem => ?_⟩
      obtain ⟨t, ht, hline⟩ := List.mem_map.mp hmem
      rw [Span.report] at hline
      split_ifs at hline with hok
      obtain ⟨hcontains, hwrong, _⟩ := tiles.describes.error t ht (by simpa using hok)
      have hbound := tiles.describes.bounds t ht
      exact hwrong (hright _ (hcontains.2.trans_le (hbound.trans (le.trans inside))))
    · exact absurd (hright k hk) hwrong
  | failing tiles lt wrong => exact absurd (hright _ lt) wrong

theorem Testing.close (h : Testing view start n reports j s) (hj : n ≤ j) (hstart : start ≠ 0)
    (hroom : start.toNat + 4 * n ≤ 2 ^ 32) (hend : start + eaSize = wordAt start n) (i : ℕ) :
    ∃ part, closeReports i start eaSize s = reports ++ part ∧
      Reported (Right view start) i start n part := by
  cases h with
  | @good a ss success tiles le inside words flag =>
    obtain rfl : j = n := by omega
    have hall : success = true ↔ ∀ k < j, Right view start k := by
      rcases flag with ⟨hsuccess, rfl⟩ | ⟨hsuccess, k, hk, hwrong⟩
      · exact iff_of_true hsuccess fun k hk => words k (Nat.zero_le k) hk
      · exact iff_of_false (by simp [hsuccess]) fun h => hwrong (h k hk)
    by_cases ha : a = j
    · refine ⟨_, ?_, .intro (ha ▸ tiles).describes tiles.stops hall⟩
      simp [closeReports, hend, ha, List.append_assoc]
    · have hzero : wordAt start a ≠ 0 := by
        intro h
        have hvalue := wordAt_toNat hroom (show a < j by omega)
        have hpos : start.toNat ≠ 0 := fun h => hstart (BitVec.eq_of_toNat_eq h)
        rw [h] at hvalue
        simp only [BitVec.reduceToNat] at hvalue
        omega
      have htiles := Tiles.good tiles le words (.inl rfl)
      refine ⟨_, ?_, .intro htiles.describes htiles.stops hall⟩
      rw [closeReports, hend, if_pos ⟨hzero, wordAt_ne hstart hroom (by omega)⟩, List.map_append,
        List.append_assoc, List.append_assoc, List.append_assoc]
      rfl
  | @failing a ss tiles lt wrong block near words =>
    have hall : false = true ↔ ∀ k < n, Right view start k :=
      iff_of_false Bool.false_ne_true fun h => wrong (h a lt)
    have htiles := Tiles.error tiles lt wrong (fun k hk hlt => words k hk (by omega)) (.inl rfl)
    refine ⟨_, ?_, .intro htiles.describes htiles.stops hall⟩
    rw [closeReports, hend, if_neg (by simp), if_pos rfl, List.map_append, List.append_assoc,
      List.append_assoc, List.append_assoc]
    rfl

theorem test_reports (hn : n < 2 ^ 30) (hcount : (eaSize / 4).toNat = n)
    (hread : ∀ k < n, Returns (load32 view (wordAt start k))) (hpasses : n < passes)
    (reports : List TestReport) :
    ∃ s, run (testWord view start eaSize) passes ⟨0, true, false, 0, start, reports⟩ =
        some (.ok s) ∧ ∃ j ≥ n, Testing view start n reports j s := by
  have hfirst : Testing view start n reports 0 ⟨0, true, false, 0, start, reports⟩ := by
    have hopen : Testing view start n reports 0 ⟨BitVec.ofNat 32 0, true, false, 0, wordAt start 0,
        reports ++ List.map (Span.report start) []⟩ :=
      .good .start le_rfl (Nat.zero_le n) (fun k _ hk => absurd hk (Nat.not_lt_zero k))
        (.inl ⟨rfl, rfl⟩)
    simpa [wordAt] using hopen
  have hpass (s : Reader) (hs : ∃ j, Testing view start n reports j s) :
      (∃ r, testWord view start eaSize s = .ok (.inr r) ∧
          ∃ j ≥ n, Testing view start n reports j r) ∨
        ∃ u, testWord view start eaSize s = .ok (.inl u) ∧
          (∃ j, Testing view start n reports j u) ∧ n - u.j.toNat < n - s.j.toNat := by
    obtain ⟨j, hs⟩ := hs
    obtain ⟨hword, hnear⟩ := hs.bounds
    have hvalue : s.j.toNat = j := by
      rw [hword, BitVec.toNat_ofNat]
      omega
    rw [testWord]
    by_cases hj : j < n
    · right
      obtain ⟨word, hload⟩ := hread j hj
      obtain ⟨j', hj', hnote⟩ := hs.note hn hj hload
      obtain ⟨hword', hnear'⟩ := hnote.bounds
      have haddress : start + s.j * 4 = wordAt start j := by rw [hword, wordAt]
      refine ⟨_, ?_, ⟨j', hnote⟩, ?_⟩
      · rw [if_pos (by rw [BitVec.lt_def]; omega), haddress, hload]
        rfl
      · rw [hword', BitVec.toNat_ofNat]
        omega
    · left
      exact ⟨s, if_neg (by rw [BitVec.lt_def]; omega), j, by omega, hs⟩
  obtain ⟨s, hrun, hs⟩ := run_of_invariant _ (fun s : Reader => n - s.j.toNat) hpass ⟨0, hfirst⟩
  exact ⟨s, run_mono hrun (by simp only [BitVec.reduceToNat]; omega), hs⟩

end Loop

section Regions

variable {view : Memory 32} {T : List MemoryMapping} {passes : ℕ}

theorem addSizes_region (m : MemoryMapping) : addSizes 0 (m.physicalAddresses.getD []) =
    BitVec.ofNat 32 (regionSize (chunksOf m)) := by
  rw [addSizes_eq, zero_add, chunksOf]

theorem readRegions_parts {P : MemoryMapping → ℕ → List TestReport → Prop}
    (h : ∀ m ∈ regionsOf T, ∀ i reports, ∃ s part,
      run (testWord view m.effectiveStartAddress (addSizes 0 (m.physicalAddresses.getD []))) passes
          ⟨0, true, false, 0, m.effectiveStartAddress, reports⟩ = some (.ok s) ∧
        closeReports i m.effectiveStartAddress (addSizes 0 (m.physicalAddresses.getD [])) s =
            reports ++ part ∧ P m i part) (i : ℕ) (reports : List TestReport) :
    ∃ parts, readRegions passes view i T reports = some (.ok (reports ++ parts.flatten)) ∧
      List.Forall₂ (fun p part => P p.1 p.2 part) ((regionsOf T).zipIdx i) parts := by
  induction T generalizing i reports with
  | nil => exact ⟨[], by simp [readRegions], .nil⟩
  | cons m T ih =>
    rw [readRegions]
    cases hchunks : m.physicalAddresses with
    | none =>
      rw [regionsOf_closed hchunks]
      exact ⟨[], by simp, .nil⟩
    | some memVals =>
      rw [regionsOf_cons hchunks] at h ⊢
      obtain ⟨hregion, hrest⟩ := List.forall_mem_cons.mp h
      obtain ⟨s, part, hrun, hclose, hpart⟩ := hregion i reports
      obtain ⟨parts, hresult, hparts⟩ := ih hrest (i + 1) (reports ++ part)
      rw [hchunks, Option.getD_some] at hrun hclose
      refine ⟨part :: parts, ?_, .cons hpart hparts⟩
      dsimp only
      rw [hrun]
      dsimp only
      rw [hclose, hresult, List.append_assoc, List.flatten_cons]

/-- A region of whole words that can be read, below the top of the address space. -/
structure Testable (view : Memory 32) (m : MemoryMapping) : Prop where
  start : m.effectiveStartAddress ≠ 0
  whole : 4 ∣ regionSize (chunksOf m)
  room : m.effectiveStartAddress.toNat + regionSize (chunksOf m) ≤ 2 ^ 32
  readable : ∀ k < regionSize (chunksOf m) / 4,
    Returns (load32 view (wordAt m.effectiveStartAddress k))

def Prints (right : MemoryMapping → ℕ → Prop) (regions : List (MemoryMapping × ℕ))
    (parts : List (List TestReport)) : Prop :=
  List.Forall₂ (fun p part => Reported (right p.1) p.2 p.1.effectiveStartAddress
    (regionSize (chunksOf p.1) / 4) part) regions parts

theorem readRegions_reports (hpasses : 2 ^ 30 ≤ passes) (h : ∀ m ∈ regionsOf T, Testable view m)
    (i : ℕ) (reports : List TestReport) :
    ∃ parts, readRegions passes view i T reports = some (.ok (reports ++ parts.flatten)) ∧
      Prints (fun m => Right view m.effectiveStartAddress) ((regionsOf T).zipIdx i) parts := by
  refine readRegions_parts (P := fun m i => Reported (Right view m.effectiveStartAddress) i
    m.effectiveStartAddress (regionSize (chunksOf m) / 4)) (fun m hm i reports => ?_) i reports
  obtain ⟨hstart, hwhole, hroom, hread⟩ := h m hm
  have hpos : m.effectiveStartAddress.toNat ≠ 0 := fun h => hstart (BitVec.eq_of_toNat_eq h)
  have hcount : (BitVec.ofNat 32 (regionSize (chunksOf m)) / 4 : U32).toNat =
      regionSize (chunksOf m) / 4 := by
    rw [BitVec.toNat_udiv, BitVec.toNat_ofNat, Nat.mod_eq_of_lt (by omega)]
    rfl
  have hend : m.effectiveStartAddress + BitVec.ofNat 32 (regionSize (chunksOf m)) =
      wordAt m.effectiveStartAddress (regionSize (chunksOf m) / 4) := by
    have hfour : BitVec.ofNat 32 (regionSize (chunksOf m) / 4) * 4 =
        BitVec.ofNat 32 (regionSize (chunksOf m) / 4 * 4) := (BitVec.ofNat_mul _ 4).symm
    rw [wordAt, hfour, Nat.div_mul_cancel hwhole]
  have hwords : regionSize (chunksOf m) / 4 < 2 ^ 30 := by omega
  have hfuel : regionSize (chunksOf m) / 4 < passes := by omega
  rw [addSizes_region]
  obtain ⟨s, hrun, j, hj, htested⟩ := test_reports hwords hcount hread hfuel reports
  obtain ⟨part, hclose, hpart⟩ := htested.close hj hstart (by omega) hend i
  exact ⟨s, part, hrun, hclose, hpart⟩

/-- Whatever the memory holds, the test comes to an end, and its lines tell of every region which
words are right. -/
theorem readTestValues_reports (hpasses : 2 ^ 30 ≤ passes)
    (h : ∀ m ∈ regionsOf T, Testable view m) :
    ∃ parts, readTestValuesFromMemory passes T view = some (.ok parts.flatten) ∧
      Prints (fun m => Right view m.effectiveStartAddress) (regionsOf T).zipIdx parts := by
  obtain ⟨parts, hresult, hparts⟩ := readRegions_reports hpasses h 0 []
  exact ⟨parts, hresult, hparts⟩

theorem memMapping_testable (bytes : U32 → Byte) :
    ∀ m ∈ regionsOf memMapping, Testable (Memory.ofBytes bytes) m := by
  have hlayout : ∀ m ∈ regionsOf memMapping, m.effectiveStartAddress ≠ 0 ∧
      4 ∣ regionSize (chunksOf m) ∧
        m.effectiveStartAddress.toNat + regionSize (chunksOf m) ≤ 2 ^ 32 := by
    decide
  intro m hm
  obtain ⟨hstart, hwhole, hroom⟩ := hlayout m hm
  exact ⟨hstart, hwhole, hroom, fun k _ => ⟨_, rfl⟩⟩

theorem zeros_reports : ∃ parts, readTestValuesFromMemory (2 ^ 30) memMapping
      (Memory.ofBytes fun _ => 0) = some (.ok parts.flatten) ∧
    Prints (fun m => Right (Memory.ofBytes fun _ => 0) m.effectiveStartAddress)
      (regionsOf memMapping).zipIdx parts :=
  readTestValues_reports le_rfl (memMapping_testable _)

section Overwritten

variable {kernelCopyData : U32 → List Byte → Memory 32 → Memory 32} {translate : U32 → U32}

def SameWord (view view' : Memory 32) (m : MemoryMapping) (k : ℕ) : Prop :=
  load32 view (wordAt m.effectiveStartAddress k) = load32 view' (wordAt m.effectiveStartAddress k)

/-- Where the memory has been written to since the test values were, the test reports the words
that are no longer as they were left. -/
theorem overwritten_words_reported
    (hcopies : ∀ dst bytes m, kernelCopyData dst bytes m = copyBytes m dst bytes)
    (htranslates : TranslatesTable translate T) (hsizes : ∀ v ∈ tableChunks T, 0x20000 ∣ size v)
    (hdisjoint : DisjointChunks (tableChunks T)) (testBuffer : Buffer) (memory later : Memory 32)
    (hpasses : 2 ^ 30 ≤ passes)
    (h : ∀ m ∈ regionsOf T, Testable (seenThrough translate later) m) :
    ∃ parts, readTestValuesFromMemory passes T (seenThrough translate later) =
        some (.ok parts.flatten) ∧
      Prints (SameWord (seenThrough translate later) (seenThrough translate
        (writeTestValuesToMemory kernelCopyData T testBuffer memory))) (regionsOf T).zipIdx
        parts := by
  obtain ⟨hbytes, _⟩ := writeRegions_spec hcopies
    (fun v hv => Nat.dvd_trans (by decide) (hsizes v hv)) hdisjoint ⟨testBuffer, 0, memory⟩
  obtain ⟨parts, hresult, hparts⟩ := readRegions_reports hpasses h 0 []
  refine ⟨parts, hresult, ?_⟩
  rw [Prints, List.forall₂_iff_get] at hparts ⊢
  refine ⟨hparts.1, fun i hi hi' => (hparts.2 i hi hi').congr fun k hk => ?_⟩
  have hm : ((regionsOf T).zipIdx.get ⟨i, hi⟩).1 ∈ regionsOf T := by
    simp
  rw [SameWord, Right]
  have hword := load_region hm htranslates (hbytes _ hm) hk
  rw [writeTestValuesToMemory, wordAt, hword]

theorem cleared_words_reported : ∃ parts,
    readTestValuesFromMemory (2 ^ 30) memMapping (Memory.ofBytes fun _ => 0) =
        some (.ok parts.flatten) ∧
      Prints (SameWord (Memory.ofBytes fun _ => 0) (seenThrough (effectiveToPhysical memMapping)
        (writeTestValuesToMemory (fun dst bytes m => copyBytes m dst bytes) memMapping (fun _ => 0)
          (Memory.ofBytes fun _ => 0)))) (regionsOf memMapping).zipIdx parts := by
  have htranslates : TranslatesTable (effectiveToPhysical memMapping) memMapping := by
    rw [← shippedTable_toArray]
    exact effectiveToPhysical_translates shippedTable
  have hdisjoint : DisjointChunks (tableChunks memMapping) := by
    rw [← shippedTable_toArray]
    exact disjointChunks_toArray shippedTable_physicallyDisjoint
  exact overwritten_words_reported (fun _ _ _ => rfl) htranslates (by decide) hdisjoint _ _
    (Memory.ofBytes fun _ => 0) le_rfl (memMapping_testable _)

end Overwritten

end Regions

end MemoryMappingModule.TestReports
