import Mathlib

/-! A scan for long runs of clear places. The scan goes from place to place and remembers
where the run it is in began. A place that is not clear ends the run, which is recorded, cut
to whole blocks, if it is long enough; the scan then goes on with the next block. What is
recorded is clear, and no long run of whole blocks is missed: the scan only ever jumps to
the start of a block. -/

namespace MemoryMappingModule.RunScan

/-- Where a scan is: its next place, the start of the run it is in, the runs recorded. -/
structure Scan where
  next : ℕ
  start : Option ℕ
  ranges : List (ℕ × ℕ)

variable (clear : ℕ → Prop) (block threshold : ℕ)

def blockUp (i : ℕ) : ℕ := (i + block - 1) / block * block

def blockDown (i : ℕ) : ℕ := i / block * block

def record (g i : ℕ) (ranges : List (ℕ × ℕ)) : List (ℕ × ℕ) :=
  if threshold ≤ i - g then ranges ++ [(blockUp block g, blockDown block i)] else ranges

def note [DecidablePred clear] (s : Scan) : Scan :=
  match s.start with
  | some g =>
    if clear s.next then { s with next := s.next + 1 }
    else ⟨blockDown block s.next + block, none, record block threshold g s.next s.ranges⟩
  | none =>
    if clear s.next then { s with next := s.next + 1, start := some s.next }
    else { s with next := s.next + 1 }

/-- What is recorded when the scan ends at `n`, an unfinished run as it stands. -/
def close (n : ℕ) (s : Scan) : List (ℕ × ℕ) :=
  match s.start with
  | some g => if g = n then s.ranges else s.ranges ++ [(g, n)]
  | none => s.ranges

def ClearFrom (lo hi : ℕ) : Prop := ∀ i, lo ≤ i → i < hi → clear i

def Covers (r : ℕ × ℕ) (lo hi : ℕ) : Prop := r.1 ≤ lo ∧ hi ≤ r.2

instance (r : ℕ × ℕ) (lo hi : ℕ) : Decidable (Covers r lo hi) := inferInstanceAs (Decidable (_ ∧ _))

/-- A run of clear blocks that is long enough to be recorded. -/
structure LongRun (lo hi : ℕ) : Prop where
  lo_dvd : block ∣ lo
  hi_dvd : block ∣ hi
  long : lo + threshold ≤ hi
  clear : ClearFrom clear lo hi

/-- The invariant of a scan. What is recorded is clear and in order, ahead of the run the
scan is in; and a long run the scan has entered is recorded or part of the run it is in. -/
structure Scanned (s : Scan) : Prop where
  sound : ∀ r ∈ s.ranges, r.1 ≤ r.2 ∧ ClearFrom clear r.1 r.2
  ordered : s.ranges.Pairwise fun r r' => r.2 ≤ r'.1
  behind : ∀ r ∈ s.ranges, r.2 ≤ s.start.getD s.next
  inside : ∀ g ∈ s.start, g ≤ s.next ∧ ClearFrom clear g s.next
  complete : ∀ lo hi, LongRun clear block threshold lo hi → lo < s.next →
    (∃ g ∈ s.start, g ≤ lo) ∨ ∃ r ∈ s.ranges, Covers r lo hi

variable {block threshold}

section Blocks

variable (hblock : 0 < block) {i g lo hi : ℕ}

include hblock

theorem le_blockUp : i ≤ blockUp block i := by
  have hmod := Nat.mod_lt (i + block - 1) hblock
  have hdiv := Nat.div_add_mod (i + block - 1) block
  rw [blockUp, Nat.mul_comm]
  omega

theorem blockUp_lt : blockUp block i < i + block := by
  have hle : blockUp block i ≤ i + block - 1 := Nat.div_mul_le_self _ _
  omega

theorem blockUp_le (hdvd : block ∣ lo) (h : i ≤ lo) : blockUp block i ≤ lo := by
  obtain ⟨k, rfl⟩ := hdvd
  rw [blockUp, Nat.mul_comm block k]
  refine Nat.mul_le_mul_right block (Nat.le_of_lt_succ ?_)
  rw [Nat.div_lt_iff_lt_mul hblock, Nat.succ_mul, Nat.mul_comm k block]
  omega

theorem lt_blockDown_add : i < blockDown block i + block := by
  have hmod := Nat.mod_lt i hblock
  have hdiv := Nat.div_add_mod' i block
  rw [blockDown]
  omega

omit hblock in
theorem blockDown_le : blockDown block i ≤ i := Nat.div_mul_le_self i block

theorem le_blockDown (hdvd : block ∣ hi) (h : hi ≤ i) : hi ≤ blockDown block i := by
  obtain ⟨k, rfl⟩ := hdvd
  rw [blockDown, Nat.mul_comm block k]
  refine Nat.mul_le_mul_right block ?_
  rw [Nat.le_div_iff_mul_le hblock, Nat.mul_comm]
  exact h

theorem blockDown_add_le (hdvd : block ∣ lo) (h : i < lo) : blockDown block i + block ≤ lo := by
  obtain ⟨k, rfl⟩ := hdvd
  rw [blockDown, ← Nat.succ_mul, Nat.mul_comm block k]
  refine Nat.mul_le_mul_right block ?_
  rw [Nat.succ_le_iff, Nat.div_lt_iff_lt_mul hblock, Nat.mul_comm]
  exact h

end Blocks

variable {clear} {s : Scan} {g lo hi n : ℕ} {r : ℕ × ℕ} {ranges : List (ℕ × ℕ)}

theorem ClearFrom.snoc (h : ClearFrom clear g n) (hn : clear n) : ClearFrom clear g (n + 1) := by
  intro i hlow hhigh
  rcases Nat.lt_succ_iff_lt_or_eq.mp hhigh with hlt | rfl
  · exact h i hlow hlt
  · exact hn

theorem LongRun.le_of_not_clear (h : LongRun clear block threshold lo hi) (hn : ¬ clear n)
    (hlt : lo ≤ n) : hi ≤ n :=
  Nat.not_lt.mp fun hinside => hn (h.clear n hlt hinside)

section Record

variable (hblock : 0 < block)

include hblock

theorem record_sound (hthreshold : 2 * block ≤ threshold) (hinside : ClearFrom clear g n)
    (h : ∀ r ∈ ranges, r.1 ≤ r.2 ∧ ClearFrom clear r.1 r.2) :
    ∀ r ∈ record block threshold g n ranges, r.1 ≤ r.2 ∧ ClearFrom clear r.1 r.2 := by
  intro r hr
  rw [record] at hr
  split_ifs at hr with hlong
  · rcases List.mem_append.mp hr with hr | hr
    · exact h r hr
    · rw [List.mem_singleton.mp hr]
      refine ⟨?_, fun i hlow hhigh => hinside i (le_trans (le_blockUp hblock) hlow)
        (lt_of_lt_of_le hhigh blockDown_le)⟩
      have hup := blockUp_lt hblock (i := g)
      have hdown := lt_blockDown_add hblock (i := n)
      dsimp only
      omega
  · exact h r hr

theorem record_ordered (hbehind : ∀ r ∈ ranges, r.2 ≤ g)
    (h : ranges.Pairwise fun r r' => r.2 ≤ r'.1) :
    (record block threshold g n ranges).Pairwise fun r r' => r.2 ≤ r'.1 := by
  rw [record]
  split_ifs
  · refine List.pairwise_append.mpr ⟨h, List.pairwise_singleton _ _, fun r hr r' hr' => ?_⟩
    rw [List.mem_singleton.mp hr']
    exact (hbehind r hr).trans (le_blockUp hblock)
  · exact h

omit hblock in
theorem record_behind (hbehind : ∀ r ∈ ranges, r.2 ≤ g) (hg : g ≤ n) :
    ∀ r ∈ record block threshold g n ranges, r.2 ≤ n := by
  intro r hr
  rw [record] at hr
  split_ifs at hr
  · rcases List.mem_append.mp hr with hr | hr
    · exact (hbehind r hr).trans hg
    · rw [List.mem_singleton.mp hr]
      exact blockDown_le
  · exact (hbehind r hr).trans hg

omit hblock in
theorem subset_record (hr : r ∈ ranges) : r ∈ record block threshold g n ranges := by
  rw [record]
  split_ifs
  · exact List.mem_append_left _ hr
  · exact hr

theorem record_covers (h : LongRun clear block threshold lo hi) (hg : g ≤ lo) (hhi : hi ≤ n) :
    ∃ r ∈ record block threshold g n ranges, Covers r lo hi := by
  have hlong := h.long
  refine ⟨(blockUp block g, blockDown block n), ?_, blockUp_le hblock h.lo_dvd hg,
    le_blockDown hblock h.hi_dvd hhi⟩
  rw [record, if_pos (by omega)]
  exact List.mem_append_right _ (List.mem_singleton_self _)

end Record

theorem scanned_start : Scanned clear block threshold ⟨0, some 0, []⟩ := by
  constructor
  · simp
  · simp
  · simp
  · intro g hg
    obtain rfl := Option.some.inj hg
    exact ⟨le_rfl, fun i hlow hhigh => absurd hlow (Nat.not_le_of_lt hhigh)⟩
  · intro lo hi _ hlt
    exact absurd hlt (Nat.not_lt_zero lo)

theorem Scanned.entered (h : Scanned clear block threshold ⟨n, some g, ranges⟩)
    (hrun : LongRun clear block threshold lo hi) (hlt : lo < n) :
    g ≤ lo ∨ ∃ r ∈ ranges, Covers r lo hi := by
  rcases h.complete lo hi hrun hlt with ⟨g', hg', hle⟩ | hcovers
  · exact .inl (Option.some.inj hg' ▸ hle)
  · exact .inr hcovers

theorem Scanned.extend (h : Scanned clear block threshold ⟨n, some g, ranges⟩) (hn : clear n) :
    Scanned clear block threshold ⟨n + 1, some g, ranges⟩ := by
  obtain ⟨hg, hclear⟩ := h.inside g rfl
  refine ⟨h.sound, h.ordered, h.behind, ?_, ?_⟩
  · intro g' hg'
    obtain rfl := Option.some.inj hg'
    exact ⟨Nat.le_succ_of_le hg, hclear.snoc hn⟩
  · intro lo hi hrun hlt
    rcases Nat.lt_succ_iff_lt_or_eq.mp hlt with hlt | rfl
    · exact h.complete lo hi hrun hlt
    · exact .inl ⟨g, rfl, hg⟩

theorem Scanned.leave (hblock : 0 < block) (hthreshold : 2 * block ≤ threshold)
    (h : Scanned clear block threshold ⟨n, some g, ranges⟩) (hn : ¬ clear n) :
    Scanned clear block threshold
      ⟨blockDown block n + block, none, record block threshold g n ranges⟩ := by
  obtain ⟨hg, hclear⟩ := h.inside g rfl
  refine ⟨record_sound hblock hthreshold hclear h.sound, record_ordered hblock h.behind h.ordered,
    ?_, by simp, ?_⟩
  · intro r hr
    exact (record_behind h.behind hg r hr).trans (lt_blockDown_add hblock).le
  · intro lo hi hrun hlt
    have hlong := hrun.long
    -- The scan jumps to the next block, over no start of a block.
    have hle : lo ≤ n := Nat.not_lt.mp fun hlater =>
      Nat.not_le_of_lt hlt (blockDown_add_le hblock hrun.lo_dvd hlater)
    have hhi := hrun.le_of_not_clear hn hle
    rcases h.entered hrun (by omega) with hgle | ⟨r, hr, hcovers⟩
    · exact .inr (record_covers hblock hrun hgle hhi)
    · exact .inr ⟨r, subset_record hr, hcovers⟩

theorem Scanned.enter (h : Scanned clear block threshold ⟨n, none, ranges⟩) (hn : clear n) :
    Scanned clear block threshold ⟨n + 1, some n, ranges⟩ := by
  refine ⟨h.sound, h.ordered, h.behind, ?_, ?_⟩
  · intro g hg
    obtain rfl := Option.some.inj hg
    refine ⟨Nat.le_succ _, fun i hlow hhigh => ?_⟩
    rwa [Nat.le_antisymm (Nat.lt_succ_iff.mp hhigh) hlow]
  · intro lo hi hrun hlt
    rcases Nat.lt_succ_iff_lt_or_eq.mp hlt with hlt | rfl
    · rcases h.complete lo hi hrun hlt with ⟨g, hg, _⟩ | hcovers
      · cases hg
      · exact .inr hcovers
    · exact .inl ⟨lo, rfl, le_rfl⟩

theorem Scanned.skip (hthreshold : 0 < threshold)
    (h : Scanned clear block threshold ⟨n, none, ranges⟩) (hn : ¬ clear n) :
    Scanned clear block threshold ⟨n + 1, none, ranges⟩ := by
  refine ⟨h.sound, h.ordered, fun r hr => Nat.le_succ_of_le (h.behind r hr), by simp, ?_⟩
  intro lo hi hrun hlt
  have hlong := hrun.long
  have hhi := hrun.le_of_not_clear hn (Nat.lt_succ_iff.mp hlt)
  have hlow : lo < n := by omega
  exact h.complete lo hi hrun hlow

theorem scanned_note [DecidablePred clear] (hblock : 0 < block)
    (hthreshold : 2 * block ≤ threshold) (h : Scanned clear block threshold s) :
    Scanned clear block threshold (note clear block threshold s) := by
  obtain ⟨next, start, ranges⟩ := s
  cases start with
  | some g =>
    dsimp only [note]
    split_ifs with hnext
    · exact h.extend hnext
    · exact h.leave hblock hthreshold hnext
  | none =>
    dsimp only [note]
    split_ifs with hnext
    · exact h.enter hnext
    · exact h.skip (by omega) hnext

structure Recorded (clear : ℕ → Prop) (block threshold n : ℕ) (ranges : List (ℕ × ℕ)) : Prop where
  sound : ∀ r ∈ ranges, r.1 ≤ r.2 ∧ ClearFrom clear r.1 r.2
  ordered : ranges.Pairwise fun r r' => r.2 ≤ r'.1
  inside : ∀ r ∈ ranges, r.2 ≤ n
  complete : ∀ lo hi, LongRun clear block threshold lo hi → hi ≤ n →
    ∃ r ∈ ranges, Covers r lo hi

theorem Scanned.close_some (h : Scanned clear block threshold ⟨n, some g, ranges⟩)
    (hthreshold : 0 < threshold) : Recorded clear block threshold n (ranges ++ [(g, n)]) := by
  obtain ⟨hg, hclear⟩ := h.inside g rfl
  constructor
  · intro r hr
    rcases List.mem_append.mp hr with hr | hr
    · exact h.sound r hr
    · rw [List.mem_singleton.mp hr]
      exact ⟨hg, hclear⟩
  · refine List.pairwise_append.mpr
      ⟨h.ordered, List.pairwise_singleton _ _, fun r hr r' hr' => ?_⟩
    rw [List.mem_singleton.mp hr']
    exact h.behind r hr
  · intro r hr
    rcases List.mem_append.mp hr with hr | hr
    · exact (h.behind r hr).trans hg
    · rw [List.mem_singleton.mp hr]
  · intro lo hi hrun hhi
    have hlong := hrun.long
    rcases h.entered hrun (by omega) with hgle | ⟨r, hr, hcovers⟩
    · exact ⟨(g, n), List.mem_append_right _ (List.mem_singleton_self _), hgle, hhi⟩
    · exact ⟨r, List.mem_append_left _ hr, hcovers⟩

theorem Scanned.close (h : Scanned clear block threshold s) (hthreshold : 0 < threshold) :
    Recorded clear block threshold s.next (close s.next s) := by
  obtain ⟨next, start, ranges⟩ := s
  cases start with
  | none =>
    refine ⟨h.sound, h.ordered, h.behind, fun lo hi hrun hhi => ?_⟩
    have hlong := hrun.long
    dsimp only at hhi
    have hlow : lo < next := by omega
    rcases h.complete lo hi hrun hlow with ⟨g, hg, _⟩ | hcovers
    · cases hg
    · exact hcovers
  | some g =>
    dsimp only [RunScan.close]
    split_ifs with hend
    · refine ⟨h.sound, h.ordered, fun r hr => (h.behind r hr).trans (h.inside g rfl).1,
        fun lo hi hrun hhi => ?_⟩
      have hlong := hrun.long
      rcases h.entered hrun (by omega) with hgle | hcovers
      · omega
      · exact hcovers
    · exact h.close_some hthreshold

/-- A part of a long run lies in exactly one of the runs recorded. -/
theorem Recorded.countP_covers (h : Recorded clear block threshold n ranges)
    (hrun : LongRun clear block threshold lo hi) (hhi : hi ≤ n) {a b : ℕ} (hlo : lo ≤ a)
    (hab : a < b) (hb : b ≤ hi) : ranges.countP (fun r => Covers r a b) = 1 := by
  obtain ⟨r, hr, hlow, hhigh⟩ := h.complete lo hi hrun hhi
  have hcovers : decide (Covers r a b) = true :=
    decide_eq_true ⟨hlow.trans hlo, hb.trans hhigh⟩
  obtain ⟨before, after, rfl⟩ := List.append_of_mem hr
  obtain ⟨_, hrest, hcross⟩ := List.pairwise_append.mp h.ordered
  have hbefore : before.countP (fun r => Covers r a b) = 0 := by
    rw [List.countP_eq_zero]
    rintro r' hr' hcovers'
    obtain ⟨_, hhigh'⟩ := of_decide_eq_true hcovers'
    have := hcross r' hr' r List.mem_cons_self
    omega
  have hafter : after.countP (fun r => Covers r a b) = 0 := by
    rw [List.countP_eq_zero]
    rintro r' hr' hcovers'
    obtain ⟨hlow', _⟩ := of_decide_eq_true hcovers'
    have := (List.pairwise_cons.mp hrest).1 r' hr'
    omega
  rw [List.countP_append, List.countP_cons, hbefore, hafter, if_pos hcovers]

end MemoryMappingModule.RunScan
