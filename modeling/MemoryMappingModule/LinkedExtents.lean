import Mathlib

/-! Lists of nodes linked both ways, and nodes that each take an interval. A walk
along the forward links that compares every back link with the node it came from
cannot meet a node twice: the first one met again would need two predecessors.
Intervals that lie inside a range and do not overlap fill it exactly when their
lengths add up to its own. -/

namespace MemoryMappingModule.LinkedExtents

section Links

structure Links (ν α : Type*) where
  address : ν → α
  back : ν → α
  forth : ν → α
  nil : α

variable {ν α : Type*} (L : Links ν α)

/-- The nodes met from `c` on, coming from `p`, up to `c'`, coming from `p'`. -/
def Links.Path : α → α → List ν → α → α → Prop
  | p, c, [], p', c' => p' = p ∧ c' = c
  | p, c, b :: bs, p', c' =>
    L.address b = c ∧ c ≠ L.nil ∧ L.back b = p ∧ Links.Path c (L.forth b) bs p' c'

variable {L} {p c p' c' : α} {b : ν} {bs cs : List ν}

theorem path_append : L.Path p c (bs ++ cs) p' c' ↔
    ∃ q d, L.Path p c bs q d ∧ L.Path q d cs p' c' := by
  induction bs generalizing p c with
  | nil => simp [Links.Path]
  | cons b bs ih =>
    simp only [List.cons_append, Links.Path, ih]
    constructor
    · rintro ⟨haddress, hnil, hback, q, d, hpath, hrest⟩
      exact ⟨q, d, ⟨haddress, hnil, hback, hpath⟩, hrest⟩
    · rintro ⟨q, d, ⟨haddress, hnil, hback, hpath⟩, hrest⟩
      exact ⟨haddress, hnil, hback, q, d, hpath, hrest⟩

theorem path_snoc : L.Path p c (bs ++ [b]) p' c' ↔
    ∃ q d, L.Path p c bs q d ∧ L.address b = d ∧ d ≠ L.nil ∧ L.back b = q ∧ p' = d ∧
      c' = L.forth b :=
  path_append

theorem path_back (h : L.Path p c bs p' c') :
    bs.map L.back ++ [p'] = p :: bs.map L.address := by
  induction bs generalizing p c with
  | nil => simp [h.1]
  | cons b bs ih =>
    obtain ⟨haddress, _, hback, hrest⟩ := h
    rw [List.map_cons, List.map_cons, List.cons_append, ih hrest, hback, haddress]

theorem path_address_ne (h : L.Path p c bs p' c') (hb : b ∈ bs) : L.address b ≠ L.nil := by
  induction bs generalizing p c with
  | nil => simp at hb
  | cons x bs ih =>
    obtain ⟨haddress, hne, _, hrest⟩ := h
    rcases List.mem_cons.mp hb with rfl | hb
    · rw [haddress]
      exact hne
    · exact ih hrest hb

/-- A path from the start of a list meets no node twice. -/
theorem path_nodup (h : L.Path L.nil c bs p' c')
    (unique : ∀ x ∈ bs, ∀ y ∈ bs, L.address x = L.address y → L.back x = L.back y) :
    (bs.map L.address).Nodup := by
  have hback := path_back h
  have first (hlen : 0 < bs.length) : L.back bs[0] = L.nil := by
    have := congrArg (·[0]?) hback
    simpa [hlen] using this
  have next (i : ℕ) (hi : i + 1 < bs.length) : L.back bs[i + 1] = L.address bs[i] := by
    have := congrArg (·[i + 1]?) hback
    simpa [hi, show i < bs.length by omega, List.getElem?_append] using this
  -- The earlier of two equal positions goes down to the first, which nothing precedes.
  have apart (i : ℕ) : ∀ j (hij : i < j) (hj : j < bs.length),
      L.address bs[i] ≠ L.address bs[j] := by
    induction i with
    | zero =>
      intro j hij hj heq
      obtain ⟨j, rfl⟩ : ∃ k, j = k + 1 := ⟨j - 1, by omega⟩
      have hsame := unique _ (List.getElem_mem _) _ (List.getElem_mem _) heq
      rw [first (by omega), next j hj] at hsame
      exact path_address_ne h (List.getElem_mem _) hsame.symm
    | succ i ih =>
      intro j hij hj heq
      obtain ⟨j, rfl⟩ : ∃ k, j = k + 1 := ⟨j - 1, by omega⟩
      have hsame := unique _ (List.getElem_mem _) _ (List.getElem_mem _) heq
      rw [next i (by omega), next j hj] at hsame
      exact ih j (by omega) (by omega) hsame
  rw [List.nodup_iff_pairwise_ne, List.pairwise_iff_getElem]
  intro i j hi hj hij
  rw [List.getElem_map, List.getElem_map]
  exact apart i j hij (by simpa using hj)

theorem path_back_ne (h : L.Path L.nil c bs p' c')
    (unique : ∀ x ∈ bs, ∀ y ∈ bs, L.address x = L.address y → L.back x = L.back y)
    (hb : b ∈ bs) (hc : L.address b = c') : L.back b ≠ p' := by
  intro hback
  have longer : L.Path L.nil c (bs ++ [b]) c' (L.forth b) :=
    path_snoc.mpr ⟨p', c', h, hc, hc ▸ path_address_ne h hb, hback, rfl, rfl⟩
  have hnodup := path_nodup longer (by
    intro x hx y hy
    exact unique x (by simp at hx; grind) y (by simp at hy; grind))
  rw [List.map_append, List.nodup_append] at hnodup
  exact hnodup.2.2 _ (List.mem_map_of_mem hb) _ (by simp) rfl

theorem path_unique {q : α} (hb : L.Path p c bs p' L.nil) (hc : L.Path p c cs q L.nil)
    (same : ∀ x ∈ bs, ∀ y ∈ cs, L.address x = L.address y → x = y) : bs = cs := by
  induction bs generalizing p c cs with
  | nil =>
    cases cs with
    | nil => rfl
    | cons y cs => exact absurd hb.2.symm hc.2.1
  | cons x bs ih =>
    cases cs with
    | nil => exact absurd hc.2.symm hb.2.1
    | cons y cs =>
      obtain rfl := same x (by simp) y (by simp) (hb.1.trans hc.1.symm)
      rw [ih hb.2.2.2 hc.2.2.2 fun x hx y hy => same x (by simp [hx]) y (by simp [hy])]

end Links

section Extents

variable {ν : Type*} (lo hi : ν → ℤ)

/-- The intervals `[lo, hi)` follow one another from `s` to `e`. -/
def Tiles : ℤ → List ν → ℤ → Prop
  | s, [], e => s = e
  | s, b :: bs, e => lo b = s ∧ Tiles (hi b) bs e

variable {lo hi} {s e : ℤ} {bs : List ν}

theorem Tiles.sum (h : Tiles lo hi s bs e) : (bs.map fun b => hi b - lo b).sum = e - s := by
  induction bs generalizing s with
  | nil => simp [show s = e from h]
  | cons b bs ih =>
    obtain ⟨hlo, hrest⟩ := h
    rw [List.map_cons, List.sum_cons, ih hrest, hlo]
    omega

theorem Tiles.inside (h : Tiles lo hi s bs e) (ordered : ∀ b ∈ bs, lo b ≤ hi b) :
    s ≤ e ∧ ∀ b ∈ bs, s ≤ lo b ∧ hi b ≤ e := by
  induction bs generalizing s with
  | nil => exact ⟨le_of_eq h, by simp⟩
  | cons b bs ih =>
    obtain ⟨rfl, hrest⟩ := h
    have hb := ordered b (by simp)
    obtain ⟨hle, hall⟩ := ih hrest fun x hx => ordered x (by simp [hx])
    refine ⟨by omega, fun x hx => ?_⟩
    rcases List.mem_cons.mp hx with rfl | hx
    · exact ⟨le_rfl, hle⟩
    · have := hall x hx
      omega

variable (lo hi) in
noncomputable def taken : List ν → Finset ℤ
  | [] => ∅
  | b :: bs => Finset.Ico (lo b) (hi b) ∪ taken bs

theorem mem_taken {x : ℤ} : x ∈ taken lo hi bs ↔ ∃ b ∈ bs, x ∈ Finset.Ico (lo b) (hi b) := by
  induction bs with
  | nil => simp [taken]
  | cons b bs ih =>
    rw [taken, Finset.mem_union, ih]
    simp

theorem card_taken (ordered : ∀ b ∈ bs, lo b ≤ hi b)
    (disjoint : bs.Pairwise fun b c =>
      Disjoint (Finset.Ico (lo b) (hi b)) (Finset.Ico (lo c) (hi c))) :
    ((taken lo hi bs).card : ℤ) = (bs.map fun b => hi b - lo b).sum := by
  induction bs with
  | nil => rfl
  | cons b bs ih =>
    obtain ⟨hb, hbs⟩ := List.pairwise_cons.mp disjoint
    have apart : Disjoint (Finset.Ico (lo b) (hi b)) (taken lo hi bs) := by
      rw [Finset.disjoint_right]
      intro x hx
      obtain ⟨c, hc, hxc⟩ := mem_taken.mp hx
      exact Finset.disjoint_right.mp (hb c hc) hxc
    have hlen := ordered b (by simp)
    rw [taken, Finset.card_union_of_disjoint apart, Nat.cast_add, Int.card_Ico,
      ih (fun c hc => ordered c (by simp [hc])) hbs, List.map_cons, List.sum_cons]
    omega

section Range

variable (inside : ∀ b ∈ bs, s ≤ lo b ∧ hi b ≤ e) (ordered : ∀ b ∈ bs, lo b ≤ hi b)
  (disjoint : bs.Pairwise fun b c =>
    Disjoint (Finset.Ico (lo b) (hi b)) (Finset.Ico (lo c) (hi c)))

include inside

theorem taken_subset : taken lo hi bs ⊆ Finset.Ico s e := by
  intro x hx
  obtain ⟨b, hb, hxb⟩ := mem_taken.mp hx
  have := inside b hb
  rw [Finset.mem_Ico] at hxb ⊢
  omega

include ordered disjoint

theorem sum_le_range (hle : s ≤ e) : (bs.map fun b => hi b - lo b).sum ≤ e - s := by
  have hcard := Finset.card_le_card (taken_subset inside)
  rw [Int.card_Ico] at hcard
  rw [← card_taken ordered disjoint]
  omega

/-- Intervals that do not overlap and add up to the range they lie in leave no gap. -/
theorem covers_of_sum (total : (bs.map fun b => hi b - lo b).sum = e - s) :
    ∀ x ∈ Finset.Ico s e, ∃ b ∈ bs, x ∈ Finset.Ico (lo b) (hi b) := by
  have hcard := card_taken ordered disjoint
  have hall : taken lo hi bs = Finset.Ico s e := by
    apply Finset.eq_of_subset_of_card_le (taken_subset inside)
    rw [Int.card_Ico]
    omega
  intro x hx
  rw [← hall] at hx
  exact mem_taken.mp hx

end Range

end Extents

end MemoryMappingModule.LinkedExtents
