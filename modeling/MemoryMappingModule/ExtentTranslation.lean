import Mathlib

/-! Translation between windows of addresses and the scattered extents that back
them. The extents of a window are laid end to end from its base, so a window
address is an offset into their concatenation. Both directions are searches over
finite lists; on disjoint windows and disjoint extents they are the two halves
of one partial bijection. -/

namespace MemoryMappingModule.ExtentTranslation

structure Extent where
  base : ℕ
  size : ℕ
deriving DecidableEq, Repr

def Extent.Contains (x : Extent) (p : ℕ) : Prop := x.base ≤ p ∧ p < x.base + x.size

instance (x : Extent) (p : ℕ) : Decidable (x.Contains p) := inferInstanceAs (Decidable (_ ∧ _))

def total (xs : List Extent) : ℕ := (xs.map Extent.size).sum

@[simp] theorem total_nil : total [] = 0 := rfl

@[simp] theorem total_cons (x : Extent) (xs : List Extent) :
    total (x :: xs) = x.size + total xs := rfl

/-- The address at an offset into the concatenated extents. -/
def address : List Extent → ℕ → Option ℕ
  | [], _ => none
  | x :: xs, o => if o < x.size then some (x.base + o) else address xs (o - x.size)

/-- The offset of an address in the concatenated extents, by the first extent that holds it. -/
def offset : List Extent → ℕ → Option ℕ
  | [], _ => none
  | x :: xs, p => if x.Contains p then some (p - x.base) else (offset xs p).map (x.size + ·)

theorem address_isSome_iff (xs : List Extent) (o : ℕ) :
    (address xs o).isSome ↔ o < total xs := by
  induction xs generalizing o with
  | nil => simp [address]
  | cons x xs ih =>
    rw [address, total_cons]
    split_ifs with h
    · simp only [Option.isSome_some, true_iff]
      omega
    · rw [ih]
      omega

theorem offset_isSome_iff (xs : List Extent) (p : ℕ) :
    (offset xs p).isSome ↔ ∃ x ∈ xs, x.Contains p := by
  induction xs with
  | nil => simp [offset]
  | cons x xs ih =>
    rw [offset]
    split_ifs with h
    · simp [h]
    · simp [h, ih]

theorem address_contains {xs : List Extent} {o p : ℕ} (h : address xs o = some p) :
    ∃ x ∈ xs, x.Contains p := by
  induction xs generalizing o with
  | nil => simp [address] at h
  | cons x xs ih =>
    rw [address] at h
    split_ifs at h with ho
    · obtain rfl := Option.some.inj h
      exact ⟨x, by simp, by simp only [Extent.Contains]; omega⟩
    · obtain ⟨y, hy, hp⟩ := ih h
      exact ⟨y, by simp [hy], hp⟩

theorem address_of_offset {xs : List Extent} {o p : ℕ} (h : offset xs p = some o) :
    address xs o = some p := by
  induction xs generalizing o with
  | nil => simp [offset] at h
  | cons x xs ih =>
    rw [offset] at h
    split_ifs at h with hp
    · obtain rfl := Option.some.inj h
      simp only [Extent.Contains] at hp
      rw [address, if_pos (by omega)]
      congr 1
      omega
    · obtain ⟨o', ho', rfl⟩ := Option.map_eq_some_iff.mp h
      rw [address, if_neg (by omega), Nat.add_sub_cancel_left]
      exact ih ho'

def DisjointExtents (xs : List Extent) : Prop :=
  xs.Pairwise fun x y => ∀ p, ¬ (x.Contains p ∧ y.Contains p)

theorem offset_of_address {xs : List Extent} (hdisjoint : DisjointExtents xs) {o p : ℕ}
    (h : address xs o = some p) : offset xs p = some o := by
  induction xs generalizing o with
  | nil => simp [address] at h
  | cons x xs ih =>
    obtain ⟨hx, hxs⟩ := List.pairwise_cons.mp hdisjoint
    rw [address] at h
    split_ifs at h with ho
    · obtain rfl := Option.some.inj h
      rw [offset, if_pos (by simp only [Extent.Contains]; omega), Nat.add_sub_cancel_left]
    · obtain ⟨y, hy, hp⟩ := address_contains h
      rw [offset, if_neg fun hxp => hx y hy p ⟨hxp, hp⟩, ih hxs h]
      simp only [Option.map_some, Option.some.injEq]
      omega

structure Window where
  base : ℕ
  extents : List Extent

def Window.Contains (v : Window) (a : ℕ) : Prop :=
  v.base ≤ a ∧ a < v.base + total v.extents

instance (v : Window) (a : ℕ) : Decidable (v.Contains a) := inferInstanceAs (Decidable (_ ∧ _))

def forward : List Window → ℕ → Option ℕ
  | [], _ => none
  | v :: vs, a => if v.Contains a then address v.extents (a - v.base) else forward vs a

def backward : List Window → ℕ → Option ℕ
  | [], _ => none
  | v :: vs, p =>
    match offset v.extents p with
    | some o => some (v.base + o)
    | none => backward vs p

def DisjointWindows (vs : List Window) : Prop :=
  vs.Pairwise fun v w => ∀ a, ¬ (v.Contains a ∧ w.Contains a)

theorem forward_of_contains {v : Window} {vs : List Window} (hdisjoint : DisjointWindows vs)
    (hv : v ∈ vs) {a : ℕ} (ha : v.Contains a) : forward vs a = address v.extents (a - v.base) := by
  induction vs with
  | nil => simp at hv
  | cons w vs ih =>
    obtain ⟨hw, hvs⟩ := List.pairwise_cons.mp hdisjoint
    rw [forward]
    rcases List.mem_cons.mp hv with rfl | hv
    · rw [if_pos ha]
    · rw [if_neg fun hwa => hw v hv a ⟨hwa, ha⟩, ih hvs hv]

theorem forward_isSome_iff (vs : List Window) (a : ℕ) :
    (forward vs a).isSome ↔ ∃ v ∈ vs, v.Contains a := by
  induction vs with
  | nil => simp [forward]
  | cons v vs ih =>
    rw [forward]
    split_ifs with h
    · have inside : a - v.base < total v.extents := by
        simp only [Window.Contains] at h
        omega
      simp [h, address_isSome_iff, inside]
    · simp [h, ih]

theorem forward_eq_some {vs : List Window} {a p : ℕ} (h : forward vs a = some p) :
    ∃ v ∈ vs, v.Contains a ∧ address v.extents (a - v.base) = some p := by
  induction vs with
  | nil => simp [forward] at h
  | cons v vs ih =>
    rw [forward] at h
    split_ifs at h with hv
    · exact ⟨v, by simp, hv, h⟩
    · obtain ⟨w, hw, rest⟩ := ih h
      exact ⟨w, by simp [hw], rest⟩

theorem backward_isSome_iff (vs : List Window) (p : ℕ) :
    (backward vs p).isSome ↔ ∃ x ∈ vs.flatMap Window.extents, x.Contains p := by
  induction vs with
  | nil => simp [backward]
  | cons v vs ih =>
    have here := offset_isSome_iff v.extents p
    rw [backward]
    cases h : offset v.extents p with
    | some o =>
      simp only [h, Option.isSome_some, true_iff] at here
      obtain ⟨x, hx, hp⟩ := here
      simp only [Option.isSome_some, true_iff]
      exact ⟨x, by simp [hx], hp⟩
    | none =>
      simp only [h, Option.isSome_none, Bool.false_eq_true, false_iff, not_exists,
        not_and] at here
      rw [ih]
      simp only [List.flatMap_cons, List.mem_append]
      constructor
      · rintro ⟨x, hx, hp⟩
        exact ⟨x, Or.inr hx, hp⟩
      · rintro ⟨x, hx | hx, hp⟩
        · exact absurd hp (here x hx)
        · exact ⟨x, hx, hp⟩

theorem backward_eq_some {vs : List Window} {a p : ℕ} (h : backward vs p = some a) :
    ∃ v ∈ vs, v.Contains a ∧ address v.extents (a - v.base) = some p := by
  induction vs with
  | nil => simp [backward] at h
  | cons v vs ih =>
    rw [backward] at h
    cases ho : offset v.extents p with
    | some o =>
      rw [ho] at h
      obtain rfl := Option.some.inj h
      have haddress := address_of_offset ho
      have hlt := (address_isSome_iff v.extents o).mp (by simp [haddress])
      refine ⟨v, by simp, ?_, ?_⟩
      · simp only [Window.Contains]
        omega
      · rw [Nat.add_sub_cancel_left, haddress]
    | none =>
      rw [ho] at h
      obtain ⟨w, hw, rest⟩ := ih h
      exact ⟨w, by simp [hw], rest⟩

theorem forward_of_backward {vs : List Window} (hdisjoint : DisjointWindows vs) {a p : ℕ}
    (h : backward vs p = some a) : forward vs a = some p := by
  obtain ⟨v, hv, ha, haddress⟩ := backward_eq_some h
  rw [forward_of_contains hdisjoint hv ha, haddress]

theorem backward_of_forward {vs : List Window}
    (hdisjoint : DisjointExtents (vs.flatMap Window.extents)) {a p : ℕ}
    (h : forward vs a = some p) : backward vs p = some a := by
  induction vs with
  | nil => simp [forward] at h
  | cons v vs ih =>
    rw [List.flatMap_cons] at hdisjoint
    obtain ⟨hv, hvs, hcross⟩ := List.pairwise_append.mp hdisjoint
    rw [forward] at h
    rw [backward]
    split_ifs at h with ha
    · rw [offset_of_address hv h]
      simp only [Window.Contains] at ha
      simp only [Option.some.injEq]
      omega
    · -- the extent that backs `a` belongs to a later window, so no extent of `v` holds `p`
      obtain ⟨w, hw, _, haddress⟩ := forward_eq_some h
      obtain ⟨y, hy, hp⟩ := address_contains haddress
      have hmem : y ∈ vs.flatMap Window.extents := List.mem_flatMap.mpr ⟨w, hw, hy⟩
      have absent : offset v.extents p = none := by
        rw [← Option.not_isSome_iff_eq_none, offset_isSome_iff]
        rintro ⟨x, hx, hxp⟩
        exact hcross x hx y hmem p ⟨hxp, hp⟩
      rw [absent]
      exact ih hvs h

structure Layout where
  windows : List Window
  windows_disjoint : DisjointWindows windows
  extents_disjoint : DisjointExtents (windows.flatMap Window.extents)

/-- A layout is a partial bijection between window addresses and extent addresses. -/
def Layout.translation (L : Layout) : ℕ ≃. ℕ where
  toFun := forward L.windows
  invFun := backward L.windows
  inv a p := by
    constructor
    · exact forward_of_backward L.windows_disjoint
    · exact backward_of_forward L.extents_disjoint

section Coverage

def Covered (xs : List Extent) (p : ℕ) : Prop := ∃ x ∈ xs, x.Contains p

instance (xs : List Extent) (p : ℕ) : Decidable (Covered xs p) :=
  inferInstanceAs (Decidable (∃ x ∈ xs, _))

def Separated (xs : List Extent) : Prop := ∀ x ∈ xs, ¬ Covered xs (x.base + x.size)

variable {xs : List Extent} {x : Extent} {a modulus : ℕ}

/-- A range of addresses in wrapping arithmetic that starts in an extent is covered
exactly when it ends in the same extent. -/
theorem covered_range_iff (hseparated : Separated xs)
    (hfits : ∀ y ∈ xs, y.base + y.size < modulus) (hx : x ∈ xs) (ha : x.Contains a) (n : ℕ) :
    (∀ k < n, Covered xs ((a + k) % modulus)) ↔ a + n ≤ x.base + x.size := by
  have hlt := hfits x hx
  obtain ⟨hbase, hstop⟩ := ha
  constructor
  · intro hcovered
    by_contra beyond
    have hgap := hcovered (x.base + x.size - a) (by omega)
    rw [Nat.add_sub_cancel' (by omega), Nat.mod_eq_of_lt hlt] at hgap
    exact hseparated x hx hgap
  · intro hle k hk
    rw [Nat.mod_eq_of_lt (by omega)]
    exact ⟨x, hx, by omega, by omega⟩

def EndsInside (xs : List Extent) (a n : ℕ) : Prop :=
  ∀ x ∈ xs, x.Contains a → a + n ≤ x.base + x.size

/-- A check of the first address alone admits only covered ranges exactly when every
admitted range ends in the extent it starts in. -/
theorem covered_of_start_iff (hseparated : Separated xs)
    (hfits : ∀ y ∈ xs, y.base + y.size < modulus) (n : ℕ) :
    (Covered xs a → ∀ k < n, Covered xs ((a + k) % modulus)) ↔ EndsInside xs a n := by
  constructor
  · intro hall y hy ha
    exact (covered_range_iff hseparated hfits hy ha n).mp (hall ⟨y, hy, ha⟩)
  · rintro hends ⟨y, hy, ha⟩
    exact (covered_range_iff hseparated hfits hy ha n).mpr (hends y hy ha)

theorem covered_range_iff_exists (hseparated : Separated xs)
    (hfits : ∀ y ∈ xs, y.base + y.size < modulus) {n : ℕ} (hpos : 0 < n) (ha : a < modulus) :
    (∀ k < n, Covered xs ((a + k) % modulus)) ↔
      ∃ x ∈ xs, x.Contains a ∧ a + n ≤ x.base + x.size := by
  constructor
  · intro hcovered
    obtain ⟨x, hx, hxa⟩ := hcovered 0 hpos
    rw [Nat.add_zero, Nat.mod_eq_of_lt ha] at hxa
    exact ⟨x, hx, hxa, (covered_range_iff hseparated hfits hx hxa n).mp hcovered⟩
  · rintro ⟨x, hx, hxa, hle⟩
    exact (covered_range_iff hseparated hfits hx hxa n).mpr hle

end Coverage

section Paging

def pages (size : ℕ) : ℕ → List Extent → List (ℕ × ℕ)
  | _, [] => []
  | base, x :: xs =>
    (List.range (x.size / size)).map (fun k => (base + k * size, x.base + k * size)) ++
      pages size (base + x.size) xs

variable {size base : ℕ} {xs : List Extent}

theorem page_lt {k n : ℕ} (h : k < n / size) : k * size + size ≤ n := by
  have hk : (k + 1) * size ≤ n / size * size := Nat.mul_le_mul_right size h
  have hn := Nat.div_mul_le_self n size
  rw [Nat.add_mul, Nat.one_mul] at hk
  omega

theorem mem_pages (hpos : 0 < size) (hsizes : ∀ x ∈ xs, size ∣ x.size) {a p : ℕ}
    (h : (a, p) ∈ pages size base xs) :
    base ≤ a ∧ size ∣ a - base ∧ address xs (a - base) = some p := by
  induction xs generalizing base with
  | nil => simp [pages] at h
  | cons x xs ih =>
    rw [pages] at h
    rcases List.mem_append.mp h with h | h
    · obtain ⟨k, hk, heq⟩ := List.mem_map.mp h
      obtain ⟨rfl, rfl⟩ := Prod.mk.inj heq
      have hlt := page_lt (List.mem_range.mp hk)
      rw [Nat.add_sub_cancel_left, address, if_pos (by omega)]
      exact ⟨Nat.le_add_right _ _, Nat.dvd_mul_left _ _, rfl⟩
    · obtain ⟨hle, hdvd, haddress⟩ := ih (fun y hy => hsizes y (List.mem_cons_of_mem _ hy)) h
      have split : a - base = x.size + (a - (base + x.size)) := by omega
      refine ⟨by omega, ?_, ?_⟩
      · rw [split]
        exact Nat.dvd_add (hsizes x (by simp)) hdvd
      · rw [address, if_neg (by omega), split, Nat.add_sub_cancel_left, haddress]

theorem page_mem (base : ℕ) (hsizes : ∀ x ∈ xs, size ∣ x.size) {o p : ℕ}
    (h : address xs o = some p) :
    o % size ≤ p ∧ (base + (o - o % size), p - o % size) ∈ pages size base xs := by
  induction xs generalizing base o with
  | nil => simp [address] at h
  | cons x xs ih =>
    rw [address] at h
    rw [pages]
    have hmod := Nat.mod_le o size
    have hsize := hsizes x (by simp)
    split_ifs at h with ho
    · obtain rfl := Option.some.inj h
      refine ⟨by omega, List.mem_append_left _ (List.mem_map.mpr ⟨o / size, ?_, ?_⟩)⟩
      · exact List.mem_range.mpr (Nat.div_lt_div_of_lt_of_dvd hsize ho)
      · have hdiv := Nat.div_add_mod o size
        rw [Nat.mul_comm] at hdiv
        exact Prod.ext (by dsimp only; omega) (by dsimp only; omega)
    · have hrest := ih (base + x.size)
        (fun y hy => hsizes y (List.mem_cons_of_mem _ hy)) h
      have same : (o - x.size) % size = o % size :=
        (Nat.modEq_iff_dvd' (by omega)).mpr (by rwa [Nat.sub_sub_self (by omega)])
      rw [same] at hrest
      have hle : o % size ≤ o - x.size := same ▸ Nat.mod_le _ _
      have shift : base + x.size + (o - x.size - o % size) = base + (o - o % size) := by omega
      rw [shift] at hrest
      exact ⟨hrest.1, List.mem_append_right _ hrest.2⟩

theorem pages_increasing (hpos : 0 < size) (hsizes : ∀ x ∈ xs, size ∣ x.size) :
    (pages size base xs).Pairwise fun p q => p.1 < q.1 := by
  induction xs generalizing base with
  | nil => exact List.Pairwise.nil
  | cons x xs ih =>
    have htail : ∀ y ∈ xs, size ∣ y.size := fun y hy => hsizes y (List.mem_cons_of_mem _ hy)
    refine List.pairwise_append.mpr ⟨?_, ih htail, ?_⟩
    · refine List.pairwise_map.mpr (List.pairwise_lt_range.imp fun {j k} hjk => ?_)
      have hmul := Nat.mul_lt_mul_of_pos_right hjk hpos
      dsimp only
      omega
    · intro p hp q hq
      obtain ⟨k, hk, rfl⟩ := List.mem_map.mp hp
      have hlt := page_lt (List.mem_range.mp hk)
      have hle := (mem_pages hpos htail (p := q.2) hq).1
      dsimp only
      omega

theorem pages_backing_dvd (hbases : ∀ x ∈ xs, size ∣ x.base) {q : ℕ × ℕ}
    (h : q ∈ pages size base xs) : size ∣ q.2 := by
  induction xs generalizing base with
  | nil => simp [pages] at h
  | cons x xs ih =>
    rcases List.mem_append.mp h with h | h
    · obtain ⟨k, _, rfl⟩ := List.mem_map.mp h
      exact Nat.dvd_add (hbases x (by simp)) (Nat.dvd_mul_left _ _)
    · exact ih (fun y hy => hbases y (List.mem_cons_of_mem _ hy)) h

end Paging

end MemoryMappingModule.ExtentTranslation
