import Mathlib

/-! Pools of address blocks. A pool owns an area and holds disjoint blocks inside it; a
step adds a block that fits or removes one that is there. When the areas lie apart, every
block of every pool is disjoint from every other. -/

namespace MemoryMappingModule.BlockPools

structure Block where
  start : ℕ
  size : ℕ
  size_pos : 0 < size

namespace Block

def Contains (b : Block) (a : ℕ) : Prop := b.start ≤ a ∧ a < b.start + b.size

def Disjoint (b c : Block) : Prop := ∀ a, ¬ (b.Contains a ∧ c.Contains a)

theorem contains_start (b : Block) : b.Contains b.start :=
  ⟨le_rfl, Nat.lt_add_of_pos_right b.size_pos⟩

theorem Disjoint.symm {b c : Block} (h : b.Disjoint c) : c.Disjoint b :=
  fun a hboth => h a hboth.symm

end Block

structure Area where
  low : ℕ
  high : ℕ

def Area.Contains (x : Area) (a : ℕ) : Prop := x.low ≤ a ∧ a < x.high

def Block.Within (b : Block) (x : Area) : Prop := x.low ≤ b.start ∧ b.start + b.size ≤ x.high

theorem Block.Within.contains {b : Block} {x : Area} (h : b.Within x) {a : ℕ} (ha : b.Contains a) :
    x.Contains a :=
  ⟨h.1.trans ha.1, ha.2.trans_le h.2⟩

variable {ι : Type*} [DecidableEq ι]

abbrev Pools (ι : Type*) := ι → Set Block

def add (P : Pools ι) (i : ι) (b : Block) : Pools ι := Function.update P i (insert b (P i))

def remove (P : Pools ι) (i : ι) (a : ℕ) : Pools ι := Function.update P i {b ∈ P i | b.start ≠ a}

/-- What one operation can do to the pools. -/
inductive Step (area : ι → Area) (P : Pools ι) : Pools ι → Prop
  | keep : Step area P P
  | add {i : ι} {b : Block} (within : b.Within (area i)) (disjoint : ∀ c ∈ P i, b.Disjoint c) :
      Step area P (add P i b)
  | remove {i : ι} {b : Block} (live : b ∈ P i) : Step area P (remove P i b.start)

/-- The pools named by `H` hold disjoint blocks inside their areas. -/
structure Sound (H : Set ι) (area : ι → Area) (P : Pools ι) : Prop where
  within : ∀ i ∈ H, ∀ b ∈ P i, b.Within (area i)
  disjoint : ∀ i ∈ H, ∀ b ∈ P i, ∀ c ∈ P i, b ≠ c → b.Disjoint c

variable {H : Set ι} {area : ι → Area} {P Q : Pools ι}

omit [DecidableEq ι] in
theorem Sound.of_empty (h : ∀ i ∈ H, P i = ∅) : Sound H area P where
  within := fun i hi b hb => by simp [h i hi] at hb
  disjoint := fun i hi b hb => by simp [h i hi] at hb

theorem Sound.add (h : Sound H area P) {i : ι} {b : Block} (within : b.Within (area i))
    (disjoint : ∀ c ∈ P i, b.Disjoint c) : Sound H area (add P i b) where
  within := by
    intro j hj c hc
    by_cases hji : j = i
    · subst hji
      rw [BlockPools.add, Function.update_self] at hc
      rcases hc with rfl | hc
      · exact within
      · exact h.within j hj c hc
    · rw [BlockPools.add, Function.update_of_ne hji] at hc
      exact h.within j hj c hc
  disjoint := by
    intro j hj c hc d hd hne
    by_cases hji : j = i
    · subst hji
      rw [BlockPools.add, Function.update_self] at hc hd
      rcases hc with rfl | hc
      · rcases hd with rfl | hd
        · exact absurd rfl hne
        · exact disjoint d hd
      · rcases hd with rfl | hd
        · exact (disjoint c hc).symm
        · exact h.disjoint j hj c hc d hd hne
    · rw [BlockPools.add, Function.update_of_ne hji] at hc hd
      exact h.disjoint j hj c hc d hd hne

theorem remove_subset (P : Pools ι) (i : ι) (a : ℕ) (j : ι) : remove P i a j ⊆ P j := by
  intro b hb
  by_cases hji : j = i
  · subst hji
    rw [remove, Function.update_self] at hb
    exact hb.1
  · rwa [remove, Function.update_of_ne hji] at hb

theorem Sound.remove (h : Sound H area P) (i : ι) (a : ℕ) : Sound H area (remove P i a) where
  within := fun j hj b hb => h.within j hj b (remove_subset P i a j hb)
  disjoint := fun j hj b hb c hc =>
    h.disjoint j hj b (remove_subset P i a j hb) c (remove_subset P i a j hc)

theorem Sound.step (h : Sound H area P) (hstep : Step area P Q) : Sound H area Q := by
  cases hstep with
  | keep => exact h
  | add within disjoint => exact h.add within disjoint
  | remove _ => exact h.remove _ _

omit [DecidableEq ι] in
theorem Sound.eq_of_contains (h : Sound H area P) {i : ι} (hi : i ∈ H) {b c : Block} (hb : b ∈ P i)
    (hc : c ∈ P i) {a : ℕ} (hba : b.Contains a) (hca : c.Contains a) : b = c := by
  by_contra hne
  exact h.disjoint i hi b hb c hc hne a ⟨hba, hca⟩

theorem Sound.remove_eq (h : Sound H area P) {i : ι} (hi : i ∈ H) {b : Block} (hb : b ∈ P i) :
    BlockPools.remove P i b.start = Function.update P i (P i \ {b}) := by
  rw [BlockPools.remove]
  congr 1
  ext c
  simp only [Set.mem_ofPred_eq, Set.mem_sdiff, Set.mem_singleton_iff]
  refine and_congr_right fun hc => not_congr ⟨fun hstart => ?_, fun heq => by rw [heq]⟩
  exact h.eq_of_contains hi hc hb (hstart ▸ c.contains_start) b.contains_start

omit [DecidableEq ι] in
/-- Blocks of pools whose areas share no address are disjoint. -/
theorem Sound.disjoint_all (h : Sound H area P)
    (apart : ∀ i ∈ H, ∀ j ∈ H, ∀ a, (area i).Contains a → (area j).Contains a → i = j)
    {i j : ι} (hi : i ∈ H) (hj : j ∈ H) {b c : Block} (hb : b ∈ P i) (hc : c ∈ P j)
    (hne : (i, b) ≠ (j, c)) : b.Disjoint c := by
  rintro a ⟨hba, hca⟩
  obtain rfl := apart i hi j hj a ((h.within i hi b hb).contains hba)
    ((h.within j hj c hc).contains hca)
  exact hne (by rw [h.eq_of_contains hi hb hc hba hca])

end MemoryMappingModule.BlockPools
