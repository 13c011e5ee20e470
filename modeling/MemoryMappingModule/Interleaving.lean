import Mathlib

/-! Parties that take turns in any order. Each party's step is a partial function of the
common state. An invariant that every step keeps holds wherever the parties get to; a measure
that every step lowers bounds their runs, which then end only where no party can go on. -/

namespace MemoryMappingModule.Interleaving

variable {ι σ : Type*} (step : ι → σ → Option σ)

def Step (s s' : σ) : Prop := ∃ i, step i s = some s'

abbrev Reaches : σ → σ → Prop := Relation.ReflTransGen (Step step)

def Stuck (s : σ) : Prop := ∀ i, step i s = none

/-- Whatever order the parties take their steps in, they come to an end, and there `Q` holds. -/
structure Ends (s : σ) (Q : σ → Prop) : Prop where
  finite : ∀ f : ℕ → σ, f 0 = s → ¬ ∀ k, Step step (f k) (f (k + 1))
  result : ∀ s', Reaches step s s' → Stuck step s' → Q s'

variable {step} {s s' : σ} {I : σ → Prop}

theorem Reaches.invariant (hkeeps : ∀ i s s', I s → step i s = some s' → I s') (hs : I s)
    (h : Reaches step s s') : I s' := by
  induction h with
  | refl => exact hs
  | tail _ hlast ih =>
    obtain ⟨i, hi⟩ := hlast
    exact hkeeps i _ _ ih hi

theorem stuck_iff : Stuck step s ↔ ¬ ∃ s', Step step s s' := by
  constructor
  · rintro hstuck ⟨s', i, hi⟩
    rw [hstuck i] at hi
    cases hi
  · intro hnone i
    by_contra hsome
    obtain ⟨s', hs'⟩ := Option.ne_none_iff_exists'.mp hsome
    exact hnone ⟨s', i, hs'⟩

theorem Ends.exists_stuck {Q : σ → Prop} (h : Ends step s Q) :
    ∃ s', Reaches step s s' ∧ Stuck step s' := by
  by_contra hnone
  have hgoes (u : {u // Reaches step s u}) : ∃ v : {u // Reaches step s u}, Step step u v := by
    obtain ⟨v, hv⟩ := not_not.mp fun h => hnone ⟨u, u.2, stuck_iff.mpr h⟩
    exact ⟨⟨v, u.2.tail hv⟩, hv⟩
  choose next hnext using hgoes
  refine h.finite (fun k => (next^[k] ⟨s, .refl⟩).1) rfl fun k => ?_
  rw [Function.iterate_succ_apply']
  exact hnext _

section Measure

variable (μ : σ → ℕ) (hkeeps : ∀ i s s', I s → step i s = some s' → I s')
  (hlowers : ∀ i s s', I s → step i s = some s' → μ s' < μ s)
include hkeeps hlowers

theorem no_infinite_run (hs : I s) (f : ℕ → σ) (hstart : f 0 = s) :
    ¬ ∀ k, Step step (f k) (f (k + 1)) := by
  intro hrun
  have hall (k : ℕ) : I (f k) := by
    induction k with
    | zero => exact hstart ▸ hs
    | succ k ih =>
      obtain ⟨i, hi⟩ := hrun k
      exact hkeeps i _ _ ih hi
  have hbound (k : ℕ) : μ (f k) + k ≤ μ (f 0) := by
    induction k with
    | zero => exact Nat.le_refl _
    | succ k ih =>
      obtain ⟨i, hi⟩ := hrun k
      have hlow := hlowers i _ _ (hall k) hi
      omega
  have hlong := hbound (μ (f 0) + 1)
  omega

/-- The rule for runs that end: an invariant, a measure, and what holds of the invariant's states
in which no party can go on. -/
theorem ends_of_invariant {Q : σ → Prop} (hs : I s) (hlast : ∀ s, I s → Stuck step s → Q s) :
    Ends step s Q :=
  ⟨no_infinite_run μ hkeeps hlowers hs,
    fun s' hreach hstuck => hlast s' (Reaches.invariant hkeeps hs hreach) hstuck⟩

end Measure

end MemoryMappingModule.Interleaving
