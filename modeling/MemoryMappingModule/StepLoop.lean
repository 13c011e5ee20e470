import Mathlib

/-! Loops as repeated passes. A pass reads a state and goes on with a new state,
leaves the loop with a result, or faults. `run` gives a loop a number of passes and
has no answer when they do not suffice; `Trace` lists the states a loop goes through.
A loop ends exactly when its traces are bounded, and it goes on for ever as soon as
an invariant keeps it from leaving. -/

namespace MemoryMappingModule.StepLoop

variable {σ ρ ε : Type*}

/-- The loop over `step` from a state, in at most `n` passes. -/
def run (step : σ → Except ε (σ ⊕ ρ)) : ℕ → σ → Option (Except ε ρ)
  | 0, _ => none
  | n + 1, s =>
    match step s with
    | .error e => some (.error e)
    | .ok (.inr r) => some (.ok r)
    | .ok (.inl s') => run step n s'

/-- The passes from `s` to `s'` go through the states listed, `s'` itself not among them. -/
def Trace (step : σ → Except ε (σ ⊕ ρ)) : σ → List σ → σ → Prop
  | s, [], s' => s = s'
  | s, x :: xs, s' => s = x ∧ ∃ u, step s = .ok (.inl u) ∧ Trace step u xs s'

variable {step : σ → Except ε (σ ⊕ ρ)} {s s' u : σ} {xs ys : List σ} {n m : ℕ}
  {r : ρ} {e : ε} {a : Except ε ρ}

section Passes

theorem run_again (h : step s = .ok (.inl u)) : run step (n + 1) s = run step n u := by
  rw [run, h]

theorem run_done (h : step s = .ok (.inr r)) : run step (n + 1) s = some (.ok r) := by
  rw [run, h]

theorem run_fault (h : step s = .error e) : run step (n + 1) s = some (.error e) := by
  rw [run, h]

theorem run_mono (h : run step n s = some a) (hle : n ≤ m) : run step m s = some a := by
  induction n generalizing s m with
  | zero => simp [run] at h
  | succ n ih =>
    obtain ⟨m, rfl⟩ : ∃ k, m = k + 1 := ⟨m - 1, by omega⟩
    rw [run] at h ⊢
    split <;> rename_i hpass <;> rw [hpass] at h
    · exact h
    · exact h
    · exact ih h (by omega)

theorem eventually_run (h : run step n s = some a) :
    ∀ᶠ m in Filter.atTop, run step m s = some a := by
  filter_upwards [Filter.eventually_ge_atTop n] with m hm
  exact run_mono h hm

end Passes

section Traces

theorem trace_append :
    Trace step s (xs ++ ys) s' ↔ ∃ u, Trace step s xs u ∧ Trace step u ys s' := by
  induction xs generalizing s with
  | nil => simp [Trace]
  | cons x xs ih =>
    simp only [List.cons_append, Trace, ih]
    constructor
    · rintro ⟨hx, u, hu, v, hv, hs'⟩
      exact ⟨v, ⟨hx, u, hu, hv⟩, hs'⟩
    · rintro ⟨v, ⟨hx, u, hu, hv⟩, hs'⟩
      exact ⟨hx, u, hu, v, hv, hs'⟩

theorem trace_singleton : Trace step s [u] s' ↔ s = u ∧ step s = .ok (.inl s') := by
  simp [Trace]

theorem Trace.snoc (h : Trace step s xs u) (hu : step u = .ok (.inl s')) :
    Trace step s (xs ++ [u]) s' :=
  trace_append.mpr ⟨u, h, trace_singleton.mpr ⟨rfl, hu⟩⟩

theorem run_of_trace (h : Trace step s xs s') : run step (xs.length + n) s = run step n s' := by
  induction xs generalizing s with
  | nil => rw [show s = s' from h, List.length_nil, Nat.zero_add]
  | cons x xs ih =>
    obtain ⟨_, u, hu, hrest⟩ := h
    rw [List.length_cons, Nat.add_right_comm, run_again hu, ih hrest]

theorem run_eq_none_iff :
    run step n s = none ↔ ∃ xs s', xs.length = n ∧ Trace step s xs s' := by
  induction n generalizing s with
  | zero =>
    refine iff_of_true rfl ⟨[], s, rfl, rfl⟩
  | succ n ih =>
    constructor
    · intro h
      rw [run] at h
      split at h
      · simp at h
      · simp at h
      · next u hu =>
        obtain ⟨xs, s', hlen, htrace⟩ := ih.mp h
        exact ⟨s :: xs, s', by simp [hlen], rfl, u, hu, htrace⟩
    · rintro ⟨xs, s', hlen, htrace⟩
      cases xs with
      | nil => simp at hlen
      | cons x xs =>
        obtain ⟨_, u, hu, hrest⟩ := htrace
        rw [run_again hu]
        exact ih.mpr ⟨xs, s', by simpa using hlen, hrest⟩

/-- A run that ends goes through a trace to the state whose pass ends it. -/
theorem run_eq_some_iff :
    run step n s = some a ↔ ∃ xs s', xs.length < n ∧ Trace step s xs s' ∧
      run step 1 s' = some a := by
  constructor
  · intro h
    induction n generalizing s with
    | zero => simp [run] at h
    | succ n ih =>
      cases hpass : step s with
      | error e =>
        rw [run_fault hpass] at h
        exact ⟨[], s, by simp, rfl, by rw [run_fault hpass, h]⟩
      | ok next =>
        cases next with
        | inr r =>
          rw [run_done hpass] at h
          exact ⟨[], s, by simp, rfl, by rw [run_done hpass, h]⟩
        | inl u =>
          rw [run_again hpass] at h
          obtain ⟨xs, s', hlen, htrace, hlast⟩ := ih h
          exact ⟨s :: xs, s', by simpa using hlen, ⟨rfl, u, hpass, htrace⟩, hlast⟩
  · rintro ⟨xs, s', hlen, htrace, hlast⟩
    exact run_mono ((run_of_trace htrace).trans hlast) hlen

theorem run_one_eq_ok_iff : run step 1 s = some (.ok r) ↔ step s = .ok (.inr r) := by
  rw [run]
  split <;> simp_all [run]

theorem run_one_eq_error_iff : run step 1 s = some (.error e) ↔ step s = .error e := by
  rw [run]
  split <;> simp_all [run]

theorem exists_run_of_bounded (bounded : ∀ xs s', Trace step s xs s' → xs.length ≤ n) :
    ∃ a, run step (n + 1) s = some a := by
  rw [← Option.isSome_iff_exists, Option.isSome_iff_ne_none, Ne, run_eq_none_iff]
  rintro ⟨xs, s', hlen, htrace⟩
  have := bounded xs s' htrace
  omega

theorem Trace.length_le (μ : σ → ℕ) (lowers : ∀ s u, step s = .ok (.inl u) → μ u < μ s)
    (h : Trace step s xs s') : xs.length + μ s' ≤ μ s := by
  induction xs generalizing s with
  | nil =>
    rw [show s = s' from h, List.length_nil, Nat.zero_add]
  | cons x xs ih =>
    obtain ⟨_, u, hu, hrest⟩ := h
    have hlow := lowers s u hu
    have hbound := ih hrest
    rw [List.length_cons]
    omega

theorem exists_run_of_measure (μ : σ → ℕ)
    (lowers : ∀ s u, step s = .ok (.inl u) → μ u < μ s) (s : σ) :
    ∃ a, run step (μ s + 1) s = some a :=
  exists_run_of_bounded fun xs s' h => by
    have := h.length_le μ lowers
    omega

/-- The rule of a loop: an invariant, kept by passes that lower a measure, and what it says
when the loop is left. -/
theorem run_of_invariant {Q : ρ → Prop} (I : σ → Prop) (μ : σ → ℕ)
    (pass : ∀ s, I s → (∃ r, step s = .ok (.inr r) ∧ Q r) ∨
      ∃ u, step s = .ok (.inl u) ∧ I u ∧ μ u < μ s) (hs : I s) :
    ∃ r, run step (μ s + 1) s = some (.ok r) ∧ Q r := by
  obtain ⟨k, hk⟩ : ∃ k, μ s = k := ⟨μ s, rfl⟩
  induction k using Nat.strong_induction_on generalizing s with
  | _ k ih =>
    rcases pass s hs with ⟨r, hdone, hr⟩ | ⟨u, hagain, hu, hlow⟩
    · exact ⟨r, run_done hdone, hr⟩
    · obtain ⟨r, hrun, hr⟩ := ih (μ u) (hk ▸ hlow) hu rfl
      refine ⟨r, ?_, hr⟩
      rw [run_again hagain]
      exact run_mono hrun hlow

theorem trace_of_states (f : ℕ → σ) (h : ∀ k < n, step (f k) = .ok (.inl (f (k + 1)))) :
    ∃ xs, xs.length = n ∧ Trace step (f 0) xs (f n) := by
  induction n with
  | zero => exact ⟨[], rfl, rfl⟩
  | succ n ih =>
    obtain ⟨xs, hlen, htrace⟩ := ih fun k hk => h k (Nat.lt_succ_of_lt hk)
    exact ⟨xs ++ [f n], by simp [hlen], htrace.snoc (h n (Nat.lt_succ_self n))⟩

theorem run_of_states (f : ℕ → σ) (h : ∀ k < n, step (f k) = .ok (.inl (f (k + 1))))
    (hlast : step (f n) = .ok (.inr r)) (hn : n < m) : run step m (f 0) = some (.ok r) := by
  obtain ⟨xs, hlen, htrace⟩ := trace_of_states f h
  exact run_eq_some_iff.mpr ⟨xs, f n, hlen ▸ hn, htrace, run_one_eq_ok_iff.mpr hlast⟩

theorem run_eq_none_of_states (f : ℕ → σ) (h : ∀ k, step (f k) = .ok (.inl (f (k + 1))))
    (n : ℕ) : run step n (f 0) = none := by
  obtain ⟨xs, hlen, htrace⟩ := trace_of_states f fun k (_ : k < n) => h k
  exact run_eq_none_iff.mpr ⟨xs, f n, hlen, htrace⟩

end Traces

section Nested

variable {τ ρ' : Type*} {outer : τ → Except ε (τ ⊕ ρ')} {result : Except ε ρ'}

def After (outer : τ → Except ε (τ ⊕ ρ')) (n : ℕ) (result : Except ε ρ') :
    Except ε (τ ⊕ ρ') → Prop
  | .error e => result = .error e
  | .ok (.inr r) => result = .ok r
  | .ok (.inl t) => run outer n t = some result

theorem run_succ_iff {t : τ} :
    run outer (n + 1) t = some result ↔ After outer n result (outer t) := by
  rw [run]
  split
  · next e he =>
    rw [he]
    exact Option.some_inj.trans eq_comm
  · next r hr =>
    rw [hr]
    exact Option.some_inj.trans eq_comm
  · next u hu => rw [hu, After]

/-- A pass of an inner loop as one of the loop around it. -/
def embedPass (embed : σ → τ) (finish : ρ → Except ε (τ ⊕ ρ')) :
    Except ε (σ ⊕ ρ) → Except ε (τ ⊕ ρ')
  | .error e => .error e
  | .ok (.inl s) => .ok (.inl (embed s))
  | .ok (.inr r) => finish r

/-- A loop whose passes are those of an inner loop until that one ends. -/
theorem run_nested (inner : σ → Except ε (σ ⊕ ρ)) (embed : σ → τ)
    (finish : ρ → Except ε (τ ⊕ ρ'))
    (hpass : ∀ s, outer (embed s) = embedPass embed finish (inner s))
    (h : run outer n (embed s) = some result) :
    ∃ k, (∃ e, run inner k s = some (.error e) ∧ result = .error e) ∨
      ∃ r, run inner k s = some (.ok r) ∧ ∃ m, After outer m result (finish r) := by
  induction n generalizing s with
  | zero => exact absurd h nofun
  | succ n ih =>
    rw [run_succ_iff, hpass] at h
    cases hinner : inner s with
    | error e =>
      rw [hinner] at h
      exact ⟨1, .inl ⟨e, run_fault hinner, h⟩⟩
    | ok next =>
      rw [hinner] at h
      cases next with
      | inl s' =>
        obtain ⟨k, hends⟩ := ih h
        exact ⟨k + 1, by rwa [run_again hinner]⟩
      | inr r => exact ⟨1, .inr ⟨r, run_done hinner, n, h⟩⟩

end Nested

end MemoryMappingModule.StepLoop
