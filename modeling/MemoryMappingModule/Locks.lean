import MemoryMappingModule.Interleaving

/-! Parties that share resources, each of them behind a lock. A party may take a lock that no
party holds, and should change a resource only while it holds its lock. If parties do so and leave
a resource with its invariant when they release it, they also find it with its invariant, in
whatever order they take their steps. Without its lock a party may look at a resource, too, but
then it finds no more than what all parties keep in the middle of a change. -/

namespace MemoryMappingModule.Locks

open Interleaving

inductive Next (κ σ τ : Type*) where
  | stop
  | go (t : τ)
  /-- A look at a resource, with or without its lock. -/
  | peek (k : κ) (f : σ → τ)
  | acquire (k : κ) (t : τ)
  | access (k : κ) (f : σ → σ × τ)
  | release (k : κ) (t : τ)

structure State (ι κ σ : Type*) (τ : ι → Type*) where
  resources : κ → σ
  holder : κ → Option ι
  known : ∀ i, τ i

variable {ι κ σ : Type*} {τ : ι → Type*} [DecidableEq ι] [DecidableEq κ]

namespace State

variable (s : State ι κ σ τ) (i : ι) (k : κ)

def learn (t : τ i) : State ι κ σ τ := { s with known := Function.update s.known i t }

def take (t : τ i) : State ι κ σ τ :=
  ⟨s.resources, Function.update s.holder k (some i), Function.update s.known i t⟩

def change (r : σ × τ i) : State ι κ σ τ :=
  ⟨Function.update s.resources k r.1, s.holder, Function.update s.known i r.2⟩

def leave (t : τ i) : State ι κ σ τ :=
  ⟨s.resources, Function.update s.holder k none, Function.update s.known i t⟩

end State

/-- A party that needs a lock waits for it. -/
def step (next : ∀ i, τ i → Next κ σ (τ i)) (i : ι) (s : State ι κ σ τ) :
    Option (State ι κ σ τ) :=
  match next i (s.known i) with
  | .stop => none
  | .go t => some (s.learn i t)
  | .peek k f => some (s.learn i (f (s.resources k)))
  | .acquire k t => if s.holder k = none then some (s.take i k t) else none
  | .access k f => some (s.change i k (f (s.resources k)))
  | .release k t => if s.holder k = some i then some (s.leave i k t) else none

section Fields

variable {s : State ι κ σ τ} {i : ι} {k k' : κ} {t : τ i}

omit [DecidableEq κ] in
@[simp] theorem learn_known : (s.learn i t).known i = t := Function.update_self ..

@[simp] theorem take_known : (s.take i k t).known i = t := Function.update_self ..

@[simp] theorem change_known {r : σ × τ i} : (s.change i k r).known i = r.2 :=
  Function.update_self ..

@[simp] theorem leave_known : (s.leave i k t).known i = t := Function.update_self ..

@[simp] theorem take_holder : (s.take i k t).holder k = some i := Function.update_self ..

theorem take_holder_of_ne (h : k' ≠ k) : (s.take i k t).holder k' = s.holder k' :=
  Function.update_of_ne h ..

@[simp] theorem leave_holder : (s.leave i k t).holder k = none := Function.update_self ..

theorem leave_holder_of_ne (h : k' ≠ k) : (s.leave i k t).holder k' = s.holder k' :=
  Function.update_of_ne h ..

@[simp] theorem change_resources {r : σ × τ i} : (s.change i k r).resources k = r.1 :=
  Function.update_self ..

theorem change_resources_of_ne {r : σ × τ i} (h : k' ≠ k) :
    (s.change i k r).resources k' = s.resources k' :=
  Function.update_of_ne h ..

end Fields

section Rule

/-- What a party has to do next where it holds no lock: not change a resource, and know of one
that it looks at or acquires what is sure then. -/
def Outside {τ : Type*} (J K : κ → σ → Prop) (out : τ → Prop) (held : κ → σ → τ → Prop) :
    Next κ σ τ → Prop
  | .stop => True
  | .go t => out t
  | .peek k f => ∀ s, K k s → out (f s)
  | .acquire k t => ∀ s, K k s → J k s → held k s t
  | .access _ _ => False
  | .release _ _ => False

/-- What a party has to do next while it holds a lock. -/
def Inside {τ : Type*} (J K : κ → σ → Prop) (out : τ → Prop) (held : κ → σ → τ → Prop) (k : κ)
    (s : σ) : Next κ σ τ → Prop
  | .stop => True
  | .go t => held k s t
  | .peek k' f => k' = k ∧ held k s (f s)
  | .acquire _ _ => False
  | .access k' f => k' = k ∧ K k (f s).1 ∧ held k (f s).1 (f s).2
  | .release k' t => k' = k ∧ J k s ∧ out t

/-- A party that keeps to the invariants `J` of the resources at rest and `K` of all times, with
what it knows without a lock, and with one about its resource. -/
structure Obeys {τ : Type*} (J K : κ → σ → Prop) (next : τ → Next κ σ τ) (out : τ → Prop)
    (held : κ → σ → τ → Prop) : Prop where
  outside : ∀ t, out t → Outside J K out held (next t)
  inside : ∀ k s t, K k s → held k s t → Inside J K out held k s (next t)

variable {J K : κ → σ → Prop} {next : ∀ i, τ i → Next κ σ (τ i)} {out : ∀ i, τ i → Prop}
  {held : ∀ i, κ → σ → τ i → Prop} {s s' : State ι κ σ τ} {i j : ι} {k : κ}

def Stands (out : ∀ i, τ i → Prop) (held : ∀ i, κ → σ → τ i → Prop) (s : State ι κ σ τ) (i : ι) :
    Prop :=
  (out i (s.known i) ∧ ∀ k, s.holder k ≠ some i) ∨
    ∃ k, (∀ k', s.holder k' = some i ↔ k' = k) ∧ held i k (s.resources k) (s.known i)

structure Respected (J K : κ → σ → Prop) (out : ∀ i, τ i → Prop)
    (held : ∀ i, κ → σ → τ i → Prop) (s : State ι κ σ τ) : Prop where
  kept : ∀ k, K k (s.resources k)
  free : ∀ k, s.holder k = none → J k (s.resources k)
  stands : ∀ i, Stands out held s i

omit [DecidableEq ι] [DecidableEq κ] in
theorem Stands.congr (h : Stands out held s j) (hknown : s'.known j = s.known j)
    (hholder : ∀ k, s'.holder k = some j ↔ s.holder k = some j)
    (hresources : ∀ k, s.holder k = some j → s'.resources k = s.resources k) :
    Stands out held s' j := by
  rcases h with ⟨hout, hnone⟩ | ⟨k, hone, hheld⟩
  · exact .inl ⟨hknown ▸ hout, fun k hk => hnone k ((hholder k).mp hk)⟩
  · refine .inr ⟨k, fun k' => (hholder k').trans (hone k'), ?_⟩
    rw [hknown, hresources k ((hone k).mpr rfl)]
    exact hheld

variable (hobeys : ∀ i, Obeys J K (next i) (out i) (held i))
include hobeys

omit hobeys [DecidableEq κ] in
theorem Respected.learn {t : τ i} (h : Respected J K out held s)
    (hstands : Stands out held (s.learn i t) i) : Respected J K out held (s.learn i t) := by
  refine ⟨h.kept, h.free, fun j => ?_⟩
  by_cases hj : j = i
  · exact hj ▸ hstands
  · exact (h.stands j).congr (Function.update_of_ne hj _ _) (fun _ => Iff.rfl) fun _ _ => rfl

omit [DecidableEq κ] in
theorem Respected.go {t : τ i} (h : Respected J K out held s)
    (hnext : next i (s.known i) = .go t) : Respected J K out held (s.learn i t) := by
  refine h.learn ?_
  rcases h.stands i with ⟨hout, hnone⟩ | ⟨k, hone, hheld⟩
  · have hgoes := (hobeys i).outside _ hout
    rw [hnext] at hgoes
    exact .inl ⟨by rwa [learn_known], hnone⟩
  · have hgoes := (hobeys i).inside _ _ _ (h.kept k) hheld
    rw [hnext] at hgoes
    exact .inr ⟨k, hone, by rwa [learn_known]⟩

omit [DecidableEq κ] in
theorem Respected.peek {f : σ → τ i} (h : Respected J K out held s)
    (hnext : next i (s.known i) = .peek k f) :
    Respected J K out held (s.learn i (f (s.resources k))) := by
  refine h.learn ?_
  rcases h.stands i with ⟨hout, hnone⟩ | ⟨k', hone, hheld⟩
  · have hlooks := (hobeys i).outside _ hout
    rw [hnext] at hlooks
    exact .inl ⟨by rw [learn_known]; exact hlooks _ (h.kept k), hnone⟩
  · have hlooks := (hobeys i).inside _ _ _ (h.kept k') hheld
    rw [hnext] at hlooks
    obtain ⟨rfl, hlooks⟩ := hlooks
    exact .inr ⟨k, hone, by rwa [learn_known]⟩

theorem Respected.take {t : τ i} (h : Respected J K out held s)
    (hnext : next i (s.known i) = .acquire k t) (hfree : s.holder k = none) :
    Respected J K out held (s.take i k t) := by
  refine ⟨h.kept, fun k' hk' => ?_, fun j => ?_⟩
  · have hk : k' ≠ k := by
      rintro rfl
      exact absurd (take_holder.symm.trans hk') nofun
    exact h.free k' ((take_holder_of_ne hk).symm.trans hk')
  · by_cases hj : j = i
    · subst hj
      rcases h.stands j with ⟨hout, hnone⟩ | ⟨k', _, hheld⟩
      · have hgets := (hobeys j).outside _ hout
        rw [hnext] at hgets
        refine .inr ⟨k, fun k' => ?_, ?_⟩
        · by_cases hk : k' = k
          · exact iff_of_true (by rw [hk, take_holder]) hk
          · rw [take_holder_of_ne hk]
            exact iff_of_false (hnone k') hk
        · rw [take_known]
          exact hgets _ (h.kept k) (h.free k hfree)
      · have hgets := (hobeys j).inside _ _ _ (h.kept k') hheld
        rw [hnext] at hgets
        exact hgets.elim
    · refine (h.stands j).congr (Function.update_of_ne hj _ _) (fun k' => ?_) fun _ _ => rfl
      by_cases hk : k' = k
      · rw [hk, take_holder, hfree]
        exact iff_of_false (fun heq => hj (Option.some.inj heq).symm) nofun
      · rw [take_holder_of_ne hk]

theorem Respected.change {f : σ → σ × τ i} (h : Respected J K out held s)
    (hnext : next i (s.known i) = .access k f) :
    Respected J K out held (s.change i k (f (s.resources k))) := by
  -- the party holds the lock
  obtain ⟨hone, hkept, hkeeps⟩ : (∀ k', s.holder k' = some i ↔ k' = k) ∧
      K k (f (s.resources k)).1 ∧ held i k (f (s.resources k)).1 (f (s.resources k)).2 := by
    rcases h.stands i with ⟨hout, _⟩ | ⟨k', hone, hheld⟩
    · have hdoes := (hobeys i).outside _ hout
      rw [hnext] at hdoes
      exact hdoes.elim
    · have hdoes := (hobeys i).inside _ _ _ (h.kept k') hheld
      rw [hnext] at hdoes
      obtain ⟨rfl, hkeeps⟩ := hdoes
      exact ⟨hone, hkeeps⟩
  have hholds : s.holder k = some i := (hone k).mpr rfl
  refine ⟨fun k' => ?_, fun k' hk' => ?_, fun j => ?_⟩
  · by_cases hk : k' = k
    · rw [hk, change_resources]
      exact hkept
    · rw [change_resources_of_ne hk]
      exact h.kept k'
  · have hk : k' ≠ k := by
      rintro rfl
      exact absurd (hholds.symm.trans hk') nofun
    rw [change_resources_of_ne hk]
    exact h.free k' hk'
  · by_cases hj : j = i
    · subst hj
      exact .inr ⟨k, hone, by rwa [change_resources, change_known]⟩
    · refine (h.stands j).congr (Function.update_of_ne hj _ _) (fun _ => Iff.rfl) fun k' hk' => ?_
      refine change_resources_of_ne ?_
      rintro rfl
      exact hj (Option.some.inj (hk'.symm.trans hholds))

theorem Respected.leave {t : τ i} (h : Respected J K out held s)
    (hnext : next i (s.known i) = .release k t) (hholds : s.holder k = some i) :
    Respected J K out held (s.leave i k t) := by
  obtain ⟨hone, hleaves, hout⟩ : (∀ k', s.holder k' = some i ↔ k' = k) ∧
      J k (s.resources k) ∧ out i t := by
    rcases h.stands i with ⟨_, hnone⟩ | ⟨k', hone, hheld⟩
    · exact absurd hholds (hnone k)
    · have hdoes := (hobeys i).inside _ _ _ (h.kept k') hheld
      rw [hnext] at hdoes
      obtain ⟨rfl, hdoes⟩ := hdoes
      exact ⟨hone, hdoes⟩
  refine ⟨h.kept, fun k' hk' => ?_, fun j => ?_⟩
  · by_cases hk : k' = k
    · rw [hk]
      exact hleaves
    · exact h.free k' ((leave_holder_of_ne hk).symm.trans hk')
  · by_cases hj : j = i
    · subst hj
      refine .inl ⟨by rwa [leave_known], fun k' hk' => ?_⟩
      by_cases hk : k' = k
      · rw [hk, leave_holder] at hk'
        exact absurd hk' nofun
      · exact hk ((hone k').mp ((leave_holder_of_ne hk).symm.trans hk'))
    · refine (h.stands j).congr (Function.update_of_ne hj _ _) (fun k' => ?_) fun _ _ => rfl
      by_cases hk : k' = k
      · rw [hk, leave_holder, hholds]
        exact iff_of_false nofun fun heq => hj (Option.some.inj heq).symm
      · rw [leave_holder_of_ne hk]

theorem Respected.step (h : Respected J K out held s) (hstep : step next i s = some s') :
    Respected J K out held s' := by
  rw [Locks.step] at hstep
  split at hstep
  · cases hstep
  · next t hnext =>
    obtain rfl := Option.some.inj hstep
    exact h.go hobeys hnext
  · next k f hnext =>
    obtain rfl := Option.some.inj hstep
    exact h.peek hobeys hnext
  · next k t hnext =>
    split_ifs at hstep with hfree
    obtain rfl := Option.some.inj hstep
    exact h.take hobeys hnext hfree
  · next k f hnext =>
    obtain rfl := Option.some.inj hstep
    exact h.change hobeys hnext
  · next k t hnext =>
    split_ifs at hstep with hholds
    obtain rfl := Option.some.inj hstep
    exact h.leave hobeys hnext hholds

/-- The rule of resource invariants: they hold of all resources without a holder, wherever the
parties get to. -/
theorem Respected.reaches (h : Respected J K out held s) (hreach : Reaches (Locks.step next) s s') :
    Respected J K out held s' :=
  Reaches.invariant (fun _ _ _ h hstep => Respected.step hobeys h hstep) h hreach

end Rule

end MemoryMappingModule.Locks
