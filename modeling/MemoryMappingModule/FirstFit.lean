import Mathlib

/-! First-fit placement into a table of slots. A request lists the slots it may
take, in order of preference, each with the entry it would store there; `place`
takes the first of them that is free, and `placeAll` serves requests in order
and stops at the first one that finds no free slot. Everything a placement can
do to a table is said once, by `Grows`. -/

namespace MemoryMappingModule.FirstFit

abbrev Request (σ ε : Type*) := List (σ × ε)

variable {σ ε : Type*} [DecidableEq σ] (free : ε → Prop) [DecidablePred free]

def choose (t : σ → ε) (r : Request σ ε) : Option (σ × ε) :=
  r.find? fun c => free (t c.1)

def place (t : σ → ε) (r : Request σ ε) : Option (σ → ε) :=
  (choose free t r).map fun c => Function.update t c.1 c.2

def placeAll : (σ → ε) → List (Request σ ε) → Bool × (σ → ε)
  | t, [] => (true, t)
  | t, r :: rs =>
    match place free t r with
    | none => (false, t)
    | some t' => placeAll t' rs

/-- Each slot is as it was, or was free and now holds an entry some request offered for it. -/
def Grows (rs : List (Request σ ε)) (t t' : σ → ε) : Prop :=
  ∀ s, t' s = t s ∨ free (t s) ∧ ∃ r ∈ rs, (s, t' s) ∈ r

def Stores (r : Request σ ε) (t : σ → ε) : Prop := ∃ c ∈ r, t c.1 = c.2

def Solid (rs : List (Request σ ε)) : Prop := ∀ r ∈ rs, ∀ c ∈ r, ¬ free c.2

variable {free} {t t' t'' : σ → ε} {r : Request σ ε} {rs rs' : List (Request σ ε)}

omit [DecidableEq σ] in
theorem choose_eq_some {c : σ × ε} (h : choose free t r = some c) : c ∈ r ∧ free (t c.1) :=
  ⟨List.mem_of_find?_eq_some h, by simpa using List.find?_some h⟩

omit [DecidableEq σ] in
theorem choose_eq_none_iff : choose free t r = none ↔ ∀ c ∈ r, ¬ free (t c.1) := by
  simp [choose]

theorem place_eq_none_iff : place free t r = none ↔ ∀ c ∈ r, ¬ free (t c.1) := by
  rw [place, Option.map_eq_none_iff, choose_eq_none_iff]

theorem place_eq_some (h : place free t r = some t') :
    ∃ c ∈ r, free (t c.1) ∧ t' = Function.update t c.1 c.2 := by
  obtain ⟨c, hc, rfl⟩ := Option.map_eq_some_iff.mp h
  obtain ⟨hmem, hfree⟩ := choose_eq_some hc
  exact ⟨c, hmem, hfree, rfl⟩

theorem place_cons_free {c : σ × ε} (h : free (t c.1)) :
    place free t (c :: r) = some (Function.update t c.1 c.2) := by
  simp [place, choose, h]

theorem place_cons_taken {c : σ × ε} (h : ¬ free (t c.1)) :
    place free t (c :: r) = place free t r := by
  simp [place, choose, h]

theorem place_append_none {r' : Request σ ε} (h : place free t r = none) :
    place free t (r ++ r') = place free t r' := by
  rw [place, Option.map_eq_none_iff, choose] at h
  rw [place, choose, List.find?_append, h, Option.none_or]
  rfl

theorem place_append_some {r' : Request σ ε} (h : place free t r = some t') :
    place free t (r ++ r') = some t' := by
  obtain ⟨c, hc, rfl⟩ := Option.map_eq_some_iff.mp h
  rw [choose] at hc
  rw [place, choose, List.find?_append, hc, Option.some_or, Option.map_some]

theorem placeAll_cons_none (h : place free t r = none) :
    placeAll free t (r :: rs) = (false, t) := by
  rw [placeAll, h]

theorem placeAll_cons_some (h : place free t r = some t') :
    placeAll free t (r :: rs) = placeAll free t' rs := by
  rw [placeAll, h]

theorem placeAll_append (t : σ → ε) (rs rs' : List (Request σ ε)) :
    placeAll free t (rs ++ rs') =
      if (placeAll free t rs).1 then placeAll free (placeAll free t rs).2 rs'
      else placeAll free t rs := by
  induction rs generalizing t with
  | nil => simp [placeAll]
  | cons r rs ih =>
    cases h : place free t r with
    | none => simp [placeAll_cons_none h]
    | some u => simp only [List.cons_append, placeAll_cons_some h, ih]

section Frame

omit [DecidableEq σ] [DecidablePred free] in
theorem Grows.refl (rs : List (Request σ ε)) (t : σ → ε) : Grows free rs t t :=
  fun _ => Or.inl rfl

omit [DecidableEq σ] [DecidablePred free] in
theorem Grows.mono (h : Grows free rs t t') (hsub : ∀ r ∈ rs, r ∈ rs') : Grows free rs' t t' := by
  intro s
  rcases h s with same | ⟨hfree, r, hr, hmem⟩
  · exact Or.inl same
  · exact Or.inr ⟨hfree, r, hsub r hr, hmem⟩

omit [DecidableEq σ] [DecidablePred free] in
theorem Grows.trans (h : Grows free rs t t') (h' : Grows free rs t' t'') :
    Grows free rs t t'' := by
  intro s
  rcases h' s with same' | ⟨hfree', r, hr, hmem⟩
  · rw [same']
    exact h s
  · rcases h s with same | ⟨hfree, _⟩
    · exact Or.inr ⟨same ▸ hfree', r, hr, hmem⟩
    · exact Or.inr ⟨hfree, r, hr, hmem⟩

omit [DecidableEq σ] [DecidablePred free] in
theorem Grows.eq_of_not_free (h : Grows free rs t t') {s : σ} (hs : ¬ free (t s)) :
    t' s = t s :=
  (h s).resolve_right fun new => hs new.1

omit [DecidableEq σ] [DecidablePred free] in
theorem Grows.stores (h : Grows free rs t t') (hsolid : ∀ c ∈ r, ¬ free c.2)
    (hr : Stores r t) : Stores r t' := by
  obtain ⟨c, hc, hstored⟩ := hr
  refine ⟨c, hc, ?_⟩
  rw [h.eq_of_not_free (by rw [hstored]; exact hsolid c hc), hstored]

theorem place_grows (h : place free t r = some t') : Grows free [r] t t' := by
  obtain ⟨c, hc, hfree, rfl⟩ := place_eq_some h
  intro s
  by_cases hs : s = c.1
  · subst hs
    exact Or.inr ⟨hfree, r, by simp, by simpa using hc⟩
  · exact Or.inl (Function.update_of_ne hs _ _)

theorem place_stores (h : place free t r = some t') : Stores r t' := by
  obtain ⟨c, hc, _, rfl⟩ := place_eq_some h
  exact ⟨c, hc, Function.update_self _ _ _⟩

theorem placeAll_grows (t : σ → ε) (rs : List (Request σ ε)) :
    Grows free rs t (placeAll free t rs).2 := by
  induction rs generalizing t with
  | nil => exact Grows.refl _ _
  | cons r rs ih =>
    cases h : place free t r with
    | none =>
      rw [placeAll_cons_none h]
      exact Grows.refl _ _
    | some u =>
      rw [placeAll_cons_some h]
      have first : Grows free (r :: rs) t u := (place_grows h).mono (by simp)
      have rest : Grows free (r :: rs) u (placeAll free u rs).2 := (ih u).mono (by simp_all)
      exact first.trans rest

theorem placeAll_stores (hsolid : Solid free rs) (ok : (placeAll free t rs).1 = true)
    (hr : r ∈ rs) : Stores r (placeAll free t rs).2 := by
  induction rs generalizing t with
  | nil => simp at hr
  | cons q rs ih =>
    cases h : place free t q with
    | none => simp [placeAll_cons_none h] at ok
    | some u =>
      rw [placeAll_cons_some h] at ok ⊢
      rcases List.mem_cons.mp hr with rfl | hr
      · exact (placeAll_grows u rs).stores (hsolid r (by simp)) (place_stores h)
      · exact ih (fun q' hq' => hsolid q' (by simp [hq'])) ok hr

/-- A request that is not served leaves every later request unserved too. -/
theorem placeAll_grows_of_failed {pre post : List (Request σ ε)}
    (failed : (placeAll free t (pre ++ [r])).1 = false) :
    Grows free pre t (placeAll free t (pre ++ r :: post)).2 := by
  have stopped : (placeAll free t (pre ++ r :: post)).2 = (placeAll free t pre).2 := by
    rw [placeAll_append] at failed ⊢
    split_ifs at failed ⊢ with ok
    · cases h : place free (placeAll free t pre).2 r with
      | none => rw [placeAll_cons_none h]
      | some u =>
        rw [placeAll_cons_some h] at failed
        simp [placeAll] at failed
    · rfl
  rw [stopped]
  exact placeAll_grows t pre

end Frame

section Ownership

variable (own : σ → ε → Prop)

omit [DecidableEq σ] [DecidablePred free] in
theorem Grows.own_iff (h : Grows free rs t t') (hsolid : ∀ s e, own s e → ¬ free e)
    (hforeign : ∀ r ∈ rs, ∀ c ∈ r, ¬ own c.1 c.2) (s : σ) :
    own s (t' s) ↔ own s (t s) := by
  rcases h s with same | ⟨hfree, r, hr, hmem⟩
  · rw [same]
  · constructor
    · intro hown
      exact absurd hown (hforeign r hr _ hmem)
    · intro hown
      exact absurd hfree (hsolid s _ hown)

/-- One request for an owner among foreign ones: the owner gets exactly one slot. -/
theorem placeAll_existsUnique {pre post : List (Request σ ε)}
    (hsolid : ∀ s e, own s e → ¬ free e) (hown : ∀ c ∈ r, own c.1 c.2)
    (hpre : ∀ q ∈ pre, ∀ c ∈ q, ¬ own c.1 c.2) (hpost : ∀ q ∈ post, ∀ c ∈ q, ¬ own c.1 c.2)
    (hfresh : ∀ s, ¬ own s (t s)) (ok : (placeAll free t (pre ++ r :: post)).1 = true) :
    ∃ s, (s, (placeAll free t (pre ++ r :: post)).2 s) ∈ r ∧
      ∀ s', own s' ((placeAll free t (pre ++ r :: post)).2 s') → s' = s := by
  rw [placeAll_append] at ok ⊢
  have okPre : (placeAll free t pre).1 = true := by
    by_contra stopped
    rw [if_neg stopped] at ok
    exact stopped ok
  rw [if_pos okPre] at ok ⊢
  set u := (placeAll free t pre).2 with hu
  have before : ∀ s, ¬ own s (u s) := fun s => by
    rw [((placeAll_grows t pre).own_iff own hsolid hpre s)]
    exact hfresh s
  cases h : place free u r with
  | none => simp [placeAll_cons_none h] at ok
  | some v =>
    rw [placeAll_cons_some h]
    obtain ⟨c, hc, hfree, rfl⟩ := place_eq_some h
    have after : Grows free post (Function.update u c.1 c.2) _ := placeAll_grows _ post
    have kept : (placeAll free (Function.update u c.1 c.2) post).2 c.1 = c.2 := by
      rw [after.eq_of_not_free (by simpa using hsolid c.1 c.2 (hown c hc))]
      exact Function.update_self _ _ _
    refine ⟨c.1, by rw [kept]; exact hc, fun s' hs' => ?_⟩
    rw [after.own_iff own hsolid hpost s'] at hs'
    by_contra hne
    rw [Function.update_of_ne hne] at hs'
    exact before s' hs'

end Ownership

section Room

def slots (r : Request σ ε) : Finset σ := (r.map Prod.fst).toFinset

variable (free) in
def room (t : σ → ε) (r : Request σ ε) : ℕ := ((slots r).filter fun s => free (t s)).card

variable (free) in
/-- Every request has more free slots than there are earlier requests for the same slots. -/
def FitsAll (t : σ → ε) (rs : List (Request σ ε)) : Prop :=
  ∀ pre r post, rs = pre ++ r :: post → pre.countP (fun q => slots q = slots r) < room free t r

def SameOrDisjoint (rs : List (Request σ ε)) : Prop :=
  ∀ q ∈ rs, ∀ r ∈ rs, slots q = slots r ∨ Disjoint (slots q) (slots r)

theorem mem_slots {s : σ} : s ∈ slots r ↔ ∃ c ∈ r, c.1 = s := by
  simp [slots]

variable (free) in
def roomIn (t : σ → ε) (S : Finset σ) : ℕ := (S.filter fun s => free (t s)).card

omit [DecidableEq σ] in
theorem roomIn_eq_zero_iff {S : Finset σ} : roomIn free t S = 0 ↔ ∀ s ∈ S, ¬ free (t s) := by
  rw [roomIn, Finset.card_eq_zero, Finset.filter_eq_empty_iff]

theorem roomIn_update {S : Finset σ} {s : σ} {e : ε} (hfree : free (t s)) (hsolid : ¬ free e) :
    roomIn free (Function.update t s e) S = roomIn free t S - if s ∈ S then 1 else 0 := by
  by_cases hs : s ∈ S
  · have taken : S.filter (fun x => free (Function.update t s e x)) =
        (S.filter fun x => free (t x)).erase s := by
      ext x
      by_cases hx : x = s
      · subst hx
        simp [hsolid]
      · simp [hx]
    rw [if_pos hs, roomIn, taken, Finset.card_erase_of_mem (Finset.mem_filter.mpr ⟨hs, hfree⟩)]
    rfl
  · rw [if_neg hs, Nat.sub_zero, roomIn, roomIn]
    congr 1
    apply Finset.filter_congr
    intro x hx
    have hne : x ≠ s := by
      rintro rfl
      exact hs hx
    rw [Function.update_of_ne hne]

theorem place_eq_none_iff_roomIn : place free t r = none ↔ roomIn free t (slots r) = 0 := by
  rw [place_eq_none_iff, roomIn_eq_zero_iff]
  constructor
  · intro h s hs
    obtain ⟨c, hc, rfl⟩ := mem_slots.mp hs
    exact h c hc
  · intro h c hc
    exact h c.1 (mem_slots.mpr ⟨c, hc, rfl⟩)

theorem place_chosen (hplace : place free t r = some t') (hsolid : ∀ c ∈ r, ¬ free c.2) :
    ∃ s ∈ slots r, free (t s) ∧
      ∀ S, roomIn free t' S = roomIn free t S - if s ∈ S then 1 else 0 := by
  obtain ⟨c, hc, hfree, rfl⟩ := place_eq_some hplace
  exact ⟨c.1, mem_slots.mpr ⟨c, hc, rfl⟩, hfree, fun S => roomIn_update hfree (hsolid c hc)⟩

theorem room_eq (t : σ → ε) (r : Request σ ε) : room free t r = roomIn free t (slots r) := rfl

theorem room_pos_iff : 0 < room free t r ↔ place free t r ≠ none := by
  rw [room_eq, Nat.pos_iff_ne_zero, Ne, Ne, place_eq_none_iff_roomIn]

theorem room_of_place {q : Request σ ε} (h : place free t q = some t')
    (hsolid : ∀ c ∈ q, ¬ free c.2) (hsame : slots q = slots r ∨ Disjoint (slots q) (slots r)) :
    room free t r = room free t' r + if slots q = slots r then 1 else 0 := by
  obtain ⟨s, hs, hfree, hafter⟩ := place_chosen h hsolid
  rw [room_eq, room_eq, hafter (slots r)]
  by_cases heq : slots q = slots r
  · have hmem : s ∈ slots r := heq ▸ hs
    have hroom : roomIn free t (slots r) ≠ 0 := fun hzero =>
      roomIn_eq_zero_iff.mp hzero s hmem hfree
    rw [if_pos heq, if_pos hmem, Nat.sub_add_cancel (Nat.pos_of_ne_zero hroom)]
  · have hother : s ∉ slots r := Finset.disjoint_left.mp (hsame.resolve_left heq) hs
    rw [if_neg heq, if_neg hother]
    rfl

theorem fitsAll_cons_iff {q : Request σ ε} (h : place free t q = some t')
    (hsolid : Solid free (q :: rs)) (hsame : SameOrDisjoint (q :: rs)) :
    FitsAll free t (q :: rs) ↔ FitsAll free t' rs := by
  have step (pre : List (Request σ ε)) (r : Request σ ε) (hr : r ∈ rs) :
      (q :: pre).countP (fun p => slots p = slots r) < room free t r ↔
        pre.countP (fun p => slots p = slots r) < room free t' r := by
    have hroom := room_of_place h (hsolid q (by simp)) (hsame q (by simp) r (by simp [hr]))
    rw [hroom, List.countP_cons]
    by_cases heq : slots q = slots r <;> simp [heq]
  constructor
  · intro hfits pre r post hsplit
    rw [← step pre r (by simp [hsplit])]
    exact hfits (q :: pre) r post (by simp [hsplit])
  · intro hfits pre r post hsplit
    cases pre with
    | nil =>
      obtain ⟨rfl, rfl⟩ := List.cons.inj hsplit
      exact room_pos_iff.mpr (by simp [h])
    | cons p pre =>
      obtain ⟨rfl, tail⟩ := List.cons.inj hsplit
      rw [step pre r (by simp [tail])]
      exact hfits pre r post tail

/-- All requests are served exactly when each has room left by the ones before it. -/
theorem placeAll_succeeds_iff (hsolid : Solid free rs) (hsame : SameOrDisjoint rs) :
    (placeAll free t rs).1 = true ↔ FitsAll free t rs := by
  induction rs generalizing t with
  | nil => simp [placeAll, FitsAll]
  | cons q rs ih =>
    cases h : place free t q with
    | none =>
      rw [placeAll_cons_none h]
      refine iff_of_false (by simp) fun hfits => ?_
      have hroom := hfits [] q rs rfl
      exact room_pos_iff.mp (by simpa using hroom) h
    | some u =>
      rw [placeAll_cons_some h, fitsAll_cons_iff h hsolid hsame]
      apply ih
      · exact fun r hr => hsolid r (by simp [hr])
      · exact fun p hp r hr => hsame p (by simp [hp]) r (by simp [hr])

theorem fitsAll_iff_countP : FitsAll free t rs ↔
    ∀ r ∈ rs, rs.countP (fun q => slots q = slots r) ≤ room free t r := by
  constructor
  · intro hfits
    induction rs using List.reverseRecOn with
    | nil => simp
    | append_singleton rs q ih =>
      have hlast := hfits rs q [] rfl
      have hinit : FitsAll free t rs := fun pre r post hsplit =>
        hfits pre r (post ++ [q]) (by simp [hsplit])
      intro r hr
      rw [List.countP_append, List.countP_singleton, room_eq]
      by_cases hsame : slots q = slots r
      · rw [← hsame, ← room_eq]
        simpa using hlast
      · have hmem : r ∈ rs := by
          rcases List.mem_append.mp hr with hr | hr
          · exact hr
          · exact absurd (congrArg slots (List.mem_singleton.mp hr).symm) hsame
        simpa [hsame, room_eq] using ih hinit r hmem
  · rintro hcount pre r post rfl
    have hall := hcount r (by simp)
    rw [List.countP_append, List.countP_cons, decide_eq_true rfl, if_pos rfl] at hall
    omega

theorem fitsAll_perm (hperm : rs.Perm rs') : FitsAll free t rs ↔ FitsAll free t rs' := by
  simp only [fitsAll_iff_countP, hperm.mem_iff, hperm.countP_eq]

end Room

section Groups

structure Groups (σ γ : Type*) where
  members : γ → Finset σ
  away : γ → γ
  away_away : ∀ g, away (away g) = g
  away_ne : ∀ g, away g ≠ g
  disjoint : ∀ g g', g ≠ g' → Disjoint (members g) (members g')

variable {γ : Type*} [DecidableEq γ] (G : Groups σ γ)

/-- The request tries all slots of a group before all slots of the group to fall back on. -/
def Groups.Asks (g : γ) (r : Request σ ε) : Prop :=
  ∃ first second, r = first ++ second ∧ slots first = G.members g ∧
    slots second = G.members (G.away g)

variable {G} {g h : γ}

omit [DecidableEq γ] in
theorem roomIn_of_place (hask : G.Asks h r) (hsolid : ∀ c ∈ r, ¬ free c.2)
    (hplace : place free t r = some t') :
    ∃ k, (0 < roomIn free t (G.members h) ∧ k = h ∨
        roomIn free t (G.members h) = 0 ∧ 0 < roomIn free t (G.members (G.away h)) ∧
          k = G.away h) ∧
      roomIn free t' (G.members k) = roomIn free t (G.members k) - 1 ∧
      ∀ g, g ≠ k → roomIn free t' (G.members g) = roomIn free t (G.members g) := by
  obtain ⟨first, second, rfl, hfirst, hsecond⟩ := hask
  have served (k : γ) (part : Request σ ε) (hpart : place free t part = some t')
      (hslots : slots part = G.members k) (hsub : ∀ c ∈ part, c ∈ first ++ second) :
      roomIn free t' (G.members k) = roomIn free t (G.members k) - 1 ∧
        ∀ g, g ≠ k → roomIn free t' (G.members g) = roomIn free t (G.members g) := by
    obtain ⟨s, hs, _, hroom⟩ := place_chosen hpart fun c hc => hsolid c (hsub c hc)
    rw [hslots] at hs
    refine ⟨by rw [hroom, if_pos hs], fun g hg => ?_⟩
    rw [hroom, if_neg (Finset.disjoint_left.mp (G.disjoint k g hg.symm) hs), Nat.sub_zero]
  cases hown : place free t first with
  | some u =>
    rw [place_append_some hown] at hplace
    obtain rfl := Option.some.inj hplace
    refine ⟨h, Or.inl ⟨?_, rfl⟩, served h first hown hfirst (by simp +contextual)⟩
    rw [Nat.pos_iff_ne_zero, ← hfirst, Ne, ← place_eq_none_iff_roomIn, hown]
    simp
  | none =>
    rw [place_append_none hown] at hplace
    refine ⟨G.away h, Or.inr ⟨?_, ?_, rfl⟩,
      served (G.away h) second hplace hsecond (by simp +contextual)⟩
    · rw [← hfirst, ← place_eq_none_iff_roomIn, hown]
    · rw [Nat.pos_iff_ne_zero, ← hsecond, Ne, ← place_eq_none_iff_roomIn, hplace]
      simp

/-- What requests leave of a group: they take its slots, and those meant for the other group
take what that one has no room for, in whatever order they come. -/
theorem roomIn_of_placeAll {ι : Type*} (home : ι → γ) (request : ι → Request σ ε) {is : List ι}
    (hask : ∀ i ∈ is, G.Asks (home i) (request i)) (hsolid : Solid free (is.map request))
    (hall : (placeAll free t (is.map request)).1 = true) (g : γ) :
    roomIn free (placeAll free t (is.map request)).2 (G.members g) =
      roomIn free t (G.members g) - (is.countP (fun i => home i = g) +
        (is.countP (fun i => home i = G.away g) - roomIn free t (G.members (G.away g)))) := by
  induction is generalizing t with
  | nil => simp [placeAll]
  | cons i is ih =>
    rw [List.map_cons] at hall hsolid ⊢
    cases hplace : place free t (request i) with
    | none => simp [placeAll_cons_none hplace] at hall
    | some u =>
      rw [placeAll_cons_some hplace] at hall ⊢
      rw [ih (fun j hj => hask j (by simp [hj])) (fun q hq => hsolid q (by simp [hq])) hall]
      obtain ⟨k, hk, htaken, hother⟩ := roomIn_of_place (hask i (by simp))
        (hsolid _ (by simp)) hplace
      have hne := G.away_ne g
      have hback := G.away_away g
      simp only [List.countP_cons, decide_eq_true_eq]
      by_cases hhome : home i = g
      · subst hhome
        rw [if_pos rfl, if_neg hne.symm]
        rcases hk with ⟨hroom, rfl⟩ | ⟨hfull, hroom, rfl⟩
        · rw [htaken, hother _ hne]
          omega
        · rw [htaken, hother _ hne.symm]
          omega
      · by_cases hhome' : home i = G.away g
        · rw [hhome', hback] at hk
          rw [if_neg hhome, if_pos hhome']
          rcases hk with ⟨hroom, rfl⟩ | ⟨hfull, hroom, rfl⟩
          · rw [htaken, hother _ hne.symm]
            omega
          · rw [htaken, hother _ hne]
            omega
        · have hunrelated : g ≠ k ∧ G.away g ≠ k := by
            rcases hk with ⟨_, rfl⟩ | ⟨_, _, rfl⟩
            · exact ⟨Ne.symm hhome, Ne.symm hhome'⟩
            · refine ⟨fun heq => hhome' ?_, fun heq => hhome ?_⟩
              · rw [heq, G.away_away]
              · rw [← G.away_away (home i), ← heq, hback]
          rw [if_neg hhome, if_neg hhome', hother _ hunrelated.1, hother _ hunrelated.2]
          rfl

end Groups

end MemoryMappingModule.FirstFit
