import MemoryMappingModule.ByteMemory

/-! Physical memory behind a translation of addresses. Programs store and load bytes at
virtual addresses, a copy routine moves bytes between physical ones. The two meet where the
bytes of a word are translated together. -/

namespace MemoryMappingModule.TranslatedMemory

open ByteMemory

abbrev Contents (p : ℕ) := BitVec p → Byte

variable {v p : ℕ}

section Spans

variable {a b : BitVec v} {i k n m : ℕ}

/-- The `n` addresses from `a` on, around the top of the address space. -/
def span (a : BitVec v) (n : ℕ) : Set (BitVec v) := {b | (b - a).toNat < n}

theorem add_mem_span (a : BitVec v) (hi : i < n) : a + BitVec.ofNat v i ∈ span a n := by
  have hoffset : a + BitVec.ofNat v i - a = BitVec.ofNat v i := by
    rw [BitVec.add_comm, BitVec.add_sub_cancel]
  change (a + BitVec.ofNat v i - a).toNat < n
  rw [hoffset, BitVec.toNat_ofNat]
  exact (Nat.mod_le _ _).trans_lt hi

theorem add_sub_ofNat (a b : BitVec v) : a + BitVec.ofNat v (b - a).toNat = b := by
  rw [BitVec.ofNat_toNat, BitVec.setWidth_eq, BitVec.add_comm, BitVec.sub_add_cancel]

theorem mem_span_iff : b ∈ span a n ↔ ∃ i < n, b = a + BitVec.ofNat v i := by
  constructor
  · intro hb
    exact ⟨(b - a).toNat, hb, (add_sub_ofNat a b).symm⟩
  · rintro ⟨i, hi, rfl⟩
    exact add_mem_span a hi

theorem span_mono (a : BitVec v) (h : n ≤ m) : span a n ⊆ span a m := fun _ hb => hb.trans_le h

theorem add_ofNat_add (a : BitVec v) (i k : ℕ) :
    a + BitVec.ofNat v i + BitVec.ofNat v k = a + BitVec.ofNat v (i + k) := by
  rw [BitVec.ofNat_add, BitVec.add_assoc]

theorem span_add_subset (a : BitVec v) (h : k + n ≤ m) :
    span (a + BitVec.ofNat v k) n ⊆ span a m := by
  intro b hb
  obtain ⟨i, hi, rfl⟩ := mem_span_iff.mp hb
  rw [add_ofNat_add]
  exact add_mem_span a (by omega)

theorem add_ofNat_inj (a : BitVec v) (hi : i < 2 ^ v) (hk : k < 2 ^ v) :
    a + BitVec.ofNat v i = a + BitVec.ofNat v k ↔ i = k := by
  rw [BitVec.add_right_inj, ← BitVec.toNat_inj, BitVec.toNat_ofNat, BitVec.toNat_ofNat,
    Nat.mod_eq_of_lt hi, Nat.mod_eq_of_lt hk]

theorem add_notMem_span (a : BitVec v) (hi : i < k) (hk : k + n ≤ 2 ^ v) :
    a + BitVec.ofNat v i ∉ span (a + BitVec.ofNat v k) n := by
  intro hmem
  obtain ⟨c, hc, heq⟩ := mem_span_iff.mp hmem
  rw [add_ofNat_add, add_ofNat_inj a (by omega) (by omega)] at heq
  omega

theorem span_subset (h : (b - a).toNat + n ≤ m) : span b n ⊆ span a m := by
  rw [← add_sub_ofNat a b]
  exact span_add_subset a h

theorem disjoint_span_add (a : BitVec v) (h : i + n ≤ k) (hk : k + m ≤ 2 ^ v) :
    Disjoint (span (a + BitVec.ofNat v i) n) (span (a + BitVec.ofNat v k) m) := by
  rw [Set.disjoint_left]
  intro b hb
  obtain ⟨j, hj, rfl⟩ := mem_span_iff.mp hb
  rw [add_ofNat_add]
  exact add_notMem_span a (by omega) hk

theorem disjoint_span (h : n ≤ (b - a).toNat) (h' : (b - a).toNat + m ≤ 2 ^ v) :
    Disjoint (span a n) (span b m) := by
  have hapart := disjoint_span_add a (show 0 + n ≤ (b - a).toNat by omega) h'
  rwa [add_sub_ofNat, BitVec.add_zero] at hapart

end Spans

section Frames

variable {α β : Type*} {S T : Set α} {m m' m'' : α → β}

def DiffersIn (S : Set α) (m m' : α → β) : Prop := Set.EqOn m' m Sᶜ

theorem DiffersIn.refl (S : Set α) (m : α → β) : DiffersIn S m m := Set.eqOn_refl m Sᶜ

theorem DiffersIn.mono (h : DiffersIn S m m') (hsub : S ⊆ T) : DiffersIn T m m' :=
  Set.EqOn.mono (Set.compl_subset_compl.mpr hsub) h

theorem DiffersIn.trans (h : DiffersIn S m m') (h' : DiffersIn S m' m'') : DiffersIn S m m'' :=
  Set.EqOn.trans h' h

theorem DiffersIn.kept (h : DiffersIn S m m') (hapart : Disjoint S T) : Set.EqOn m' m T :=
  Set.EqOn.mono (Set.subset_compl_iff_disjoint_left.mpr hapart) h

theorem disjoint_image {f : α → β} (hinj : Set.InjOn f (S ∪ T)) (hapart : Disjoint S T) :
    Disjoint (f '' S) (f '' T) := by
  rw [Set.disjoint_left]
  rintro _ ⟨a, ha, rfl⟩ hmem
  have ha' := (hinj.mem_image_iff Set.subset_union_right (Set.mem_union_left T ha)).mp hmem
  exact Set.disjoint_left.mp hapart ha ha'

theorem differsIn_update [DecidableEq α] (m : α → β) {a : α} (ha : a ∈ S) (b : β) :
    DiffersIn S m (Function.update m a b) := by
  intro x hx
  refine Function.update_of_ne ?_ b m
  rintro rfl
  exact hx ha

end Frames

section Accesses

variable (translate : BitVec v → BitVec p)

def storeBytes : BitVec v → List Byte → Contents p → Contents p
  | _, [], m => m
  | a, b :: bytes, m => storeBytes (a + 1) bytes (Function.update m (translate a) b)

def storeWord (a : BitVec v) (word : BitVec 32) (m : Contents p) : Contents p :=
  storeBytes translate a [byteOf word 0, byteOf word 1, byteOf word 2, byteOf word 3] m

def loadWord (a : BitVec v) (m : Contents p) : BitVec 32 :=
  (m (translate a) ++ m (translate (a + 1)) : BitVec 16) ++
    (m (translate (a + 2)) ++ m (translate (a + 3)) : BitVec 16)

variable {translate} {a : BitVec v} {bytes : List Byte} {m : Contents p}

theorem storeBytes_differsIn : DiffersIn (translate '' span a bytes.length) m
    (storeBytes translate a bytes m) := by
  induction bytes generalizing a m with
  | nil => exact DiffersIn.refl _ m
  | cons b bytes ih =>
    have hfirst : translate a ∈ translate '' span a (b :: bytes).length := by
      refine Set.mem_image_of_mem translate ?_
      simpa using add_mem_span a (i := 0) (n := (b :: bytes).length) (by simp)
    have hrest : span (a + 1) bytes.length ⊆ span a (b :: bytes).length := by
      refine span_add_subset a (k := 1) ?_
      rw [List.length_cons, Nat.add_comm]
    exact (differsIn_update m hfirst b).trans (ih.mono (Set.image_mono hrest))

theorem storeBytes_apply (hinj : Set.InjOn translate (span a bytes.length))
    (hlength : bytes.length ≤ 2 ^ v) {i : ℕ} (hi : i < bytes.length) :
    storeBytes translate a bytes m (translate (a + BitVec.ofNat v i)) = bytes[i] := by
  induction bytes generalizing a m i with
  | nil => simp at hi
  | cons b bytes ih =>
    rw [List.length_cons] at hinj hlength hi
    have hrest : span (a + 1) bytes.length ⊆ span a (bytes.length + 1) :=
      span_add_subset a (k := 1) (by omega)
    rw [storeBytes]
    cases i with
    | zero =>
      have hfirst : a ∈ span a (bytes.length + 1) := by
        simpa using add_mem_span a (i := 0) (n := bytes.length + 1) (by omega)
      have hnot : translate a ∉ translate '' span (a + 1) bytes.length := by
        rw [hinj.mem_image_iff hrest hfirst]
        simpa using add_notMem_span a (i := 0) (k := 1) (n := bytes.length) (by omega) (by omega)
      have hkept : storeBytes translate (a + 1) bytes (Function.update m (translate a) b)
          (translate a) = Function.update m (translate a) b (translate a) :=
        storeBytes_differsIn hnot
      rw [BitVec.add_zero, hkept, Function.update_self, List.getElem_cons_zero]
    | succ i =>
      have hshift : a + BitVec.ofNat v (i + 1) = a + 1 + BitVec.ofNat v i := by
        rw [Nat.add_comm i 1, BitVec.ofNat_add, ← BitVec.add_assoc]
        rfl
      rw [hshift, ih (hinj.mono hrest) (by omega) (by omega), List.getElem_cons_succ]

theorem storeWord_differsIn {word : BitVec 32} :
    DiffersIn (translate '' span a 4) m (storeWord translate a word m) :=
  storeBytes_differsIn

theorem storeWord_apply (hinj : Set.InjOn translate (span a 4)) (hv : 4 ≤ 2 ^ v) {word : BitVec 32}
    {k : ℕ} (hk : k < 4) :
    storeWord translate a word m (translate (a + BitVec.ofNat v k)) = byteOf word k := by
  rw [storeWord, storeBytes_apply hinj hv hk]
  interval_cases k <;> rfl

theorem byteOf_append (b₀ b₁ b₂ b₃ : Byte) {k : ℕ} (hk : k < 4) :
    byteOf ((b₀ ++ b₁ : BitVec 16) ++ (b₂ ++ b₃ : BitVec 16)) k = [b₀, b₁, b₂, b₃][k] := by
  apply BitVec.eq_of_getLsbD_eq
  intro i hi
  rw [byteOf, BitVec.getLsbD_extractLsb', BitVec.getLsbD_append, BitVec.getLsbD_append,
    BitVec.getLsbD_append]
  interval_cases k <;> simp [hi] <;> grind

theorem byteOf_loadWord {k : ℕ} (hk : k < 4) :
    byteOf (loadWord translate a m) k = m (translate (a + BitVec.ofNat v k)) := by
  rw [loadWord, byteOf_append _ _ _ _ hk]
  interval_cases k
  · rw [BitVec.add_zero]
    rfl
  · rfl
  · rfl
  · rfl

theorem loadWord_eq {word : BitVec 32}
    (hbytes : ∀ k < 4, m (translate (a + BitVec.ofNat v k)) = byteOf word k) :
    loadWord translate a m = word := by
  have hfirst : m (translate a) = byteOf word 0 := by simpa using hbytes 0 (by decide)
  have hrest (k : ℕ) (hk : k < 4) := hbytes k hk
  rw [loadWord, hfirst, show m (translate (a + 1)) = _ from hrest 1 (by decide),
    show m (translate (a + 2)) = _ from hrest 2 (by decide),
    show m (translate (a + 3)) = _ from hrest 3 (by decide), append_bytes]

end Accesses

section CopyThrough

variable {ε : Type*} (load store : BitVec v → Except ε (BitVec p))

/-- A copy of `n` bytes, one after the other, by loads and stores that may fault. -/
def copyThrough : ℕ → BitVec v → BitVec v → Contents p → Except ε (Contents p)
  | 0, _, _, m => .ok m
  | n + 1, dst, src, m => do
    let loaded ← load src
    let stored ← store dst
    copyThrough n (dst + 1) (src + 1) (Function.update m stored (m loaded))

variable {load store} {t f : BitVec v → BitVec p} {dst src : BitVec v} {n : ℕ} {m m' : Contents p}

def bytesAt (f : BitVec v → BitVec p) (a : BitVec v) (n : ℕ) (m : Contents p) : List Byte :=
  (List.range n).map fun i => m (f (a + BitVec.ofNat v i))

theorem add_ofNat_succ (a : BitVec v) (i : ℕ) :
    a + BitVec.ofNat v (i + 1) = a + 1 + BitVec.ofNat v i := by
  rw [Nat.add_comm i 1, ← add_ofNat_add]
  rfl

theorem bytesAt_succ (a : BitVec v) :
    bytesAt f a (n + 1) m = m (f a) :: bytesAt f (a + 1) n m := by
  rw [bytesAt, List.range_succ_eq_map, List.map_cons, List.map_map]
  congr 1
  · rw [BitVec.add_zero]
  · exact List.map_congr_left fun i _ => congrArg (fun b => m (f b)) (add_ofNat_succ a i)

theorem bytesAt_congr {a : BitVec v} (hsame : Set.EqOn m' m (f '' span a n)) :
    bytesAt f a n m' = bytesAt f a n m :=
  List.map_congr_left fun _ hi =>
    hsame (Set.mem_image_of_mem f (add_mem_span a (List.mem_range.mp hi)))

/-- Where no access faults, the bytes are stored as if they all had been loaded before. -/
theorem copyThrough_eq (hload : ∀ a ∈ span src n, load a = .ok (f a))
    (hstore : ∀ a ∈ span dst n, store a = .ok (t a))
    (hapart : Disjoint (t '' span dst n) (f '' span src n)) :
    copyThrough load store n dst src m = .ok (storeBytes t dst (bytesAt f src n m) m) := by
  induction n generalizing dst src m with
  | zero => rfl
  | succ n ih =>
    have hfirst (a : BitVec v) : a ∈ span a (n + 1) := by
      simpa using add_mem_span a (Nat.succ_pos n)
    have hrest (a : BitVec v) : span (a + 1) n ⊆ span a (n + 1) :=
      span_add_subset a (k := 1) (by omega)
    have hapart' := hapart.mono (Set.image_mono (hrest dst)) (Set.image_mono (hrest src))
    have hkept : Set.EqOn (Function.update m (t dst) (m (f src))) m (f '' span (src + 1) n) :=
      (differsIn_update m (Set.mem_image_of_mem t (hfirst dst)) _).kept
        (hapart.mono_right (Set.image_mono (hrest src)))
    rw [copyThrough, hload src (hfirst src), hstore dst (hfirst dst)]
    change copyThrough load store n (dst + 1) (src + 1) _ = _
    rw [ih (fun a ha => hload a (hrest src ha)) (fun a ha => hstore a (hrest dst ha)) hapart',
      bytesAt_congr hkept, bytesAt_succ, storeBytes]

theorem copyThrough_copies (hload : ∀ a ∈ span src n, load a = .ok (f a))
    (hstore : ∀ a ∈ span dst n, store a = .ok (t a)) (hn : n ≤ 2 ^ v)
    (hinj : Set.InjOn t (span dst n)) (hapart : Disjoint (t '' span dst n) (f '' span src n))
    (m : Contents p) :
    ∃ m', copyThrough load store n dst src m = .ok m' ∧
      (∀ i < n, m' (t (dst + BitVec.ofNat v i)) = m (f (src + BitVec.ofNat v i))) ∧
      DiffersIn (t '' span dst n) m m' := by
  have hlength : (bytesAt f src n m).length = n := by simp [bytesAt]
  refine ⟨_, copyThrough_eq hload hstore hapart, fun i hi => ?_, ?_⟩
  · rw [storeBytes_apply (by rwa [hlength]) (by rwa [hlength]) (by rwa [hlength])]
    simp [bytesAt]
  · have hdiffers : DiffersIn (t '' span dst (bytesAt f src n m).length) m
        (storeBytes t dst (bytesAt f src n m) m) := storeBytes_differsIn
    rwa [hlength] at hdiffers

end CopyThrough

section Copies

/-- A routine that copies physical bytes to where they do not overlap, and nothing else. -/
structure Copies (copy : BitVec p → BitVec p → BitVec p → Contents p → Contents p) : Prop where
  bytes : ∀ dst src n m, Disjoint (span dst n.toNat) (span src n.toNat) → ∀ i < n.toNat,
    copy dst src n m (dst + BitVec.ofNat p i) = m (src + BitVec.ofNat p i)
  others : ∀ dst src n m, Disjoint (span dst n.toNat) (span src n.toNat) →
    DiffersIn (span dst n.toNat) m (copy dst src n m)

def copyBetween (dst src n : BitVec p) (m : Contents p) : Contents p := fun a =>
  if (a - dst).toNat < n.toNat then m (src + (a - dst)) else m a

theorem copyBetween_copies : Copies (copyBetween (p := p)) := by
  constructor
  · intro dst src n m _ i hi
    have hlt : i < 2 ^ p := hi.trans n.isLt
    have hoffset : dst + BitVec.ofNat p i - dst = BitVec.ofNat p i := by
      rw [BitVec.add_comm, BitVec.add_sub_cancel]
    rw [copyBetween, hoffset, BitVec.toNat_ofNat, Nat.mod_eq_of_lt hlt, if_pos hi]
  · intro dst src n m _ a ha
    exact if_neg ha

/-- The bytes of the word at an address are translated together. -/
def Together (translate : BitVec v → BitVec p) (a : BitVec v) : Prop :=
  ∀ k < 4, translate (a + BitVec.ofNat v k) = translate a + BitVec.ofNat p k

variable {translate : BitVec v → BitVec p} {a : BitVec v}

theorem Together.image_span (h : Together translate a) :
    translate '' span a 4 = span (translate a) 4 := by
  ext b
  rw [mem_span_iff, Set.mem_image]
  constructor
  · rintro ⟨c, hc, rfl⟩
    obtain ⟨k, hk, rfl⟩ := mem_span_iff.mp hc
    exact ⟨k, hk, h k hk⟩
  · rintro ⟨k, hk, rfl⟩
    exact ⟨a + BitVec.ofNat v k, add_mem_span a hk, h k hk⟩

theorem together_of_pages {page : ℕ} (hpage : 4 ∣ page)
    (hpages : ∀ (a : BitVec v) (i : ℕ), a.toNat % page + i < page →
      translate (a + BitVec.ofNat v i) = translate a + BitVec.ofNat p i)
    (ha : 4 ∣ a.toNat) (hpos : 0 < page) : Together translate a := by
  intro k hk
  have hlow : 4 ∣ a.toNat % page := (Nat.dvd_mod_iff hpage).mpr ha
  have hlt := Nat.mod_lt a.toNat hpos
  exact hpages a k (by omega)

end Copies

end MemoryMappingModule.TranslatedMemory
