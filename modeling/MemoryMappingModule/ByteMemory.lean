import Mathlib

/-! Byte-addressed memory with big-endian words. Memory is a partial map; a load
reads its bytes from the lowest address up and faults at the first one that is not
mapped; a store of bytes maps what it writes. -/

namespace MemoryMappingModule.ByteMemory

abbrev Byte := BitVec 8

abbrev Memory (w : ℕ) := BitVec w → Option Byte

variable {w : ℕ}

/-- The byte of a word at an offset below 4, the most significant one first. -/
def byteOf (word : BitVec 32) (i : ℕ) : Byte := word.extractLsb' (8 * (3 - i)) 8

def Memory.ofWords (words : List (BitVec w × BitVec 32)) : Memory w := fun a =>
  some (byteOf ((words.lookup (a - a % 4)).getD 0) (a % 4).toNat)

def Memory.restrict (m : Memory w) (P : BitVec w → Prop) [DecidablePred P] : Memory w :=
  fun a => if P a then m a else none

def Memory.ofBytes (bytes : BitVec w → Byte) : Memory w := fun a => some (bytes a)

def load8 (m : Memory w) (a : BitVec w) : Except (BitVec w) Byte :=
  match m a with
  | some b => .ok b
  | none => .error a

def load16 (m : Memory w) (a : BitVec w) : Except (BitVec w) (BitVec 16) := do
  let high ← load8 m a
  let low ← load8 m (a + 1)
  return high ++ low

def load32 (m : Memory w) (a : BitVec w) : Except (BitVec w) (BitVec 32) := do
  let high ← load16 m a
  let low ← load16 m (a + 2)
  return high ++ low

/-- The `n` addresses from `a` on, around the top of the address space, are mapped. -/
def Mapped (m : Memory w) (a : BitVec w) (n : ℕ) : Prop :=
  ∀ i < n, (m (a + BitVec.ofNat w i)).isSome

def Returns {ε α : Type*} (x : Except ε α) : Prop := ∃ v, x = .ok v

section Returns

universe u

variable {ε : Type*} {α β : Type u} {x : Except ε α} {f : α → Except ε β}

theorem bind_eq_ok_iff {b : β} : (x >>= f) = .ok b ↔ ∃ a, x = .ok a ∧ f a = .ok b := by
  cases x <;> simp [bind, Except.bind]

theorem returns_bind_iff : Returns (x >>= f) ↔ ∃ a, x = .ok a ∧ Returns (f a) := by
  simp only [Returns, bind_eq_ok_iff]
  constructor
  · rintro ⟨b, a, ha, hb⟩
    exact ⟨a, ha, b, hb⟩
  · rintro ⟨a, ha, b, hb⟩
    exact ⟨b, a, ha, hb⟩

theorem not_returns_iff : ¬ Returns x ↔ ∃ e, x = .error e := by
  cases x <;> simp [Returns]

end Returns

variable {m : Memory w} {a : BitVec w}

theorem returns_load8_iff : Returns (load8 m a) ↔ (m a).isSome := by
  rw [load8]
  cases m a <;> simp [Returns]

theorem returns_load16_iff : Returns (load16 m a) ↔ Mapped m a 2 := by
  have bytes : Returns (load16 m a) ↔ Returns (load8 m a) ∧ Returns (load8 m (a + 1)) := by
    simp only [load16, Returns, bind_eq_ok_iff]
    simp [pure, Except.pure]
  rw [bytes, returns_load8_iff, returns_load8_iff, Mapped]
  constructor
  · rintro ⟨h0, h1⟩ i hi
    interval_cases i
    · simpa using h0
    · simpa using h1
  · intro h
    exact ⟨by simpa using h 0 (by decide), by simpa using h 1 (by decide)⟩

theorem returns_load32_iff : Returns (load32 m a) ↔ Mapped m a 4 := by
  have halves : Returns (load32 m a) ↔ Returns (load16 m a) ∧ Returns (load16 m (a + 2)) := by
    simp only [load32, Returns, bind_eq_ok_iff]
    simp [pure, Except.pure]
  rw [halves, returns_load16_iff, returns_load16_iff, Mapped, Mapped, Mapped]
  have shift (i : ℕ) : a + 2 + BitVec.ofNat w i = a + BitVec.ofNat w (2 + i) := by
    rw [BitVec.ofNat_add, BitVec.add_assoc]
    rfl
  simp only [shift]
  constructor
  · rintro ⟨h, h'⟩ i hi
    by_cases hlow : i < 2
    · exact h i hlow
    · have := h' (i - 2) (by omega)
      rwa [show 2 + (i - 2) = i by omega] at this
  · intro h
    exact ⟨fun i hi => h i (by omega), fun i hi => h (2 + i) (by omega)⟩

theorem Mapped.ofBytes (bytes : BitVec w → Byte) (a : BitVec w) (n : ℕ) :
    Mapped (Memory.ofBytes bytes) a n := fun _ _ => rfl

section Stores

variable {dst : BitVec w}

def copyBytes (m : Memory w) (dst : BitVec w) (bytes : List Byte) : Memory w := fun a =>
  match bytes[(a - dst).toNat]? with
  | some b => some b
  | none => m a

theorem copyBytes_of_lt {f : ℕ → Byte} {n : ℕ} (h : (a - dst).toNat < n) :
    copyBytes m dst ((List.range n).map f) a = some (f (a - dst).toNat) := by
  rw [copyBytes, List.getElem?_map, List.getElem?_range h]
  rfl

theorem copyBytes_of_not_lt {bytes : List Byte} (h : ¬ (a - dst).toNat < bytes.length) :
    copyBytes m dst bytes a = m a := by
  rw [copyBytes, List.getElem?_eq_none (Nat.not_lt.mp h)]

theorem append_bytes (word : BitVec 32) :
    (byteOf word 0 ++ byteOf word 1 : BitVec 16) ++ (byteOf word 2 ++ byteOf word 3 : BitVec 16) =
      word := by
  apply BitVec.eq_of_getLsbD_eq
  intro i hi
  simp only [byteOf, BitVec.getLsbD_append, BitVec.getLsbD_extractLsb']
  split_ifs <;> simp <;> grind

theorem load32_eq (m : Memory w) (a : BitVec w) : load32 m a = do
    let b₀ ← load8 m (a + BitVec.ofNat w 0)
    let b₁ ← load8 m (a + BitVec.ofNat w 1)
    let b₂ ← load8 m (a + BitVec.ofNat w 2)
    let b₃ ← load8 m (a + BitVec.ofNat w 3)
    return (b₀ ++ b₁ : BitVec 16) ++ (b₂ ++ b₃ : BitVec 16) := by
  have hzero : a + BitVec.ofNat w 0 = a := BitVec.add_zero a
  have hsum : a + 2 + 1 = a + BitVec.ofNat w 3 := by
    rw [BitVec.add_assoc]
    exact congrArg (a + ·) (BitVec.ofNat_add 2 1).symm
  rw [load32, load16, load16, hsum, hzero]
  simp only [bind_assoc, pure_bind]
  rfl

theorem load32_congr {m' : Memory w}
    (h : ∀ i < 4, m' (a + BitVec.ofNat w i) = m (a + BitVec.ofNat w i)) :
    load32 m' a = load32 m a := by
  have load {i : ℕ} (hi : i < 4) : load8 m' (a + BitVec.ofNat w i) =
      load8 m (a + BitVec.ofNat w i) := by
    rw [load8, load8, h i hi]
  rw [load32_eq, load32_eq, load (by decide), load (by decide), load (by decide),
    load (by decide)]

theorem load32_of_bytes {word : BitVec 32}
    (h : ∀ i < 4, m (a + BitVec.ofNat w i) = some (byteOf word i)) : load32 m a = .ok word := by
  have load {i : ℕ} (hi : i < 4) : load8 m (a + BitVec.ofNat w i) = .ok (byteOf word i) := by
    rw [load8, h i hi]
  rw [load32_eq, load (by decide), load (by decide), load (by decide), load (by decide)]
  exact congrArg Except.ok (append_bytes word)

end Stores

end MemoryMappingModule.ByteMemory
