import MemoryMappingModule.PowerPc

/-! How a PowerPC processor translates addresses. Eight pairs of special purpose registers map
blocks for data, eight others for instructions. An address in no block goes by the register of
its segment to a page, which the page table gives. Blocks and pages also say which accesses they
allow. -/

namespace MemoryMappingModule.MemoryManagement

open PowerPc

inductive Access where
  | load
  | store
  | fetch
deriving DecidableEq, Repr

inductive Fault where
  | protection
  /-- There is no page. -/
  | unmapped
  /-- The address is in two blocks, or its segment is no memory. -/
  | undefined
deriving DecidableEq, Repr

/-- What an access to an address comes to, in supervisor mode or not. -/
abbrev Space := Bool → Access → Word → Except Fault Word

structure Bat where
  upper : Word
  lower : Word
deriving DecidableEq, Repr

namespace Bat

def lengthMask (b : Bat) : Word := (b.upper >>> 2) &&& 0x7FF

def Valid (b : Bat) (supervisor : Bool) : Prop :=
  b.upper.getLsbD (if supervisor then 1 else 0) = true

def Covers (b : Bat) (supervisor : Bool) (ea : Word) : Prop :=
  b.Valid supervisor ∧ (ea >>> 17) &&& ~~~b.lengthMask = b.upper >>> 17

def Allows (b : Bat) : Access → Prop
  | .store => b.lower &&& 3 = 2
  | _ => b.lower &&& 3 ≠ 0

def physical (b : Bat) (ea : Word) : Word :=
  ((b.lower >>> 17 ||| ((ea >>> 17) &&& b.lengthMask)) <<< 17) ||| (ea &&& 0x1FFFF)

instance (b : Bat) (supervisor : Bool) (ea : Word) : Decidable (b.Covers supervisor ea) :=
  inferInstanceAs (Decidable (_ = _ ∧ _))

instance (b : Bat) (a : Access) : Decidable (b.Allows a) :=
  match a with
  | .store => inferInstanceAs (Decidable (_ = _))
  | .load | .fetch => inferInstanceAs (Decidable (_ ≠ _))

end Bat

def batRegister (a : Access) (i : Fin 8) : Spr :=
  BitVec.ofNat 10 (528 + 32 * (i.val / 4) + 2 * (i.val % 4) + if a = .fetch then 0 else 8)

def bat (spr : Spr → Word) (a : Access) (i : Fin 8) : Bat :=
  ⟨spr (batRegister a i), spr (batRegister a i + 1)⟩

/-- What a page allows under the key that its segment has for the mode. -/
def PageAllows (key : Bool) (protection : Word) : Access → Prop
  | .store => protection = 2 ∨ key = false ∧ protection ≠ 3
  | _ => key = true → protection ≠ 0

instance (key : Bool) (protection : Word) (a : Access) : Decidable (PageAllows key protection a) :=
  match a with
  | .store => inferInstanceAs (Decidable (_ ∨ _))
  | .load | .fetch => inferInstanceAs (Decidable (_ → _))

section Translate

variable (walk : Word → Word → Option (Word × Word))

/-- Under a segment's ID the page table has, at most, a physical address for an address, and the
protection of its page. -/
def throughPages (segment : Word) (supervisor : Bool) (a : Access) (ea : Word) :
    Except Fault Word :=
  if segment.getLsbD 31 = true then .error .undefined
  else if a = .fetch ∧ segment.getLsbD 28 = true then .error .protection
  else
    match walk (segment &&& 0x00FFFFFF) ea with
    | none => .error .unmapped
    | some (pa, protection) =>
      if PageAllows (segment.getLsbD (if supervisor then 30 else 29)) protection a then .ok pa
      else .error .protection

def coveringBats (spr : Spr → Word) (supervisor : Bool) (a : Access) (ea : Word) : List (Fin 8) :=
  (List.finRange 8).filter fun i => (bat spr a i).Covers supervisor ea

def segmentNumber (ea : Word) : Fin 16 := (ea.extractLsb' 28 4).toFin

def translate (spr : Spr → Word) (segments : Fin 16 → Word) : Space := fun supervisor a ea =>
  match coveringBats spr supervisor a ea with
  | [] => throughPages walk (segments (segmentNumber ea)) supervisor a ea
  | [i] => if (bat spr a i).Allows a then .ok ((bat spr a i).physical ea) else .error .protection
  | _ :: _ :: _ => .error .undefined

end Translate

variable {walk walk' : Word → Word → Option (Word × Word)} {spr spr' : Spr → Word}
  {segments segments' : Fin 16 → Word} {supervisor : Bool} {a : Access} {ea : Word}

theorem mem_coveringBats {i : Fin 8} :
    i ∈ coveringBats spr supervisor a ea ↔ (bat spr a i).Covers supervisor ea := by
  simp [coveringBats]

theorem coveringBats_eq_singleton {i : Fin 8} (hi : (bat spr a i).Covers supervisor ea)
    (hothers : ∀ k ≠ i, ¬ (bat spr a k).Covers supervisor ea) :
    coveringBats spr supervisor a ea = [i] := by
  have hnodup : (coveringBats spr supervisor a ea).Nodup := (List.nodup_finRange 8).filter _
  refine List.perm_singleton.mp ((List.perm_ext_iff_of_nodup hnodup (List.nodup_singleton i)).mpr
    fun k => ?_)
  rw [mem_coveringBats, List.mem_singleton]
  constructor
  · intro hk
    by_contra hne
    exact hothers k hne hk
  · rintro rfl
    exact hi

theorem translate_of_covers {i : Fin 8} (hi : (bat spr a i).Covers supervisor ea)
    (hothers : ∀ k ≠ i, ¬ (bat spr a k).Covers supervisor ea) (hallows : (bat spr a i).Allows a) :
    translate walk spr segments supervisor a ea = .ok ((bat spr a i).physical ea) := by
  rw [translate, coveringBats_eq_singleton hi hothers]
  exact if_pos hallows

theorem translate_of_not_covers (hnone : ∀ k, ¬ (bat spr a k).Covers supervisor ea) :
    translate walk spr segments supervisor a ea =
      throughPages walk (segments (segmentNumber ea)) supervisor a ea := by
  have hempty : coveringBats spr supervisor a ea = [] :=
    List.eq_nil_iff_forall_not_mem.mpr fun k hk => hnone k (mem_coveringBats.mp hk)
  rw [translate, hempty]

theorem translate_congr
    (hbats : ∀ k, bat spr' a k = bat spr a k ∨
      ¬ (bat spr' a k).Covers supervisor ea ∧ ¬ (bat spr a k).Covers supervisor ea)
    (hpages : throughPages walk' (segments' (segmentNumber ea)) supervisor a ea =
      throughPages walk (segments (segmentNumber ea)) supervisor a ea) :
    translate walk' spr' segments' supervisor a ea =
      translate walk spr segments supervisor a ea := by
  have hcovers (k : Fin 8) : (bat spr' a k).Covers supervisor ea ↔
      (bat spr a k).Covers supervisor ea := by
    rcases hbats k with hsame | ⟨hnew, hold⟩
    · rw [hsame]
    · exact iff_of_false hnew hold
  have hcovering : coveringBats spr' supervisor a ea = coveringBats spr supervisor a ea :=
    List.filter_congr fun k _ => decide_eq_decide.mpr (hcovers k)
  rw [translate, translate, hcovering, hpages]
  split
  · rfl
  · next i hi =>
    have hin : i ∈ coveringBats spr supervisor a ea := by simp [hi]
    rcases hbats i with hsame | ⟨_, hold⟩
    · rw [hsame]
    · exact absurd (mem_coveringBats.mp hin) hold
  · rfl

end MemoryMappingModule.MemoryManagement
