import MemoryMappingModule.StepLoop

/-! A part of the PowerPC instruction set: loads of constants, moves to and from special
purpose registers, returns and system calls. Privileged registers are out of reach in user
mode. A routine runs until it comes to the address it was given to return to; a stretch of
code without branches runs as its instructions one after the other. -/

namespace MemoryMappingModule.PowerPc

open StepLoop

abbrev Word := BitVec 32

abbrev Gpr := BitVec 5

abbrev Spr := BitVec 10

inductive Instruction where
  | addi (rt ra : Gpr) (si : BitVec 16)
  | addis (rt ra : Gpr) (si : BitVec 16)
  | ori (ra rs : Gpr) (ui : BitVec 16)
  | mfspr (rt : Gpr) (spr : Spr)
  | mtspr (spr : Spr) (rs : Gpr)
  | sync
  | eieio
  | isync
  | blr
  | bctr
  | sc
deriving DecidableEq, Repr

def decode (w : Word) : Option Instruction :=
  let rt : Gpr := w.extractLsb' 21 5
  let ra : Gpr := w.extractLsb' 16 5
  -- the two halves of the register's number are swapped
  let spr : Spr := (w.extractLsb' 11 5 : BitVec 5) ++ (w.extractLsb' 16 5 : BitVec 5)
  match (w.extractLsb' 26 6).toNat with
  | 14 => some (.addi rt ra (w.extractLsb' 0 16))
  | 15 => some (.addis rt ra (w.extractLsb' 0 16))
  | 17 => if w = 0x44000002 then some .sc else none
  | 19 =>
    if w = 0x4e800020 then some .blr
    else if w = 0x4e800420 then some .bctr
    else if w = 0x4c00012c then some .isync
    else none
  | 24 => some (.ori ra rt (w.extractLsb' 0 16))
  | 31 =>
    if w = 0x7c0004ac then some .sync
    else if w = 0x7c0006ac then some .eieio
    else
      match (w.extractLsb' 0 11).toNat with
      | 678 => some (.mfspr rt spr)
      | 934 => some (.mtspr spr rt)
      | _ => none
  | _ => none

structure Cpu where
  pc : Word
  supervisor : Bool
  gpr : Gpr → Word
  spr : Spr → Word

def lr : Spr := 8

def ctr : Spr := 9

def Privileged (r : Spr) : Prop := r.getLsbD 4 = true

instance (r : Spr) : Decidable (Privileged r) := inferInstanceAs (Decidable (_ = true))

namespace Cpu

def advance (c : Cpu) : Cpu := { c with pc := c.pc + 4 }

def setGpr (c : Cpu) (r : Gpr) (w : Word) : Cpu := { c with gpr := Function.update c.gpr r w }

def setSpr (c : Cpu) (r : Spr) (w : Word) : Cpu := { c with spr := Function.update c.spr r w }

/-- Branches ignore the low two bits of their target. -/
def jump (c : Cpu) (target : Word) : Cpu := { c with pc := target &&& 0xFFFFFFFC }

def MayUse (c : Cpu) (r : Spr) : Prop := c.supervisor = true ∨ ¬ Privileged r

instance (c : Cpu) (r : Spr) : Decidable (c.MayUse r) := inferInstanceAs (Decidable (_ ∨ _))

end Cpu

def execute (call : Cpu → Option Cpu) (c : Cpu) : Instruction → Option Cpu
  | .addi rt ra si =>
    some (c.setGpr rt ((if ra = 0 then 0 else c.gpr ra) + si.signExtend 32)).advance
  | .addis rt ra si =>
    some (c.setGpr rt ((if ra = 0 then 0 else c.gpr ra) + si.setWidth 32 <<< 16)).advance
  | .ori ra rs ui => some (c.setGpr ra (c.gpr rs ||| ui.setWidth 32)).advance
  | .mfspr rt r => if c.MayUse r then some (c.setGpr rt (c.spr r)).advance else none
  | .mtspr r rs => if c.MayUse r then some (c.setSpr r (c.gpr rs)).advance else none
  | .sync => some c.advance
  | .eieio => some c.advance
  | .isync => some c.advance
  | .blr => some (c.jump (c.spr lr))
  | .bctr => some (c.jump (c.spr ctr))
  | .sc => call c

/-- One instruction of a routine, unless it has returned; a state it cannot go on from is a
fault. -/
def routinePass (call : Cpu → Option Cpu) (fetch : Word → Word) (ret : Word) (c : Cpu) :
    Except Cpu (Cpu ⊕ Cpu) :=
  if c.pc = ret then .ok (.inr c)
  else
    match (decode (fetch c.pc)).bind (execute call c) with
    | some c' => .ok (.inl c')
    | none => .error c

/-- The registers that change as threads and interrupts come and go: those of user mode, DSISR
and DAR, the decrementer, SRR0 and SRR1, SPRG0 to 3, the time base, GQR0 to 7, and those of the
performance monitor. All others are the core's. -/
def Passing (r : Spr) : Prop :=
  ¬ Privileged r ∨ 18 ≤ r ∧ r < 20 ∨ r = 22 ∨ 26 ≤ r ∧ r < 28 ∨ 272 ≤ r ∧ r < 276 ∨
    284 ≤ r ∧ r < 286 ∨ 912 ≤ r ∧ r < 920 ∨ 952 ≤ r ∧ r < 960

instance (r : Spr) : Decidable (Passing r) := inferInstanceAs (Decidable (_ ∨ _))

def Cpu.returnAddress (c : Cpu) : Word := c.spr lr &&& 0xFFFFFFFC

/-- A system call enters the routine that its number selects, in supervisor mode, and has it
return to an address of its own; if the routine does, the caller goes on behind its call, with
the registers of the core as the routine left them. -/
structure Serves (handlers : Word → Option Word) (fetch : Word → Word) (own : Set Word)
    (call : Cpu → Option Cpu) : Prop where
  serve : ∀ (c : Cpu) (entry : Word), handlers (c.gpr 0 >>> 8) = some entry →
    ∃ start : Cpu, start.pc = entry ∧ start.supervisor = true ∧ start.returnAddress ∈ own ∧
    (∀ r, ¬ Passing r → start.spr r = c.spr r) ∧
    ∀ n stop, run (routinePass (fun _ => none) fetch start.returnAddress) n start =
        some (.ok stop) →
      ∃ c', call c = some c' ∧ c'.pc = c.pc + 4 ∧ c'.supervisor = c.supervisor ∧
        c'.spr lr = c.spr lr ∧ ∀ r, ¬ Passing r → c'.spr r = stop.spr r

def Listing (fetch : Word → Word) (a : Word) (is : List Instruction) : Prop :=
  ∀ k (hk : k < is.length), decode (fetch (a + BitVec.ofNat 32 (4 * k))) = some is[k]

def executeAll (call : Cpu → Option Cpu) (is : List Instruction) (c : Cpu) : Option Cpu :=
  is.foldlM (execute call) c

def Instruction.Straight (i : Instruction) : Prop := i ≠ .blr ∧ i ≠ .bctr ∧ i ≠ .sc

instance : DecidablePred Instruction.Straight := fun _ => inferInstanceAs (Decidable (_ ∧ _))

variable {call : Cpu → Option Cpu} {fetch : Word → Word} {ret a : Word} {c c' : Cpu}
  {i : Instruction} {is : List Instruction}

theorem execute_pc (hi : i.Straight) (hexec : execute call c i = some c') : c'.pc = c.pc + 4 := by
  obtain ⟨hblr, hbctr, hsc⟩ := hi
  cases i with
  | blr => exact absurd rfl hblr
  | bctr => exact absurd rfl hbctr
  | sc => exact absurd rfl hsc
  | mfspr rt r =>
    simp only [execute] at hexec
    split_ifs at hexec
    obtain rfl := Option.some.inj hexec
    rfl
  | mtspr r rs =>
    simp only [execute] at hexec
    split_ifs at hexec
    obtain rfl := Option.some.inj hexec
    rfl
  | _ =>
    obtain rfl := Option.some.inj hexec
    rfl

theorem add_ofNat_succ (a : Word) (k : ℕ) :
    a + 4 + BitVec.ofNat 32 (4 * k) = a + BitVec.ofNat 32 (4 * (k + 1)) := by
  rw [BitVec.add_assoc, Nat.mul_succ, Nat.add_comm, BitVec.ofNat_add]
  rfl

theorem Listing.first (h : Listing fetch a (i :: is)) : decode (fetch a) = some i := by
  simpa using h 0 (Nat.succ_pos _)

theorem Listing.rest (h : Listing fetch a (i :: is)) : Listing fetch (a + 4) is := by
  intro k hk
  rw [add_ofNat_succ]
  exact h (k + 1) (Nat.succ_lt_succ hk)

theorem Listing.left {js : List Instruction} (h : Listing fetch a (is ++ js)) :
    Listing fetch a is := by
  intro k hk
  rw [h k (by rw [List.length_append]; omega), List.getElem_append_left hk]

theorem Listing.right {js : List Instruction} (h : Listing fetch a (is ++ js)) :
    Listing fetch (a + BitVec.ofNat 32 (4 * is.length)) js := by
  intro k hk
  have hword := h (is.length + k) (by rw [List.length_append]; omega)
  rw [Nat.mul_add, BitVec.ofNat_add, ← BitVec.add_assoc] at hword
  rw [hword, List.getElem_append_right (Nat.le_add_right _ _)]
  simp only [Nat.add_sub_cancel_left]

theorem routinePass_of_decode (hpc : c.pc ≠ ret) (hdecode : decode (fetch c.pc) = some i)
    (hexec : execute call c i = some c') : routinePass call fetch ret c = .ok (.inl c') := by
  rw [routinePass, if_neg hpc, hdecode, Option.bind_some, hexec]

theorem run_straight (hlisting : Listing fetch c.pc is) (hstraight : ∀ i ∈ is, i.Straight)
    (hret : ∀ k < is.length, c.pc + BitVec.ofNat 32 (4 * k) ≠ ret)
    (hexec : executeAll call is c = some c') (n : ℕ) :
    run (routinePass call fetch ret) (is.length + n) c = run (routinePass call fetch ret) n c' ∧
      c'.pc = c.pc + BitVec.ofNat 32 (4 * is.length) := by
  induction is generalizing c with
  | nil =>
    obtain rfl := Option.some.inj hexec
    exact ⟨by rw [List.length_nil, Nat.zero_add], (BitVec.add_zero _).symm⟩
  | cons i is ih =>
    rw [executeAll, List.foldlM_cons, Option.bind_eq_bind, Option.bind_eq_some_iff] at hexec
    obtain ⟨u, hfirst, hrest⟩ := hexec
    have hpc := execute_pc (hstraight i List.mem_cons_self) hfirst
    have hstart : c.pc ≠ ret := by simpa using hret 0 (Nat.succ_pos _)
    obtain ⟨hrun, hend⟩ := ih (c := u) (hpc ▸ hlisting.rest)
      (fun j hj => hstraight j (List.mem_cons_of_mem i hj))
      (fun k hk => by
        rw [hpc, add_ofNat_succ]
        exact hret (k + 1) (Nat.succ_lt_succ hk)) hrest
    constructor
    · rw [List.length_cons, Nat.add_right_comm,
        run_again (routinePass_of_decode hstart hlisting.first hfirst), hrun]
    · rw [hend, hpc, add_ofNat_succ, List.length_cons]

end MemoryMappingModule.PowerPc
