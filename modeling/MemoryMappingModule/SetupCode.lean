import MemoryMappingModule.PowerPc
import MemoryMappingModule.BorrowedWindow

/-! The machine code that `SetupIBAT4DBAT5OnAllCores` writes to the window. The thread it
starts makes system call 0x51, which the kernel was told to serve by the routine at the start
of the window; that routine sets four block address translation registers, as its listing in C
says. The array between the two is not run: it would enable two further registers first. -/

namespace MemoryMappingModule.SetupCode

open StepLoop PowerPc TranslatedMemory MappingLayout BorrowedWindow

/-- `SCSetupIBAT4DBAT5`, as the source gives it in C. -/
def scSetupIBAT4DBAT5 (spr : Spr → Word) : Spr → Word :=
  let ibat4u : Word := 0x008000FF
  let ibat4l : Word := 0x30800012
  let spr := Function.update spr 560 ibat4u
  let spr := Function.update spr 561 ibat4l
  let dbat5u := ibat4u
  let dbat5l := ibat4l
  let spr := Function.update spr 570 dbat5u
  Function.update spr 571 dbat5l

/-- What the array behind it would do first. -/
def enableBats (spr : Spr → Word) : Spr → Word :=
  let spr := Function.update spr 528 (spr 528 ||| 3)
  let spr := Function.update spr 530 (spr 530 ||| 3)
  Function.update spr ctr scSetupIBAT4DBAT5Address

def setupListing : List Instruction :=
  [.sync, .eieio, .isync, .addis 10 0 0x0080, .ori 10 10 0x00FF, .mtspr 560 10, .addis 9 0 0x3080,
    .ori 9 9 0x0012, .mtspr 561 9, .mtspr 570 10, .mtspr 571 9, .eieio, .isync, .blr]

def syscallListing : List Instruction :=
  [.mfspr 3 528, .ori 3 3 3, .mtspr 528 3, .mfspr 3 530, .ori 3 3 3, .mtspr 530 3, .eieio, .isync,
    .addis 3 0 0x017F, .ori 3 3 0xF000, .mtspr ctr 3, .bctr]

def callListing : List Instruction := [.addi 0 0 0x5100, .sc, .blr]

theorem decode_code : (sSCSetupIBAT4DBAT5Buffer ++ sSC0x51Buffer ++ sSC0x51CallBuffer).map decode =
    (setupListing ++ syscallListing ++ callListing).map some := by decide

theorem scSetupIBAT4DBAT5_congr {spr spr' : Spr → Word} {r : Spr} (h : spr r = spr' r) :
    scSetupIBAT4DBAT5 spr r = scSetupIBAT4DBAT5 spr' r := by
  simp only [scSetupIBAT4DBAT5, Function.update_apply, h]

variable (call : Cpu → Option Cpu) {fetch : Word → Word} {c : Cpu}

theorem setup_executes (hsupervisor : c.supervisor = true) :
    executeAll call setupListing.dropLast c = some
      { c with
        pc := c.pc + 52
        gpr := Function.update (Function.update c.gpr 10 0x008000FF) 9 0x30800012
        spr := scSetupIBAT4DBAT5 c.spr } := by
  obtain ⟨pc, supervisor, gpr, spr⟩ := c
  obtain rfl := hsupervisor
  simp [executeAll, setupListing, execute, Cpu.MayUse, Cpu.setGpr, Cpu.setSpr, Cpu.advance,
    scSetupIBAT4DBAT5, BitVec.add_assoc]

theorem enableBats_executes (hsupervisor : c.supervisor = true) :
    executeAll call syscallListing.dropLast c = some
      { c with
        pc := c.pc + 44
        gpr := Function.update c.gpr 3 scSetupIBAT4DBAT5Address
        spr := enableBats c.spr } := by
  obtain ⟨pc, supervisor, gpr, spr⟩ := c
  obtain rfl := hsupervisor
  simp [executeAll, syscallListing, execute, Cpu.MayUse, Cpu.setGpr, Cpu.setSpr, Cpu.advance,
    enableBats, scSetupIBAT4DBAT5Address, targetAddressExecutableMem, BitVec.add_assoc]

theorem window_ne {ret : Word} (hret : ret ∉ window) {k : ℕ} (hk : k < 29) :
    windowWord k ≠ ret := by
  rintro rfl
  exact hret (add_mem_span _ (by omega))

theorem setup_returns (hlisting : Listing fetch scSetupIBAT4DBAT5Address setupListing)
    (hpc : c.pc = scSetupIBAT4DBAT5Address) (hsupervisor : c.supervisor = true)
    (hret : c.returnAddress ∉ window) :
    ∃ c', c'.pc = c.returnAddress ∧ c'.supervisor = true ∧ c'.spr = scSetupIBAT4DBAT5 c.spr ∧
      ∀ n, run (routinePass call fetch c.returnAddress) (n + 15) c = some (.ok c') := by
  have hwindow (k : ℕ) (hk : k < 29) :
      scSetupIBAT4DBAT5Address + BitVec.ofNat 32 (4 * k) ≠ c.returnAddress := window_ne hret hk
  have hsplit : Listing fetch scSetupIBAT4DBAT5Address (setupListing.dropLast ++ [.blr]) := hlisting
  have hcode : Listing fetch c.pc setupListing.dropLast := hpc ▸ hsplit.left
  set blr : Cpu :=
    { c with
      pc := c.pc + 52
      gpr := Function.update (Function.update c.gpr 10 0x008000FF) 9 0x30800012
      spr := scSetupIBAT4DBAT5 c.spr } with hblr
  have hstraight := run_straight hcode (by decide)
    (fun k hk => hpc ▸ hwindow k (hk.trans (by decide))) (setup_executes call hsupervisor)
  have hlast : decode (fetch blr.pc) = some .blr := by
    rw [hblr, hpc]
    exact hsplit.right.first
  have hat : blr.pc ≠ c.returnAddress := by
    rw [hblr, hpc]
    exact hwindow 13 (by decide)
  have hjump : execute call blr .blr = some { blr with pc := c.returnAddress } := rfl
  refine ⟨{ blr with pc := c.returnAddress }, rfl, hsupervisor, rfl, fun n => ?_⟩
  have hlength : n + 15 = setupListing.dropLast.length + (n + 1 + 1) := by
    change n + 15 = 13 + (n + 1 + 1)
    omega
  rw [hlength, (hstraight _).1, run_again (routinePass_of_decode hat hlast hjump)]
  exact run_done (if_pos rfl)

def windowListing : List Instruction := setupListing ++ syscallListing ++ callListing

section Window

variable {call} (hwindow : Listing fetch targetAddressExecutableMem windowListing)
include hwindow

theorem window_setup : Listing fetch scSetupIBAT4DBAT5Address setupListing := hwindow.left.left

theorem window_syscall : Listing fetch sc0x51BufferAddress syscallListing := hwindow.left.right

theorem window_call : Listing fetch sc0x51CallAddress callListing := hwindow.right

/-- The array that is not run would enable two registers and go on with the routine. -/
theorem syscall_returns (hpc : c.pc = sc0x51BufferAddress) (hsupervisor : c.supervisor = true)
    (hret : c.returnAddress ∉ window) :
    ∃ c', c'.pc = c.returnAddress ∧ c'.supervisor = true ∧
      c'.spr = scSetupIBAT4DBAT5 (enableBats c.spr) ∧
      ∀ n, run (routinePass call fetch c.returnAddress) (n + 27) c = some (.ok c') := by
  have hcode := window_syscall hwindow
  have hout (k : ℕ) (hk : k < 12) :
      sc0x51BufferAddress + BitVec.ofNat 32 (4 * k) ≠ c.returnAddress := by
    have hword := window_ne hret (show 14 + k < 29 by omega)
    rw [windowWord, Nat.mul_add, BitVec.ofNat_add, ← BitVec.add_assoc] at hword
    exact hword
  have hsplit : Listing fetch sc0x51BufferAddress (syscallListing.dropLast ++ [.bctr]) := hcode
  have hfirst : Listing fetch c.pc syscallListing.dropLast := hpc ▸ hsplit.left
  set bctr : Cpu :=
    { c with
      pc := c.pc + 44
      gpr := Function.update c.gpr 3 scSetupIBAT4DBAT5Address
      spr := enableBats c.spr } with hbctr
  have hstraight := run_straight hfirst (by decide)
    (fun k hk => hpc ▸ hout k (hk.trans (by decide))) (enableBats_executes call hsupervisor)
  have hlast : decode (fetch bctr.pc) = some .bctr := by
    rw [hbctr, hpc]
    exact hsplit.right.first
  have hat : bctr.pc ≠ c.returnAddress := by
    rw [hbctr, hpc]
    exact hout 11 (by decide)
  have hjump : execute call bctr .bctr = some { bctr with pc := scSetupIBAT4DBAT5Address } := by
    change some (bctr.jump (enableBats c.spr ctr)) = _
    rw [enableBats, Function.update_self]
    rfl
  obtain ⟨c', hpc', hsupervisor', hspr, hrun⟩ := setup_returns call
    (c := { bctr with pc := scSetupIBAT4DBAT5Address }) (window_setup hwindow) rfl hsupervisor hret
  refine ⟨c', hpc', hsupervisor', hspr, fun n => ?_⟩
  have hlength : n + 27 = syscallListing.dropLast.length + (n + 15 + 1) := by
    change n + 27 = 11 + (n + 15 + 1)
    omega
  rw [hlength, (hstraight _).1, run_again (routinePass_of_decode hat hlast hjump)]
  exact hrun n

def windowFetch (a : Word) : Word :=
  (sSCSetupIBAT4DBAT5Buffer ++ sSC0x51Buffer ++ sSC0x51CallBuffer).getD
    ((a - targetAddressExecutableMem) / 4).toNat 0

omit hwindow in
theorem windowFetch_listing : Listing windowFetch targetAddressExecutableMem windowListing := by
  have hall : ∀ k : Fin windowListing.length,
      decode (windowFetch (targetAddressExecutableMem + BitVec.ofNat 32 (4 * k))) =
        some windowListing[k] := by
    decide
  exact fun k hk => hall ⟨k, hk⟩

omit hwindow in
theorem sample_syscall_returns :
    ∃ c' : Cpu, c'.pc = 0 ∧ c'.supervisor = true ∧
      c'.spr = scSetupIBAT4DBAT5 (enableBats fun _ => 0) ∧
      ∀ n, run (routinePass (fun _ => none) windowFetch 0) (n + 27)
        ⟨sc0x51BufferAddress, true, fun _ => 0, fun _ => 0⟩ = some (.ok c') :=
  syscall_returns (c := ⟨sc0x51BufferAddress, true, fun _ => 0, fun _ => 0⟩) windowFetch_listing rfl
    rfl (by simp [Cpu.returnAddress, window, span, targetAddressExecutableMem])

variable {handlers : Word → Option Word}

/-- The thread's code, with the system call served by the routine: it returns with the four
registers set. -/
theorem thread_returns (hhandler : handlers 0x51 = some scSetupIBAT4DBAT5Address)
    (hserves : Serves handlers fetch windowᶜ call) (hpc : c.pc = sc0x51CallAddress)
    (hret : c.returnAddress ∉ window) :
    ∃ c', c'.pc = c.returnAddress ∧
      (∀ r, ¬ Passing r → c'.spr r = scSetupIBAT4DBAT5 c.spr r) ∧
      ∀ n, run (routinePass call fetch c.returnAddress) (n + 4) c = some (.ok c') := by
  have hcode := window_call hwindow
  have hat (k : ℕ) (hk : k < 3) :
      sc0x51CallAddress + BitVec.ofNat 32 (4 * k) ≠ c.returnAddress := by
    have hword := window_ne hret (show 26 + k < 29 by omega)
    rw [windowWord, Nat.mul_add, BitVec.ofNat_add, ← BitVec.add_assoc] at hword
    exact hword
  -- the number of the system call
  set numbered : Cpu := { c with pc := c.pc + 4, gpr := Function.update c.gpr 0 0x5100 }
  have hnumber : execute call c (.addi 0 0 0x5100) = some numbered := by
    simp [execute, Cpu.setGpr, Cpu.advance, numbered]
  have hstart : c.pc ≠ c.returnAddress := by
    rw [hpc]
    simpa using hat 0 (by decide)
  have hfirst : decode (fetch c.pc) = some (.addi 0 0 0x5100) := hpc ▸ hcode.first
  -- the system call
  obtain ⟨start, hentry, hstarted, hown, hsame, hserve⟩ :=
    hserves.serve numbered scSetupIBAT4DBAT5Address (by simpa [numbered] using hhandler)
  obtain ⟨stop, _, _, hstop, hroutine⟩ := setup_returns (fun _ => none)
    (window_setup hwindow) hentry hstarted hown
  obtain ⟨served, hcall, hpc', _, hlr, hkept⟩ := hserve 15 stop (hroutine 0)
  have hat' : numbered.pc ≠ c.returnAddress := by
    change c.pc + 4 ≠ _
    rw [hpc]
    exact hat 1 (by decide)
  have hsecond : decode (fetch numbered.pc) = some .sc := by
    change decode (fetch (c.pc + 4)) = _
    rw [hpc]
    exact hcode.rest.first
  have hback : served.pc = sc0x51CallAddress + BitVec.ofNat 32 (4 * 2) := by
    rw [hpc']
    change c.pc + 4 + 4 = _
    rw [hpc]
    rfl
  have hthird : decode (fetch served.pc) = some .blr := by
    rw [hback]
    exact hcode.rest.rest.first
  have hjump : execute call served .blr = some { served with pc := c.returnAddress } := by
    change some { served with pc := served.returnAddress } = _
    rw [Cpu.returnAddress, hlr]
    rfl
  refine ⟨{ served with pc := c.returnAddress }, rfl, fun r hr => ?_, fun n => ?_⟩
  · change served.spr r = _
    rw [hkept r hr, hstop]
    exact scSetupIBAT4DBAT5_congr (hsame r hr)
  · rw [run_again (routinePass_of_decode hstart hfirst hnumber),
      run_again (routinePass_of_decode hat' hsecond hcall),
      run_again (routinePass_of_decode (hback ▸ hat 2 (by decide)) hthird hjump)]
    exact run_done (if_pos rfl)

end Window

end MemoryMappingModule.SetupCode
