import UCore.Lib.SaveRestore
import UCore.Riscv

/-! # Trap entry and exit

The assembly of `trampoline.S` and `entry.S`, instruction by instruction, and `usertrapret`. A
register has the same slot of the trapframe on the way in and on the way out (`tfSlot`), so that what
`uservec` stored is what `userret` loads (`restores_user`); on the kernel stack the slot of a register
is its number (`restores_kernel`). -/

namespace UCore.Trap.Trampoline

open UCore.Lib.Bytes UCore.Lib.SaveRestore UCore.Riscv

/-! ### Registers -/

section Registers

def ra : Reg := 1
def sp : Reg := 2
def gp : Reg := 3
def tp : Reg := 4
def t0 : Reg := 5
def t1 : Reg := 6
def t2 : Reg := 7
def s0 : Reg := 8
def s1 : Reg := 9
def a0 : Reg := 10
def a1 : Reg := 11
def a2 : Reg := 12
def a3 : Reg := 13
def a4 : Reg := 14
def a5 : Reg := 15
def a6 : Reg := 16
def a7 : Reg := 17
def s2 : Reg := 18
def s3 : Reg := 19
def s4 : Reg := 20
def s5 : Reg := 21
def s6 : Reg := 22
def s7 : Reg := 23
def s8 : Reg := 24
def s9 : Reg := 25
def s10 : Reg := 26
def s11 : Reg := 27
def t3 : Reg := 28
def t4 : Reg := 29
def t5 : Reg := 30
def t6 : Reg := 31

end Registers

/-! ### The code -/

/-- `uservec`. -/
def uservec : List Instr := [
  .csrrw a0 .sscratch a0,
  .sd ra 40 a0, .sd sp 48 a0, .sd gp 56 a0, .sd tp 64 a0, .sd t0 72 a0, .sd t1 80 a0, .sd t2 88 a0,
  .sd s0 96 a0, .sd s1 104 a0, .sd a1 120 a0, .sd a2 128 a0, .sd a3 136 a0, .sd a4 144 a0,
  .sd a5 152 a0, .sd a6 160 a0, .sd a7 168 a0, .sd s2 176 a0, .sd s3 184 a0, .sd s4 192 a0,
  .sd s5 200 a0, .sd s6 208 a0, .sd s7 216 a0, .sd s8 224 a0, .sd s9 232 a0, .sd s10 240 a0,
  .sd s11 248 a0, .sd t3 256 a0, .sd t4 264 a0, .sd t5 272 a0, .sd t6 280 a0,
  .csrr t0 .sscratch,
  .sd t0 112 a0,
  .csrr t1 .sepc,
  .sd t1 24 a0,
  .ld t1 0 a0, .ld sp 8 a0, .ld t0 16 a0, .ld tp 32 a0,
  .csrw .satp t1,
  .sfenceVma,
  .jr t0]

/-- `userret(TRAPFRAME, pagetable, stvec)`. -/
def userret : List Instr := [
  .csrw .satp a1,
  .sfenceVma,
  .csrw .stvec a2,
  .ld t0 112 a0,
  .csrw .sscratch t0,
  .ld ra 40 a0, .ld sp 48 a0, .ld gp 56 a0, .ld tp 64 a0, .ld t0 72 a0, .ld t1 80 a0, .ld t2 88 a0,
  .ld s0 96 a0, .ld s1 104 a0, .ld a1 120 a0, .ld a2 128 a0, .ld a3 136 a0, .ld a4 144 a0,
  .ld a5 152 a0, .ld a6 160 a0, .ld a7 168 a0, .ld s2 176 a0, .ld s3 184 a0, .ld s4 192 a0,
  .ld s5 200 a0, .ld s6 208 a0, .ld s7 216 a0, .ld s8 224 a0, .ld s9 232 a0, .ld s10 240 a0,
  .ld s11 248 a0, .ld t3 256 a0, .ld t4 264 a0, .ld t5 272 a0, .ld t6 280 a0,
  .csrrw a0 .sscratch a0,
  .sret]

/-- `kernel_trap_entry` up to `call kernel_trap`. -/
def kernelTrapEntry : List Instr := [
  .addi sp sp (-0x100),
  .sd 0 0x00 sp, .sd 1 0x08 sp, .sd 2 0x10 sp, .sd 3 0x18 sp, .sd 4 0x20 sp, .sd 5 0x28 sp,
  .sd 6 0x30 sp, .sd 7 0x38 sp, .sd 8 0x40 sp, .sd 9 0x48 sp, .sd 10 0x50 sp, .sd 11 0x58 sp,
  .sd 12 0x60 sp, .sd 13 0x68 sp, .sd 14 0x70 sp, .sd 15 0x78 sp, .sd 16 0x80 sp, .sd 17 0x88 sp,
  .sd 18 0x90 sp, .sd 19 0x98 sp, .sd 20 0xa0 sp, .sd 21 0xa8 sp, .sd 22 0xb0 sp, .sd 23 0xb8 sp,
  .sd 24 0xc0 sp, .sd 25 0xc8 sp, .sd 26 0xd0 sp, .sd 27 0xd8 sp, .sd 28 0xe0 sp, .sd 29 0xe8 sp,
  .sd 30 0xf0 sp, .sd 31 0xf8 sp,
  .addi a0 sp 0]

/-- `kernel_trap_entry` from where `kernel_trap` returns to. -/
def kernelTrapExit : List Instr := [
  .ld 0 0x00 sp, .ld 1 0x08 sp, .ld 2 0x10 sp, .ld 3 0x18 sp, .ld 4 0x20 sp, .ld 5 0x28 sp,
  .ld 6 0x30 sp, .ld 7 0x38 sp, .ld 8 0x40 sp, .ld 9 0x48 sp, .ld 10 0x50 sp, .ld 11 0x58 sp,
  .ld 12 0x60 sp, .ld 13 0x68 sp, .ld 14 0x70 sp, .ld 15 0x78 sp, .ld 16 0x80 sp, .ld 17 0x88 sp,
  .ld 18 0x90 sp, .ld 19 0x98 sp, .ld 20 0xa0 sp, .ld 21 0xa8 sp, .ld 22 0xb0 sp, .ld 23 0xb8 sp,
  .ld 24 0xc0 sp, .ld 25 0xc8 sp, .ld 26 0xd0 sp, .ld 27 0xd8 sp, .ld 28 0xe0 sp, .ld 29 0xe8 sp,
  .ld 30 0xf0 sp, .ld 31 0xf8 sp,
  .addi sp sp 0x100,
  .sret]

def SATP_SV39 : Word := 8#64 <<< 60

def MAKE_SATP (pagetable : ℕ) : Word := SATP_SV39 ||| BitVec.ofNat 64 pagetable >>> 12

def SSTATUS_SPIE : Word := 1#64 <<< 5

def KERNEL_STACK_SIZE : Word := 2 * 4096

/-- The addresses that `usertrapret` takes from the linker. -/
structure Symbols where
  trampoline : Word
  uservec : Word
  userret : Word
  usertrap : Word

/-- The fields of `curr_proc()` that `usertrapret` reads. -/
structure CurrProc where
  /-- A kernel virtual address. -/
  trapframe : ℕ
  kstack : Word
  /-- `mm->pgt`, a kernel virtual address. -/
  pgt : ℕ

/-- The physical address of the `k`-th word of the trapframe. -/
def CurrProc.word (p : CurrProc) (k : ℕ) : ℕ := KVA_TO_PA (p.trapframe + 8 * k)

def CurrProc.satp (p : CurrProc) : Word := MAKE_SATP (KVA_TO_PA p.pgt)

/-- The value of `stvec` in user mode. -/
def Symbols.stvec (K : Symbols) : Word :=
  (BitVec.ofNat 64 TRAMPOLINE + (K.uservec - K.trampoline)) &&& ~~~3#64

/-- The stores of `usertrapret` to the trapframe, whose words are at `pa`: `kernel_satp`, `kernel_sp`,
`kernel_trap` and `kernel_hartid`. -/
def storeKernel (K : Symbols) (pa : ℕ → ℕ) (satp kstack hartid : Word) (m : Mem) : Mem :=
  let m := writeWord m (pa 0) satp
  let m := writeWord m (pa 1) (kstack + KERNEL_STACK_SIZE)
  let m := writeWord m (pa 2) K.usertrap
  writeWord m (pa 4) hartid

/-- The registers at the call `userret(TRAPFRAME, satp, stvec)`. -/
def userretArgs (K : Symbols) (p : CurrProc) (x : Reg → Word) : Reg → Word :=
  Function.update (Function.update (Function.update x a0 (BitVec.ofNat 64 TRAPFRAME)) a1 p.satp)
    a2 K.stvec

/-- `usertrapret()` up to its jump to `userret`, with the interrupts off. Of the registers only those
of the arguments are determined; `x` is what the compiled code has in the others. -/
def usertrapret (K : Symbols) (p : CurrProc) (x : Reg → Word) (h : Hart) : Hart :=
  let m := storeKernel K p.word (h.csr .satp) p.kstack (h.get tp) h.mem
  let h := { h with mem := m }.setCsr .sepc (readWord m (p.word 3))
  let h := h.setCsr .sstatus ((h.csr .sstatus &&& ~~~SSTATUS_SPP) ||| SSTATUS_SPIE)
  { h with
    x := userretArgs K p x
    pc := BitVec.ofNat 64 TRAMPOLINE + (K.userret - K.trampoline) }

/-! ### Slots -/

/-- The slot of a register in `struct trapframe`. -/
def tfSlot (r : Reg) : ℕ := r + 4

/-- The registers that are stored one after the other: all but `a0`. -/
def userRegs : List Reg :=
  [1, 2, 3, 4, 5, 6, 7, 8, 9, 11, 12, 13, 14, 15, 16, 17, 18, 19, 20, 21, 22, 23, 24, 25, 26, 27, 28,
    29, 30, 31]

/-- The registers that get words of the kernel, in the order of the loads. -/
def kernelRegs : List Reg := [t1, sp, t0, tp]

/-- Their slots: `kernel_satp`, `kernel_sp`, `kernel_trap`, `kernel_hartid`. -/
def kernelSlot (r : Reg) : ℕ := if r = t1 then 0 else if r = sp then 1 else if r = t0 then 2 else 4

theorem mem_userRegs : ∀ r : Reg, r ∈ userRegs ↔ r ≠ 0 ∧ r ≠ a0 := by decide

theorem userRegs_slots : (userRegs.map tfSlot).Nodup ∧ ∀ r ∈ userRegs, tfSlot r < 36 := by decide

theorem uservec_eq : uservec = [.csrrw a0 .sscratch a0] ++ (saves a0 tfSlot userRegs ++
    ([.csrr t0 .sscratch] ++ (saves a0 (fun _ => 14) [t0] ++ ([.csrr t1 .sepc] ++
    (saves a0 (fun _ => 3) [t1] ++ (loads a0 kernelSlot kernelRegs ++
    [.csrw .satp t1, .sfenceVma, .jr t0])))))) := rfl

theorem userret_eq : userret = [.csrw .satp a1, .sfenceVma, .csrw .stvec a2] ++
    (loads a0 (fun _ => 14) [t0] ++ ([.csrw .sscratch t0] ++ (loads a0 tfSlot userRegs ++
    [.csrrw a0 .sscratch a0, .sret]))) := rfl

theorem kernelTrapEntry_eq : kernelTrapEntry = [.addi sp sp (-0x100)] ++
    (saves sp Fin.val (List.finRange 32) ++ [.addi a0 sp 0]) := rfl

theorem kernelTrapExit_eq : kernelTrapExit =
    loads sp Fin.val (List.finRange 32) ++ [.addi sp sp 0x100, .sret] := rfl

variable {T : Mmu} {h k : Hart} {satp va : Word} {m m' : Mem} {pa : ℕ → ℕ}

/-! ### Into the kernel -/

/-- What `uservec` does from `h`, the state after the trap, to `k`: the user registers and the `pc` of
the trap are in the trapframe, and the kernel gets its words of the trapframe. -/
structure Entered (pa : ℕ → ℕ) (h k : Hart) : Prop where
  saved : ∀ r ≠ 0, readWord k.mem (pa (tfSlot r)) = h.get r
  epc : readWord k.mem (pa 3) = h.csr .sepc
  kernel : ∀ j ∈ [0, 1, 2, 4], readWord k.mem (pa j) = readWord h.mem (pa j)
  within : Within 36 pa h.mem k.mem
  sp : k.get sp = readWord h.mem (pa 1)
  tp : k.get tp = readWord h.mem (pa 4)
  satp : k.csr .satp = readWord h.mem (pa 0)
  pc : k.pc = readWord h.mem (pa 2)

/-- `a0` travels through `sscratch`. -/
theorem uservec_enters (hs : Slots T (h.csr .satp) h.mem (h.csr .sscratch) 36 pa) :
    ∃ k, exec T uservec h = some k ∧ Entered pa h k := by
  have hnd := userRegs_slots
  let h₁ := (h.setCsr .sscratch (h.get a0)).set a0 (h.csr .sscratch)
  have hbase : h₁.get a0 = h.csr .sscratch := Hart.get_set_self _ (by decide) _
  have hs₁ : Slots T (h₁.csr .satp) h₁.mem (h₁.get a0) 36 pa := by
    rw [hbase]
    exact hs
  obtain ⟨m₂, hx₂, hm₂⟩ := exec_saves tfSlot userRegs hs₁ hnd.2 hnd.1
  let h₃ := ({ h₁ with mem := m₂ } : Hart).set t0 (h.get a0)
  have hs₃ : Slots T (h₃.csr .satp) h₃.mem (h₃.get a0) 36 pa := by
    rw [Hart.get_set_of_ne _ (by decide)]
    exact hs₁.within hm₂.within
  obtain ⟨m₄, hx₄, hm₄⟩ := exec_saves (T := T) (h := h₃) (fun _ => 14) [t0] hs₃ (by decide)
    (by decide)
  let h₅ := ({ h₃ with mem := m₄ } : Hart).set t1 (h.csr .sepc)
  have hs₅ : Slots T (h₅.csr .satp) h₅.mem (h₅.get a0) 36 pa := by
    rw [Hart.get_set_of_ne _ (by decide)]
    exact hs₃.within hm₄.within
  obtain ⟨m₆, hx₆, hm₆⟩ := exec_saves (T := T) (h := h₅) (fun _ => 3) [t1] hs₅ (by decide)
    (by decide)
  have hs₆ := hs₅.within hm₆.within
  have hx₇ := exec_loads (T := T) (h := { h₅ with mem := m₆ }) kernelSlot kernelRegs hs₆
    (by decide) fun hc => absurd hc (by decide)
  let h₆ : Hart := { h₅ with mem := m₆ }
  let h₇ : Hart := h₆.loaded pa kernelSlot kernelRegs
  have hword : ∀ j < 36, j ≠ 3 → j ≠ 14 → readWord m₆ (pa j) = readWord m₂ (pa j) :=
    fun j hj h3 h14 => (hm₆.rest j hj (by simpa using h3)).trans (hm₄.rest j hj (by simpa using h14))
  have hkernel : ∀ j ∈ [0, 1, 2, 4], readWord m₆ (pa j) = readWord h.mem (pa j) := by
    intro j hj
    have hj' : j < 36 ∧ j ≠ 3 ∧ j ≠ 14 ∧ j ∉ userRegs.map tfSlot := by
      revert hj j
      decide
    exact (hword j hj'.1 hj'.2.1 hj'.2.2.1).trans (hm₂.rest j hj'.1 hj'.2.2.2)
  have hload : ∀ r ∈ kernelRegs, r ≠ 0 → h₇.get r = readWord m₆ (pa (kernelSlot r)) :=
    fun r hr h0 => Hart.loaded_get h0 hr
  refine ⟨{ h₇.setCsr .satp (h₇.get t1) with pc := h₇.get t0 }, ?_, fun r hr => ?_, ?_, hkernel,
    (hm₂.within.trans hm₄.within).trans hm₆.within, ?_, ?_, ?_, ?_⟩
  · rw [uservec_eq]
    exact exec_seq rfl (exec_seq hx₂ (exec_seq rfl (exec_seq hx₄ (exec_seq rfl (exec_seq hx₆
      (exec_seq hx₇ rfl))))))
  · change readWord m₆ (pa (tfSlot r)) = _
    by_cases hra : r = a0
    · subst hra
      rw [hm₆.rest _ (by decide) (by decide)]
      exact (hm₄.saved t0 (by simp)).trans (Hart.get_set_self _ (by decide) _)
    · have hmem := (mem_userRegs r).mpr ⟨hr, hra⟩
      have hslot : tfSlot r ≠ 3 ∧ tfSlot r ≠ 14 := by
        revert r
        decide
      rw [hword _ (hnd.2 r hmem) hslot.1 hslot.2, hm₂.saved r hmem]
      exact Hart.get_set_of_ne _ hra _
  · exact (hm₆.saved t1 (by simp)).trans (Hart.get_set_self _ (by decide) _)
  · exact (hload sp (by decide) (by decide)).trans (hkernel 1 (by decide))
  · exact (hload tp (by decide) (by decide)).trans (hkernel 4 (by decide))
  · exact (hload t1 (by decide) (by decide)).trans (hkernel 0 (by decide))
  · exact (hload t0 (by decide) (by decide)).trans (hkernel 2 (by decide))

/-! ### Back to the user -/

/-- **`userret`** leaves in every register the word of its slot. -/
theorem userret_resumes (hs : Slots T (k.get a1) k.mem (k.get a0) 36 pa) :
    ∃ u, exec T userret k = some u ∧ u.mem = k.mem ∧ u.pc = k.csr .sepc ∧
      u.user = decide (k.csr .sstatus &&& SSTATUS_SPP = 0) ∧ u.csr .sscratch = k.get a0 ∧
      u.csr .satp = k.get a1 ∧ u.csr .stvec = k.get a2 ∧
      ∀ r ≠ 0, u.get r = readWord k.mem (pa (tfSlot r)) := by
  have hnd := userRegs_slots
  let k₁ := (k.setCsr .satp (k.get a1)).setCsr .stvec (k.get a2)
  have hs₁ : Slots T (k₁.csr .satp) k₁.mem (k₁.get a0) 36 pa := hs
  have hx₂ := exec_loads (fun _ => 14) [t0] hs₁ (by decide) fun hc => absurd hc (by decide)
  let k₂ := k₁.loaded pa (fun _ => 14) [t0]
  have ht0 : k₂.get t0 = readWord k.mem (pa 14) := Hart.loaded_get (by decide) (by decide)
  let k₃ := k₂.setCsr .sscratch (k₂.get t0)
  have hbase : k₃.get a0 = k.get a0 := show k₂.get a0 = k₁.get a0 from
    Hart.loaded_get_of_not_mem (by decide)
  have hs₃ : Slots T (k₃.csr .satp) k₃.mem (k₃.get a0) 36 pa := by
    rw [hbase]
    exact hs₁
  have hx₄ := exec_loads tfSlot userRegs hs₃ hnd.2 fun hc => absurd hc (by decide)
  let k₄ := k₃.loaded pa tfSlot userRegs
  have hbase₄ : k₄.get a0 = k₃.get a0 := Hart.loaded_get_of_not_mem (by decide)
  let k₅ := (k₄.setCsr .sscratch (k₄.get a0)).set a0 (k₂.get t0)
  refine ⟨{ k₅ with
    pc := k₅.csr .sepc
    user := decide (k₅.csr .sstatus &&& SSTATUS_SPP = 0) }, ?_, rfl, rfl, rfl, hbase₄.trans hbase, rfl, rfl,
    fun r hr => ?_⟩
  · rw [userret_eq]
    exact exec_seq rfl (exec_seq hx₂ (exec_seq rfl (exec_seq hx₄ rfl)))
  · change k₅.get r = _
    by_cases hra : r = a0
    · subst hra
      exact (Hart.get_set_self _ (by decide) _).trans ht0
    · rw [Hart.get_set_of_ne _ hra]
      exact Hart.loaded_get hr ((mem_userRegs r).mpr ⟨hr, hra⟩)

/-- A hart in user mode, ready for the next trap of the process. -/
structure InUser (K : Symbols) (p : CurrProc) (h : Hart) : Prop where
  user : h.user = true
  satp : h.csr .satp = p.satp
  sscratch : h.csr .sscratch = BitVec.ofNat 64 TRAPFRAME
  stvec : h.csr .stvec = K.stvec

/-- The trapframe of the process is mapped at `TRAPFRAME` in its page table. -/
abbrev HasTrapframe (T : Mmu) (p : CurrProc) (m : Mem) : Prop :=
  Slots T p.satp m (BitVec.ofNat 64 TRAPFRAME) 36 p.word

variable {K : Symbols} {p : CurrProc}

/-- The words that `usertrapret` stores are not those of the user. -/
theorem storeKernel_word (hs : Slots T satp m va 36 pa) (ksatp kstack hartid : Word) {j : ℕ}
    (hj : j < 36) (huser : j = 3 ∨ 5 ≤ j) :
    readWord (storeKernel K pa ksatp kstack hartid m) (pa j) = readWord m (pa j) := by
  unfold storeKernel
  rw [readWord_writeWord_of_apart (hs.apart 4 (by decide) j hj (by omega)),
    readWord_writeWord_of_apart (hs.apart 2 (by decide) j hj (by omega)),
    readWord_writeWord_of_apart (hs.apart 1 (by decide) j hj (by omega)),
    readWord_writeWord_of_apart (hs.apart 0 (by decide) j hj (by omega))]

theorem storeKernel_within (pa : ℕ → ℕ) (ksatp kstack hartid : Word) :
    Within 36 pa m (storeKernel K pa ksatp kstack hartid m) :=
  (((within_writeWord (by decide) _).trans (within_writeWord (by decide) _)).trans
    (within_writeWord (by decide) _)).trans (within_writeWord (by decide) _)

/-- Clearing one bit of `sstatus` and setting another. -/
theorem sstatus_spp (s : Word) :
    ((s &&& ~~~SSTATUS_SPP) ||| SSTATUS_SPIE) &&& SSTATUS_SPP = 0 := by
  have h1 : ~~~SSTATUS_SPP &&& SSTATUS_SPP = 0 := by decide
  have h2 : SSTATUS_SPIE &&& SSTATUS_SPP = 0 := by decide
  rw [BitVec.and_or_distrib_right, BitVec.and_assoc, h1, h2]
  simp

theorem userretArgs_args (K : Symbols) (p : CurrProc) (x : Reg → Word) :
    userretArgs K p x a0 = BitVec.ofNat 64 TRAPFRAME ∧ userretArgs K p x a1 = p.satp ∧
      userretArgs K p x a2 = K.stvec := by
  unfold userretArgs
  refine ⟨?_, ?_, Function.update_self ..⟩
  · rw [Function.update_of_ne (by decide), Function.update_of_ne (by decide), Function.update_self]
  · rw [Function.update_of_ne (by decide), Function.update_self]

/-- What `usertrapret` leaves in memory and in the registers that `userret` and `sret` look at. -/
structure Returning (K : Symbols) (p : CurrProc) (k c : Hart) : Prop where
  mem : c.mem = storeKernel K p.word (k.csr .satp) p.kstack (k.get tp) k.mem
  epc : c.csr .sepc = readWord c.mem (p.word 3)
  spp : c.csr .sstatus &&& SSTATUS_SPP = 0
  trapframe : c.get a0 = BitVec.ofNat 64 TRAPFRAME
  satp : c.get a1 = p.satp
  stvec : c.get a2 = K.stvec

theorem usertrapret_state (K : Symbols) (p : CurrProc) (x : Reg → Word) (k : Hart) :
    Returning K p k (usertrapret K p x k) := by
  obtain ⟨h0, h1, h2⟩ := userretArgs_args K p x
  unfold usertrapret
  generalize hm : storeKernel K p.word (k.csr .satp) p.kstack (k.get tp) k.mem = m
  generalize hw : readWord m (p.word 3) = w
  refine ⟨hm.symm, ?_, ?_, (Hart.get_of_ne (by decide)).trans h0, (Hart.get_of_ne (by decide)).trans h1,
    (Hart.get_of_ne (by decide)).trans h2⟩
  · dsimp only [Hart.setCsr_mem]
    rw [Hart.setCsr_csr_of_ne _ (by decide), Hart.setCsr_csr_self, hw]
  · dsimp only [Hart.setCsr_mem]
    rw [Hart.setCsr_csr_self]
    exact sstatus_spp _

/-- **`usertrapret` and `userret`** give the user the words of the trapframe. -/
theorem usertrapret_returns (hs : HasTrapframe T p k.mem) (x : Reg → Word) :
    ∃ u, exec T userret (usertrapret K p x k) = some u ∧ InUser K p u ∧
      u.pc = readWord k.mem (p.word 3) ∧
      ∀ r ≠ 0, u.get r = readWord k.mem (p.word (tfSlot r)) := by
  have hc := usertrapret_state K p x k
  generalize usertrapret K p x k = c at hc ⊢
  have hs' : Slots T (c.get a1) c.mem (c.get a0) 36 p.word := by
    rw [hc.satp, hc.trapframe, hc.mem]
    exact hs.within (storeKernel_within _ _ _ _)
  have hword : ∀ j < 36, j = 3 ∨ 5 ≤ j → readWord c.mem (p.word j) = readWord k.mem (p.word j) := by
    rw [hc.mem]
    exact fun j hj huser => storeKernel_word hs _ _ _ hj huser
  obtain ⟨u, hx, -, hpc, huser, hscr, hsatp, hvec, hreg⟩ := userret_resumes hs'
  refine ⟨u, hx, ⟨huser.trans (decide_eq_true hc.spp), hsatp.trans hc.satp, hscr.trans hc.trapframe,
    hvec.trans hc.stvec⟩, ?_, fun r hr => ?_⟩
  · rw [hpc, hc.epc]
    exact hword 3 (by decide) (Or.inl rfl)
  · have hslot : tfSlot r < 36 ∧ 5 ≤ tfSlot r := by
      revert r
      decide
    rw [hreg r hr]
    exact hword _ hslot.1 (Or.inr hslot.2)

/-- From a hart in user mode `uservec` saves what the user had. -/
theorem uservec_saves (hu : InUser K p h) (hs : HasTrapframe T p h.mem) :
    ∃ k, exec T uservec h.trap = some k ∧ Entered p.word h.trap k ∧ HasTrapframe T p k.mem ∧
      readWord k.mem (p.word 3) = h.pc ∧
      ∀ r ≠ 0, readWord k.mem (p.word (tfSlot r)) = h.get r := by
  have ht : Slots T (h.trap.csr .satp) h.trap.mem (h.trap.csr .sscratch) 36 p.word := by
    rw [show h.trap.csr .satp = p.satp from hu.satp,
      show h.trap.csr .sscratch = BitVec.ofNat 64 TRAPFRAME from hu.sscratch]
    exact hs
  obtain ⟨k, hx, hk⟩ := uservec_enters ht
  exact ⟨k, hx, hk, hs.within hk.within, hk.epc, hk.saved⟩

/-- A trap that leaves the trapframe alone: whatever the kernel does between `uservec` and
`usertrapret`, if the words of the user are still in the trapframe and that is still mapped, the user
is where it was. -/
def RestoresUser (T : Mmu) (K : Symbols) : Prop :=
  ∀ (p : CurrProc) (h : Hart), InUser K p h → HasTrapframe T p h.mem →
    ∃ k, exec T uservec h.trap = some k ∧ Entered p.word h.trap k ∧
      ∀ (k' : Hart) (x : Reg → Word), HasTrapframe T p k'.mem →
        (∀ j < 36, j = 3 ∨ 5 ≤ j → readWord k'.mem (p.word j) = readWord k.mem (p.word j)) →
        ∃ u, exec T userret (usertrapret K p x k') = some u ∧ InUser K p u ∧ u.pc = h.pc ∧
          ∀ r, u.get r = h.get r

theorem restores_user (T : Mmu) (K : Symbols) : RestoresUser T K := by
  intro p h hu hs
  obtain ⟨k, hx, hk, -, hpc, hreg⟩ := uservec_saves hu hs
  refine ⟨k, hx, hk, fun k' x hs' hsame => ?_⟩
  obtain ⟨u, hxu, hu', hpc', hreg'⟩ := usertrapret_returns (K := K) hs' x
  refine ⟨u, hxu, hu', ?_, fun r => ?_⟩
  · rw [hpc', hsame 3 (by decide) (Or.inl rfl), hpc]
  · by_cases hr : r = 0
    · rw [hr, Hart.get_zero, Hart.get_zero]
    · have hslot : tfSlot r < 36 ∧ 5 ≤ tfSlot r := by
        revert r
        decide
      rw [hreg' r hr, hsame _ hslot.1 (Or.inr hslot.2), hreg r hr]

/-! ### Traps from the kernel -/

/-- The registers that a C function gives back as it found them. -/
def calleeSaved : List Reg := [sp, s0, s1, s2, s3, s4, s5, s6, s7, s8, s9, s10, s11]

/-- A call that respects the C calling convention, from `k` to `k'`: the saved registers, and the words
`pa` of the frame of the caller. -/
structure Convention (pa : ℕ → ℕ) (k k' : Hart) : Prop where
  saved : ∀ r ∈ calleeSaved, k'.get r = k.get r
  frame : ∀ j < 32, readWord k'.mem (pa j) = readWord k.mem (pa j)

/-- With the frame mapped on the kernel stack, the interrupted code finds all registers as they were,
whatever `kernel_trap` does by the convention. -/
def RestoresKernel (T : Mmu) : Prop :=
  ∀ (h : Hart) (pa : ℕ → ℕ), Slots T (h.csr .satp) h.mem (h.get sp - 0x100) 32 pa →
    ∃ k, exec T kernelTrapEntry h.trap = some k ∧ k.get a0 = h.get sp - 0x100 ∧
      ∀ k', Convention pa k k' → Slots T (k'.csr .satp) k'.mem (h.get sp - 0x100) 32 pa →
        ∃ u, exec T kernelTrapExit k' = some u ∧ u.pc = k'.csr .sepc ∧ ∀ r, u.get r = h.get r

/-- `kernel_trap_entry` saves all registers below the stack pointer of the interrupted code, and its own
stack pointer in the slot of that register. -/
theorem kernelTrapEntry_saves (hs : Slots T (h.csr .satp) h.mem (h.get sp - 0x100) 32 pa) :
    ∃ k, exec T kernelTrapEntry h.trap = some k ∧ k.csr .satp = h.csr .satp ∧
      Within 32 pa h.mem k.mem ∧ k.get a0 = h.get sp - 0x100 ∧ k.get sp = h.get sp - 0x100 ∧
      ∀ r : Reg, readWord k.mem (pa r) = if r = sp then h.get sp - 0x100 else h.get r := by
  let h₁ := h.trap.set sp (h.get sp + -0x100)
  have hsp : h₁.get sp = h.get sp - 0x100 := by
    rw [BitVec.sub_eq_add_neg]
    exact Hart.get_set_self _ (by decide) _
  have hs₁ : Slots T (h₁.csr .satp) h₁.mem (h₁.get sp) 32 pa := by
    rw [hsp]
    exact hs
  obtain ⟨m, hx, hm⟩ := exec_saves Fin.val (List.finRange 32) hs₁ (fun r _ => r.isLt)
    (by decide)
  refine ⟨({ h₁ with mem := m } : Hart).set a0 (h₁.get sp + 0), ?_, rfl, hm.within, ?_, ?_,
    fun r => ?_⟩
  · rw [kernelTrapEntry_eq]
    exact exec_seq rfl (exec_seq hx rfl)
  · rw [Hart.get_set_self _ (by decide), hsp]
    exact BitVec.add_zero _
  · exact (Hart.get_set_of_ne _ (by decide) _).trans hsp
  · refine (hm.saved r (List.mem_finRange r)).trans ?_
    by_cases hr : r = sp
    · rw [if_pos hr, hr, hsp]
    · rw [if_neg hr]
      exact Hart.get_set_of_ne _ hr _

/-- **`kernel_trap_entry`** restores all registers, `sp` and `tp` too. -/
theorem restores_kernel (T : Mmu) : RestoresKernel T := by
  intro h pa hs
  obtain ⟨k, hx, -, -, ha0, hsp, hsaved⟩ := kernelTrapEntry_saves hs
  refine ⟨k, hx, ha0, fun k' hconv hs' => ?_⟩
  have hsp' : k'.get sp = h.get sp - 0x100 := (hconv.saved sp (by decide)).trans hsp
  have hword : ∀ r : Reg, readWord k'.mem (pa r) = if r = sp then h.get sp - 0x100 else h.get r :=
    fun r => (hconv.frame r r.isLt).trans (hsaved r)
  have hs₂ : Slots T (k'.csr .satp) k'.mem (k'.get sp) 32 pa := by
    rw [hsp']
    exact hs'
  have hx' := exec_loads Fin.val (List.finRange 32) hs₂ (fun r _ => r.isLt) fun _ => by
    rw [hword, if_pos rfl, hsp']
  let k₂ := k'.loaded pa Fin.val (List.finRange 32)
  let k₃ := k₂.set sp (k₂.get sp + 0x100)
  refine ⟨{ k₃ with
    pc := k₃.csr .sepc
    user := decide (k₃.csr .sstatus &&& SSTATUS_SPP = 0) }, ?_, rfl, fun r => ?_⟩
  · rw [kernelTrapExit_eq]
    exact exec_seq hx' rfl
  · change k₃.get r = _
    by_cases hr : r = sp
    · subst hr
      rw [Hart.get_set_self _ (by decide), Hart.loaded_get (by decide) (List.mem_finRange _), hword,
        if_pos rfl, BitVec.sub_add_cancel]
    · rw [Hart.get_set_of_ne _ hr]
      by_cases h0 : r = 0
      · rw [h0, Hart.get_zero, Hart.get_zero]
      · rw [Hart.loaded_get h0 (List.mem_finRange r), hword, if_neg hr]

end UCore.Trap.Trampoline
