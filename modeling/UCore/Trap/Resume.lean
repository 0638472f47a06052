import UCore.Trap.Isolation
import UCore.Trap.Trampoline

/-! # What a trap gives back

The trap code over the page tables of `vm.c`: in every run a process that is not in the kernel finds its
trapframe mapped at `TRAPFRAME`, and after a system call it finds its registers as they were, except
`a0` and the `pc` (`syscalls_resume`). Stray bytes of an exit code can undo that: they can make an
entry of a page table lead to the trapframe (`stray_exit_code`). -/

namespace UCore.Trap.Resume

open UCore.Lib.Bytes UCore.Lib.SaveRestore UCore.Riscv UCore.Mem.State UCore.Mem.Kalloc UCore.Mem.Boot
open UCore.Vm.Spaces UCore.Vm.Tables UCore.Vm.Walk UCore.Vm.VmaList UCore.Vm.Process UCore.Vm.Family
open UCore.Vm.Fork UCore.Vm.Fault UCore.Vm.Lives UCore.Proc.ExitCode UCore.Trap.Trampoline
open UCore.Trap.Isolation

/-! ### The page tables -/

/-- An address of the lower or the upper half. -/
def Canonical (va : Word) : Prop := va.toNat < 2 ^ 38 ∨ 2 ^ 64 - 2 ^ 38 ≤ va.toNat

/-- The supervisor may load from the page of the entry, or store to it. -/
def Lets (st : Bool) (e : ℕ) : Prop :=
  Has e PTE_V ∧ Has e PTE_R ∧ Has e PTE_A ∧ ¬ Has e PTE_U ∧ (st = true → Has e PTE_W ∧ Has e PTE_D)

instance (va : Word) : Decidable (Canonical va) := by unfold Canonical; infer_instance
instance (st : Bool) (e : ℕ) : Decidable (Lets st e) := by unfold Lets; infer_instance

/-- The root page-table page that `satp` names. -/
def rootOf (satp : Word) : ℕ := satp.toNat % 2 ^ 44 * 4096

/-- Translation by the trees of `vm.c`, in which a valid entry of an upper level leads to the next
one. -/
def tableWalk : Mmu := fun satp m va st =>
  if Canonical va ∧ satp.toNat / 2 ^ 60 = 8 then
    let e := pteOf m (some (rootOf satp)) (va.toNat / 4096 % NVPN)
    if Lets st e then some (PTE2PA e + va.toNat % 4096) else none
  else none

theorem satp_of_frame {L : Layout} {r : ℕ} (hr : L.Frame r) :
    rootOf (MAKE_SATP r) = r ∧ (MAKE_SATP r).toNat / 2 ^ 60 = 8 := by
  have hlt := hr.lt
  have hal := hr.aligned
  have hnat : (MAKE_SATP r).toNat = 2 ^ 63 + r / 4096 := by
    unfold MAKE_SATP
    rw [BitVec.toNat_or, BitVec.toNat_ushiftRight, BitVec.toNat_ofNat, Nat.shiftRight_eq_div_pow,
      Nat.mod_eq_of_lt (by omega), show SATP_SV39.toNat = 2 ^ 63 * 1 by decide,
      ← Nat.two_pow_add_eq_or_of_lt (by omega), Nat.mul_one]
  unfold rootOf
  rw [hnat]
  omega

/-- The addresses of the words of the trapframe. -/
theorem trapframe_word : ∀ k < 36,
    (BitVec.ofNat 64 TRAPFRAME + BitVec.ofNat 64 (8 * k)).toNat = TRAPFRAME + 8 * k := by decide

theorem lets_trapframe {L : Layout} {f : ℕ} (hf : L.Frame f) (st : Bool) :
    Lets st (mkPte f trapframeFlags) := by
  have hlt : f < 2 ^ 64 := by have := hf.lt; omega
  have hbit : ∀ k < 10, 0 < k → (Has (mkPte f trapframeFlags) (1 <<< k) ↔ Has trapframeFlags (1 <<< k)) :=
    fun k hk h0 => has_mkPte hlt hk h0
  refine ⟨has_mkPte_V _ _, (hbit 1 (by decide) (by decide)).mpr (by decide),
    (hbit 6 (by decide) (by decide)).mpr (by decide), ?_, fun _ =>
      ⟨(hbit 2 (by decide) (by decide)).mpr (by decide), (hbit 7 (by decide) (by decide)).mpr (by decide)⟩⟩
  rw [show PTE_U = 1 <<< 4 from rfl, hbit 4 (by decide) (by decide)]
  decide

/-- The translation of a word of the trapframe. -/
theorem tableWalk_trapframe {L : Layout} {r f : ℕ} {m : Mem} (hr : L.Frame r) (hf : L.Frame f)
    (hpte : pteOf m (some r) trapframeVpn = mkPte f trapframeFlags) {k : ℕ} (hk : k < 36) (st : Bool) :
    tableWalk (MAKE_SATP r) m (BitVec.ofNat 64 TRAPFRAME + BitVec.ofNat 64 (8 * k)) st =
      some (f + 8 * k) := by
  obtain ⟨hroot, hmode⟩ := satp_of_frame hr
  have hva := trapframe_word k hk
  have hT := TRAPFRAME_eq
  have hcan : Canonical (BitVec.ofNat 64 TRAPFRAME + BitVec.ofNat 64 (8 * k)) := Or.inl (by omega)
  unfold tableWalk
  rw [if_pos ⟨hcan, hmode⟩, hroot, hva]
  have hv : (TRAPFRAME + 8 * k) / 4096 % NVPN = trapframeVpn := by
    rw [NVPN_eq]
    unfold trapframeVpn
    omega
  have ho : (TRAPFRAME + 8 * k) % 4096 = 8 * k := by omega
  rw [hv, hpte, ho]
  dsimp only
  rw [if_pos (lets_trapframe hf st), PTE2PA_trapframe hf]

variable {ι : Type} {L : Layout} {own : Set ℕ} {A B : View ι} {i : ι} {mm : Mm} {c c' : Sys ι}
  {m' : Mem} {kstack : Word}

/-- What `usertrapret` reads of the process `i` with the address space `mm`. -/
def procOf (c : Sys ι) (i : ι) (mm : Mm) (kstack : Word) : CurrProc := ⟨c.trapframe i, kstack, mm.pgt⟩

theorem TrapframeAt.word {f : ℕ} (hf : L.Frame f) (ht : c.trapframe i = PA_TO_KVA f) {k : ℕ}
    (hk : k < 36) : (procOf c i mm kstack).word k = f + 8 * k := by
  unfold CurrProc.word procOf
  rw [ht]
  exact (hf.kva (by omega)).2

/-- Stores to the words of the trapframe stay in its page. -/
theorem within_page {f : ℕ} {m : Mem} (hf : L.Frame f) (ht : c.trapframe i = PA_TO_KVA f)
    (hw : Within 36 (procOf c i mm kstack).word m m') : SameOff {f} m m' := fun x hx =>
  hw x fun k hk hmem => by
    rw [TrapframeAt.word hf ht hk] at hmem
    exact hx f rfl ⟨by omega, by omega⟩

/-- The trapframe is mapped if the table says so whatever the trapframe holds. -/
theorem hasTrapframe_of_pte {r f : ℕ} {m : Mem} (hr : L.Frame r) (hf : L.Frame f)
    (hpgt : mm.pgt = PA_TO_KVA r) (ht : c.trapframe i = PA_TO_KVA f)
    (hpte : ∀ m', SameOff {f} m m' → pteOf m' (some r) trapframeVpn = mkPte f trapframeFlags)
    (kstack : Word) : HasTrapframe tableWalk (procOf c i mm kstack) m := by
  have hword : ∀ k < 36, (procOf c i mm kstack).word k = f + 8 * k := fun k hk =>
    TrapframeAt.word hf ht hk
  have hT := TRAPFRAME_eq
  refine ⟨fun k hk => ?_, fun j hj k hk hjk => ?_, fun m' hw k hk st => ?_⟩
  · rw [trapframe_word k hk]
    omega
  · rw [hword j hj, hword k hk]
    omega
  · have hroot : KVA_TO_PA mm.pgt = r := by
      rw [hpgt]
      exact KVA_TO_PA_PA_TO_KVA (by have := hr.lt; omega)
    have hm' := hpte m' (within_page hf ht hw)
    rw [hword k hk]
    unfold CurrProc.satp procOf
    rw [hroot]
    exact tableWalk_trapframe hr hf hm' hk st

theorem TrapframeAt.sameOff {f : ℕ} (h : Good L own A c) (hi : c.mach.2 i = some mm)
    (hf : L.Frame f) (ht : c.trapframe i = PA_TO_KVA f) (hm : SameOff {f} c.mem m') :
    Good L own A (c.withMem m') := by
  have ho := (h.trapframe i mm hi).owns
  rw [ht, KVA_TO_PA_PA_TO_KVA (by have := hf.lt; omega)] at ho
  refine h.write (fun g hg => ?_) (fun g hg he => ?_) hm
  · rw [hg]
    exact hf.aligned
  · exact not_kernel_of_leaf h.reps.ok ho (he ▸ hg)

/-- **A process finds its trapframe at `TRAPFRAME`.** -/
theorem Good.hasTrapframe (h : Good L own A c) (hi : c.mach.2 i = some mm) (kstack : Word) :
    HasTrapframe tableWalk (procOf c i mm kstack) c.mem := by
  obtain ⟨f, hf, ht, hpte⟩ := h.trapframe i mm hi
  obtain ⟨r, hr, hpgt⟩ := (h.user i mm hi).listed.root
  have hrF := h.reps.ok.frame_tbl (i := i) (p := []) (by simp) hr
  refine hasTrapframe_of_pte hrF hf hpgt ht (fun m' hm => ?_) kstack
  have h' := TrapframeAt.sameOff h hi hf ht hm
  rw [← hpte, h'.reps.pte i trapframeVpn (by decide), hr]
  rfl

/-! ### System calls -/

/-- `trapframe->epc += 4` in `usertrap`. -/
def skipEcall (p : CurrProc) (m : Mem) : Mem := writeWord m (p.word 3) (readWord m (p.word 3) + 4)

/-- `trapframe->a0 = ret` in `syscall`, for an `int`. -/
def storeRet (p : CurrProc) (ret : BitVec 32) (m : Mem) : Mem :=
  writeWord m (p.word 14) (ret.signExtend 64)

/-- A system call that is no `execve` and no `exit`: from a process in user mode, in any run after boot,
through `uservec`, any steps of the machine in the meantime, and `usertrapret`, on any hart. -/
def SyscallsResume (L : Layout) (ι : Type) [DecidableEq ι] (ok : KState → Mm → ℕ → Prop) : Prop :=
  ∀ (K : Symbols) (own : Set ℕ) (s₀ : KState) (fs : List ℕ) (tf : ι → ℕ) (c : Sys ι) (i : ι) (mm : Mm)
    (kstack : Word) (h : Hart), FreeOk L s₀ fs → LogOk s₀.log fs → (∀ f ∈ fs, f ∉ own) →
    Relation.ReflTransGen (World L own ok Set.univ) ⟨(s₀, fun _ => none), tf⟩ c →
    c.mach.2 i = some mm → h.mem = c.mem → InUser K (procOf c i mm kstack) h →
    ∃ k, exec tableWalk uservec h.trap = some k ∧
      ∀ c' mm', Relation.ReflTransGen (Meanwhile L own ok i)
        (c.withMem (skipEcall (procOf c i mm kstack) k.mem)) c' → c'.mach.2 i = some mm' →
        ∀ (k' : Hart) (x : Reg → Word) (ret : BitVec 32),
          k'.mem = storeRet (procOf c' i mm' kstack) ret c'.mem →
          ∃ u, exec tableWalk userret (usertrapret K (procOf c' i mm' kstack) x k') = some u ∧
            InUser K (procOf c' i mm' kstack) u ∧ u.pc = h.pc + 4 ∧
            ∀ r, u.get r = if r = a0 then ret.signExtend 64 else h.get r

variable [DecidableEq ι]

/-- **System calls resume**, if the exit codes stay in one user page. -/
theorem syscalls_resume (L : Layout) : SyscallsResume L ι OnePage := by
  intro K own s₀ fs tf c i mm kstack h hfree hlog hown hrun hi hmem hu
  obtain ⟨A, hA⟩ := World.good hrun (good_boot hfree hlog hown)
  have hs := Good.hasTrapframe hA hi kstack
  rw [← hmem] at hs
  obtain ⟨k, hx, hk, hsk, hpc, hreg⟩ := uservec_saves hu hs
  refine ⟨k, hx, fun c' mm' hmeans hi' k' x ret hmem' => ?_⟩
  have hw : Within 36 (procOf c i mm kstack).word c.mem (skipEcall (procOf c i mm kstack) k.mem) :=
    (hmem ▸ hk.within).trans (within_writeWord (by decide) _)
  obtain ⟨f, hf, ht, -⟩ := hA.trapframe i mm hi
  obtain ⟨B, mm₁, hB, hi₁, hspared⟩ :=
    meanwhile_spares hmeans (TrapframeAt.sameOff hA hi hf ht (within_page hf ht hw)) hi
  obtain rfl : mm₁ = mm' := Option.some.inj (hi₁.symm.trans hi')
  have hp : procOf c' i mm₁ kstack = procOf c i mm kstack := by
    unfold procOf
    rw [hspared.pointer, hspared.pgt, Sys.withMem_trapframe]
  have hs' := Good.hasTrapframe hB hi' kstack
  have hword : ∀ j < 36, (procOf c i mm kstack).word j = f + 8 * j := fun j hj =>
    TrapframeAt.word hf ht hj
  have hpa : KVA_TO_PA (c.trapframe i) = f := by
    rw [ht]
    exact KVA_TO_PA_PA_TO_KVA (by have := hf.lt; omega)
  have hbytes : ∀ j < 36, readWord c'.mem ((procOf c i mm kstack).word j) =
      readWord (skipEcall (procOf c i mm kstack) k.mem) ((procOf c i mm kstack).word j) := by
    intro j hj
    have hb := hspared.bytes (by simp)
    rw [Sys.withMem_trapframe, Sys.withMem_mem, hpa] at hb
    rw [hword j hj]
    exact congrArg (BitVec.ofNat 64) (load_congr 8 _ fun x h1 h2 => hb x ⟨by omega, by omega⟩)
  rw [hp] at hs' hmem' ⊢
  generalize hpe : procOf c i mm kstack = p at *
  have hs'' : HasTrapframe tableWalk p k'.mem := by
    rw [hmem']
    exact hs'.within (within_writeWord (by decide) _)
  obtain ⟨u, hxu, hu', hpc', hreg'⟩ := usertrapret_returns (K := K) hs'' x
  refine ⟨u, hxu, hu', ?_, fun r => ?_⟩
  · rw [hpc', hmem', storeRet, readWord_writeWord_of_apart (hs'.apart 14 (by decide) 3 (by decide)
      (by decide)), hbytes 3 (by decide), skipEcall, readWord_writeWord, hpc]
  · by_cases h0 : r = 0
    · rw [h0, Hart.get_zero, Hart.get_zero, if_neg (by decide)]
    by_cases hra : r = a0
    · rw [if_pos hra, hreg' r h0, hmem', storeRet, hra]
      exact readWord_writeWord _ _ _
    · have hslot : tfSlot r < 36 ∧ tfSlot r ≠ 14 ∧ tfSlot r ≠ 3 := by
        revert r
        decide
      rw [if_neg hra, hreg' r h0, hmem', storeRet, readWord_writeWord_of_apart (hs'.apart 14
        (by decide) _ hslot.1 (Ne.symm hslot.2.1)), hbytes _ hslot.1, skipEcall,
        readWord_writeWord_of_apart (hs'.apart 3 (by decide) _ hslot.1 (Ne.symm hslot.2.2)),
        hreg r h0]

end UCore.Trap.Resume
