import UCore.Lib.Bytes
import UCore.Lib.Hoare
import UCore.Riscv

/-! # The kernel's view of memory

`KState` is what the memory code works on: the physical memory, the head of the free list, the
numbers of live `mm` and `vma` objects, and the history of the page allocator (the lines that
`debugf` prints in `kallocpage` and `kfreepage`, newest first). A `Panic` ends the machine; it keeps
the state it happened in. Kernel code reaches memory through the direct mapping only: `kread64`,
`kwrite64` and `kblit` take kernel virtual addresses, and an access outside the mapping is a kernel
page fault, that is `panic("trap from kernel")`. -/

namespace UCore.Mem.State

open UCore.Lib.Bytes UCore.Lib.Hoare UCore.Riscv

/-! ### Panics -/

/-- The calls of `panic` and the failing assertions of the modelled functions. -/
inductive Panic
  | invalidUserVA
  | unalignedVa (va : ℕ)
  | mappagesBeyond (vmStart vmEnd : ℕ)
  | invalidPage (pa : ℕ)
  | invalidNextLevel (pa : ℕ)
  | assertion (text : String)
  | mm
  | tf
  | allocproc
  | mmCopy
  | mmMappages
  | loadUnused
  | unavailable
  | trapFromKernel
  deriving DecidableEq

/-- The format string of the message. -/
def Panic.text : Panic → String
  | .invalidUserVA => "invalid user VA"
  | .unalignedVa _ => "assertion failed: %s, unaligned va %p"
  | .mappagesBeyond _ _ => "user mappages beyond USER_TOP, va: [%p, %p)"
  | .invalidPage _ => "kfree: invalid page %p"
  | .invalidNextLevel _ => "invalid next-level pagetable: pa: %p"
  | .assertion _ => "assertion failed: %s"
  | .mm => "mm"
  | .tf => "tf"
  | .allocproc => "allocproc"
  | .mmCopy => "mm_copy"
  | .mmMappages => "mm_mappages"
  | .loadUnused => "..."
  | .unavailable => "unavailable"
  | .trapFromKernel => "trap from kernel"

/-! ### Physical memory -/

def RISCV_DDR_BASE : ℕ := 0x80000000
def PHYS_MEM_SIZE : ℕ := 64 * 1024 * 1024
def KERNEL_PHYS_BASE : ℕ := 0x80200000
def PGSIZE_2M : ℕ := 0x200000

/-- What boot leaves: the end of the kernel image, and how many pages after it `allocsetuppage`
handed out while the kernel page table was built. The page allocator gets the rest. `trampoline` is
`KIVA_TO_PA(trampoline)`, a page of the image. -/
structure Layout where
  kernelImageEnd2M : ℕ
  setupPages : ℕ
  trampoline : ℕ
  trampoline_lt : trampoline < kernelImageEnd2M
  trampoline_aligned : trampoline % PGSIZE = 0
  image_lt : KERNEL_PHYS_BASE < kernelImageEnd2M
  aligned : kernelImageEnd2M % PGSIZE_2M = 0
  fits : kernelImageEnd2M + setupPages * PGSIZE ≤ RISCV_DDR_BASE + PHYS_MEM_SIZE

namespace Layout
variable (L : Layout)

def kpageAllocatorBase : ℕ :=
  KERNEL_DIRECT_MAPPING_BASE + L.kernelImageEnd2M + L.setupPages * PGSIZE

def kpageAllocatorSize : ℕ :=
  PHYS_MEM_SIZE - (L.kernelImageEnd2M - RISCV_DDR_BASE) - L.setupPages * PGSIZE

/-- `[kva, kva + n)` lies in the kernel's direct mapping of physical memory. -/
def DirectMapped (kva n : ℕ) : Prop :=
  KERNEL_DIRECT_MAPPING_BASE + L.kernelImageEnd2M ≤ kva ∧
    kva + n ≤ KERNEL_DIRECT_MAPPING_BASE + (RISCV_DDR_BASE + PHYS_MEM_SIZE)

instance (kva n : ℕ) : Decidable (L.DirectMapped kva n) := by
  unfold DirectMapped; infer_instance

/-- A page frame of the page allocator's region, by its physical address. -/
def Frame (f : ℕ) : Prop :=
  f % 4096 = 0 ∧ L.kernelImageEnd2M + L.setupPages * 4096 ≤ f ∧ f < 0x84000000

instance (f : ℕ) : Decidable (L.Frame f) := by unfold Frame; infer_instance

variable {L}

/-- The trampoline is no frame of the allocator. -/
theorem not_frame_trampoline : ¬ L.Frame L.trampoline := by
  rintro ⟨-, h2, -⟩
  have := L.trampoline_lt
  omega

theorem trampoline_lt_pow : L.trampoline < 2 ^ 64 := by
  have h1 := L.trampoline_lt
  have h2 := L.fits
  unfold RISCV_DDR_BASE PHYS_MEM_SIZE at h2
  omega

theorem Frame.aligned {f : ℕ} (h : L.Frame f) : f % 4096 = 0 := h.1

theorem Frame.lt {f : ℕ} (h : L.Frame f) : f + 4096 ≤ 0x84000000 := by
  obtain ⟨h1, -, h3⟩ := h; omega

theorem Frame.pos {f : ℕ} (h : L.Frame f) : 0x80200000 < f := by
  have := L.image_lt
  unfold KERNEL_PHYS_BASE at this
  obtain ⟨-, h2, -⟩ := h; omega

theorem Frame.lt_pow {f : ℕ} (h : L.Frame f) : f < 2 ^ 38 := by
  have := h.lt; omega

theorem Frame.div_mul {f : ℕ} (h : L.Frame f) : f / 4096 * 4096 = f := by
  have := h.aligned; omega

/-- Addresses inside a frame, as the kernel reaches them. -/
theorem Frame.kva {f o : ℕ} (h : L.Frame f) (ho : o ≤ 4096) :
    PA_TO_KVA f + o = f + o + KERNEL_DIRECT_MAPPING_BASE ∧
      KVA_TO_PA (PA_TO_KVA f + o) = f + o := by
  have h1 := h.lt
  rw [PA_TO_KVA_eq h.lt_pow]
  unfold KVA_TO_PA KERNEL_DIRECT_MAPPING_BASE
  omega

theorem Frame.directMapped {f o n : ℕ} (h : L.Frame f) (hn : o + n ≤ 4096) :
    L.DirectMapped (PA_TO_KVA f + o) n := by
  have h1 := h.lt
  have h2 := (h.kva (o := o) (by omega)).1
  unfold DirectMapped RISCV_DDR_BASE PHYS_MEM_SIZE
  obtain ⟨-, h3, -⟩ := h
  omega

/-- What the address `0` of physical memory translates to is not mapped. -/
theorem not_directMapped_null {o n : ℕ} (ho : o ≤ 4096) : ¬ L.DirectMapped (PA_TO_KVA 0 + o) n := by
  have h := L.image_lt
  unfold KERNEL_PHYS_BASE at h
  unfold DirectMapped
  rw [PA_TO_KVA_eq (by norm_num)]
  omega

theorem Frame.kva_ne_zero {f : ℕ} (h : L.Frame f) : PA_TO_KVA f ≠ 0 := by
  rw [PA_TO_KVA_eq h.lt_pow]; unfold KERNEL_DIRECT_MAPPING_BASE; omega

/-- **The check of `kfreepage`** accepts exactly the frames of the region. -/
theorem frame_iff {pa : ℕ} (hpa : pa < 2 ^ 64) :
    (PGALIGNED pa ∧ L.kpageAllocatorBase ≤ PA_TO_KVA pa ∧
      PA_TO_KVA pa < L.kpageAllocatorBase + L.kpageAllocatorSize) ↔ L.Frame pa := by
  have h1 := L.image_lt
  have h2 := L.fits
  unfold PGALIGNED kpageAllocatorBase kpageAllocatorSize Frame PA_TO_KVA
  simp only [KERNEL_PHYS_BASE, PGSIZE, RISCV_DDR_BASE, PHYS_MEM_SIZE,
    KERNEL_DIRECT_MAPPING_BASE] at *
  omega

end Layout

/-! ### The state -/

/-- One line of the page allocator's history. -/
inductive PageEvent
  | alloc (pa : ℕ)
  | empty
  | free (pa : ℕ)
  deriving DecidableEq

structure KState where
  mem : Mem
  /-- `kmem.freelist`, a kernel virtual address. -/
  freelist : ℕ
  mmObjs : ℕ
  vmaObjs : ℕ
  log : List PageEvent

/-- A piece of kernel code. -/
abbrev KM := EStateM Panic KState

section Access
variable (L : Layout)

def kread64 (kva : ℕ) : KM ℕ := do
  ensure (L.DirectMapped kva 8) .trapFromKernel
  let s ← get
  return load s.mem (KVA_TO_PA kva) 8

def kwrite64 (kva v : ℕ) : KM Unit := do
  ensure (L.DirectMapped kva 8) .trapFromKernel
  modify fun s => { s with mem := store s.mem (KVA_TO_PA kva) 8 v }

/-- A load of one byte through a kernel pointer. -/
def kread8 (kva : ℕ) : KM UInt8 := do
  ensure (L.DirectMapped kva 1) .trapFromKernel
  let s ← get
  return s.mem (KVA_TO_PA kva)

/-- The `n` bytes at a kernel pointer; no byte, no fault. -/
def kread (kva n : ℕ) : KM (List UInt8) :=
  if n = 0 then pure [] else do
    ensure (L.DirectMapped kva n) .trapFromKernel
    let s ← get
    return (List.range n).map fun k => s.mem (KVA_TO_PA kva + k)

/-- A store of `n` bytes through a kernel pointer; no byte, no fault. -/
def kblit (kva n : ℕ) (f : ℕ → UInt8) : KM Unit :=
  if n = 0 then pure () else do
    ensure (L.DirectMapped kva n) .trapFromKernel
    modify fun s => { s with mem := blit s.mem (KVA_TO_PA kva) n f }

def memset (kva : ℕ) (c : UInt8) (n : ℕ) : KM Unit := kblit L kva n fun _ => c

/-- `memmove` between two kernel addresses of the direct mapping. -/
def memmove (dst src n : ℕ) : KM Unit :=
  if n = 0 then pure () else do
    ensure (L.DirectMapped src n) .trapFromKernel
    let s ← get
    kblit L dst n fun k => s.mem (KVA_TO_PA src + k)

end Access

section AccessRules
variable {L : Layout} {s : KState} {E : Panic → KState → Prop} {f o k : ℕ}

theorem wp_kread64 {Q : ℕ → KState → Prop} (hf : L.Frame f) (hk : k = PA_TO_KVA f + o)
    (ho : o + 8 ≤ 4096) (h : Q (load s.mem (f + o) 8) s) : wp (kread64 L k) s Q E := by
  subst hk
  unfold kread64
  refine wp_bind.mpr (wp_ensure_pos (hf.directMapped ho) (wp_bind.mpr (wp_get.mpr ?_)))
  rw [wp_pure, (hf.kva (by omega)).2]
  exact h

theorem wp_kwrite64 {v : ℕ} {Q : Unit → KState → Prop} (hf : L.Frame f) (hk : k = PA_TO_KVA f + o)
    (ho : o + 8 ≤ 4096) (h : Q () { s with mem := store s.mem (f + o) 8 v }) :
    wp (kwrite64 L k v) s Q E := by
  subst hk
  unfold kwrite64
  refine wp_bind.mpr (wp_ensure_pos (hf.directMapped ho) (wp_modify.mpr ?_))
  rw [(hf.kva (by omega)).2]
  exact h

theorem wp_kread8 {Q : UInt8 → KState → Prop} (hf : L.Frame f) (hk : k = PA_TO_KVA f + o)
    (ho : o < 4096) (h : Q (s.mem (f + o)) s) : wp (kread8 L k) s Q E := by
  subst hk
  unfold kread8
  refine wp_bind.mpr (wp_ensure_pos (hf.directMapped ho) (wp_bind.mpr (wp_get.mpr ?_)))
  rw [wp_pure, (hf.kva (by omega)).2]
  exact h

theorem wp_kread {n : ℕ} {Q : List UInt8 → KState → Prop} (hf : L.Frame f)
    (hk : k = PA_TO_KVA f + o) (ho : o + n ≤ 4096)
    (h : Q ((List.range n).map fun j => s.mem (f + o + j)) s) : wp (kread L k n) s Q E := by
  subst hk
  unfold kread
  split_ifs with h0
  · subst h0
    exact h
  · refine wp_bind.mpr (wp_ensure_pos (hf.directMapped ho) (wp_bind.mpr (wp_get.mpr ?_)))
    rw [wp_pure, (hf.kva (by omega)).2]
    exact h

theorem wp_kblit {n : ℕ} {g : ℕ → UInt8} {Q : Unit → KState → Prop} (hf : L.Frame f)
    (hk : k = PA_TO_KVA f + o) (ho : o + n ≤ 4096)
    (h : Q () { s with mem := blit s.mem (f + o) n g }) : wp (kblit L k n g) s Q E := by
  subst hk
  unfold kblit
  split_ifs with h0
  · subst h0
    rw [blit_zero] at h
    exact h
  · refine wp_bind.mpr (wp_ensure_pos (hf.directMapped ho) (wp_modify.mpr ?_))
    rw [(hf.kva (by omega)).2]
    exact h

theorem wp_memset {c : UInt8} {n : ℕ} {Q : Unit → KState → Prop} (hf : L.Frame f)
    (hk : k = PA_TO_KVA f + o) (ho : o + n ≤ 4096)
    (h : Q () { s with mem := fill s.mem (f + o) n c }) : wp (memset L k c n) s Q E :=
  wp_kblit hf hk ho h

/-- A store through the translation of the address `0`. -/
theorem wp_kblit_null {n : ℕ} {g : ℕ → UInt8} {Q : Unit → KState → Prop} (ho : o ≤ 4096)
    (h0 : n = 0 → Q () s) (hE : n ≠ 0 → E .trapFromKernel s) :
    wp (kblit L (PA_TO_KVA 0 + o) n g) s Q E := by
  unfold kblit
  split_ifs with hn
  · exact h0 hn
  · exact wp_bind.mpr (wp_ensure.mpr
      ⟨fun hc => absurd hc (Layout.not_directMapped_null ho), fun _ => hE hn⟩)

theorem wp_memmove {g n p j : ℕ} {Q : Unit → KState → Prop} (hf : L.Frame f) (hg : L.Frame g)
    (hk : k = PA_TO_KVA f + o) (hj : j = PA_TO_KVA g + p) (ho : o + n ≤ 4096)
    (hp : p + n ≤ 4096) (h : Q () { s with mem := copyIn s.mem (f + o) (g + p) n }) :
    wp (memmove L k j n) s Q E := by
  subst hj
  unfold memmove
  split_ifs with h0
  · subst h0
    rw [copyIn, blit_zero] at h
    exact h
  · refine wp_bind.mpr (wp_ensure_pos (hg.directMapped hp) (wp_bind.mpr (wp_get.mpr ?_)))
    refine wp_kblit hf hk ho ?_
    rw [(hg.kva (by omega)).2]
    exact h

end AccessRules

end UCore.Mem.State
