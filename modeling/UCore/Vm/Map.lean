import UCore.Vm.Walk

/-! # Memory maps

The functions of `vm.c` over a whole `struct mm`: `mm_create`, `mm_mappages`, `mm_mappagesat`,
`freevma`, `mm_free_pages`, `mm_free`, `mm_copy`, and the debug printer `vm_print`. A loop over the
pages of `[start, end)` runs over the list `pages start end`. An `mm` is passed by value: a function
that changes `mm->vma` returns the new one. Of the object allocators only the number of live objects
is kept. -/

namespace UCore.Vm.Map

open UCore.Lib.Hoare UCore.Riscv UCore.Mem.State UCore.Mem.Kalloc UCore.Vm.Walk

variable (L : Layout)

/-- The values of `va` in `for (va = start; va < end; va += PGSIZE)`. -/
def pages (start stop : ℕ) : List ℕ :=
  (List.range ((stop - start + (PGSIZE - 1)) / PGSIZE)).map fun k => start + PGSIZE * k

/-! ### Objects -/

/-- The number of objects that `uvm_init` gives each allocator. -/
def objectCount : ℕ := 16384

/-- `kalloc(&mm_allocator)`. -/
def kallocMm : KM Unit := do
  let s ← get
  ensure (s.mmObjs < objectCount) .unavailable
  modify fun s => { s with mmObjs := s.mmObjs + 1 }

/-- `kfree(&mm_allocator, mm)`. -/
def kfreeMm : KM Unit := modify fun s => { s with mmObjs := s.mmObjs - 1 }

/-- `kalloc(&vma_allocator)`. -/
def kallocVma : KM Unit := do
  let s ← get
  ensure (s.vmaObjs < objectCount) .unavailable
  modify fun s => { s with vmaObjs := s.vmaObjs + 1 }

/-- `kfree(&vma_allocator, vma)`. -/
def kfreeVma : KM Unit := modify fun s => { s with vmaObjs := s.vmaObjs - 1 }

/-! ### Printing -/

def VALID_PHYS_ADDR (pa : ℕ) : Prop :=
  KERNEL_PHYS_BASE ≤ pa ∧ pa ≤ RISCV_DDR_BASE + PHYS_MEM_SIZE

instance (pa : ℕ) : Decidable (VALID_PHYS_ADDR pa) := by unfold VALID_PHYS_ADDR; infer_instance

/-- `vm_print_walk` without its output; the number is that of the levels left. -/
def vmPrintWalk : ℕ → ℕ → KM Unit
  | 0, _ => pure ()
  | n + 1, pgt => forM (List.range 512) fun i => do
    let pte ← kread64 L (pgt + 8 * i)
    if Has pte PTE_V ∧ ¬ (Has pte PTE_R ∨ Has pte PTE_W ∨ Has pte PTE_X) then
      ensure (VALID_PHYS_ADDR (PTE2PA pte)) (.invalidNextLevel (PTE2PA pte))
      vmPrintWalk n (PA_TO_KVA (PTE2PA pte))

/-- `vm_print(pagetable)`. -/
def vmPrint (pagetable : ℕ) : KM Unit := vmPrintWalk L 3 pagetable

/-! ### Making and mapping -/

/-- `mm_create()`; `none` is the null pointer. -/
def mmCreate : KM (Option Mm) := do
  kallocMm
  let pa ← kallocpage L
  let pgt := PA_TO_KVA pa
  if pgt = 0 then
    kfreeMm
    return none
  else
    memset L pgt 0 PGSIZE
    return some ⟨pgt, [], 1⟩

/-- The loop of `mm_mappages`: `0`, or `-1` where it stops. -/
def mappagesLoop (mm : Mm) (flags : ℕ) : List ℕ → KM ℤ
  | [] => return 0
  | va :: vas => do
    match ← walk L mm va true with
    | none => return -1
    | some ptep =>
      let pte ← kread64 L ptep
      if Has pte PTE_V then
        return -1
      else
        let pa ← kallocpage L
        if pa = 0 then
          return -1
        else
          kwrite64 L ptep (mkPte pa flags)
          mappagesLoop mm flags vas

/-- `mm_mappages(vma)` for a `vma` whose owner is `mm`. -/
def mmMappages (mm : Mm) (vma : Vma) : KM (ℤ × Mm) := do
  ensure (IS_USER_VA vma.vmStart ∧ IS_USER_VA vma.vmEnd) (.mappagesBeyond vma.vmStart vma.vmEnd)
  ensure (PGALIGNED vma.vmStart) (.assertion "PGALIGNED(vma->vm_start)")
  ensure (PGALIGNED vma.vmEnd) (.assertion "PGALIGNED(vma->vm_end)")
  ensure (Has vma.pteFlags PTE_R ∨ Has vma.pteFlags PTE_W ∨ Has vma.pteFlags PTE_X)
    (.assertion "(vma->pte_flags & PTE_R) || (vma->pte_flags & PTE_W) || (vma->pte_flags & PTE_X)")
  let r ← mappagesLoop L mm vma.pteFlags (pages vma.vmStart vma.vmEnd)
  if r ≠ 0 then
    return (r, mm)
  else
    return (0, { mm with vma := vma :: mm.vma })

/-- `mm_mappagesat(mm, va, pa, flags, add_linked_list)`; `none` is the null pointer. -/
def mmMappagesat (mm : Mm) (va pa flags : ℕ) (addLinkedList : Bool) :
    KM (Option Vma × Mm) := do
  kallocVma
  let vma : Vma := { vmStart := va, vmEnd := (va + PGSIZE) % 2 ^ 64, pteFlags := flags }
  match ← walk L mm va true with
  | none => return (none, mm)
  | some ptep =>
    let pte ← kread64 L ptep
    if Has pte PTE_V then
      vmPrint L mm.pgt
      return (none, mm)
    else
      kwrite64 L ptep (mkPte pa vma.pteFlags)
      if addLinkedList then
        return (some vma, { mm with vma := vma :: mm.vma })
      else
        return (some vma, mm)

/-! ### Unmapping -/

/-- The body of the loop of `freevma`. -/
def freePage (mm : Mm) (freePhyPage : Bool) (va : ℕ) : KM Unit := do
  match ← walk L mm va false with
  | none => pure ()
  | some ptep =>
    if freePhyPage then
      let pte ← kread64 L ptep
      kfreepage L (PTE2PA pte)
    kwrite64 L ptep 0

/-- `freevma(vma, free_phy_page)` for a `vma` whose owner is `mm`. -/
def freevma (mm : Mm) (vma : Vma) (freePhyPage : Bool) : KM Unit := do
  ensure (PGALIGNED vma.vmStart ∧ PGALIGNED vma.vmEnd)
    (.assertion "PGALIGNED(vma->vm_start) && PGALIGNED(vma->vm_end)")
  forM (pages vma.vmStart vma.vmEnd) (freePage L mm freePhyPage)

/-- `mm_free_pages(mm)`. -/
def mmFreePages (mm : Mm) : KM Mm := do
  forM mm.vma fun vma => do
    freevma L mm vma true
    kfreeVma
  return { mm with vma := [] }

/-- `mm_free(mm)`. -/
def mmFree (mm : Mm) : KM Unit := do
  let mm ← mmFreePages L mm
  kfreepage L (KVA_TO_PA mm.pgt)
  if mm.refcnt - 1 = 0 then
    kfreeMm

/-! ### Copying -/

/-- The body of the inner loop of `mm_copy`. -/
def copyPage (old new : Mm) (va : ℕ) : KM Unit := do
  let paOld ← walkaddr L old va
  let paNew ← walkaddr L new va
  memmove L (PA_TO_KVA paNew) (PA_TO_KVA paOld) PGSIZE

/-- The loop of `mm_copy` over the list of `old`. -/
def mmCopyLoop (old : Mm) : List Vma → Mm → KM (ℤ × Mm)
  | [], new => return (0, new)
  | vma :: vmas, new => do
    kallocVma
    let newVma : Vma :=
      { vmStart := vma.vmStart, vmEnd := vma.vmEnd, pteFlags := vma.pteFlags }
    let (r, new) ← mmMappages L new newVma
    if r ≠ 0 then
      let new ← mmFreePages L new
      return (-1, new)
    else
      forM (pages vma.vmStart vma.vmEnd) (copyPage L old new)
      mmCopyLoop old vmas new

/-- `mm_copy(old, new)`. -/
def mmCopy (old new : Mm) : KM (ℤ × Mm) := mmCopyLoop L old old.vma new

end UCore.Vm.Map
