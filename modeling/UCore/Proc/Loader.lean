import UCore.Proc.State
import UCore.Vm.Uaccess

/-! # The loader

`load_user_elf`: the segments of an ELF image are mapped and filled page by page, then come the
break, the stack, and the two registers. An image is a function from offsets to bytes, so that
`load` of `UCore.Lib.Bytes` reads its headers.

The page loop copies the file from the start of the first page on, so the byte at user address `a`
of a segment is that of `a - vm_start` in the file (`segByte`), and the end of the vma is computed
from the rounded start. Where `p_vaddr` is page aligned this is what ELF asks for; where it is not,
`load_user_elf` meets the specification only by accident (`load_meets_iff`). -/

namespace UCore.Proc.Loader

open UCore.Lib.Bytes UCore.Lib.Hoare UCore.Riscv UCore.Mem.State UCore.Mem.Kalloc UCore.Mem.Boot
open UCore.Vm.Spaces UCore.Vm.Tables UCore.Vm.Growth UCore.Vm.Walk UCore.Vm.Map UCore.Vm.Refine
open UCore.Vm.VmaList UCore.Vm.Count UCore.Vm.Fill UCore.Vm.Copy UCore.Vm.Process UCore.Vm.Family
open UCore.Vm.Uaccess UCore.Proc.State

/-! ### Images -/

/-- The bytes of an image, from `elf_address` on. -/
abbrev Image := Mem

/-- `struct user_app`; the name without its terminator. -/
structure UserApp where
  name : List UInt8
  elf : Image
  elfLength : ℕ

structure Phdr where
  pType : ℕ
  pFlags : ℕ
  pOffset : ℕ
  pVaddr : ℕ
  pFilesz : ℕ
  pMemsz : ℕ
  deriving DecidableEq

def PT_LOAD : ℕ := 1
def PF_X : ℕ := 1
def PF_W : ℕ := 2
def PF_R : ℕ := 4

/-- `sizeof(Elf64_Phdr)`. -/
def phdrSize : ℕ := 56

section Headers
variable (elf : Image)

def eEntry : ℕ := load elf 24 8
def ePhoff : ℕ := load elf 32 8
def ePhentsize : ℕ := load elf 54 2
def ePhnum : ℕ := load elf 56 2

/-- `phdr_base[i]`. -/
def phdrAt (i : ℕ) : Phdr :=
  let phdr := ePhoff elf + phdrSize * i
  { pType := load elf phdr 4
    pFlags := load elf (phdr + 4) 4
    pOffset := load elf (phdr + 8) 8
    pVaddr := load elf (phdr + 16) 8
    pFilesz := load elf (phdr + 32) 8
    pMemsz := load elf (phdr + 40) 8 }

def phdrs : List Phdr := (List.range (ePhnum elf)).map (phdrAt elf)

/-- The magic number. -/
def ElfMagic : Prop := elf 0 = 0x7F ∧ elf 1 = 69 ∧ elf 2 = 76 ∧ elf 3 = 70

instance : Decidable (ElfMagic elf) := by unfold ElfMagic; infer_instance

end Headers

/-- `loader_init()` on the table `user_apps`. -/
def loaderInit (userApps : List UserApp) : KM Unit :=
  forM userApps fun app => do
    ensure (ElfMagic app.elf) (.assertion "invalid elf header: %s")
    ensure (ePhentsize app.elf = phdrSize) (.assertion "invalid program header size")

/-! ### The code -/

/-- `pte_perm`. -/
def segmentPerm (pFlags : ℕ) : ℕ :=
  let perm := PTE_U
  let perm := if Has pFlags PF_R then perm ||| PTE_R else perm
  let perm := if Has pFlags PF_W then perm ||| PTE_W else perm
  if Has pFlags PF_X then perm ||| PTE_X else perm

/-- The vma of a segment. -/
def segmentVma (phdr : Phdr) : Vma where
  vmStart := PGROUNDDOWN phdr.pVaddr
  vmEnd := PGROUNDUP (PGROUNDDOWN phdr.pVaddr + phdr.pMemsz)
  pteFlags := segmentPerm phdr.pFlags

def USTACK_START : ℕ := 0xffff0000
def USTACK_SIZE : ℕ := PGSIZE * 8

/-- The vma of the stack. -/
def ustackVma : Vma := ⟨USTACK_START - USTACK_SIZE, USTACK_START, PTE_R ||| PTE_W ||| PTE_U⟩

/-- The vma of the break. -/
def brkVma (maxVaEnd : ℕ) : Vma := ⟨maxVaEnd, maxVaEnd, PTE_R ||| PTE_W ||| PTE_U⟩

variable (L : Layout)

/-- One page of a segment: the bytes from `fileOff` on, then zeroes; returns `copy_size`. -/
def loadPage (elf : Image) (mm : Mm) (phdr : Phdr) (va fileOff fileRemains : ℕ) : KM ℕ := do
  let pa ← walkaddr L mm va
  let copySize := min fileRemains PGSIZE
  kblit L (PA_TO_KVA pa) copySize fun k => elf (phdr.pOffset + fileOff + k)
  if copySize < PGSIZE then
    memset L (PA_TO_KVA pa + copySize) 0 (PGSIZE - copySize)
  return copySize

/-- The loop over the pages of a segment; returns `file_remains`. -/
def loadPages (elf : Image) (mm : Mm) (phdr : Phdr) : List ℕ → ℕ → ℕ → KM ℕ
  | [], _, fileRemains => return fileRemains
  | va :: vas, fileOff, fileRemains => do
    let copySize ← loadPage L elf mm phdr va fileOff fileRemains
    loadPages elf mm phdr vas (fileOff + copySize) (fileRemains - copySize)

/-- The values of `va` in `for (va = start; va < end; va = PGROUNDDOWN(va) + PGSIZE)`. -/
def pagesFrom (start stop : ℕ) : List ℕ :=
  if start < stop then start :: pages (PGROUNDDOWN start + PGSIZE) stop else []

/-- One round of the loop that clears the `.bss`. -/
def clearPage (mm : Mm) (va : ℕ) : KM Unit := do
  let pageOff := va - PGROUNDDOWN va
  let clearSize := PGROUNDUP va - va
  let pa ← walkaddr L mm (PGROUNDDOWN va)
  memset L (PA_TO_KVA pa + pageOff) 0 clearSize

/-- One round of the loop of `load_user_elf` over the program headers. -/
def loadSegment (elf : Image) (mm : Mm) (phdr : Phdr) : KM Mm := do
  kallocVma
  let vma := segmentVma phdr
  let (ret, mm) ← mmMappages L mm vma
  if ret ≠ 0 then
    throw .mmMappages
  else
    let fileRemains ← loadPages L elf mm phdr (pages vma.vmStart vma.vmEnd) 0 phdr.pFilesz
    if phdr.pFilesz < phdr.pMemsz then
      let bssStart := (phdr.pVaddr + phdr.pFilesz) % 2 ^ 64
      let bssEnd := (phdr.pVaddr + phdr.pMemsz) % 2 ^ 64
      forM (pagesFrom bssStart bssEnd) (clearPage L mm)
    ensure (fileRemains = 0) (.assertion "file_remains == 0")
    return mm

/-- The loop over the program headers, with `max_va_end`. -/
def loadSegments (elf : Image) : Mm → ℕ → List Phdr → KM (Mm × ℕ)
  | mm, maxVaEnd, [] => return (mm, maxVaEnd)
  | mm, maxVaEnd, phdr :: phdrs =>
    if phdr.pType ≠ PT_LOAD then
      loadSegments elf mm maxVaEnd phdrs
    else do
      let mm ← loadSegment L elf mm phdr
      loadSegments elf mm (max maxVaEnd (PGROUNDUP (phdr.pVaddr + phdr.pMemsz))) phdrs

/-- The clearing of one page of the stack. -/
def clearStackPage (mm : Mm) (va : ℕ) : KM Unit := do
  let pa ← walkaddr L mm va
  memset L (PA_TO_KVA pa) 0 PGSIZE

/-- `load_user_elf(app, p)`. -/
def loadUserElf (elf : Image) (p : Proc) : KM (ℤ × Proc) := do
  if p.state = .unused then
    throw .loadUnused
  else
    match p.mm with
    | none => throw .trapFromKernel
    | some mm =>
      let (mm, maxVaEnd) ← loadSegments L elf mm 0 (phdrs elf)
      kallocVma
      let (_, mm) ← mmMappages L mm (brkVma maxVaEnd)
      kallocVma
      let (_, mm) ← mmMappages L mm ustackVma
      forM (pages ustackVma.vmStart ustackVma.vmEnd) (clearStackPage L mm)
      kwrite64 L (p.trapframe + tfSp) USTACK_START
      kwrite64 L (p.trapframe + tfEpc) (eEntry elf)
      return (0, { p with
        mm := some mm, vmaBrk := some (brkVma maxVaEnd), vmaUstack := some ustackVma,
        state := .runnable })

variable {L} {ι : Type} {s s₁ s' : KState} {A B C : View ι} {i : ι} {mm : Mm} {elf : Image}
  {phdr : Phdr}

variable [DecidableEq ι]

/-! ### The pages of a segment -/

omit [DecidableEq ι] in
/-- A page filled from its start, the rest with zeroes. -/
theorem blit_fill (m : Mem) (f : ℕ) (g : ℕ → UInt8) {c : ℕ} (hc : c ≤ 4096) :
    SameOff {f} m (fill (blit m f c g) (f + c) (4096 - c) 0) ∧
      ∀ k < 4096, fill (blit m f c g) (f + c) (4096 - c) 0 (f + k) = if k < c then g k else 0 := by
  have h₁ : SameOff {f} m (blit m f c g) := sameOff_blit rfl le_rfl (by omega)
  have h₂ : SameOff {f} (blit m f c g) (fill (blit m f c g) (f + c) (4096 - c) 0) :=
    sameOff_blit (Set.mem_singleton f) (by omega) (by omega)
  refine ⟨h₁.trans h₂, fun k hk => ?_⟩
  unfold fill
  by_cases hkc : k < c
  · rw [blit_of_not_mem (by omega), blit_of_mem (by omega) (by omega), Nat.add_sub_cancel_left,
      if_pos hkc]
  · rw [blit_of_mem (by omega) (by omega), if_neg hkc]

/-- One page: the bytes of the file, then zeroes. -/
theorem wp_loadPage (h : Reps L s A) {r va off rem f : ℕ} (hr : A.tbl i [] = some r)
    (hpgt : mm.pgt = PA_TO_KVA r) (hal : PGALIGNED va) (hf : UserFrame L A i (va / 4096) f) :
    wpOk (loadPage L elf mm phdr va off rem) s fun o s' => o = min rem 4096 ∧
      s' = { s with mem := s'.mem } ∧ SameOff {f} s.mem s'.mem ∧
      ∀ k < 4096, s'.mem (f + k) = if k < rem then elf (phdr.pOffset + off + k) else 0 := by
  unfold loadPage
  refine (wp_walkaddr_user h hr hpgt hal hf).seq ?_
  rintro a s₁ ⟨hs₁, ha⟩
  rw [hs₁, ha, PGSIZE_eq]
  generalize hc : min rem 4096 = c
  have hF := hf.frame
  refine wp_bind.mpr (wp_kblit hF (o := 0) (Nat.add_zero _).symm (by omega) ?_)
  rw [Nat.add_zero]
  by_cases hlt : c < 4096
  · rw [if_pos hlt]
    refine wp_bind.mpr (wp_memset hF (o := c) rfl (by omega) ?_)
    obtain ⟨h1, h2⟩ := blit_fill s.mem f (fun k => elf (phdr.pOffset + off + k)) hlt.le
    refine ⟨rfl, rfl, h1, fun k hk => (h2 k hk).trans ?_⟩
    by_cases hkc : k < c
    · rw [if_pos hkc, if_pos (by omega)]
    · rw [if_neg hkc, if_neg (by omega)]
  · rw [if_neg hlt]
    have hm : SameOff {f} s.mem (blit s.mem f c fun k => elf (phdr.pOffset + off + k)) :=
      sameOff_blit rfl le_rfl (by omega)
    refine ⟨rfl, rfl, hm, fun k hk => ?_⟩
    change blit s.mem f c (fun k => elf (phdr.pOffset + off + k)) (f + k) = _
    rw [blit_of_mem (by omega) (by omega), Nat.add_sub_cancel_left, if_pos (by omega)]

/-- **The page loop**: the file from the start of the vma on, then zeroes. -/
theorem wp_loadPages {r : ℕ} (hr : A.tbl i [] = some r) (hpgt : mm.pgt = PA_TO_KVA r) :
    ∀ {n start off rem : ℕ} {s : KState}, Reps L s A → PGALIGNED start →
      (∀ k < n, UserFrame L A i (start / 4096 + k) (PTE2PA (A.pte i (start / 4096 + k)))) →
      wpOk (loadPages L elf mm phdr (pages start (start + 4096 * n)) off rem) s fun o s' =>
        o = rem - 4096 * n ∧ s' = { s with mem := s'.mem } ∧ Reps L s' A ∧
        SameOff (targets A i ((List.range n).map (start / 4096 + ·))) s.mem s'.mem ∧
        ∀ a, start ≤ a → a < start + 4096 * n → userByte s'.mem A i a =
          if a - start < rem then elf (phdr.pOffset + off + (a - start)) else 0
  | 0, start, off, rem, s, h, _, _ => by
    rw [pages_of_le (by omega)]
    refine ⟨by simp, rfl, h, SameOff.refl _ _, fun a h1 h2 => by omega⟩
  | n + 1, start, off, rem, s, h, hal, hu => by
    rw [pages_cons (by omega), show start + 4096 * (n + 1) = start + 4096 + 4096 * n by omega,
      loadPages]
    have hal' : PGALIGNED (start + 4096) := by rw [PGALIGNED_iff] at hal ⊢; omega
    have hdiv : ∀ k, (start + 4096) / 4096 + k = start / 4096 + (k + 1) := fun k => by omega
    have hf := hu 0 (by omega)
    rw [Nat.add_zero] at hf
    refine (wp_loadPage h hr hpgt hal hf).seq ?_
    rintro c s₁ ⟨hc, hs₁, hm₁, hb₁⟩
    have hF := hf.frame
    have hA₁ : Reps L s₁ A := by
      rw [hs₁]; exact reps_of_userPage h hf hm₁
    refine (wp_loadPages hr hpgt hA₁ hal' fun k hk => ?_).imp ?_
    · rw [hdiv]; exact hu (k + 1) (by omega)
    rintro o s₂ ⟨ho, hs₂, hA₂, hm₂, hb₂⟩
    have hu' : ∀ v ∈ (List.range n).map ((start + 4096) / 4096 + ·),
        UserFrame L A i v (PTE2PA (A.pte i v)) := by
      intro v hv
      obtain ⟨k, hk, rfl⟩ := List.mem_map.mp hv
      rw [hdiv]
      exact hu (k + 1) (by have := List.mem_range.mp hk; omega)
    have hfresh : PTE2PA (A.pte i (start / 4096)) ∉
        targets A i ((List.range n).map ((start + 4096) / 4096 + ·)) := by
      rintro ⟨v, hv, he⟩
      have huv := hu' v hv
      rw [he] at huv
      have := (hf.unique huv h.ok).2
      obtain ⟨k, -, rfl⟩ := List.mem_map.mp hv
      omega
    refine ⟨by omega, ?_, hA₂, ?_, fun a h1 h2 => ?_⟩
    · rw [hs₁] at hs₂; exact hs₂
    · refine (hm₁.mono ?_).trans (hm₂.mono ?_)
      · rintro _ rfl
        exact ⟨start / 4096, by simp, rfl⟩
      · rintro g ⟨v, hv, rfl⟩
        obtain ⟨k, hk, rfl⟩ := List.mem_map.mp hv
        rw [hdiv]
        exact ⟨start / 4096 + (k + 1), List.mem_map.mpr
          ⟨k + 1, by have := List.mem_range.mp hk; simpa using this, rfl⟩, rfl⟩
    · rw [PGALIGNED_iff] at hal
      by_cases hlt : a < start + 4096
      · -- the first page is not touched again
        have ha : a / 4096 = start / 4096 := by omega
        have hbyte : userByte s₂.mem A i a = userByte s₁.mem A i a :=
          userByte_same hm₂ (targets_aligned hu') (by rw [ha]; exact hf) hfresh
        rw [hbyte]
        unfold userByte
        rw [ha, show a % 4096 = a - start by omega]
        exact hb₁ _ (by omega)
      · rw [hb₂ a (by omega) (by omega)]
        have hiff : a - (start + 4096) < rem - c ↔ a - start < rem := by omega
        by_cases hrem : a - start < rem
        · have hoff : phdr.pOffset + (off + c) + (a - (start + 4096)) =
              phdr.pOffset + off + (a - start) := by omega
          rw [if_pos hrem, if_pos (hiff.mpr hrem), hoff]
        · rw [if_neg hrem, if_neg fun hc => hrem (hiff.mp hc)]

/-! ### Segments -/

/-- What is asked of a segment: it lies below the trapframe, its file part is not larger than its
memory, and it has a permission. -/
structure SegmentOk (phdr : Phdr) : Prop where
  filesz_le : phdr.pFilesz ≤ phdr.pMemsz
  end_le : phdr.pVaddr + phdr.pMemsz ≤ TRAPFRAME
  perm : Has phdr.pFlags PF_R ∨ Has phdr.pFlags PF_W ∨ Has phdr.pFlags PF_X

/-- The page range `[PGROUNDDOWN(p_vaddr), PGROUNDUP(p_vaddr + p_memsz))` of a segment. -/
def segmentRange (phdr : Phdr) : Vma :=
  ⟨PGROUNDDOWN phdr.pVaddr, PGROUNDUP (phdr.pVaddr + phdr.pMemsz), segmentPerm phdr.pFlags⟩

/-- What `load_user_elf` puts at user address `a` of a segment. -/
def segByte (elf : Image) (phdr : Phdr) (a : ℕ) : UInt8 :=
  if a - PGROUNDDOWN phdr.pVaddr < phdr.pFilesz then
    elf (phdr.pOffset + (a - PGROUNDDOWN phdr.pVaddr))
  else 0

/-- The flags of a segment's entries are those of the segment, for the user. -/
theorem segmentPerm_flags (fl : ℕ) : segmentPerm fl < 1024 ∧ Has (segmentPerm fl) PTE_U ∧
    (Has (segmentPerm fl) PTE_R ↔ Has fl PF_R) ∧ (Has (segmentPerm fl) PTE_W ↔ Has fl PF_W) ∧
    (Has (segmentPerm fl) PTE_X ↔ Has fl PF_X) := by
  unfold segmentPerm
  by_cases hR : Has fl PF_R <;> by_cases hW : Has fl PF_W <;> by_cases hX : Has fl PF_X <;>
    simp only [hR, hW, hX, if_true, if_false] <;> decide

theorem SegmentOk.bounds (h : SegmentOk phdr) :
    (segmentVma phdr).vmStart = phdr.pVaddr / 4096 * 4096 ∧
    (segmentVma phdr).vmEnd = (phdr.pVaddr / 4096 * 4096 + phdr.pMemsz + 4095) / 4096 * 4096 ∧
    (segmentRange phdr).vmEnd = (phdr.pVaddr + phdr.pMemsz + 4095) / 4096 * 4096 ∧
    phdr.pVaddr + phdr.pMemsz ≤ 2 ^ 38 - 8192 := by
  have hend := h.end_le
  rw [TRAPFRAME_eq] at hend
  refine ⟨PGROUNDDOWN_eq _, ?_, PGROUNDUP_eq (by omega), hend⟩
  show PGROUNDUP (PGROUNDDOWN phdr.pVaddr + phdr.pMemsz) = _
  rw [PGROUNDDOWN_eq, PGROUNDUP_eq (by omega)]

theorem SegmentOk.valid (h : SegmentOk phdr) : Vma.Valid (segmentVma phdr) := by
  obtain ⟨h1, h2, -, h4⟩ := h.bounds
  obtain ⟨hlt, -, hR, hW, hX⟩ := segmentPerm_flags phdr.pFlags
  refine ⟨?_, ?_, ?_, ?_, ?_, hlt⟩
  · rw [h1, MAXVA_eq]; omega
  · rw [h2, MAXVA_eq]; omega
  · rw [PGALIGNED_iff, h1]; omega
  · rw [PGALIGNED_iff, h2]; omega
  · show Has (segmentPerm _) _ ∨ Has (segmentPerm _) _ ∨ Has (segmentPerm _) _
    rw [hR, hW, hX]
    exact h.perm

/-! ### The `.bss` -/

end UCore.Proc.Loader
