import UCore.Vm.Family

/-! # What fork copies

`mm_copy` from the address space of a process to one that `allocproc` just made. `IsCopy` says what
the child has afterwards: the user mappings of the parent with the same permissions and the same
bytes, in frames of its own, so that no later write of one process reaches the other. -/

namespace UCore.Vm.Fork

open UCore.Lib.Bytes UCore.Lib.Hoare UCore.Riscv UCore.Mem.State UCore.Mem.Kalloc UCore.Mem.Boot
open UCore.Vm.Spaces UCore.Vm.Tables UCore.Vm.Growth UCore.Vm.Walk UCore.Vm.Map UCore.Vm.Refine
open UCore.Vm.VmaList UCore.Vm.Count UCore.Vm.Copy UCore.Vm.Process UCore.Vm.Family

variable {ι : Type} {L : Layout} {s s' : KState} {A B : View ι} {i j : ι}
  {mm parent child child' : Mm}

/-- Stores into the user pages of an address space change no table. -/
theorem reps_writes (h : Reps L s A) (hj : UserMm L A j mm) {m' : Mem}
    (hm : SameOff (userFrames s.mem mm) s.mem m') :
    (∀ f ∈ userFrames s.mem mm, ∃ v, UserFrame L A j v f) ∧ Reps L { s with mem := m' } A := by
  have hframes : ∀ f ∈ userFrames s.mem mm, ∃ v, UserFrame L A j v f := by
    rintro f ⟨v, hv, hu, hf⟩
    rw [pteAt_user hj h hv] at hu hf
    have := hj.listed.userFrame ((UserMm.userPte_iff hj hv).mp hu)
    exact ⟨v, by rwa [hf] at this⟩
  refine ⟨hframes, h.sameOff (fun f hf => ?_) (fun f hf hfD => ?_) hm rfl rfl⟩
  · obtain ⟨v, hu⟩ := hframes f hf
    exact hu.frame.aligned
  · obtain ⟨v, hu⟩ := hframes f hfD
    exact hu.not_kernel h.ok hf

variable [DecidableEq ι]

end UCore.Vm.Fork
