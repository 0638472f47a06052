import UCore.Proc.Returns

/-! # What a process sees

The tasks are what the kernel shows of a run, event by event (`tasks_shown`). So what a process sees is
fixed by what happened to it and its ancestors (`lineage_decides`): nothing that is left in a frame
comes in, and nothing that the other processes do. Below that, each frame has one use at most
(`one_owner`). The runs are those of `Step`: no page shortage, and the exit codes that `wait` stores lie
in one page; and no app of the table has a segment in the pages of the stack (`StackClear`). An exit
code that crosses a page end can undo all of it (`Trap.Stray`). -/

namespace UCore.Proc.Lineage

open UCore.Lib.Bytes UCore.Lib.Hoare UCore.Riscv UCore.Mem.State UCore.Mem.Kalloc UCore.Mem.Boot
open UCore.Vm.Spaces UCore.Vm.Tables UCore.Vm.Walk UCore.Vm.Map UCore.Vm.Refine
open UCore.Vm.VmaList UCore.Vm.Process UCore.Vm.Family
open UCore.Vm.UserCopy UCore.Vm.Flat
open UCore.Proc.State UCore.Proc.Loader UCore.Proc.LoadImage UCore.Proc.Tasks UCore.Proc.Replay
open UCore.Proc.Returns

variable {L : Layout} {ι : Type} [DecidableEq ι] {s s' : KState} {A : View ι} {i : ι}
  {userApps : List UserApp} {e : Event ι} {es : List (Event ι)} {c c' : Tasks.Machine ι}
  {ts : ι → Option Task} {held : Set ℕ}

/-! ### Runs -/

/-- Two tables that show one memory. -/
theorem Shows.same {m m' : Mem} {mm mm' : Mm} {u : UserMem} (h : Shows m mm u) (h' : Shows m' mm' u)
    {v : ℕ} (hv : v < NVPN) : (UserPte (pteAt m mm v) ↔ UserPte (pteAt m' mm' v)) ∧
      (UserPte (pteAt m mm v) →
        SameAD (PTE_FLAGS (pteAt m mm v)) (PTE_FLAGS (pteAt m' mm' v))) := by
  cases hu : u.perm v with
  | none => exact ⟨iff_of_false (h.unmapped v hv hu) (h'.unmapped v hv hu), fun hc =>
      absurd hc (h.unmapped v hv hu)⟩
  | some fl =>
    obtain ⟨h1, h2⟩ := h.mapped v hv fl hu
    obtain ⟨h3, h4⟩ := h'.mapped v hv fl hu
    exact ⟨iff_of_true h1 h3, fun _ => h2.trans h4.symm⟩

/-- A use of a frame, as the memory shows it: in the free list, in the kernel's hands since boot, as a
page-table page of a process, or as what one of its valid entries leads to. -/
def Uses (L : Layout) (c : Tasks.Machine ι) (fs : List ℕ) (held : Set ℕ) : Owner ι → ℕ → Prop
  | .free, f => f ∈ fs
  | .held, f => f ∈ held ∧ L.Frame f
  | .table i path, f => ∃ p mm, c.2 i = some p ∧ p.mm = some mm ∧ path.length ≤ 2 ∧
    tblOf c.1.mem (some (KVA_TO_PA mm.pgt)) path = some f
  | .leaf i v, f => ∃ p mm, c.2 i = some p ∧ p.mm = some mm ∧ v < NVPN ∧
    Has (pteAt c.1.mem mm v) PTE_V ∧ PTE2PA (pteAt c.1.mem mm v) = f ∧ L.Frame f

omit [DecidableEq ι] in
/-- A use in the memory is one of the view. -/
theorem Uses.owns (hA : Reps L c.1 A) (h : ∀ i, Slot L c.1 A i (c.2 i) (ts i)) {o : Owner ι} {f : ℕ}
    (ho : Uses L c A.free A.held o f) : A.Owns L o f := by
  have hruns : ∀ {i p mm}, c.2 i = some p → p.mm = some mm → UserMm L A i mm :=
    fun {i p mm} hi hm => by
      have hs := h i
      rw [hi] at hs
      obtain ⟨mm', tf, t, -, hp⟩ := hs.runs
      cases Option.some.inj (hm.symm.trans hp.hasMm)
      exact hp.holds.space.user
  cases o with
  | free => exact ho
  | held => exact ho
  | table i path =>
    obtain ⟨p, mm, hi, hm, hlen, ht⟩ := ho
    obtain ⟨r, hr, hpgt⟩ := (hruns hi hm).listed.root
    have hlt := (hA.ok.frame_tbl (by simp) hr).lt
    rw [hpgt, KVA_TO_PA_PA_TO_KVA (by omega), ← hr, ← hA.tbl i path hlen] at ht
    exact ⟨hlen, ht⟩
  | leaf i v =>
    obtain ⟨p, mm, hi, hm, hv, hV, hf, hF⟩ := ho
    rw [pteAt_user (hruns hi hm) hA hv] at hV hf
    exact ⟨hv, hV, hf, hF⟩

/-- **Each frame has one use at most**, in every run from boot without shortage, and the allocator's
history has no frame given back twice. -/
theorem one_owner {fs : List ℕ} (hfree : FreeOk L s fs) (hlog : LogOk s.log fs)
    (hheld : ∀ f ∈ fs, f ∉ held) (happs : ∀ app ∈ userApps, StackClear app.elf)
    (hrun : Run L userApps es (s, fun _ => none) c) : ∃ fs', FreeOk L c.1 fs' ∧ LogOk c.1.log fs' ∧
      (∀ o f, Uses L c fs' held o f → L.Frame f) ∧
      ∀ o o' f, Uses L c fs' held o f → Uses L c fs' held o' f → o = o' := by
  obtain ⟨A, hA, rfl, h⟩ := Run.inv hrun happs (inv_boot hfree hlog hheld)
  exact ⟨A.free, hA.freeOk, hA.logOk, fun o f ho => hA.ok.frame o f (Uses.owns hA h ho),
    fun o o' f ho ho' => hA.ok.uniq o o' f (Uses.owns hA h ho) (Uses.owns hA h ho')⟩

theorem one_owner_sample : ∃ (s s₂ : KState) (p q : Proc) (fs : List ℕ),
    kpgmgrinit sampleLayout zeroState = .ok () s ∧ FreeOk sampleLayout s₂ fs ∧
    ∀ o o' f,
      Uses sampleLayout
        (s₂, Function.update (Function.update (fun _ => none) true (some p)) false (some q)) fs ∅ o f →
      Uses sampleLayout
        (s₂, Function.update (Function.update (fun _ => none) true (some p)) false (some q)) fs ∅ o' f →
      o = o' := by
  obtain ⟨s, s₁, s₂, p, q, hboot, hfree, hlog, -, hrun⟩ := exists_loaded_two
  obtain ⟨fs, hfree', -, -, huniq⟩ := one_owner hfree hlog (fun f _ (hf : f ∈ ∅) => hf)
    sampleApps_clear hrun
  exact ⟨s, s₂, p, q, fs, hboot, hfree', huniq⟩

end UCore.Proc.Lineage
