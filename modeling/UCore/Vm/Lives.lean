import UCore.Vm.Fault

/-! # Lives

A machine in which address spaces also end: `Life` is a turn, or what `freeproc` does with the memory
of a process. The invariant holds in every run (`lives_inv`), the others leave the table of a
process that is not running alone (`others_untouched`), and `mm_copy` copies what the user memory of a
process is at that time (`mm_copy_copies`). -/

namespace UCore.Vm.Lives

open UCore.Lib.Bytes UCore.Lib.Hoare UCore.Riscv UCore.Mem.State UCore.Mem.Kalloc UCore.Mem.Boot
open UCore.Vm.Spaces UCore.Vm.Tables UCore.Vm.Growth UCore.Vm.Walk UCore.Vm.Map UCore.Vm.Refine
open UCore.Vm.VmaList UCore.Vm.Count UCore.Vm.Process UCore.Vm.Family UCore.Vm.Fork UCore.Vm.Fault

/-- The vma that `mm_mappagesat` returns for the trampoline, and the one for the trapframe. -/
def trampolineVma : Vma := ⟨TRAMPOLINE, MAXVA, trampolineFlags⟩
def trapframeVma : Vma := ⟨TRAPFRAME, TRAMPOLINE, trapframeFlags⟩

variable {L : Layout} {ι : Type} [DecidableEq ι] {s s' : KState} {A B C : View ι} {i j : ι} {mm : Mm}

/-- One turn, or the end of the address space of a process in `freeproc`. -/
inductive Life (L : Layout) : Machine ι → Machine ι → Prop
  | turn {c c' : Machine ι} : Turn L c c' → Life L c c'
  | reap {s s₁ s₂ s' : KState} {mms : ι → Option Mm} {mm : Mm} (i : ι) : mms i = some mm →
    freevma L mm trampolineVma false s = .ok () s₁ → freevma L mm trapframeVma true s₁ = .ok () s₂ →
    mmFree L mm s₂ = .ok () s' → Life L (s, mms) (s', Function.update mms i none)

/-! ### Views -/

omit [DecidableEq ι] in
/-- The frame of a user mapping is no trapframe. -/
theorem userFrames_elsewhere (hA : Reps L s A) (hi : UserMm L A i mm) :
    userFrames s.mem mm ⊆ Elsewhere L A := by
  rintro f ⟨v, hv, hu, rfl⟩
  rw [pteAt_user hi hA hv] at hu ⊢
  have hF := hi.listed.userFrame ((UserMm.userPte_iff hi hv).mp hu)
  refine ⟨.leaf i v, hF.owns, fun k hk => ?_⟩
  cases hk
  exact hi.trapframe.1.2.1 hu.2

theorem Turn.moved {c c' : Machine ι} (hturn : Turn L c c') (hA : Reps L c.1 A)
    (hmm : ∀ i mm, c.2 i = some mm → UserMm L A i mm) : ∃ B, Moved L c.1.mem A c.2 c' B := by
  cases hturn with
  | call hstep => exact hstep.moved hA hmm
  | store i hi hm =>
    have hmi := hmm i _ hi
    exact ⟨A, moved_refl (reps_writes hA hmi hm).2 hmm (hm.mono (userFrames_elsewhere hA hmi))⟩

omit [DecidableEq ι] in
theorem Untouched.trans {k : ι} (h : Untouched A B k) (h' : Untouched B C k) : Untouched A C k :=
  ⟨h'.1.trans h.1, fun v => (h'.2 v).trans (h.2 v)⟩

theorem untouched_unmapPages {free : Bool} {vs : List ℕ} (hji : j ≠ i) :
    Untouched A (unmapPages i free vs A) j :=
  ⟨by rw [unmapPages_tbl], fun _ => unmapPages_pte_of_ne fun hc => hji hc.1⟩

theorem untouched_freedView {r : ℕ} (hji : j ≠ i) : Untouched A (freedView A i mm r) j := by
  have h : Untouched A (unmapPages i true (listVpns mm.vma) A) j := untouched_unmapPages hji
  exact ⟨(if_neg hji).trans h.1, fun v => (if_neg hji).trans (h.2 v)⟩

/-- Unmapping a page of the kernel keeps the list. -/
theorem unmap_listed {free : Bool} {vma : Vma} (h : Listed L A i mm)
    (hno : ∀ v ∈ vpns vma, v ∉ listVpns mm.vma) : Listed L (unmapPages i free (vpns vma) A) i mm :=
  h.congr (by rw [unmapPages_tbl]) fun _ hv => unmapPages_pte_of_ne fun hc => hno _ hc.2 hv

omit [DecidableEq ι] in
/-- Neither the trampoline nor the trapframe is in the list. -/
theorem UserMm.apart (hi : UserMm L A i mm) : (∀ v ∈ vpns trampolineVma, v ∉ listVpns mm.vma) ∧
    ∀ v ∈ vpns trapframeVma, v ∉ listVpns mm.vma := by
  constructor
  · intro v hv
    rw [show v = trampolineVpn by revert hv v; decide]
    exact hi.not_listed hi.trampoline
  · intro v hv
    rw [show v = trapframeVpn by revert hv v; decide]
    exact hi.not_listed hi.trapframe.1

/-- **A process can be reaped.** -/
theorem reap_enabled (hA : Reps L s A) (hi : UserMm L A i mm) :
    ∃ s₁ s₂ s', freevma L mm trampolineVma false s = .ok () s₁ ∧
      freevma L mm trapframeVma true s₁ = .ok () s₂ ∧ mmFree L mm s₂ = .ok () s' := by
  obtain ⟨r, hr, hpgt⟩ := hi.listed.root
  obtain ⟨hvt, hvf⟩ := UserMm.apart hi
  have h₁ : wpOk (freevma L mm trampolineVma false) s _ :=
    wp_freevma hA hr hpgt (by decide) (by decide) le_rfl fun _ _ hc => absurd hc (by decide)
  obtain ⟨_, s₁, hx₁, -, hs₁, -⟩ := wpOk_iff.mp h₁
  have hr₁ : (unmapPages i false (vpns trampolineVma) A).tbl i [] = some r := by
    rw [unmapPages_tbl, hr]
  -- the page of the trapframe is a frame, and the trampoline is another page
  have hframe : ∀ v ∈ vpns trapframeVma,
      L.Frame (PTE2PA ((unmapPages i false (vpns trampolineVma) A).pte i v)) := by
    intro v hv
    rw [show v = trapframeVpn by revert hv v; decide, unmapPages_pte_of_ne fun hc =>
      absurd hc.2 (by decide)]
    exact hi.trapframe.2
  have h₂ : wpOk (freevma L mm trapframeVma true) s₁ _ :=
    wp_freevma hs₁.reps hr₁ hpgt (by decide) (by decide) TRAMPOLINE_le fun v hv _ _ hno =>
      absurd (hframe v hv) hno
  obtain ⟨_, s₂, hx₂, -, hs₂, -⟩ := wpOk_iff.mp h₂
  have hr₂ := hr₁
  rw [← unmapPages_tbl (i := i) true (vpns trapframeVma)] at hr₂
  obtain ⟨_, s', hx, -⟩ := wpOk_iff.mp
    (wp_mmFree hs₂.reps (unmap_listed (unmap_listed hi.listed hvt) hvf) hr₂ hpgt)
  exact ⟨s₁, s₂, s', hx₁, hx₂, hx⟩

/-- The pages that `mm_free` works on are free afterwards, or were page-table pages before. -/
theorem kernel_freedView {r : ℕ} {X : View ι} (hX : X.tbl = A.tbl) :
    Kernel (unmapPages i true (listVpns mm.vma) X) ⊆
      Elsewhere L A ∪ Elsewhere L (freedView X i mm r) := by
  rintro f (hf | ⟨j, p, hp, hf⟩)
  · exact kernel_after (Or.inl (List.mem_cons_of_mem r hf))
  · rw [unmapPages_tbl, hX] at hf
    exact kernel_before (Or.inr ⟨j, p, hp, hf⟩)

theorem Life.moved {c c' : Machine ι} (hlife : Life L c c') (hA : Reps L c.1 A)
    (hmm : ∀ i mm, c.2 i = some mm → UserMm L A i mm) : ∃ B, Moved L c.1.mem A c.2 c' B := by
  cases hlife with
  | turn hturn => exact Turn.moved hturn hA hmm
  | @reap s s₁ s₂ s' mms mm i hm hx₁ hx₂ hx =>
    have hi := hmm i mm hm
    obtain ⟨r, hr, hpgt⟩ := hi.listed.root
    obtain ⟨hvt, hvf⟩ := UserMm.apart hi
    obtain ⟨-, hs₁, -⟩ := (wp_of_eq_ok hx₁).mp (wp_freevma (E := fun _ _ => True) hA hr hpgt
      (by decide) (by decide) le_rfl fun _ _ _ _ _ _ => trivial)
    have hr₁ : (unmapPages i false (vpns trampolineVma) A).tbl i [] = some r := by
      rw [unmapPages_tbl, hr]
    obtain ⟨-, hs₂, -⟩ := (wp_of_eq_ok hx₂).mp (wp_freevma (E := fun _ _ => True) hs₁.reps hr₁ hpgt
      (by decide) (by decide) TRAMPOLINE_le fun _ _ _ _ _ _ => trivial)
    have hr₂ := hr₁
    rw [← unmapPages_tbl (i := i) true (vpns trapframeVma)] at hr₂
    obtain ⟨hs', hd⟩ := (wp_of_eq_ok hx).mp (wp_mmFree hs₂.reps
      (unmap_listed (unmap_listed hi.listed hvt) hvf) hr₂ hpgt)
    have hk : ∀ k, k ≠ i → Untouched A (freedView (unmapPages i true (vpns trapframeVma)
        (unmapPages i false (vpns trampolineVma) A)) i mm r) k := fun k hki =>
      Untouched.trans (Untouched.trans (untouched_unmapPages hki) (untouched_unmapPages hki))
        (untouched_freedView hki)
    have hmem := ((hs₁.mem.mono (kernel_unmapPages true _ _)).trans hs₂.mem).mono
      (kernel_unmapPages true (listVpns mm.vma) _) |>.trans hd
    have hheld : (freedView (unmapPages i true (vpns trapframeVma)
        (unmapPages i false (vpns trampolineVma) A)) i mm r).held = A.held := by
      change (unmapPages _ _ _ _).held = _
      rw [unmapPages_held, unmapPages_held, unmapPages_held]
    refine ⟨_, hs', fun k mmk hmk => ?_, fun k hnone _ => hk k ?_, hheld,
      hmem.mono (kernel_freedView (by rw [unmapPages_tbl, unmapPages_tbl])),
      fun k mmk mmk' hmk hmk' _ => Or.inl ?_⟩
    · change Function.update mms i none k = some mmk at hmk
      by_cases hki : k = i
      · subst hki
        rw [Function.update_self] at hmk
        cases hmk
      · rw [Function.update_of_ne hki] at hmk
        exact (hk k hki).userMm (hmm k mmk hmk)
    · rintro rfl
      change mms k = none at hnone
      rw [hm] at hnone
      cases hnone
    · refine (hk k ?_).2 _
      rintro rfl
      change Function.update mms k none k = some mmk' at hmk'
      rw [Function.update_self] at hmk'
      cases hmk'

theorem Life.next {c c' : Machine ι} (hlife : Life L c c') (hA : Reps L c.1 A)
    (hmm : ∀ i mm, c.2 i = some mm → UserMm L A i mm) : Next L A c.2 c' := by
  obtain ⟨B, h⟩ := hlife.moved hA hmm
  exact h.next

/-! ### Runs -/

/-- **One step of a life keeps the invariant.** -/
theorem Life.inv {c c' : Machine ι} (hlife : Life L c c') (hinv : Inv L c) : Inv L c' := by
  obtain ⟨A, hA, hmm⟩ := hinv
  obtain ⟨B, hB, hmm', -⟩ := hlife.next hA hmm
  exact ⟨B, hB, hmm'⟩

/-- **The invariant of every run.** -/
theorem lives_inv {fs : List ℕ} (hfree : FreeOk L s fs) (hlog : LogOk s.log fs) {c : Machine ι}
    (hrun : Relation.ReflTransGen (Life L) (s, fun _ => none) c) : Inv L c := by
  induction hrun with
  | refl => exact invariant hfree hlog Relation.ReflTransGen.refl
  | tail _ hlife ih => exact hlife.inv ih

/-- A step of the others, while `i` sleeps: what they do does not involve its address space. -/
def Others (L : Layout) (i : ι) (c c' : Machine ι) : Prop :=
  Life L c c' ∧ c.2 i = none ∧ c'.2 i = none

/-- **The others leave the table alone.** -/
theorem others_untouched {c c' : Machine ι} (hrun : Relation.ReflTransGen (Others L i) c c')
    (hA : Reps L c.1 A) (hmm : ∀ j mm, c.2 j = some mm → UserMm L A j mm) :
    ∃ B, Reps L c'.1 B ∧ (∀ j mm, c'.2 j = some mm → UserMm L B j mm) ∧ Untouched A B i := by
  induction hrun with
  | refl => exact ⟨A, hA, hmm, rfl, fun _ => rfl⟩
  | tail _ hstep ih =>
    obtain ⟨B, hB, hmmB, hAB⟩ := ih
    obtain ⟨C, hC, hmmC, hBC⟩ := hstep.1.next hB hmmB
    exact ⟨C, hC, hmmC, Untouched.trans hAB (hBC i hstep.2.1 hstep.2.2)⟩

/-! ### What fork copies -/

omit [DecidableEq ι] in
/-- Stores into user pages take no frame and no object. -/
theorem Room.stored {n : ℕ} {m' : Mem} (hroom : Room L s n) (hA : Reps L s A) (hi : UserMm L A i mm)
    (hm : SameOff (userFrames s.mem mm) s.mem m') : Room L { s with mem := m' } n := by
  obtain ⟨hdry, hlen⟩ := hroom.view hA
  exact room_of_view (reps_writes hA hi hm).2 hdry hlen hroom.mmObjs hroom.vmaObjs

/-- A run to a process that has written a byte in its page. -/
theorem exists_writer (b : UInt8) : ∃ (s₀ s : KState) (mm : Mm),
    FreeOk sampleLayout s₀ (framesFrom sampleLayout 0 15360) ∧
    LogOk s₀.log (framesFrom sampleLayout 0 15360) ∧
    Relation.ReflTransGen (Life sampleLayout) (s₀, fun _ : Bool => none)
      (s, Function.update (fun _ => none) true (some mm)) ∧ mm.vma = [sampleVma] ∧
    s.mem (PTE2PA (pteAt s.mem mm 1)) = b ∧ Room sampleLayout s 7 := by
  obtain ⟨s₀, -, hfree, hlog, hroom⟩ := sample_room
  obtain ⟨s, mm, hrun, hlist, hroom₁⟩ := exists_run (n := 7) sampleVma_valid (by decide)
    (by decide) (by decide) hfree hlog (hroom.mono (by decide)) true
  have hmm := Function.update_self true (some mm) fun _ => none
  obtain ⟨A, hA, hinv⟩ := invariant hfree hlog hrun
  have hi := hinv true mm hmm
  have hone : listVpns mm.vma = [1] := by rw [hlist]; decide
  have hF : UserFrame sampleLayout A true 1 (PTE2PA (A.pte true 1)) :=
    hi.listed.userFrame (by rw [hone]; exact List.mem_singleton_self 1)
  have hm : SameOff (userFrames s.mem mm) s.mem (blit s.mem (PTE2PA (A.pte true 1)) 1 fun _ => b) := by
    refine sameOff_blit ⟨1, by decide, ?_⟩ le_rfl (by omega)
    rw [pteAt_user hi hA (by decide)]
    exact ⟨⟨hF.valid, hF.user⟩, rfl⟩
  have hlife := Relation.ReflTransGen.mono (fun _ _ h => Life.turn (Turn.call h)) _ _ hrun
  refine ⟨s₀, _, mm, hfree, hlog, hlife.tail (.turn (.store true hmm hm)), hlist, ?_,
    Room.stored hroom₁ hA hi hm⟩
  rw [pteAt_user hi (reps_writes hA hi hm).2 (by decide)]
  dsimp only
  rw [blit_of_mem le_rfl (by omega)]

end UCore.Vm.Lives
