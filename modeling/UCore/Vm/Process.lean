import UCore.Vm.Copy

/-! # The address space of a process

`allocMm` is the part of `allocproc` that makes the address space of a new process: the table, the
trampoline and the trapframe. `UserMm` is the invariant of such an address space over its life: the
vma list describes exactly the user mappings, up to the accessed and dirty bits, and the two pages of
the kernel are mapped, but not for the user. `pageFault` is the handler's update of an entry. -/

namespace UCore.Vm.Process

open UCore.Lib.Bytes UCore.Lib.Hoare UCore.Riscv UCore.Mem.State UCore.Mem.Kalloc
open UCore.Vm.Spaces UCore.Vm.Tables UCore.Vm.Growth UCore.Vm.Walk UCore.Vm.Map UCore.Vm.Refine
open UCore.Vm.VmaList UCore.Vm.Count UCore.Vm.History UCore.Vm.Copy

variable (L : Layout)

/-! ### The code -/

/-- The flags of the trampoline's mapping. -/
def trampolineFlags : ℕ := PTE_A ||| PTE_R ||| PTE_X

/-- The flags of the trapframe's mapping. -/
def trapframeFlags : ℕ := PTE_A ||| PTE_D ||| PTE_R ||| PTE_W ||| PTE_X

/-- What `allocproc` gets from `vm.c`: `p->mm`, `p->vma_trampoline`, `p->vma_trapframe`, and the
page `tf`. -/
structure NewMm where
  mm : Mm
  vmaTrampoline : Option Vma
  vmaTrapframe : Option Vma
  tf : ℕ

/-- The part of `allocproc` from `mm_create` to the mapping of the trapframe. -/
def allocMm : KM NewMm := do
  match ← mmCreate L with
  | none => throw .mm
  | some mm =>
    let (vmaTrampoline, mm) ← mmMappagesat L mm TRAMPOLINE L.trampoline trampolineFlags false
    let tf ← kallocpage L
    if tf = 0 then
      throw .tf
    else
      let (vmaTrapframe, mm) ← mmMappagesat L mm TRAPFRAME tf trapframeFlags false
      return { mm, vmaTrampoline, vmaTrapframe, tf }

/-- The case of `usertrap` for page faults: whether the entry of `addr` was there and valid; if so
its accessed bit is set, and its dirty bit on a store. -/
def pageFault (mm : Mm) (addr : ℕ) (store : Bool) : KM Bool := do
  match ← walk L mm addr false with
  | none => return false
  | some ptep =>
    let pte ← kread64 L ptep
    if Has pte PTE_V then
      kwrite64 L ptep (pte ||| PTE_A)
      if store then
        let pte ← kread64 L ptep
        kwrite64 L ptep (pte ||| PTE_D)
      return true
    else
      return false

variable {L} {ι : Type} {s s' : KState} {A B : View ι} {i j : ι} {mm : Mm}

/-! ### The invariant -/

/-- The page number of the trampoline. -/
def trampolineVpn : ℕ := 2 ^ 26 - 1

/-- The page number of the trapframe. -/
def trapframeVpn : ℕ := 2 ^ 26 - 2

theorem TRAMPOLINE_le : TRAMPOLINE ≤ MAXVA := by rw [TRAMPOLINE_eq, MAXVA_eq]; omega
theorem TRAPFRAME_le : TRAPFRAME ≤ MAXVA := by rw [TRAPFRAME_eq, MAXVA_eq]; omega

/-- The entry is one of the kernel's in a user table: a valid leaf, but not for the user. -/
def KernelPte (e : ℕ) : Prop := Has e PTE_V ∧ ¬ Has e PTE_U ∧ Has e PTE_R

theorem SameAD.kernelPte {e e' : ℕ} (h : SameAD e e') : KernelPte e ↔ KernelPte e' := by
  unfold KernelPte; rw [h.has_V, h.has_U, h.has_R]

/-- The entry is one of the kernel's and leads to a frame. -/
def TrapframePte (L : Layout) (e : ℕ) : Prop := KernelPte e ∧ L.Frame (PTE2PA e)

theorem SameAD.trapframePte {e e' : ℕ} (h : SameAD e e') :
    TrapframePte L e ↔ TrapframePte L e' := by
  unfold TrapframePte; rw [SameAD.kernelPte h, h.target]

/-- The address space of a process. -/
structure UserMm (L : Layout) (A : View ι) (i : ι) (mm : Mm) : Prop where
  listed : Listed L A i mm
  only : ∀ v < NVPN, Has (A.pte i v) PTE_V →
    v ∈ listVpns mm.vma ∨ v = trampolineVpn ∨ v = trapframeVpn
  trampoline : KernelPte (A.pte i trampolineVpn)
  trapframe : TrapframePte L (A.pte i trapframeVpn)

/-- The user mappings are those of the list. -/
theorem UserMm.covered (h : UserMm L A i mm) {v : ℕ} (hv : v < NVPN) (hV : Has (A.pte i v) PTE_V)
    (hU : Has (A.pte i v) PTE_U) : v ∈ listVpns mm.vma := by
  rcases h.only v hv hV with hm | rfl | rfl
  · exact hm
  · exact absurd hU h.trampoline.2.1
  · exact absurd hU h.trapframe.1.2.1

/-- The address space of a process that `allocproc` just made. -/
structure FreshMm (L : Layout) (A : View ι) (i : ι) (mm : Mm) : Prop where
  root : ∃ r, A.tbl i [] = some r ∧ mm.pgt = PA_TO_KVA r
  list : mm.vma = []
  unmapped : ∀ v, v ≠ trampolineVpn → v ≠ trapframeVpn → A.pte i v = 0
  trampoline : A.pte i trampolineVpn = mkPte L.trampoline trampolineFlags
  trapframe : ∃ f, L.Frame f ∧ A.pte i trapframeVpn = mkPte f trapframeFlags

theorem kernelPte_mkPte {pa fl : ℕ} (hpa : pa < 2 ^ 64) (hU : ¬ Has fl PTE_U) (hR : Has fl PTE_R) :
    KernelPte (mkPte pa fl) :=
  ⟨has_mkPte_V pa fl, by rw [has_mkPte_U hpa]; exact hU, by rw [has_mkPte_R hpa]; exact hR⟩

theorem trapframePte_mkPte {f : ℕ} (hf : L.Frame f) :
    TrapframePte L (mkPte f trapframeFlags) := by
  have hlt := hf.lt
  refine ⟨kernelPte_mkPte (by omega) (by decide) (by decide), ?_⟩
  rw [PTE2PA_mkPte (by omega) (by decide), hf.div_mul]
  exact hf

theorem FreshMm.kernel (h : FreshMm L A i mm) :
    KernelPte (A.pte i trampolineVpn) ∧ TrapframePte L (A.pte i trapframeVpn) := by
  obtain ⟨f, hf, htf⟩ := h.trapframe
  rw [h.trampoline, htf]
  exact ⟨kernelPte_mkPte Layout.trampoline_lt_pow (by decide) (by decide), trapframePte_mkPte hf⟩

theorem FreshMm.userMm (h : FreshMm L A i mm) : UserMm L A i mm := by
  obtain ⟨r, hr, hpgt⟩ := h.root
  refine ⟨Listed.nil hr hpgt h.list, fun v _ hV => ?_, h.kernel.1, h.kernel.2⟩
  by_contra hc
  rw [not_or, not_or] at hc
  rw [h.unmapped v hc.2.1 hc.2.2] at hV
  exact not_has_zero _ hV

/-- What other address spaces do does not matter. -/
theorem UserMm.congr (h : UserMm L A i mm) (hroot : B.tbl i [] = A.tbl i [])
    (hpte : ∀ v, B.pte i v = A.pte i v) : UserMm L B i mm :=
  ⟨h.listed.congr hroot fun v _ => hpte v, fun v hv hV => h.only v hv (by rwa [hpte v] at hV),
    by rw [hpte]; exact h.trampoline, by rw [hpte]; exact h.trapframe⟩

theorem UserMm.other (h : UserMm L A i mm) (hij : i ≠ j) (hG : Grew A B j) : UserMm L B i mm :=
  h.congr (hG.root i) fun v => hG.other i v hij

/-- The two pages of the kernel are not in the list. -/
theorem UserMm.not_listed (h : UserMm L A i mm) {v : ℕ} (hk : KernelPte (A.pte i v)) :
    v ∉ listVpns mm.vma := fun hv => hk.2.1 (h.listed.valid_leaf hv).2.2.1

/-- The pages of a list are not mapped in a new address space. -/
theorem FreshMm.not_valid {child : Mm} (hc : FreshMm L A j child) (hp : UserMm L A i mm) {v : ℕ}
    (hv : v ∈ listVpns mm.vma) : ¬ Has (A.pte j v) PTE_V := fun hV => by
  by_cases h1 : v = trampolineVpn
  · exact hp.not_listed hp.trampoline (h1 ▸ hv)
  by_cases h2 : v = trapframeVpn
  · exact hp.not_listed hp.trapframe.1 (h2 ▸ hv)
  rw [hc.unmapped v h1 h2] at hV
  exact not_has_zero _ hV

/-! ### What keeps an address space -/

/-- Accessed and dirty bits do not matter. -/
theorem UserMm.sameAD (h : UserMm L A i mm) (hroot : B.tbl i [] = A.tbl i [])
    (hpte : ∀ v, SameAD (B.pte i v) (A.pte i v)) : UserMm L B i mm := by
  obtain ⟨r, hr, hpgt⟩ := h.listed.root
  refine ⟨⟨⟨r, by rw [hroot, hr], hpgt⟩, h.listed.valid, h.listed.disjoint, ?_⟩, ?_, ?_, ?_⟩
  · intro vma hvma v hv
    obtain ⟨f, hf, hm⟩ := h.listed.leaf vma hvma v hv
    exact ⟨f, hf, (hpte v).trans hm⟩
  · intro v hv hV
    exact h.only v hv ((hpte v).has_V.mp hV)
  · exact (SameAD.kernelPte (hpte _)).mpr h.trampoline
  · exact (SameAD.trapframePte (hpte _)).mpr h.trapframe

/-- The child of `mm_copy`. -/
theorem UserMm.copied {vmas : List Vma} (h : UserMm L A j mm) (hc : Copied L s s' A B i j vmas)
    (hl : Listed L B j (copiedList vmas mm)) : UserMm L B j (copiedList vmas mm) := by
  refine ⟨hl, fun v hv hV => ?_, ?_, ?_⟩
  · rw [mem_listVpns]
    by_cases hmem : v ∈ listVpns vmas
    · obtain ⟨vma, hvma, hv⟩ := mem_listVpns.mp hmem
      exact Or.inl ⟨vma, by simp [copiedList, hvma], hv⟩
    · rw [hc.other hmem] at hV
      refine (h.only v hv hV).imp_left fun hm => ?_
      obtain ⟨vma, hvma, hv⟩ := mem_listVpns.mp hm
      exact ⟨vma, by simp [copiedList, hvma], hv⟩
  · rw [hc.grew.valid _ h.trampoline.1]; exact h.trampoline
  · rw [hc.grew.valid _ h.trapframe.1.1]; exact h.trapframe

variable [DecidableEq ι]

/-- A vma joins the list. -/
theorem UserMm.mapped (h : UserMm L A i mm) (hok : A.Ok L) {vma : Vma} (hvma : Vma.Valid vma)
    (hU : Has vma.pteFlags PTE_U) (hsup : Supplied A i vma.pteFlags (vpns vma)) :
    UserMm L (mapPages i vma.pteFlags (vpns vma) A).1 i { mm with vma := vma :: mm.vma } := by
  have hG := mapPages_grew (i := i) vma.pteFlags (vpns vma) A
  refine ⟨h.listed.cons hok hvma hU hsup, fun v hv hV => ?_, ?_, ?_⟩
  · rw [listVpns_cons, List.mem_append]
    by_cases hmem : v ∈ vpns vma
    · exact Or.inl (Or.inl hmem)
    · rw [mapPages_pte_of_not_mem hmem] at hV
      exact (h.only v hv hV).imp_left Or.inr
  · rw [hG.valid _ h.trampoline.1]; exact h.trampoline
  · rw [hG.valid _ h.trapframe.1.1]; exact h.trapframe

/-- The list is given back. -/
theorem UserMm.freed (h : UserMm L A i mm) (hA : Reps L s A) :
    UserMm L (unmapPages i true (listVpns mm.vma) A) i { mm with vma := [] } := by
  obtain ⟨r, hr, hpgt⟩ := h.listed.root
  have hpte := h.listed.freed_pte hA i
  refine ⟨Listed.nil (by rw [unmapPages_tbl, hr]) hpgt rfl, fun v hv hV => ?_, ?_, ?_⟩
  · rw [hpte] at hV
    split_ifs at hV with hc
    · exact absurd hV (not_has_zero _)
    · exact (h.only v hv hV).imp_left fun hm => absurd ⟨rfl, hm⟩ hc
  · rw [hpte, if_neg fun hc => h.not_listed h.trampoline hc.2]; exact h.trampoline
  · rw [hpte, if_neg fun hc => h.not_listed h.trapframe.1 hc.2]; exact h.trapframe

/-! ### A new address space -/

theorem newRoot_pte (f v : ℕ) : (A.newRoot i f).pte i v = 0 := if_pos rfl

theorem newRoot_pte_of_ne {f : ℕ} (h : j ≠ i) (v : ℕ) : (A.newRoot i f).pte j v = A.pte j v :=
  if_neg h

theorem newRoot_tbl (f : ℕ) (p : List Idx) :
    (A.newRoot i f).tbl i p = if p = [] then some f else none := if_pos rfl

theorem newRoot_tbl_of_ne {f : ℕ} (h : j ≠ i) (p : List Idx) :
    (A.newRoot i f).tbl j p = A.tbl j p := if_neg h

theorem kernel_newRoot {f : ℕ} (hf : f ∈ A.free) : Kernel (A.take.newRoot i f) ⊆ Kernel A := by
  rintro g (hg | ⟨j, p, hp, hg⟩)
  · exact Or.inl (List.mem_of_mem_tail hg)
  · by_cases hji : j = i
    · subst hji
      rw [newRoot_tbl] at hg
      split_ifs at hg with hp'
      cases hg
      exact Or.inl hf
    · rw [newRoot_tbl_of_ne hji] at hg
      exact Or.inr ⟨j, p, hp, hg⟩

/-- What `kallocpage` does to the view, and what it returns. -/
def grab (A : View ι) : View ι × ℕ :=
  match A.free with
  | [] => (A.starve, 2 ^ 38)
  | f :: _ => (A.take, f)

omit [DecidableEq ι] in
theorem wp_grab (h : Reps L s A) {Q : ℕ → KState → Prop} {E : Panic → KState → Prop}
    (hQ : ∀ s', Reps L s' (grab A).1 → SameOff (Kernel A) s.mem s'.mem → s'.mmObjs = s.mmObjs →
      s'.vmaObjs = s.vmaObjs → Q (grab A).2 s') : wp (kallocpage L) s Q E := by
  have hfo := h.freeOk
  unfold grab at hQ
  cases hfree : A.free with
  | nil =>
    rw [hfree] at hfo hQ
    exact wp_kallocpage_nil hfo (hQ _ h.noPage (SameOff.refl _ _) rfl rfl)
  | cons f fs =>
    rw [hfree] at hfo hQ
    exact wp_kallocpage_cons hfo
      (hQ _ (h.take hfree) (sameOff_takePage (Or.inl (by rw [hfree]; simp))) rfl rfl)

omit [DecidableEq ι] in
theorem grab_unowned (h : A.Ok L) (hF : L.Frame (grab A).2) :
    ∀ o, ¬ (grab A).1.Owns L o (grab A).2 := by
  unfold grab at hF ⊢
  cases hfree : A.free with
  | nil =>
    rw [hfree] at hF
    have := hF.lt
    norm_num at this
  | cons f fs => exact h.unowned_take hfree

omit [DecidableEq ι] in
theorem grab_lt (h : A.Ok L) : (grab A).2 < 2 ^ 64 ∧ PGALIGNED (grab A).2 ∧ (grab A).2 ≠ 0 := by
  unfold grab
  cases hfree : A.free with
  | nil =>
    refine ⟨by norm_num, ?_, by norm_num⟩
    show (2 ^ 38 : ℕ) % PGSIZE = 0
    decide
  | cons f fs =>
    have hF : L.Frame f := h.frame_free (by rw [hfree]; simp)
    show f < 2 ^ 64 ∧ PGALIGNED f ∧ f ≠ 0
    exact ⟨by have := hF.lt; omega, hF.aligned, by have := hF.pos; omega⟩

omit [DecidableEq ι] in
theorem grab_grew (A : View ι) (i : ι) : Grew A (grab A).1 i := by
  unfold grab
  cases A.free with
  | nil => exact Grew.starve A i
  | cons f fs => exact Grew.take A i

omit [DecidableEq ι] in
theorem grab_pte (A : View ι) : (grab A).1.pte = A.pte := by
  unfold grab; cases A.free <;> rfl

/-- The view after the trampoline is mapped in the new address space with the root `f`. -/
def trampolineView (L : Layout) (A : View ι) (i : ι) (f : ℕ) : View ι × Bool :=
  mapAt (A.take.newRoot i f) i trampolineVpn (mkPte L.trampoline trampolineFlags)

/-- The view after the trapframe is mapped, too. -/
def trapframeView (L : Layout) (A : View ι) (i : ι) (f : ℕ) : View ι × Bool :=
  mapAt (grab (trampolineView L A i f).1).1 i trapframeVpn
    (mkPte (grab (trampolineView L A i f).1).2 trapframeFlags)

/-- What `allocMm` returns. -/
def newMm (L : Layout) (A : View ι) (i : ι) (f : ℕ) : NewMm where
  mm := ⟨PA_TO_KVA f, [], 1⟩
  vmaTrampoline :=
    if (trampolineView L A i f).2 then some ⟨TRAMPOLINE, MAXVA, trampolineFlags⟩ else none
  vmaTrapframe :=
    if (trapframeView L A i f).2 then some ⟨TRAPFRAME, TRAMPOLINE, trapframeFlags⟩ else none
  tf := (grab (trampolineView L A i f).1).2

theorem trampolineView_grew (f : ℕ) : Grew (A.newRoot i f) (trampolineView L A i f).1 i := by
  have h : Grew (A.newRoot i f) (A.take.newRoot i f) i :=
    { Grew.refl (A.newRoot i f) i with free := List.tail_suffix _ }
  exact h.trans (mapAt_grew _ _ _ _)

theorem trapframeView_grew (f : ℕ) : Grew (A.newRoot i f) (trapframeView L A i f).1 i :=
  (trampolineView_grew f).trans ((grab_grew _ i).trans (mapAt_grew _ _ _ _))

theorem trampolineVpn_ne : trapframeVpn ≠ trampolineVpn := by decide

/-- **The part of `allocproc` that makes the address space.** -/
theorem wp_allocMm (h : Reps L s A) (i : ι) {Q : NewMm → KState → Prop}
    {E : Panic → KState → Prop}
    (hobj : ¬ s.mmObjs < objectCount → E .unavailable s)
    (hobj₁ : ¬ s.vmaObjs < objectCount → ∀ f fs, A.free = f :: fs →
      ∀ s', Reps L s' (A.take.newRoot i f) → E .unavailable s')
    (hobj₂ : ¬ s.vmaObjs + 1 < objectCount → ∀ f fs, A.free = f :: fs →
      ∀ s', Reps L s' (grab (trampolineView L A i f).1).1 → E .unavailable s')
    (hmm : A.free = [] → ∀ s', Reps L s' A.starve → E .mm s')
    (hQ : ∀ f fs, A.free = f :: fs → s.mmObjs < objectCount → s.vmaObjs + 1 < objectCount →
      ∀ s', Reps L s' (trapframeView L A i f).1 → SameOff (Kernel A) s.mem s'.mem →
        s'.mmObjs = s.mmObjs + 1 → s'.vmaObjs = s.vmaObjs + 2 →
        Q (newMm L A i f) s') : wp (allocMm L) s Q E := by
  unfold allocMm
  by_cases hm : s.mmObjs < objectCount
  swap
  · exact wp_bind.mpr (wp_mmCreate_full hm (hobj hm))
  refine wp_bind.mpr (wp_mmCreate (i := i) h (fun hn => absurd hm hn)
    (fun hfree s' hs' _ _ => ?_) ?_)
  · exact wp_throw.mpr (hmm hfree s' hs')
  intro f fs hfree s₁ hs₁ hd₁ hm₁ ho₁
  have hf : f ∈ A.free := by rw [hfree]; simp
  have hk₁ : Kernel (A.take.newRoot i f) ⊆ Kernel A := kernel_newRoot hf
  have hr₁ : (A.take.newRoot i f).tbl i [] = some f := by rw [newRoot_tbl, if_pos rfl]
  have hpgt : (⟨PA_TO_KVA f, [], 1⟩ : Mm).pgt = PA_TO_KVA f := rfl
  refine wp_bind.mpr (wp_mmMappagesat (i := i) hs₁ hr₁ hpgt
    false TRAMPOLINE_le Layout.trampoline_lt_pow
    L.trampoline_aligned (by decide) (fun hF => absurd hF Layout.not_frame_trampoline)
    (by rw [newRoot_pte]; exact not_has_zero _)
    (fun hn => hobj₁ (by rwa [ho₁] at hn) f fs hfree _ hs₁) ?_)
  intro s₂ hs₂ hd₂ hm₂ ho₂
  change Reps L s₂ (trampolineView L A i f).1 at hs₂
  have hr₂ : (trampolineView L A i f).1.tbl i [] = some f :=
    ((trampolineView_grew f).root i).trans (by rw [newRoot_tbl, if_pos rfl])
  have hk₂ : Kernel (trampolineView L A i f).1 ⊆ Kernel A :=
    (mapAt_grew _ _ _ _).kernel.trans hk₁
  refine wp_bind.mpr (wp_grab hs₂ fun s₃ hs₃ hd₃ hm₃ ho₃ => ?_)
  have hk₃ : Kernel (grab (trampolineView L A i f).1).1 ⊆ Kernel A :=
    (grab_grew _ i).kernel.trans hk₂
  obtain ⟨hlt, hal, hne⟩ := grab_lt hs₂.ok
  rw [if_neg hne]
  have hr₃ : (grab (trampolineView L A i f).1).1.tbl i [] = some f :=
    ((grab_grew _ i).root i).trans hr₂
  have hV : ¬ Has ((grab (trampolineView L A i f).1).1.pte i trapframeVpn) PTE_V := by
    rw [grab_pte, trampolineView, mapAt_pte_of_ne trampolineVpn_ne, newRoot_pte]
    exact not_has_zero _
  have hvma : s₃.vmaObjs = s.vmaObjs + 1 := by rw [ho₃, ho₂, ho₁]
  by_cases hv : s.vmaObjs + 1 < objectCount
  · refine wp_bind.mpr (wp_mmMappagesat (i := i) hs₃ hr₃ hpgt
      false TRAPFRAME_le hlt hal (by decide)
      (grab_unowned hs₂.ok) hV (fun hn => absurd (by rw [hvma]; exact hv) hn) ?_)
    intro s₄ hs₄ hd₄ hm₄ ho₄
    have hd : SameOff (Kernel A) s.mem s₄.mem :=
      (((hd₁.mono fun g hg => Or.inl (hg ▸ hf)).trans (hd₂.mono hk₁)).trans
        (hd₃.mono hk₂)).trans (hd₄.mono hk₃)
    exact hQ f fs hfree hm hv s₄ hs₄ hd (by rw [hm₄, hm₃, hm₂, hm₁]) (by rw [ho₄, hvma])
  · refine wp_bind.mpr (wp_mmMappagesat_full (by rw [hvma]; exact hv) ?_)
    exact hobj₂ hv f fs hfree s₃ hs₃

/-- **Without shortage** the address space is as it should be. -/
theorem wet_allocMm (h : Reps L s A) (i : ι) : wet (allocMm L) s fun o s' => ∃ B f,
    f ∈ A.free ∧ Reps L s' B ∧ Grew (A.newRoot i f) B i ∧ FreshMm L B i o.mm ∧
      o.vmaTrampoline = some ⟨TRAMPOLINE, MAXVA, trampolineFlags⟩ ∧
      o.vmaTrapframe = some ⟨TRAPFRAME, TRAMPOLINE, trapframeFlags⟩ ∧
      L.Frame o.tf ∧ B.pte i trapframeVpn = mkPte o.tf trapframeFlags ∧
      SameOff (Kernel A) s.mem s'.mem := by
  refine wp_allocMm h i (fun _ => trivial) (fun _ _ _ _ _ _ => trivial) (fun _ _ _ _ _ _ => trivial)
    (fun _ _ _ => trivial) fun f fs hfree _ _ s' hs' hmem _ _ hd => ?_
  have hdry : ¬ (trapframeView L A i f).1.dry := fun hc => hd (hs'.dry.mp hc)
  have hG₃ : Grew (grab (trampolineView L A i f).1).1 (trapframeView L A i f).1 i :=
    mapAt_grew _ _ _ _
  have hdry₂ : ¬ (grab (trampolineView L A i f).1).1.dry := fun hc => hdry (hG₃.dry hc)
  have hdry₁ : ¬ (trampolineView L A i f).1.dry := fun hc => hdry₂ ((grab_grew _ i).dry hc)
  have htramp : (trampolineView L A i f).2 = true := by
    by_contra hn
    rw [Bool.not_eq_true] at hn
    have := mapAt_false hn hdry₁
    rw [newRoot_pte] at this
    exact not_has_zero _ this
  obtain ⟨-, hpte₁⟩ := mapAt_true htramp
  have htf : (trapframeView L A i f).2 = true := by
    by_contra hn
    rw [Bool.not_eq_true] at hn
    have := mapAt_false hn hdry
    rw [grab_pte, trampolineView, mapAt_pte_of_ne trampolineVpn_ne, newRoot_pte] at this
    exact not_has_zero _ this
  obtain ⟨-, hpte₂⟩ := mapAt_true htf
  have hF : L.Frame (grab (trampolineView L A i f).1).2 := by
    have hsuf := (trampolineView_grew (L := L) (A := A) (i := i) f).free
    unfold grab at hdry₂ ⊢
    cases hfr : (trampolineView L A i f).1.free with
    | nil => rw [hfr] at hdry₂; exact absurd trivial hdry₂
    | cons g gs =>
      refine h.ok.frame_free (hsuf.subset ?_)
      rw [hfr]; simp
  have hG := trapframeView_grew (L := L) (A := A) (i := i) f
  have hroot : (trapframeView L A i f).1.tbl i [] = some f :=
    (hG.root i).trans (by rw [newRoot_tbl, if_pos rfl])
  refine ⟨_, f, by rw [hfree]; simp, hs', hG, ⟨⟨f, hroot, rfl⟩, rfl, ?_, ?_, ?_⟩, ?_, ?_, hF, hpte₂,
    hmem⟩
  · intro v h1 h2
    rw [trapframeView, mapAt_pte_of_ne h2, grab_pte, trampolineView, mapAt_pte_of_ne h1,
      newRoot_pte]
  · rw [trapframeView, mapAt_pte_of_ne trampolineVpn_ne.symm, grab_pte]
    exact hpte₁
  · exact ⟨_, hF, hpte₂⟩
  · exact if_pos htramp
  · exact if_pos htf

/-! ### The frames of a new address space -/

theorem tables_trapframe : tables [trapframeVpn] = tables [trampolineVpn] := by
  have h : path trapframeVpn = path trampolineVpn := by decide
  have h2 : px 2 trapframeVpn = px 2 trampolineVpn := by decide
  ext p
  simp [mem_tables, h, h2]

theorem missing_newRoot (f : ℕ) : missing ((A.take.newRoot i f).tbl i) [trampolineVpn] = 2 := by
  simp [missing_single, newRoot_tbl, path_ne_nil]

theorem mapAt_free {v e : ℕ} (hw : (Growth.walk A i v).2 = true) :
    (mapAt A i v e).1.free = (Growth.walk A i v).1.free ∧
      (mapAt A i v e).1.tbl = (Growth.walk A i v).1.tbl ∧ (mapAt A i v e).1.dry = A.dry := by
  rw [← walk_dry_eq hw, mapAt, andThen_of_true hw]
  split_ifs
  · exact ⟨rfl, rfl, rfl⟩
  · exact ⟨rfl, rfl, rfl⟩

theorem mapAt_of_walk {v e : ℕ} (hw : (Growth.walk A i v).2 = true)
    (hV : ¬ Has (A.pte i v) PTE_V) : (mapAt A i v e).2 = true := by
  rw [mapAt, andThen_of_true hw, if_neg (by rw [walk_pte]; exact hV)]

theorem walk_true_of_le {v : ℕ} (h : missing (A.tbl i) [v] ≤ A.free.length) :
    (Growth.walk A i v).2 = true := by
  by_contra hn
  rw [Bool.not_eq_true] at hn
  have := walk_short hn
  omega

/-- With three frames the trampoline is mapped: the root and two page-table pages. -/
theorem trampolineView_of_le {f : ℕ} {fs : List ℕ} (hfree : A.free = f :: fs)
    (hlen : 2 ≤ fs.length) : (trampolineView L A i f).2 = true ∧
      (trampolineView L A i f).1.free.length = fs.length - 2 ∧
      missing ((trampolineView L A i f).1.tbl i) [trapframeVpn] = 0 ∧
      (trampolineView L A i f).1.dry = A.dry := by
  have hfs : (A.take.newRoot i f).free = fs := by
    show A.free.tail = fs
    rw [hfree]; rfl
  have hm := missing_newRoot (A := A) (i := i) f
  have hw : (Growth.walk (A.take.newRoot i f) i trampolineVpn).2 = true :=
    walk_true_of_le (by rw [hm, hfs]; exact hlen)
  obtain ⟨hfr, htbl, hdry⟩ := mapAt_free (e := mkPte L.trampoline trampolineFlags) hw
  have hcount := walk_free hw
  rw [hm, hfs] at hcount
  refine ⟨mapAt_of_walk hw (by rw [newRoot_pte]; exact not_has_zero _), ?_, ?_, hdry⟩
  · unfold trampolineView
    rw [hfr]
    omega
  · unfold missing trampolineView
    rw [tables_trapframe, htbl, Finset.card_eq_zero, Finset.filter_eq_empty_iff]
    intro p hp hn
    exact ((walk_tbl_none hw p).mp hn).2 hp

/-- **With four frames the address space is complete**, and the other frames stay free. -/
theorem trapframeView_of_le {f : ℕ} {fs : List ℕ} (hfree : A.free = f :: fs)
    (hlen : 3 ≤ fs.length) : (trapframeView L A i f).2 = true ∧
      (trapframeView L A i f).1.free.length = fs.length - 3 ∧
      (grab (trampolineView L A i f).1).2 ∈ A.free ∧ (trapframeView L A i f).1.dry = A.dry := by
  obtain ⟨-, hcount, hmiss, hdry⟩ := trampolineView_of_le (L := L) (i := i) hfree (by omega)
  have hsuf := (trampolineView_grew (L := L) (A := A) (i := i) f).free
  have hpte : ¬ Has ((trampolineView L A i f).1.pte i trapframeVpn) PTE_V := by
    rw [trampolineView, mapAt_pte_of_ne trampolineVpn_ne, newRoot_pte]
    exact not_has_zero _
  unfold trapframeView
  generalize (trampolineView L A i f).1 = B at *
  obtain ⟨g, gs, hB⟩ := List.exists_cons_of_length_pos (show 0 < B.free.length by omega)
  have hgrab : grab B = (B.take, g) := by unfold grab; rw [hB]
  have htail : B.take.free.length = fs.length - 3 := by
    rw [View.take_free, List.length_tail]; omega
  rw [hgrab]
  have hw : (Growth.walk B.take i trapframeVpn).2 = true :=
    walk_true_of_le (by rw [View.take_tbl, hmiss]; exact Nat.zero_le _)
  obtain ⟨hfr, -, hdry'⟩ := mapAt_free (e := mkPte g trapframeFlags) hw
  have hc := walk_free hw
  rw [View.take_tbl, hmiss] at hc
  refine ⟨mapAt_of_walk hw hpte, ?_, hsuf.subset (by rw [hB]; simp), hdry'.trans hdry⟩
  rw [hfr]
  omega

/-- **With four frames and the objects the address space is made**, and nothing runs out. -/
theorem wp_allocMm_enough (h : Reps L s A) (i : ι) (hdry : ¬ A.dry) (hlen : 4 ≤ A.free.length)
    (hmm : s.mmObjs < objectCount) (hvma : s.vmaObjs + 1 < objectCount) :
    wpOk (allocMm L) s fun _ s' => s'.mmObjs = s.mmObjs + 1 ∧ s'.vmaObjs = s.vmaObjs + 2 ∧
      ∃ B : View ι, Reps L s' B ∧ ¬ B.dry ∧ B.free.length = A.free.length - 4 := by
  refine wp_allocMm h i (fun hn => absurd hmm hn) (fun hn => absurd (by omega) hn)
    (fun hn => absurd hvma hn) (fun hnil => by rw [hnil] at hlen; simp at hlen) ?_
  intro f fs hfree _ _ s' hs' _ hm hv
  rw [hfree, List.length_cons] at hlen ⊢
  obtain ⟨-, hcount, -, hd⟩ := trapframeView_of_le (L := L) (i := i) hfree (by omega)
  exact ⟨hm, hv, _, hs', by rwa [hd], by omega⟩

/-! ### The page-fault handler -/

/-- What the handler makes of an entry. -/
def faultPte (store : Bool) (e : ℕ) : ℕ := if store then e ||| PTE_A ||| PTE_D else e ||| PTE_A

theorem faultPte_sameAD (store : Bool) (e : ℕ) : SameAD (faultPte store e) e := by
  unfold faultPte
  split_ifs
  · exact (SameAD.or (by decide)).trans (SameAD.or (by decide))
  · exact SameAD.or (by decide)

theorem faultPte_lt (store : Bool) {e : ℕ} (he : e < 2 ^ 64) : faultPte store e < 2 ^ 64 := by
  unfold faultPte
  split_ifs
  · exact Nat.or_lt_two_pow (Nat.or_lt_two_pow he (by decide)) (by decide)
  · exact Nat.or_lt_two_pow he (by decide)

/-- An entry replaced by one that agrees but for the accessed and dirty bits. -/
theorem Ok.setPte_sameAD (h : A.Ok L) {v e : ℕ} (hv : v < NVPN) (hV : Has (A.pte i v) PTE_V)
    (he : SameAD e (A.pte i v)) : (A.setPte i v e).Ok L := by
  refine h.setPte hv (fun _ hF o ho => ?_) fun hn => absurd ((he.has_V).mpr hV) hn
  rw [he.target] at hF ho
  exact h.uniq o (.leaf i v) _ ho ⟨hv, hV, rfl, hF⟩

/-- **The handler** changes the accessed and dirty bits of a valid entry, or nothing. -/
theorem wp_pageFault {r addr : ℕ} {store : Bool} (h : Reps L s A) (hr : A.tbl i [] = some r)
    (hpgt : mm.pgt = PA_TO_KVA r) (ha : addr ≤ MAXVA) :
    wpOk (pageFault L mm addr store) s fun o s' =>
      (o = true ↔ Has (A.pte i (addr / 4096)) PTE_V) ∧ SameOff (Kernel A) s.mem s'.mem ∧
      Reps L s' (if o = true then
        A.setPte i (addr / 4096) (faultPte store (A.pte i (addr / 4096))) else A) := by
  have hv := vpn_lt ha
  unfold pageFault
  refine (wp_walk_look h hr hpgt ha).seq ?_
  rintro o s₁ ⟨hs, ho⟩
  rw [hs]
  generalize addr / 4096 = v at hv ho ⊢
  cases o with
  | none =>
    have ht : A.tbl i (path v) = none := by
      unfold slot at ho
      cases ht : A.tbl i (path v) with
      | none => rfl
      | some t => rw [ht] at ho; cases ho
    refine ⟨⟨fun hc => absurd hc (by simp), fun hV => ?_⟩, SameOff.refl _ _, h⟩
    rw [h.pte_eq_zero hv ht] at hV
    exact absurd hV (not_has_zero _)
  | some ptep =>
    refine wp_bind.mpr (wp_readSlot h hv ho.symm ?_)
    by_cases hV : Has (A.pte i v) PTE_V
    · rw [if_pos hV]
      have hlt := h.pte_lt (i := i) hv
      have hA : A.pte i v ||| PTE_A < 2 ^ 64 := Nat.or_lt_two_pow hlt (by decide)
      have hsame : SameAD (A.pte i v ||| PTE_A) (A.pte i v) := SameAD.or (by decide)
      refine wp_bind.mpr (wp_writeSlot h hv ho.symm hA (Ok.setPte_sameAD h.ok hv hV hsame)
        fun s₂ hs₂ _ => ?_)
      cases store with
      | false => exact ⟨⟨fun _ => hV, fun _ => rfl⟩, hs₂.mem, hs₂.reps⟩
      | true =>
        have ho₂ : slot (A.setPte i v (A.pte i v ||| PTE_A)) i v = some ptep := ho.symm
        have hsame₂ := faultPte_sameAD true (A.pte i v)
        have hset : (A.setPte i v (A.pte i v ||| PTE_A)).setPte i v
            (faultPte true (A.pte i v)) = A.setPte i v (faultPte true (A.pte i v)) := by
          unfold View.setPte
          congr 1
          funext j w
          show (if _ then _ else if _ then _ else _) = if _ then _ else _
          split_ifs <;> rfl
        refine wp_bind.mpr (wp_readSlot hs₂.reps hv ho₂ ?_)
        rw [View.setPte_pte_self]
        refine wp_bind.mpr (wp_writeSlot hs₂.reps hv ho₂ (faultPte_lt true hlt) ?_
          fun s₃ hs₃ _ => ?_)
        · rw [hset]
          exact Ok.setPte_sameAD h.ok hv hV hsame₂
        · refine ⟨⟨fun _ => hV, fun _ => rfl⟩, hs₂.mem.trans hs₃.mem, ?_⟩
          have := hs₃.reps
          rwa [hset] at this
    · rw [if_neg hV]
      exact ⟨⟨fun hc => absurd hc (by simp), fun hV' => absurd hV' hV⟩, SameOff.refl _ _, h⟩

end UCore.Vm.Process
