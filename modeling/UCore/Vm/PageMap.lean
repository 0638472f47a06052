import UCore.Vm.Family

/-! # The page table as a map

One `mm` from `mm_create` on, under successful calls of `mm_mappages`, `mm_mappagesat` and `freevma`
in any order: what `walk` and `walkaddr` read is a map from page numbers to entries
(`ReadsMap`), and each call changes that map on its own range only (`Op.Effect`). Nothing is assumed
of the rest of memory but a well-formed free list. -/

namespace UCore.Vm.PageMap

open UCore.Lib.Bytes UCore.Lib.Hoare UCore.Riscv UCore.Mem.State UCore.Mem.Kalloc UCore.Mem.Boot
open UCore.Vm.Spaces UCore.Vm.Tables UCore.Vm.Growth UCore.Vm.Walk UCore.Vm.Map UCore.Vm.Refine
open UCore.Vm.VmaList UCore.Vm.Count UCore.Vm.History UCore.Vm.Copy UCore.Vm.Process UCore.Vm.Family

variable {L : Layout} {s s' : KState} {mm mm' : Mm}

/-! ### Calls -/

/-- A call on the `mm`. -/
inductive Op
  | mappages (vma : Vma)
  | mappagesat (va pa flags : ℕ) (addLinkedList : Bool)
  | freevma (vma : Vma) (freePhyPage : Bool)

/-- The page `pa` is on the free list. -/
def OnFreeList (s : KState) (pa : ℕ) : Prop := ∃ fs, Chain s.mem s.freelist fs ∧ pa ∈ fs

/-- The page `pa` is on the free list, a page of the table, or the target of an entry. -/
def InUse (s : KState) (mm : Mm) (pa : ℕ) : Prop :=
  OnFreeList s pa ∨
  (∃ p, p.length ≤ 2 ∧ tblOf s.mem (some (KVA_TO_PA mm.pgt)) p = some pa) ∨
  ∃ v < NVPN, Has (pteAt s.mem mm v) PTE_V ∧ PTE2PA (pteAt s.mem mm v) = pa

/-- The arguments of a call: flags are flags, and a page given to `mm_mappagesat` is a page that the
allocator does not own or one that has no use. -/
def Op.Proper (L : Layout) (s : KState) (mm : Mm) : Op → Prop
  | .mappages vma => vma.pteFlags < 1024
  | .mappagesat _ pa flags _ =>
    flags < 1024 ∧ pa < 2 ^ 64 ∧ PGALIGNED pa ∧ (L.Frame pa → ¬ InUse s mm pa)
  | .freevma _ _ => True

/-- The call returns with success. -/
def Op.Succeeds (L : Layout) (s : KState) (mm : Mm) (s' : KState) (mm' : Mm) : Op → Prop
  | .mappages vma => mmMappages L mm vma s = .ok (0, mm') s'
  | .mappagesat va pa flags add =>
    ∃ vma, mmMappagesat L mm va pa flags add s = .ok (some vma, mm') s'
  | .freevma vma free => Map.freevma L mm vma free s = .ok () s' ∧ mm' = mm

/-- One successful call, without shortage. -/
def Step (L : Layout) (op : Op) (c c' : KState × Mm) : Prop :=
  op.Proper L c.1 c.2 ∧ op.Succeeds L c.1 c.2 c'.1 c'.2 ∧ PageEvent.empty ∉ c'.1.log

/-! ### The map -/

/-- The change of the map: on its own range `mm_mappages` stores frames of the free list, one for
each page, `mm_mappagesat` the given page, both with their flags; `freevma` clears; all other entries
stay. -/
def Op.Effect (s : KState) (mm : Mm) (s' : KState) (mm' : Mm) : Op → Prop
  | .mappages vma =>
    (∀ v < NVPN, v ∉ vpns vma → pteAt s'.mem mm' v = pteAt s.mem mm v) ∧
    ∃ frame : ℕ → ℕ, Set.InjOn frame {v | v ∈ vpns vma} ∧ ∀ v ∈ vpns vma,
      pteAt s.mem mm v = 0 ∧ OnFreeList s (frame v) ∧
        pteAt s'.mem mm' v = mkPte (frame v) vma.pteFlags
  | .mappagesat va pa flags _ =>
    (∀ v < NVPN, v ≠ va / 4096 → pteAt s'.mem mm' v = pteAt s.mem mm v) ∧
    pteAt s.mem mm (va / 4096) = 0 ∧ pteAt s'.mem mm' (va / 4096) = mkPte pa flags
  | .freevma vma _ =>
    (∀ v < NVPN, v ∉ vpns vma → pteAt s'.mem mm' v = pteAt s.mem mm v) ∧
    ∀ v ∈ vpns vma, pteAt s'.mem mm' v = 0

/-- The state has a view in which the `mm` is the only address space. -/
def Inv (L : Layout) (s : KState) (mm : Mm) (A : View Unit) : Prop :=
  Reps L s A ∧ ∃ r, A.tbl () [] = some r ∧ mm.pgt = PA_TO_KVA r

theorem Inv.pte {A : View Unit} (h : Inv L s mm A) {v : ℕ} (hv : v < NVPN) :
    pteAt s.mem mm v = A.pte () v := by
  obtain ⟨hA, r, hr, hpgt⟩ := h
  exact pteAt_eq hA hr hpgt hv

theorem Inv.pte_eq_zero {A : View Unit} (h : Inv L s mm A) {v : ℕ} (hv : v < NVPN)
    (hn : ¬ Has (A.pte () v) PTE_V) : pteAt s.mem mm v = 0 := by
  rw [h.pte hv]
  exact h.1.ok.clear () v hv hn

/-- A page that is not in use has no owner. -/
theorem Inv.unowned {A : View Unit} (h : Inv L s mm A) (hheld : A.held = ∅) {pa : ℕ}
    (hno : ¬ InUse s mm pa) : ∀ o, ¬ A.Owns L o pa := by
  obtain ⟨hA, r, hr, hpgt⟩ := h
  intro o ho
  refine hno ?_
  cases o with
  | free => exact Or.inl ⟨A.free, hA.chain, ho⟩
  | held => rw [View.Owns, hheld] at ho; exact absurd ho.1 (Set.notMem_empty _)
  | table i p =>
    have hF := hA.ok.frame_tbl (i := ()) (p := []) (by simp) hr
    have hpa : KVA_TO_PA mm.pgt = r := by
      rw [hpgt]; exact KVA_TO_PA_PA_TO_KVA (by have := hF.lt; omega)
    refine Or.inr (Or.inl ⟨p, ho.1, ?_⟩)
    rw [hpa, ← hr, ← hA.tbl () p ho.1]
    exact ho.2
  | leaf i v =>
    obtain ⟨hv, hV, ht, -⟩ := ho
    refine Or.inr (Or.inr ⟨v, hv, ?_⟩)
    rw [pteAt_eq hA hr hpgt hv]
    exact ⟨hV, ht⟩

/-- A call that only grows the address space keeps the invariant. -/
theorem Inv.grew {A B : View Unit} (h : Inv L s mm A) (hB : Reps L s' B) (hG : Grew A B ())
    (hpgt : mm'.pgt = mm.pgt) : Inv L s' mm' B := by
  obtain ⟨-, r, hr, hp⟩ := h
  exact ⟨hB, r, (hG.root ()).trans hr, hpgt.trans hp⟩

theorem listed_pgt (mm : Mm) (vma : Vma) (ok : Bool) : (listed mm vma ok).pgt = mm.pgt := by
  unfold listed; split_ifs <;> rfl

theorem Step.mappages_spec {A : View Unit} {vma : Vma} (h : Inv L s mm A) (hheld : A.held = ∅)
    (hstep : Step L (.mappages vma) (s, mm) (s', mm')) :
    Op.Effect s mm s' mm' (.mappages vma) ∧ ∃ B, Inv L s' mm' B ∧ B.held = ∅ := by
  obtain ⟨hfl, hx, hd⟩ := hstep
  change mmMappages L mm vma s = .ok (0, mm') s' at hx
  by_cases hvma : Vma.Valid vma
  swap
  · have : wp (mmMappages L mm vma) s (fun _ _ => False) fun _ s' => s' = s :=
        wp_mmMappages_invalid hfl hvma
    exact ((wp_of_eq_ok hx).mp this).elim
  have hinv := h
  obtain ⟨hA, r, hr, hpgt⟩ := h
  obtain ⟨hs', ho⟩ := (wp_of_eq_ok hx).mp (wp_mmMappages hA hr hpgt hvma)
  have hdry : ¬ (mapPages () vma.pteFlags (vpns vma) A).1.dry := fun hc => hd (hs'.reps.dry.mp hc)
  have hG := mapPages_grew (i := ()) vma.pteFlags (vpns vma) A
  cases hmap : (mapPages () vma.pteFlags (vpns vma) A).2 with
  | false =>
    rw [hmap] at ho
    have h0 : (0 : ℤ) = -1 := congrArg Prod.fst ho
    exact absurd h0 (by decide)
  | true =>
    have hmm : mm' = listed mm vma (mapPages () vma.pteFlags (vpns vma) A).2 :=
      congrArg Prod.snd ho
    have hinv' : Inv L s' mm' _ := hinv.grew hs'.reps hG (by rw [hmm, listed_pgt])
    obtain ⟨-, hmapped⟩ := mapPages_true hmap
    refine ⟨⟨fun v hv hn => ?_, fun v => PTE2PA (pteAt s'.mem mm' v), ?_, fun v hv => ?_⟩, _, hinv',
      hG.held.trans hheld⟩
    · rw [hinv'.pte hv, hinv.pte hv, mapPages_pte_of_not_mem hn]
    · intro v hv w hw he
      have hleaf : ∀ v ∈ vpns vma, (mapPages () vma.pteFlags (vpns vma) A).1.Owns L (.leaf () v)
          (PTE2PA (pteAt s'.mem mm' v)) := by
        intro v hv
        obtain ⟨f, hf, hpte⟩ := (hmapped v hv).2.2 hdry
        have hF := hA.ok.frame_free hf
        refine ⟨hvma.vpn_lt' hv, (hmapped v hv).2.1, (congrArg PTE2PA (hinv'.pte
          (hvma.vpn_lt' hv))).symm, ?_⟩
        rw [hinv'.pte (hvma.vpn_lt' hv), hpte, PTE2PA_mkPte (by have := hF.lt; omega) hvma.flags,
          hF.div_mul]
        exact hF
      have h1 := hleaf v hv
      have h2 := hleaf w hw
      change PTE2PA (pteAt s'.mem mm' v) = PTE2PA (pteAt s'.mem mm' w) at he
      rw [he] at h1
      have := hs'.reps.ok.uniq _ _ _ h1 h2
      injection this
    · obtain ⟨f, hf, hpte⟩ := (hmapped v hv).2.2 hdry
      have hF := hA.ok.frame_free hf
      have hlt := hvma.vpn_lt' hv
      have hpa : PTE2PA (pteAt s'.mem mm' v) = f := by
        rw [hinv'.pte hlt, hpte, PTE2PA_mkPte (by have := hF.lt; omega) hvma.flags, hF.div_mul]
      refine ⟨hinv.pte_eq_zero hlt (hmapped v hv).1, ⟨A.free, hA.chain, ?_⟩, ?_⟩
      · show PTE2PA (pteAt s'.mem mm' v) ∈ A.free
        rw [hpa]
        exact hf
      · show pteAt s'.mem mm' v = mkPte (PTE2PA (pteAt s'.mem mm' v)) vma.pteFlags
        rw [hpa, hinv'.pte hlt, hpte]

theorem Step.mappagesat_spec {A : View Unit} {va pa fl : ℕ} {add : Bool} (h : Inv L s mm A)
    (hheld : A.held = ∅) (hstep : Step L (.mappagesat va pa fl add) (s, mm) (s', mm')) :
    Op.Effect s mm s' mm' (.mappagesat va pa fl add) ∧ ∃ B, Inv L s' mm' B ∧ B.held = ∅ := by
  obtain ⟨⟨hfl, hpa, hal, hno⟩, ⟨vma, hx⟩, hd⟩ := hstep
  have hinv := h
  obtain ⟨hA, r, hr, hpgt⟩ := h
  -- a call that comes back with a vma found the address in range and not mapped
  by_cases hva : va ≤ MAXVA
  swap
  · exfalso
    have : wp (mmMappagesat L mm va pa fl add) s (fun _ _ => False) fun _ _ => True := by
      unfold mmMappagesat Walk.walk
      refine wp_seq (wp_trivial) fun _ s₁ _ => ?_
      exact wp_bind.mpr (wp_bind.mpr (wp_ensure.mpr ⟨fun hc => absurd hc hva, fun _ => trivial⟩))
    exact (wp_of_eq_ok hx).mp this
  have hv := vpn_lt hva
  by_cases hV : Has (A.pte () (va / 4096)) PTE_V
  · exfalso
    have : wp (mmMappagesat L mm va pa fl add) s (fun o _ => o.1 = none) fun _ _ => True := by
      unfold mmMappagesat
      refine wp_bind.mpr (wp_kallocVma (fun _ => ?_) fun _ => trivial)
      have h' := Reps.objs hA s.mmObjs (s.vmaObjs + 1)
      refine (wp_walk_alloc h' hr hpgt hva).seq ?_
      intro o s₁ hpost
      have hs₁ := hpost.1
      have ho := hpost.2.1
      cases o with
      | none => exact wp_pure.mpr rfl
      | some ptep =>
        refine wp_bind.mpr (wp_readSlot hs₁.reps hv ho.symm ?_)
        rw [if_pos (by rw [walk_pte]; exact hV)]
        generalize vmPrint L mm.pgt = x
        exact wp_seq wp_trivial fun _ _ _ => rfl
    exact absurd ((wp_of_eq_ok hx).mp this) (by simp)
  have hspec := wp_mmMappagesat (Q := fun o s' => ∀ vma, o.1 = some vma →
      PageEvent.empty ∉ s'.log → Reps L s' (mapAt A () (va / 4096) (mkPte pa fl)).1 ∧
        (mapAt A () (va / 4096) (mkPte pa fl)).2 = true ∧ o.2.pgt = mm.pgt)
    (E := fun _ _ => True) hA hr hpgt add hva hpa hal hfl
    (fun hF => hinv.unowned hheld (hno hF)) hV (fun _ => trivial) ?_
  · obtain ⟨hs', hok, hp⟩ := (wp_of_eq_ok hx).mp hspec vma rfl hd
    have hG := mapAt_grew A () (va / 4096) (mkPte pa fl)
    have hinv' := hinv.grew hs' hG hp
    refine ⟨⟨fun w hw hne => ?_, hinv.pte_eq_zero hv hV, ?_⟩, _, hinv', hG.held.trans hheld⟩
    · rw [hinv'.pte hw, hinv.pte hw, mapAt_pte_of_ne hne]
    · rw [hinv'.pte hv, (mapAt_true hok).2]
  · intro s₂ hs₂ _ _ _ vma hsome _
    refine ⟨hs₂, ?_, ?_⟩
    · by_contra hc
      rw [if_neg hc] at hsome
      cases hsome
    · split_ifs <;> simp [listed_pgt]

/-- A `freevma` that came back unmapped its range. -/
theorem Inv.freevma {A : View Unit} {vma : Vma} {free : Bool} (h : Inv L s mm A)
    (hx : Map.freevma L mm vma free s = .ok () s') :
    Inv L s' mm (unmapPages () free (vpns vma) A) ∧ ∀ v ∈ vpns vma, v < NVPN := by
  obtain ⟨hA, r, hr, hpgt⟩ := h
  by_cases hal : PGALIGNED vma.vmStart ∧ PGALIGNED vma.vmEnd
  swap
  · exfalso
    have : wp (Map.freevma L mm vma free) s (fun _ _ => False) fun _ _ => True := by
      unfold Map.freevma
      exact wp_bind.mpr (wp_ensure.mpr ⟨fun hc => absurd hc hal, fun _ => trivial⟩)
    exact (wp_of_eq_ok hx).mp this
  by_cases hvas : ∀ va ∈ pages vma.vmStart vma.vmEnd, va ≤ MAXVA
  swap
  · exfalso
    push Not at hvas
    obtain ⟨va, hmem, hva⟩ := hvas
    have hstuck : ∀ s, wp (freePage L mm free va) s (fun _ _ => False) fun _ _ => True := by
      intro s
      unfold freePage Walk.walk
      refine wp_bind.mpr (wp_bind.mpr (wp_ensure.mpr ⟨fun hc => ?_, fun _ => trivial⟩))
      exact absurd hc (not_le.mpr hva)
    have : wp (Map.freevma L mm vma free) s (fun _ _ => False) fun _ _ => True := by
      unfold Map.freevma
      exact wp_seq wp_trivial fun _ s₁ _ => wp_forM_stuck hstuck s₁ hmem
    exact (wp_of_eq_ok hx).mp this
  have hspec := wp_freePages (E := fun _ _ => True) hpgt free hA hr hvas (nodup_vpns hal.1)
    fun _ _ _ _ _ _ => trivial
  obtain ⟨-, hs', -⟩ := (wp_of_eq_ok hx).mp (by
    unfold Map.freevma
    exact wp_bind.mpr (wp_ensure_pos hal hspec))
  change Leads L s s' (unmapPages () free (vpns vma) A) _ at hs'
  refine ⟨⟨hs'.reps, r, by rw [unmapPages_tbl]; exact hr, hpgt⟩, fun v hv => ?_⟩
  obtain ⟨va, hva, rfl⟩ := List.mem_map.mp hv
  exact vpn_lt (hvas va hva)

theorem Step.freevma_spec {A : View Unit} {vma : Vma} {free : Bool} (h : Inv L s mm A)
    (hheld : A.held = ∅) (hstep : Step L (.freevma vma free) (s, mm) (s', mm')) :
    Op.Effect s mm s' mm' (.freevma vma free) ∧ ∃ B, Inv L s' mm' B ∧ B.held = ∅ := by
  obtain ⟨-, ⟨hx, rfl⟩, -⟩ := hstep
  change Map.freevma L mm' vma free s = .ok () s' at hx
  obtain ⟨hinv', hlt⟩ := h.freevma hx
  refine ⟨⟨fun v hv hn => ?_, fun v hv => ?_⟩, _, hinv', by rw [unmapPages_held, hheld]⟩
  · rw [hinv'.pte hv, h.pte hv, unmapPages_pte_of_ne fun hc => hn hc.2]
  · rw [hinv'.pte (hlt v hv)]
    cases ht : A.tbl () (path v) with
    | some t => exact unmapPages_pte_mem (by rw [ht]; rfl) hv
    | none => exact hinv'.1.pte_eq_zero (hlt v hv) (by rw [unmapPages_tbl]; exact ht)

/-- **Every call has its effect**, and keeps the invariant. -/
theorem Step.spec {A : View Unit} {op : Op} (h : Inv L s mm A) (hheld : A.held = ∅)
    (hstep : Step L op (s, mm) (s', mm')) :
    op.Effect s mm s' mm' ∧ ∃ B, Inv L s' mm' B ∧ B.held = ∅ := by
  cases op with
  | mappages vma => exact Step.mappages_spec h hheld hstep
  | mappagesat va pa fl add => exact Step.mappagesat_spec h hheld hstep
  | freevma vma free => exact Step.freevma_spec h hheld hstep

/-! ### Runs -/

/-- Successful calls, one after another. -/
inductive Run (L : Layout) (c : KState × Mm) : KState × Mm → Prop
  | nil : Run L c c
  | snoc {c' c'' : KState × Mm} {op : Op} : Run L c c' → Step L op c' c'' → Run L c c''

theorem Run.inv {c c' : KState × Mm} (hrun : Run L c c')
    (h : ∃ A, Inv L c.1 c.2 A ∧ A.held = ∅) : ∃ A, Inv L c'.1 c'.2 A ∧ A.held = ∅ := by
  induction hrun with
  | nil => exact h
  | snoc _ hstep ih =>
    obtain ⟨A, hA, hheld⟩ := ih
    exact (hstep.spec hA hheld).2

end UCore.Vm.PageMap
