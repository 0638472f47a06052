import UCore.Vm.Count
import UCore.Vm.VmaList

/-! # Filling new memory

Both `mm_copy` and the loader map vmas with new frames and then fill their pages. `Filled` is what
that achieves: from `s` with the view `A` to `s'` with the view `B`, each part, a vma with the bytes
it is to hold by address, got frames of the free list with the vma's flags and these bytes; nothing
else changed but pages of the kernel's own. One part is `filled_one`; `Filled.cons` puts them
together. -/

namespace UCore.Vm.Fill

open UCore.Lib.Bytes UCore.Lib.Hoare UCore.Riscv UCore.Mem.State UCore.Mem.Kalloc
open UCore.Vm.Spaces UCore.Vm.Tables UCore.Vm.Growth UCore.Vm.Walk UCore.Vm.Map UCore.Vm.Refine
open UCore.Vm.VmaList UCore.Vm.Count

variable {ι : Type} {L : Layout} {s s₁ s' : KState} {A B C : View ι} {i j : ι} {mm : Mm}

/-! ### Bytes of user pages -/

/-- The targets in `i` of the page numbers `vs`. -/
def targets (A : View ι) (i : ι) (vs : List ℕ) : Set ℕ := {f | ∃ v ∈ vs, PTE2PA (A.pte i v) = f}

theorem targets_aligned {vs : List ℕ} (hu : ∀ v ∈ vs, UserFrame L A i v (PTE2PA (A.pte i v))) :
    ∀ g ∈ targets A i vs, g % 4096 = 0 := by
  rintro g ⟨v, hv, rfl⟩
  exact (hu v hv).frame.aligned

/-- The byte at the user address `a` of a mapped page. -/
def userByte (m : Mem) (A : View ι) (i : ι) (a : ℕ) : UInt8 :=
  m (PTE2PA (A.pte i (a / 4096)) + a % 4096)

theorem userByte_page {m : Mem} {v o : ℕ} (ho : o < 4096) :
    userByte m A i (4096 * v + o) = m (PTE2PA (A.pte i v) + o) := by
  unfold userByte
  rw [show (4096 * v + o) / 4096 = v by omega, show (4096 * v + o) % 4096 = o by omega]

/-- Bytes of user pages outside `D` stay. -/
theorem userByte_same {D : Set ℕ} {m m' : Mem} {a f : ℕ} (hm : SameOff D m m')
    (hD : ∀ g ∈ D, g % 4096 = 0) (hf : UserFrame L A i (a / 4096) f) (hfD : f ∉ D) :
    userByte m' A i a = userByte m A i a := by
  unfold userByte
  rw [hf.target]
  exact hm.page hD hf.frame.aligned hfD ⟨by omega, by omega⟩

/-- Writing one user page. -/
theorem reps_of_userPage {m' : Mem} {f v : ℕ} (h : Reps L s A) (hf : UserFrame L A i v f)
    (hm : SameOff {f} s.mem m') : Reps L { s with mem := m' } A := by
  refine h.sameOff (D := {f}) ?_ ?_ hm rfl rfl
  · rintro _ rfl; exact hf.frame.aligned
  · rintro g hg rfl; exact hf.not_kernel h.ok hg

/-- An entry that maps a frame with the flags of a vma. -/
theorem userFrame_of_pte {vma : Vma} {v f : ℕ} (hvma : Vma.Valid vma) (hU : Has vma.pteFlags PTE_U)
    (hv : v ∈ vpns vma) (hf : L.Frame f) (hpte : A.pte i v = mkPte f vma.pteFlags) :
    UserFrame L A i v f := by
  have hlt := hf.lt
  refine ⟨hvma.vpn_lt hv, ?_, ?_, ?_, hf⟩ <;> rw [hpte]
  · exact has_mkPte_V _ _
  · exact (has_mkPte_U (by omega)).mpr hU
  · rw [PTE2PA_mkPte (by omega) hvma.flags, hf.div_mul]

variable [DecidableEq ι]

/-! ### Enough frames -/

/-- **`mm_mappages` with enough frames** returns 0. -/
theorem wp_mmMappages_enough {r : ℕ} (h : Reps L s A) (hr : A.tbl i [] = some r)
    (hpgt : mm.pgt = PA_TO_KVA r) {vma : Vma} (hvma : Vma.Valid vma) (hdry : ¬ A.dry)
    (hnew : ∀ v ∈ vpns vma, ¬ Has (A.pte i v) PTE_V)
    (hlen : needed (A.tbl i) (vpns vma) ≤ A.free.length) :
    (mapPages i vma.pteFlags (vpns vma) A).2 = true ∧
      ¬ (mapPages i vma.pteFlags (vpns vma) A).1.dry ∧
      wpOk (mmMappages L mm vma) s fun o s' =>
        o = (0, { mm with vma := vma :: mm.vma }) ∧
        Leads L s s' (mapPages i vma.pteFlags (vpns vma) A).1 (Kernel A) := by
  obtain ⟨hmap, hdry'⟩ := mapPages_enough (i := i) vma.pteFlags hdry
    (nodup_vpns hvma.start_al) hnew hlen
  refine ⟨hmap, hdry', (wp_mmMappages h hr hpgt hvma).imp ?_⟩
  rintro o s' ⟨hs', ho⟩
  rw [hmap] at ho
  exact ⟨ho, hs'⟩

/-- The frames that new page numbers got. -/
theorem userFrame_mapped (h : A.Ok L) {vma : Vma} (hvma : Vma.Valid vma)
    (hU : Has vma.pteFlags PTE_U) (hsup : Supplied A i vma.pteFlags (vpns vma)) {v : ℕ} (hv : v ∈ vpns vma) :
    ¬ Has (A.pte i v) PTE_V ∧ ∃ f ∈ A.free,
      (mapPages i vma.pteFlags (vpns vma) A).1.pte i v = mkPte f vma.pteFlags ∧
      UserFrame L (mapPages i vma.pteFlags (vpns vma) A).1 i v f := by
  have hn := ((mapPages_true hsup.ok).2 v hv).1
  obtain ⟨f, hf, hpte⟩ := hsup.frame v hv
  exact ⟨hn, f, hf, hpte, userFrame_of_pte hvma hU hv (h.frame_free hf) hpte⟩

/-! ### Parts -/

/-- From `s` to `s'` the address space `i` got the parts. -/
structure Filled (L : Layout) (s s' : KState) (A B : View ι) (i : ι)
    (parts : List (Vma × (ℕ → UInt8))) : Prop where
  reps : Reps L s' B
  mem : SameOff (Kernel A) s.mem s'.mem
  grew : Grew A B i
  other : ∀ v, v ∉ listVpns (parts.map Prod.fst) → B.pte i v = A.pte i v
  page : ∀ part ∈ parts, ∀ v ∈ vpns part.1, ¬ Has (A.pte i v) PTE_V ∧
    ∃ f ∈ A.free, B.pte i v = mkPte f part.1.pteFlags ∧
      ∀ o < 4096, s'.mem (f + o) = part.2 (4096 * v + o)

omit [DecidableEq ι] in
theorem Filled.nil (h : Reps L s A) : Filled L s s A A i [] :=
  ⟨h, SameOff.refl _ _, Grew.refl A i, fun _ _ => rfl, by simp⟩

omit [DecidableEq ι] in
/-- One part, then the others. -/
theorem Filled.cons {part : Vma × (ℕ → UInt8)} {parts : List (Vma × (ℕ → UInt8))} (hA : Reps L s A)
    (hvma : Vma.Valid part.1) (hU : Has part.1.pteFlags PTE_U)
    (h₁ : Filled L s s₁ A B i [part]) (h₂ : Filled L s₁ s' B C i parts) :
    Filled L s s' A C i (part :: parts) := by
  refine ⟨h₂.reps, h₁.mem.trans (h₂.mem.mono h₁.grew.kernel), h₁.grew.trans h₂.grew,
    fun v hv => ?_, fun w hw v hv => ?_⟩
  · rw [List.map_cons, listVpns_cons, List.mem_append, not_or] at hv
    rw [h₂.other v hv.2, h₁.other v (by simpa [listVpns] using hv.1)]
  · rcases List.mem_cons.mp hw with rfl | hw
    · obtain ⟨hn, f, hf, hpte, hbytes⟩ := h₁.page w (by simp) v hv
      have hfu := userFrame_of_pte hvma hU hv (hA.ok.frame_free hf) hpte
      refine ⟨hn, f, hf, ?_, fun o ho => ?_⟩
      · rw [h₂.grew.valid v hfu.valid, hpte]
      · rw [hfu.same h₁.reps h₂.mem ho, hbytes o ho]
    · obtain ⟨hn, f, hf, hpte, hbytes⟩ := h₂.page w hw v hv
      exact ⟨fun hV => hn (by rw [h₁.grew.valid v hV]; exact hV), f, h₁.grew.free.subset hf, hpte,
        hbytes⟩

/-- One vma, mapped and then filled. -/
theorem filled_one {vma : Vma} {c : ℕ → UInt8} (h : Reps L s A) (hvma : Vma.Valid vma)
    (hU : Has vma.pteFlags PTE_U) (hsup : Supplied A i vma.pteFlags (vpns vma))
    (hm₁ : SameOff (Kernel A) s.mem s₁.mem)
    (hs' : Reps L s' (mapPages i vma.pteFlags (vpns vma) A).1)
    (hm' : SameOff (targets (mapPages i vma.pteFlags (vpns vma) A).1 i (vpns vma)) s₁.mem s'.mem)
    (hc : ∀ v ∈ vpns vma, ∀ o < 4096,
      s'.mem (PTE2PA ((mapPages i vma.pteFlags (vpns vma) A).1.pte i v) + o) = c (4096 * v + o)) :
    Filled L s s' A (mapPages i vma.pteFlags (vpns vma) A).1 i [(vma, c)] := by
  have hG := mapPages_grew (i := i) vma.pteFlags (vpns vma) A
  refine ⟨hs', hm₁.trans (hm'.mono ?_), hG, fun v hv => ?_, fun part hpart v hv => ?_⟩
  · rintro f ⟨v, hv, rfl⟩
    obtain ⟨-, f, hf, -, hu⟩ := userFrame_mapped h.ok hvma hU hsup hv
    rw [hu.target]
    exact Or.inl hf
  · exact mapPages_pte_of_not_mem (by simpa [listVpns] using hv)
  · rw [List.mem_singleton] at hpart
    subst hpart
    obtain ⟨hn, f, hf, hpte, hu⟩ := userFrame_mapped h.ok hvma hU hsup hv
    refine ⟨hn, f, hf, hpte, fun o ho => ?_⟩
    rw [← hu.target]
    exact hc v hv o ho

end UCore.Vm.Fill
