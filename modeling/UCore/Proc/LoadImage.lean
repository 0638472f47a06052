import UCore.Proc.Pools
import UCore.Vm.Flat

/-! # Loading, on flat memories

`image elf` is the memory that `load_user_elf` builds from an image: one segment after the other, as
the code has it, then the stack. It does not mention frames, page tables or what was in memory before.
Without shortage, and if no segment takes a page of the stack, the process then shows this memory,
and nothing else changes but the two registers (`wet_loadUserElf`). -/

namespace UCore.Proc.LoadImage

open UCore.Lib.Bytes UCore.Lib.Hoare UCore.Riscv UCore.Mem.State UCore.Mem.Kalloc
open UCore.Vm.Spaces UCore.Vm.Tables UCore.Vm.Growth UCore.Vm.Walk UCore.Vm.Map UCore.Vm.Refine
open UCore.Vm.VmaList UCore.Vm.Count UCore.Vm.Fill UCore.Vm.Copy UCore.Vm.History UCore.Vm.Keeps
open UCore.Vm.Process UCore.Vm.Family UCore.Vm.Uaccess UCore.Vm.Flat
open UCore.Proc.State UCore.Proc.Loader UCore.Proc.Pools

/-! ### The memory of an image -/

/-- One round of the loop that clears the `.bss`. -/
def clear (u : UserMem) (va : ℕ) : UserMem := u.write va (PGROUNDUP va - va) fun _ => 0

/-- One segment. -/
def putSegment (elf : Image) (u : UserMem) (phdr : Phdr) : UserMem :=
  let u := u.map (segmentVma phdr) (segByte elf phdr)
  if phdr.pFilesz < phdr.pMemsz then
    (pagesFrom ((phdr.pVaddr + phdr.pFilesz) % 2 ^ 64)
      ((phdr.pVaddr + phdr.pMemsz) % 2 ^ 64)).foldl clear u
  else u

/-- The segments that are loaded. -/
def loadable (elf : Image) : List Phdr := (phdrs elf).filter fun phdr => phdr.pType = PT_LOAD

/-- The memory after `load_user_elf` in a process without memory. -/
def image (elf : Image) : UserMem :=
  ((loadable elf).foldl (putSegment elf) .empty).map ustackVma fun _ => 0

/-- No segment that is loaded has a page of the stack. -/
def StackClear (elf : Image) : Prop :=
  ∀ phdr ∈ loadable elf, (vpns (segmentVma phdr)).Disjoint (vpns ustackVma)

variable {L : Layout} {ι : Type} [DecidableEq ι] {s s₁ s' : KState} {A B : View ι} {i : ι} {mm : Mm}
  {u : UserMem} {elf : Image} {phdr : Phdr}

/-! ### One vma -/

/-- What `mm_mappages` returns for a vma, without shortage. -/
structure MapsTo (L : Layout) (s : KState) (A : View ι) (i : ι) (mm : Mm) (u : UserMem) (vma : Vma)
    (o : ℤ × Mm) (s₁ : KState) : Prop where
  zero : (∀ v ∈ vpns vma, u.perm v = none ∧ v < trapframeVpn) → o.1 = 0
  valid : o.1 = 0 → Vma.Valid vma
  supplied : o.1 = 0 → Supplied A i vma.pteFlags (vpns vma)
  list : o.1 = 0 → o.2 = { mm with vma := vma :: mm.vma }
  leads : o.1 = 0 → Leads L s s₁ (mapPages i vma.pteFlags (vpns vma) A).1 (Kernel A)

/-- **`mm_mappages` without shortage**: `0` or not, and `0` if no page was mapped. -/
theorem wet_mmMappages (h : Space L s A i mm u) {vma : Vma} (hfl : vma.pteFlags < 1024) :
    wet (mmMappages L mm vma) s (MapsTo L s A i mm u vma) := by
  by_cases hvma : Vma.Valid vma
  swap
  · exact wp_mono (Q := fun _ _ => False) (wp_mmMappages_invalid hfl hvma) (fun _ _ hF => hF.elim)
      fun _ _ _ => trivial
  obtain ⟨r, hr, hpgt⟩ := h.user.listed.root
  refine wp_mono (wp_mmMappages h.reps hr hpgt hvma) ?_ fun _ _ hF => hF.elim
  rintro o s₁ ⟨hs₁, ho⟩ hd
  have hdry : ¬ (mapPages i vma.pteFlags (vpns vma) A).1.dry := fun hc => hd (hs₁.reps.dry.mp hc)
  cases hmap : (mapPages i vma.pteFlags (vpns vma) A).2 with
  | true =>
    rw [hmap] at ho
    subst ho
    exact ⟨fun _ => rfl, fun _ => hvma, fun _ => supplied_of_wet hmap hdry, fun _ => rfl, fun _ => hs₁⟩
  | false =>
    rw [hmap] at ho
    subst ho
    have hne : ¬ (-1 : ℤ) = 0 := by decide
    refine ⟨fun hnew => ?_, fun h0 => absurd h0 hne, fun h0 => absurd h0 hne, fun h0 => absurd h0 hne,
      fun h0 => absurd h0 hne⟩
    have htrue := mapPages_of_unmapped hdry (nodup_vpns hvma.start_al) fun v hv hV => ?_
    · rw [htrue] at hmap
      cases hmap
    · exact h.not_valid (hnew v hv).1 (hnew v hv).2 hV

/-- **A new vma is mapped**, then the rest. -/
theorem wet_mapNew {β : Type} {f : ℤ × Mm → KM β} {Q : β → KState → Prop} (h : Space L s A i mm u)
    (vma : Vma) (hfl : vma.pteFlags < 1024) (hf : ∀ o, LogGrows (f o))
    (hQ : ∀ o s₁, MapsTo L { s with vmaObjs := s.vmaObjs + 1 } A i mm u vma o s₁ →
      wet (f o) s₁ Q) : wet (kallocVma >>= fun _ => mmMappages L mm vma >>= f) s Q := by
  refine (wet_of_wp (wp_kallocVma (Q := fun _ s' => s' = { s with vmaObjs := s.vmaObjs + 1 })
    (E := fun _ _ => True) (fun _ => rfl) fun _ => trivial)).seq (fun _ => ?_) ?_
  · exact logGrows_iff.mpr ((keeps_mmMappages _ _).bind fun o => logGrows_iff.mp (hf o))
  rintro _ _ - rfl
  exact (wet_mmMappages (h.objs s.mmObjs (s.vmaObjs + 1)) hfl).seq hf fun o s₁ _ => hQ o s₁

/-- A vma that was mapped and then filled. -/
theorem space_of_filled (h : Space L s A i mm u) {vma : Vma} {c : ℕ → UInt8} (hvma : Vma.Valid vma)
    (hU : Has vma.pteFlags PTE_U) (hsup : Supplied A i vma.pteFlags (vpns vma))
    (hm₁ : SameOff (Kernel A) s.mem s₁.mem)
    (hs' : Reps L s' (mapPages i vma.pteFlags (vpns vma) A).1)
    (hm' : SameOff (targets (mapPages i vma.pteFlags (vpns vma) A).1 i (vpns vma)) s₁.mem s'.mem)
    (hc : ∀ v ∈ vpns vma, ∀ o < 4096,
      s'.mem (PTE2PA ((mapPages i vma.pteFlags (vpns vma) A).1.pte i v) + o) = c (4096 * v + o)) :
    Space L s' (mapPages i vma.pteFlags (vpns vma) A).1 i { mm with vma := vma :: mm.vma }
        (u.map vma c) ∧
      Stays L (Foreign i) s.mem A s'.mem (mapPages i vma.pteFlags (vpns vma) A).1 := by
  have hfill := filled_one h.reps hvma hU hsup hm₁ hs' hm' hc
  exact ⟨⟨hs', h.user.mapped h.reps.ok hvma hU hsup, h.sees.filled h.reps hvma hU hfill⟩,
    stays_of_grew h.reps hs' hfill.grew h.user.trapframe.1.1 hfill.mem⟩

/-- The frames of a vma that was mapped. -/
theorem userFrame_supplied (h : Space L s A i mm u) {vma : Vma} (hvma : Vma.Valid vma)
    (hU : Has vma.pteFlags PTE_U) (hsup : Supplied A i vma.pteFlags (vpns vma)) {v : ℕ}
    (hv : v ∈ vpns vma) : UserFrame L (mapPages i vma.pteFlags (vpns vma) A).1 i v
      (PTE2PA ((mapPages i vma.pteFlags (vpns vma) A).1.pte i v)) := by
  obtain ⟨-, f, -, -, hf⟩ := userFrame_mapped h.reps.ok hvma hU hsup hv
  rw [hf.target]
  exact hf

/-! ### One segment -/

theorem vpns_segment (hvma : Vma.Valid (segmentVma phdr)) :
    ∃ n, pages (segmentVma phdr).vmStart (segmentVma phdr).vmEnd =
        pages (segmentVma phdr).vmStart ((segmentVma phdr).vmStart + 4096 * n) ∧
      vpns (segmentVma phdr) = (List.range n).map ((segmentVma phdr).vmStart / 4096 + ·) := by
  have h1 := hvma.start_al
  have h2 := hvma.end_al
  rw [PGALIGNED_iff] at h1 h2
  generalize hstart : (segmentVma phdr).vmStart = start at h1
  generalize hstop : (segmentVma phdr).vmEnd = stop at h2
  refine ⟨(stop - start + 4095) / 4096, ?_, ?_⟩
  · unfold pages
    rw [PGSIZE_eq]
    congr 2
    omega
  · unfold vpns pages
    rw [hstart, hstop, PGSIZE_eq, List.map_map]
    refine List.map_congr_left fun k _ => ?_
    show (start + 4096 * k) / 4096 = start / 4096 + k
    omega

/-- **The page loop** of a segment that was mapped. -/
theorem wp_loadPages_turned (h : Space L s A i mm u) (hvma : Vma.Valid (segmentVma phdr))
    (hsup : Supplied A i (segmentVma phdr).pteFlags (vpns (segmentVma phdr)))
    (hs₁ : Leads L s s₁ (mapPages i (segmentVma phdr).pteFlags (vpns (segmentVma phdr)) A).1
      (Kernel A)) :
    wpOk (loadPages L elf { mm with vma := segmentVma phdr :: mm.vma } phdr
      (pages (segmentVma phdr).vmStart (segmentVma phdr).vmEnd) 0 phdr.pFilesz) s₁ fun o s' =>
        (Space L s' (mapPages i (segmentVma phdr).pteFlags (vpns (segmentVma phdr)) A).1 i
            { mm with vma := segmentVma phdr :: mm.vma } (u.map (segmentVma phdr) (segByte elf phdr)) ∧
          Stays L (Foreign i) s.mem A s'.mem
            (mapPages i (segmentVma phdr).pteFlags (vpns (segmentVma phdr)) A).1) ∧
        s' = { s₁ with mem := s'.mem } ∧
        o = phdr.pFilesz - 4096 * (vpns (segmentVma phdr)).length := by
  obtain ⟨n, hpages, hvpns⟩ := vpns_segment hvma
  have hU : Has (segmentVma phdr).pteFlags PTE_U := (segmentPerm_flags phdr.pFlags).2.1
  have hframe := fun v hv => userFrame_supplied h hvma hU hsup (v := v) hv
  have hG := mapPages_grew (i := i) (segmentVma phdr).pteFlags (vpns (segmentVma phdr)) A
  obtain ⟨r, hr, hpgt⟩ := h.user.listed.root
  have hpgt' : ({ mm with vma := segmentVma phdr :: mm.vma } : Mm).pgt = PA_TO_KVA r := hpgt
  have hmem : ∀ k < n, (segmentVma phdr).vmStart / 4096 + k ∈ vpns (segmentVma phdr) :=
    fun k hk => by
      rw [hvpns]
      exact List.mem_map.mpr ⟨k, List.mem_range.mpr hk, rfl⟩
  rw [hpages]
  refine (wp_loadPages ((hG.root i).trans hr) hpgt' hs₁.reps hvma.start_al fun k hk =>
    hframe _ (hmem k hk)).imp ?_
  rintro o s' ⟨ho, hstate, hs', hm, hbytes⟩
  have hlen : (vpns (segmentVma phdr)).length = n := by
    rw [hvpns, List.length_map, List.length_range]
  rw [← hvpns] at hm
  refine ⟨space_of_filled h hvma hU hsup hs₁.mem hs' hm fun v hv b hb => ?_, hstate, by rw [ho, hlen]⟩
  refine (userByte_page hb).symm.trans ?_
  have hal := hvma.start_al
  rw [PGALIGNED_iff] at hal
  rw [hvpns] at hv
  obtain ⟨k, hk, rfl⟩ := List.mem_map.mp hv
  have hk := List.mem_range.mp hk
  rw [hbytes _ (by omega) (by omega), Nat.add_zero]
  rfl

/-- A round of the loop that clears the `.bss` clears nothing, or a page that is mapped. -/
def Clears (u : UserMem) (va : ℕ) : Prop := PGALIGNED va ∨ (u.perm (va / 4096)).isSome

/-- One round of the loop that clears the `.bss`. -/
theorem wp_clearPage_turned (h : Space L s A i mm u) (va : ℕ) :
    wp (clearPage L mm va) s
      (fun _ s' => (Space L s' A i mm (clear u va) ∧ Stays L (Foreign i) s.mem A s'.mem A) ∧
        s' = { s with mem := s'.mem } ∧ Clears u va)
      fun _ _ => MAXVA < PGROUNDDOWN va ∨ ¬ Clears u va := by
  unfold clearPage
  refine wp_seq (wp_mono (wp_walkaddr_page h.reps (.of_userMm h.user) va) (fun _ _ hQ => hQ)
    fun _ _ he => Or.inl he.2.2) ?_
  rintro f s₁ ⟨rfl, hva, ho⟩
  rw [sub_PGROUNDDOWN]
  have hround : PGROUNDUP va = (va + 4095) / 4096 * 4096 := by
    rw [PGROUNDDOWN_eq, MAXVA_eq] at hva
    exact PGROUNDUP_eq (by omega)
  have hsize : va % 4096 + (PGROUNDUP va - va) ≤ 4096 := by
    rw [hround]
    omega
  rcases ho with ⟨rfl, hn⟩ | hf
  · refine wp_kblit_null (by omega) (fun h0 => ?_) fun h0 => Or.inr ?_
    · unfold clear
      rw [h0, UserMem.write_zero]
      refine ⟨⟨h, Stays.refl _ s₁.mem A⟩, rfl, Or.inl ?_⟩
      rw [hround] at h0
      rw [PGALIGNED_iff]
      omega
    · rintro (hal | hs)
      · rw [PGALIGNED_iff] at hal
        rw [hround] at h0
        omega
      · exact hn (userPte_of_frame (h.sees.frame hs))
  · refine wp_kblit hf.frame rfl hsize ?_
    obtain ⟨hst, hw⟩ := stored_page (fun _ => 0) h.reps hf hsize
    have hlt : va / 4096 < NVPN := by
      have := hf.lt
      rw [NVPN_eq]
      omega
    exact ⟨⟨⟨hw.reps, h.user, h.sees.write h.reps.ok hst hw⟩,
      stays_of_user h.reps h.user (wrote_user hw)⟩, rfl,
      Or.inr ((h.sees.isSome_iff hlt).mpr (userPte_of_frame hf))⟩

/-- **The loop that clears the `.bss`.** -/
theorem wp_clearPages_turned : ∀ (vas : List ℕ) {s : KState} {u : UserMem}, Space L s A i mm u →
    wp (forM vas (clearPage L mm)) s
      (fun _ s' => (Space L s' A i mm (vas.foldl clear u) ∧
          Stays L (Foreign i) s.mem A s'.mem A) ∧
        s' = { s with mem := s'.mem } ∧ ∀ va ∈ vas, Clears u va)
      fun _ _ => ∃ va ∈ vas, MAXVA < PGROUNDDOWN va ∨ ¬ Clears u va
  | [], s, u, h => ⟨⟨h, Stays.refl _ s.mem A⟩, rfl, by simp⟩
  | va :: vas, s, u, h => by
    rw [List.forM_cons]
    refine wp_seq (wp_mono (wp_clearPage_turned h va) (fun _ _ hQ => hQ) fun _ _ he =>
      ⟨va, by simp, he⟩) ?_
    rintro _ s₁ ⟨⟨h₁, hs⟩, hstate, hva⟩
    refine wp_mono (wp_clearPages_turned vas h₁) ?_ ?_
    · rintro _ s' ⟨⟨h', hs'⟩, hstate', hvas⟩
      refine ⟨⟨h', hs.trans hs'⟩, by rw [hstate] at hstate'; exact hstate', fun w hw => ?_⟩
      rcases List.mem_cons.mp hw with rfl | hw
      · exact hva
      · exact hvas w hw
    · rintro _ _ ⟨w, hw, he⟩
      exact ⟨w, by simp [hw], he⟩

/-- The part of `loadSegment` after `mm_mappages`. -/
theorem keeps_segmentRest {R : KState → KState → Prop} [PageStep R] (mm : Mm) (phdr : Phdr)
    (vas : List ℕ) : Keeps R (do
      let fileRemains ← loadPages L elf mm phdr vas 0 phdr.pFilesz
      if phdr.pFilesz < phdr.pMemsz then
        let bssStart := (phdr.pVaddr + phdr.pFilesz) % 2 ^ 64
        let bssEnd := (phdr.pVaddr + phdr.pMemsz) % 2 ^ 64
        forM (pagesFrom bssStart bssEnd) (clearPage L mm)
      ensure (fileRemains = 0) (.assertion "file_remains == 0")
      return mm : KM Mm) := by
  refine (keeps_loadPages _ _ _ _ _ _).bind fun _ => Keeps.ite ?_ ?_
  · exact (keeps_forM (fun _ => keeps_clearPage _ _) _).bind fun _ =>
      (keeps_ensure _ _).bind fun _ => keeps_pure _
  · exact (keeps_ensure _ _).bind fun _ => keeps_pure _

theorem keeps_loadSegment {R : KState → KState → Prop} [ObjectStep R] (mm : Mm) (phdr : Phdr) :
    Keeps R (loadSegment L elf mm phdr) :=
  keeps_kallocVma.bind fun _ => (keeps_mmMappages _ _).bind fun _ =>
    Keeps.ite (keeps_throw _) (keeps_segmentRest _ _ _)

theorem keeps_loadSegments {R : KState → KState → Prop} [ObjectStep R] (elf : Image) :
    ∀ (phdrs : List Phdr) (mm : Mm) (maxVaEnd : ℕ), Keeps R (loadSegments L elf mm maxVaEnd phdrs)
  | [], _, _ => keeps_pure _
  | phdr :: phdrs, mm, maxVaEnd => by
    rw [loadSegments]
    exact Keeps.ite (keeps_loadSegments elf phdrs mm maxVaEnd)
      ((keeps_loadSegment mm phdr).bind fun _ => keeps_loadSegments elf phdrs _ _)

/-- **One segment.** -/
theorem wet_loadSegment (h : Space L s A i mm u) (phdr : Phdr) :
    wet (loadSegment L elf mm phdr) s fun mm' s' =>
      Turned L i s.mem A s' mm' (putSegment elf u phdr) := by
  have hfl := (segmentPerm_flags phdr.pFlags).1
  refine wet_mapNew h (segmentVma phdr) hfl (fun o =>
    logGrows_iff.mpr (Keeps.ite (keeps_throw _) (keeps_segmentRest _ _ _))) ?_
  rintro ⟨o, mm'⟩ s₁ hmap
  show wet (if o ≠ 0 then _ else _) s₁ _
  by_cases h0 : o = 0
  swap
  · rw [if_pos h0]
    exact wp_throw.mpr trivial
  rw [if_neg (not_not.mpr h0)]
  obtain rfl : mm' = _ := hmap.list h0
  have h' := h.objs s.mmObjs (s.vmaObjs + 1)
  refine wet_of_wp (E := fun _ _ => True) ((wp_loadPages_turned h' (hmap.valid h0) (hmap.supplied h0)
    (hmap.leads h0)).seq ?_)
  rintro rem s₂ ⟨⟨hB, hs⟩, -, -⟩
  unfold putSegment
  by_cases hbss : phdr.pFilesz < phdr.pMemsz
  · rw [if_pos hbss]
    refine wp_seq (wp_mono (wp_clearPages_turned _ hB) (fun _ _ hQ => hQ) fun _ _ _ => trivial) ?_
    rintro _ s₃ ⟨⟨hC, hs'⟩, -⟩
    refine wp_bind.mpr (wp_ensure.mpr ⟨fun _ => ?_, fun _ => trivial⟩)
    dsimp only
    rw [if_pos hbss]
    exact ⟨_, hC, hs.trans hs'⟩
  · rw [if_neg hbss]
    refine wp_bind.mpr (wp_ensure.mpr ⟨fun _ => ?_, fun _ => trivial⟩)
    dsimp only
    rw [if_neg hbss]
    exact hs.turned hB.turned

/-- **All segments.** -/
theorem wet_loadSegments : ∀ (phdrs : List Phdr) {s : KState} {A : View ι} {mm : Mm} {u : UserMem}
    (maxVaEnd : ℕ), Space L s A i mm u →
    wet (loadSegments L elf mm maxVaEnd phdrs) s fun o s' => Turned L i s.mem A s' o.1
      ((phdrs.filter fun phdr => phdr.pType = PT_LOAD).foldl (putSegment elf) u)
  | [], s, A, mm, u, _, h => fun _ => h.turned
  | phdr :: phdrs, s, A, mm, u, maxVaEnd, h => by
    rw [loadSegments]
    by_cases hty : phdr.pType = PT_LOAD
    · rw [if_neg (not_not.mpr hty), List.filter_cons_of_pos (by simpa using hty), List.foldl_cons]
      refine (wet_loadSegment h phdr).seq (fun mm' => ?_) ?_
      · exact logGrows_iff.mpr (keeps_loadSegments elf phdrs _ _)
      rintro mm' s₁ - ⟨B, hB, hs⟩
      exact (wet_loadSegments phdrs _ hB).imp fun _ _ ht => hs.turned ht
    · rw [if_pos hty, List.filter_cons_of_neg (by simpa using hty)]
      exact wet_loadSegments phdrs maxVaEnd h

/-! ### The stack -/

/-- The loop that clears the stack, page by page. -/
theorem wp_clearStackPages {r : ℕ} (hr : A.tbl i [] = some r) (hpgt : mm.pgt = PA_TO_KVA r)
    {vas : List ℕ} (hal : ∀ va ∈ vas, PGALIGNED va)
    (hu : ∀ v ∈ vas.map (· / 4096), UserFrame L A i v (PTE2PA (A.pte i v))) (h : Reps L s A) :
    wpOk (forM vas (clearStackPage L mm)) s fun _ s' => s' = { s with mem := s'.mem } ∧ Reps L s' A ∧
      SameOff (targets A i (vas.map (· / 4096))) s.mem s'.mem ∧
      ∀ v ∈ vas.map (· / 4096), ∀ o < 4096, s'.mem (PTE2PA (A.pte i v) + o) = 0 := by
  -- the pages that are not to come are clear
  let I : List ℕ → KState → Prop := fun l s' => (∀ va ∈ l, va ∈ vas) ∧
    s' = { s with mem := s'.mem } ∧ Reps L s' A ∧
    SameOff (targets A i (vas.map (· / 4096))) s.mem s'.mem ∧
    ∀ v ∈ vas.map (· / 4096), v ∉ l.map (· / 4096) →
      ∀ o < 4096, s'.mem (PTE2PA (A.pte i v) + o) = 0
  have hstep : ∀ va l s₁, I (va :: l) s₁ → wpOk (clearStackPage L mm va) s₁ fun _ s' => I l s' := by
    rintro va l s₁ ⟨hsub, hstate, hs₁, hm, hz⟩
    have hva := hsub va (by simp)
    have hf := hu (va / 4096) (List.mem_map_of_mem hva)
    unfold clearStackPage
    refine (wp_walkaddr_user hs₁ hr hpgt (hal va hva) hf).seq ?_
    rintro f s₂ ⟨rfl, rfl⟩
    rw [PGSIZE_eq]
    refine wp_memset hf.frame (o := 0) (Nat.add_zero _).symm (by omega) ?_
    rw [Nat.add_zero]
    have hone : SameOff {PTE2PA (A.pte i (va / 4096))} s₂.mem
        (fill s₂.mem (PTE2PA (A.pte i (va / 4096))) 4096 0) := sameOff_blit rfl le_rfl le_rfl
    have hzero : ∀ o < 4096, fill s₂.mem (PTE2PA (A.pte i (va / 4096))) 4096 0
        (PTE2PA (A.pte i (va / 4096)) + o) = 0 := fun o ho => blit_of_mem (by omega) (by omega)
    generalize fill s₂.mem (PTE2PA (A.pte i (va / 4096))) 4096 0 = m at hone hzero
    refine ⟨fun w hw => hsub w (by simp [hw]), by rw [hstate], reps_of_userPage hs₁ hf hone,
      hm.trans (hone.mono ?_), fun v hv hl o ho => ?_⟩
    · rintro _ rfl
      exact ⟨va / 4096, List.mem_map_of_mem hva, rfl⟩
    · have hfv := hu v hv
      by_cases hvva : v = va / 4096
      · subst hvva
        exact hzero o ho
      · show m _ = 0
        rw [hone.page (by rintro _ rfl; exact hf.frame.aligned) hfv.frame.aligned
          (fun he => hvva ?_) ⟨by omega, by omega⟩]
        · refine hz v hv ?_ o ho
          rw [List.map_cons, List.mem_cons]
          exact fun hc => hc.elim hvva hl
        · rw [Set.mem_singleton_iff] at he
          rw [he] at hfv
          exact (hfv.unique hf hs₁.ok).2
  have hloop : wpOk (forM vas (clearStackPage L mm)) s fun _ s' => I [] s' :=
    wp_forM I hstep vas s ⟨fun _ => id, rfl, h, SameOff.refl _ _, fun v hv hn => absurd hv hn⟩
  refine hloop.imp ?_
  rintro _ s' ⟨-, hstate, hs', hm, hz⟩
  exact ⟨hstate, hs', hm, fun v hv => hz v hv (by simp)⟩

/-- The clearing of the stack that was mapped. -/
theorem wp_clearStack (h : Space L s A i mm u) (hvma : Vma.Valid ustackVma)
    (hsup : Supplied A i ustackVma.pteFlags (vpns ustackVma))
    (hs₁ : Leads L s s₁ (mapPages i ustackVma.pteFlags (vpns ustackVma) A).1 (Kernel A)) :
    wpOk (forM (pages ustackVma.vmStart ustackVma.vmEnd)
      (clearStackPage L { mm with vma := ustackVma :: mm.vma })) s₁ fun _ s' =>
        (Space L s' (mapPages i ustackVma.pteFlags (vpns ustackVma) A).1 i
            { mm with vma := ustackVma :: mm.vma } (u.map ustackVma fun _ => 0) ∧
          Stays L (Foreign i) s.mem A s'.mem (mapPages i ustackVma.pteFlags (vpns ustackVma) A).1) ∧
        s' = { s₁ with mem := s'.mem } := by
  have hU : Has ustackVma.pteFlags PTE_U := by decide
  have hG := mapPages_grew (i := i) ustackVma.pteFlags (vpns ustackVma) A
  obtain ⟨r, hr, hpgt⟩ := h.user.listed.root
  have hpgt' : ({ mm with vma := ustackVma :: mm.vma } : Mm).pgt = PA_TO_KVA r := hpgt
  refine (wp_clearStackPages ((hG.root i).trans hr) hpgt'
    (fun va hva => aligned_of_mem_pages hvma.start_al hva)
    (fun v hv => userFrame_supplied h hvma hU hsup hv) hs₁.reps).imp ?_
  rintro _ s' ⟨hstate, hs', hm, hz⟩
  exact ⟨space_of_filled h hvma hU hsup hs₁.mem hs' hm hz, hstate⟩

/-! ### A process -/

/-- What a process consists of: its memory, and the registers in its trapframe by offset. -/
structure Task where
  mem : UserMem
  regs : Mem

/-- The address space `i` has the `mm`, its trapframe is the frame `tf`, and they are the task `t`. -/
structure Holds (L : Layout) (s : KState) (A : View ι) (i : ι) (mm : Mm) (tf : ℕ) (t : Task) :
    Prop where
  space : Space L s A i mm t.mem
  frame : L.Frame tf
  maps : Maps (A.pte i trapframeVpn) tf trapframeFlags
  regs : ∀ o < tfSize, s.mem (tf + o) = t.regs o

/-- From `m` with the view `A` to `s'` the process `i` became the task `t`, and the others stay. -/
def Became (L : Layout) (i : ι) (m : Mem) (A : View ι) (s' : KState) (mm : Mm) (tf : ℕ) (t : Task) :
    Prop := ∃ B : View ι, Holds L s' B i mm tf t ∧ Stays L (fun j _ => j ≠ i) m A s'.mem B

variable {tf : ℕ} {t : Task}

omit [DecidableEq ι] in
theorem Holds.owns (h : Holds L s A i mm tf t) : A.Owns L (.leaf i trapframeVpn) tf :=
  ⟨by decide, h.maps.valid, h.maps.target h.frame (by decide), h.frame⟩

omit [DecidableEq ι] in
/-- The memory of a process changes, and its registers stay. -/
theorem Holds.turned (h : Holds L s A i mm tf t) {mm' : Mm} {u : UserMem}
    (ht : Turned L i s.mem A s' mm' u) : Became L i s.mem A s' mm' tf { t with mem := u } := by
  obtain ⟨B, hB, hs⟩ := ht
  have hP : Foreign i i trapframeVpn := Or.inr rfl
  refine ⟨B, ⟨hB, h.frame, (hs.pte i _ hP).trans h.maps, fun o ho => ?_⟩,
    hs.mono fun j v hj => Or.inl hj⟩
  rw [hs.byte (.leaf i trapframeVpn) tf hP h.owns o (by unfold tfSize at ho; omega), h.regs o ho]

omit [DecidableEq ι] in
/-- A store into the trapframe. -/
theorem Holds.trapframe_blit (h : Holds L s A i mm tf t) {off n : ℕ} (src : ℕ → UInt8)
    (hn : off + n ≤ 4096) :
    Holds L { s with mem := blit s.mem (tf + off) n src } A i mm tf
        { t with regs := blit t.regs off n src } ∧
      Stays L (fun j _ => j ≠ i) s.mem A (blit s.mem (tf + off) n src) A := by
  have hone : SameOff {tf} s.mem (blit s.mem (tf + off) n src) :=
    sameOff_blit rfl (by omega) (by omega)
  have haway : ∀ o f, A.Owns L o f → o ≠ .leaf i trapframeVpn → ∀ k < 4096,
      blit s.mem (tf + off) n src (f + k) = s.mem (f + k) := fun o f hf hne k hk => by
    refine hone.page (by rintro _ rfl; exact h.frame.aligned) (h.space.reps.ok.frame o f hf).aligned
      (fun he => hne ?_) ⟨by omega, by omega⟩
    rw [Set.mem_singleton_iff] at he
    subst he
    exact h.space.reps.ok.uniq _ _ _ hf h.owns
  have hreps : Reps L { s with mem := blit s.mem (tf + off) n src } A :=
    h.space.reps.blit h.frame.aligned (not_kernel_of_leaf h.space.reps.ok h.owns) (by omega) (by omega)
  refine ⟨⟨⟨hreps, h.space.user, ?_⟩, h.frame, h.maps, fun o ho => ?_⟩, ?_⟩
  · refine ⟨h.space.sees.mapped, h.space.sees.unmapped, fun v hv o ho => ?_⟩
    have hu := h.space.sees.frame hv
    refine (haway (.leaf i v) _ hu.owns (fun he => ?_) o ho).trans (h.space.sees.byte v hv o ho)
    cases he
    exact h.space.user.trapframe.1.2.1 hu.user
  · have hr := h.regs o ho
    change blit s.mem (tf + off) n src (tf + o) = blit t.regs off n src o
    by_cases hin : off ≤ o ∧ o < off + n
    · rw [blit_of_mem (by omega) (by omega), blit_of_mem hin.1 hin.2]
      congr 1
      omega
    · rw [blit_of_not_mem (by omega), blit_of_not_mem hin, hr]
  · refine ⟨fun _ _ => rfl, rfl, fun _ _ _ => SameAD.refl _, fun o f ho hf => haway o f hf ?_⟩
    rintro rfl
    exact ho rfl

/-! ### load_user_elf -/

/-- The registers after `load_user_elf`. -/
def loadRegs (elf : Image) (regs : Mem) : Mem :=
  store (store regs tfSp 8 USTACK_START) tfEpc 8 (eEntry elf)

theorem clear_perm (u : UserMem) : ∀ vas : List ℕ, (vas.foldl clear u).perm = u.perm
  | [] => rfl
  | va :: vas => clear_perm (clear u va) vas

theorem segment_perm (elf : Image) (u : UserMem) (phdr : Phdr) :
    (putSegment elf u phdr).perm = (u.map (segmentVma phdr) (segByte elf phdr)).perm := by
  unfold putSegment
  dsimp only
  split_ifs
  · exact clear_perm _ _
  · rfl

theorem segments_perm {v : ℕ} : ∀ {phdrs : List Phdr} {u : UserMem},
    (∀ phdr ∈ phdrs, v ∉ vpns (segmentVma phdr)) →
    (phdrs.foldl (putSegment elf) u).perm v = u.perm v
  | [], _, _ => rfl
  | phdr :: phdrs, u, h => by
    rw [List.foldl_cons, segments_perm fun phdr' hp => h phdr' (by simp [hp]), segment_perm]
    exact if_neg (h phdr (by simp))

/-- The pages of the stack lie below the trapframe. -/
theorem ustack_lt {v : ℕ} (hv : v ∈ vpns ustackVma) : v < trapframeVpn := by
  rw [mem_vpns (by decide) (by decide)] at hv
  obtain ⟨-, hlt⟩ := hv
  change 4096 * v < 0xffff0000 at hlt
  unfold trapframeVpn
  omega

/-- The new break has no page. -/
theorem vpns_brk (maxVaEnd : ℕ) : vpns (brkVma maxVaEnd) = [] := vpns_of_le le_rfl

/-- The mapping of the break. -/
theorem space_of_brk {maxVaEnd k : ℕ} (h : Space L s A i mm u) (hvma : Vma.Valid (brkVma maxVaEnd))
    (hsup : Supplied A i (brkVma maxVaEnd).pteFlags (vpns (brkVma maxVaEnd)))
    (hs₁ : Leads L { s with vmaObjs := k } s₁
      (mapPages i (brkVma maxVaEnd).pteFlags (vpns (brkVma maxVaEnd)) A).1 (Kernel A)) :
    Space L s₁ (mapPages i (brkVma maxVaEnd).pteFlags (vpns (brkVma maxVaEnd)) A).1 i
        { mm with vma := brkVma maxVaEnd :: mm.vma } u ∧
      Stays L (Foreign i) s.mem A s₁.mem
        (mapPages i (brkVma maxVaEnd).pteFlags (vpns (brkVma maxVaEnd)) A).1 := by
  have hnil := vpns_brk maxVaEnd
  have ht := space_of_filled (c := u.byte) (h.objs s.mmObjs k) hvma (by
    show Has (PTE_R ||| PTE_W ||| PTE_U) PTE_U
    decide) hsup hs₁.mem hs₁.reps (SameOff.refl _ _) fun v hv => by
      rw [hnil] at hv
      cases hv
  rwa [UserMem.map_of_empty _ hnil] at ht

theorem MapsTo.turned_brk {maxVaEnd k : ℕ} {o : ℤ × Mm}
    (hmap : MapsTo L { s with vmaObjs := k } A i mm u (brkVma maxVaEnd) o s₁)
    (h : Space L s A i mm u) : Turned L i s.mem A s₁ o.2 u := by
  have h0 : o.1 = 0 := hmap.zero fun v hv => by
    rw [vpns_brk] at hv
    cases hv
  rw [hmap.list h0]
  exact ⟨_, space_of_brk h (hmap.valid h0) (hmap.supplied h0) (hmap.leads h0)⟩

/-- What follows the segments in `load_user_elf`. -/
theorem keeps_loadStack {R : KState → KState → Prop} [ObjectStep R] (p : Proc) (mm : Mm)
    (maxVaEnd : ℕ) : Keeps R (do
      kallocVma
      let (_, mm) ← mmMappages L mm ustackVma
      forM (pages ustackVma.vmStart ustackVma.vmEnd) (clearStackPage L mm)
      kwrite64 L (p.trapframe + tfSp) USTACK_START
      kwrite64 L (p.trapframe + tfEpc) (eEntry elf)
      return (0, { p with
        mm := some mm, vmaBrk := some (brkVma maxVaEnd), vmaUstack := some ustackVma,
        state := .runnable }) : KM (ℤ × Proc)) :=
  keeps_kallocVma.bind fun _ => (keeps_mmMappages _ _).bind fun _ =>
    (keeps_forM (fun _ => keeps_clearStackPage _ _) _).bind fun _ =>
      (keeps_kwrite64 _ _).bind fun _ => (keeps_kwrite64 _ _).bind fun _ => keeps_pure _

theorem keeps_loadUserElf {R : KState → KState → Prop} [ObjectStep R] (elf : Image) (p : Proc) :
    Keeps R (loadUserElf L elf p) := by
  unfold loadUserElf
  refine Keeps.ite (keeps_throw _) ?_
  cases p.mm with
  | none => exact keeps_throw _
  | some mm =>
    exact (keeps_loadSegments elf _ _ _).bind fun _ => keeps_kallocVma.bind fun _ =>
      (keeps_mmMappages _ _).bind fun _ => keeps_loadStack _ _ _

/-- **`load_user_elf` builds the memory of the image.** -/
theorem wet_loadUserElf {p : Proc} (hp : p.mm = some mm) (htf : p.trapframe = PA_TO_KVA tf)
    (h : Holds L s A i mm tf t) (hnew : ∀ v ∈ vpns ustackVma, t.mem.perm v = none)
    (hclear : StackClear elf) :
    wet (loadUserElf L elf p) s fun o s' => o.1 = 0 ∧ ∃ mm' vmaBrk,
      o.2 = { p with mm := some mm', vmaBrk, vmaUstack := some ustackVma, state := .runnable } ∧
      Became L i s.mem A s' mm' tf
        ⟨((loadable elf).foldl (putSegment elf) t.mem).map ustackVma fun _ => 0,
          loadRegs elf t.regs⟩ := by
  unfold loadUserElf
  by_cases hun : p.state = .unused
  · rw [if_pos hun]
    exact wp_throw.mpr trivial
  rw [if_neg hun, hp]
  refine (wet_loadSegments (phdrs elf) 0 h.space).seq (fun o => ?_) ?_
  · exact logGrows_iff.mpr (keeps_kallocVma.bind fun _ => (keeps_mmMappages _ _).bind fun _ =>
      keeps_loadStack _ _ _)
  rintro ⟨mm₁, maxVaEnd⟩ s₁ - ⟨A₁, h₁, hs₁⟩
  refine wet_mapNew h₁ (brkVma maxVaEnd) (show PTE_R ||| PTE_W ||| PTE_U < 1024 by decide)
    (fun o => logGrows_iff.mpr (keeps_loadStack _ _ _)) ?_
  rintro ⟨o, mm₂⟩ s₂ hbrk
  obtain ⟨A₂, h₂, hs₂⟩ := hbrk.turned_brk h₁
  refine wet_mapNew h₂ ustackVma (by decide) (fun o => ?_) ?_
  · exact logGrows_iff.mpr ((keeps_forM (fun _ => keeps_clearStackPage _ _) _).bind fun _ =>
      (keeps_kwrite64 _ _).bind fun _ => (keeps_kwrite64 _ _).bind fun _ => keeps_pure _)
  rintro ⟨o', mm₃⟩ s₃ hstack
  have h0 : o' = 0 := hstack.zero fun v hv => by
    refine ⟨?_, ustack_lt hv⟩
    exact (segments_perm fun phdr hp hv' => hclear phdr hp hv' hv).trans (hnew v hv)
  obtain rfl : mm₃ = _ := hstack.list h0
  refine wet_of_wp (E := fun _ _ => True) ((wp_clearStack (h₂.objs s₂.mmObjs (s₂.vmaObjs + 1))
    (hstack.valid h0) (hstack.supplied h0) (hstack.leads h0)).seq ?_)
  rintro _ s₄ ⟨ht, -⟩
  -- the two registers
  obtain ⟨B₁, hB₁, hs₄⟩ := h.turned ((hs₁.trans hs₂).turned ⟨_, ht⟩)
  obtain ⟨hB₂, hs₅⟩ := hB₁.trapframe_blit (fun k => UInt8.ofNat (USTACK_START / 256 ^ k))
    (show tfSp + 8 ≤ 4096 by decide)
  obtain ⟨hB₃, hs₆⟩ := hB₂.trapframe_blit (fun k => UInt8.ofNat (eEntry elf / 256 ^ k))
    (show tfEpc + 8 ≤ 4096 by decide)
  refine wp_bind.mpr (wp_kwrite64 h.frame (by rw [htf]) (by decide) ?_)
  refine wp_bind.mpr (wp_kwrite64 h.frame (by rw [htf]) (by decide) ?_)
  exact ⟨rfl, _, _, rfl, B₁, hB₃, (hs₄.trans hs₅).trans hs₆⟩

end UCore.Proc.LoadImage
