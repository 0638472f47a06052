import UCore.Proc.Replay

/-! # When the calls come back

With enough frames and objects `fork` comes back (`wp_fork_room`). `load_user_elf` panics on a page
fault where the clearing of the `.bss` starts within a page that is mapped by no segment so far. With
enough frames and objects, and segments that are as they should be and share no page, this is the only
way to fail: `load_init_app` and `execve` come back iff the headers of the image say so (`Loads`), and
an `execve` that does not panics when the memory of the program is gone (`exec_returns_iff`). -/

namespace UCore.Proc.Returns

open UCore.Lib.Bytes UCore.Lib.Hoare UCore.Riscv UCore.Mem.State UCore.Mem.Kalloc UCore.Mem.Boot
open UCore.Vm.Spaces UCore.Vm.Tables UCore.Vm.Growth UCore.Vm.Walk UCore.Vm.Map UCore.Vm.Refine
open UCore.Vm.VmaList UCore.Vm.Count UCore.Vm.Fill UCore.Vm.Copy UCore.Vm.History
open UCore.Vm.Process UCore.Vm.Family UCore.Vm.Lives UCore.Vm.Uaccess UCore.Vm.Flat
open UCore.Proc.State UCore.Proc.Loader UCore.Proc.LoadImage UCore.Proc.Tasks UCore.Proc.Replay

/-! ### Images -/

/-- What is asked of an image: its segments are as they should be, and no two of them share a page,
nor does one share a page with the stack. -/
structure ImageOk (elf : Image) : Prop where
  segments : ∀ phdr ∈ loadable elf, SegmentOk phdr
  disjoint : (loadable elf).Pairwise fun a b => (vpns (segmentVma a)).Disjoint (vpns (segmentVma b))
  stackClear : StackClear elf

/-- The `.bss` of a segment starts at a page boundary, or in a page of the segment or of an earlier
one. -/
def BssMapped (earlier : List Phdr) (phdr : Phdr) : Prop :=
  phdr.pFilesz < phdr.pMemsz → PGALIGNED (phdr.pVaddr + phdr.pFilesz) ∨
    ∃ q ∈ phdr :: earlier, (phdr.pVaddr + phdr.pFilesz) / 4096 ∈ vpns (segmentVma q)

/-- The `.bss` of every segment is mapped when it is cleared. -/
def Loads : List Phdr → List Phdr → Prop
  | _, [] => True
  | earlier, phdr :: phdrs => BssMapped earlier phdr ∧ Loads (phdr :: earlier) phdrs

/-- The frames and objects for the segments. -/
def segmentsCost (phdrs : List Phdr) : ℕ :=
  (phdrs.map fun phdr => 3 * (vpns (segmentVma phdr)).length + 1).sum

/-- The frames and objects for an image: those of the segments, and the break and the stack. -/
def loadCost (elf : Image) : ℕ := segmentsCost (loadable elf) + 26

/-- The frames and objects for a copy of the memory of `mm`, and for the new process. -/
def forkCost (mm : Mm) : ℕ := 3 * (listVpns mm.vma).length + mm.vma.length + 4

variable {L : Layout} {ι : Type} [DecidableEq ι] {s s₁ s' : KState} {A B : View ι} {i : ι} {mm : Mm}
  {u : UserMem} {elf : Image} {phdr : Phdr} {earlier : List Phdr} {n : ℕ}

/-! ### One segment -/

/-- The pages that are mapped are those of the segments so far. -/
def PermOf (u : UserMem) (earlier : List Phdr) : Prop :=
  ∀ v, (u.perm v).isSome ↔ ∃ q ∈ earlier, v ∈ vpns (segmentVma q)

theorem PermOf.segment (h : PermOf u earlier) (elf : Image) (phdr : Phdr) :
    PermOf (putSegment elf u phdr) (phdr :: earlier) := by
  intro v
  rw [segment_perm]
  change (if v ∈ vpns (segmentVma phdr) then some (segmentVma phdr).pteFlags else u.perm v).isSome ↔ _
  split_ifs with hv
  · simp [hv]
  · simp [hv, h v]

/-- The pages of a segment hold its memory. -/
theorem memsz_le (h : SegmentOk phdr) : phdr.pMemsz ≤ 4096 * (vpns (segmentVma phdr)).length := by
  obtain ⟨h1, h2, -, -⟩ := h.bounds
  unfold vpns pages
  rw [h1, h2, PGSIZE_eq, List.length_map, List.length_map, List.length_range]
  omega

theorem vpn_lt_of_segment (h : SegmentOk phdr) {v : ℕ} (hv : v ∈ vpns (segmentVma phdr)) :
    v < trapframeVpn := by
  obtain ⟨h1, h2, -, h4⟩ := h.bounds
  have hlt := ((mem_vpns h.valid.start_al h.valid.end_al).mp hv).2
  rw [h2] at hlt
  unfold trapframeVpn
  omega

/-- Only the first page that is cleared can fail. -/
theorem clears_start {start stop : ℕ} (hlt : start < stop) (hstop : stop ≤ MAXVA) :
    ((∃ va ∈ pagesFrom start stop, MAXVA < PGROUNDDOWN va ∨ ¬ Clears u va) → ¬ Clears u start) ∧
      start ∈ pagesFrom start stop := by
  have hmem : start ∈ pagesFrom start stop := by
    unfold pagesFrom
    rw [if_pos hlt]
    exact List.mem_cons_self
  refine ⟨?_, hmem⟩
  rintro ⟨va, hva, he⟩
  have hle : ∀ a < stop, ¬ MAXVA < PGROUNDDOWN a := fun a ha => by
    rw [PGROUNDDOWN_eq]
    omega
  unfold pagesFrom at hva
  rw [if_pos hlt] at hva
  rcases List.mem_cons.mp hva with rfl | hva
  · exact he.resolve_left (hle va hlt)
  · have hal : PGALIGNED (PGROUNDDOWN start + PGSIZE) := by
      rw [PGALIGNED_iff, PGROUNDDOWN_eq, PGSIZE_eq]
      omega
    exact absurd (Or.inl (aligned_of_mem_pages hal hva))
      (he.resolve_left (hle va (lt_of_mem_pages hva)))

/-- `Clears` in the memory with the new segment. -/
theorem clears_iff (phdr : Phdr) (hperm : PermOf u earlier) (c : ℕ → UInt8) (va : ℕ) :
    Clears (u.map (segmentVma phdr) c) va ↔
      PGALIGNED va ∨ ∃ q ∈ phdr :: earlier, va / 4096 ∈ vpns (segmentVma q) := by
  unfold Clears
  refine or_congr_right ?_
  change (if va / 4096 ∈ vpns (segmentVma phdr) then some (segmentVma phdr).pteFlags
    else u.perm (va / 4096)).isSome ↔ _
  split_ifs with hv
  · simp [hv]
  · simp [hv, hperm (va / 4096)]

/-- A new vma is mapped with room. -/
theorem mapNew_room {β : Type} {f : ℤ × Mm → KM β} {Q : β → KState → Prop}
    {E : Panic → KState → Prop} (h : Space L s A i mm u) {vma : Vma} (hvma : Vma.Valid vma)
    (hnew : ∀ v ∈ vpns vma, u.perm v = none ∧ v < trapframeVpn)
    (hroom : Room L s (n + 3 * (vpns vma).length + 1))
    (hQ : ∀ s₁, Supplied A i vma.pteFlags (vpns vma) →
      Leads L { s with vmaObjs := s.vmaObjs + 1 } s₁ (mapPages i vma.pteFlags (vpns vma) A).1
        (Kernel A) →
      (∀ s₂ : KState, Reps L s₂ (mapPages i vma.pteFlags (vpns vma) A).1 →
        s₂ = { s₁ with mem := s₂.mem } → Room L s₂ n) →
      wp (f (0, { mm with vma := vma :: mm.vma })) s₁ Q E) :
    wp (kallocVma >>= fun _ => mmMappages L mm vma >>= f) s Q E := by
  obtain ⟨hdry, hlen⟩ := hroom.view h.reps
  have hobj := hroom.vmaObjs
  have hobj' := hroom.mmObjs
  refine wp_bind.mpr (wp_kallocVma (fun _ => ?_) fun hn => absurd (by omega) hn)
  have h' := h.objs s.mmObjs (s.vmaObjs + 1)
  obtain ⟨r, hr, hpgt⟩ := h'.user.listed.root
  have hmiss := missing_le (A.tbl i) (vpns vma)
  have hneed : needed (A.tbl i) (vpns vma) ≤ A.free.length := by
    unfold needed
    omega
  have hclear : ∀ v ∈ vpns vma, ¬ Has (A.pte i v) PTE_V := fun v hv =>
    h.not_valid (hnew v hv).1 (hnew v hv).2
  obtain ⟨hmap, hdry', hok⟩ := wp_mmMappages_enough h'.reps hr hpgt hvma hdry hclear hneed
  have hcount := (mapPages_count hmap hdry').1
  refine hok.seq ?_
  rintro o s₁ ⟨rfl, hs₁⟩
  refine hQ s₁ (supplied_of_wet hmap hdry') hs₁ fun s₂ hs₂ hstate =>
    room_of_view hs₂ hdry' (by omega) ?_ ?_
  · rw [hstate]
    show s₁.mmObjs + n ≤ _
    rw [hs₁.mmObjs]
    show s.mmObjs + n ≤ _
    omega
  · rw [hstate]
    show s₁.vmaObjs + n ≤ _
    rw [hs₁.vmaObjs]
    show s.vmaObjs + 1 + n ≤ _
    omega

/-- What the segments leave that are loaded with room. -/
structure Loaded (L : Layout) (n : ℕ) (i : ι) (m : Mem) (A : View ι) (s' : KState) (mm : Mm)
    (vmas : List Vma) (u : UserMem) : Prop where
  room : Room L s' n
  list : mm.vma = vmas
  turned : Turned L i m A s' mm u

/-- **One segment.** -/
theorem wp_loadSegment_room (h : Space L s A i mm u) (hseg : SegmentOk phdr)
    (hperm : PermOf u earlier)
    (hnew : ∀ q ∈ earlier, (vpns (segmentVma q)).Disjoint (vpns (segmentVma phdr)))
    (hroom : Room L s (n + (3 * (vpns (segmentVma phdr)).length + 1))) :
    wp (loadSegment L elf mm phdr) s
      (fun mm' s' => BssMapped earlier phdr ∧ Loaded L n i s.mem A s' mm'
        (segmentVma phdr :: mm.vma) (putSegment elf u phdr))
      fun _ _ => ¬ BssMapped earlier phdr := by
  have hvma := hseg.valid
  refine mapNew_room h hvma (fun v hv => ⟨?_, vpn_lt_of_segment hseg hv⟩) hroom ?_
  · rw [← Option.not_isSome_iff_eq_none, hperm v]
    rintro ⟨q, hq, hv'⟩
    exact hnew q hq hv' hv
  intro s₁ hsup hs₁ hroom'
  show wp (if (0 : ℤ) ≠ 0 then _ else _) s₁ _ _
  rw [if_neg (not_not.mpr rfl)]
  refine (wp_loadPages_turned (h.objs s.mmObjs (s.vmaObjs + 1)) hvma hsup hs₁).seq ?_
  rintro rem s₂ ⟨⟨hB, hs⟩, hstate, hrem⟩
  have hrem0 : rem = 0 := by
    have h1 := hseg.filesz_le
    have h2 := memsz_le hseg
    omega
  have hroom₂ := hroom' s₂ hB.reps hstate
  unfold putSegment
  by_cases hbss : phdr.pFilesz < phdr.pMemsz
  swap
  · rw [if_neg hbss]
    refine wp_bind.mpr (wp_ensure.mpr ⟨fun _ => ?_, fun hn => absurd hrem0 hn⟩)
    dsimp only
    rw [if_neg hbss]
    exact ⟨fun hc => absurd hc hbss, hroom₂, rfl, _, hB, hs⟩
  rw [if_pos hbss]
  have hend := hseg.end_le
  rw [TRAPFRAME_eq] at hend
  rw [Nat.mod_eq_of_lt (show phdr.pVaddr + phdr.pFilesz < 2 ^ 64 by omega),
    Nat.mod_eq_of_lt (show phdr.pVaddr + phdr.pMemsz < 2 ^ 64 by omega)]
  obtain ⟨hfail, hstart⟩ := clears_start (u := u.map (segmentVma phdr) (segByte elf phdr))
    (show phdr.pVaddr + phdr.pFilesz < phdr.pVaddr + phdr.pMemsz by omega)
    (show phdr.pVaddr + phdr.pMemsz ≤ MAXVA by rw [MAXVA_eq]; omega)
  have hiff := clears_iff phdr hperm (segByte elf phdr) (phdr.pVaddr + phdr.pFilesz)
  refine wp_seq (wp_mono (wp_clearPages_turned _ hB) (fun _ _ hQ => hQ) fun _ _ he hm =>
    hfail he (hiff.mpr (hm hbss))) ?_
  rintro _ s₃ ⟨⟨hC, hs'⟩, hstate', hall⟩
  refine wp_bind.mpr (wp_ensure.mpr ⟨fun _ => ?_, fun hn => absurd hrem0 hn⟩)
  dsimp only
  rw [if_pos hbss]
  refine ⟨fun _ => hiff.mp (hall _ hstart), hroom' s₃ hC.reps ?_, rfl, _, hC, hs.trans hs'⟩
  rw [hstate] at hstate'
  exact hstate'

/-! ### All segments -/

omit [DecidableEq ι] in
theorem Loaded.after {mm' : Mm} {vmas : List Vma} {u' : UserMem}
    (h : Loaded L n i s₁.mem B s' mm' vmas u') (hs : Stays L (Foreign i) s.mem A s₁.mem B) :
    Loaded L n i s.mem A s' mm' vmas u' := ⟨h.room, h.list, hs.turned h.turned⟩

/-- The end of a segment, as `load_user_elf` computes it. -/
theorem segment_end (h : SegmentOk phdr) : PGALIGNED (PGROUNDUP (phdr.pVaddr + phdr.pMemsz)) ∧
    PGROUNDUP (phdr.pVaddr + phdr.pMemsz) ≤ TRAPFRAME := by
  have hend := h.end_le
  rw [TRAPFRAME_eq] at hend ⊢
  rw [PGALIGNED_iff, PGROUNDUP_eq (by omega)]
  omega

/-- **All segments.** -/
theorem wp_loadSegments_room : ∀ (phdrs : List Phdr) {s : KState} {A : View ι} {mm : Mm} {u : UserMem}
    {earlier : List Phdr} {maxVaEnd : ℕ}, Space L s A i mm u →
    (∀ phdr ∈ phdrs.filter fun phdr => phdr.pType = PT_LOAD, SegmentOk phdr) →
    (earlier ++ phdrs.filter fun phdr => phdr.pType = PT_LOAD).Pairwise
      (fun a b => (vpns (segmentVma a)).Disjoint (vpns (segmentVma b))) → PermOf u earlier →
    PGALIGNED maxVaEnd → maxVaEnd ≤ TRAPFRAME →
    Room L s (n + segmentsCost (phdrs.filter fun phdr => phdr.pType = PT_LOAD)) →
    wp (loadSegments L elf mm maxVaEnd phdrs) s
      (fun o s' => Loads earlier (phdrs.filter fun phdr => phdr.pType = PT_LOAD) ∧
        (PGALIGNED o.2 ∧ o.2 ≤ TRAPFRAME) ∧ Loaded L n i s.mem A s' o.1
          (((phdrs.filter fun phdr => phdr.pType = PT_LOAD).reverse.map segmentVma) ++ mm.vma)
          ((phdrs.filter fun phdr => phdr.pType = PT_LOAD).foldl (putSegment elf) u))
      fun _ _ => ¬ Loads earlier (phdrs.filter fun phdr => phdr.pType = PT_LOAD)
  | [], s, A, mm, u, earlier, maxVaEnd, h, _, _, _, hal, hle, hroom =>
    ⟨trivial, ⟨hal, hle⟩, hroom, rfl, h.turned⟩
  | phdr :: phdrs, s, A, mm, u, earlier, maxVaEnd, h, hseg, hdisj, hperm, hal, hle, hroom => by
    rw [loadSegments]
    by_cases hty : phdr.pType = PT_LOAD
    swap
    · rw [List.filter_cons_of_neg (by simpa using hty)] at hseg hdisj hroom ⊢
      rw [if_pos hty]
      exact wp_loadSegments_room phdrs h hseg hdisj hperm hal hle hroom
    rw [List.filter_cons_of_pos (by simpa using hty)] at hseg hdisj hroom ⊢
    rw [if_neg (not_not.mpr hty), List.foldl_cons]
    have hok := hseg phdr (by simp)
    obtain ⟨-, hdisj', hcross⟩ := List.pairwise_append.mp hdisj
    have hcost : Room L s (n + segmentsCost (phdrs.filter fun phdr => phdr.pType = PT_LOAD) +
        (3 * (vpns (segmentVma phdr)).length + 1)) := by
      unfold segmentsCost at hroom ⊢
      rw [List.map_cons, List.sum_cons] at hroom
      refine hroom.mono (le_of_eq ?_)
      omega
    refine wp_seq (wp_mono (wp_loadSegment_room h hok hperm (fun q hq => hcross q hq phdr (by simp))
      hcost) (fun _ _ hQ => hQ) fun _ _ hn hl => hn hl.1) ?_
    rintro mm' s₁ ⟨hmapped, hroom₁, hlist, B, hB, hs⟩
    obtain ⟨hal', hle'⟩ := segment_end hok
    have hmax : PGALIGNED (max maxVaEnd (PGROUNDUP (phdr.pVaddr + phdr.pMemsz))) ∧
        max maxVaEnd (PGROUNDUP (phdr.pVaddr + phdr.pMemsz)) ≤ TRAPFRAME := by
      rcases max_choice maxVaEnd (PGROUNDUP (phdr.pVaddr + phdr.pMemsz)) with he | he
      · rw [he]
        exact ⟨hal, hle⟩
      · rw [he]
        exact ⟨hal', hle'⟩
    have hpair : (phdr :: earlier ++ phdrs.filter fun phdr => phdr.pType = PT_LOAD).Pairwise
        (fun a b => (vpns (segmentVma a)).Disjoint (vpns (segmentVma b))) := by
      refine List.Perm.pairwise ?_ hdisj fun {a b} hab => hab.symm
      exact List.perm_middle
    refine wp_mono (wp_loadSegments_room phdrs hB (fun q hq => hseg q (by simp [hq])) hpair
      (hperm.segment elf phdr) hmax.1 hmax.2 hroom₁) ?_ fun _ _ hn hl => hn hl.2
    rintro o s' ⟨hl, hend, hloaded⟩
    rw [hlist] at hloaded
    rw [List.reverse_cons, List.map_append, List.append_assoc]
    exact ⟨⟨hmapped, hl⟩, hend, hloaded.after hs⟩

/-! ### The image -/

theorem ustackVma_valid : Vma.Valid ustackVma where
  start_le := by decide
  end_le := by decide
  start_al := by decide
  end_al := by decide
  perm := by decide
  flags := by decide

theorem brkVma_valid {maxVaEnd : ℕ} (hal : PGALIGNED maxVaEnd) (hle : maxVaEnd ≤ TRAPFRAME) :
    Vma.Valid (brkVma maxVaEnd) := by
  have hmax : maxVaEnd ≤ MAXVA := hle.trans TRAPFRAME_le
  refine ⟨hmax, hmax, hal, hal, ?_, ?_⟩
  · refine Or.inl ?_
    show Has (PTE_R ||| PTE_W ||| PTE_U) PTE_R
    decide
  · show PTE_R ||| PTE_W ||| PTE_U < 1024
    decide

omit [DecidableEq ι] in
/-- The room in a state that differs in the bytes of frames in use. -/
theorem room_of_holds {tf : ℕ} {t : Task} (h : Room L s n) (hh : Holds L s A i mm tf t) {off k : ℕ}
    (src : ℕ → UInt8) (hk : off + k ≤ 4096) :
    Room L { s with mem := blit s.mem (tf + off) k src } n := by
  obtain ⟨hdry, hlen⟩ := h.view hh.space.reps
  exact room_of_view (hh.trapframe_blit src hk).1.space.reps hdry hlen h.mmObjs h.vmaObjs

theorem segmentsCost_eq (phdrs : List Phdr) : segmentsCost phdrs =
    3 * (listVpns (phdrs.map segmentVma)).length + phdrs.length := by
  induction phdrs with
  | nil => rfl
  | cons phdr phdrs ih =>
    unfold segmentsCost at ih ⊢
    rw [List.map_cons, List.sum_cons, ih, List.map_cons, listVpns_cons, List.length_append,
      List.length_cons]
    omega

theorem segmentsCost_reverse (phdrs : List Phdr) :
    segmentsCost phdrs.reverse = segmentsCost phdrs := by
  unfold segmentsCost
  rw [List.map_reverse, List.sum_reverse]

/-- A copy of what was loaded takes as much as the load. -/
theorem forkCost_loaded {maxVaEnd r k : ℕ} {vmas : List Vma}
    (h : vmas = (loadable elf).reverse.map segmentVma) :
    forkCost ⟨r, ustackVma :: brkVma maxVaEnd :: vmas, k⟩ = loadCost elf + 4 := by
  have hstack : (vpns ustackVma).length = 8 := by decide
  have hcost := segmentsCost_eq (loadable elf).reverse
  rw [segmentsCost_reverse] at hcost
  unfold forkCost loadCost
  rw [hcost, h]
  show 3 * (listVpns (ustackVma :: brkVma maxVaEnd :: _)).length + (_ + 1 + 1) + 4 = _
  rw [listVpns_cons, listVpns_cons, vpns_brk, List.nil_append, List.length_append, hstack,
    List.length_map]
  omega

/-- **`load_user_elf` with room**: it comes back iff the `.bss` of every segment is mapped. -/
theorem wp_loadUserElf_room {p : Proc} {tf : ℕ} {regs : Mem} (hp : p.mm = some mm)
    (htf : p.trapframe = PA_TO_KVA tf) (hstate : p.state ≠ .unused)
    (h : Holds L s A i mm tf ⟨.empty, regs⟩) (helf : ImageOk elf) (hroom : Room L s (n + loadCost elf)) :
    wp (loadUserElf L elf p) s
      (fun o s' => Loads [] (loadable elf) ∧ Room L s' n ∧
        (mm.vma = [] → ∃ mm', o.2.mm = some mm' ∧ forkCost mm' = loadCost elf + 4))
      fun _ _ => ¬ Loads [] (loadable elf) := by
  have hroom₀ : Room L s (n + 26 + segmentsCost (loadable elf)) := by
    unfold loadCost at hroom
    exact hroom.mono (le_of_eq (by omega))
  unfold loadUserElf
  rw [if_neg hstate, hp]
  refine wp_seq (wp_mono (wp_loadSegments_room (phdrs elf) h.space helf.segments helf.disjoint
    (fun v => by simp [UserMem.empty]) (by decide) (Nat.zero_le _) hroom₀) (fun _ _ hQ => hQ)
    fun _ _ hE => hE) ?_
  rintro ⟨mm₁, maxVaEnd⟩ s₁ ⟨hl, ⟨hal, hle⟩, hroom₁, hlist, A₁, h₁, hs₁⟩
  -- the break
  have hnil := vpns_brk maxVaEnd
  refine mapNew_room (n := n + 25) h₁ (brkVma_valid hal hle) (fun v hv => ?_) ?_ ?_
  · rw [hnil] at hv
    cases hv
  · rw [hnil]
    exact hroom₁
  intro s₂ hsup₂ hlead₂ hroom₂
  obtain ⟨h₂, hs₂⟩ := space_of_brk h₁ (brkVma_valid hal hle) hsup₂ hlead₂
  -- the stack
  refine mapNew_room (n := n) h₂ ustackVma_valid (fun v hv => ⟨?_, ustack_lt hv⟩)
    (hroom₂ s₂ hlead₂.reps rfl) ?_
  · exact segments_perm fun phdr hphdr hv' => helf.stackClear phdr hphdr hv' hv
  intro s₃ hsup₃ hlead₃ hroom₃
  refine (wp_clearStack (h₂.objs s₂.mmObjs (s₂.vmaObjs + 1)) ustackVma_valid hsup₃ hlead₃).seq ?_
  rintro _ s₄ ⟨⟨h₄, hs₄⟩, hstate₄⟩
  have hroom₄ := hroom₃ s₄ h₄.reps hstate₄
  -- the two registers
  obtain ⟨B₁, hB₁, -⟩ := h.turned ((hs₁.trans hs₂).turned ⟨_, h₄, hs₄⟩)
  have hsp : tfSp + 8 ≤ 4096 := by decide
  have hepc : tfEpc + 8 ≤ 4096 := by decide
  refine wp_bind.mpr (wp_kwrite64 h.frame (by rw [htf]) hsp ?_)
  refine wp_bind.mpr (wp_kwrite64 h.frame (by rw [htf]) hepc ?_)
  have hroom₅ := room_of_holds hroom₄ hB₁ (fun k => UInt8.ofNat (USTACK_START / 256 ^ k)) hsp
  refine ⟨hl, room_of_holds hroom₅ (hB₁.trapframe_blit _ hsp).1
    (fun k => UInt8.ofNat (eEntry elf / 256 ^ k)) hepc, fun hempty => ⟨_, rfl, ?_⟩⟩
  change mm₁.vma = _ at hlist
  rw [hempty, List.append_nil] at hlist
  exact forkCost_loaded hlist

/-! ### load_init_app and execve -/

/-- **`allocproc` with room.** -/
theorem wp_allocproc_room (hA : Reps L s A) (i : ι) (pid : ℤ) (hroom : Room L s (n + 4)) :
    wpOk (allocproc L pid) s fun _ s' => Room L s' n := by
  obtain ⟨hdry, hlen⟩ := hroom.view hA
  have hmm := hroom.mmObjs
  have hvma := hroom.vmaObjs
  unfold allocproc
  refine wp_seq (wp_mono (wp_and (wp_allocMm_enough hA i hdry (by omega) (by omega) (by omega))
    (wet_allocMm_made hA i)) (fun _ _ hQ => hQ) fun _ _ hE => hE.1) ?_
  rintro o s₁ ⟨⟨hm, hv, B, hB, hBdry, hBlen⟩, hmade⟩
  have hroom₁ : Room L s₁ n := room_of_view hB hBdry (by omega) (by omega) (by omega)
  obtain ⟨C, hC⟩ := hmade hroom₁.wet
  refine wp_bind.mpr (wp_memset hC.holds.frame (Nat.add_zero _).symm (by rw [PGSIZE_eq]) ?_)
  rw [PGSIZE_eq]
  exact room_of_holds hroom₁ hC.holds _ (by omega)

/-- **`load_init_app` with room.** -/
theorem wp_loadInitApp_room (hA : Reps L s A) (i : ι) (pid : ℤ) (helf : ImageOk elf)
    (hroom : Room L s (n + (loadCost elf + 4))) :
    wp (loadInitApp L elf pid) s (fun p s' => Loads [] (loadable elf) ∧ Room L s' n ∧
        ∃ mm, p.mm = some mm ∧ forkCost mm = loadCost elf + 4)
      fun _ _ => ¬ Loads [] (loadable elf) := by
  unfold loadInitApp
  refine wp_seq (wp_mono (wp_and (wp_allocproc_room (n := n + loadCost elf) hA i pid hroom)
    (wet_allocproc hA i pid)) (fun _ _ hQ => hQ) fun _ _ hE => hE.1.elim) ?_
  rintro p s₁ ⟨hroom₁, hmade⟩
  obtain ⟨B, mm, tf, hp, hfresh, -⟩ := hmade hroom₁.wet
  exact wp_seq (wp_loadUserElf_room hp.hasMm hp.trapframe hp.inUse hp.holds helf hroom₁)
    fun _ _ hQ => ⟨hQ.1, hQ.2.1, hQ.2.2 hfresh.list⟩

/-- **`fork` with room.** -/
theorem wp_fork_room {j : ι} {p : Proc} {tf : ℕ} {t : Task} (hij : i ≠ j)
    (hp : Runs L s A i p mm tf t) (parent : ℕ) (pid : ℤ) (hroom : Room L s (forkCost mm)) :
    wpOk (Tasks.fork L p parent pid) s fun _ s' => Room L s' 0 := by
  have hA := hp.holds.space.reps
  unfold forkCost at hroom
  unfold Tasks.fork
  refine wp_seq (wp_mono (wp_and (wp_allocproc_room hA j pid hroom) (wet_allocproc hA j pid))
    (fun _ _ hQ => hQ) fun _ _ hE => hE.1) ?_
  rintro np s₁ ⟨hroom₁, hmade⟩
  obtain ⟨B, npMm, npTf, hnp, hfresh, hs⟩ := hmade hroom₁.wet
  have hpB := holds_of_stays hs hnp.holds.space.reps (fun _ => hij) hp.holds
  have hB := hpB.space.reps
  obtain ⟨hdry, hlen⟩ := hroom₁.view hB
  have hmiss := missing_le (B.tbl j) (listVpns mm.vma)
  have hmms := hroom₁.mmObjs
  have hvmas := hroom₁.vmaObjs
  rw [hp.hasMm, hnp.hasMm]
  have hcopy := wp_mmCopyLoop hij hB hpB.space.user.listed (fun _ => id)
    hfresh.userMm.listed hpB.space.user.listed.nodup (fun v hv => hfresh.not_valid hpB.space.user hv)
    hdry (by unfold needed; omega) (by omega)
  have hobjs : wpOk (mmCopy L mm npMm) s₁ fun o s' => o.1 = 0 ∧ Room L s' 0 := by
    refine wp_mono (wp_and hcopy (Pools.books_mmCopy mm npMm)) ?_ fun _ _ hE => hE.1
    rintro o s₂ ⟨⟨rfl, C, hC, -, hCdry⟩, hbooks⟩
    have hm := hbooks.mms
    have hv := hbooks.cap (by omega)
    exact ⟨rfl, room_of_view hC.reps hCdry (Nat.zero_le _) (by omega) (by omega)⟩
  refine wp_seq (wp_mono (wp_and hobjs (wet_mmCopy hij hpB hnp.holds hfresh)) (fun _ _ hQ => hQ)
    fun _ _ hE => hE.1) ?_
  rintro ⟨r, npMm'⟩ s₂ ⟨⟨rfl, hroom₂⟩, hholds⟩
  obtain ⟨C, hC, hs₁⟩ := hholds hroom₂.wet rfl
  have hpC := holds_of_stays hs₁ hC.space.reps (fun _ => hij) hpB
  show wp (if (0 : ℤ) ≠ 0 then _ else _) s₂ _ _
  rw [if_neg (not_not.mpr rfl)]
  have hsize : 0 + tfSize ≤ 4096 := by decide
  refine wp_bind.mpr (wp_memmove hC.frame hpC.frame (hnp.trapframe.trans (Nat.add_zero _).symm)
    (hp.trapframe.trans (Nat.add_zero _).symm) hsize hsize ?_)
  have hroom₃ := room_of_holds hroom₂ hC (fun k => s₂.mem (tf + 0 + k)) hsize
  have hD := (hC.trapframe_blit (fun k => s₂.mem (tf + 0 + k)) hsize).1
  exact wp_bind.mpr (wp_kwrite64 hC.frame (by rw [hnp.trapframe]) (by decide)
    (room_of_holds hroom₃ hD (fun k => UInt8.ofNat (0 / 256 ^ k)) (by decide)))

/-! ### Runs -/

variable {userApps : List UserApp} {es : List (Event ι)} {c : Tasks.Machine ι} {fs : List ℕ}

/-- An image with one segment, of which 16 bytes are in the file. -/
def sampleElf : Image
  | 32 => 64
  | 54 => 56
  | 56 => 1
  | 64 => 1
  | 68 => 6
  | 73 => 16
  | 81 => 16
  | 96 => 16
  | 104 => 32
  | _ => 0

/-- The app `init`. -/
def sampleApp : UserApp := ⟨[105, 110, 105, 116], sampleElf, 0⟩

/-- An image with one segment that goes on in the next page, where its `.bss` starts. -/
def crossingElf : Image
  | 32 => 64
  | 54 => 56
  | 56 => 1
  | 64 => 1
  | 68 => 6
  | 73 => 16
  | 80 => 240
  | 81 => 31
  | 96 => 24
  | 104 => 32
  | _ => 0

/-- The app `bss`. -/
def crossingApp : UserApp := ⟨[98, 115, 115], crossingElf, 0⟩

def sampleApps : List UserApp := [sampleApp, crossingApp]

theorem sampleElf_loadable : loadable sampleElf = [⟨PT_LOAD, 6, 0x1000, 0x1000, 16, 32⟩] := by decide

theorem crossingElf_loadable : loadable crossingElf = [⟨PT_LOAD, 6, 0x1000, 0x1ff0, 24, 32⟩] := by
  decide

theorem imageOk_of_loadable (hl : loadable elf = [phdr]) (hseg : SegmentOk phdr)
    (hstack : ∀ v ∈ vpns (segmentVma phdr), v ∉ vpns ustackVma) : ImageOk elf := by
  refine ⟨fun q hq => ?_, ?_, fun q hq v hv hv' => ?_⟩
  · rw [hl, List.mem_singleton] at hq
    rwa [hq]
  · rw [hl]
    exact List.pairwise_singleton _ _
  · rw [hl, List.mem_singleton] at hq
    subst hq
    exact hstack v hv hv'

theorem sampleElf_ok : ImageOk sampleElf :=
  imageOk_of_loadable sampleElf_loadable ⟨by decide, by decide, by decide⟩ (by decide)

theorem crossingElf_ok : ImageOk crossingElf :=
  imageOk_of_loadable crossingElf_loadable ⟨by decide, by decide, by decide⟩ (by decide)

theorem sampleElf_loads : Loads [] (loadable sampleElf) := by
  rw [sampleElf_loadable]
  exact ⟨fun _ => Or.inr ⟨_, List.mem_cons_self, by decide⟩, trivial⟩

theorem sampleElf_cost : loadCost sampleElf = 30 := by
  unfold loadCost
  rw [sampleElf_loadable]
  decide

theorem sampleApps_clear : ∀ app ∈ sampleApps, StackClear app.elf := by
  intro app happ
  rcases List.mem_cons.mp happ with rfl | happ
  · exact sampleElf_ok.stackClear
  · rw [List.mem_singleton.mp happ]
    exact crossingElf_ok.stackClear

theorem sampleApp_found : Apps.getElf sampleApps [105, 110, 105, 116] = some sampleApp := by
  rw [Apps.getElf_eq_find _ (by decide)]
  rfl

/-- **`load_init_app` comes back**, in every run, for an image whose `.bss` is mapped, with room. -/
theorem loadInit_enabled {name : List UInt8} {app : UserApp} (pid : ℤ) (hfree : FreeOk L s fs)
    (hlog : LogOk s.log fs) (happs : ∀ app ∈ userApps, StackClear app.elf)
    (hrun : Run L userApps es (s, fun _ => none) c) (hi : c.2 i = none)
    (happ : Apps.getElf userApps name = some app) (helf : ImageOk app.elf)
    (hl : Loads [] (loadable app.elf)) (hroom : Room L c.1 (n + (loadCost app.elf + 4))) :
    ∃ p s', Room L s' n ∧ (∃ mm, p.mm = some mm ∧ forkCost mm = loadCost app.elf + 4) ∧
      Tasks.Step L userApps (.loadInit i app.elf) c (s', Function.update c.2 i (some p)) := by
  obtain ⟨A, hA, -, h⟩ := Run.inv hrun happs (inv_boot hfree hlog fun f _ (hf : f ∈ ∅) => hf)
  have hok : wpOk (loadInitApp L app.elf pid) c.1 fun p s' => Room L s' n ∧
      ∃ mm, p.mm = some mm ∧ forkCost mm = loadCost app.elf + 4 :=
    wp_mono (wp_loadInitApp_room hA i pid helf hroom) (fun _ _ hQ => hQ.2) fun _ _ hn => hn hl
  obtain ⟨p, s', hx, hroom', hmm⟩ := wpOk_iff.mp hok
  exact ⟨p, s', hroom', hmm, .loadInit i hi happ hx hroom'.wet⟩

/-- A machine with a process. -/
theorem exists_loaded : ∃ (s s₁ : KState) (p : Proc) (mm : Mm),
    kpgmgrinit sampleLayout zeroState = .ok () s ∧
    FreeOk sampleLayout s (framesFrom sampleLayout 0 15360) ∧
    LogOk s.log (framesFrom sampleLayout 0 15360) ∧
    Run sampleLayout sampleApps [.loadInit true sampleElf] (s, fun _ => none)
      (s₁, Function.update (fun _ => none) true (some p)) ∧
    p.mm = some mm ∧ forkCost mm = 34 ∧ Room sampleLayout s₁ 15000 := by
  obtain ⟨s, hboot, hfree, hlog, hroom⟩ := sample_room
  have hroom' : Room sampleLayout s (15000 + (loadCost sampleElf + 4)) :=
    hroom.mono (by rw [sampleElf_cost]; decide)
  obtain ⟨p, s₁, hroom₁, ⟨mm, hm, hcost⟩, hstep⟩ := loadInit_enabled (i := true) 1 hfree hlog
    sampleApps_clear (.nil _) rfl sampleApp_found sampleElf_ok sampleElf_loads hroom'
  change forkCost mm = loadCost sampleElf + 4 at hcost
  rw [sampleElf_cost] at hcost
  exact ⟨s, s₁, p, mm, hboot, hfree, hlog, .snoc (.nil _) hstep, hm, hcost, hroom₁⟩

/-- And with one more. -/
theorem exists_loaded_two : ∃ (s s₁ s₂ : KState) (p q : Proc),
    kpgmgrinit sampleLayout zeroState = .ok () s ∧
    FreeOk sampleLayout s (framesFrom sampleLayout 0 15360) ∧
    LogOk s.log (framesFrom sampleLayout 0 15360) ∧
    Run sampleLayout sampleApps [.loadInit true sampleElf] (s, fun _ => none)
      (s₁, Function.update (fun _ => none) true (some p)) ∧
    Run sampleLayout sampleApps [.loadInit true sampleElf, .loadInit false sampleElf]
      (s, fun _ => none)
      (s₂, Function.update (Function.update (fun _ => none) true (some p)) false (some q)) := by
  obtain ⟨s, s₁, p, mm, hboot, hfree, hlog, hrun, -, -, hroom⟩ := exists_loaded
  have hroom' : Room sampleLayout s₁ (0 + (loadCost sampleElf + 4)) :=
    hroom.mono (by rw [sampleElf_cost]; decide)
  have hj : Function.update (fun _ : Bool => none) true (some p) false = none :=
    Function.update_of_ne (by decide) _ _
  obtain ⟨q, s₂, -, -, hstep⟩ := loadInit_enabled (i := false) 2 hfree hlog sampleApps_clear hrun hj
    sampleApp_found sampleElf_ok sampleElf_loads hroom'
  exact ⟨s, s₁, s₂, p, q, hboot, hfree, hlog, hrun, .snoc hrun hstep⟩

/-- **`fork` comes back**, in every run, for a process that has room for its copy. -/
theorem fork_returns {j : ι} {p : Proc} {parent : ℕ} {pid : ℤ} (hfree : FreeOk L s fs)
    (hlog : LogOk s.log fs) (happs : ∀ app ∈ userApps, StackClear app.elf)
    (hrun : Run L userApps es (s, fun _ => none) c) (hp : c.2 i = some p) (hm : p.mm = some mm)
    (hj : c.2 j = none) (hroom : Room L c.1 (forkCost mm)) :
    ∃ np s', Tasks.fork L p parent pid c.1 = .ok np s' ∧
      Tasks.Step L userApps (.fork i j) c (s', Function.update c.2 j (some np)) := by
  obtain ⟨A, hA, -, h⟩ := Run.inv hrun happs (inv_boot hfree hlog fun f _ (hf : f ∈ ∅) => hf)
  have hslot := h i
  rw [hp] at hslot
  obtain ⟨mm', tf, t, -, hruns⟩ := hslot.runs
  cases Option.some.inj (hm.symm.trans hruns.hasMm)
  have hij : i ≠ j := by
    rintro rfl
    exact absurd (hp.symm.trans hj) (by simp)
  obtain ⟨np, s', hx, hroom'⟩ := wpOk_iff.mp (wp_fork_room hij hruns parent pid hroom)
  exact ⟨np, s', hx, .fork i j hp hj hx hroom'.wet⟩

theorem fork_returns_sample : ∃ (s s₁ : KState) (p : Proc),
    kpgmgrinit sampleLayout zeroState = .ok () s ∧
    Run sampleLayout sampleApps [.loadInit true sampleElf] (s, fun _ => none)
      (s₁, Function.update (fun _ => none) true (some p)) ∧
    ∃ np s', Tasks.fork sampleLayout p 0 2 s₁ = .ok np s' ∧
      Tasks.Step sampleLayout sampleApps (.fork true false)
        (s₁, Function.update (fun _ => none) true (some p))
        (s', Function.update (Function.update (fun _ => none) true (some p)) false (some np)) := by
  obtain ⟨s, s₁, p, mm, hboot, hfree, hlog, hrun, hm, hcost, hroom⟩ := exists_loaded
  have hp := Function.update_self true (some p) fun _ : Bool => none
  have hj : Function.update (fun _ : Bool => none) true (some p) false = none :=
    Function.update_of_ne (by decide) _ _
  exact ⟨s, s₁, p, hboot, hrun, fork_returns hfree hlog sampleApps_clear hrun hp hm hj
    (hroom.mono (by rw [hcost]; decide))⟩

end UCore.Proc.Returns
