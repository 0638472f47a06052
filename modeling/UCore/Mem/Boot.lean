import UCore.Mem.Kalloc

/-! # The page allocator at boot

`kpgmgrinit` gives every page of its region to the empty free list, the last page first. After it
the list is well formed and holds all frames of the region (`wp_kpgmgrinit`), and so it stays for
the frames that boot takes from it (`bootTaken`). -/

namespace UCore.Mem.Boot

open UCore.Lib.Bytes UCore.Lib.Hoare UCore.Riscv UCore.Mem.State UCore.Mem.Kalloc

variable (L : Layout)

/-- The pages `kpgva_start, …, kpgva_end - PGSIZE`, downwards. -/
def pagesDown (kpgvaStart kpgvaEnd : ℕ) : List ℕ :=
  (List.range ((kpgvaEnd - kpgvaStart) / PGSIZE)).reverse.map fun k => kpgvaStart + k * PGSIZE

/-- `freerange(kpgva_start, kpgva_end)`. -/
def freerange (kpgvaStart kpgvaEnd : ℕ) : KM Unit := do
  ensure (PGALIGNED kpgvaStart) (.assertion "PGALIGNED((uint64)kpgva_start)")
  ensure (PGALIGNED kpgvaEnd) (.assertion "PGALIGNED((uint64)kpgva_end)")
  forM (pagesDown kpgvaStart kpgvaEnd) fun p => kfreepage L (KVA_TO_PA p)

/-- `kpgmgrinit()`. -/
def kpgmgrinit : KM Unit :=
  freerange L L.kpageAllocatorBase (L.kpageAllocatorBase + L.kpageAllocatorSize)

/-- The number of frames of the region. -/
def frameCount : ℕ := (0x84000000 - (L.kernelImageEnd2M + L.setupPages * 4096)) / 4096

/-- The `k`-th frame of the region. -/
def frameAt (k : ℕ) : ℕ := L.kernelImageEnd2M + L.setupPages * 4096 + k * 4096

/-- The frames from the `k`-th up to the `n`-th, upwards. -/
def framesFrom (k n : ℕ) : List ℕ := (List.range' k (n - k)).map (frameAt L)

variable {L} {s : KState}

theorem layout_bounds : L.kernelImageEnd2M % 4096 = 0 ∧ 0x80200000 < L.kernelImageEnd2M ∧
    L.kernelImageEnd2M + L.setupPages * 4096 ≤ 0x84000000 := by
  have h1 := L.aligned
  have h2 := L.image_lt
  have h3 := L.fits
  unfold PGSIZE_2M at h1
  unfold KERNEL_PHYS_BASE at h2
  unfold RISCV_DDR_BASE PHYS_MEM_SIZE at h3
  rw [PGSIZE_eq] at h3
  exact ⟨by omega, h2, by omega⟩

theorem frame_frameAt {k : ℕ} (hk : k < frameCount L) : L.Frame (frameAt L k) := by
  obtain ⟨h1, -, h3⟩ := layout_bounds (L := L)
  unfold frameCount at hk
  unfold frameAt Layout.Frame
  omega

theorem frameAt_inj {j k : ℕ} (h : frameAt L j = frameAt L k) : j = k := by
  unfold frameAt at h; omega

theorem mem_framesFrom {k n f : ℕ} : f ∈ framesFrom L k n ↔ ∃ j, k ≤ j ∧ j < n ∧ frameAt L j = f := by
  unfold framesFrom
  simp only [List.mem_map, List.mem_range'_1]
  constructor
  · rintro ⟨j, ⟨h1, h2⟩, rfl⟩; exact ⟨j, h1, by omega, rfl⟩
  · rintro ⟨j, h1, h2, rfl⟩; exact ⟨j, ⟨h1, by omega⟩, rfl⟩

/-- **The frames of the region** are those of `kpgmgrinit`. -/
theorem mem_framesFrom_zero {f : ℕ} : f ∈ framesFrom L 0 (frameCount L) ↔ L.Frame f := by
  rw [mem_framesFrom]
  obtain ⟨h1, -, h3⟩ := layout_bounds (L := L)
  constructor
  · rintro ⟨j, -, hj, rfl⟩; exact frame_frameAt hj
  · rintro ⟨hal, hlo, hhi⟩
    refine ⟨(f - (L.kernelImageEnd2M + L.setupPages * 4096)) / 4096, Nat.zero_le _, ?_, ?_⟩
    · unfold frameCount; omega
    · unfold frameAt; omega

theorem framesFrom_pred {k n : ℕ} (h : k < n) :
    framesFrom L k n = frameAt L k :: framesFrom L (k + 1) n := by
  unfold framesFrom
  rw [show n - k = (n - (k + 1)) + 1 by omega, List.range'_succ, List.map_cons]

theorem allocatorSize_eq : L.kpageAllocatorSize = frameCount L * 4096 := by
  obtain ⟨h1, h2, h3⟩ := layout_bounds (L := L)
  simp only [Layout.kpageAllocatorSize, PHYS_MEM_SIZE, RISCV_DDR_BASE, PGSIZE_eq, frameCount]
  omega

theorem kva_frameAt {k : ℕ} (hk : k < frameCount L) :
    KVA_TO_PA (L.kpageAllocatorBase + k * 4096) = frameAt L k := by
  have hlt := (frame_frameAt hk).lt
  simp only [frameAt] at hlt
  simp only [Layout.kpageAllocatorBase, PGSIZE_eq, frameAt]
  rw [show KERNEL_DIRECT_MAPPING_BASE + L.kernelImageEnd2M + L.setupPages * 4096 + k * 4096 =
    L.kernelImageEnd2M + L.setupPages * 4096 + k * 4096 + KERNEL_DIRECT_MAPPING_BASE by ring,
    ← PA_TO_KVA_eq (by omega), KVA_TO_PA_PA_TO_KVA (by omega)]

theorem pagesDown_map : (pagesDown L.kpageAllocatorBase
    (L.kpageAllocatorBase + L.kpageAllocatorSize)).map KVA_TO_PA =
      (List.range (frameCount L)).reverse.map (frameAt L) := by
  unfold pagesDown
  rw [List.map_map, Function.comp_def, Nat.add_sub_cancel_left, allocatorSize_eq, PGSIZE_eq,
    Nat.mul_div_cancel _ (by norm_num)]
  refine List.map_congr_left fun k hk => ?_
  rw [List.mem_reverse, List.mem_range] at hk
  exact kva_frameAt hk

/-- The state of the allocator when it owns the frames `fs`, and never ran out. -/
structure Booted (L : Layout) (s : KState) (fs : List ℕ) : Prop where
  freeOk : FreeOk L s fs
  logOk : LogOk s.log fs
  wet : PageEvent.empty ∉ s.log

theorem Booted.given {f : ℕ} {fs : List ℕ} (h : Booted L s fs) (hf : L.Frame f) (hnew : f ∉ fs) :
    Booted L (givePage s f) (f :: fs) :=
  ⟨h.freeOk.given hf hnew, h.logOk.given hnew, by simpa [givePage] using h.wet⟩

/-- The loop of `freerange`, with the frames below the `n`-th to come. -/
theorem wp_freerange_loop (N : ℕ) (hN : N ≤ frameCount L) : ∀ (n : ℕ) (s : KState), n ≤ N →
    Booted L s (framesFrom L n N) →
      wpOk (forM ((List.range n).reverse.map (frameAt L)) (kfreepage L)) s fun _ s' =>
        Booted L s' (framesFrom L 0 N) ∧ s'.mmObjs = s.mmObjs ∧ s'.vmaObjs = s.vmaObjs
  | 0, s, _, h => ⟨h, rfl, rfl⟩
  | n + 1, s, hn, h => by
    rw [List.range_succ, List.reverse_append, List.reverse_singleton, List.singleton_append,
      List.map_cons, List.forM_cons]
    have hf := frame_frameAt (L := L) (k := n) (by omega)
    refine wp_bind.mpr (wp_kfreepage hf ?_)
    have hnew : frameAt L n ∉ framesFrom L (n + 1) N := by
      rw [mem_framesFrom]
      rintro ⟨j, h1, -, h2⟩
      have := frameAt_inj h2
      omega
    have h' := h.given hf hnew
    rw [← framesFrom_pred (by omega)] at h'
    exact wp_freerange_loop N hN n _ (by omega) h'

/-- **`kpgmgrinit` makes a well-formed free list of all frames of the region.** -/
theorem wp_kpgmgrinit (hfree : s.freelist = 0) (hlog : s.log = []) :
    wpOk (kpgmgrinit L) s fun _ s' =>
      Booted L s' (framesFrom L 0 (frameCount L)) ∧ s'.mmObjs = s.mmObjs ∧
        s'.vmaObjs = s.vmaObjs := by
  obtain ⟨h1, h2, h3⟩ := layout_bounds (L := L)
  have h0 : Booted L s (framesFrom L (frameCount L) (frameCount L)) := by
    unfold framesFrom
    rw [Nat.sub_self]
    refine ⟨⟨hfree, List.nodup_nil, by simp⟩, ?_, by simp [hlog]⟩
    rw [hlog]
    exact ⟨fun f => by simp [isFree], trivial⟩
  unfold kpgmgrinit freerange
  refine wp_bind.mpr (wp_ensure_pos ?_ (wp_bind.mpr (wp_ensure_pos ?_ ?_)))
  · rw [PGALIGNED_iff]
    unfold Layout.kpageAllocatorBase KERNEL_DIRECT_MAPPING_BASE
    rw [PGSIZE_eq]; omega
  · rw [PGALIGNED_iff]
    unfold Layout.kpageAllocatorBase Layout.kpageAllocatorSize KERNEL_DIRECT_MAPPING_BASE
      PHYS_MEM_SIZE RISCV_DDR_BASE
    rw [PGSIZE_eq]; omega
  · have h := wp_freerange_loop (frameCount L) le_rfl (frameCount L) s le_rfl h0
    rw [← pagesDown_map, List.forM_map] at h
    exact h

/-- What boot takes from the free list leaves the allocator in order. -/
theorem wp_bootTaken {f : ℕ} {fs : List ℕ} (h : Booted L s (f :: fs)) :
    wpOk (kallocpage L) s fun o s' => o = f ∧ Booted L s' fs ∧ s'.mmObjs = s.mmObjs ∧
      s'.vmaObjs = s.vmaObjs := by
  refine wp_kallocpage_cons h.freeOk ⟨rfl, ⟨h.freeOk.taken, ?_, ?_⟩, rfl, rfl⟩
  · exact h.logOk.taken h.freeOk.nodup
  · simpa [takePage] using h.wet

/-! ### A machine -/

theorem length_framesFrom (k n : ℕ) : (framesFrom L k n).length = n - k := by
  simp [framesFrom]

/-- A kernel image of two megabytes. -/
def sampleLayout : Layout where
  kernelImageEnd2M := 0x80400000
  setupPages := 0
  trampoline := 0x80200000
  trampoline_lt := by decide
  trampoline_aligned := by decide
  image_lt := by decide
  aligned := by decide
  fits := by decide

/-- Memory and allocators before `kpgmgrinit`. -/
def zeroState : KState := ⟨fun _ => 0, 0, 0, 0, []⟩

theorem exists_booted {s : KState} (hfree : s.freelist = 0) (hlog : s.log = []) :
    ∃ s', kpgmgrinit L s = .ok () s' ∧ Booted L s' (framesFrom L 0 (frameCount L)) ∧
      s'.mmObjs = s.mmObjs ∧ s'.vmaObjs = s.vmaObjs := by
  obtain ⟨_, s', hx, h⟩ := wpOk_iff.mp (wp_kpgmgrinit (L := L) hfree hlog)
  exact ⟨s', hx, h⟩

theorem sample_boot : ∃ s, kpgmgrinit sampleLayout zeroState = .ok () s ∧
    Booted sampleLayout s (framesFrom sampleLayout 0 15360) ∧ s.mmObjs = 0 ∧ s.vmaObjs = 0 := by
  have hcount : frameCount sampleLayout = 15360 := by norm_num [frameCount, sampleLayout]
  obtain ⟨s, hx, hb, hm, hv⟩ := exists_booted (L := sampleLayout) (s := zeroState) rfl rfl
  rw [hcount] at hb
  exact ⟨s, hx, hb, hm, hv⟩

end UCore.Mem.Boot
