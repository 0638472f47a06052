import Mathlib.Data.List.Nodup
import Mathlib.Data.List.Perm.Basic
import Mathlib.Logic.Relation
import UCore.Mem.Boot

/-! # The free list over runs

From `kpgmgrinit` on, through any calls of `kallocpage` and of `kfreepage` for allocated pages, and any
stores to allocated pages: the links in memory spell a list without repetitions, and the free and the
allocated pages are the pages of the region, each once (`free_list_kept`). The loop of `freerange`
counts downwards in 64 bits; it ends, since the region does not start at the address `0`
(`walkDown_eq`). -/

namespace UCore.Mem.FreeList

open UCore.Lib.Bytes UCore.Lib.Hoare UCore.Riscv UCore.Mem.State UCore.Mem.Kalloc UCore.Mem.Boot

/-! ### The loop of `freerange` -/

/-- `for (p = …; p >= kpgva_start; p -= PGSIZE)`: the pages it visits, if it ends within `fuel` rounds. -/
def walkDown (kpgvaStart : ℕ) : ℕ → ℕ → Option (List ℕ)
  | 0, _ => none
  | fuel + 1, p =>
    if p ≥ kpgvaStart then
      (walkDown kpgvaStart fuel ((p + (2 ^ 64 - PGSIZE)) % 2 ^ 64)).map (p :: ·)
    else some []

/-- The loop over `n` pages that start at `a`. -/
theorem walkDown_pages {a n fuel : ℕ} (ha : 4096 ≤ a) (hend : a + n * 4096 < 2 ^ 64)
    (hn : n < fuel) : walkDown a fuel (a + n * 4096 - 4096) =
      some ((List.range n).reverse.map fun k => a + k * PGSIZE) := by
  induction n generalizing fuel with
  | zero =>
    obtain ⟨fuel, rfl⟩ := Nat.exists_eq_add_of_lt hn
    rw [Nat.zero_add, walkDown, if_neg (by omega)]
    rfl
  | succ n ih =>
    obtain ⟨k, rfl⟩ := Nat.exists_eq_add_of_lt hn
    have hge : a + n * 4096 ≥ a := Nat.le_add_right _ _
    have hlt : a + n * 4096 < 2 ^ 64 :=
      (Nat.add_le_add_left (Nat.mul_le_mul_right 4096 (Nat.le_succ n)) a).trans_lt hend
    have hrest := @ih (n + 1 + k) hlt (by omega)
    have hp : a + (n + 1) * 4096 - 4096 = a + n * 4096 := by omega
    have hnext : (a + n * 4096 + (2 ^ 64 - PGSIZE)) % 2 ^ 64 = a + n * 4096 - 4096 := by
      rw [PGSIZE_eq]
      omega
    rw [hp, walkDown, if_pos hge, hnext, hrest, List.range_succ, List.reverse_append,
      List.reverse_singleton, List.singleton_append, List.map_cons, PGSIZE_eq, Option.map_some]

variable {L : Layout}

/-- **The loop ends**, and it visits the pages of the region. -/
theorem walkDown_eq {fuel : ℕ} (hfuel : frameCount L < fuel) :
    walkDown L.kpageAllocatorBase fuel (L.kpageAllocatorBase + L.kpageAllocatorSize - PGSIZE) =
      some (pagesDown L.kpageAllocatorBase (L.kpageAllocatorBase + L.kpageAllocatorSize)) := by
  have hbase : 4096 ≤ L.kpageAllocatorBase := by
    unfold Layout.kpageAllocatorBase KERNEL_DIRECT_MAPPING_BASE
    omega
  have hend : L.kpageAllocatorBase + frameCount L * 4096 < 2 ^ 64 := by
    obtain ⟨h1, h2, h3⟩ := layout_bounds (L := L)
    unfold Layout.kpageAllocatorBase KERNEL_DIRECT_MAPPING_BASE frameCount
    rw [PGSIZE_eq]
    omega
  unfold pagesDown
  rw [Nat.add_sub_cancel_left, allocatorSize_eq, PGSIZE_eq, Nat.mul_div_cancel _ (by decide)]
  exact walkDown_pages hbase hend hfuel

/-! ### The region -/

/-- The pages of `[kpage_allocator_base, kpage_allocator_base + kpage_allocator_size)`, by their
physical addresses. -/
def region (L : Layout) : List ℕ :=
  (pagesDown L.kpageAllocatorBase (L.kpageAllocatorBase + L.kpageAllocatorSize)).map KVA_TO_PA

theorem region_perm : (region L).Perm (framesFrom L 0 (frameCount L)) := by
  unfold region framesFrom
  rw [pagesDown_map, Nat.sub_zero, ← List.range_eq_range']
  exact (List.reverse_perm _).map _

theorem region_nodup : (region L).Nodup := by
  unfold region
  rw [pagesDown_map]
  exact List.Nodup.map (fun _ _ h => frameAt_inj h) (List.nodup_reverse.mpr List.nodup_range)

theorem mem_region {f : ℕ} : f ∈ region L ↔ L.Frame f := by
  rw [region_perm.mem_iff, mem_framesFrom_zero]

/-! ### Runs -/

/-- One step, with the pages that are allocated. -/
inductive Step (L : Layout) : KState × List ℕ → KState × List ℕ → Prop
  /-- `kallocpage` finds a page. -/
  | alloc {s s' : KState} {out : List ℕ} {p : ℕ} : s.freelist ≠ 0 → kallocpage L s = .ok p s' →
    Step L (s, out) (s', p :: out)
  /-- `kallocpage` finds none. -/
  | empty {s s' : KState} {out : List ℕ} {p : ℕ} : s.freelist = 0 → kallocpage L s = .ok p s' →
    Step L (s, out) (s', out)
  | free {s s' : KState} {out : List ℕ} {p : ℕ} : p ∈ out → kfreepage L p s = .ok () s' →
    Step L (s, out) (s', out.erase p)
  /-- The users of the allocated pages store to them. -/
  | write {s : KState} {out : List ℕ} {m' : Mem} : SameOff {f | f ∈ out} s.mem m' →
    Step L (s, out) ({ s with mem := m' }, out)

/-- The links spell the list `fs`, and its pages and the allocated ones are those of the region. -/
structure Splits (L : Layout) (s : KState) (fs out : List ℕ) : Prop where
  list : FreeOk L s fs
  perm : (fs ++ out).Perm (region L)

variable {s s' : KState} {fs out : List ℕ} {p : ℕ} {m' : Mem}

theorem Splits.frame (h : Splits L s fs out) (hp : p ∈ out) : L.Frame p :=
  mem_region.mp (h.perm.mem_iff.mp (List.mem_append_right fs hp))

theorem Splits.disjoint (h : Splits L s fs out) (hp : p ∈ out) : p ∉ fs := fun hf =>
  (List.nodup_append.mp (h.perm.nodup_iff.mpr region_nodup)).2.2 p hf p hp rfl

/-- The list is empty if its head is `NULL`. -/
theorem Splits.nil_iff (h : Splits L s fs out) : s.freelist = 0 ↔ fs = [] := by
  have hc := h.list.chain
  cases fs with
  | nil => exact iff_of_true hc rfl
  | cons f fs =>
    refine iff_of_false (fun h0 => ?_) (by simp)
    exact (h.list.frame f (by simp)).kva_ne_zero (hc.1.symm.trans h0)

/-- **A page is taken** from the front. -/
theorem Splits.alloc (h : Splits L s fs out) (hne : s.freelist ≠ 0)
    (hx : kallocpage L s = .ok p s') : p ∈ fs ∧ ∃ fs', Splits L s' fs' (p :: out) := by
  cases fs with
  | nil => exact absurd (h.nil_iff.mpr rfl) hne
  | cons f fs =>
    obtain ⟨rfl, rfl⟩ := (wp_of_eq_ok hx).mp
      (wp_kallocpage_cons (Q := fun o s' => o = f ∧ s' = takePage s f) (E := fun _ _ => False) h.list
        ⟨rfl, rfl⟩)
    exact ⟨by simp, fs, h.list.taken, List.perm_middle.trans h.perm⟩

/-- **A page is given back** to the front. -/
theorem Splits.free (h : Splits L s fs out) (hp : p ∈ out) :
    ∃ s', kfreepage L p s = .ok () s' ∧ Splits L s' (p :: fs) (out.erase p) := by
  have hspec : wpOk (kfreepage L p) s fun _ s' => s' = givePage s p := wp_kfreepage (h.frame hp) rfl
  obtain ⟨_, s', hx, rfl⟩ := wpOk_iff.mp hspec
  refine ⟨_, hx, h.list.given (h.frame hp) (h.disjoint hp), ?_⟩
  exact (List.perm_middle.symm.trans ((List.perm_cons_erase hp).symm.append_left fs)).trans h.perm

/-- **Stores to allocated pages** do not reach the links. -/
theorem Splits.write (h : Splits L s fs out) (hm : SameOff {f | f ∈ out} s.mem m') :
    Splits L { s with mem := m' } fs out := by
  refine ⟨h.list.congr rfl fun f hf x hx => ?_, h.perm⟩
  exact hm.page (fun g hg => (h.frame hg).aligned) (h.list.frame f hf).aligned
    (fun hf' => h.disjoint hf' hf) hx

/-- **One step.** -/
theorem Step.splits {c c' : KState × List ℕ} (hstep : Step L c c') (h : Splits L c.1 fs c.2) :
    ∃ fs', Splits L c'.1 fs' c'.2 := by
  cases hstep with
  | alloc hne hx => exact (h.alloc hne hx).2
  | @empty s s' out p hnull hx =>
    obtain rfl := h.nil_iff.mp hnull
    obtain rfl := (wp_of_eq_ok hx).mp
      (wp_kallocpage_nil (Q := fun _ s' => s' = noPage s) (E := fun _ _ => False) h.list rfl)
    exact ⟨[], h.list.congr rfl (by simp), h.perm⟩
  | free hp hx =>
    obtain ⟨s', hx', h'⟩ := h.free hp
    rw [hx] at hx'
    cases hx'
    exact ⟨_, h'⟩
  | write hm => exact ⟨fs, h.write hm⟩

/-- What the users of the allocator rely on. -/
structure Serves (L : Layout) (s : KState) (fs out : List ℕ) : Prop where
  splits : Splits L s fs out
  /-- `kallocpage` returns; if the list is not empty, with a page of it. -/
  alloc : ∃ p s', kallocpage L s = .ok p s' ∧ (fs ≠ [] → p ∈ fs ∧ L.Frame p)
  free : ∀ p ∈ out, ∃ s', kfreepage L p s = .ok () s'
  write : ∀ m', SameOff {f | f ∈ out} s.mem m' → FreeOk L { s with mem := m' } fs

theorem Splits.serves (h : Splits L s fs out) : Serves L s fs out := by
  refine ⟨h, ?_, fun p hp => ?_, fun m' hm => (h.write hm).list⟩
  · cases fs with
    | nil =>
      have hspec : wpOk (kallocpage L) s fun _ _ => True := wp_kallocpage_nil h.list trivial
      obtain ⟨p, s', hx, -⟩ := wpOk_iff.mp hspec
      exact ⟨p, s', hx, fun hne => absurd rfl hne⟩
    | cons f fs =>
      have hspec : wpOk (kallocpage L) s fun o _ => o = f := wp_kallocpage_cons h.list rfl
      obtain ⟨p, s', hx, rfl⟩ := wpOk_iff.mp hspec
      exact ⟨p, s', hx, fun _ => ⟨by simp, h.list.frame p (by simp)⟩⟩
  · obtain ⟨s', hx, -⟩ := h.free hp
    exact ⟨s', hx⟩

/-- **The free list is kept.** The loop of `kpgmgrinit` ends, and after it the list holds each page of
the region once. From there on, in every run, the free and the allocated pages are the pages of the
region, each once. -/
theorem free_list_kept {s₀ s₁ : KState} (hnull : s₀.freelist = 0) (hlog : s₀.log = [])
    (hinit : kpgmgrinit L s₀ = .ok () s₁) (hrun : Relation.ReflTransGen (Step L) (s₁, []) (s, out)) :
    (∀ fuel, frameCount L < fuel →
      walkDown L.kpageAllocatorBase fuel (L.kpageAllocatorBase + L.kpageAllocatorSize - PGSIZE) =
        some (pagesDown L.kpageAllocatorBase (L.kpageAllocatorBase + L.kpageAllocatorSize))) ∧
    (region L).Nodup ∧ (∀ f, f ∈ region L ↔ L.Frame f) ∧
    (∃ fs, FreeOk L s₁ fs ∧ fs.Perm (region L)) ∧ ∃ fs, Serves L s fs out := by
  obtain ⟨hb, -⟩ := (wp_of_eq_ok hinit).mp (wp_kpgmgrinit hnull hlog)
  have h₁ : Splits L s₁ (framesFrom L 0 (frameCount L)) [] :=
    ⟨hb.freeOk, by rw [List.append_nil]; exact region_perm.symm⟩
  have key : ∀ c, Relation.ReflTransGen (Step L) (s₁, []) c → ∃ fs, Splits L c.1 fs c.2 := by
    intro c hc
    induction hc with
    | refl => exact ⟨_, h₁⟩
    | tail _ hstep ih =>
      obtain ⟨fs, hfs⟩ := ih
      exact hstep.splits hfs
  obtain ⟨fs, hfs⟩ := key _ hrun
  exact ⟨fun _ hfuel => walkDown_eq hfuel, region_nodup, fun _ => mem_region,
    ⟨_, hb.freeOk, region_perm.symm⟩, fs, hfs.serves⟩

/-- A page is allocated, and given back. -/
theorem free_list_kept_sample : ∃ (s : KState) (fs : List ℕ), Serves sampleLayout s fs [] := by
  obtain ⟨s₁, hinit, hb, -⟩ := sample_boot
  have h₁ : Splits sampleLayout s₁ (framesFrom sampleLayout 0 15360) [] := by
    refine ⟨hb.freeOk, ?_⟩
    have hcount : frameCount sampleLayout = 15360 := by norm_num [frameCount, sampleLayout]
    rw [List.append_nil, ← hcount]
    exact region_perm.symm
  obtain ⟨p, s₂, hx, -⟩ := h₁.serves.alloc
  have hne : s₁.freelist ≠ 0 := fun h0 => by
    have := h₁.nil_iff.mp h0
    rw [framesFrom_pred (by decide)] at this
    cases this
  obtain ⟨-, fs₂, h₂⟩ := h₁.alloc hne hx
  obtain ⟨s₃, hx₃, -⟩ := h₂.free (List.mem_singleton.mpr rfl)
  have hrun := (Relation.ReflTransGen.single (Step.alloc hne hx)).tail
    (Step.free (List.mem_singleton.mpr rfl) hx₃)
  rw [List.erase_cons_head] at hrun
  obtain ⟨-, -, -, -, fs, hfs⟩ := free_list_kept rfl rfl hinit hrun
  exact ⟨s₃, fs, hfs⟩

end UCore.Mem.FreeList
