import UCore.Mem.State

/-! # The page allocator

`kfreepage` and `kallocpage` with the links of the free list inside the free pages themselves:
`Chain m head fs` says that the list starting at `head` in memory `m` visits exactly the frames `fs`.
The list depends only on the first bytes of its own pages (`Chain.congr`). A page taken from a
well-formed list is its first frame; an empty list gives `KVA_TO_PA(0)`, which is not `0`. -/

namespace UCore.Mem.Kalloc

open UCore.Lib.Bytes UCore.Lib.Hoare UCore.Riscv UCore.Mem.State

variable (L : Layout)

/-- `kfreepage(pa)`. -/
def kfreepage (pa : ℕ) : KM Unit := do
  let kvaddr := PA_TO_KVA pa
  ensure (PGALIGNED pa ∧ L.kpageAllocatorBase ≤ kvaddr ∧
    kvaddr < L.kpageAllocatorBase + L.kpageAllocatorSize) (.invalidPage pa)
  memset L kvaddr 0xdd PGSIZE
  let s ← get
  kwrite64 L kvaddr s.freelist
  modify fun s => { s with freelist := kvaddr, log := .free pa :: s.log }

/-- `kallocpage()`. -/
def kallocpage : KM ℕ := do
  let s ← get
  let l := s.freelist
  if l ≠ 0 then
    let next ← kread64 L l
    modify fun s => { s with freelist := next, log := .alloc (KVA_TO_PA l) :: s.log }
    memset L l 0xaf PGSIZE
    return KVA_TO_PA l
  else
    modify fun s => { s with log := .empty :: s.log }
    return KVA_TO_PA l

/-! ### The list in memory -/

/-- The free list that starts at `head` visits the frames `fs`. -/
def Chain (m : Mem) : ℕ → List ℕ → Prop
  | head, [] => head = 0
  | head, f :: fs => head = PA_TO_KVA f ∧ Chain m (load m f 8) fs

variable {L}

/-- The list depends only on its own pages. -/
theorem Chain.congr {m m' : Mem} : ∀ {fs : List ℕ} {head : ℕ},
    (∀ f ∈ fs, ∀ x, InPage f x → m' x = m x) → Chain m head fs → Chain m' head fs
  | [], _, _, h => h
  | f :: fs, head, hm, h => by
    refine ⟨h.1, ?_⟩
    have hl : load m' f 8 = load m f 8 :=
      load_congr 8 f fun x h1 h2 => hm f (by simp) x ⟨h1, by omega⟩
    rw [hl]
    exact Chain.congr (fun g hg => hm g (by simp [hg])) h.2

/-- A well-formed free list: the frames `fs`, each once. -/
structure FreeOk (L : Layout) (s : KState) (fs : List ℕ) : Prop where
  chain : Chain s.mem s.freelist fs
  nodup : fs.Nodup
  frame : ∀ f ∈ fs, L.Frame f

/-- A list of frames has one reading. -/
theorem Chain.unique {m : Mem} : ∀ {fs gs : List ℕ} {head : ℕ}, (∀ f ∈ fs, L.Frame f) →
    (∀ g ∈ gs, L.Frame g) → Chain m head fs → Chain m head gs → fs = gs
  | [], [], _, _, _, _, _ => rfl
  | [], g :: gs, _, _, hg, hf, hh => absurd (hh.1.symm.trans hf) (hg g (by simp)).kva_ne_zero
  | f :: fs, [], _, hf, _, hh, hg => absurd (hh.1.symm.trans hg) (hf f (by simp)).kva_ne_zero
  | f :: fs, g :: gs, _, hf, hg, hcf, hcg => by
    have hfF := hf f (by simp)
    have hgF := hg g (by simp)
    have he : f = g := by
      have := congrArg KVA_TO_PA (hcf.1.symm.trans hcg.1)
      rwa [KVA_TO_PA_PA_TO_KVA (by have := hfF.lt; omega),
        KVA_TO_PA_PA_TO_KVA (by have := hgF.lt; omega)] at this
    subst he
    rw [Chain.unique (fun f hm => hf f (by simp [hm])) (fun g hm => hg g (by simp [hm])) hcf.2 hcg.2]

theorem FreeOk.unique {s : KState} {fs gs : List ℕ} (h : FreeOk L s fs) (h' : FreeOk L s gs) :
    fs = gs := h.chain.unique h.frame h'.frame h'.chain

/-- A change of memory outside the free pages leaves the list as it is. -/
theorem FreeOk.congr {s s' : KState} {fs : List ℕ} (h : FreeOk L s fs)
    (hl : s'.freelist = s.freelist) (hm : ∀ f ∈ fs, ∀ x, InPage f x → s'.mem x = s.mem x) :
    FreeOk L s' fs :=
  ⟨by rw [hl]; exact h.chain.congr hm, h.nodup, h.frame⟩

/-! ### Allocation -/

/-- The state after `kallocpage` took the frame `f`. -/
def takePage (s : KState) (f : ℕ) : KState :=
  { s with
    mem := fill s.mem f 4096 0xaf
    freelist := load s.mem f 8
    log := .alloc f :: s.log }

/-- The state after `kallocpage` found the list empty. -/
def noPage (s : KState) : KState := { s with log := .empty :: s.log }

theorem wp_kallocpage_cons {s : KState} {f : ℕ} {fs : List ℕ} {Q : ℕ → KState → Prop}
    {E : Panic → KState → Prop} (h : FreeOk L s (f :: fs)) (hQ : Q f (takePage s f)) :
    wp (kallocpage L) s Q E := by
  have hf : L.Frame f := h.frame f (by simp)
  have hl : s.freelist = PA_TO_KVA f := h.chain.1
  have hpa : KVA_TO_PA s.freelist = f := by
    rw [hl, KVA_TO_PA_PA_TO_KVA (by have := hf.lt; omega)]
  unfold kallocpage
  rw [wp_bind, wp_get]
  simp only []
  rw [if_pos (by rw [hl]; exact hf.kva_ne_zero), wp_bind]
  simp only [hpa, PGSIZE_eq]
  rw [← Nat.add_zero (PA_TO_KVA f)] at hl
  refine wp_kread64 hf hl (by omega) (wp_bind.mpr (wp_modify.mpr (wp_bind.mpr ?_)))
  exact wp_memset hf hl (by omega) hQ

theorem wp_kallocpage_nil {s : KState} {Q : ℕ → KState → Prop} {E : Panic → KState → Prop}
    (h : FreeOk L s []) (hQ : Q (2 ^ 38) (noPage s)) : wp (kallocpage L) s Q E := by
  have hl : s.freelist = 0 := h.chain
  unfold kallocpage
  rw [wp_bind, wp_get]
  simp only []
  rw [if_neg (by simp [hl]), wp_bind, wp_modify, wp_pure, show KVA_TO_PA s.freelist = 2 ^ 38 by
    rw [hl]; rfl]
  exact hQ

theorem FreeOk.taken {s : KState} {f : ℕ} {fs : List ℕ} (h : FreeOk L s (f :: fs)) :
    FreeOk L (takePage s f) fs := by
  obtain ⟨hf, hnd⟩ := List.nodup_cons.mp h.nodup
  refine ⟨h.chain.2.congr fun g hg x hx => ?_, hnd, fun g hg => h.frame g (by simp [hg])⟩
  show fill s.mem f 4096 0xaf x = _
  refine blit_of_not_mem fun hx' => hf ?_
  have := hx.unique (h.frame g (by simp [hg])).aligned (h.frame f (by simp)).aligned hx'
  exact this ▸ hg

theorem sameOff_takePage {D : Set ℕ} {s : KState} {f : ℕ} (hf : f ∈ D) :
    SameOff D s.mem (takePage s f).mem := by
  show SameOff D s.mem (fill s.mem f 4096 0xaf)
  exact sameOff_blit hf le_rfl le_rfl

/-! ### Release -/

/-- The state after `kfreepage` put the frame `f` at the head of the list. -/
def givePage (s : KState) (f : ℕ) : KState :=
  { s with
    mem := store (fill s.mem f 4096 0xdd) f 8 s.freelist
    freelist := PA_TO_KVA f
    log := .free f :: s.log }

theorem wp_kfreepage {s : KState} {f : ℕ} {Q : Unit → KState → Prop} {E : Panic → KState → Prop}
    (hf : L.Frame f) (hQ : Q () (givePage s f)) : wp (kfreepage L f) s Q E := by
  unfold kfreepage
  refine wp_bind.mpr (wp_ensure_pos ?_ (wp_bind.mpr ?_))
  · exact (Layout.frame_iff (by have := hf.lt; omega)).mpr hf
  · have hk : PA_TO_KVA f = PA_TO_KVA f + 0 := (Nat.add_zero _).symm
    simp only [PGSIZE_eq]
    refine wp_memset hf hk (by omega) (wp_bind.mpr (wp_get.mpr (wp_bind.mpr ?_)))
    exact wp_kwrite64 hf hk (by omega) (wp_modify.mpr hQ)

/-- A page outside the region is refused. -/
theorem wp_kfreepage_invalid {s : KState} {pa : ℕ} {Q : Unit → KState → Prop}
    {E : Panic → KState → Prop} (hpa : pa < 2 ^ 64) (hf : ¬ L.Frame pa)
    (hE : E (.invalidPage pa) s) : wp (kfreepage L pa) s Q E := by
  unfold kfreepage
  refine wp_bind.mpr (wp_ensure.mpr ⟨fun h => ?_, fun _ => hE⟩)
  exact absurd ((Layout.frame_iff hpa).mp h) hf

theorem freelist_lt {s : KState} {fs : List ℕ} (h : FreeOk L s fs) : s.freelist < 2 ^ 64 := by
  have hc := h.chain
  cases fs with
  | nil => rw [show s.freelist = 0 from hc]; norm_num
  | cons g fs => rw [hc.1]; exact Nat.mod_lt _ (by norm_num)

theorem FreeOk.given {s : KState} {f : ℕ} {fs : List ℕ} (h : FreeOk L s fs) (hf : L.Frame f)
    (hnew : f ∉ fs) : FreeOk L (givePage s f) (f :: fs) := by
  refine ⟨⟨rfl, ?_⟩, List.nodup_cons.mpr ⟨hnew, h.nodup⟩, fun g hg => ?_⟩
  · have hload : load (givePage s f).mem f 8 = s.freelist := by
      show load (store _ f 8 s.freelist) f 8 = _
      rw [load_store]
      exact Nat.mod_eq_of_lt (freelist_lt h)
    rw [hload]
    refine h.chain.congr fun g hg x hx => ?_
    have hne : ¬ InPage f x := fun hx' =>
      hnew ((hx.unique (h.frame g hg).aligned hf.aligned hx') ▸ hg)
    unfold InPage at hne
    show store (fill s.mem f 4096 0xdd) f 8 s.freelist x = _
    rw [store, blit_of_not_mem (by omega), fill, blit_of_not_mem (by omega)]
  · rcases List.mem_cons.mp hg with rfl | hg
    · exact hf
    · exact h.frame g hg

theorem sameOff_givePage {D : Set ℕ} {s : KState} {f : ℕ} (hf : f ∈ D) :
    SameOff D s.mem (givePage s f).mem := by
  show SameOff D s.mem (store (fill s.mem f 4096 0xdd) f 8 s.freelist)
  have h1 : SameOff D s.mem (fill s.mem f 4096 0xdd) := sameOff_blit hf le_rfl le_rfl
  exact h1.trans (sameOff_blit hf le_rfl (by omega))

/-! ### The history -/

/-- The frame `f` is free after the events of the log (newest first). -/
def isFree : List PageEvent → ℕ → Bool
  | [], _ => false
  | .alloc g :: l, f => if f = g then false else isFree l f
  | .free g :: l, f => if f = g then true else isFree l f
  | .empty :: l, f => isFree l f

/-- No frame was released while it was free. -/
def NoDoubleFree : List PageEvent → Prop
  | [] => True
  | .free f :: l => isFree l f = false ∧ NoDoubleFree l
  | .alloc _ :: l => NoDoubleFree l
  | .empty :: l => NoDoubleFree l

/-- The history agrees with the free list and has no double release. -/
structure LogOk (log : List PageEvent) (fs : List ℕ) : Prop where
  free_iff : ∀ f, isFree log f = true ↔ f ∈ fs
  noDouble : NoDoubleFree log

theorem LogOk.taken {log : List PageEvent} {f : ℕ} {fs : List ℕ} (h : LogOk log (f :: fs))
    (hnd : (f :: fs).Nodup) : LogOk (.alloc f :: log) fs := by
  refine ⟨fun g => ?_, h.noDouble⟩
  have hf := (List.nodup_cons.mp hnd).1
  unfold isFree
  split_ifs with hg
  · subst hg; simp [hf]
  · rw [h.free_iff]; simp [hg]

theorem LogOk.given {log : List PageEvent} {f : ℕ} {fs : List ℕ} (h : LogOk log fs)
    (hf : f ∉ fs) : LogOk (.free f :: log) (f :: fs) := by
  refine ⟨fun g => ?_, ?_, h.noDouble⟩
  · unfold isFree
    split_ifs with hg
    · simp [hg]
    · rw [h.free_iff]; simp [hg]
  · rw [← Bool.not_eq_true, h.free_iff]; exact hf

theorem LogOk.foundEmpty {log : List PageEvent} {fs : List ℕ} (h : LogOk log fs) :
    LogOk (.empty :: log) fs := ⟨fun g => h.free_iff g, h.noDouble⟩

end UCore.Mem.Kalloc
