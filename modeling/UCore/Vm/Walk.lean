import UCore.Vm.Growth

/-! # Walking the page table

`walk`, `walkaddr` and `useraddr`. In a state with a view, `walk` finds the entry of a page number
(`slot`), with `alloc` after making the page-table pages it misses (`wp_walk_alloc`), and changes
only pages of the kernel's own; `walkaddr` reads the entry. -/

namespace UCore.Vm.Walk

open UCore.Lib.Bytes UCore.Lib.Hoare UCore.Riscv UCore.Mem.State UCore.Mem.Kalloc
open UCore.Vm.Spaces UCore.Vm.Tables UCore.Vm.Growth

/-! ### Memory maps -/

/-- `struct vma`, its owner and its place in the list left out: the list of an `Mm` has both. -/
structure Vma where
  vmStart : ℕ
  vmEnd : ℕ
  pteFlags : ℕ
  deriving DecidableEq

/-- `struct mm`, its lock left out. -/
structure Mm where
  pgt : ℕ
  vma : List Vma
  refcnt : ℕ
  deriving DecidableEq

variable (L : Layout)

/-! ### The code -/

/-- The loop of `walk` over the upper levels; `none` is the null pointer. -/
def walkLoop (va : ℕ) (alloc : Bool) : ℕ → ℕ → KM (Option ℕ)
  | 0, pagetable => return some (pagetable + 8 * PX 0 va)
  | level + 1, pagetable => do
    let ptep := pagetable + 8 * PX (level + 1) va
    let pte ← kread64 L ptep
    if Has pte PTE_V then
      walkLoop va alloc level (PA_TO_KVA (PTE2PA pte))
    else if alloc = false then
      return none
    else
      let pa ← kallocpage L
      let pagetable := PA_TO_KVA pa
      if pagetable = 0 then
        return none
      else
        memset L pagetable 0 PGSIZE
        kwrite64 L ptep (PA2PTE (KVA_TO_PA pagetable) ||| PTE_V)
        walkLoop va alloc level pagetable

/-- `walk(mm, va, alloc)`: the address of the entry of `va`. -/
def walk (mm : Mm) (va : ℕ) (alloc : Bool) : KM (Option ℕ) := do
  ensure (IS_USER_VA va) .invalidUserVA
  walkLoop L va alloc 2 mm.pgt

/-- `walkaddr(mm, va)`: the physical address, `0` if not mapped for the user. -/
def walkaddr (mm : Mm) (va : ℕ) : KM ℕ := do
  ensure (IS_USER_VA va) .invalidUserVA
  ensure (PGALIGNED va) (.unalignedVa va)
  match ← walk L mm va false with
  | none => return 0
  | some ptep =>
    let pte ← kread64 L ptep
    if ¬ Has pte PTE_V then
      return 0
    else if ¬ Has pte PTE_U then
      return 0
    else
      return PTE2PA pte

/-- `useraddr(mm, va)`. -/
def useraddr (mm : Mm) (va : ℕ) : KM ℕ := do
  let page ← walkaddr L mm (PGROUNDDOWN va)
  if page = 0 then
    return 0
  else
    return page ||| (va &&& 0xFFF)

/-! ### From state to state -/

variable {L} {ι : Type} {s s' s'' : KState} {A B C : View ι} {i : ι} {mm : Mm} {va r : ℕ}

/-- From `s` the code went to `s'`, which holds the view `B`; it changed no page outside `D` and no
object of the object allocators. -/
structure Leads (L : Layout) (s s' : KState) (B : View ι) (D : Set ℕ) : Prop where
  reps : Reps L s' B
  mem : SameOff D s.mem s'.mem
  mmObjs : s'.mmObjs = s.mmObjs
  vmaObjs : s'.vmaObjs = s.vmaObjs

theorem Leads.refl (h : Reps L s A) (D : Set ℕ) : Leads L s s A D :=
  ⟨h, SameOff.refl D _, rfl, rfl⟩

theorem Leads.trans {D : Set ℕ} (h : Leads L s s' B D) (h' : Leads L s' s'' C D) :
    Leads L s s'' C D :=
  ⟨h'.reps, h.mem.trans h'.mem, h'.mmObjs.trans h.mmObjs, h'.vmaObjs.trans h.vmaObjs⟩

theorem Leads.mono {D E : Set ℕ} (h : Leads L s s' B D) (hE : D ⊆ E) : Leads L s s' B E :=
  ⟨h.reps, h.mem.mono hE, h.mmObjs, h.vmaObjs⟩

/-! ### The levels -/

/-- The kernel address of the entry of page number `v`, if its page-table page is there. -/
def slot (A : View ι) (i : ι) (v : ℕ) : Option ℕ :=
  (A.tbl i (path v)).map fun t => PA_TO_KVA t + 8 * px 0 v

theorem sameOff_growPage {p : List Idx} {k : Idx} {t f : ℕ} {fs : List ℕ}
    (hp : p.length ≤ 2) (ht : A.tbl i p = some t) (hfree : A.free = f :: fs) :
    SameOff (Kernel A) s.mem (growPage s f t k).mem := by
  have hf : f ∈ Kernel A := Or.inl (by rw [hfree]; simp)
  have htK : t ∈ Kernel A := Or.inr ⟨i, p, hp, ht⟩
  have hk := idx_lt k
  show SameOff _ s.mem (store (fill (fill s.mem f 4096 0xaf) f 4096 0) (t + 8 * k) 8 _)
  have h1 : SameOff (Kernel A) s.mem (fill s.mem f 4096 0xaf) := sameOff_blit hf le_rfl le_rfl
  have h2 : SameOff (Kernel A) (fill s.mem f 4096 0xaf) (fill (fill s.mem f 4096 0xaf) f 4096 0) :=
    sameOff_blit hf le_rfl le_rfl
  exact h1.trans (h2.trans (sameOff_blit htK (by omega) (by omega)))

/-- One level of `walk`: the next page-table page is there, or the walk ends, or a free frame
becomes it. -/
theorem wp_walkLevel [DecidableEq ι] (h : Reps L s A) {p : List Idx} {k : Idx} {t level : ℕ}
    {alloc : Bool} (hp : p.length ≤ 1) (ht : A.tbl i p = some t)
    (hk : PX (level + 1) va = k) {Q : Option ℕ → KState → Prop} {E : Panic → KState → Prop}
    (hsome : ∀ t', A.tbl i (p ++ [k]) = some t' →
      wp (walkLoop L va alloc level (PA_TO_KVA t')) s Q E)
    (hnone : A.tbl i (p ++ [k]) = none → alloc = false → Q none s)
    (hdry : A.tbl i (p ++ [k]) = none → alloc = true → A.free = [] → Q none (noPage s))
    (hgrow : A.tbl i (p ++ [k]) = none → alloc = true → ∀ f fs, A.free = f :: fs →
      wp (walkLoop L va alloc level (PA_TO_KVA f)) (growPage s f t k) Q E) :
    wp (walkLoop L va alloc (level + 1) (PA_TO_KVA t)) s Q E := by
  have htF := h.ok.frame_tbl (by omega) ht
  have hk8 := idx_lt k
  have hchild : A.tbl i (p ++ [k]) = child s.mem t k := by rw [h.tbl_concat hp, ht]; rfl
  unfold walkLoop
  rw [hk]
  refine wp_bind.mpr (wp_kread64 htF rfl (by omega) ?_)
  change wp (if Has (entry s.mem t k) PTE_V then _ else _) s Q E
  split_ifs with hV halloc
  · refine hsome _ ?_
    rw [hchild, child, if_pos hV]
    rfl
  · exact hnone (by rw [hchild, child_eq_none hV]) halloc
  · have hnone' : A.tbl i (p ++ [k]) = none := by rw [hchild, child_eq_none hV]
    rw [Bool.not_eq_false] at halloc
    rw [wp_bind]
    cases hfree : A.free with
    | nil =>
      have hfo := h.freeOk
      rw [hfree] at hfo
      refine wp_kallocpage_nil hfo ?_
      rw [if_pos (by decide)]
      exact hdry hnone' halloc hfree
    | cons f fs =>
      have hfo := h.freeOk
      rw [hfree] at hfo
      have hfF := hfo.frame f (by simp)
      refine wp_kallocpage_cons hfo ?_
      rw [if_neg hfF.kva_ne_zero]
      simp only [PGSIZE_eq, KVA_TO_PA_PA_TO_KVA (show f < 2 ^ 64 by have := hfF.lt; omega)]
      refine wp_bind.mpr (wp_memset hfF (o := 0) (by rw [Nat.add_zero]) (by omega) ?_)
      refine wp_bind.mpr (wp_kwrite64 htF rfl (by omega) ?_)
      exact hgrow hnone' halloc f fs hfree

variable [DecidableEq ι]

/-- The page number of a user address. -/
theorem vpn_lt (h : va ≤ MAXVA) : va / 4096 < NVPN := by
  rw [MAXVA_eq] at h; rw [NVPN_eq]; omega

/-- **`walk` without `alloc`** only looks. -/
theorem wp_walk_look (h : Reps L s A) (hr : A.tbl i [] = some r) (hpgt : mm.pgt = PA_TO_KVA r)
    (hva : va ≤ MAXVA) :
    wpOk (walk L mm va false) s fun o s' => s' = s ∧ o = slot A i (va / 4096) := by
  unfold walk
  rw [hpgt]
  refine wp_bind.mpr (wp_ensure_pos hva ?_)
  refine wp_walkLevel h (p := []) (k := px 2 (va / 4096)) (by simp) hr (PX_eq 2 va)
    (fun t ht => ?_) (fun hn _ => ⟨rfl, ?_⟩) (fun _ hf => absurd hf (by simp))
    (fun _ hf => absurd hf (by simp))
  · refine wp_walkLevel h (p := [px 2 (va / 4096)]) (k := px 1 (va / 4096)) (by simp) ht
      (PX_eq 1 va) (fun t' ht' => ?_) (fun hn _ => ⟨rfl, ?_⟩) (fun _ hf => absurd hf (by simp))
      (fun _ hf => absurd hf (by simp))
    · refine ⟨rfl, ?_⟩
      rw [slot, show path (va / 4096) = [px 2 (va / 4096)] ++ [px 1 (va / 4096)] from rfl, ht',
        PX_eq]
      rfl
    · rw [slot, show path (va / 4096) = [px 2 (va / 4096)] ++ [px 1 (va / 4096)] from rfl, hn]
      rfl
  · have := h.tbl_concat (p := [px 2 (va / 4096)]) (k := px 1 (va / 4096)) (i := i) (by simp)
    rw [show [px 2 (va / 4096)] = [] ++ [px 2 (va / 4096)] from rfl, hn] at this
    rw [slot, show path (va / 4096) = [px 2 (va / 4096)] ++ [px 1 (va / 4096)] from rfl]
    simp only [List.nil_append, Option.bind_none] at this
    rw [this]
    rfl

/-- **`walk` with `alloc`** makes the page-table pages it misses from the free list. -/
theorem wp_walk_alloc (h : Reps L s A) (hr : A.tbl i [] = some r) (hpgt : mm.pgt = PA_TO_KVA r)
    (hva : va ≤ MAXVA) :
    wpOk (walk L mm va true) s fun o s' =>
      Leads L s s' (Growth.walk A i (va / 4096)).1 (Kernel A) ∧
      o = slot (Growth.walk A i (va / 4096)).1 i (va / 4096) ∧
      o.isSome = (Growth.walk A i (va / 4096)).2 := by
  generalize hv : va / 4096 = v
  -- the second level, from a state in which the first page-table page is there
  have hsecond : ∀ {s₁ : KState} {B : View ι} {t : ℕ}, Leads L s s₁ B (Kernel A) →
      Kernel B ⊆ Kernel A → grow A i [px 2 v] = (B, true) → B.tbl i [px 2 v] = some t →
      wpOk (walkLoop L va true 1 (PA_TO_KVA t)) s₁ fun o s' =>
        Leads L s s' (Growth.walk A i v).1 (Kernel A) ∧ o = slot (Growth.walk A i v).1 i v ∧
        o.isSome = (Growth.walk A i v).2 := by
    intro s₁ B t hs₁ hKB hg ht
    have hw : Growth.walk A i v = grow B i (path v) := by
      rw [Growth.walk, hg]; rfl
    rw [hw]
    have hpath : path v = [px 2 v] ++ [px 1 v] := rfl
    refine wp_walkLevel hs₁.reps (p := [px 2 v]) (k := px 1 v) (by simp) ht
      (by rw [PX_eq, hv]) (fun t' ht' => ?_) (fun _ hf => absurd hf (by simp))
      (fun hn _ hfree => ?_) (fun hn _ f fs hfree => ?_)
    · rw [← hpath] at ht'
      have e : grow B i (path v) = (B, true) := by unfold grow; rw [ht']; simp
      rw [e]
      refine ⟨hs₁, ?_, rfl⟩
      rw [slot, ht', PX_eq, hv]
      rfl
    · rw [← hpath] at hn
      have e : grow B i (path v) = (B.starve, false) := by unfold grow; rw [hn, hfree]; simp
      rw [e]
      refine ⟨hs₁.trans ⟨hs₁.reps.noPage, SameOff.refl _ _, rfl, rfl⟩, ?_, rfl⟩
      rw [slot, View.starve_tbl, hn]
      rfl
    · rw [← hpath] at hn
      have e : grow B i (path v) = (B.hang i (path v) f, true) := by
        unfold grow; rw [hn, hfree]; simp
      rw [e]
      refine ⟨hs₁.trans (Leads.mono ⟨hs₁.reps.hang (by simp) ht hfree hn,
        sameOff_growPage (by simp) ht hfree, rfl, rfl⟩ hKB), ?_, rfl⟩
      rw [slot, View.hang_tbl_self, PX_eq, hv]
      rfl
  unfold walk
  rw [hpgt]
  refine wp_bind.mpr (wp_ensure_pos hva ?_)
  refine wp_walkLevel h (p := []) (k := px 2 v) (by simp) hr (by rw [PX_eq, hv])
    (fun t ht => ?_) (fun _ hf => absurd hf (by simp)) (fun hn _ hfree => ?_)
    (fun hn _ f fs hfree => ?_) <;> rw [List.nil_append] at *
  · refine hsecond (Leads.refl h _) subset_rfl ?_ ht
    unfold grow; rw [ht]; simp
  · have e : grow A i [px 2 v] = (A.starve, false) := by unfold grow; rw [hn, hfree]; simp
    have hw : Growth.walk A i v = (A.starve, false) := by rw [Growth.walk, e]; rfl
    rw [hw]
    refine ⟨⟨h.noPage, SameOff.refl _ _, rfl, rfl⟩, ?_, rfl⟩
    have := h.tbl_concat (p := [px 2 v]) (k := px 1 v) (i := i) (by simp)
    rw [hn] at this
    rw [slot, View.starve_tbl, show path v = [px 2 v] ++ [px 1 v] from rfl, this]
    rfl
  · have hG : Grew A (A.hang i [px 2 v] f) i := Grew.hang (by simp) hn hfree
    refine hsecond ⟨h.hang (p := []) (by simp) hr hfree hn,
      sameOff_growPage (by simp) hr hfree, rfl, rfl⟩ hG.kernel ?_ (View.hang_tbl_self _ _ _)
    unfold grow; rw [hn, hfree]; simp

/-! ### Reading an entry -/

/-- What `walkaddr` makes of an entry. -/
def userTarget (pte : ℕ) : ℕ := if Has pte PTE_V ∧ Has pte PTE_U then PTE2PA pte else 0

theorem userTarget_zero : userTarget 0 = 0 := by
  unfold userTarget; rw [if_neg fun h => not_has_zero _ h.1]

/-- **`walkaddr` reads the entry.** -/
theorem wp_walkaddr (h : Reps L s A) (hr : A.tbl i [] = some r) (hpgt : mm.pgt = PA_TO_KVA r)
    (hva : va ≤ MAXVA) (hal : PGALIGNED va) :
    wpOk (walkaddr L mm va) s fun o s' => s' = s ∧ o = userTarget (A.pte i (va / 4096)) := by
  unfold walkaddr
  refine wp_bind.mpr (wp_ensure_pos hva (wp_bind.mpr (wp_ensure_pos hal ?_)))
  refine (wp_walk_look h hr hpgt hva).seq ?_
  rintro o s' ⟨hs, rfl⟩
  rw [hs]
  have hv := vpn_lt hva
  generalize va / 4096 = v at hv ⊢
  unfold slot
  cases ht : A.tbl i (path v) with
  | none => exact ⟨rfl, by rw [h.pte_eq_zero hv ht, userTarget_zero]⟩
  | some t =>
    have htF := h.ok.frame_tbl (path_length v) ht
    have h8 := idx_lt (px 0 v)
    refine wp_bind.mpr (wp_kread64 htF rfl (by omega) ?_)
    rw [show load s.mem (t + 8 * px 0 v) 8 = A.pte i v from (h.pte_eq hv ht).symm]
    unfold userTarget
    by_cases hV : Has (A.pte i v) PTE_V
    · by_cases hU : Has (A.pte i v) PTE_U
      · rw [if_neg (not_not.mpr hV), if_neg (not_not.mpr hU), if_pos ⟨hV, hU⟩]
        exact ⟨rfl, rfl⟩
      · rw [if_neg (not_not.mpr hV), if_pos hU, if_neg fun hc => hU hc.2]
        exact ⟨rfl, rfl⟩
    · rw [if_pos hV, if_neg fun hc => hV hc.1]
      exact ⟨rfl, rfl⟩

end UCore.Vm.Walk
