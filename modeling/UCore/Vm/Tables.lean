import UCore.Lib.Trie
import UCore.Mem.Kalloc
import UCore.Vm.Spaces

/-! # Page tables in memory

`entry m t i` is the entry at index `i` of the page-table page `t` in memory `m`; a valid entry of
an upper page-table page points to the next one (`child`). `Reps L s A` says that the state `s` holds
the view `A`: the free list in memory visits `A.free`, the trees below the roots have the pages
`A.tbl`, and the last level has the entries `A.pte`.

Every store of the memory code is one of the lemmas at the end: into a page without a use of the
kernel's own (`Reps.sameOff`), into an entry of the last level (`Reps.setPte`), a new page-table page
(`Reps.hang`), a page taken or given back (`Reps.take`, `Reps.give`), a new root (`Reps.newRoot`). -/

namespace UCore.Vm.Tables

open UCore.Lib.Bytes UCore.Lib.Trie UCore.Riscv UCore.Mem.State UCore.Mem.Kalloc
open UCore.Vm.Spaces

variable {ι : Type} {L : Layout} {s s' : KState} {A : View ι} {m m' : Mem}

/-! ### Entries -/

/-- The entry at index `i` of the page-table page `t`. -/
def entry (m : Mem) (t : ℕ) (i : Idx) : ℕ := load m (t + 8 * i) 8

/-- The next page-table page an entry points to. -/
def child (m : Mem) (t : ℕ) (i : Idx) : Option ℕ :=
  if Has (entry m t i) PTE_V then some (PTE2PA (entry m t i)) else none

/-- The page-table page at path `p` below the root `r`. -/
def tblOf (m : Mem) (r : Option ℕ) (p : List Idx) : Option ℕ := r.bind fun r => follow (child m) r p

/-- The entry of page number `v` below the root `r`; `0` if its page-table page is missing. -/
def pteOf (m : Mem) (r : Option ℕ) (v : ℕ) : ℕ :=
  match tblOf m r (path v) with
  | none => 0
  | some t => entry m t (px 0 v)

theorem idx_lt (i : Idx) : 8 * (i : ℕ) + 8 ≤ 4096 := by have := i.isLt; omega

theorem entry_lt (m : Mem) (t : ℕ) (i : Idx) : entry m t i < 2 ^ 64 := by
  have := load_lt m 8 (t + 8 * i)
  norm_num at this ⊢
  exact this

/-- An entry depends only on its own page. -/
theorem entry_congr {t : ℕ} (h : ∀ x, InPage t x → m' x = m x) (i : Idx) :
    entry m' t i = entry m t i :=
  load_congr 8 _ fun x h1 h2 => h x ⟨by omega, by have := idx_lt i; omega⟩

theorem child_congr {t : ℕ} (h : ∀ i, entry m' t i = entry m t i) (i : Idx) :
    child m' t i = child m t i := by unfold child; rw [h i]

theorem entry_store_self (m : Mem) (t : ℕ) {e : ℕ} (he : e < 2 ^ 64) (k j : Idx) :
    entry (store m (t + 8 * k) 8 e) t j = if j = k then e else entry m t j := by
  unfold entry
  split_ifs with hjk
  · subst hjk
    rw [load_store]
    exact Nat.mod_eq_of_lt (by norm_num at he ⊢; exact he)
  · have : (j : ℕ) ≠ k := fun h => hjk (Fin.ext h)
    exact load_store_of_disjoint (by omega)

theorem entry_store_of_ne {t u e : ℕ} (ht : t % 4096 = 0) (hu : u % 4096 = 0) (hne : u ≠ t)
    (k j : Idx) : entry (store m (t + 8 * k) 8 e) u j = entry m u j := by
  have h1 := idx_lt j
  have h2 := idx_lt k
  exact load_store_of_disjoint (by omega)

theorem entry_fill_zero (m : Mem) (g : ℕ) (j : Idx) : entry (fill m g 4096 0) g j = 0 :=
  load_fill_zero 8 _ (by omega) (by have := idx_lt j; omega)

theorem child_eq_none {t : ℕ} {i : Idx} (h : ¬ Has (entry m t i) PTE_V) : child m t i = none :=
  if_neg h

theorem child_fill_zero (m : Mem) (g : ℕ) (j : Idx) : child (fill m g 4096 0) g j = none :=
  child_eq_none (by rw [entry_fill_zero]; exact not_has_zero _)

/-! ### The view of a state -/

/-- The state `s` holds the good view `A`. -/
structure Reps (L : Layout) (s : KState) (A : View ι) : Prop where
  ok : A.Ok L
  chain : Chain s.mem s.freelist A.free
  logOk : LogOk s.log A.free
  dry : A.dry ↔ PageEvent.empty ∈ s.log
  tbl : ∀ i p, p.length ≤ 2 → A.tbl i p = tblOf s.mem (A.tbl i []) p
  pte : ∀ i v, v < NVPN → A.pte i v = pteOf s.mem (A.tbl i []) v

theorem Reps.freeOk (h : Reps L s A) : FreeOk L s A.free :=
  ⟨h.chain, h.ok.nodup, fun _ hf => h.ok.frame_free hf⟩

/-- One level down the tree. -/
theorem Reps.tbl_concat (h : Reps L s A) {i : ι} {p : List Idx} {k : Idx} (hp : p.length ≤ 1) :
    A.tbl i (p ++ [k]) = (A.tbl i p).bind fun t => child s.mem t k := by
  rw [h.tbl i _ (by rw [List.length_append, List.length_singleton]; omega),
    h.tbl i p (by omega), tblOf, tblOf]
  cases A.tbl i [] with
  | none => rfl
  | some r => exact follow_concat _ r p k

/-- The entry of a page number whose page-table page is there. -/
theorem Reps.pte_eq (h : Reps L s A) {i : ι} {v t : ℕ} (hv : v < NVPN)
    (ht : A.tbl i (path v) = some t) : A.pte i v = entry s.mem t (px 0 v) := by
  rw [h.pte i v hv, pteOf, ← h.tbl i _ (path_length v), ht]

theorem Reps.pte_eq_zero (h : Reps L s A) {i : ι} {v : ℕ} (hv : v < NVPN)
    (ht : A.tbl i (path v) = none) : A.pte i v = 0 := by
  rw [h.pte i v hv, pteOf, ← h.tbl i _ (path_length v), ht]

/-- The page-table page of a mapped page number is there. -/
theorem Reps.tbl_isSome (h : Reps L s A) {i : ι} {v : ℕ} (hv : v < NVPN)
    (hV : Has (A.pte i v) PTE_V) : ∃ t, A.tbl i (path v) = some t := by
  cases ht : A.tbl i (path v) with
  | some t => exact ⟨t, rfl⟩
  | none => rw [h.pte_eq_zero hv ht] at hV; exact absurd hV (not_has_zero _)

theorem Reps.pte_lt (h : Reps L s A) {i : ι} {v : ℕ} (hv : v < NVPN) : A.pte i v < 2 ^ 64 := by
  cases ht : A.tbl i (path v) with
  | some t => rw [h.pte_eq hv ht]; exact entry_lt _ _ _
  | none => rw [h.pte_eq_zero hv ht]; norm_num

/-! ### Changes of memory that keep the trees -/

/-- Memory that agrees on the entries of the upper page-table pages has the same trees. -/
theorem Reps.tbl_of_agree (h : Reps L s A) {i : ι}
    (hag : ∀ p t, p.length ≤ 1 → A.tbl i p = some t → ∀ j, child m' t j = child s.mem t j)
    {p : List Idx} (hp : p.length ≤ 2) : A.tbl i p = tblOf m' (A.tbl i []) p := by
  rw [h.tbl i p hp, tblOf, tblOf]
  cases hr : A.tbl i [] with
  | none => rfl
  | some r =>
    refine (follow_eq_of_agree (n := 2) (fun q t hq hqt j => ?_) p hp).symm
    refine hag q t (by omega) ?_ j
    rw [h.tbl i q (by omega), hr]
    exact hqt

/-- Memory that agrees on all page-table pages has the same trees and entries. -/
theorem Reps.trees_of_agree (h : Reps L s A)
    (hag : ∀ i p t, p.length ≤ 2 → A.tbl i p = some t → ∀ j, entry m' t j = entry s.mem t j) :
    (∀ i p, p.length ≤ 2 → A.tbl i p = tblOf m' (A.tbl i []) p) ∧
      ∀ i v, v < NVPN → A.pte i v = pteOf m' (A.tbl i []) v := by
  have htbl : ∀ i p, p.length ≤ 2 → A.tbl i p = tblOf m' (A.tbl i []) p := fun i p hp =>
    h.tbl_of_agree (fun p t hp ht => child_congr (hag i p t (by omega) ht)) hp
  refine ⟨htbl, fun i v hv => ?_⟩
  rw [pteOf, ← htbl i _ (path_length v)]
  cases ht : A.tbl i (path v) with
  | none => exact h.pte_eq_zero hv ht
  | some t => rw [h.pte_eq hv ht]; exact (hag i _ t (path_length v) ht _).symm

/-- Memory that agrees on all entries of a tree but the one of `v` in the last level. -/
theorem Reps.pteOf_of_agree (h : Reps L s A) {i : ι} {v t : ℕ} (hv : v < NVPN)
    (ht : A.tbl i (path v) = some t)
    (hag : ∀ p u, p.length ≤ 2 → A.tbl i p = some u → ∀ k, ¬ (p = path v ∧ k = px 0 v) →
      entry m' u k = entry s.mem u k) {w : ℕ} (hw : w < NVPN) :
    pteOf m' (A.tbl i []) w = if w = v then entry m' t (px 0 v) else A.pte i w := by
  have htbl : A.tbl i (path w) = tblOf m' (A.tbl i []) (path w) := by
    refine h.tbl_of_agree (fun p u hp hu => child_congr fun k => ?_) (path_length w)
    refine hag p u (by omega) hu k ?_
    rintro ⟨rfl, -⟩
    simp [path] at hp
  rw [pteOf, ← htbl]
  cases hu : A.tbl i (path w) with
  | none =>
    rw [if_neg]
    · exact (h.pte_eq_zero hw hu).symm
    · rintro rfl
      rw [ht] at hu
      cases hu
  | some u =>
    show entry _ u (px 0 w) = _
    split_ifs with hwv
    · subst hwv
      rw [ht] at hu
      cases hu
      rfl
    · rw [hag _ u (path_length w) hu _ fun hc => hwv (path_px0_inj hw hv hc.1 hc.2), h.pte_eq hw hu]

/-- The pages of the kernel's own: free pages and page-table pages. -/
def Kernel (A : View ι) : Set ℕ := {f | f ∈ A.free ∨ ∃ i p, p.length ≤ 2 ∧ A.tbl i p = some f}

theorem Reps.kernel_aligned (h : Reps L s A) {f : ℕ} (hf : f ∈ Kernel A) : f % 4096 = 0 := by
  rcases hf with hf | ⟨i, p, hp, hf⟩
  · exact (h.ok.frame_free hf).aligned
  · exact (h.ok.frame_tbl hp hf).aligned

/-- **A change of memory away from the kernel's own pages keeps the view.** -/
theorem Reps.sameOff (h : Reps L s A) {D : Set ℕ} (hD : ∀ f ∈ D, f % 4096 = 0)
    (hdisj : ∀ f ∈ Kernel A, f ∉ D) (hm : SameOff D s.mem s'.mem)
    (hl : s'.freelist = s.freelist) (hlog : s'.log = s.log) : Reps L s' A := by
  have hpage : ∀ f ∈ Kernel A, ∀ x, InPage f x → s'.mem x = s.mem x := fun f hf x hx =>
    hm.page hD (h.kernel_aligned hf) (hdisj f hf) hx
  have hag : ∀ i p t, p.length ≤ 2 → A.tbl i p = some t → ∀ j, entry s'.mem t j = entry s.mem t j :=
    fun i p t hp ht j => entry_congr (hpage t (Or.inr ⟨i, p, hp, ht⟩)) j
  have htrees := h.trees_of_agree hag
  refine ⟨h.ok, ?_, by rw [hlog]; exact h.logOk, by rw [hlog]; exact h.dry, htrees.1, htrees.2⟩
  rw [hl]
  exact h.chain.congr fun f hf => hpage f (Or.inl hf)

/-- The target of a leaf is none of the kernel's own pages. -/
theorem not_kernel_of_leaf (h : A.Ok L) {i : ι} {v f : ℕ} (hf : A.Owns L (.leaf i v) f) :
    f ∉ Kernel A := by
  rintro (hf' | ⟨j, p, hp, hf'⟩)
  · cases h.uniq _ .free f hf hf'
  · cases h.uniq _ (.table j p) f hf ⟨hp, hf'⟩

/-- A store into a page that is none of the kernel's own. -/
theorem Reps.blit (h : Reps L s A) {f a n : ℕ} {g : ℕ → UInt8} (hf : f % 4096 = 0)
    (hk : f ∉ Kernel A) (h1 : f ≤ a) (h2 : a + n ≤ f + 4096) :
    Reps L { s with mem := blit s.mem a n g } A :=
  h.sameOff (D := {f}) (by simpa using hf) (fun g hg he => hk (he ▸ hg))
    (sameOff_blit (by simp) h1 h2) rfl rfl

/-! ### The allocator -/

theorem Reps.noPage (h : Reps L s A) : Reps L (noPage s) A.starve :=
  ⟨h.ok.starve, h.chain, h.logOk.foundEmpty, by simp [Mem.Kalloc.noPage],
    h.tbl, h.pte⟩

theorem Reps.take (h : Reps L s A) {f : ℕ} {fs : List ℕ} (hfree : A.free = f :: fs) :
    Reps L (takePage s f) A.take := by
  have hfo : FreeOk L s (f :: fs) := by rw [← hfree]; exact h.freeOk
  have hff : f ∈ A.free := by rw [hfree]; simp
  have hpage : ∀ i p t, p.length ≤ 2 → A.tbl i p = some t → ∀ j,
      entry (takePage s f).mem t j = entry s.mem t j := by
    intro i p t hp ht j
    refine entry_congr (fun x hx => ?_) j
    refine (sameOff_takePage (D := {f}) rfl).page ?_ (h.ok.frame_tbl hp ht).aligned ?_ hx
    · intro g hg; rw [hg]; exact (h.ok.frame_free hff).aligned
    · exact fun he => h.ok.free_ne_tbl hp hff ht (by simpa using he.symm)
  have htrees := h.trees_of_agree hpage
  refine ⟨h.ok.take, ?_, ?_, ?_, htrees.1, htrees.2⟩
  · rw [View.take_free, hfree]; exact hfo.taken.chain
  · have hlog := h.logOk
    rw [hfree] at hlog
    rw [View.take_free, hfree]
    exact hlog.taken hfo.nodup
  · exact h.dry.trans (by simp [takePage])

/-- A page taken from the free list into the kernel's hands. -/
theorem Reps.hold (h : Reps L s A) {f : ℕ} {fs : List ℕ} (hfree : A.free = f :: fs) :
    Reps L (takePage s f) (A.hold f) := by
  have hT := h.take hfree
  exact ⟨h.ok.hold hfree, hT.chain, hT.logOk, hT.dry, hT.tbl, hT.pte⟩

theorem Reps.letGo (h : Reps L s A) (f : ℕ) : Reps L s (A.letGo f) :=
  ⟨h.ok.letGo f, h.chain, h.logOk, h.dry, h.tbl, h.pte⟩

theorem Reps.give (h : Reps L s A) {f : ℕ} (hf : L.Frame f) (hno : ∀ o, ¬ A.Owns L o f) :
    Reps L (givePage s f) (A.give f) := by
  have hfo := h.freeOk.given hf (hno .free)
  have hpage : ∀ i p t, p.length ≤ 2 → A.tbl i p = some t → ∀ j,
      entry (givePage s f).mem t j = entry s.mem t j := by
    intro i p t hp ht j
    refine entry_congr (fun x hx => ?_) j
    refine (sameOff_givePage (D := {f}) rfl).page ?_ (h.ok.frame_tbl hp ht).aligned ?_ hx
    · intro g hg; rw [hg]; exact hf.aligned
    · exact fun he => hno (.table i p) ⟨hp, by rw [ht]; simpa using he⟩
  have htrees := h.trees_of_agree hpage
  refine ⟨h.ok.give hf hno, hfo.chain, h.logOk.given (hno .free), ?_, htrees.1, htrees.2⟩
  exact h.dry.trans (by simp [givePage])

variable [DecidableEq ι]

/-! ### Stores into the trees -/

/-- **A store into an entry of the last level.** -/
theorem Reps.setPte (h : Reps L s A) {i : ι} {v t e : ℕ} (hv : v < NVPN)
    (ht : A.tbl i (path v) = some t) (he : e < 2 ^ 64) (hok : (A.setPte i v e).Ok L) :
    Reps L { s with mem := store s.mem (t + 8 * px 0 v) 8 e } (A.setPte i v e) := by
  have htF := h.ok.frame_tbl (path_length v) ht
  have hent : ∀ j p u, p.length ≤ 2 → A.tbl j p = some u → ∀ k,
      entry (store s.mem (t + 8 * px 0 v) 8 e) u k =
        if (j = i ∧ p = path v) ∧ k = px 0 v then e else entry s.mem u k := by
    intro j p u hp hu k
    by_cases hjp : j = i ∧ p = path v
    · obtain ⟨rfl, rfl⟩ := hjp
      rw [ht] at hu
      cases hu
      rw [entry_store_self _ _ he]
      simp
    · have hne : u ≠ t := by
        rintro rfl
        exact hjp (h.ok.tbl_inj hp (path_length v) hu ht)
      rw [entry_store_of_ne htF.aligned (h.ok.frame_tbl hp hu).aligned hne, if_neg]
      exact fun hc => hjp hc.1
  have htbl : ∀ j p, p.length ≤ 2 →
      A.tbl j p = tblOf (store s.mem (t + 8 * px 0 v) 8 e) (A.tbl j []) p := by
    intro j p hp
    refine h.tbl_of_agree (fun p u hp hu => child_congr fun k => ?_) hp
    rw [hent j p u (by omega) hu k, if_neg]
    rintro ⟨⟨-, rfl⟩, -⟩
    simp [path] at hp
  refine ⟨hok, ?_, h.logOk, h.dry, htbl, fun j w hw => ?_⟩
  · refine h.chain.congr fun f hf x hx => ?_
    have hne : ¬ InPage t x := fun hx' => h.ok.free_ne_tbl (path_length v) hf ht
      (hx.unique (h.ok.frame_free hf).aligned htF.aligned hx')
    have := idx_lt (px 0 v)
    unfold InPage at hne
    show store s.mem _ 8 e x = s.mem x
    exact blit_of_not_mem (by omega)
  · have hpte : pteOf (store s.mem (t + 8 * px 0 v) 8 e) (A.tbl j []) w =
        if j = i ∧ w = v then e else A.pte j w := by
      rw [pteOf, ← htbl j _ (path_length w)]
      cases hu : A.tbl j (path w) with
      | none =>
        rw [if_neg]
        · exact (h.pte_eq_zero hw hu).symm
        · rintro ⟨rfl, rfl⟩; rw [ht] at hu; cases hu
      | some u =>
        show entry _ u (px 0 w) = _
        rw [hent j _ u (path_length w) hu, h.pte_eq hw hu]
        congr 1
        refine propext ⟨fun hc => ⟨hc.1.1, path_px0_inj hw hv hc.1.2 hc.2⟩, ?_⟩
        rintro ⟨rfl, rfl⟩; exact ⟨⟨rfl, rfl⟩, rfl⟩
    exact hpte.symm

/-- The state after a page-table page was made from the free frame `f` and hung under the entry
`k` of the page-table page `t`. -/
def growPage (s : KState) (f t : ℕ) (k : Idx) : KState :=
  { takePage s f with
    mem := store (fill (takePage s f).mem f 4096 0) (t + 8 * k) 8 (PA2PTE f ||| PTE_V) }

/-- **A new page-table page** under a free entry of the tree. -/
theorem Reps.hang (h : Reps L s A) {i : ι} {p : List Idx} {k : Idx} {t f : ℕ} {fs : List ℕ}
    (hp : p.length ≤ 1) (ht : A.tbl i p = some t) (hfree : A.free = f :: fs)
    (hk : A.tbl i (p ++ [k]) = none) : Reps L (growPage s f t k) (A.hang i (p ++ [k]) f) := by
  have hpl : (p ++ [k]).length ≤ 2 := by
    rw [List.length_append, List.length_singleton]; omega
  have hff : f ∈ A.free := by rw [hfree]; simp
  have hfF := h.ok.frame_free hff
  have htF := h.ok.frame_tbl (by omega : p.length ≤ 2) ht
  have hftab : ∀ j q u, q.length ≤ 2 → A.tbl j q = some u → u ≠ f := fun j q u hq hu =>
    (h.ok.free_ne_tbl hq hff hu).symm
  have hT := h.take hfree
  have he : PA2PTE f ||| PTE_V < 2 ^ 64 := by
    have : mkPte f 0 < 2 ^ 64 := mkPte_lt (by have := hfF.lt; omega) (by norm_num)
    simpa [mkPte] using this
  have hpa : PTE2PA (PA2PTE f ||| PTE_V) = f := by
    have : PTE2PA (mkPte f 0) = f / 4096 * 4096 := PTE2PA_mkPte (by have := hfF.lt; omega) (by norm_num)
    rw [hfF.div_mul] at this
    simpa [mkPte] using this
  have hV : Has (PA2PTE f ||| PTE_V) PTE_V := (has_or _ _ _).mpr (Or.inr (by decide))
  -- away from the two pages nothing changes
  have hout : ∀ u, u % 4096 = 0 → u ≠ f → u ≠ t → ∀ x, InPage u x →
      (growPage s f t k).mem x = s.mem x := by
    intro u hu huf hut x hx
    have h1 : ¬ InPage f x := fun hx' => huf (hx.unique hu hfF.aligned hx')
    have h2 : ¬ InPage t x := fun hx' => hut (hx.unique hu htF.aligned hx')
    have := idx_lt k
    unfold InPage at h1 h2
    show store (fill (fill s.mem f 4096 0xaf) f 4096 0) (t + 8 * k) 8 _ x = s.mem x
    rw [store, blit_of_not_mem (by omega), fill, blit_of_not_mem (by omega), fill,
      blit_of_not_mem (by omega)]
  have hent : ∀ j q u, q.length ≤ 2 → A.tbl j q = some u → ∀ l,
      entry (growPage s f t k).mem u l =
        if u = t ∧ l = k then PA2PTE f ||| PTE_V else entry s.mem u l := by
    intro j q u hq hu l
    have huF := h.ok.frame_tbl hq hu
    by_cases hut : u = t
    · subst hut
      show entry (store _ (u + 8 * k) 8 _) u l = _
      rw [entry_store_self _ _ he]
      have hrest : entry (fill (takePage s f).mem f 4096 0) u l = entry s.mem u l := by
        refine entry_congr (fun x hx => ?_) l
        have hx' : ¬ InPage f x := fun hx' =>
          hftab j q u hq hu (hx.unique huF.aligned hfF.aligned hx')
        unfold InPage at hx'
        show fill (fill s.mem f 4096 0xaf) f 4096 0 x = s.mem x
        rw [fill, blit_of_not_mem (by omega), fill, blit_of_not_mem (by omega)]
      rw [hrest]
      simp
    · rw [if_neg fun hc => hut hc.1]
      exact entry_congr (hout u huF.aligned (hftab j q u hq hu) hut) l
  have hnew : ∀ l, entry (growPage s f t k).mem f l = 0 := by
    intro l
    show entry (store _ (t + 8 * k) 8 _) f l = _
    rw [entry_store_of_ne htF.aligned hfF.aligned (hftab i p t (by omega) ht).symm,
      entry_fill_zero]
  have hkfree : child s.mem t k = none := by
    have := h.tbl_concat (k := k) hp (i := i)
    rw [hk, ht] at this
    exact this.symm
  have hchild : ∀ j q u, q.length ≤ 2 → A.tbl j q = some u → ∀ l,
      child (growPage s f t k).mem u l = if u = t ∧ l = k then some f else child s.mem u l := by
    intro j q u hq hu l
    unfold child
    rw [hent j q u hq hu l]
    by_cases hc : u = t ∧ l = k
    · rw [if_pos hc, if_pos hc, if_pos hV, hpa]
    · rw [if_neg hc, if_neg hc]
  have hroot : ∀ j, (A.hang i (p ++ [k]) f).tbl j [] = A.tbl j [] := fun j =>
    View.hang_tbl_of_ne (by simp)
  have htbl : ∀ j q, q.length ≤ 2 → (A.hang i (p ++ [k]) f).tbl j q =
      tblOf (growPage s f t k).mem ((A.hang i (p ++ [k]) f).tbl j []) q := by
    intro j q hq
    rw [hroot]
    by_cases hji : j = i
    · subst hji
      obtain ⟨r, hr⟩ : ∃ r, A.tbl j [] = some r := by
        cases hr : A.tbl j [] with
        | some r => exact ⟨r, rfl⟩
        | none => rw [h.tbl j p (by omega), hr] at ht; cases ht
      have hfol : ∀ q, q.length ≤ 2 → A.tbl j q = follow (child s.mem) r q := fun q hq => by
        rw [h.tbl j q hq, hr]; rfl
      rw [hr]
      show _ = follow (child (growPage s f t k).mem) r q
      rw [follow_graft (p := p) (k := k) (t := t) (g := f) (n := 1)
        ((hfol p (by omega)).symm.trans ht)
        (fun q hq hqt => (h.ok.tbl_inj (by omega) (by omega) ((hfol q (by omega)).trans hqt) ht).2)
        hkfree (fun l => ?_) (fun l => child_eq_none (by rw [hnew]; exact not_has_zero _))
        (fun q u hq hqu hut l => ?_) q (by omega)]
      · by_cases hqk : q = p ++ [k]
        · rw [hqk, View.hang_tbl_self, if_pos rfl]
        · rw [View.hang_tbl_of_ne fun hc => hqk hc.2, if_neg hqk, hfol q hq]
      · rw [hchild j p t (by omega) ht]
        simp
      · rw [hchild j q u (by omega) ((hfol q (by omega)).trans hqu), if_neg fun hc => hut hc.1]
    · rw [View.hang_tbl_of_ne fun hc => hji hc.1]
      refine h.tbl_of_agree (fun q u hq hu l => ?_) hq
      rw [hchild j q u (by omega) hu, if_neg]
      rintro ⟨rfl, -⟩
      exact hji (h.ok.tbl_inj (by omega) (by omega) hu ht).1
  refine ⟨h.ok.hang hpl hfree, ?_, hT.logOk, hT.dry, htbl, fun j v hv => ?_⟩
  · refine hT.chain.congr fun g hg x hx => ?_
    have hgF := hT.ok.frame_free hg
    have hgf : g ≠ f := by
      rintro rfl
      have hnd := h.ok.nodup
      rw [hfree, List.nodup_cons] at hnd
      rw [View.hang_free, hfree] at hg
      exact hnd.1 hg
    have hgt : g ≠ t := h.ok.free_ne_tbl (by omega) (List.mem_of_mem_tail hg) ht
    have h1 : ¬ InPage f x := fun hx' => hgf (hx.unique hgF.aligned hfF.aligned hx')
    have h2 : ¬ InPage t x := fun hx' => hgt (hx.unique hgF.aligned htF.aligned hx')
    have := idx_lt k
    unfold InPage at h1 h2
    show store (fill (takePage s f).mem f 4096 0) (t + 8 * k) 8 _ x = _
    rw [store, blit_of_not_mem (by omega), fill, blit_of_not_mem (by omega)]
  · rw [pteOf, ← htbl j _ (path_length v), View.hang_pte]
    by_cases hjv : j = i ∧ path v = p ++ [k]
    · obtain ⟨rfl, hpv⟩ := hjv
      rw [hpv, View.hang_tbl_self]
      show A.pte j v = entry _ f (px 0 v)
      rw [hnew]
      exact h.pte_eq_zero hv (hpv ▸ hk)
    · rw [View.hang_tbl_of_ne hjv]
      cases hu : A.tbl j (path v) with
      | none => exact h.pte_eq_zero hv hu
      | some u =>
        have hut : u ≠ t := by
          rintro rfl
          have := (h.ok.tbl_inj (path_length v) (by omega) hu ht).2
          rw [← this] at hp
          simp [path] at hp
        show _ = entry _ u (px 0 v)
        rw [hent j _ u (path_length v) hu, if_neg fun hc => hut hc.1]
        exact h.pte_eq hv hu

/-! ### Roots -/

/-- **A new address space** whose root is the cleared page `f`. -/
theorem Reps.newRoot (h : Reps L s A) {i : ι} {f : ℕ} (hf : L.Frame f)
    (hno : ∀ o, ¬ A.Owns L o f) :
    Reps L { s with mem := fill s.mem f 4096 0 } (A.newRoot i f) := by
  have hpage : ∀ j q u, q.length ≤ 2 → A.tbl j q = some u → ∀ l,
      entry (fill s.mem f 4096 0) u l = entry s.mem u l := by
    intro j q u hq hu l
    refine entry_congr (fun x hx => ?_) l
    have hx' : ¬ InPage f x := fun hx' =>
      hno (.table j q) ⟨hq, by rw [hu, hx.unique (h.ok.frame_tbl hq hu).aligned hf.aligned hx']⟩
    unfold InPage at hx'
    rw [fill, blit_of_not_mem (by omega)]
  have htrees := h.trees_of_agree hpage
  have hnone : ∀ (p : List Idx), p ≠ [] → tblOf (fill s.mem f 4096 0) (some f) p = none := by
    intro p hp
    obtain ⟨j, q, rfl⟩ := List.exists_cons_of_ne_nil hp
    show ((child _ f j).bind fun t => follow _ t q) = none
    rw [child_fill_zero]
    rfl
  refine ⟨h.ok.newRoot hf hno, ?_, h.logOk, h.dry, fun j p hp => ?_, fun j v hv => ?_⟩
  · refine h.chain.congr fun g hg x hx => ?_
    have hx' : ¬ InPage f x := fun hx' =>
      hno .free (by rw [← hx.unique (h.ok.frame_free hg).aligned hf.aligned hx']; exact hg)
    unfold InPage at hx'
    show fill s.mem f 4096 0 x = s.mem x
    exact blit_of_not_mem (by omega)
  · simp only [View.newRoot]
    split_ifs with hj hp0
    · subst hj hp0; rfl
    · subst hj; exact (hnone p hp0).symm
    · exact htrees.1 j p hp
  · simp only [View.newRoot]
    split_ifs with hj
    · rw [pteOf, hnone _ (by simp [path])]
    · exact htrees.2 j v hv

theorem Reps.dropRoot (h : Reps L s A) (i : ι) : Reps L s (A.dropRoot i) := by
  refine ⟨h.ok.dropRoot i, h.chain, h.logOk, h.dry, fun j p hp => ?_, fun j v hv => ?_⟩
  · simp only [View.dropRoot]
    split_ifs with hj
    · rfl
    · exact h.tbl j p hp
  · simp only [View.dropRoot]
    split_ifs with hj
    · rfl
    · exact h.pte j v hv

end UCore.Vm.Tables
