import Mathlib.Data.List.Nodup
import UCore.Vm.Map

/-! # Mapping and unmapping on views

What the functions of `Map` do to the view of a state: the loop of `mm_mappages` is `mapPages` on the
page numbers of the vma, the body of the loop of `freevma` is `unmapPage`, `mm_mappagesat` is
`mapAt`, `mm_create` is a new root. -/

namespace UCore.Vm.Refine

open UCore.Lib.Bytes UCore.Lib.Hoare UCore.Riscv UCore.Mem.State UCore.Mem.Kalloc
open UCore.Vm.Spaces UCore.Vm.Tables UCore.Vm.Growth UCore.Vm.Walk UCore.Vm.Map

variable {ι : Type} {L : Layout} {s s' : KState} {A B : View ι} {i : ι} {mm : Mm} {r : ℕ}

/-! ### The pages of a range -/

theorem mem_pages {start stop va : ℕ} :
    va ∈ pages start stop ↔ ∃ k, va = start + 4096 * k ∧ start + 4096 * k < stop := by
  unfold pages
  rw [PGSIZE_eq]
  simp only [List.mem_map, List.mem_range]
  constructor
  · rintro ⟨k, hk, rfl⟩; exact ⟨k, rfl, by omega⟩
  · rintro ⟨k, rfl, hk⟩; exact ⟨k, by omega, rfl⟩

theorem pages_of_le {start stop : ℕ} (h : stop ≤ start) : pages start stop = [] := by
  rw [List.eq_nil_iff_forall_not_mem]
  intro va hva
  obtain ⟨k, rfl, hk⟩ := mem_pages.mp hva
  omega

theorem pages_cons {start stop : ℕ} (h : start < stop) :
    pages start stop = start :: pages (start + 4096) stop := by
  unfold pages
  rw [PGSIZE_eq, show (stop - start + (4096 - 1)) / 4096 =
    (stop - (start + 4096) + (4096 - 1)) / 4096 + 1 by omega, List.range_succ_eq_map, List.map_cons,
    List.map_map]
  refine congrArg₂ _ (by omega) (List.map_congr_left fun k _ => ?_)
  show start + 4096 * (k + 1) = start + 4096 + 4096 * k
  omega

/-- The page numbers of a vma. -/
def vpns (vma : Vma) : List ℕ := (pages vma.vmStart vma.vmEnd).map (· / 4096)

theorem vpns_of_le {vma : Vma} (h : vma.vmEnd ≤ vma.vmStart) : vpns vma = [] := by
  unfold vpns
  rw [pages_of_le h, List.map_nil]

theorem vpns_cons {vma : Vma} (h : vma.vmStart < vma.vmEnd) :
    ∃ vs, vpns vma = vma.vmStart / 4096 :: vs := by
  unfold vpns
  rw [pages_cons h, List.map_cons]
  exact ⟨_, rfl⟩

theorem mem_vpns {vma : Vma} {v : ℕ} (h1 : PGALIGNED vma.vmStart) (h2 : PGALIGNED vma.vmEnd) :
    v ∈ vpns vma ↔ vma.vmStart ≤ 4096 * v ∧ 4096 * v < vma.vmEnd := by
  rw [PGALIGNED_iff] at h1 h2
  simp only [vpns, List.mem_map, mem_pages]
  constructor
  · rintro ⟨va, ⟨k, rfl, hk⟩, rfl⟩; omega
  · rintro ⟨h3, h4⟩; exact ⟨4096 * v, ⟨v - vma.vmStart / 4096, by omega, by omega⟩, by omega⟩

theorem nodup_vpns {vma : Vma} (h1 : PGALIGNED vma.vmStart) : (vpns vma).Nodup := by
  rw [PGALIGNED_iff] at h1
  unfold vpns pages
  rw [List.map_map]
  refine List.Nodup.map (fun a b hab => ?_) List.nodup_range
  simp only [Function.comp_apply, PGSIZE_eq] at hab
  omega

theorem aligned_of_mem_pages {start stop va : ℕ} (h : PGALIGNED start) (hva : va ∈ pages start stop) :
    PGALIGNED va := by
  obtain ⟨k, rfl, -⟩ := mem_pages.mp hva
  rw [PGALIGNED_iff] at h ⊢
  omega

theorem lt_of_mem_pages {start stop va : ℕ} (hva : va ∈ pages start stop) : va < stop := by
  obtain ⟨k, rfl, hk⟩ := mem_pages.mp hva
  exact hk

/-! ### Objects -/

section Objects
variable {E : Panic → KState → Prop} {Q : Unit → KState → Prop}

theorem wp_kallocVma (hQ : s.vmaObjs < objectCount → Q () { s with vmaObjs := s.vmaObjs + 1 })
    (hE : ¬ s.vmaObjs < objectCount → E .unavailable s) : wp kallocVma s Q E := by
  unfold kallocVma
  refine wp_bind.mpr (wp_get.mpr (wp_bind.mpr (wp_ensure.mpr ⟨fun h => ?_, hE⟩)))
  exact wp_modify.mpr (hQ h)

theorem wp_kallocMm (hQ : s.mmObjs < objectCount → Q () { s with mmObjs := s.mmObjs + 1 })
    (hE : ¬ s.mmObjs < objectCount → E .unavailable s) : wp kallocMm s Q E := by
  unfold kallocMm
  refine wp_bind.mpr (wp_get.mpr (wp_bind.mpr (wp_ensure.mpr ⟨fun h => ?_, hE⟩)))
  exact wp_modify.mpr (hQ h)

/-- The view does not speak of objects. -/
theorem Reps.objs (h : Reps L s A) (m n : ℕ) : Reps L { s with mmObjs := m, vmaObjs := n } A :=
  ⟨h.ok, h.chain, h.logOk, h.dry, h.tbl, h.pte⟩

end Objects

/-! ### Mapping -/

theorem slot_some {v ptep : ℕ} (h : slot A i v = some ptep) :
    ∃ t, A.tbl i (path v) = some t ∧ ptep = PA_TO_KVA t + 8 * px 0 v := by
  unfold slot at h
  cases ht : A.tbl i (path v) with
  | none => rw [ht] at h; cases h
  | some t => rw [ht] at h; exact ⟨t, rfl, (Option.some.inj h).symm⟩

/-- Reading the entry that `walk` found. -/
theorem wp_readSlot (h : Reps L s A) {v ptep : ℕ} (hv : v < NVPN) (hs : slot A i v = some ptep)
    {Q : ℕ → KState → Prop} {E : Panic → KState → Prop} (hQ : Q (A.pte i v) s) :
    wp (kread64 L ptep) s Q E := by
  obtain ⟨t, ht, rfl⟩ := slot_some hs
  have h8 := idx_lt (px 0 v)
  refine wp_kread64 (h.ok.frame_tbl (path_length v) ht) rfl (by omega) ?_
  rw [show load s.mem (t + 8 * px 0 v) 8 = A.pte i v from (h.pte_eq hv ht).symm]
  exact hQ

variable [DecidableEq ι]

/-- Writing the entry that `walk` found. -/
theorem wp_writeSlot (h : Reps L s A) {v ptep e : ℕ} (hv : v < NVPN) (hs : slot A i v = some ptep)
    (he : e < 2 ^ 64) (hok : (A.setPte i v e).Ok L) {Q : Unit → KState → Prop}
    {E : Panic → KState → Prop}
    (hQ : ∀ s', Leads L s s' (A.setPte i v e) (Kernel A) → s'.log = s.log → Q () s') :
    wp (kwrite64 L ptep e) s Q E := by
  obtain ⟨t, ht, rfl⟩ := slot_some hs
  have h8 := idx_lt (px 0 v)
  refine wp_kwrite64 (h.ok.frame_tbl (path_length v) ht) rfl (by omega) (hQ _ ⟨?_, ?_, rfl, rfl⟩ rfl)
  · exact h.setPte hv ht he hok
  · show SameOff _ s.mem (store s.mem (t + 8 * px 0 v) 8 e)
    exact sameOff_blit (Or.inr ⟨i, _, path_length v, ht⟩) (by omega) (by omega)

/-- The loop of `mm_mappages`, the end of one round. -/
theorem wp_supply (h : Reps L s A) {v fl ptep : ℕ} (hv : v < NVPN) (hfl : fl < 1024)
    (hs : slot A i v = some ptep) {β : Type} {rest : KM β}
    {stop : KM β} {Q : β → KState → Prop} {E : Panic → KState → Prop}
    (hQ : ∀ s', Leads L s s' (supply A i fl v) (Kernel A) → wp rest s' Q E) :
    wp (do
      let pa ← kallocpage L
      if pa = 0 then stop else
        kwrite64 L ptep (mkPte pa fl)
        rest) s Q E := by
  have hok := supply_ok h.ok hfl hv (i := i)
  have hfo := h.freeOk
  rw [wp_bind]
  unfold supply at hQ hok
  cases hfree : A.free with
  | nil =>
    rw [hfree] at hfo hQ hok
    refine wp_kallocpage_nil hfo ?_
    rw [if_neg (by norm_num)]
    refine wp_bind.mpr (wp_writeSlot h.noPage hv hs (mkPte_lt (by norm_num) hfl) hok
      fun s' hs' _ => hQ s' ?_)
    exact Leads.trans ⟨h.noPage, SameOff.refl _ _, rfl, rfl⟩ hs'
  | cons f fs =>
    rw [hfree] at hfo hQ hok
    have hfF := hfo.frame f (by simp)
    refine wp_kallocpage_cons hfo ?_
    rw [if_neg (by have := hfF.pos; omega)]
    refine wp_bind.mpr (wp_writeSlot (h.take hfree) hv hs
      (mkPte_lt (by have := hfF.lt; omega) hfl) hok fun s' hs' _ => hQ s' ?_)
    have hfK : f ∈ Kernel A := Or.inl (by rw [hfree]; simp)
    exact Leads.trans ⟨h.take hfree, sameOff_takePage hfK, rfl, rfl⟩
      (hs'.mono (Grew.take A i).kernel)

/-- **The loop of `mm_mappages`** gives frames to the page numbers of its pages. -/
theorem wp_mappagesLoop {fl : ℕ} (hfl : fl < 1024) (hpgt : mm.pgt = PA_TO_KVA r) :
    ∀ {vas : List ℕ} {s : KState} {A : View ι}, Reps L s A → A.tbl i [] = some r →
      (∀ va ∈ vas, va ≤ MAXVA) →
      wpOk (mappagesLoop L mm fl vas) s fun o s' =>
        Leads L s s' (mapPages i fl (vas.map (· / 4096)) A).1 (Kernel A) ∧
        o = if (mapPages i fl (vas.map (· / 4096)) A).2 then 0 else -1
  | [], s, A, h, _, _ => ⟨Leads.refl h _, rfl⟩
  | va :: vas, s, A, h, hr, hvas => by
    have hva := hvas va (by simp)
    have hv := vpn_lt hva
    unfold mappagesLoop
    refine (wp_walk_alloc h hr hpgt hva).seq ?_
    rintro o s₁ ⟨hs₁, ho, hsome⟩
    rw [List.map_cons, mapPages]
    generalize hve : va / 4096 = v at *
    have hG := walk_grew (A := A) (i := i) v
    cases o with
    | none =>
      have hw : (Growth.walk A i v).2 = false := hsome.symm
      have e : mapPage A i fl v = Growth.walk A i v := andThen_of_false hw
      rw [andThen_of_false (by rw [e]; exact hw), e, hw]
      exact ⟨hs₁, rfl⟩
    | some ptep =>
      have hw : (Growth.walk A i v).2 = true := hsome.symm
      have e : mapPage A i fl v = if Has ((Growth.walk A i v).1.pte i v) PTE_V then
          ((Growth.walk A i v).1, false) else (supply (Growth.walk A i v).1 i fl v, true) :=
        andThen_of_true hw
      refine wp_bind.mpr (wp_readSlot hs₁.reps hv ho.symm ?_)
      by_cases hV : Has ((Growth.walk A i v).1.pte i v) PTE_V
      · rw [if_pos hV] at e
        rw [if_pos hV]
        rw [andThen_of_false (by rw [e]), e]
        exact ⟨hs₁, rfl⟩
      · rw [if_neg hV] at e
        rw [if_neg hV, andThen_of_true (by rw [e]), e]
        refine wp_supply hs₁.reps hv hfl ho.symm fun s₂ hs₂ => ?_
        have hG₂ := hG.trans (supply_grew fl hV)
        have hvas' : ∀ w ∈ vas, w ≤ MAXVA := fun w hw => hvas w (by simp [hw])
        refine (wp_mappagesLoop hfl hpgt hs₂.reps ((hG₂.root i).trans hr) hvas').imp fun o s' h' => ⟨?_, h'.2⟩
        exact hs₁.trans ((hs₂.mono hG.kernel).trans (h'.1.mono hG₂.kernel))

/-- A vma that `mm_mappages` takes: its checks hold, and its flags are flags. -/
structure Vma.Valid (vma : Vma) : Prop where
  start_le : vma.vmStart ≤ MAXVA
  end_le : vma.vmEnd ≤ MAXVA
  start_al : PGALIGNED vma.vmStart
  end_al : PGALIGNED vma.vmEnd
  perm : Has vma.pteFlags PTE_R ∨ Has vma.pteFlags PTE_W ∨ Has vma.pteFlags PTE_X
  flags : vma.pteFlags < 1024

theorem Vma.Valid.vpn_lt {vma : Vma} (h : Vma.Valid vma) {v : ℕ} (hv : v ∈ vpns vma) :
    v < 2 ^ 26 := by
  have h1 := ((mem_vpns h.start_al h.end_al).mp hv).2
  have h2 := h.end_le
  rw [MAXVA_eq] at h2
  omega

theorem Vma.Valid.vpn_lt' {vma : Vma} (h : Vma.Valid vma) {v : ℕ} (hv : v ∈ vpns vma) :
    v < NVPN := by have := h.vpn_lt hv; rw [NVPN_eq]; omega

/-- The `mm` after `mm_mappages` came back with `o`. -/
def listed (mm : Mm) (vma : Vma) (ok : Bool) : Mm :=
  if ok then { mm with vma := vma :: mm.vma } else mm

/-- **`mm_mappages`**. -/
theorem wp_mmMappages (h : Reps L s A) (hr : A.tbl i [] = some r) (hpgt : mm.pgt = PA_TO_KVA r)
    {vma : Vma} (hvma : Vma.Valid vma) :
    wpOk (mmMappages L mm vma) s fun o s' =>
      Leads L s s' (mapPages i vma.pteFlags (vpns vma) A).1 (Kernel A) ∧
      o = (if (mapPages i vma.pteFlags (vpns vma) A).2 then 0 else -1,
        listed mm vma (mapPages i vma.pteFlags (vpns vma) A).2) := by
  unfold mmMappages
  refine wp_bind.mpr (wp_ensure_pos ⟨hvma.start_le, hvma.end_le⟩ ?_)
  refine wp_bind.mpr (wp_ensure_pos hvma.start_al (wp_bind.mpr (wp_ensure_pos hvma.end_al ?_)))
  refine wp_bind.mpr (wp_ensure_pos hvma.perm ?_)
  refine (wp_mappagesLoop hvma.flags hpgt h hr fun va hva => ?_).seq ?_
  · exact (lt_of_mem_pages hva).le.trans hvma.end_le
  rintro o s' ⟨hs', ho⟩
  change o = if (mapPages i vma.pteFlags (vpns vma) A).2 = true then 0 else -1 at ho
  cases hok : (mapPages i vma.pteFlags (vpns vma) A).2 with
  | true =>
    rw [hok] at ho
    subst ho
    exact ⟨hs', rfl⟩
  | false =>
    rw [hok] at ho
    subst ho
    exact ⟨hs', rfl⟩

/-- A vma that fails a check stops the kernel and changes nothing. -/
theorem wp_mmMappages_invalid {vma : Vma} (hfl : vma.pteFlags < 1024) (hvma : ¬ Vma.Valid vma)
    {Q : ℤ × Mm → KState → Prop} : wp (mmMappages L mm vma) s Q fun _ s' => s' = s := by
  unfold mmMappages
  refine wp_bind.mpr (wp_ensure.mpr ⟨fun h1 => ?_, fun _ => rfl⟩)
  refine wp_bind.mpr (wp_ensure.mpr ⟨fun h2 => ?_, fun _ => rfl⟩)
  refine wp_bind.mpr (wp_ensure.mpr ⟨fun h3 => ?_, fun _ => rfl⟩)
  refine wp_bind.mpr (wp_ensure.mpr ⟨fun h4 => ?_, fun _ => rfl⟩)
  exact absurd ⟨h1.1, h1.2, h2, h3, h4, hfl⟩ hvma

/-! ### Mapping a given page -/

/-- The entry `e` for page number `v`, unless it is mapped. -/
def mapAt (A : View ι) (i : ι) (v e : ℕ) : View ι × Bool :=
  andThen (Growth.walk A i v) fun B =>
    if Has (B.pte i v) PTE_V then (B, false) else (B.setPte i v e, true)

theorem mapAt_grew (A : View ι) (i : ι) (v e : ℕ) : Grew A (mapAt A i v e).1 i := by
  refine andThen_induct (P := (Grew A · i)) (walk_grew v) fun _ => ?_
  split_ifs with hV
  · exact walk_grew v
  · exact (walk_grew v).trans (Grew.setPte hV)

theorem mapAt_eq_of_walk {v e : ℕ} (hw : Growth.walk A i v = (B, true))
    (hV : ¬ Has (B.pte i v) PTE_V) : mapAt A i v e = (B.setPte i v e, true) := by
  unfold mapAt
  rw [hw, andThen_of_true rfl, if_neg hV]

theorem mapAt_pte_of_ne {v w e : ℕ} (h : w ≠ v) : (mapAt A i v e).1.pte i w = A.pte i w := by
  refine andThen_induct (P := fun B => B.pte i w = A.pte i w) (by rw [walk_pte]) fun _ => ?_
  split_ifs with hV
  · rw [walk_pte]
  · rw [View.setPte_pte_of_ne (fun hc => h hc.2), walk_pte]

theorem mapAt_true {v e : ℕ} (h : (mapAt A i v e).2 = true) :
    ¬ Has (A.pte i v) PTE_V ∧ (mapAt A i v e).1.pte i v = e := by
  obtain ⟨-, h2, he⟩ := andThen_true h
  unfold mapAt
  rw [he]
  split_ifs at h2 ⊢ with hV
  rw [walk_pte] at hV
  exact ⟨hV, View.setPte_pte_self _ _ _⟩

theorem mapAt_false {v e : ℕ} (h : (mapAt A i v e).2 = false) (hdry : ¬ (mapAt A i v e).1.dry) :
    Has (A.pte i v) PTE_V := by
  unfold mapAt at h hdry
  by_cases hw : (Growth.walk A i v).2 = true
  · rw [andThen_of_true hw] at h hdry
    split_ifs at h with hV
    rwa [walk_pte] at hV
  · rw [Bool.not_eq_true] at hw
    rw [andThen_of_false hw] at hdry
    exact absurd (walk_dry hw) hdry

/-- **`mm_mappagesat`** on a page that is not mapped. The page `pa` is none that has a use. -/
theorem wp_mmMappagesat (h : Reps L s A) (hr : A.tbl i [] = some r) (hpgt : mm.pgt = PA_TO_KVA r)
    {va pa fl : ℕ} (add : Bool) (hva : va ≤ MAXVA) (hpa : pa < 2 ^ 64) (hal : PGALIGNED pa)
    (hfl : fl < 1024) (hno : L.Frame pa → ∀ o, ¬ A.Owns L o pa)
    (hV : ¬ Has (A.pte i (va / 4096)) PTE_V) {Q : Option Vma × Mm → KState → Prop}
    {E : Panic → KState → Prop} (hE : ¬ s.vmaObjs < objectCount → E .unavailable s)
    (hQ : ∀ s', Reps L s' (mapAt A i (va / 4096) (mkPte pa fl)).1 →
      SameOff (Kernel A) s.mem s'.mem → s'.mmObjs = s.mmObjs → s'.vmaObjs = s.vmaObjs + 1 →
      Q (if (mapAt A i (va / 4096) (mkPte pa fl)).2
          then some ⟨va, (va + PGSIZE) % 2 ^ 64, fl⟩ else none,
        if add then listed mm ⟨va, (va + PGSIZE) % 2 ^ 64, fl⟩
          (mapAt A i (va / 4096) (mkPte pa fl)).2 else mm) s') :
    wp (mmMappagesat L mm va pa fl add) s Q E := by
  have hv := vpn_lt hva
  unfold mmMappagesat
  refine wp_bind.mpr (wp_kallocVma (fun _ => ?_) hE)
  have h' := Reps.objs h s.mmObjs (s.vmaObjs + 1)
  refine (wp_walk_alloc h' hr hpgt hva).seq ?_
  rintro o s₁ ⟨hs₁, ho, hsome⟩
  generalize hve : va / 4096 = v at *
  cases o with
  | none =>
    have hw : (Growth.walk A i v).2 = false := hsome.symm
    have e : mapAt A i v (mkPte pa fl) = Growth.walk A i v := andThen_of_false hw
    rw [e, hw] at hQ
    have := hQ s₁ hs₁.reps hs₁.mem hs₁.mmObjs hs₁.vmaObjs
    cases add <;> exact this
  | some ptep =>
    have hw : (Growth.walk A i v).2 = true := hsome.symm
    have e : mapAt A i v (mkPte pa fl) = ((Growth.walk A i v).1.setPte i v (mkPte pa fl), true) := by
      rw [mapAt, andThen_of_true hw, if_neg (by rw [walk_pte]; exact hV)]
    rw [e] at hQ
    refine wp_bind.mpr (wp_readSlot hs₁.reps hv ho.symm ?_)
    rw [if_neg (by rw [walk_pte]; exact hV), wp_bind]
    have hG := walk_grew (A := A) (i := i) v
    refine wp_writeSlot hs₁.reps hv ho.symm (mkPte_lt hpa hfl) ?_ fun s₂ hs₂ _ => ?_
    · refine hs₁.reps.ok.setPte hv (fun _ hF o ho => ?_) fun hn => absurd (has_mkPte_V _ _) hn
      rw [PTE2PA_mkPte hpa hfl, show pa / 4096 * 4096 = pa by
        rw [PGALIGNED_iff] at hal; omega] at hF ho
      exfalso
      have hnoA := hno hF
      cases o with
      | free => exact hnoA .free (hG.free.subset ho)
      | held => exact hnoA .held ⟨hG.held ▸ ho.1, ho.2⟩
      | table j p =>
        rcases hG.tbl_new j p pa ho.2 with ht | ⟨-, ht⟩
        · exact hnoA (.table j p) ⟨ho.1, ht⟩
        · exact hnoA .free ht
      | leaf j w =>
        obtain ⟨hw, hV', hpa', hF'⟩ := ho
        rw [walk_pte] at hV' hpa'
        exact hnoA (.leaf j w) ⟨hw, hV', hpa', hF'⟩
    · have hm := hs₁.trans (hs₂.mono hG.kernel)
      have := hQ s₂ hm.reps hm.mem hm.mmObjs hm.vmaObjs
      cases add <;> exact this

/-! ### Unmapping -/

/-- The entry of page number `v` cleared, its target given back if `free`. -/
def unmapPage (A : View ι) (i : ι) (free : Bool) (v : ℕ) : View ι :=
  if (A.tbl i (path v)).isSome then
    if free then (A.setPte i v 0).give (PTE2PA (A.pte i v)) else A.setPte i v 0
  else A

/-- A store into one page and a release of another can be exchanged. -/
theorem store_givePage {f t e : ℕ} {k : Idx} (hf : L.Frame f) (ht : L.Frame t) (hne : f ≠ t) :
    ({ givePage s f with mem := store (givePage s f).mem (t + 8 * k) 8 e } : KState) =
      givePage { s with mem := store s.mem (t + 8 * k) 8 e } f := by
  have hk := idx_lt k
  have hmem : store (givePage s f).mem (t + 8 * k) 8 e =
      (givePage { s with mem := store s.mem (t + 8 * k) 8 e } f).mem := by
    funext x
    show store (store (fill s.mem f 4096 0xdd) f 8 s.freelist) (t + 8 * k) 8 e x =
      store (fill (store s.mem (t + 8 * k) 8 e) f 4096 0xdd) f 8 s.freelist x
    have h1 := hf.aligned
    have h2 := ht.aligned
    unfold store fill blit
    split_ifs <;> first | rfl | omega
  rw [hmem]
  rfl

theorem Ok.setPte_zero (h : A.Ok L) {v : ℕ} (hv : v < NVPN) : (A.setPte i v 0).Ok L :=
  h.setPte hv (fun h0 => absurd h0 (not_has_zero _)) fun _ => rfl

/-- The target of a cleared entry has no use. -/
theorem unowned_setPte_zero (h : A.Ok L) {v f : ℕ} (hf : A.Owns L (.leaf i v) f) :
    ∀ o, ¬ (A.setPte i v 0).Owns L o f := by
  intro o ho
  cases o with
  | free => cases h.uniq .free (.leaf i v) f ho hf
  | held => cases h.uniq .held (.leaf i v) f ho hf
  | table j p => cases h.uniq (.table j p) (.leaf i v) f ho hf
  | leaf j w =>
    obtain ⟨hw, hV, hpa, hF⟩ := ho
    by_cases hjw : j = i ∧ w = v
    · obtain ⟨rfl, rfl⟩ := hjw
      rw [View.setPte_pte_self] at hV
      exact not_has_zero _ hV
    · rw [View.setPte_pte_of_ne hjw] at hV hpa
      have := h.uniq (.leaf j w) (.leaf i v) f ⟨hw, hV, hpa, hF⟩ hf
      injection this with h1 h2
      exact hjw ⟨h1, h2⟩

theorem unmapPage_ok (h : A.Ok L) {v : ℕ} (free : Bool) (hv : v < NVPN)
    (hF : free = true → (A.tbl i (path v)).isSome → L.Frame (PTE2PA (A.pte i v))) :
    (unmapPage A i free v).Ok L := by
  unfold unmapPage
  split_ifs with ht hfree
  · have hFr := hF hfree ht
    have hV : Has (A.pte i v) PTE_V := by
      by_contra hn
      rw [h.clear i v hv hn] at hFr
      have := hFr.pos
      simp [PTE2PA] at this
    exact (Ok.setPte_zero h hv).give hFr (unowned_setPte_zero h ⟨hv, hV, rfl, hFr⟩)
  · exact Ok.setPte_zero h hv
  · exact h

theorem unmapPage_tbl (free : Bool) (v : ℕ) : (unmapPage A i free v).tbl = A.tbl := by
  unfold unmapPage; split_ifs <;> rfl

theorem unmapPage_pte_of_ne {free : Bool} {v w : ℕ} {j : ι} (h : ¬ (j = i ∧ w = v)) :
    (unmapPage A i free v).pte j w = A.pte j w := by
  unfold unmapPage
  split_ifs
  · exact View.setPte_pte_of_ne h
  · exact View.setPte_pte_of_ne h
  · rfl

/-- The events of clearing the entry of page number `v`. -/
def unmapLog (A : View ι) (i : ι) (free : Bool) (v : ℕ) : List PageEvent :=
  if (A.tbl i (path v)).isSome ∧ free = true then [.free (PTE2PA (A.pte i v))] else []

theorem kernel_unmapPage (free : Bool) (v : ℕ) : Kernel A ⊆ Kernel (unmapPage A i free v) := by
  rintro f (hf | ⟨j, p, hp, hf⟩)
  · refine Or.inl ?_
    unfold unmapPage
    split_ifs
    · exact List.mem_cons_of_mem _ hf
    · exact hf
    · exact hf
  · exact Or.inr ⟨j, p, hp, by rw [unmapPage_tbl]; exact hf⟩

/-- **The body of the loop of `freevma`**: a target that is no frame of the region stops the
kernel. -/
theorem wp_freePage (h : Reps L s A) (hr : A.tbl i [] = some r) (hpgt : mm.pgt = PA_TO_KVA r)
    {va : ℕ} {free : Bool} (hva : va ≤ MAXVA) {Q : Unit → KState → Prop}
    {E : Panic → KState → Prop}
    (hQ : ∀ s', (free = true → (A.tbl i (path (va / 4096))).isSome →
        L.Frame (PTE2PA (A.pte i (va / 4096)))) →
      Leads L s s' (unmapPage A i free (va / 4096)) (Kernel (unmapPage A i free (va / 4096))) →
      s'.log = unmapLog A i free (va / 4096) ++ s.log → Q () s')
    (hE : free = true → (A.tbl i (path (va / 4096))).isSome →
      ¬ L.Frame (PTE2PA (A.pte i (va / 4096))) →
      E (.invalidPage (PTE2PA (A.pte i (va / 4096)))) s) :
    wp (freePage L mm free va) s Q E := by
  have hv := vpn_lt hva
  unfold freePage
  refine (wp_walk_look h hr hpgt hva).seq ?_
  rintro o s₁ ⟨rfl, ho⟩
  generalize hve : va / 4096 = v at *
  have hok := unmapPage_ok (i := i) h.ok free hv
  have hK := kernel_unmapPage (A := A) (i := i) free v
  unfold unmapPage at hQ hok hK
  unfold unmapLog at hQ
  cases o with
  | none =>
    have ht : A.tbl i (path v) = none := by
      unfold slot at ho
      cases ht : A.tbl i (path v) with
      | none => rfl
      | some t => rw [ht] at ho; cases ho
    simp only [ht, Option.isSome_none, Bool.false_eq_true, if_false, false_and] at hQ
    exact hQ s₁ (by simp) (Leads.refl h _) rfl
  | some ptep =>
    obtain ⟨t, ht, rfl⟩ := slot_some ho.symm
    have htF := h.ok.frame_tbl (path_length v) ht
    simp only [ht, Option.isSome_some, if_true, true_and] at hQ hok hE hK
    cases free with
    | false =>
      simp only [Bool.false_eq_true, if_false, false_implies, forall_const] at hQ hok
      refine wp_writeSlot h hv ho.symm (by norm_num) hok fun s' hs' hlog => ?_
      exact hQ s' (hs'.mono hK) hlog
    | true =>
      simp only [if_true, forall_const] at hQ hok hE
      refine wp_bind.mpr (wp_readSlot h hv ho.symm (wp_bind.mpr ?_))
      have hlt : PTE2PA (A.pte i v) < 2 ^ 64 := PTE2PA_lt _
      by_cases hF : L.Frame (PTE2PA (A.pte i v))
      · have hne : PTE2PA (A.pte i v) ≠ t := by
          intro he
          have hV : Has (A.pte i v) PTE_V := by
            by_contra hn
            rw [h.ok.clear i v hv hn] at hF
            have := hF.pos
            simp [PTE2PA] at this
          cases h.ok.uniq (.leaf i v) (.table i (path v)) t ⟨hv, hV, he, htF⟩ ⟨path_length v, ht⟩
        have h8 := idx_lt (px 0 v)
        refine wp_kfreepage hF (wp_kwrite64 htF rfl (by omega) ?_)
        rw [store_givePage hF htF hne]
        have hmid : Reps L { s₁ with mem := store s₁.mem (t + 8 * px 0 v) 8 0 }
            (A.setPte i v 0) := h.setPte hv ht (by norm_num) (Ok.setPte_zero h.ok hv)
        have hV : Has (A.pte i v) PTE_V := by
          by_contra hn
          rw [h.ok.clear i v hv hn] at hF
          have := hF.pos
          simp [PTE2PA] at this
        refine hQ _ hF ⟨hmid.give hF (unowned_setPte_zero h.ok ⟨hv, hV, rfl, hF⟩), ?_, rfl, rfl⟩ rfl
        have hslot : SameOff (Kernel ((A.setPte i v 0).give (PTE2PA (A.pte i v)))) s₁.mem
            (store s₁.mem (t + 8 * px 0 v) 8 0) :=
          sameOff_blit (Or.inr ⟨i, _, path_length v, ht⟩) (by omega) (by omega)
        refine hslot.trans ?_
        · exact sameOff_givePage (s := { s₁ with mem := store s₁.mem (t + 8 * px 0 v) 8 0 })
            (Or.inl (by simp))
      · exact wp_kfreepage_invalid hlt hF (hE hF)

end UCore.Vm.Refine
