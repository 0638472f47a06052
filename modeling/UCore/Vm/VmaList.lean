import UCore.Vm.Count

/-! # The vma list and the page table

`Listed L A i mm` links the list of `mm` to the tree of the address space `i`: the page numbers of
the vmas are disjoint, and each has a valid user leaf to a frame of the allocator with the flags of
its vma, up to the accessed and dirty bits that the page-fault handler sets. Mapping keeps it
(`Listed.grew`, `Listed.cons`), and it is what `mm_free_pages` needs: every frame of the list is
given back once, and no release is refused (`wp_mmFreePages`). -/

namespace UCore.Vm.VmaList

open UCore.Lib.Bytes UCore.Lib.Hoare UCore.Riscv UCore.Mem.State UCore.Mem.Kalloc
open UCore.Vm.Spaces UCore.Vm.Tables UCore.Vm.Growth UCore.Vm.Walk UCore.Vm.Map UCore.Vm.Refine

variable {ι : Type} {L : Layout} {s s' : KState} {A B : View ι} {i j : ι} {mm : Mm} {r : ℕ}

/-! ### Accessed and dirty bits -/

/-- The accessed and the dirty bit. -/
def PTE_AD : ℕ := PTE_A ||| PTE_D

/-- Two entries agree but for the accessed and dirty bits. -/
def SameAD (e e' : ℕ) : Prop := e ||| PTE_AD = e' ||| PTE_AD

theorem SameAD.refl (e : ℕ) : SameAD e e := rfl

theorem SameAD.trans {e e' e'' : ℕ} (h : SameAD e e') (h' : SameAD e' e'') : SameAD e e'' :=
  Eq.trans h h'

theorem SameAD.symm {e e' : ℕ} (h : SameAD e e') : SameAD e' e := Eq.symm h

theorem SameAD.or {e f : ℕ} (hf : f ||| PTE_AD = PTE_AD) : SameAD (e ||| f) e := by
  unfold SameAD
  rw [Nat.or_assoc, hf]

theorem SameAD.target {e e' : ℕ} (h : SameAD e e') : PTE2PA e = PTE2PA e' := by
  have hAD : PTE_AD < 1024 := by decide
  rw [← PTE2PA_or hAD, h, PTE2PA_or hAD]

/-- All other flags are the same. -/
theorem SameAD.has {e e' k : ℕ} (h : SameAD e e') (hk : PTE_AD.testBit k = false) :
    Has e (1 <<< k) ↔ Has e' (1 <<< k) := by
  have h1 : (e ||| PTE_AD).testBit k = (e' ||| PTE_AD).testBit k := by rw [h]
  rw [Nat.testBit_or, Nat.testBit_or, hk, Bool.or_false, Bool.or_false] at h1
  rw [has_two_pow, has_two_pow, h1]

theorem SameAD.has_V {e e' : ℕ} (h : SameAD e e') : Has e PTE_V ↔ Has e' PTE_V :=
  h.has (k := 0) (by decide)

theorem SameAD.has_R {e e' : ℕ} (h : SameAD e e') : Has e PTE_R ↔ Has e' PTE_R :=
  h.has (k := 1) (by decide)

theorem SameAD.has_W {e e' : ℕ} (h : SameAD e e') : Has e PTE_W ↔ Has e' PTE_W :=
  h.has (k := 2) (by decide)

theorem SameAD.has_X {e e' : ℕ} (h : SameAD e e') : Has e PTE_X ↔ Has e' PTE_X :=
  h.has (k := 3) (by decide)

theorem SameAD.has_U {e e' : ℕ} (h : SameAD e e') : Has e PTE_U ↔ Has e' PTE_U :=
  h.has (k := 4) (by decide)

/-! ### The list -/

/-- The entry `e` maps the frame `f` with the flags `fl`. -/
def Maps (e f fl : ℕ) : Prop := SameAD e (mkPte f fl)

theorem Maps.target {e f fl : ℕ} (h : Maps e f fl) (hf : L.Frame f) (hfl : fl < 1024) :
    PTE2PA e = f := by
  rw [SameAD.target h, PTE2PA_mkPte (by have := hf.lt; omega) hfl, hf.div_mul]

theorem Maps.valid {e f fl : ℕ} (h : Maps e f fl) : Has e PTE_V :=
  (SameAD.has_V h).mpr (has_mkPte_V f fl)

theorem Maps.user {e f fl : ℕ} (h : Maps e f fl) (hf : L.Frame f) : Has e PTE_U ↔ Has fl PTE_U := by
  rw [SameAD.has_U h, has_mkPte_U (by have := hf.lt; omega)]

/-- The list of `mm` describes user mappings of the address space `i`. -/
structure Listed (L : Layout) (A : View ι) (i : ι) (mm : Mm) : Prop where
  root : ∃ r, A.tbl i [] = some r ∧ mm.pgt = PA_TO_KVA r
  valid : ∀ vma ∈ mm.vma, Vma.Valid vma ∧ Has vma.pteFlags PTE_U
  disjoint : mm.vma.Pairwise fun a b => (vpns a).Disjoint (vpns b)
  leaf : ∀ vma ∈ mm.vma, ∀ v ∈ vpns vma, ∃ f, L.Frame f ∧ Maps (A.pte i v) f vma.pteFlags

/-- The page numbers of all vmas of the list. -/
def listVpns (vmas : List Vma) : List ℕ := vmas.flatMap vpns

theorem mem_listVpns {vmas : List Vma} {v : ℕ} : v ∈ listVpns vmas ↔ ∃ vma ∈ vmas, v ∈ vpns vma :=
  List.mem_flatMap

theorem Listed.valid_leaf (h : Listed L A i mm) {v : ℕ} (hv : v ∈ listVpns mm.vma) :
    v < 2 ^ 26 ∧ Has (A.pte i v) PTE_V ∧ Has (A.pte i v) PTE_U ∧ L.Frame (PTE2PA (A.pte i v)) := by
  obtain ⟨vma, hvma, hv⟩ := mem_listVpns.mp hv
  obtain ⟨hval, hU⟩ := h.valid vma hvma
  obtain ⟨f, hf, hm⟩ := h.leaf vma hvma v hv
  exact ⟨hval.vpn_lt hv, hm.valid, (hm.user hf).mpr hU, by rw [hm.target hf hval.flags]; exact hf⟩

theorem Listed.nodup (h : Listed L A i mm) : (listVpns mm.vma).Nodup :=
  List.nodup_flatMap.mpr ⟨fun vma hvma => nodup_vpns (h.valid vma hvma).1.start_al, h.disjoint⟩

/-- What other address spaces and unlisted pages do does not matter. -/
theorem Listed.congr (h : Listed L A i mm) (hroot : B.tbl i [] = A.tbl i [])
    (hpte : ∀ v ∈ listVpns mm.vma, B.pte i v = A.pte i v) : Listed L B i mm := by
  obtain ⟨r, hr, hpgt⟩ := h.root
  refine ⟨⟨r, by rw [hroot, hr], hpgt⟩, h.valid, h.disjoint, fun vma hvma v hv => ?_⟩
  rw [hpte v (mem_listVpns.mpr ⟨vma, hvma, hv⟩)]
  exact h.leaf vma hvma v hv

theorem Listed.grew (h : Listed L A i mm) (hG : Grew A B j) : Listed L B i mm := by
  refine h.congr (hG.root i) fun v hv => ?_
  by_cases hij : i = j
  · subst hij
    exact hG.valid v (h.valid_leaf hv).2.1
  · exact hG.other i v hij

/-- The empty list. -/
theorem Listed.nil (hr : A.tbl i [] = some r) (hpgt : mm.pgt = PA_TO_KVA r) (hnil : mm.vma = []) :
    Listed L A i mm :=
  ⟨⟨r, hr, hpgt⟩, by simp [hnil], by simp [hnil], by simp [hnil]⟩

/-! ### User frames -/

/-- Page number `v` of `i` is mapped for the user, to the frame `f` of the allocator. -/
structure UserFrame (L : Layout) (A : View ι) (i : ι) (v f : ℕ) : Prop where
  lt : v < 2 ^ 26
  valid : Has (A.pte i v) PTE_V
  user : Has (A.pte i v) PTE_U
  target : PTE2PA (A.pte i v) = f
  frame : L.Frame f

theorem UserFrame.owns {v f : ℕ} (h : UserFrame L A i v f) : A.Owns L (.leaf i v) f :=
  ⟨by rw [NVPN_eq]; have := h.lt; omega, h.valid, h.target, h.frame⟩

theorem UserFrame.not_kernel {v f : ℕ} (h : UserFrame L A i v f) (hok : A.Ok L) : f ∉ Kernel A :=
  not_kernel_of_leaf hok h.owns

theorem UserFrame.unique {v w f : ℕ} (h : UserFrame L A i v f) (h' : UserFrame L A j w f)
    (hok : A.Ok L) : i = j ∧ v = w := by
  have := hok.uniq (.leaf i v) (.leaf j w) f h.owns h'.owns
  injection this with h1 h2
  exact ⟨h1, h2⟩

theorem UserFrame.congr {v f : ℕ} (h : UserFrame L A i v f) (hp : B.pte i v = A.pte i v) :
    UserFrame L B i v f :=
  ⟨h.lt, by rw [hp]; exact h.valid, by rw [hp]; exact h.user, by rw [hp]; exact h.target, h.frame⟩

theorem UserFrame.userTarget {v f : ℕ} (h : UserFrame L A i v f) :
    userTarget (A.pte i v) = f := by
  unfold Walk.userTarget
  rw [if_pos ⟨h.valid, h.user⟩, h.target]

/-- A page of user memory stays as it is when only pages of the kernel's own change. -/
theorem UserFrame.same {v f o : ℕ} (h : UserFrame L A i v f) (hA : Reps L s A)
    (hm : SameOff (Kernel A) s.mem s'.mem) (ho : o < 4096) : s'.mem (f + o) = s.mem (f + o) :=
  hm.page (fun _ hg => hA.kernel_aligned hg) h.frame.aligned (h.not_kernel hA.ok)
    ⟨by omega, by omega⟩

theorem Listed.userFrame {mm : Mm} (h : Listed L A i mm) {v : ℕ}
    (hv : v ∈ listVpns mm.vma) : UserFrame L A i v (PTE2PA (A.pte i v)) := by
  obtain ⟨h1, h2, h3, h4⟩ := h.valid_leaf hv
  exact ⟨h1, h2, h3, rfl, h4⟩

variable [DecidableEq ι]

/-- **A vma whose pages all got a frame joins the list.** -/
theorem Listed.cons (h : Listed L A i mm) (hok : A.Ok L) {vma : Vma} (hvma : Vma.Valid vma)
    (hU : Has vma.pteFlags PTE_U) (hsup : Supplied A i vma.pteFlags (vpns vma)) :
    Listed L (mapPages i vma.pteFlags (vpns vma) A).1 i { mm with vma := vma :: mm.vma } := by
  have hG := mapPages_grew (i := i) vma.pteFlags (vpns vma) A
  obtain ⟨-, hnew⟩ := mapPages_true hsup.ok
  have hold := h.grew hG
  refine ⟨hold.root, ?_, ?_, ?_⟩
  · intro w hw
    rcases List.mem_cons.mp hw with rfl | hw
    · exact ⟨hvma, hU⟩
    · exact hold.valid w hw
  · refine List.pairwise_cons.mpr ⟨fun w hw v hv hv' => ?_, h.disjoint⟩
    exact (hnew v hv).1 (h.valid_leaf (mem_listVpns.mpr ⟨w, hw, hv'⟩)).2.1
  · intro w hw v hv
    rcases List.mem_cons.mp hw with rfl | hw
    · obtain ⟨f, hf, hpte⟩ := hsup.frame v hv
      exact ⟨f, hok.frame_free hf, by rw [hpte]; exact SameAD.refl _⟩
    · exact hold.leaf w hw v hv

/-! ### Unmapping a list of page numbers -/

/-- The entries of the page numbers `vs` cleared, their targets given back if `free`. -/
def unmapPages (i : ι) (free : Bool) (vs : List ℕ) (A : View ι) : View ι :=
  vs.foldl (fun B v => unmapPage B i free v) A

@[simp] theorem unmapPages_nil (free : Bool) : unmapPages i free [] A = A := rfl

theorem unmapPages_cons (free : Bool) (v : ℕ) (vs : List ℕ) :
    unmapPages i free (v :: vs) A = unmapPages i free vs (unmapPage A i free v) := rfl

theorem unmapPages_append (free : Bool) (vs ws : List ℕ) :
    unmapPages i free (vs ++ ws) A = unmapPages i free ws (unmapPages i free vs A) :=
  List.foldl_append

theorem unmapPages_tbl (free : Bool) : ∀ (vs : List ℕ) (A : View ι),
    (unmapPages i free vs A).tbl = A.tbl
  | [], _ => rfl
  | v :: vs, A => by rw [unmapPages_cons, unmapPages_tbl free vs, unmapPage_tbl]

theorem unmapPage_held (free : Bool) (v : ℕ) : (unmapPage A i free v).held = A.held := by
  unfold unmapPage; split_ifs <;> rfl

theorem unmapPages_held (free : Bool) : ∀ (vs : List ℕ) (A : View ι),
    (unmapPages i free vs A).held = A.held
  | [], _ => rfl
  | v :: vs, A => by rw [unmapPages_cons, unmapPages_held free vs, unmapPage_held]

theorem unmapPages_pte_of_ne {free : Bool} {w : ℕ} : ∀ {vs : List ℕ} {A : View ι},
    ¬ (j = i ∧ w ∈ vs) → (unmapPages i free vs A).pte j w = A.pte j w
  | [], _, _ => rfl
  | v :: vs, A, h => by
    rw [unmapPages_cons, unmapPages_pte_of_ne fun hc => h ⟨hc.1, List.mem_cons_of_mem _ hc.2⟩]
    exact unmapPage_pte_of_ne fun hc => h ⟨hc.1, by simp [hc.2]⟩

/-- A page number whose page-table page is there is unmapped afterwards. -/
theorem unmapPages_pte_mem {free : Bool} {w : ℕ} :
    ∀ {vs : List ℕ} {A : View ι}, (A.tbl i (path w)).isSome → w ∈ vs →
      (unmapPages i free vs A).pte i w = 0
  | v :: vs, A, ht, hw => by
    rw [unmapPages_cons]
    by_cases hwvs : w ∈ vs
    · exact unmapPages_pte_mem (A := unmapPage A i free v) (by rwa [unmapPage_tbl]) hwvs
    · rcases List.mem_cons.mp hw with rfl | hw
      · rw [unmapPages_pte_of_ne fun hc => hwvs hc.2]
        unfold unmapPage
        rw [if_pos ht]
        split_ifs <;> simp
      · exact absurd hw hwvs

theorem kernel_unmapPages (free : Bool) : ∀ (vs : List ℕ) (A : View ι),
    Kernel A ⊆ Kernel (unmapPages i free vs A)
  | [], _ => subset_rfl
  | v :: vs, _ => (kernel_unmapPage free v).trans (kernel_unmapPages free vs _)

/-- The events of clearing the entries of `vs`, newest first. -/
def unmapLogs (A : View ι) (i : ι) (free : Bool) (vs : List ℕ) : List PageEvent :=
  (vs.flatMap fun v => unmapLog A i free v).reverse

omit [DecidableEq ι] in
theorem unmapLog_congr {free : Bool} {v : ℕ} (ht : B.tbl i (path v) = A.tbl i (path v))
    (hp : B.pte i v = A.pte i v) : unmapLog B i free v = unmapLog A i free v := by
  unfold unmapLog; rw [ht, hp]

/-- **The loop of `freevma`.** -/
theorem wp_freePages (hpgt : mm.pgt = PA_TO_KVA r) (free : Bool) {E : Panic → KState → Prop} :
    ∀ {vas : List ℕ} {s : KState} {A : View ι}, Reps L s A → A.tbl i [] = some r →
      (∀ va ∈ vas, va ≤ MAXVA) → (vas.map (· / 4096)).Nodup →
      (∀ v ∈ vas.map (· / 4096), free = true → (A.tbl i (path v)).isSome →
        ¬ L.Frame (PTE2PA (A.pte i v)) → ∀ s', E (.invalidPage (PTE2PA (A.pte i v))) s') →
      wp (forM vas (freePage L mm free)) s
        (fun _ s' =>
          (∀ v ∈ vas.map (· / 4096), free = true → (A.tbl i (path v)).isSome →
            L.Frame (PTE2PA (A.pte i v))) ∧
          Leads L s s' (unmapPages i free (vas.map (· / 4096)) A)
            (Kernel (unmapPages i free (vas.map (· / 4096)) A)) ∧
          s'.log = unmapLogs A i free (vas.map (· / 4096)) ++ s.log) E
  | [], s, A, h, _, _, _, _ => ⟨by simp, Leads.refl h _, rfl⟩
  | va :: vas, s, A, h, hr, hvas, hnd, hE => by
    rw [List.map_cons, List.nodup_cons] at hnd
    rw [List.forM_cons, wp_bind]
    refine wp_freePage h hr hpgt (hvas va (by simp)) (fun s₁ hF hs₁ hlog => ?_)
      fun hfree ht hF => hE _ (by simp) hfree ht hF _
    have hpte : ∀ v ∈ vas.map (· / 4096), (unmapPage A i free (va / 4096)).pte i v = A.pte i v :=
      fun v hv => unmapPage_pte_of_ne fun hc => hnd.1 (hc.2 ▸ hv)
    have htbl := unmapPage_tbl (A := A) (i := i) free (va / 4096)
    refine wp_mono (wp_freePages hpgt _ (E := E) hs₁.reps (by rw [htbl]; exact hr)
      (fun w hw => hvas w (by simp [hw])) hnd.2 fun v hv hfree ht hF' s' => ?_) ?_ fun _ _ => id
    · rw [htbl] at ht
      rw [hpte v hv] at hF' ⊢
      exact hE v (by simp [List.mem_map.mp hv]) hfree ht hF' s'
    · rintro _ s₂ ⟨hF₂, hs₂, hlog₂⟩
      refine ⟨fun v hv hfree ht => ?_, ?_, ?_⟩
      · rw [List.map_cons, List.mem_cons] at hv
        rcases hv with rfl | hv
        · exact hF hfree ht
        · have := hF₂ v hv hfree (by rwa [htbl])
          rwa [hpte v hv] at this
      · exact Leads.trans (hs₁.mono (kernel_unmapPages free _ _)) hs₂
      · have hlogs : unmapLogs (unmapPage A i free (va / 4096)) i free (vas.map (· / 4096)) =
            unmapLogs A i free (vas.map (· / 4096)) := by
          unfold unmapLogs
          congr 1
          exact List.flatMap_congr fun v hv => unmapLog_congr (by rw [htbl]) (hpte v hv)
        have hone : (unmapLog A i free (va / 4096)).reverse = unmapLog A i free (va / 4096) := by
          unfold unmapLog; split_ifs <;> rfl
        rw [hlog₂, hlog, hlogs, List.map_cons]
        unfold unmapLogs
        rw [List.flatMap_cons, List.reverse_append, hone, List.append_assoc]

/-- `freevma` on a vma whose ends are aligned. -/
theorem wp_freevma (h : Reps L s A) (hr : A.tbl i [] = some r) (hpgt : mm.pgt = PA_TO_KVA r)
    {vma : Vma} (h1 : PGALIGNED vma.vmStart) (h2 : PGALIGNED vma.vmEnd) (hle : vma.vmEnd ≤ MAXVA)
    {free : Bool} {E : Panic → KState → Prop}
    (hE : ∀ v ∈ vpns vma, free = true → (A.tbl i (path v)).isSome →
      ¬ L.Frame (PTE2PA (A.pte i v)) → ∀ s', E (.invalidPage (PTE2PA (A.pte i v))) s') :
    wp (freevma L mm vma free) s
      (fun _ s' =>
        (∀ v ∈ vpns vma, free = true → (A.tbl i (path v)).isSome →
          L.Frame (PTE2PA (A.pte i v))) ∧
        Leads L s s' (unmapPages i free (vpns vma) A) (Kernel (unmapPages i free (vpns vma) A)) ∧
        s'.log = unmapLogs A i free (vpns vma) ++ s.log) E := by
  unfold freevma
  refine wp_bind.mpr (wp_ensure_pos ⟨h1, h2⟩ ?_)
  exact wp_freePages hpgt _ h hr (fun va hva => (lt_of_mem_pages hva).le.trans hle)
    (nodup_vpns h1) hE

/-! ### The whole list -/

theorem listVpns_cons (vma : Vma) (vmas : List Vma) :
    listVpns (vma :: vmas) = vpns vma ++ listVpns vmas := List.flatMap_cons

omit [DecidableEq ι] in
theorem unmapLogs_append (free : Bool) (vs ws : List ℕ) :
    unmapLogs A i free (vs ++ ws) = unmapLogs A i free ws ++ unmapLogs A i free vs := by
  unfold unmapLogs
  rw [List.flatMap_append, List.reverse_append]

omit [DecidableEq ι] in
theorem unmapLogs_congr {free : Bool} {vs : List ℕ} (ht : B.tbl = A.tbl)
    (hp : ∀ v ∈ vs, B.pte i v = A.pte i v) : unmapLogs B i free vs = unmapLogs A i free vs := by
  unfold unmapLogs
  congr 1
  exact List.flatMap_congr fun v hv => unmapLog_congr (by rw [ht]) (hp v hv)

/-- The loop of `mm_free_pages` over vmas whose leaves all map frames. -/
theorem wp_freeVmas (hpgt : mm.pgt = PA_TO_KVA r) {E : Panic → KState → Prop} :
    ∀ {vmas : List Vma} {s : KState} {A : View ι}, Reps L s A → A.tbl i [] = some r →
      (∀ vma ∈ vmas, Vma.Valid vma) → (listVpns vmas).Nodup →
      (∀ v ∈ listVpns vmas, L.Frame (PTE2PA (A.pte i v))) →
      wp (forM vmas fun vma => do freevma L mm vma true; kfreeVma) s
        (fun _ s' =>
          Reps L s' (unmapPages i true (listVpns vmas) A) ∧
          SameOff (Kernel (unmapPages i true (listVpns vmas) A)) s.mem s'.mem ∧
          s'.log = unmapLogs A i true (listVpns vmas) ++ s.log ∧ s'.mmObjs = s.mmObjs) E
  | [], s, A, h, _, _, _, _ => ⟨h, SameOff.refl _ _, rfl, rfl⟩
  | vma :: vmas, s, A, h, hr, hval, hnd, hF => by
    rw [listVpns_cons] at hnd hF ⊢
    obtain ⟨-, hnd₂, hdisj⟩ := List.nodup_append'.mp hnd
    have hv := hval vma (by simp)
    rw [List.forM_cons]
    refine wp_bind.mpr (wp_bind.mpr (wp_mono (E := E) (wp_freevma h hr hpgt hv.start_al hv.end_al
      hv.end_le fun v hv' _ _ hn => absurd (hF v (by simp [hv'])) hn) ?_ fun _ _ => id))
    rintro _ s₁ ⟨-, hs₁, hlog₁⟩
    refine wp_modify.mpr ?_
    have hpte : ∀ v ∈ listVpns vmas,
        (unmapPages i true (vpns vma) A).pte i v = A.pte i v := fun v hv' =>
      unmapPages_pte_of_ne fun hc => hdisj hc.2 hv'
    have htbl := unmapPages_tbl (i := i) true (vpns vma) A
    have hs₁' := Reps.objs hs₁.reps s₁.mmObjs (s₁.vmaObjs - 1)
    refine wp_mono (wp_freeVmas hpgt (E := E) hs₁' (by rw [htbl]; exact hr)
      (fun w hw => hval w (by simp [hw])) hnd₂ fun v hv' => ?_) ?_ fun _ _ => id
    · rw [hpte v hv']; exact hF v (by simp [hv'])
    · rintro _ s₂ ⟨hs₂, hm₂, hlog₂, ho₂⟩
      rw [unmapPages_append]
      refine ⟨hs₂, (hs₁.mem.mono (kernel_unmapPages true _ _)).trans hm₂, ?_,
        ho₂.trans hs₁.mmObjs⟩
      rw [hlog₂, unmapLogs_congr htbl hpte, unmapLogs_append, List.append_assoc, ← hlog₁]

/-- **`mm_free_pages`** on a list that describes the page table: no release is refused, and the
entries of the list are clear afterwards. -/
theorem wp_mmFreePages (h : Reps L s A) (hl : Listed L A i mm) :
    wpOk (mmFreePages L mm) s fun mm' s' =>
      mm' = { mm with vma := [] } ∧ Reps L s' (unmapPages i true (listVpns mm.vma) A) ∧
      SameOff (Kernel (unmapPages i true (listVpns mm.vma) A)) s.mem s'.mem ∧
      s'.log = unmapLogs A i true (listVpns mm.vma) ++ s.log ∧ s'.mmObjs = s.mmObjs := by
  obtain ⟨r, hr, hpgt⟩ := hl.root
  unfold mmFreePages
  refine wp_seq (wp_freeVmas hpgt h hr (fun vma hvma => (hl.valid vma hvma).1) hl.nodup
    fun v hv => (hl.valid_leaf hv).2.2.2) ?_
  rintro _ s' hs'
  exact ⟨rfl, hs'⟩

/-- The entries of the list are clear, all others as before. -/
theorem Listed.freed_pte (h : Reps L s A) (hl : Listed L A i mm) (j : ι) (v : ℕ) :
    (unmapPages i true (listVpns mm.vma) A).pte j v =
      if j = i ∧ v ∈ listVpns mm.vma then 0 else A.pte j v := by
  split_ifs with hc
  · obtain ⟨rfl, hv⟩ := hc
    obtain ⟨hlt, hV, -⟩ := hl.valid_leaf hv
    obtain ⟨t, ht⟩ := h.tbl_isSome (by rw [NVPN_eq]; omega) hV
    exact unmapPages_pte_mem (by rw [ht]; rfl) hv
  · exact unmapPages_pte_of_ne hc

/-! ### The ends of an address space -/

/-- An exhausted object allocator stops the kernel. -/
theorem wp_mmCreate_full {Q : Option Mm → KState → Prop} {E : Panic → KState → Prop}
    (hm : ¬ s.mmObjs < objectCount) (hE : E .unavailable s) : wp (mmCreate L) s Q E := by
  unfold mmCreate
  exact wp_bind.mpr (wp_kallocMm (fun hc => absurd hc hm) fun _ => hE)

theorem wp_mmMappagesat_full {va pa fl : ℕ} {add : Bool} {Q : Option Vma × Mm → KState → Prop}
    {E : Panic → KState → Prop} (hv : ¬ s.vmaObjs < objectCount) (hE : E .unavailable s) :
    wp (mmMappagesat L mm va pa fl add) s Q E := by
  unfold mmMappagesat
  exact wp_bind.mpr (wp_kallocVma (fun hc => absurd hc hv) fun _ => hE)

/-- **`mm_create`** starts an address space with an empty table. -/
theorem wp_mmCreate (h : Reps L s A) {Q : Option Mm → KState → Prop} {E : Panic → KState → Prop}
    (hE : ¬ s.mmObjs < objectCount → E .unavailable s)
    (hnone : A.free = [] → ∀ s', Reps L s' A.starve → s'.mem = s.mem → s'.vmaObjs = s.vmaObjs →
      Q none s')
    (hsome : ∀ f fs, A.free = f :: fs → ∀ s', Reps L s' (A.take.newRoot i f) →
      SameOff {f} s.mem s'.mem → s'.mmObjs = s.mmObjs + 1 → s'.vmaObjs = s.vmaObjs →
      Q (some ⟨PA_TO_KVA f, [], 1⟩) s') :
    wp (mmCreate L) s Q E := by
  unfold mmCreate
  refine wp_bind.mpr (wp_kallocMm (fun _ => wp_bind.mpr ?_) hE)
  have h' := Reps.objs h (s.mmObjs + 1) s.vmaObjs
  have hfo := h'.freeOk
  cases hfree : A.free with
  | nil =>
    rw [hfree] at hfo
    refine wp_kallocpage_nil hfo ?_
    rw [if_pos (by decide)]
    exact wp_bind.mpr (wp_modify.mpr (hnone hfree _ (Reps.objs h'.noPage _ _) rfl rfl))
  | cons f fs =>
    rw [hfree] at hfo
    have hfF := hfo.frame f (by simp)
    refine wp_kallocpage_cons hfo ?_
    rw [if_neg hfF.kva_ne_zero]
    simp only [PGSIZE_eq]
    refine wp_bind.mpr (wp_memset hfF (o := 0) (by rw [Nat.add_zero]) (by omega) ?_)
    refine hsome f fs hfree _ ((h'.take hfree).newRoot hfF (h'.ok.unowned_take hfree)) ?_ rfl
      rfl
    show SameOff {f} s.mem (fill (fill s.mem f 4096 0xaf) f 4096 0)
    have h1 : SameOff {f} s.mem (fill s.mem f 4096 0xaf) := sameOff_blit rfl le_rfl le_rfl
    exact h1.trans (sameOff_blit rfl le_rfl le_rfl)

theorem unowned_dropRoot (h : A.Ok L) (hr : A.tbl i [] = some r) :
    ∀ o, ¬ (A.dropRoot i).Owns L o r := by
  intro o ho
  have hroot : A.Owns L (.table i []) r := ⟨by simp, hr⟩
  cases o with
  | free => cases h.uniq .free (.table i []) r ho hroot
  | held => cases h.uniq .held (.table i []) r ho hroot
  | table j p =>
    obtain ⟨hp, ht⟩ := ho
    simp only [View.dropRoot] at ht
    split_ifs at ht with hj
    have := h.uniq (.table j p) (.table i []) r ⟨hp, ht⟩ hroot
    injection this with h1 h2
    exact hj h1
  | leaf j w =>
    obtain ⟨hw, hV, hpa, hF⟩ := ho
    simp only [View.dropRoot] at hV hpa
    split_ifs at hV hpa with hj
    · exact not_has_zero _ hV
    · cases h.uniq (.leaf j w) (.table i []) r ⟨hw, hV, hpa, hF⟩ hroot

/-- The view after `mm_free`. -/
def freedView (A : View ι) (i : ι) (mm : Mm) (r : ℕ) : View ι :=
  ((unmapPages i true (listVpns mm.vma) A).dropRoot i).give r

/-- **`mm_free`** ends the address space: the frames of the list and the root go back. -/
theorem wp_mmFree (h : Reps L s A) (hl : Listed L A i mm) (hr : A.tbl i [] = some r)
    (hpgt : mm.pgt = PA_TO_KVA r) :
    wpOk (mmFree L mm) s fun _ s' => Reps L s' (freedView A i mm r) ∧
      SameOff (Kernel (unmapPages i true (listVpns mm.vma) A)) s.mem s'.mem := by
  unfold mmFree
  refine (wp_mmFreePages h hl).seq ?_
  intro mm' s₁ hpost
  have hs₁ := hpost.2.1
  rw [hpost.1]
  have hrF : L.Frame r := h.ok.frame_tbl (i := i) (p := []) (by simp) hr
  have hr₁ : (unmapPages i true (listVpns mm.vma) A).tbl i [] = some r := by
    rw [unmapPages_tbl, hr]
  have hpa : KVA_TO_PA mm.pgt = r := by
    rw [hpgt]
    exact KVA_TO_PA_PA_TO_KVA (by have := hrF.lt; omega)
  have hgive := (hs₁.dropRoot i).give hrF (unowned_dropRoot hs₁.ok hr₁)
  show wpOk (do kfreepage L (KVA_TO_PA mm.pgt); if mm.refcnt - 1 = 0 then kfreeMm) s₁ _
  rw [hpa]
  have hd : SameOff (Kernel (unmapPages i true (listVpns mm.vma) A)) s.mem (givePage s₁ r).mem :=
    hpost.2.2.1.trans (sameOff_givePage (Or.inr ⟨i, [], by simp, hr₁⟩))
  refine wp_bind.mpr (wp_kfreepage hrF ?_)
  by_cases hc : mm.refcnt - 1 = 0
  · rw [if_pos hc]
    exact wp_modify.mpr ⟨Reps.objs hgive ((givePage s₁ r).mmObjs - 1) s₁.vmaObjs, hd⟩
  · rw [if_neg hc]
    exact ⟨hgive, hd⟩

end UCore.Vm.VmaList
