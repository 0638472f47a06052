import UCore.Vm.Fill
import UCore.Vm.History

/-! # Copying an address space

`Copied L s s' A B i j vmas` is what `mm_copy` achieves: from `s` with the view `A` to `s'` with the
view `B`, the address space `j` got a frame of the free list for every page number of the vmas, with
the vma's flags and the bytes of the frame of `i`; nothing else changed but pages of the kernel's
own. One vma is `copied_vma`; `Copied.cons` puts the vmas together. -/

namespace UCore.Vm.Copy

open UCore.Lib.Bytes UCore.Lib.Hoare UCore.Riscv UCore.Mem.State UCore.Mem.Kalloc
open UCore.Vm.Spaces UCore.Vm.Tables UCore.Vm.Growth UCore.Vm.Walk UCore.Vm.Map UCore.Vm.Refine
open UCore.Vm.VmaList UCore.Vm.Count UCore.Vm.Fill UCore.Vm.History UCore.Vm.Keeps

variable {ι : Type} {L : Layout} {s s₁ s' : KState} {A B C : View ι} {i j : ι} {old new : Mm}

variable [DecidableEq ι]

/-! ### The page loop -/

/-- `walkaddr` on a user page finds its frame. -/
theorem wp_walkaddr_user {mm : Mm} {r va f : ℕ} (h : Reps L s A) (hr : A.tbl i [] = some r)
    (hpgt : mm.pgt = PA_TO_KVA r) (hal : PGALIGNED va) (hu : UserFrame L A i (va / 4096) f) :
    wpOk (walkaddr L mm va) s fun o s' => s' = s ∧ o = f := by
  have hlt := hu.lt
  rw [PGALIGNED_iff] at hal
  refine (wp_walkaddr h hr hpgt (by rw [MAXVA_eq]; omega) hal).imp ?_
  rintro o s' ⟨hs, ho⟩
  exact ⟨hs, ho.trans hu.userTarget⟩

/-- One page: the frame `f` of `j` gets the bytes of the frame `g` of `i`. -/
theorem wp_copyPage {r t va f g : ℕ} (hpi : old.pgt = PA_TO_KVA r) (hpj : new.pgt = PA_TO_KVA t)
    (hri : A.tbl i [] = some r) (hrj : A.tbl j [] = some t) (h : Reps L s A) (hal : PGALIGNED va)
    (hui : UserFrame L A i (va / 4096) g) (huj : UserFrame L A j (va / 4096) f) :
    wpOk (copyPage L old new va) s fun _ s' => s' = { s with mem := copyIn s.mem f g 4096 } := by
  unfold copyPage
  refine (wp_walkaddr_user h hri hpi hal hui).seq ?_
  rintro a s₁ ⟨hs₁, ha⟩
  rw [hs₁, ha]
  refine (wp_walkaddr_user h hrj hpj hal huj).seq ?_
  rintro b s₂ ⟨hs₂, hb⟩
  rw [hs₂, hb]
  have hk : ∀ f, PA_TO_KVA f = PA_TO_KVA f + 0 := fun f => (Nat.add_zero _).symm
  simp only [PGSIZE_eq]
  exact wp_memmove huj.frame hui.frame (hk _) (hk _) (by omega) (by omega) rfl

/-- **The inner loop of `mm_copy`**: the frame of `j` gets the bytes of the frame of `i`. -/
theorem wp_copyPages {r t : ℕ} (hij : i ≠ j) (hpi : old.pgt = PA_TO_KVA r)
    (hpj : new.pgt = PA_TO_KVA t) (hri : A.tbl i [] = some r) (hrj : A.tbl j [] = some t) :
    ∀ {vas : List ℕ} {s : KState}, Reps L s A → (∀ va ∈ vas, PGALIGNED va) →
      (vas.map (· / 4096)).Nodup →
      (∀ v ∈ vas.map (· / 4096), UserFrame L A i v (PTE2PA (A.pte i v)) ∧
        UserFrame L A j v (PTE2PA (A.pte j v))) →
      wpOk (forM vas (copyPage L old new)) s fun _ s' =>
        Leads L s s' A (targets A j (vas.map (· / 4096))) ∧
        ∀ v ∈ vas.map (· / 4096), ∀ o < 4096,
          s'.mem (PTE2PA (A.pte j v) + o) = s.mem (PTE2PA (A.pte i v) + o)
  | [], s, h, _, _, _ => ⟨Leads.refl h _, by simp⟩
  | va :: vas, s, h, hal, hnd, hu => by
    rw [List.map_cons, List.nodup_cons] at hnd
    obtain ⟨hui, huj⟩ := hu (va / 4096) (by simp)
    have hu' : ∀ v ∈ vas.map (· / 4096), UserFrame L A i v (PTE2PA (A.pte i v)) ∧
        UserFrame L A j v (PTE2PA (A.pte j v)) := fun v hv =>
      hu v (by rw [List.map_cons]; exact List.mem_cons_of_mem _ hv)
    rw [List.forM_cons]
    refine (wp_copyPage hpi hpj hri hrj h (hal va (by simp)) hui huj).seq ?_
    intro _ s₁ hs₁
    rw [hs₁]
    generalize hf : PTE2PA (A.pte j (va / 4096)) = f at huj
    generalize hg : PTE2PA (A.pte i (va / 4096)) = g at hui
    have h₁ : Reps L { s with mem := copyIn s.mem f g 4096 } A :=
      h.blit huj.frame.aligned (huj.not_kernel h.ok) le_rfl le_rfl
    have hm₁ : SameOff {f} s.mem (copyIn s.mem f g 4096) := sameOff_blit rfl le_rfl le_rfl
    have haway : ∀ u, u % 4096 = 0 → u ≠ f → ∀ o < 4096,
        copyIn s.mem f g 4096 (u + o) = s.mem (u + o) := fun u hu huf o ho =>
      hm₁.page (by rintro _ rfl; exact huj.frame.aligned) hu (by simpa using huf)
        ⟨by omega, by omega⟩
    refine (wp_copyPages hij hpi hpj hri hrj h₁ (fun w hw => hal w (by simp [hw])) hnd.2 hu').imp ?_
    rintro _ s₂ ⟨hs₂, hbytes⟩
    have hD : ∀ w ∈ targets A j (vas.map (· / 4096)), w % 4096 = 0 := by
      rintro w ⟨v, hv, rfl⟩
      exact (hu' v hv).2.frame.aligned
    have hfD : f ∉ targets A j (vas.map (· / 4096)) := by
      rintro ⟨v, hv, hvf⟩
      have huv := (hu' v hv).2
      rw [hvf] at huv
      exact hnd.1 ((huj.unique huv h.ok).2 ▸ hv)
    refine ⟨⟨hs₂.reps, ?_, hs₂.mmObjs, hs₂.vmaObjs⟩, fun v hv o ho => ?_⟩
    · refine SameOff.trans (hm₁.mono ?_) (hs₂.mem.mono ?_)
      · rintro _ rfl
        exact ⟨va / 4096, by simp, hf⟩
      · rintro w ⟨v, hv, hw⟩
        exact ⟨v, by rw [List.map_cons]; exact List.mem_cons_of_mem _ hv, hw⟩
    · rw [List.map_cons, List.mem_cons] at hv
      rcases hv with rfl | hv
      · rw [hf, hg, hs₂.mem.page hD huj.frame.aligned hfD ⟨by omega, by omega⟩]
        show copyIn s.mem f g 4096 (f + o) = _
        rw [copyIn, blit_of_mem (by omega) (by omega), Nat.add_sub_cancel_left]
      · obtain ⟨hvi, -⟩ := hu' v hv
        rw [hbytes v hv o ho]
        refine haway _ hvi.frame.aligned (fun he => ?_) o ho
        rw [he] at hvi
        exact hij (hvi.unique huj h.ok).1

/-! ### What is copied -/

/-- From `s` to `s'` the address space `j` got copies of the pages of `i` in the vmas. -/
abbrev Copied (L : Layout) (s s' : KState) (A B : View ι) (i j : ι) (vmas : List Vma) : Prop :=
  Filled L s s' A B j (vmas.map fun vma => (vma, userByte s.mem A i))

omit [DecidableEq ι] in
theorem Copied.other {vmas : List Vma} (h : Copied L s s' A B i j vmas) {v : ℕ}
    (hv : v ∉ listVpns vmas) : B.pte j v = A.pte j v :=
  Filled.other h v (by simpa [List.map_map, Function.comp_def] using hv)

omit [DecidableEq ι] in
theorem Copied.page {vmas : List Vma} (h : Copied L s s' A B i j vmas) {vma : Vma}
    (hvma : vma ∈ vmas) {v : ℕ} (hv : v ∈ vpns vma) : ¬ Has (A.pte j v) PTE_V ∧
    ∃ f ∈ A.free, B.pte j v = mkPte f vma.pteFlags ∧
      ∀ o < 4096, s'.mem (f + o) = s.mem (PTE2PA (A.pte i v) + o) := by
  obtain ⟨hn, f, hf, hpte, hbytes⟩ := Filled.page h (vma, userByte s.mem A i)
    (List.mem_map_of_mem hvma) v hv
  exact ⟨hn, f, hf, hpte, fun o ho => (hbytes o ho).trans (userByte_page ho)⟩

omit [DecidableEq ι] in
/-- One vma, then the others. -/
theorem Copied.cons {vma : Vma} {vmas : List Vma} (hA : Reps L s A) (hij : i ≠ j)
    (hvma : Vma.Valid vma) (hU : Has vma.pteFlags PTE_U)
    (hu : ∀ v ∈ listVpns vmas, UserFrame L A i v (PTE2PA (A.pte i v)))
    (h₁ : Copied L s s₁ A B i j [vma]) (h₂ : Copied L s₁ s' B C i j vmas) :
    Copied L s s' A C i j (vma :: vmas) := by
  refine Filled.cons hA hvma hU h₁ ⟨h₂.reps, h₂.mem, h₂.grew, fun v hv => h₂.other ?_, ?_⟩
  · simpa [List.map_map, Function.comp_def] using hv
  · intro part hpart v hv
    obtain ⟨w, hw, rfl⟩ := List.mem_map.mp hpart
    obtain ⟨hn, f, hf, hpte, hbytes⟩ := h₂.page hw hv
    refine ⟨hn, f, hf, hpte, fun o ho => ?_⟩
    -- the page of the original is the same at `s`
    change _ = userByte s.mem A i (4096 * v + o)
    rw [userByte_page ho, hbytes o ho, h₁.grew.other i v hij]
    exact (hu v (mem_listVpns.mpr ⟨w, hw, hv⟩)).same hA h₁.mem ho

/-! ### One vma -/

/-- The vma that `mm_copy` makes for `vma`. -/
theorem wp_copyVma {vma : Vma} (h : Reps L s A) (hij : i ≠ j) (hi : Listed L A i old)
    (hvma : vma ∈ old.vma) (hnew : Listed L A j new)
    (hsup : Supplied A j vma.pteFlags (vpns vma))
    (hs₁ : Reps L s₁ (mapPages j vma.pteFlags (vpns vma) A).1)
    (hm₁ : SameOff (Kernel A) s.mem s₁.mem) :
    wpOk (forM (pages vma.vmStart vma.vmEnd) (copyPage L old { new with vma := vma :: new.vma })) s₁
      fun _ s' => Copied L s s' A (mapPages j vma.pteFlags (vpns vma) A).1 i j [vma] ∧
        s'.vmaObjs = s₁.vmaObjs := by
  obtain ⟨hval, hU⟩ := hi.valid vma hvma
  have hG := mapPages_grew (i := j) vma.pteFlags (vpns vma) A
  obtain ⟨r, hr, hpi⟩ := (hi.grew hG).root
  obtain ⟨t, ht, hpj⟩ := (hnew.grew hG).root
  have hui : ∀ v ∈ vpns vma, UserFrame L A i v (PTE2PA (A.pte i v)) := fun v hv =>
    hi.userFrame (mem_listVpns.mpr ⟨vma, hvma, hv⟩)
  refine (wp_copyPages hij hpi hpj hr ht hs₁
    (fun va hva => aligned_of_mem_pages hval.start_al hva) (nodup_vpns hval.start_al)
    fun v hv => ⟨?_, ?_⟩).imp ?_
  · rw [hG.other i v hij]
    exact (hui v hv).congr (hG.other i v hij)
  · obtain ⟨-, f, -, -, hu⟩ := userFrame_mapped h.ok hval hU hsup hv
    rw [hu.target]; exact hu
  · rintro _ s₂ ⟨hs₂, hbytes⟩
    refine ⟨filled_one h hval hU hsup hm₁ hs₂.reps hs₂.mem fun v hv o ho => ?_, hs₂.vmaObjs⟩
    rw [hbytes v hv o ho, hG.other i v hij, userByte_page ho]
    exact (hui v hv).same h hm₁ ho

/-- The list of the copy. -/
def copiedList (vmas : List Vma) (new : Mm) : Mm := { new with vma := vmas.reverse ++ new.vma }

theorem copiedList_cons (vma : Vma) (vmas : List Vma) (new : Mm) :
    copiedList (vma :: vmas) new = copiedList vmas { new with vma := vma :: new.vma } := by
  simp [copiedList]

/-! ### All vmas -/

/-- **`mm_copy` returning 0 without shortage.** -/
theorem wet_mmCopyLoop (hij : i ≠ j) : ∀ {vmas : List Vma} {s : KState} {A : View ι} {new : Mm},
    Reps L s A → Listed L A i old → (∀ vma ∈ vmas, vma ∈ old.vma) → Listed L A j new →
    wet (mmCopyLoop L old vmas new) s fun o s' => o.1 = 0 →
      ∃ B, Copied L s s' A B i j vmas ∧ Listed L B j o.2 ∧ o.2 = copiedList vmas new
  | [], s, A, new, h, _, _, hnew => fun _ _ => ⟨A, Filled.nil h, hnew, rfl⟩
  | vma :: vmas, s, A, new, h, hi, hsub, hnew => by
    have hvma := hsub vma (by simp)
    obtain ⟨hval, hU⟩ := hi.valid vma hvma
    obtain ⟨t, ht, hpj⟩ := hnew.root
    have hG := mapPages_grew (i := j) vma.pteFlags (vpns vma) A
    refine (wet_of_wp (wp_kallocVma (Q := fun _ s' => s' = { s with vmaObjs := s.vmaObjs + 1 })
      (E := fun _ _ => True) (fun _ => rfl) fun _ => trivial)).seq (fun _ => ?_) ?_
    · exact logGrows_iff.mpr ((keeps_mmMappages _ _).bind fun o =>
        keeps_copyRound (keeps_mmCopyLoop old vmas) old vma o)
    rintro _ _ - rfl
    have h' := Reps.objs h s.mmObjs (s.vmaObjs + 1)
    refine (wet_of_wp (wp_mmMappages h' ht hpj hval)).seq (fun o => ?_) ?_
    · exact logGrows_iff.mpr (keeps_copyRound (keeps_mmCopyLoop old vmas) old vma o)
    rintro ⟨o, new'⟩ s₁ hd ⟨hs₁, ho⟩
    have hdry : ¬ (mapPages j vma.pteFlags (vpns vma) A).1.dry := fun hc => hd (hs₁.reps.dry.mp hc)
    cases hmap : (mapPages j vma.pteFlags (vpns vma) A).2 with
    | false =>
      rw [hmap] at ho
      cases ho
      refine wet.seq (P := fun _ _ => True) (wet_of_wp (E := fun _ _ => True) ?_)
        (fun _ => logGrows_iff.mpr (keeps_pure _)) fun _ _ _ _ => ?_
      · have hn := (hnew.grew hG)
        exact (wp_mmFreePages hs₁.reps hn).imp fun _ _ _ => trivial
      · exact fun _ hc => absurd hc (by simp)
    | true =>
      rw [hmap] at ho
      cases ho
      have hsup := supplied_of_wet hmap hdry
      refine (wet_of_wp (wp_copyVma h hij hi hvma hnew hsup hs₁.reps hs₁.mem)).seq
        (fun _ => logGrows_iff.mpr (keeps_mmCopyLoop _ _ _)) ?_
      rintro _ s₂ - ⟨hc, -⟩
      have hu : ∀ v ∈ listVpns vmas, UserFrame L A i v (PTE2PA (A.pte i v)) := fun v hv => by
        obtain ⟨w, hw, hv⟩ := mem_listVpns.mp hv
        exact hi.userFrame (mem_listVpns.mpr ⟨w, hsub w (by simp [hw]), hv⟩)
      refine (wet_mmCopyLoop hij hc.reps (hi.grew hG) (fun w hw => hsub w (by simp [hw]))
        (hnew.cons h.ok hval hU hsup)).imp ?_
      rintro o s' hpost h0
      obtain ⟨C, hC, hl, he⟩ := hpost h0
      exact ⟨C, hc.cons h hij hval hU hu hC, hl, by rw [he, copiedList_cons]⟩

/-- **`mm_copy` with enough frames and objects** returns 0. -/
theorem wp_mmCopyLoop (hij : i ≠ j) : ∀ {vmas : List Vma} {s : KState} {A : View ι} {new : Mm},
    Reps L s A → Listed L A i old → (∀ vma ∈ vmas, vma ∈ old.vma) → Listed L A j new →
    (listVpns vmas).Nodup → (∀ v ∈ listVpns vmas, ¬ Has (A.pte j v) PTE_V) → ¬ A.dry →
    needed (A.tbl j) (listVpns vmas) ≤ A.free.length → s.vmaObjs + vmas.length ≤ objectCount →
    wpOk (mmCopyLoop L old vmas new) s fun o s' => o = (0, copiedList vmas new) ∧
      ∃ B, Copied L s s' A B i j vmas ∧ Listed L B j (copiedList vmas new) ∧ ¬ B.dry
  | [], s, A, new, h, _, _, hnew, _, _, hdry, _, _ => ⟨rfl, A, Filled.nil h, hnew, hdry⟩
  | vma :: vmas, s, A, new, h, hi, hsub, hnew, hnd, hfree, hdry, hlen, hobj => by
    have hvma := hsub vma (by simp)
    obtain ⟨hval, hU⟩ := hi.valid vma hvma
    obtain ⟨t, ht, hpj⟩ := hnew.root
    have hG := mapPages_grew (i := j) vma.pteFlags (vpns vma) A
    rw [listVpns_cons] at hnd hfree hlen
    obtain ⟨hnd₁, hnd₂, hdisj⟩ := List.nodup_append'.mp hnd
    rw [List.length_cons] at hobj
    unfold needed at hlen
    rw [List.length_append] at hlen
    have hle := missing_le_append (A.tbl j) (vpns vma) (listVpns vmas)
    obtain ⟨hmap, hdry₁⟩ := mapPages_enough (i := j) vma.pteFlags hdry hnd₁
      (fun v hv => hfree v (by simp [hv])) (by unfold needed; omega)
    obtain ⟨hcount, htbl⟩ := mapPages_count hmap hdry₁
    rw [missing_append htbl] at hlen
    refine wp_bind.mpr (wp_kallocVma (fun _ => ?_) fun hn => absurd (by omega) hn)
    have h' := Reps.objs h s.mmObjs (s.vmaObjs + 1)
    refine (wp_mmMappages h' ht hpj hval).seq ?_
    rintro ⟨o, new'⟩ s₁ ⟨hs₁, ho⟩
    rw [hmap] at ho
    cases ho
    have hsup := supplied_of_wet hmap hdry₁
    refine (wp_copyVma h hij hi hvma hnew hsup hs₁.reps hs₁.mem).seq ?_
    rintro _ s₂ ⟨hc, ho₂⟩
    have hu : ∀ v ∈ listVpns vmas, UserFrame L A i v (PTE2PA (A.pte i v)) := fun v hv => by
      obtain ⟨w, hw, hv⟩ := mem_listVpns.mp hv
      exact hi.userFrame (mem_listVpns.mpr ⟨w, hsub w (by simp [hw]), hv⟩)
    refine (wp_mmCopyLoop hij hc.reps (hi.grew hG) (fun w hw => hsub w (by simp [hw]))
      (hnew.cons h.ok hval hU hsup) hnd₂ (fun v hv => ?_) hdry₁ ?_ ?_).imp ?_
    · rw [mapPages_pte_of_not_mem fun hv' => hdisj hv' hv]
      exact hfree v (by simp [hv])
    · unfold needed; omega
    · rw [ho₂, hs₁.vmaObjs]; show s.vmaObjs + 1 + _ ≤ _; omega
    · rintro o s' ⟨ho, C, hC, hl, hd⟩
      rw [copiedList_cons]
      exact ⟨ho, C, hc.cons h hij hval hU hu hC, hl, hd⟩

end UCore.Vm.Copy
